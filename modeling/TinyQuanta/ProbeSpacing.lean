import Mathlib.Data.List.Perm.Subperm
import TinyQuanta.BlockMeter
import TinyQuanta.LoopSteps
import TinyQuanta.Machine

/-!
# The cost between two checks

Along a run, three things account for the cost since the last check: a first part
of at most one interval, what every loop probe has let pass, and the trail of
blocks without the loops it has completed. A back edge to a header on the trail
completes a loop, and the cost of that goes to the loop probe of the edge. So with
`B` back edges there are never more than `2 * B + 3` intervals between two checks.
-/
namespace TinyQuanta.ProbeSpacing

open Relation Params Planner PlannerSteps InsertProbes LoopNest Instrumented LoopCounters LoopCredit
  CloneCredit LoopForm LoopCosts BlockMeter LoopSteps

/-- An instrumented function whose loop probes count as they are meant to. -/
structure Setting (o : Options) (f : Func) (backEdges : List (Block × Block))
    (loops : Block × Block → Loop) (l : List Block) (pr : Probes) : Prop where
  settled : Settled o f backEdges l pr
  simplified : Simplified f backEdges loops
  exact : ∀ e ∈ backEdges, Exact o.commitInterval e (loops e)
  distinct : ∀ b ∈ f.blocks, (f.succs b).Nodup
  pos : 0 < o.commitInterval
  int : 2 * o.commitInterval ≤ intMax
  memOps : 0 ≤ o.memOpsCost ∧ o.memOpsCost ≤ o.commitInterval
  costs : ∀ b ∈ f.blocks, ∀ c ∈ f.costs b, 0 ≤ c ∧ c ≤ o.commitInterval
  block : ∀ b ∈ f.blocks, 1 ≤ (f.costs b).sum

/-- Where the cost since the last check went. -/
structure Account where
  first : Int
  charge : Block × Block → Int
  headers : List Block
  trail : List Block

def Account.all (a : Account) (p : Plan) (backEdges : List (Block × Block)) : Int :=
  a.first + (backEdges.dedup.map a.charge).sum + pathCost p a.trail

structure Books (o : Options) (f : Func) (backEdges : List (Block × Block))
    (loops : Block × Block → Loop) (l : List Block) (pr : Probes) (s : State) (a : Account) :
    Prop where
  cur : s.cur ∈ l
  clone : s.clone = true → hasClone pr loops s.cur
  first : 0 ≤ a.first ∧ a.first ≤ o.commitInterval
  nonneg : ∀ e, 0 ≤ a.charge e
  idle : ∀ e, ¬ pr.HasLoopProbe e → a.charge e = 0
  seen : ∀ e, a.charge e ≠ 0 → ReflTransGen (IsEdge f l) e.2 s.cur
  credit : ∀ e, pr.HasLoopProbe e → Credit (pr.numIters e) (pr.loopCost e) e (loops e) (spot s e)
    (a.charge e) a.first
  trail : a.trail = [] ∧ a.headers = [] ∨ ∃ R, a.trail = s.cur :: R ∧ Quiet pr.plan s.cur ∧
    Trail (Passes f backEdges l pr.plan) (IsBack backEdges l) a.headers (s.cur :: R)

/-- The invariant of a run. -/
def Spaced (o : Options) (f : Func) (backEdges : List (Block × Block))
    (loops : Block × Block → Loop) (l : List Block) (pr : Probes) (s : State) : Prop :=
  s.meter.worst ≤ (2 * backEdges.dedup.length + 3) * o.commitInterval ∧
    ∃ a, Books o f backEdges loops l pr s a ∧ s.meter.gap ≤ a.all pr.plan backEdges

/-! ## What an account can hold -/

/-- A loop of several blocks counts with its charge and its header on the trail, a self loop with
twice the charge. -/
theorem sum_charge_le {ci : Int} {ch : Block × Block → Int}
    (h : ∀ e, ch e ≤ 2 * ci ∧ (e.1 ≠ e.2 → ch e ≤ ci)) (E : List (Block × Block)) :
    (E.map ch).sum + (E.filter fun e => e.1 ≠ e.2).length * ci ≤ 2 * E.length * ci := by
  induction E with
  | nil => simp
  | cons e E ih =>
    have hlen : 2 * ((e :: E).length : Int) * ci = 2 * E.length * ci + 2 * ci := by
      rw [List.length_cons, Int.natCast_add, Int.mul_add, Int.add_mul]
      rfl
    rw [hlen, List.map_cons, List.sum_cons]
    by_cases hself : e.1 = e.2
    · have hfilter : ((e :: E).filter fun e => e.1 ≠ e.2) = E.filter fun e => e.1 ≠ e.2 := by
        simp [hself]
      have hle := (h e).1
      rw [hfilter]
      omega
    · have hfilter : ((e :: E).filter fun e => e.1 ≠ e.2).length =
          (E.filter fun e => e.1 ≠ e.2).length + 1 := by simp [hself]
      have hle := (h e).2 hself
      rw [hfilter, Int.natCast_add, Int.add_mul]
      omega

section Books

variable {o : Options} {f : Func} {backEdges : List (Block × Block)} {loops : Block × Block → Loop}
  {l : List Block} {pr : Probes} {s t : State} {a : Account} {c : Choice}

theorem Setting.bounds (hS : Setting o f backEdges loops l pr) {e : Block × Block}
    (hp : pr.HasLoopProbe e) : Bounds o.commitInterval (pr.numIters e) (pr.loopCost e) :=
  ⟨hS.settled.iters_pos e hp, hS.settled.cost_pos e hp, hS.settled.iters_le e hp, by
    have hpos := hS.pos
    have hint := hS.int
    omega⟩

theorem Setting.interval_le (hS : Setting o f backEdges loops l pr) :
    o.commitInterval ≤ (2 * backEdges.dedup.length + 3) * o.commitInterval := by
  have hle := Int.mul_le_mul_of_nonneg_right
    (show (1 : Int) ≤ 2 * backEdges.dedup.length + 3 by omega) (Int.le_of_lt hS.pos)
  rwa [Int.one_mul] at hle

theorem Books.charge_le (hS : Setting o f backEdges loops l pr)
    (h : Books o f backEdges loops l pr s a) (e : Block × Block) :
    a.charge e ≤ 2 * o.commitInterval ∧ (e.1 ≠ e.2 → a.charge e ≤ o.commitInterval) := by
  have hpos := hS.pos
  by_cases hp : pr.HasLoopProbe e
  · have he := (hS.settled.back e hp).1
    rcases credit_le (hS.bounds hp) (hS.exact e he) (h.credit e hp) with hle | ⟨hself, -, hle⟩
    · exact ⟨by omega, fun _ => hle⟩
    · exact ⟨hle, fun hne => absurd hself hne⟩
  · rw [h.idle e hp]
    exact ⟨by omega, fun _ => by omega⟩

theorem headers_length {opn : Block → Block → Prop} {hs P : List Block}
    (h : Trail opn (IsBack backEdges l) hs P) :
    hs.length ≤ (backEdges.dedup.filter fun e => e.1 ≠ e.2).length := by
  have hsub : hs ⊆ (backEdges.dedup.filter fun e => e.1 ≠ e.2).map Prod.snd := by
    intro x hx
    obtain ⟨u, hb, hne⟩ := h.header x hx
    refine List.mem_map.mpr ⟨(u, x), List.mem_filter.mpr ⟨List.mem_dedup.mpr hb.2, ?_⟩, rfl⟩
    simpa using hne
  have hle := (h.nodup.subperm hsub).length_le
  rwa [List.length_map] at hle

theorem Books.trail_le (hS : Setting o f backEdges loops l pr)
    (h : Books o f backEdges loops l pr s a) : pathCost pr.plan a.trail ≤
      (backEdges.dedup.filter fun e => e.1 ≠ e.2).length * o.commitInterval + o.commitInterval := by
  have hpos := hS.pos
  rcases h.trail with ⟨htrail, -⟩ | ⟨R, htrail, -, ht⟩
  · rw [htrail]
    have hnn : 0 ≤ ((backEdges.dedup.filter fun e => e.1 ≠ e.2).length : Int) * o.commitInterval :=
      Int.mul_nonneg (by omega) (by omega)
    rw [pathCost_nil]
    omega
  · have hle := ht.sum_le hS.settled.stretch
    have hlen := Int.mul_le_mul_of_nonneg_right (Int.ofNat_le.mpr (headers_length ht))
      (Int.le_of_lt hpos)
    rw [Int.add_mul, Int.one_mul] at hle
    rw [htrail, pathCost]
    omega

theorem Books.all_le (hS : Setting o f backEdges loops l pr)
    (h : Books o f backEdges loops l pr s a) :
    a.all pr.plan backEdges + o.commitInterval ≤
      (2 * backEdges.dedup.length + 3) * o.commitInterval := by
  have hcharge := sum_charge_le (h.charge_le hS) backEdges.dedup
  have htrail := h.trail_le hS
  have hfirst := h.first.2
  rw [Int.add_mul]
  unfold Account.all
  omega

/-! ## Credits after a step -/

/-- The edge is the only one to its block. -/
theorem Books.first_edge (hS : Setting o f backEdges loops l pr)
    (h : Books o f backEdges loops l pr s a) (hstep : step o f pr loops s c = some t) : c.nth = 0 :=
  step_first (hS.distinct _ (hS.settled.sorted.reachable h.cur).blocks) hstep

/-- A loop that is not nested has not run before its preheader. -/
theorem Books.unseen (hS : Setting o f backEdges loops l pr)
    (h : Books o f backEdges loops l pr s a) (hstep : step o f pr loops s c = some t)
    {e : Block × Block} (he : e ∈ backEdges) (hn : (loops e).isNested = false)
    (ht : t.cur = (loops e).preheader) : a.charge e ≤ 0 := by
  by_contra hpos
  have hnext := (step_eq hstep).1
  rw [(step_meter hstep).1] at ht
  have hr := (h.seen e (by omega)).tail ⟨h.cur, hnext⟩
  have hmem := hS.simplified.succ_mem hS.settled.sorted h.cur hnext
  rw [ht] at hr hmem
  exact hS.simplified.preheader_once hS.settled.sorted he hn hmem hr

section Step

variable (hS : Setting o f backEdges loops l pr) (h : Books o f backEdges loops l pr s a)
  (hstep : step o f pr loops s c = some t) (hreg : Regular backEdges loops c.next c.init c.final)

include hS h hstep hreg

/-- An edge that checks. -/
theorem credit_hit (hhit : hits pr loops s c = true) {e : Block × Block}
    (hp : pr.HasLoopProbe e) :
    Credit (pr.numIters e) (pr.loopCost e) e (loops e) (spot t e) 0 0 := by
  have he := (hS.settled.back e hp).1
  have hsh := hS.simplified.shape he
  by_cases hedge : e = (s.cur, c.next)
  · subst hedge
    have hlatch := step_latch hS.settled hS.simplified h.cur h.clone hstep
      (h.first_edge hS hstep) hp
    exact (credit_latch (hS.bounds hp) hsh (hS.exact _ he) (h.credit _ hp) hlatch).2 hhit
  · rcases step_other hS.settled hS.simplified h.cur hstep hp hedge (h.first_edge hS hstep) h.clone
      hreg with hd | ⟨-, hcl, hh⟩
    · refine credit_mono (credit_drift (hS.bounds hp) hsh (hS.exact e he) (h.credit e hp) hd ?_ 0)
        (h.nonneg e) (Int.le_refl 0)
      exact fun hn ht => h.unseen hS hstep he hn ht
    · exact credit_cloneHit (hS.bounds hp) hsh (hS.exact e he) hcl (h.credit e hp) hh

/-- The loops of the other edges keep their charge. -/
theorem credit_other (hmiss : hits pr loops s c = false) {e : Block × Block}
    (hp : pr.HasLoopProbe e) (hedge : e ≠ (s.cur, c.next)) (x : Int) :
    Credit (pr.numIters e) (pr.loopCost e) e (loops e) (spot t e) (a.charge e) x := by
  have he := (hS.settled.back e hp).1
  rcases step_other hS.settled hS.simplified h.cur hstep hp hedge (h.first_edge hS hstep) h.clone
    hreg with hd | ⟨hhit, -, -⟩
  · refine credit_drift (hS.bounds hp) (hS.simplified.shape he) (hS.exact e he)
      (h.credit e hp) hd ?_ x
    exact fun hn ht => h.unseen hS hstep he hn ht
  · rw [hmiss] at hhit
    cases hhit

omit hreg in
/-- The loop of the edge is charged once more, or the first part is. -/
theorem credit_same (hmiss : hits pr loops s c = false)
    (hp : pr.HasLoopProbe (s.cur, c.next)) :
    Credit (pr.numIters (s.cur, c.next)) (pr.loopCost (s.cur, c.next)) (s.cur, c.next)
        (loops (s.cur, c.next)) (spot t (s.cur, c.next))
        (a.charge (s.cur, c.next) + pr.loopCost (s.cur, c.next)) a.first ∨
      Credit (pr.numIters (s.cur, c.next)) (pr.loopCost (s.cur, c.next)) (s.cur, c.next)
        (loops (s.cur, c.next)) (spot t (s.cur, c.next)) (a.charge (s.cur, c.next))
        (a.first + pr.loopCost (s.cur, c.next)) ∧
        a.first + pr.loopCost (s.cur, c.next) ≤ o.commitInterval := by
  have he := (hS.settled.back _ hp).1
  have hlatch := step_latch hS.settled hS.simplified h.cur h.clone hstep (h.first_edge hS hstep) hp
  exact (credit_latch (hS.bounds hp) (hS.simplified.shape he) (hS.exact _ he) (h.credit _ hp)
    hlatch).1 hmiss

theorem credit_keep (hmiss : hits pr loops s c = false) {e : Block × Block}
    (hp : pr.HasLoopProbe e) :
    Credit (pr.numIters e) (pr.loopCost e) e (loops e) (spot t e) (a.charge e) a.first := by
  by_cases hedge : e = (s.cur, c.next)
  · subst hedge
    have hpos := hS.settled.cost_pos _ hp
    rcases credit_same hS h hstep hmiss hp with hc | ⟨hc, -⟩
    · exact credit_mono hc (by omega) (Int.le_refl _)
    · exact credit_mono hc (Int.le_refl _) (by omega)
  · exact credit_other hS h hstep hreg hmiss hp hedge a.first

/-- A block that is not quiet is no self loop with a probe. -/
theorem credit_loud (hloud : ¬ Quiet pr.plan t.cur) {e : Block × Block} (hp : pr.HasLoopProbe e)
    (x : Int) : Credit (pr.numIters e) (pr.loopCost e) e (loops e) (spot t e) 0 x := by
  have haway : e.1 = e.2 → (spot t e).cur ≠ e.2 := by
    intro hself hcur
    have hcur : t.cur = e.2 := hcur
    apply hloud
    rw [hcur]
    exact ⟨hS.settled.header e hp, hself ▸ (hS.settled.back e hp).2.2⟩
  refine credit_free ?_ haway x (x := 0)
  cases hhit : hits pr loops s c with
  | true => exact credit_hit hS h hstep hreg hhit hp
  | false =>
    exact credit_mono (credit_keep hS h hstep hreg hhit hp) (h.nonneg e) h.first.1

/-! ## Books after a step -/

omit hreg in
theorem next_mem : t.cur ∈ l := by
  rw [(step_meter hstep).1]
  exact hS.simplified.succ_mem hS.settled.sorted h.cur (step_eq hstep).1

omit hS hreg in
theorem reaches_next {b : Block} (hr : ReflTransGen (IsEdge f l) b s.cur) :
    ReflTransGen (IsEdge f l) b t.cur := by
  rw [(step_meter hstep).1]
  exact hr.tail ⟨h.cur, (step_eq hstep).1⟩

/-- No charge, and a new trail. -/
theorem books_keep (hmiss : hits pr loops s c = false) {hs P : List Block}
    (htrail : P = [] ∧ hs = [] ∨ ∃ R, P = t.cur :: R ∧ Quiet pr.plan t.cur ∧
      Trail (Passes f backEdges l pr.plan) (IsBack backEdges l) hs (t.cur :: R)) :
    Books o f backEdges loops l pr t ⟨a.first, a.charge, hs, P⟩ where
  cur := next_mem hS h hstep
  clone := step_clone h.clone hstep
  first := h.first
  nonneg := h.nonneg
  idle := h.idle
  seen e he := reaches_next h hstep (h.seen e he)
  credit _ hp := credit_keep hS h hstep hreg hmiss hp
  trail := htrail

/-- A completed loop is charged to its probe. -/
theorem books_charge (hmiss : hits pr loops s c = false)
    (hp : pr.HasLoopProbe (s.cur, c.next)) {hs R : List Block} (hq : Quiet pr.plan t.cur)
    (htrail : Trail (Passes f backEdges l pr.plan) (IsBack backEdges l) hs (t.cur :: R)) :
    ∃ b, Books o f backEdges loops l pr t b ∧ b.all pr.plan backEdges =
      a.first + (backEdges.dedup.map a.charge).sum + pr.loopCost (s.cur, c.next) +
        pathCost pr.plan (t.cur :: R) := by
  have hpos := hS.settled.cost_pos _ hp
  have he := (hS.settled.back _ hp).1
  rcases credit_same hS h hstep hmiss hp with hc | ⟨hc, hle⟩
  · refine ⟨⟨a.first, Function.update a.charge (s.cur, c.next)
      (a.charge (s.cur, c.next) + pr.loopCost (s.cur, c.next)), hs, t.cur :: R⟩, ?_, ?_⟩
    · refine ⟨next_mem hS h hstep, step_clone h.clone hstep, h.first, fun e => ?_, fun e hne => ?_,
        fun e hne => ?_, fun e hpe => ?_, .inr ⟨R, rfl, hq, htrail⟩⟩
      all_goals by_cases hedge : e = (s.cur, c.next)
      · subst hedge
        have hnn := h.nonneg (s.cur, c.next)
        simp only [Function.update_self]
        omega
      · simpa only [Function.update_of_ne hedge] using h.nonneg e
      · exact absurd (hedge ▸ hp) hne
      · simpa only [Function.update_of_ne hedge] using h.idle e hne
      · subst hedge
        rw [(step_meter hstep).1]
      · simp only [Function.update_of_ne hedge] at hne
        exact reaches_next h hstep (h.seen e hne)
      · subst hedge
        simpa only [Function.update_self] using hc
      · simpa only [Function.update_of_ne hedge] using
          credit_keep hS h hstep hreg hmiss hpe
    · simp only [Account.all]
      rw [sum_map_update _ _ (List.nodup_dedup _) (List.mem_dedup.mpr he)]
      omega
  · have hfirst := h.first.1
    refine ⟨⟨a.first + pr.loopCost (s.cur, c.next), a.charge, hs, t.cur :: R⟩, ?_, ?_⟩
    · refine ⟨next_mem hS h hstep, step_clone h.clone hstep,
        ⟨Int.add_nonneg hfirst (Int.le_of_lt hpos), hle⟩, h.nonneg, h.idle,
        fun e hne => reaches_next h hstep (h.seen e hne), fun e hpe => ?_,
          .inr ⟨R, rfl, hq, htrail⟩⟩
      by_cases hedge : e = (s.cur, c.next)
      · subst hedge
        exact hc
      · exact credit_other hS h hstep hreg hmiss hpe hedge _
    · simp only [Account.all]
      omega

omit hreg in
/-- A forward edge without a check goes on. -/
theorem passes_next (hmiss : hits pr loops s c = false) (hq : Quiet pr.plan s.cur)
    (hback : (s.cur, c.next) ∉ backEdges) :
    Passes f backEdges l pr.plan s.cur c.next := by
  have hnp : ¬ pr.HasLoopProbe (s.cur, c.next) := fun hp => hback (hS.settled.back _ hp).1
  refine ⟨h.cur, mem_forward.mpr ⟨(step_eq hstep).1, hback⟩, ?_, hq⟩
  have hnorm : pr.plan.inst (s.cur, c.next) ≠ .normInst := by
    intro hi
    rw [hits_first (h.first_edge hS hstep)] at hmiss
    cases hc : s.clone with
    | false => simp [hitsFirst, hc, hnp, hi] at hmiss
    | true =>
      have hne : c.next ≠ s.cur := fun heq => hback (heq ▸ (hS.settled.back _ (h.clone hc).1).1)
      simp [hitsFirst, hc, hne, hi] at hmiss
  cases hi : pr.plan.inst (s.cur, c.next) with
  | uninst => rfl
  | normInst => exact absurd hi hnorm
  | loopInst => exact absurd (hS.settled.loopInst _ hi) hnp

/-- A step to a quiet block, over an edge without a check. -/
theorem books_quiet (hmiss : hits pr loops s c = false) (hq : Quiet pr.plan t.cur) :
    ∃ b, Books o f backEdges loops l pr t b ∧
      a.all pr.plan backEdges + pr.plan.costMap t.cur ≤ b.all pr.plan backEdges := by
  have hcur := (step_meter hstep).1
  have hkeep : ∀ hs R, Trail (Passes f backEdges l pr.plan) (IsBack backEdges l) hs (t.cur :: R) →
      R = a.trail → ∃ b, Books o f backEdges loops l pr t b ∧
        a.all pr.plan backEdges + pr.plan.costMap t.cur ≤ b.all pr.plan backEdges := by
    rintro hs _ ht rfl
    refine ⟨_, books_keep hS h hstep hreg hmiss (.inr ⟨a.trail, rfl, hq, ht⟩), ?_⟩
    simp only [Account.all, pathCost_cons]
    omega
  rcases h.trail with ⟨htrail, -⟩ | ⟨R, htrail, hqs, ht⟩
  · exact hkeep [] [] (.one t.cur) htrail.symm
  · by_cases hback : (s.cur, c.next) ∈ backEdges
    · have hb : IsBack backEdges l s.cur c.next := ⟨h.cur, hback⟩
      by_cases hmem : c.next ∈ s.cur :: R
      · obtain ⟨Q, R', hcut, ht', hQ⟩ := ht.cut (hS.simplified.nest hS.settled.sorted)
          (fun u v hp => ⟨hp.1, (mem_forward.mp hp.2.1).1⟩) hmem hb
        have hhead : ∃ Q', Q ++ [c.next] = s.cur :: Q' := by
          cases Q with
          | nil => exact ⟨[], by rw [(List.cons.inj hcut).1]; rfl⟩
          | cons q Q => exact ⟨Q ++ [c.next], by cases hcut; rfl⟩
        obtain ⟨Q', hQ'⟩ := hhead
        have hlast : (s.cur :: Q').getLast? = some c.next := by rw [← hQ', List.getLast?_concat]
        obtain ⟨hp, hcost⟩ :=
          hS.settled.around Q' s.cur c.next h.cur hback hqs (hQ' ▸ hQ) hlast
        obtain ⟨b, hb, hall⟩ := books_charge hS h hstep hreg hmiss hp hq (hcur ▸ ht')
        refine ⟨b, hb, ?_⟩
        rw [← hQ', pathCost_snoc] at hcost
        rw [hall, hcur]
        simp only [Account.all, htrail, hcut, pathCost_append, pathCost_cons]
        omega
      · exact hkeep (c.next :: a.headers) (s.cur :: R) (hcur ▸ .back c.next ht hb hmem) htrail.symm
    · exact hkeep a.headers (s.cur :: R)
        (hcur ▸ .forward c.next ht (passes_next hS h hstep hmiss hqs hback)) htrail.symm

end Step

/-! ## Runs -/

theorem books_fresh {x : Int} (hcur : t.cur ∈ l) (hclone : t.clone = true → hasClone pr loops t.cur)
    (hx : 0 ≤ x ∧ x ≤ o.commitInterval)
    (hcredit : ∀ e, pr.HasLoopProbe e →
      Credit (pr.numIters e) (pr.loopCost e) e (loops e) (spot t e) 0 x)
    {P : List Block} (hP : P = [] ∨ P = [t.cur] ∧ Quiet pr.plan t.cur) :
    Books o f backEdges loops l pr t ⟨x, fun _ => 0, [], P⟩ where
  cur := hcur
  clone := hclone
  first := hx
  nonneg _ := Int.le_refl 0
  idle _ _ := rfl
  seen _ hne := absurd rfl hne
  credit := hcredit
  trail := hP.imp (fun h => ⟨h, rfl⟩) fun h => ⟨[], h.1, h.2, .one t.cur⟩

/-- Running a quiet block. -/
theorem spaced_quiet (hS : Setting o f backEdges loops l pr) {m : Meter}
    (hm : t.meter = m.events (blockCode o f pr loops t.cur)) (hq : Quiet pr.plan t.cur)
    (hw : m.worst ≤ (2 * backEdges.dedup.length + 3) * o.commitInterval)
    (hb : Books o f backEdges loops l pr t a)
    (hg : m.gap + pr.plan.costMap t.cur ≤ a.all pr.plan backEdges) :
    Spaced o f backEdges loops l pr t := by
  have hall := hb.all_le hS
  have hpos := hS.pos
  have hblock := (hS.settled.sorted.reachable hb.cur).blocks
  obtain ⟨hgap, hworst⟩ := quiet_block (hS.settled.weights _ hb.cur) (hS.costs _ hblock) hq m hw
    (by omega)
  rw [← hm] at hgap hworst
  exact ⟨hworst, a, hb, hgap ▸ hg⟩

/-- Running any other block. -/
theorem spaced_loud (hS : Setting o f backEdges loops l pr) {m : Meter}
    (hm : t.meter = m.events (blockCode o f pr loops t.cur)) (hq : ¬ Quiet pr.plan t.cur)
    (hcur : t.cur ∈ l) (hclone : t.clone = true → hasClone pr loops t.cur)
    (hcredit : ∀ e, pr.HasLoopProbe e → ∀ x,
      Credit (pr.numIters e) (pr.loopCost e) e (loops e) (spot t e) 0 x)
    (hw : m.worst ≤ (2 * backEdges.dedup.length + 3) * o.commitInterval)
    (hg : m.gap + o.commitInterval ≤ (2 * backEdges.dedup.length + 3) * o.commitInterval) :
    Spaced o f backEdges loops l pr t := by
  have hpos := hS.pos
  have hblock := (hS.settled.sorted.reachable hcur).blocks
  obtain ⟨hgap, hworst⟩ := loud_block hpos hS.interval_le hS.int hS.memOps
    (hS.settled.weights _ hcur) (hS.costs _ hblock) (hS.block _ hblock) hq m hw hg
  rw [← hm] at hgap hworst
  refine ⟨hworst, _, books_fresh hcur hclone ⟨Int.le_of_lt hpos, Int.le_refl _⟩
    (fun e hp => hcredit e hp _) (.inl rfl), ?_⟩
  simpa [Account.all] using hgap

theorem spaced_step (hS : Setting o f backEdges loops l pr) (h : Spaced o f backEdges loops l pr s)
    (hreg : Regular backEdges loops c.next c.init c.final)
    (hstep : step o f pr loops s c = some t) : Spaced o f backEdges loops l pr t := by
  obtain ⟨hworst, a, hb, hgap⟩ := h
  have hall := hb.all_le hS
  have hpos := hS.pos
  have hle := hS.interval_le
  have hmeter := (step_meter hstep).2
  have hmem := next_mem hS hb hstep
  have hclone := step_clone hb.clone hstep
  by_cases hq : Quiet pr.plan t.cur
  · cases hhit : hits pr loops s c with
    | true =>
      rw [hhit, if_pos rfl] at hmeter
      refine spaced_quiet hS hmeter hq hworst (books_fresh hmem hclone ⟨Int.le_refl 0, by omega⟩
        (fun e hp => credit_hit hS hb hstep hreg hhit hp) (.inr ⟨rfl, hq⟩)) ?_
      simp [Account.all, Meter.event]
    | false =>
      rw [hhit, if_neg Bool.false_ne_true] at hmeter
      obtain ⟨b, hb', hbook⟩ := books_quiet hS hb hstep hreg hhit hq
      exact spaced_quiet hS hmeter hq hworst hb' (by omega)
  · refine spaced_loud hS hmeter hq hmem hclone
      (fun e hp x => credit_loud hS hb hstep hreg hq hp x) ?_ ?_
    · split <;> exact hworst
    · split
      · simp only [Meter.event]
        omega
      · omega

theorem exists_outside (l : Loop) : ∃ b : Block, b ∉ l.body ∧ b ≠ l.preheader := by
  have hbound : ∀ bs : List Nat, ∃ m, ∀ b ∈ bs, b < m := by
    intro bs
    induction bs with
    | nil => exact ⟨0, fun _ h => absurd h List.not_mem_nil⟩
    | cons b bs ih =>
      obtain ⟨m, hm⟩ := ih
      refine ⟨max m (b + 1), fun x hx => ?_⟩
      rcases List.mem_cons.mp hx with rfl | hx
      · omega
      · have hlt := hm x hx
        omega
  obtain ⟨m, hm⟩ := hbound (l.preheader :: l.body)
  exact ⟨m, fun h => Nat.lt_irrefl m (hm m (List.mem_cons_of_mem _ h)),
    fun h => Nat.lt_irrefl m (hm m (h ▸ List.mem_cons_self))⟩

theorem credit_start (hS : Setting o f backEdges loops l pr) {init final : Int}
    (hreg : Regular backEdges loops f.entry init final) {e : Block × Block}
    (hp : pr.HasLoopProbe e) (x : Int) :
    Credit (pr.numIters e) (pr.loopCost e) e (loops e) (spot (start o f pr loops init final) e) 0
      x := by
  have he := (hS.settled.back e hp).1
  have hsh := hS.simplified.shape he
  have hentry := hS.simplified.entry e he
  have hx := hS.simplified.entry_exit e he
  -- as if coming from a block that has nothing to do with the loop
  obtain ⟨b, hb, hbp⟩ := exists_outside (loops e)
  have hcredit := credit_entry (hS.bounds hp) hsh (hS.exact e he)
    (a := ⟨b, false, atEntry (pr.numIters e) (loops e)⟩) rfl hb hbp x
  refine credit_drift (hS.bounds hp) hsh (hS.exact e he) hcredit ?_ (fun _ _ => Int.le_refl 0) x
  have hslots : (spot (start o f pr loops init final) e).slots =
      atBlockEnd pr loops e f.entry init final (atEntry (pr.numIters e) (loops e)) := if_pos hp
  by_cases hpre : f.entry = (loops e).preheader
  · exact .preheader init final hb hpre (hslots.trans (atBlockEnd_preheader hpre hx _ _ _))
      (hreg e he hpre)
  · exact .outside hb hentry hpre (hslots.trans (atBlockEnd_same hpre hx _ _ _))

theorem spaced_start (hS : Setting o f backEdges loops l pr) {init final : Int}
    (hreg : Regular backEdges loops f.entry init final) :
    Spaced o f backEdges loops l pr (start o f pr loops init final) := by
  have hpos := hS.pos
  have hle := hS.interval_le
  have hmem : f.entry ∈ l := (hS.settled.sorted.mem f.entry).mpr .refl
  by_cases hq : Quiet pr.plan f.entry
  · refine spaced_quiet hS rfl hq (Int.le_trans (Int.le_of_lt hpos) hle)
      (books_fresh hmem (fun h => by cases h) ⟨Int.le_refl 0, Int.le_of_lt hpos⟩
        (fun e hp => credit_start hS hreg hp 0) (.inr ⟨rfl, hq⟩)) ?_
    simp [Account.all, start]
  · refine spaced_loud hS rfl hq hmem (fun h => by cases h)
      (fun e hp x => credit_start hS hreg hp x) (Int.le_trans (Int.le_of_lt hpos) hle) ?_
    simpa using hle

end Books

/-- For all instrumented functions whose loop probes count as they are meant to, and for all
executions that enter copied loops with ranges their latch counts. -/
theorem cost_between_checks (o : Options) (f : Func) (backEdges : List (Block × Block))
    (loops : Block × Block → Loop) (hacyc : Acyclic f backEdges)
    (hl : Simplified f backEdges loops) (hdist : ∀ b ∈ f.blocks, (f.succs b).Nodup)
    (hci : 0 < o.commitInterval) (hint : 2 * o.commitInterval ≤ intMax)
    (hmem : 0 ≤ o.memOpsCost ∧ o.memOpsCost ≤ o.commitInterval) (hmax : 0 ≤ o.maxE2EUninst)
    (hfc : 0 ≤ o.funcCallThreshold)
    (hcost : ∀ b ∈ f.blocks, ∀ c ∈ f.costs b, 0 ≤ c ∧ c ≤ o.commitInterval)
    (hblock : ∀ b ∈ f.blocks, 1 ≤ (f.costs b).sum) (hfit : Fits o f backEdges)
    (hex : ∀ e ∈ backEdges, Exact o.commitInterval e (loops e)) :
    ∃ N pr, (∀ n, N ≤ n → generateInst o f backEdges n = .ok pr) ∧
      ∀ init final cs s, Regular backEdges loops f.entry init final →
        Machine.Along (step o f pr loops)
          (fun _ c => Regular backEdges loops c.next c.init c.final) cs
          (start o f pr loops init final) →
        Machine.run (step o f pr loops) cs (start o f pr loops init final) = some s →
        s.meter.worst ≤ (2 * backEdges.dedup.length + 3) * o.commitInterval := by
  obtain ⟨N, pr, l, hpr, hset⟩ :=
    generateInst_settled hacyc hci hmax hfc (fun b hb c hc => (hcost b hb c hc).1) hfit hl
  have hS : Setting o f backEdges loops l pr :=
    ⟨hset, hl, hex, hdist, hci, hint, hmem, hcost, hblock⟩
  refine ⟨N, pr, hpr, fun init final cs s hreg halong hrun => ?_⟩
  have hinv := Machine.run_invariant (P := Spaced o f backEdges loops l pr) (spaced_start hS hreg)
    (fun s c t hs hc ht => spaced_step hS hs hc ht) hrun halong
  exact hinv.1

/-! ## A self loop inside another loop -/

theorem nest_entry : 0 ∈ [0, 1, 2, 3, 4] := by decide

def nest : Func where
  blocks := [0, 1, 2, 3, 4]
  entry := 0
  succs := fun b => [[1], [2], [2, 3], [1, 4], []].getD b []
  isRet := fun b => b == 4
  costs := fun b => [[1], [1], [14], [1], [1]].getD b []
  calls := fun _ => []
  entry_mem := nest_entry
  succs_mem := by decide

def nestEdges : List (Block × Block) := [(2, 2), (3, 1)]

/-- The self loop counts from 0; `finalUsable` says that its bound is known in the preheader. -/
def nestLoops (finalUsable : Bool) (e : Block × Block) : Loop :=
  if e = (2, 2) then ⟨1, [2], 2, [3], some (below .w32 1 (some 0) finalUsable)⟩
  else ⟨0, [1, 2, 3], 1, [4], none⟩

def nestOptions : Options := ⟨112, 1000, 40, 1⟩

theorem nest_simplified (u : Bool) : Simplified nest nestEdges (nestLoops u) where
  edge := by decide
  latch_unique := by decide
  header_mem := by decide +revert
  latch_mem := by decide +revert
  self_body := by decide +revert
  entry := by decide +revert
  entry_exit := by decide +revert
  closed e he b hb := by
    have hall : ∀ e ∈ nestEdges, ∀ b ∈ nest.blocks, ∀ v ∈ nest.succs b,
        v ∈ (nestLoops u e).body → v ≠ e.2 → b ∈ (nestLoops u e).body := by decide +revert
    exact hall e he b hb.blocks
  preheader e he b hb := by
    have hall : ∀ e ∈ nestEdges, ∀ b ∈ nest.blocks, e.2 ∈ nest.succs b →
        b = e.1 ∨ b = (nestLoops u e).preheader := by decide +revert
    exact hall e he b hb.blocks
  preheader_out := by decide +revert
  preheader_succs := by decide +revert
  exits := by decide +revert
  exits_out := by decide +revert
  dedicated e he b hb := by
    have hall : ∀ e ∈ nestEdges, ∀ b ∈ nest.blocks, ∀ v ∈ nest.succs b,
        v ∈ (nestLoops u e).exitBlocks → b ∈ (nestLoops u e).body := by decide +revert
    exact hall e he b hb.blocks
  nested := by decide +revert

theorem nest_acyclic : Acyclic nest nestEdges := acyclic_of_rank id (by decide)

theorem nest_costs : (∀ b ∈ nest.blocks, ∀ c ∈ nest.costs b, 0 ≤ c ∧ c ≤ nestOptions.commitInterval)
    ∧
    ∀ b ∈ nest.blocks, 1 ≤ (nest.costs b).sum := by decide

theorem nest_fits : Fits nestOptions nest nestEdges :=
  .of_total nest_acyclic (fun b hb c hc => (nest_costs.1 b hb c hc).1) (by decide)

theorem nest_exact (e : Block × Block) : Exact nestOptions.commitInterval e (nestLoops true e) := by
  unfold nestLoops
  split
  · rename_i he
    subst he
    refine ⟨fun iv hiv => ?_, fun _ iv hiv => ?_, fun _ _ _ => rfl⟩
    · cases hiv
      exact ⟨by decide, fun c hc => by cases hc; decide⟩
    · cases hiv
      exact ⟨by decide, by decide⟩
  · exact ⟨fun iv hiv => (by cases hiv), fun _ iv hiv => (by cases hiv),
      fun _ _ hiv => absurd rfl hiv⟩

theorem nest_regular (b : Block) (init : Int) {final : Int} (h₀ : 0 < final)
    (h₁ : final < 2147483648) : Regular nestEdges (nestLoops true) b init final := by
  intro e _ _ hcl iv hiv
  have he : e = (2, 2) := by
    by_contra hne
    simp [cloneable, nestLoops, hne] at hcl
  subst he
  cases hiv
  have hinit : Width.w32.wrap ((some (0 : Int)).getD init) = 0 := rfl
  have hfinal : Width.w32.wrap final = final :=
    wrap_eq (by simp only [Width.half]; omega) (by simp only [Width.half]; omega)
  apply counts_below (by decide) <;> simp only [hinit, hfinal, Width.half] <;> omega

theorem cost_between_checks_nest :
    ∃ N pr, (∀ n, N ≤ n → generateInst nestOptions nest nestEdges n = .ok pr) ∧
      ∀ cs : List Choice, (∀ c ∈ cs, 0 < c.final ∧ c.final < 2147483648) → ∀ s,
        Machine.run (step nestOptions nest pr (nestLoops true)) cs
          (start nestOptions nest pr (nestLoops true) 0 1) = some s → s.meter.worst ≤ 784 := by
  obtain ⟨N, pr, hpr, hruns⟩ := cost_between_checks nestOptions nest nestEdges (nestLoops true)
    nest_acyclic (nest_simplified true) (by decide) (by decide) (by decide) (by decide) (by decide)
    (by decide) nest_costs.1 nest_costs.2 nest_fits fun e _ => nest_exact e
  refine ⟨N, pr, hpr, fun cs hcs s hrun => hruns 0 1 cs s ?_ ?_ hrun⟩
  · exact nest_regular _ _ (by decide) (by decide)
  · exact Machine.along_of_mem (fun c hc _ => nest_regular _ _ (hcs c hc).1 (hcs c hc).2) _

/-- Seven times round the outer loop, eight times round the self loop in each. -/
def nestChoices : List Choice :=
  (List.replicate 7 [1, 2, 2, 2, 2, 2, 2, 2, 2, 3]).flatten.map fun b => ⟨b, 0, 0, 8⟩

def nestWorst (finalUsable : Bool) : Option Int :=
  match generateInst nestOptions nest nestEdges 10 with
  | .error _ => none
  | .ok pr =>
    (Machine.run (step nestOptions nest pr (nestLoops finalUsable)) nestChoices
      (start nestOptions nest pr (nestLoops finalUsable) 0 8)).map fun s => s.meter.worst

set_option maxRecDepth 20000 in
theorem nestWorst_false : nestWorst false = some 799 := by decide +kernel

set_option maxRecDepth 20000 in
example : nestWorst true = some 114 := by decide +kernel

/-- Without a copy the self loop starts to count anew at each entry, so neither loop probe
checks while the self loop runs seven times to just below its threshold. -/
theorem nested_self_loop_overruns :
    Acyclic nest nestEdges ∧ Simplified nest nestEdges (nestLoops false) ∧
      (∀ b ∈ nest.blocks, ∀ c ∈ nest.costs b, 0 ≤ c ∧ c ≤ nestOptions.commitInterval) ∧
      (∀ b ∈ nest.blocks, 1 ≤ (nest.costs b).sum) ∧
      ∃ pr cs s, generateInst nestOptions nest nestEdges 10 = .ok pr ∧
        Machine.run (step nestOptions nest pr (nestLoops false)) cs
          (start nestOptions nest pr (nestLoops false) 0 8) = some s ∧
        (2 * nestEdges.dedup.length + 3) * nestOptions.commitInterval < s.meter.worst := by
  refine ⟨nest_acyclic, nest_simplified false, nest_costs.1, nest_costs.2, ?_⟩
  have hworst := nestWorst_false
  unfold nestWorst at hworst
  split at hworst
  · cases hworst
  · rename_i pr hpr
    obtain ⟨s, hrun, hs⟩ := Option.map_eq_some_iff.mp hworst
    exact ⟨pr, nestChoices, s, hpr, hrun, by rw [hs]; decide⟩

end TinyQuanta.ProbeSpacing
