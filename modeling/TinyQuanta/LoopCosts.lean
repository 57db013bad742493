import Mathlib.Data.List.Chain
import TinyQuanta.LoopForm
import TinyQuanta.PlannerBound

/-!
# What the emitted code relies on

Merging edge probes into block probes and cancelling back edges takes no probe
off any path. So the planning bound carries over to every stretch of the final
maps, the cost of a loop is at least that of every way around it without a probe,
and the number of iterations of a loop probe is positive and fits the interval.
-/
namespace TinyQuanta.LoopCosts

open Relation TopoSort Relaxation Planner PlannerSteps PlannerBound InsertProbes LoopNest LoopForm

variable {o : Options} {f : Func} {p q : Plan}

/-! ## Block probes -/

structure Merged (f : Func) (p q : Plan) : Prop where
  backEdges : q.backEdges = p.backEdges
  sortedBBs : q.sortedBBs = p.sortedBBs
  costMap : q.costMap = p.costMap
  probed : ∀ b ∈ q.instrumentedBB, ∀ s ∈ f.succs b, q.inst (b, s) = .uninst
  other : ∀ e, e.1 ∉ q.instrumentedBB → q.edgeInstMap e = p.edgeInstMap e
  all : ∀ e, q.edgeInstMap e = p.edgeInstMap e ∨ q.edgeInstMap e = some .uninst

theorem foldl_uninst (b : Block) (ss : List Block) (p : Plan) :
    ∃ m n, ss.foldl (fun p s =>
        { p.setInst (b, s) .uninst with numEdgeInst := p.numEdgeInst - 1 }) p =
          { p with edgeInstMap := m, numEdgeInst := n } ∧
      ∀ e, m e = if e.1 = b ∧ e.2 ∈ ss then some .uninst else p.edgeInstMap e := by
  induction ss generalizing p with
  | nil => exact ⟨p.edgeInstMap, p.numEdgeInst, rfl, by simp⟩
  | cons s ss ih =>
    obtain ⟨m, n, hm, he⟩ := ih { p.setInst (b, s) .uninst with numEdgeInst := p.numEdgeInst - 1 }
    refine ⟨m, n, by rw [List.foldl_cons, hm]; rfl, fun e => ?_⟩
    rw [he e]
    by_cases hes : e = (b, s)
    · subst hes
      simp [Plan.setInst]
    · have hne : ¬ (e.1 = b ∧ e.2 = s) := fun h => hes (Prod.ext h.1 h.2)
      by_cases hb : e.1 = b
      · have hs : e.2 ≠ s := fun h => hne ⟨hb, h⟩
        simp [Plan.setInst, hes, hb, hs]
      · simp [Plan.setInst, hes, hb]

theorem mergeBlock_merged (h : Merged f p q) (b : Block) : Merged f p (mergeBlock f q b) := by
  unfold mergeBlock
  split
  · obtain ⟨m, n, hm, he⟩ := foldl_uninst b (f.succs b) q
    simp only [hm]
    refine ⟨h.backEdges, h.sortedBBs, h.costMap, fun c hc s hs => ?_, fun e hne => ?_, fun e => ?_⟩
    · by_cases hcb : c = b
      · subst hcb
        simp [Plan.inst, he, hs]
      · have hold := h.probed c ((List.mem_cons.mp hc).resolve_left hcb) s hs
        simpa [Plan.inst, he, hcb] using hold
    · have hne : e.1 ≠ b ∧ e.1 ∉ q.instrumentedBB := by simpa using hne
      rw [← h.other e hne.2]
      simp [he, hne.1]
    · by_cases hb : e.1 = b ∧ e.2 ∈ f.succs b
      · exact .inr (by simp only [he, if_pos hb])
      · simpa only [he, if_neg hb] using h.all e
  · exact h

theorem mergeBlocks_merged (hp : p.instrumentedBB = []) : Merged f p (mergeBlocks f p) := by
  have key : ∀ (bs : List Block) (q : Plan), Merged f p q →
      Merged f p (bs.foldl (mergeBlock f) q) := by
    intro bs
    induction bs with
    | nil => exact fun q hq => hq
    | cons b bs ih => exact fun q hq => ih _ (mergeBlock_merged hq b)
  exact key f.blocks p ⟨rfl, rfl, rfl, by simp [hp], fun _ _ => rfl, fun _ => .inl rfl⟩

/-! ## Cancelled back edges -/

structure Cancelled (f : Func) (q r : Plan) : Prop where
  sortedBBs : r.sortedBBs = q.sortedBBs
  costMap : r.costMap = q.costMap
  instrumentedBB : r.instrumentedBB = q.instrumentedBB
  inst : ∀ e, r.inst e = if e ∈ q.backEdges ∧ q.inst e ≠ .uninst ∧ loopCost f q e = 0 then .uninst
    else q.inst e

theorem cancelBackEdges_cancelled (f : Func) (q : Plan) : Cancelled f q (cancelBackEdges f q) := by
  have key : ∀ (es : List (Block × Block)) (r : Plan),
      let r' := es.foldl (fun r e =>
        if q.inst e ≠ .uninst ∧ loopCost f q e = 0 then
          { r.setInst e .uninst with
            backEdges := r.backEdges.filter (· ≠ e)
            numEdgeInst := r.numEdgeInst - 1 }
        else r) r
      (r'.sortedBBs = r.sortedBBs ∧ r'.costMap = r.costMap ∧ r'.instrumentedBB = r.instrumentedBB) ∧
        ∀ e, r'.inst e = if e ∈ es ∧ q.inst e ≠ .uninst ∧ loopCost f q e = 0 then .uninst
          else r.inst e := by
    intro es
    induction es with
    | nil => exact fun r => ⟨⟨rfl, rfl, rfl⟩, by simp⟩
    | cons a es ih =>
      intro r
      simp only [List.foldl_cons]
      by_cases ha : q.inst a ≠ .uninst ∧ loopCost f q a = 0
      · rw [if_pos ha]
        obtain ⟨hsame, hinst⟩ := ih { r.setInst a .uninst with
            backEdges := r.backEdges.filter (· ≠ a)
            numEdgeInst := r.numEdgeInst - 1 }
        refine ⟨hsame, fun e => ?_⟩
        rw [hinst e]
        by_cases hea : e = a
        · subst hea
          simp [Plan.inst, Plan.setInst] at ha ⊢
          simp [ha]
        · simp [Plan.inst, Plan.setInst, hea]
      · rw [if_neg ha]
        obtain ⟨hsame, hinst⟩ := ih r
        refine ⟨hsame, fun e => ?_⟩
        rw [hinst e]
        by_cases hea : e = a
        · subst hea
          simp [ha]
        · simp [hea]
  obtain ⟨⟨hs, hc, hb⟩, hinst⟩ := key q.backEdges.dedup q
  refine ⟨hs, hc, hb, fun e => ?_⟩
  unfold cancelBackEdges
  rw [hinst e]
  simp only [List.mem_dedup]

/-- Only a back edge whose loop costs nothing is given up. -/
theorem mem_cancelBackEdges {e : Block × Block} (he : e ∈ q.backEdges)
    (hkeep : ¬ (q.inst e ≠ .uninst ∧ loopCost f q e = 0)) :
    e ∈ (cancelBackEdges f q).backEdges := by
  unfold cancelBackEdges
  refine List.foldlRecOn (motive := fun r : Plan => e ∈ r.backEdges) _ _ he fun r hr a _ => ?_
  by_cases ha : q.inst a ≠ .uninst ∧ loopCost f q a = 0
  · rw [if_pos ha]
    have hne : e ≠ a := fun hea => hkeep (hea ▸ ha)
    exact List.mem_filter.mpr ⟨hr, by simpa using hne⟩
  · rwa [if_neg ha]

/-! ## Distances on the final maps -/

/-- The path goes on over this forward edge, and reaches it in the first place. -/
def Passes (f : Func) (backEdges : List (Block × Block)) (l : List Block) (p : Plan)
    (u v : Block) : Prop := u ∈ l ∧ v ∈ forward f backEdges u ∧ propagates p u v

theorem Merged.nodup (h : Inv o f p) (hm : Merged f p q) : q.sortedBBs.Nodup := by
  rw [hm.sortedBBs]
  exact h.nodup

theorem Merged.topo (h : Inv o f p) (hm : Merged f p q) :
    RevTopo (forward f q.backEdges) q.sortedBBs := by
  rw [hm.sortedBBs, hm.backEdges]
  exact h.topo

theorem Merged.nonneg (h : Inv o f p) (hm : Merged f p q) : ∀ b ∈ q.sortedBBs, 0 ≤ q.costMap b := by
  rw [hm.sortedBBs, hm.costMap]
  exact h.nonneg

/-- A path that goes on after merging went on before. -/
theorem Merged.propagates (hm : Merged f p q) {u v : Block} (h : propagates q u v)
    (hp : p.instrumentedBB = []) : Planner.propagates p u v := by
  refine ⟨?_, by rw [← hm.costMap]; exact h.2.1, by simp [hp]⟩
  have hi := h.1
  simp only [Plan.inst, hm.other (u, v) h.2.2] at hi
  exact hi

theorem Merged.openEdge (h : Inv o f p) (hm : Merged f p q) {u v : Block}
    (hu : Passes f p.backEdges p.sortedBBs q u v) : OpenEdge f p u v := by
  obtain ⟨hul, hv, hprop⟩ := hu
  have hpp := hm.propagates hprop h.noBB
  exact ⟨hv, h.uninst hul (mem_forward.mp hv).1 hpp.1, hpp.2.1⟩

theorem Merged.metered (h : Inv o f p) (hm : Merged f p q) {startBB : Block}
    (hs : startBB ∈ p.sortedBBs) : Metered f q startBB where
  nodup := hm.nodup h
  topo := hm.topo h
  start := hm.sortedBBs ▸ hs
  nonneg := hm.nonneg h
  fits b path hpath := by
    have hle := h.fits startBB hs b path
      (hpath.mono hm.backEdges fun u v huv => hm.propagates huv h.noBB)
    simpa only [pathCost, hm.costMap] using hle

theorem pathCost_reverse (p : Plan) (Q : List Block) : pathCost p Q.reverse = pathCost p Q := by
  simp [pathCost, List.sum_reverse]

theorem Merged.stretch_le (h : Inv o f p) (hci : 0 < o.commitInterval)
    (hbest : (generateDistanceMap f p).bestDist ≤ o.commitInterval) (hm : Merged f p q)
    {Q : List Block} (hQ : Stretch (Passes f p.backEdges p.sortedBBs q) Q) :
    pathCost p Q ≤ o.commitInterval := by
  rw [← pathCost_reverse]
  refine pathCost_le h hci hbest _ (List.isChain_reverse.mpr ?_)
  exact hQ.imp fun v u hu => hm.openEdge h hu

/-- A stretch from the start is covered by the distance of its end. -/
theorem longest_ge {startBB : Block} (hmet : Metered f q startBB) (hs : 0 < q.costMap startBB)
    (Q : List Block) {v : Block}
    (hQ : Stretch (Passes f q.backEdges q.sortedBBs q) (v :: Q))
    (hlast : (v :: Q).getLast? = some startBB) :
    ∃ x, (longestDistanceFrom f q startBB).dist v = some x ∧ pathCost q (v :: Q) ≤ x ∧ 0 < x := by
  have hsw := longest_swept hmet
  induction Q generalizing v with
  | nil =>
    have hvs : v = startBB := by simpa using hlast
    subst hvs
    obtain ⟨x, hx, hle⟩ := hsw.grows v (q.costMap v) (by simp)
    exact ⟨x, hx, by simpa using hle, by omega⟩
  | cons u Q ih =>
    obtain ⟨⟨hu, hv, hprop⟩, hrest⟩ := List.isChain_cons_cons.mp hQ
    obtain ⟨y, hy, hle, hy₀⟩ := ih hrest (by simpa using hlast)
    obtain ⟨x, hx, hge⟩ := hsw.ge u hu v hv (y + q.costMap v) (by simp [longestSum, hy, hprop, hy₀])
    have hv₀ := hmet.nonneg v (hmet.topo.closed hu hv)
    refine ⟨x, hx, ?_, by omega⟩
    rw [pathCost_cons]
    omega

/-- No distance exceeds the one of the planner. -/
theorem Merged.longest_le (h : Inv o f p) (hm : Merged f p q)
    (hbest : (generateDistanceMap f p).bestDist ≤ o.commitInterval) {startBB v : Block} {x : Int}
    (hs : startBB ∈ p.sortedBBs) (hd : (longestDistanceFrom f q startBB).dist v = some x) :
    x ≤ o.commitInterval := by
  have hle : ∃ d, (generateDistanceMap f p).table.dist v = some d ∧ x ≤ d := by
    refine longest_induction (P := fun v x =>
      ∃ d, (generateDistanceMap f p).table.dist v = some d ∧ x ≤ d) (hm.metered h hs) ?_ ?_ ?_ hd
    · rw [hm.costMap]
      exact distance_ge h hs
    · rw [hm.sortedBBs, hm.backEdges]
      intro u hu v hv _ _
      have hvl := h.topo.closed hu hv
      obtain ⟨d, hd, hcd⟩ := distance_ge h hvl
      have hc := h.nonneg v hvl
      exact ⟨d, hd, by omega⟩
    · rw [hm.sortedBBs, hm.backEdges, hm.costMap]
      rintro u hu v hv y ⟨d, hd, hyd⟩ hprop -
      obtain ⟨d', hd', hge⟩ := (distance_swept h).ge u hu v hv _ rfl
      rw [if_pos (hm.propagates hprop h.noBB), hd, Option.getD_some] at hge
      exact ⟨d', hd', by omega⟩
  obtain ⟨d, hd, hxd⟩ := hle
  have hbd := (distance_best f p).le v d hd
  omega

/-! ## The final maps -/

/-- An execution runs through the block without a check. -/
def Quiet (p : Plan) (b : Block) : Prop := 0 < p.costMap b ∧ b ∉ p.instrumentedBB

/-- What the emitted code relies on, for blocks sorted as `l`. -/
structure Settled (o : Options) (f : Func) (backEdges : List (Block × Block)) (l : List Block)
    (pr : Probes) : Prop where
  sorted : Sorted f backEdges l
  weights : ∀ b ∈ l, pr.plan.costMap b = weight o f b
  stretch : ∀ Q, Stretch (Passes f backEdges l pr.plan) Q →
    pathCost pr.plan Q ≤ o.commitInterval
  around : ∀ Q u h, u ∈ l → (u, h) ∈ backEdges → Quiet pr.plan u →
    Stretch (Passes f backEdges l pr.plan) (u :: Q) → (u :: Q).getLast? = some h →
    pr.HasLoopProbe (u, h) ∧ pathCost pr.plan (u :: Q) ≤ pr.loopCost (u, h)
  loopInst : ∀ e, pr.plan.inst e = .loopInst → pr.HasLoopProbe e
  back : ∀ e, pr.HasLoopProbe e → e ∈ backEdges ∧ e.1 ∈ l ∧ e.1 ∉ pr.plan.instrumentedBB
  header : ∀ e, pr.HasLoopProbe e → 0 < pr.plan.costMap e.2
  cost_pos : ∀ e, pr.HasLoopProbe e → 0 < pr.loopCost e
  iters_pos : ∀ e, pr.HasLoopProbe e → 1 ≤ pr.numIters e
  iters_le : ∀ e, pr.HasLoopProbe e → pr.numIters e * pr.loopCost e ≤ o.commitInterval

theorem numIters_spec {cost calls : Int} (hcost : 0 < cost) (hle : cost ≤ o.commitInterval)
    (hfc : 0 ≤ o.funcCallThreshold) :
    1 ≤ numIters o cost calls ∧ numIters o cost calls * cost ≤ o.commitInterval := by
  have hdiv : o.commitInterval.tdiv cost = o.commitInterval / cost :=
    Int.tdiv_eq_ediv_of_nonneg (by omega)
  have hpos : 1 ≤ o.commitInterval / cost := Int.le_ediv_of_mul_le hcost (by omega)
  have hmul : o.commitInterval / cost * cost ≤ o.commitInterval := Int.ediv_mul_le _ (by omega)
  unfold numIters
  simp only [hdiv]
  split
  · have hm : 0 ≤ o.funcCallThreshold.tdiv calls := Int.tdiv_nonneg hfc (by omega)
    generalize o.funcCallThreshold.tdiv calls = m at hm
    have hm₁ : 1 ≤ if m = 0 then 1 else m := by split <;> omega
    generalize (if m = 0 then 1 else m) = m' at hm₁
    split
    · exact ⟨hpos, hmul⟩
    · refine ⟨hm₁, Int.le_trans (Int.mul_le_mul_of_nonneg_right ?_ (by omega)) hmul⟩
      omega
  · exact ⟨hpos, hmul⟩

section Final

variable {backEdges : List (Block × Block)} {loops : Block × Block → Instrumented.Loop} {r : Plan}

/-- A forward edge that goes on in the end went on before back edges were cancelled. -/
theorem Cancelled.passes (hc : Cancelled f q r) {l : List Block} {u v : Block}
    (h : Passes f q.backEdges l r u v) : Passes f q.backEdges l q u v := by
  obtain ⟨hu, hv, hi, hcost, hbb⟩ := h
  rw [hc.inst (u, v), if_neg fun hb => (mem_forward.mp hv).2 hb.1] at hi
  exact ⟨hu, hv, hi, hc.costMap ▸ hcost, hc.instrumentedBB ▸ hbb⟩

/-- Loop probes that are left are on back edges of the function. -/
theorem Merged.loopInst (h : Inv o f p) (hm : Merged f p q) {e : Block × Block}
    (he : q.inst e = .loopInst) :
    e ∈ p.backEdges ∧ e.1 ∈ p.sortedBBs ∧ e.1 ∉ q.instrumentedBB := by
  have hsome : p.edgeInstMap e = some .loopInst := by
    rcases hm.all e with heq | heq
    · rw [← heq]
      cases hq : q.edgeInstMap e with
      | none => simp [Plan.inst, hq] at he
      | some i =>
        simp only [Plan.inst, hq, Option.getD_some] at he
        rw [he]
    · simp [Plan.inst, heq] at he
  obtain ⟨⟨hl, hs⟩, hb⟩ := (h.loops e).mp hsome
  refine ⟨hb, hl, fun hbb => ?_⟩
  have hu := hm.probed e.1 hbb e.2 hs
  rw [he] at hu
  cases hu

/-- Probed back edges are loop-probed. -/
theorem Merged.back (h : Inv o f p) (hm : Merged f p q) {e : Block × Block} (hb : e ∈ p.backEdges)
    (hne : q.inst e ≠ .uninst) : q.inst e = .loopInst := by
  rcases hm.all e with heq | heq
  · cases hp : p.edgeInstMap e with
    | none => simp [Plan.inst, heq, hp] at hne
    | some i =>
      have hloop := (h.loops e).mpr ⟨(h.keys e.1 e.2).mp ⟨i, hp⟩, hb⟩
      simp [Plan.inst, heq, hloop]
  · simp [Plan.inst, heq] at hne

theorem stretch_last_pos {l : List Block} (Q : List Block) {u h : Block}
    (hQ : Stretch (Passes f backEdges l q) (u :: Q)) (hu : 0 < q.costMap u)
    (hlast : (u :: Q).getLast? = some h) : 0 < q.costMap h := by
  induction Q generalizing u with
  | nil =>
    have huh : u = h := by simpa using hlast
    exact huh ▸ hu
  | cons v Q ih =>
    obtain ⟨hpass, hrest⟩ := List.isChain_cons_cons.mp hQ
    exact ih hrest hpass.2.2.2.1 (by simpa using hlast)

/-- The cost of a loop is that of a path, and none if its header counts for nothing. -/
theorem Merged.loopCost_spec (h : Inv o f p) (hm : Merged f p q)
    (hbest : (generateDistanceMap f p).bestDist ≤ o.commitInterval) (hci : 0 < o.commitInterval)
    {e : Block × Block} (hs : e.2 ∈ p.sortedBBs) :
    0 ≤ loopCost f q e ∧ loopCost f q e ≤ o.commitInterval ∧
      (loopCost f q e ≠ 0 → 0 < p.costMap e.2) := by
  unfold loopCost
  split
  · exact ⟨Int.le_refl 0, by omega, fun hne => absurd rfl hne⟩
  cases hd : (longestDistanceFrom f q e.2).dist e.1 with
  | none => exact ⟨Int.le_refl 0, by simp only [Option.getD_none]; omega, fun hne => absurd rfl hne⟩
  | some x =>
    have hmet := hm.metered h hs
    have hx₀ : 0 ≤ x := by
      refine longest_induction (P := fun _ x => 0 ≤ x) hmet ?_ ?_ ?_ hd
      · exact hm.nonneg h e.2 (hm.sortedBBs ▸ hs)
      · exact fun _ _ _ _ _ _ => Int.le_refl 0
      · intro u hu v hv y hy _ _
        have hv₀ := hmet.nonneg v (hmet.topo.closed hu hv)
        omega
    refine ⟨hx₀, hm.longest_le h hbest hs hd, fun hne => ?_⟩
    by_contra hzero
    refine hne (Int.le_antisymm ?_ hx₀)
    refine longest_induction (P := fun _ x => x ≤ 0) hmet ?_ ?_ ?_ hd
    · rw [hm.costMap]
      omega
    · exact fun _ _ _ _ _ _ => Int.le_refl 0
    · intro u hu v hv y hy _ hpos
      omega

/-- A loop probe that is left is not cancelled. -/
theorem Cancelled.loopInst (h : Inv o f p) (hm : Merged f p q) (hc : Cancelled f q r)
    {e : Block × Block} (he : r.inst e = .loopInst) :
    q.inst e = .loopInst ∧ loopCost f q e ≠ 0 := by
  rw [hc.inst e] at he
  by_cases hcond : e ∈ q.backEdges ∧ q.inst e ≠ .uninst ∧ loopCost f q e = 0
  · rw [if_pos hcond] at he
    cases he
  · rw [if_neg hcond] at he
    have hb := (hm.loopInst h he).1
    exact ⟨he, fun hz => hcond ⟨hm.backEdges ▸ hb, by simp [he], hz⟩⟩

/-- Back edges have loop probes or none. -/
theorem Cancelled.back (h : Inv o f p) (hm : Merged f p q) (hc : Cancelled f q r)
    {e : Block × Block}
    (hb : e ∈ p.backEdges) : r.inst e ≠ .normInst := by
  rw [hc.inst e]
  split
  · simp
  · by_cases hne : q.inst e = .uninst
    · simp [hne]
    · simp [hm.back h hb hne]

/-- The cost of a loop is at least that of every way around it without a probe. -/
theorem Cancelled.around (h : Inv o f p) (hm : Merged f p q) (hc : Cancelled f q r)
    {Q : List Block} {u b : Block} (hu : u ∈ p.sortedBBs) (hbs : b ∈ p.sortedBBs)
    (hs : b ∈ f.succs u) (hb : (u, b) ∈ p.backEdges) (hq : Quiet r u)
    (hQ : Stretch (Passes f p.backEdges p.sortedBBs r) (u :: Q))
    (hlast : (u :: Q).getLast? = some b) :
    r.inst (u, b) = .loopInst ∧ loopCost f q (u, b) ≠ 0 ∧
      pathCost r (u :: Q) ≤ loopCost f q (u, b) := by
  obtain ⟨hpos, hbb⟩ := hq
  rw [hc.costMap] at hpos
  rw [hc.instrumentedBB] at hbb
  have hQ' : Stretch (Passes f q.backEdges q.sortedBBs q) (u :: Q) := by
    rw [hm.sortedBBs]
    refine hQ.imp fun v u hpass => hc.passes ?_
    rw [hm.backEdges]
    exact hpass
  have hloop : q.inst (u, b) = .loopInst := by
    have hsome := (h.loops (u, b)).mpr ⟨⟨hu, hs⟩, hb⟩
    simp [Plan.inst, hm.other (u, b) hbb, hsome]
  obtain ⟨x, hx, hle, hx₀⟩ := longest_ge (hm.metered h hbs)
    (stretch_last_pos Q hQ' hpos hlast) Q hQ' hlast
  have hcost : loopCost f q (u, b) = x := by simp [loopCost, hloop, hx]
  rw [hc.inst (u, b), hcost, if_neg fun hcond => absurd hcond.2.2 (by omega)]
  refine ⟨hloop, by omega, ?_⟩
  simpa only [pathCost, hc.costMap] using hle

/-- The assertions of `insertProbes` hold. -/
theorem insertProbes_eq (h : Inv o f p) :
    insertProbes o f p = .ok
      { plan := cancelBackEdges f (mergeBlocks f p)
        loopCost := loopCost f (mergeBlocks f p)
        numIters := fun e => numIters o (loopCost f (mergeBlocks f p) e)
          (loopFuncCallCost f (mergeBlocks f p) e) } := by
  have hm : Merged f p (mergeBlocks f p) := mergeBlocks_merged h.noBB
  have hc := cancelBackEdges_cancelled f (mergeBlocks f p)
  unfold insertProbes
  exact if_pos ⟨fun e he hne _ => hm.back h (hm.backEdges ▸ he) hne,
    fun e _ hp => (hm.loopInst h (hc.loopInst h hm hp.1).1).2.2⟩

theorem insertProbes_settled (h : Inv o f p) (hci : 0 < o.commitInterval)
    (hfc : 0 ≤ o.funcCallThreshold)
    (hbest : (generateDistanceMap f p).bestDist ≤ o.commitInterval)
    (hedge : ∀ e ∈ p.backEdges, e.2 ∈ f.succs e.1)
    (hheader : ∀ e ∈ p.backEdges, e.1 ∈ p.sortedBBs → e.2 ∈ p.sortedBBs) :
    ∃ pr, insertProbes o f p = .ok pr ∧ Settled o f p.backEdges p.sortedBBs pr ∧
      ∀ e ∈ p.backEdges, pr.plan.inst e ≠ .normInst := by
  have hm : Merged f p (mergeBlocks f p) := mergeBlocks_merged h.noBB
  have hc := cancelBackEdges_cancelled f (mergeBlocks f p)
  rw [insertProbes_eq h]
  generalize mergeBlocks f p = q at hm hc
  have hsorted : Sorted f p.backEdges p.sortedBBs := .of_inv h
  have hspec : ∀ e, (cancelBackEdges f q).inst e = .loopInst → 0 < loopCost f q e ∧
      loopCost f q e ≤ o.commitInterval ∧ 0 < p.costMap e.2 := by
    intro e he
    obtain ⟨hq, hne⟩ := hc.loopInst h hm he
    obtain ⟨hb, hel, -⟩ := hm.loopInst h hq
    obtain ⟨h₀, hle, hpos⟩ := hm.loopCost_spec h hbest hci (hheader e hb hel)
    exact ⟨by omega, hle, hpos hne⟩
  refine ⟨_, rfl, ?_, fun e he => hc.back h hm he⟩
  refine ⟨hsorted, ?_, ?_, ?_, ?_, ?_, ?_, ?_, ?_, ?_⟩
  · simpa only [hc.costMap, hm.costMap] using h.weights
  · intro Q hQ
    simp only [pathCost, hc.costMap, hm.costMap]
    refine hm.stretch_le h hci hbest (hQ.imp fun v u hpass => ?_)
    rw [← hm.backEdges] at hpass ⊢
    exact hc.passes hpass
  · intro Q u b hu hb hq hQ hlast
    obtain ⟨hi, hne, hle⟩ := hc.around h hm hu (hheader _ hb hu) (hedge _ hb) hb hq hQ hlast
    exact ⟨⟨hi, hne⟩, hle⟩
  · exact fun e he => ⟨he, (hc.loopInst h hm he).2⟩
  · intro e hp
    obtain ⟨hb, hel, hbb⟩ := hm.loopInst h (hc.loopInst h hm hp.1).1
    exact ⟨hb, hel, by simpa only [hc.instrumentedBB] using hbb⟩
  · intro e hp
    simpa only [hc.costMap, hm.costMap] using (hspec e hp.1).2.2
  · exact fun e hp => (hspec e hp.1).1
  · intro e hp
    obtain ⟨hpos, hle, -⟩ := hspec e hp.1
    exact (numIters_spec hpos hle hfc).1
  · intro e hp
    obtain ⟨hpos, hle, -⟩ := hspec e hp.1
    exact (numIters_spec hpos hle hfc).2

/-- The pass comes to an end, and its result is as the emitted code needs it. -/
theorem generateInst_spec (hacyc : Acyclic f backEdges) (hci : 0 < o.commitInterval)
    (hmax : 0 ≤ o.maxE2EUninst) (hfc : 0 ≤ o.funcCallThreshold)
    (hcost : ∀ b ∈ f.blocks, ∀ c ∈ f.costs b, 0 ≤ c) (hfit : Fits o f backEdges)
    (hedge : ∀ e ∈ backEdges, e.2 ∈ f.succs e.1)
    (hheader : ∀ l, Sorted f backEdges l → ∀ e ∈ backEdges, e.1 ∈ l → e.2 ∈ l) :
    ∃ N pr l, (∀ n, N ≤ n → generateInst o f backEdges n = .ok pr) ∧ Settled o f backEdges l pr ∧
      ∀ e ∈ backEdges, pr.plan.inst e ≠ .normInst := by
  obtain ⟨N, p, hp, hinv, rfl, hbest, -⟩ := planProbes_spec hacyc hci hmax hcost hfit
  obtain ⟨pr, hpr, hset, hback⟩ := insertProbes_settled hinv hci hfc hbest hedge
    (hheader _ (.of_inv hinv))
  refine ⟨N, pr, p.sortedBBs, fun n hn => ?_, hset, hback⟩
  unfold generateInst
  rw [hp n hn]
  exact hpr

theorem generateInst_settled (hacyc : Acyclic f backEdges) (hci : 0 < o.commitInterval)
    (hmax : 0 ≤ o.maxE2EUninst) (hfc : 0 ≤ o.funcCallThreshold)
    (hcost : ∀ b ∈ f.blocks, ∀ c ∈ f.costs b, 0 ≤ c) (hfit : Fits o f backEdges)
    (hl : Simplified f backEdges loops) :
    ∃ N pr l, (∀ n, N ≤ n → generateInst o f backEdges n = .ok pr) ∧
      Settled o f backEdges l pr := by
  obtain ⟨N, pr, l, hpr, hset, -⟩ := generateInst_spec hacyc hci hmax hfc hcost hfit hl.edge
    fun l hsorted e hb hel => (hl.header_first hsorted hb hel (hl.latch_mem e hb)).1
  exact ⟨N, pr, l, hpr, hset⟩

end Final

end TinyQuanta.LoopCosts
