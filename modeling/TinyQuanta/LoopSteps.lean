import TinyQuanta.CloneCredit
import TinyQuanta.LoopCosts

/-!
# One step of the execution, seen from one loop

For every loop probe a step either takes the back edge, or leaves the copy of the
self loop with a check, or drifts: it enters or leaves the loop, passes its
preheader, or has nothing to do with it. The laws of simplified loops tell these
cases apart.
-/
namespace TinyQuanta.LoopSteps

open Planner InsertProbes Instrumented LoopCounters LoopCredit CloneCredit LoopForm LoopCosts

variable {o : Options} {f : Func} {pr : Probes} {loops : Block × Block → Loop}

/-! ## The code on an edge -/

/-- The code on the first edge to `next` runs into a check. -/
def hitsFirst (pr : Probes) (loops : Block × Block → Loop) (s : State) (next : Block) : Bool :=
  let e := (s.cur, next)
  if s.clone then
    if next = s.cur then false
    else
      let self := (s.cur, s.cur)
      (atCloneExit (pr.numIters self) (loops self) (s.slots self)).2 ||
        decide (pr.plan.inst e = .normInst)
  else if pr.HasLoopProbe e then (atBackEdge (pr.numIters e) (loops e) (s.slots e)).2
  else decide (pr.plan.inst e = .normInst)

/-- The code on the edge runs into a check. -/
def hits (pr : Probes) (loops : Block × Block → Loop) (s : State) (c : Choice) : Bool :=
  if c.nth = 0 then hitsFirst pr loops s c.next
  else
    let self := (s.cur, s.cur)
    s.clone && (atCloneExit (pr.numIters self) (loops self) (s.slots self)).2

theorem hits_first {s : State} {c : Choice} (hfirst : c.nth = 0) :
    hits pr loops s c = hitsFirst pr loops s c.next := if_pos hfirst

@[simp] theorem check_slots (s : State) : s.check.slots = s.slots := rfl
@[simp] theorem check_clone (s : State) : s.check.clone = s.clone := rfl
@[simp] theorem check_cur (s : State) : s.check.cur = s.cur := rfl

theorem setSlots_slots (s : State) (e : Block × Block) (r : Slots × Bool) :
    (s.setSlots e r).slots = Function.update s.slots e r.1 := by
  unfold State.setSlots
  simp only
  split <;> rfl

theorem setSlots_meter (s : State) (e : Block × Block) (r : Slots × Bool) :
    (s.setSlots e r).meter = if r.2 then s.meter.event .check else s.meter := by
  unfold State.setSlots
  simp only
  split <;> rfl

theorem setSlots_clone (s : State) (e : Block × Block) (r : Slots × Bool) :
    (s.setSlots e r).clone = s.clone ∧ (s.setSlots e r).cur = s.cur := by
  unfold State.setSlots
  simp only
  split <;> exact ⟨rfl, rfl⟩

theorem cross_meter (s : State) (next : Block) :
    (cross pr loops s next).meter =
      if hitsFirst pr loops s next then s.meter.event .check else s.meter := by
  unfold cross hitsFirst
  simp only
  by_cases hc : s.clone = true
  · simp only [hc, if_true]
    by_cases hn : next = s.cur
    · simp only [if_pos hn, setSlots_meter]
    · simp only [if_neg hn]
      by_cases hi : pr.plan.inst (s.cur, next) = .normInst
      · simp only [hi, decide_true, Bool.or_true, if_true, State.check, setSlots_meter]
        split <;> rfl
      · simp only [hi, decide_false, Bool.or_false, if_false, setSlots_meter]
  · simp only [hc, Bool.false_eq_true, if_false]
    by_cases hp : pr.HasLoopProbe (s.cur, next)
    · simp only [if_pos hp, setSlots_meter]
    · simp only [if_neg hp]
      by_cases hi : pr.plan.inst (s.cur, next) = .normInst
      · simp [hi, State.check]
      · simp [hi]

theorem cross_clone (s : State) (next : Block) :
    (cross pr loops s next).clone = s.clone ∧ (cross pr loops s next).cur = s.cur := by
  unfold cross
  simp only
  split
  · split
    · exact setSlots_clone s _ _
    · split
      · simp only [check_clone, check_cur]
        exact setSlots_clone s _ _
      · exact setSlots_clone s _ _
  · split
    · exact setSlots_clone s _ _
    · split
      · exact ⟨rfl, rfl⟩
      · exact ⟨rfl, rfl⟩

/-- Only the loop of the edge, or the copy that is left, is touched. -/
theorem cross_other (s : State) (next : Block) {e : Block × Block} (he : e ≠ (s.cur, next))
    (hself : s.clone = true → e ≠ (s.cur, s.cur)) :
    (cross pr loops s next).slots e = s.slots e := by
  unfold cross
  simp only
  split
  · rename_i hc
    split
    · simp [setSlots_slots, he]
    · split <;> simp [setSlots_slots, hself hc]
  · split
    · simp [setSlots_slots, he]
    · split <;> rfl

theorem crossParallel_meter (s : State) (next : Block) :
    (crossParallel pr loops s next).meter =
      if s.clone && (atCloneExit (pr.numIters (s.cur, s.cur)) (loops (s.cur, s.cur))
        (s.slots (s.cur, s.cur))).2 then s.meter.event .check else s.meter := by
  unfold crossParallel
  simp only
  cases s.clone <;> split <;> simp [setSlots_meter]

theorem crossParallel_clone (s : State) (next : Block) :
    (crossParallel pr loops s next).clone = s.clone ∧
      (crossParallel pr loops s next).cur = s.cur := by
  unfold crossParallel
  simp only
  split <;> split <;> simp [setSlots_clone]

theorem crossParallel_other (s : State) (next : Block) {e : Block × Block} (he : e ≠ (s.cur, next))
    (hself : s.clone = true → e ≠ (s.cur, s.cur)) :
    (crossParallel pr loops s next).slots e = s.slots e := by
  unfold crossParallel
  simp only
  cases hc : s.clone with
  | true => split <;> simp [setSlots_slots, he, hself hc]
  | false => split <;> simp [setSlots_slots, he]

theorem crossEdge_meter (s : State) (c : Choice) :
    (crossEdge pr loops s c).meter =
      if hits pr loops s c then s.meter.event .check else s.meter := by
  unfold crossEdge hits
  split
  · exact cross_meter s c.next
  · exact crossParallel_meter s c.next

theorem crossEdge_clone (s : State) (c : Choice) :
    (crossEdge pr loops s c).clone = s.clone ∧ (crossEdge pr loops s c).cur = s.cur := by
  unfold crossEdge
  split
  · exact cross_clone s c.next
  · exact crossParallel_clone s c.next

theorem crossEdge_other (s : State) (c : Choice) {e : Block × Block} (he : e ≠ (s.cur, c.next))
    (hself : s.clone = true → e ≠ (s.cur, s.cur)) :
    (crossEdge pr loops s c).slots e = s.slots e := by
  unfold crossEdge
  split
  · exact cross_other s c.next he hself
  · exact crossParallel_other s c.next he hself

theorem cross_cloneLatch {s : State} (hc : s.clone = true) :
    (cross pr loops s s.cur).slots (s.cur, s.cur) =
      atCloneLatch (loops (s.cur, s.cur)) (s.slots (s.cur, s.cur)) := by
  simp [cross, hc, setSlots_slots]

theorem crossEdge_cloneExit {s : State} {c : Choice} (hfirst : c.nth = 0) (hc : s.clone = true)
    (hne : c.next ≠ s.cur) :
    (crossEdge pr loops s c).slots (s.cur, s.cur) =
      (atCloneExit (pr.numIters (s.cur, s.cur)) (loops (s.cur, s.cur))
        (s.slots (s.cur, s.cur))).1 := by
  unfold crossEdge cross
  simp only [if_pos hfirst, hc, if_true, if_neg hne]
  split <;> simp [setSlots_slots]

theorem cross_latch {s : State} {next : Block} (hc : s.clone = false)
    (hp : pr.HasLoopProbe (s.cur, next)) :
    (cross pr loops s next).slots (s.cur, next) =
      (atBackEdge (pr.numIters (s.cur, next)) (loops (s.cur, next)) (s.slots (s.cur, next))).1 := by
  simp [cross, hc, hp, setSlots_slots]

/-! ## The end of a block -/

theorem atBlockEnd_same {e : Block × Block} {b : Block} (hp : b ≠ (loops e).preheader)
    (hx : b ∉ (loops e).exitBlocks) (init final : Int) (s : Slots) :
    atBlockEnd pr loops e b init final s = s := by simp [atBlockEnd, hp, hx]

theorem atBlockEnd_preheader {e : Block × Block} {b : Block} (hp : b = (loops e).preheader)
    (hx : b ∉ (loops e).exitBlocks) (init final : Int) (s : Slots) :
    atBlockEnd pr loops e b init final s = atPreheader (pr.numIters e) (loops e) init final s := by
  simp only [atBlockEnd, if_pos hp, if_neg hx]

theorem atBlockEnd_exit {e : Block × Block} {b : Block} (hp : b ≠ (loops e).preheader)
    (hx : b ∈ (loops e).exitBlocks) (init final : Int) (s : Slots) :
    atBlockEnd pr loops e b init final s = atExitBlock e (loops e) s := by
  simp only [atBlockEnd, if_neg hp, if_pos hx]

/-! ## Steps -/

def spot (s : State) (e : Block × Block) : Spot := ⟨s.cur, s.clone, s.slots e⟩

/-- The values at a loop entry, for the loops that have a copy: their latch counts the steps of
the signed range. -/
def Regular (backEdges : List (Block × Block)) (loops : Block × Block → Loop) (b : Block)
    (init final : Int) : Prop :=
  ∀ e ∈ backEdges, b = (loops e).preheader → cloneable e (loops e) = true →
    ∀ iv, (loops e).indVar = some iv → Counts iv init final

theorem step_eq {s t : State} {c : Choice} (h : step o f pr loops s c = some t) :
    c.next ∈ f.succs s.cur ∧ allows pr loops s c.next ∧
      t = visit o f pr loops (crossEdge pr loops s c) c := by
  unfold step at h
  split at h
  · rename_i hc
    cases h
    exact ⟨List.count_pos_iff.mp (Nat.zero_lt_of_lt hc.1), hc.2, rfl⟩
  · cases h

/-- Without parallel edges there is only the first one. -/
theorem step_first {s t : State} {c : Choice} (hn : (f.succs s.cur).Nodup)
    (h : step o f pr loops s c = some t) : c.nth = 0 := by
  unfold step at h
  split at h
  · rename_i hc
    have hle := List.nodup_iff_count_le_one.mp hn c.next
    omega
  · cases h

/-- At the latch of a self loop with a copy. -/
theorem allows_latch {s : State} {next : Block} (h : allows pr loops s next)
    (hc : hasClone pr loops s.cur) {iv : IndVar} (hi : (loops (s.cur, s.cur)).indVar = some iv) :
    next = s.cur ↔ iv.latch (s.slots (s.cur, s.cur)).indVar (s.slots (s.cur, s.cur)).finalValue =
      true := by
  simp only [allows, hi] at h
  exact h hc

section Pass

variable {backEdges : List (Block × Block)} {l : List Block} {s t : State} {c : Choice}

theorem hasClone_of {e : Block × Block} (hp : pr.HasLoopProbe e)
    (hcl : cloneable e (loops e) = true) : hasClone pr loops e.2 ∧ e = (e.2, e.2) := by
  have he : e = (e.2, e.2) := Prod.ext (cloneable_self hcl) rfl
  exact ⟨⟨he ▸ hp, he ▸ hcl⟩, he⟩

theorem spot_slots (hstep : step o f pr loops s c = some t) {e : Block × Block}
    (hp : pr.HasLoopProbe e) :
    (spot t e).slots =
      atBlockEnd pr loops e c.next c.init c.final ((crossEdge pr loops s c).slots e) := by
  obtain ⟨-, -, rfl⟩ := step_eq hstep
  exact if_pos hp

section Other

variable (hset : Settled o f backEdges l pr) (hl : Simplified f backEdges loops) (hcur : s.cur ∈ l)
  (hstep : step o f pr loops s c = some t) {e : Block × Block} (hp : pr.HasLoopProbe e)
  (hne : e ≠ (s.cur, c.next))

include hset hl hcur hstep hp hne

/-- Into the loop, or on inside it. -/
theorem step_into (hin : c.next ∈ (loops e).body) :
    Drift (pr.numIters e) e (loops e) (spot s e) (spot t e) := by
  have he := (hset.back e hp).1
  have hreach := hset.sorted.reachable hcur
  have hslots := spot_slots hstep hp
  have hnp : c.next ≠ (loops e).preheader := fun h => hl.preheader_out e he (h ▸ hin)
  have hnx : c.next ∉ (loops e).exitBlocks := fun h => hl.exits_out e he _ h hin
  obtain ⟨hnext, -, rfl⟩ := step_eq hstep
  rw [atBlockEnd_same hnp hnx] at hslots
  by_cases hhead : c.next = e.2
  · have hpre : s.cur = (loops e).preheader := by
      refine (hl.preheader e he s.cur hreach (hhead ▸ hnext)).resolve_left fun h => hne ?_
      exact Prod.ext h.symm hhead.symm
    have hnc : c.next ≠ s.cur := fun h => hl.preheader_out e he (hpre ▸ h ▸ hin)
    have hsl : (crossEdge pr loops s c).slots e = s.slots e :=
      crossEdge_other s c hne fun _ h => hnc (by rw [hhead, h])
    refine .enter hpre hhead (hslots.trans hsl) fun hcl iv hi => ?_
    obtain ⟨hhas, hee⟩ := hasClone_of hp hcl
    rw [← hhead] at hhas hee
    simp only [spot, visit, crossEdge_clone, if_neg hnc, decide_eq_true_eq, entersClone, ← hee, hi,
      hsl]
    exact ⟨fun h => h.2, fun h => ⟨hhas, h⟩⟩
  · have hcin := hl.closed e he s.cur hreach c.next hnext hin hhead
    refine .inside hcin hin hhead (hslots.trans (crossEdge_other s c hne fun _ h => hhead ?_))
    exact hl.self_body e he (by rw [h]) c.next hin

/-- Out of the loop, or of its copy. -/
theorem step_out (hfirst : c.nth = 0) (hclone : s.clone = true → hasClone pr loops s.cur)
    (hcin : s.cur ∈ (loops e).body) (hout : c.next ∉ (loops e).body) :
    Drift (pr.numIters e) e (loops e) (spot s e) (spot t e) ∨
      hits pr loops s c = true ∧ cloneable e (loops e) = true ∧
        CloneHit (pr.numIters e) e (loops e) (spot s e) (spot t e) := by
  have he := (hset.back e hp).1
  have hslots := spot_slots hstep hp
  obtain ⟨hnext, hallow, rfl⟩ := step_eq hstep
  have hx := hl.exits e he s.cur hcin c.next hnext hout
  have hnp : c.next ≠ (loops e).preheader := by
    intro h
    exact hl.preheader_not_exit hset.sorted he hcur (h ▸ hnext) (h ▸ hx)
  have hnc : c.next ≠ s.cur := fun h => hout (h ▸ hcin)
  rw [atBlockEnd_exit hnp hx] at hslots
  by_cases hcopy : s.clone = true ∧ e = (s.cur, s.cur)
  · obtain ⟨hc, rfl⟩ := hcopy
    have hcl := (hclone hc).2
    rw [crossEdge_cloneExit hfirst hc hnc] at hslots
    cases hhit : (atCloneExit (pr.numIters (s.cur, s.cur)) (loops (s.cur, s.cur))
        (s.slots (s.cur, s.cur))).2 with
    | true =>
      exact .inr ⟨by simp [hits_first hfirst, hitsFirst, hc, hnc, hhit], hcl, rfl, hout, hnp, hhit,
        hslots⟩
    | false => exact .inl (.cloneExit rfl hout hnp hc hcl hhit hslots)
  · have hself : e.1 = e.2 → e = (s.cur, s.cur) := by
      intro h
      have hb := hl.self_body e he h s.cur hcin
      exact Prod.ext (h.trans hb.symm) hb.symm
    rw [crossEdge_other s c hne fun hc h => hcopy ⟨hc, h⟩] at hslots
    refine .inl (.exit hcin hout hnp (fun h => ?_) (fun hcl iv hi => ?_) hslots)
    · by_contra hc
      exact hcopy ⟨by simpa [spot] using hc, hself h⟩
    · have hee := hself (cloneable_self hcl)
      have hhas : hasClone pr loops s.cur := ⟨hee ▸ hp, hee ▸ hcl⟩
      have hlatch := allows_latch hallow hhas (hee ▸ hi)
      rw [← hee] at hlatch
      simpa [spot, hnc] using hlatch

/-- Past the loop. -/
theorem step_past (hreg : Regular backEdges loops c.next c.init c.final)
    (hcout : s.cur ∉ (loops e).body) (hout : c.next ∉ (loops e).body) :
    Drift (pr.numIters e) e (loops e) (spot s e) (spot t e) := by
  have he := (hset.back e hp).1
  have hslots := spot_slots hstep hp
  obtain ⟨hnext, -, rfl⟩ := step_eq hstep
  have hnx : c.next ∉ (loops e).exitBlocks := fun h =>
    hcout (hl.dedicated e he s.cur (hset.sorted.reachable hcur) c.next hnext h)
  have hnself : e ≠ (s.cur, s.cur) := by
    intro h
    have hmem := hl.header_mem e he
    rw [show e.2 = s.cur by rw [h]] at hmem
    exact hcout hmem
  rw [crossEdge_other s c hne fun _ => hnself] at hslots
  by_cases hpre : c.next = (loops e).preheader
  · rw [atBlockEnd_preheader hpre hnx] at hslots
    exact .preheader c.init c.final hcout hpre hslots (hreg e he hpre)
  · rw [atBlockEnd_same hpre hnx] at hslots
    exact .outside hcout hout hpre hslots

/-- A step over another edge. -/
theorem step_other (hfirst : c.nth = 0) (hclone : s.clone = true → hasClone pr loops s.cur)
    (hreg : Regular backEdges loops c.next c.init c.final) :
    Drift (pr.numIters e) e (loops e) (spot s e) (spot t e) ∨
      hits pr loops s c = true ∧ cloneable e (loops e) = true ∧
        CloneHit (pr.numIters e) e (loops e) (spot s e) (spot t e) := by
  by_cases hin : c.next ∈ (loops e).body
  · exact .inl (step_into hset hl hcur hstep hp hne hin)
  · by_cases hcin : s.cur ∈ (loops e).body
    · exact step_out hset hl hcur hstep hp hne hfirst hclone hcin hin
    · exact .inl (step_past hset hl hcur hstep hp hne hreg hcin hin)

end Other

/-- A step over a back edge with a loop probe. -/
theorem step_latch (hset : Settled o f backEdges l pr) (hl : Simplified f backEdges loops)
    (hcur : s.cur ∈ l) (hclone : s.clone = true → hasClone pr loops s.cur)
    (hstep : step o f pr loops s c = some t) (hfirst : c.nth = 0)
    (hp : pr.HasLoopProbe (s.cur, c.next)) :
    Latch (pr.numIters (s.cur, c.next)) (s.cur, c.next) (loops (s.cur, c.next))
      (spot s (s.cur, c.next)) (spot t (s.cur, c.next)) (hits pr loops s c) := by
  obtain ⟨hnext, hallow, rfl⟩ := step_eq hstep
  have he := (hset.back _ hp).1
  have hhead := hl.header_mem _ he
  have hcross : crossEdge pr loops s c = cross pr loops s c.next := if_pos hfirst
  have hslots : ∀ x, (visit o f pr loops x c).slots (s.cur, c.next) = x.slots (s.cur, c.next) := by
    intro x
    refine (if_pos hp).trans (atBlockEnd_same ?_ ?_ _ _ _)
    · exact fun h => hl.preheader_out _ he (h ▸ hhead)
    · exact fun h => hl.exits_out _ he _ h hhead
  have hind : s.cur = c.next → ∀ {iv}, (loops (s.cur, c.next)).indVar = some iv →
      (loops (s.cur, s.cur)).indVar = some iv := fun h _ hi => by rw [← hi, ← h]
  cases hc : s.clone with
  | true =>
    have hhas := hclone hc
    have hself : s.cur = c.next := hl.self_latch hset.sorted he hcur (hset.back _ hhas.1).1
    have hhit : hits pr loops s c = false := by simp [hits_first hfirst, hitsFirst, hc, hself]
    rw [hhit]
    refine .copy hself hc (hself ▸ hhas.2) rfl ?_ (fun iv hi => ?_) ?_
    · simp [spot, visit, crossEdge_clone, hself, hc, hfirst]
    · have hlatch := allows_latch hallow hhas (hind hself hi)
      rw [← hself] at hlatch ⊢
      exact hlatch.mp rfl
    · simp only [spot, hslots, hcross]
      rw [← hself]
      exact cross_cloneLatch hc
  | false =>
    have hhit : hits pr loops s c = (atBackEdge (pr.numIters (s.cur, c.next))
        (loops (s.cur, c.next)) (spot s (s.cur, c.next)).slots).2 := by
      simp [hits_first hfirst, hitsFirst, hc, hp, spot]
    rw [hhit]
    refine .code rfl (fun _ => hc) rfl (fun h => ?_) (fun hcl iv hi => ?_) ?_
    · have h : s.cur = c.next := h
      simp [spot, visit, crossEdge_clone, h, hc]
    · have hself : s.cur = c.next := cloneable_self hcl
      have hhas : hasClone pr loops s.cur := ⟨hself ▸ hp, hself ▸ hcl⟩
      have hlatch := allows_latch hallow hhas (hind hself hi)
      rw [← hself] at hlatch ⊢
      exact hlatch.mp rfl
    · simp only [spot, hslots, hcross]
      exact cross_latch hc hp

/-- The copy is only entered where there is one. -/
theorem step_clone (hclone : s.clone = true → hasClone pr loops s.cur)
    (hstep : step o f pr loops s c = some t) (ht : t.clone = true) : hasClone pr loops t.cur := by
  obtain ⟨-, -, rfl⟩ := step_eq hstep
  simp only [visit, crossEdge_clone] at ht ⊢
  by_cases hn : c.next = s.cur
  · rw [if_pos hn, Bool.and_eq_true] at ht
    exact hn ▸ hclone ht.1
  · rw [if_neg hn, decide_eq_true_eq] at ht
    unfold entersClone at ht
    split at ht
    · exact ht.elim
    · exact ht.1

theorem step_meter (hstep : step o f pr loops s c = some t) :
    t.cur = c.next ∧ t.meter = (if hits pr loops s c then s.meter.event .check
      else s.meter).events (blockCode o f pr loops t.cur) := by
  obtain ⟨-, -, rfl⟩ := step_eq hstep
  exact ⟨rfl, by simp only [visit, crossEdge_meter]⟩

end Pass

end TinyQuanta.LoopSteps
