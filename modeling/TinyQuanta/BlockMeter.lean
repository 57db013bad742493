import TinyQuanta.EmittedCode
import TinyQuanta.LoopCosts

/-!
# The cost of running a block

A block that is not instrumented and counts for something adds its cost. Any
other block checks at least once, and on either side of its checks costs at most
the commit interval. The code that is emitted into a block only brings the checks
of the last loop of `insertProbes` forward.
-/
namespace TinyQuanta.BlockMeter

open Params Planner PlannerSteps InsertProbes LoopNest Instrumented EmittedCode LoopCosts

section Meter

variable {α : Type} {cost : α → Int} {ci W : Int}

theorem events_append (m : Meter) (es es' : List Event) :
    m.events (es ++ es') = (m.events es).events es' := List.foldl_append

/-- Instructions without a check. -/
theorem events_cost {cs : List Int} (h : ∀ c ∈ cs, 0 ≤ c) (m : Meter) (hw : m.worst ≤ W)
    (hg : m.gap + cs.sum ≤ W) :
    (m.events (cs.map .cost)).gap = m.gap + cs.sum ∧ (m.events (cs.map .cost)).worst ≤ W := by
  induction cs generalizing m with
  | nil => exact ⟨by simp [Meter.events], hw⟩
  | cons c cs ih =>
    have hs : 0 ≤ cs.sum := List.sum_nonneg fun x hx => h x (List.mem_cons_of_mem c hx)
    rw [List.sum_cons] at hg ⊢
    obtain ⟨hgap, hworst⟩ := ih (fun x hx => h x (by simp [hx])) (m.event (.cost c))
      (by simp only [Meter.event]; omega) (by simp only [Meter.event]; omega)
    refine ⟨?_, hworst⟩
    change ((m.event (.cost c)).events (cs.map .cost)).gap = _
    rw [hgap]
    simp only [Meter.event]
    omega

/-- The events of instructions with their probes. -/
def eventsOf (cost : α → Int) (is : List (Bool × Inst α)) : List Event :=
  (is.flatMap fun x => x.2.code x.1).map (Code.event cost)

theorem events_cons (m : Meter) (probed : Bool) (i : Inst α) (is : List (Bool × Inst α)) :
    m.events (eventsOf cost ((probed, i) :: is)) =
      (m.events ((i.code probed).map (Code.event cost))).events (eventsOf cost is) := by
  rw [← events_append]
  simp [eventsOf]

theorem eventsOf_plain (is : List (Inst α)) :
    eventsOf cost (is.map fun i => (false, i)) = (ownInsts is).map fun i => .cost (cost i) := by
  induction is with
  | nil => rfl
  | cons i is ih =>
    have hcons : eventsOf cost ((i :: is).map fun i => (false, i)) =
        (i.code false).map (Code.event cost) ++ eventsOf cost (is.map fun i => (false, i)) := by
      simp [eventsOf]
    rw [hcons, ih]
    cases i <;> rfl

/-- An instruction behind a check. -/
theorem probed_inst {i : Inst α} (h : 0 ≤ i.cost cost) (m : Meter) :
    (m.events ((i.code true).map (Code.event cost))).gap ≤ i.cost cost ∧
      (m.events ((i.code true).map (Code.event cost))).worst ≤ max m.worst (i.cost cost) := by
  cases i with
  | own _ i => simp [Inst.code, Code.event, Meter.events, Meter.event, Inst.cost]
  | emitted _ c => exact ⟨h, Int.le_max_left ..⟩

theorem plain_inst {i : Inst α} (h : 0 ≤ i.cost cost) (m : Meter) :
    (m.events ((i.code false).map (Code.event cost))).gap ≤ m.gap + i.cost cost ∧
      (m.events ((i.code false).map (Code.event cost))).worst ≤
        max m.worst (m.gap + i.cost cost) := by
  cases i with
  | own _ i => simp [Inst.code, Code.event, Meter.events, Meter.event, Inst.cost]
  | emitted _ c => exact ⟨Int.le_add_of_nonneg_right h, Int.le_max_left ..⟩

section Scan

variable (hci : ci ≤ W) (hint : 2 * ci ≤ intMax)

include hci hint

/-- Once there has been a check, a scanned block stays within the interval. -/
theorem scan_after {is : List (Inst α)} (h : ∀ i ∈ is, 0 ≤ i.cost cost ∧ i.cost cost ≤ ci)
    (m : Meter) {t : Int} (hw : m.worst ≤ W) (hg : m.gap ≤ t) (h₀ : 0 ≤ t) (ht : t ≤ ci) :
    (m.events (eventsOf cost (instructionsToProbe (Inst.cost cost) ci t is))).gap ≤ ci ∧
      (m.events (eventsOf cost (instructionsToProbe (Inst.cost cost) ci t is))).worst ≤ W := by
  induction is generalizing m t with
  | nil => exact ⟨Int.le_trans hg ht, hw⟩
  | cons i is ih =>
    obtain ⟨hi, hrest⟩ := List.forall_mem_cons.mp h
    have hsum : int32 (t + i.cost cost) = t + i.cost cost :=
      int32_eq ⟨by unfold intMin; omega, by omega⟩
    unfold instructionsToProbe
    simp only [hsum]
    split
    · rw [events_cons]
      have hprobed := probed_inst hi.1 m
      exact ih hrest _ (by omega) hprobed.1 hi.1 hi.2
    · rw [events_cons]
      have hplain := plain_inst hi.1 m
      exact ih hrest _ (by omega) (by omega) (by omega) (by omega)

/-- Before its first check a scanned block costs less than the interval, and if it costs the
interval there is a check. -/
theorem scan_before {g : Int} (hgW : g + ci ≤ W) {is : List (Inst α)}
    (h : ∀ i ∈ is, 0 ≤ i.cost cost ∧ i.cost cost ≤ ci) (m : Meter) {t : Int} (hw : m.worst ≤ W)
    (hg : m.gap ≤ g + t) (h₀ : 0 ≤ t) (ht : t < ci) :
    (m.events (eventsOf cost (instructionsToProbe (Inst.cost cost) ci t is))).worst ≤ W ∧
      (ci ≤ t + (is.map (Inst.cost cost)).sum →
        (m.events (eventsOf cost (instructionsToProbe (Inst.cost cost) ci t is))).gap ≤ ci) := by
  induction is generalizing m t with
  | nil =>
    refine ⟨hw, fun hle => ?_⟩
    rw [List.map_nil, List.sum_nil] at hle
    omega
  | cons i is ih =>
    obtain ⟨hi, hrest⟩ := List.forall_mem_cons.mp h
    have hsum : int32 (t + i.cost cost) = t + i.cost cost :=
      int32_eq ⟨by unfold intMin; omega, by omega⟩
    unfold instructionsToProbe
    simp only [hsum]
    split
    · rw [events_cons]
      have hprobed := probed_inst hi.1 m
      obtain ⟨hgap, hworst⟩ := scan_after hci hint hrest _ (by omega) hprobed.1 hi.1 hi.2
      exact ⟨hworst, fun _ => hgap⟩
    · rw [events_cons]
      have hplain := plain_inst hi.1 m
      obtain ⟨hworst, hgap⟩ := ih hrest (m.events ((i.code false).map (Code.event cost)))
        (t := t + i.cost cost) (by omega) (by omega) (by omega) (by omega)
      refine ⟨hworst, fun hle => hgap ?_⟩
      rw [List.map_cons, List.sum_cons] at hle
      omega

end Scan

/-- New code does not make a block cheaper. -/
theorem sum_ownInsts_le {is : List (Inst α)} (h : ∀ i ∈ is, 0 ≤ i.cost cost) :
    ((ownInsts is).map cost).sum ≤ (is.map (Inst.cost cost)).sum := by
  induction is with
  | nil => exact Int.le_refl _
  | cons i is ih =>
    obtain ⟨hi, hrest⟩ := List.forall_mem_cons.mp h
    have hle := ih hrest
    cases i with
    | own _ i =>
      change (cost i :: (ownInsts is).map cost).sum ≤ (cost i :: is.map (Inst.cost cost)).sum
      rw [List.sum_cons, List.sum_cons]
      omega
    | emitted _ c =>
      change ((ownInsts is).map cost).sum ≤ (c :: is.map (Inst.cost cost)).sum
      have hc : 0 ≤ c := hi
      rw [List.sum_cons]
      omega

end Meter

section Block

variable {o : Options} {f : Func} {pr : Probes} {loops : Block × Block → Loop} {b : Block} {W : Int}

/-- A quiet block. -/
theorem quiet_block (hp : pr.plan.costMap b = weight o f b)
    (hcost : ∀ c ∈ f.costs b, 0 ≤ c ∧ c ≤ o.commitInterval) (hq : Quiet pr.plan b) (m : Meter)
    (hw : m.worst ≤ W) (hg : m.gap + pr.plan.costMap b ≤ W) :
    (m.events (blockCode o f pr loops b)).gap = m.gap + pr.plan.costMap b ∧
      (m.events (blockCode o f pr loops b)).worst ≤ W := by
  obtain ⟨hpos, hbb⟩ := hq
  have hsum : pr.plan.costMap b = (f.costs b).sum := by
    rw [hp, weight] at hpos ⊢
    split at hpos <;> simp_all
  have hcode : blockCode o f pr loops b = (f.costs b).map .cost := by
    simp only [blockCode, codeOf, if_neg hbb, markedBlock]
    rw [if_neg fun h => by omega]
    exact (eventsOf_plain _).trans (by rw [ownInsts_blockNow f pr loops b _ hbb]; rfl)
  rw [hcode, hsum]
  exact events_cost (fun c hc => (hcost c hc).1) m hw (hsum ▸ hg)

section Loud

variable (hci : 0 < o.commitInterval) (hciW : o.commitInterval ≤ W)
  (hint : 2 * o.commitInterval ≤ intMax)
  (hmem : 0 ≤ o.memOpsCost ∧ o.memOpsCost ≤ o.commitInterval)
  (hp : pr.plan.costMap b = weight o f b)
  (hcost : ∀ c ∈ f.costs b, 0 ≤ c ∧ c ≤ o.commitInterval)

include hci hciW hint hmem hp hcost

/-- An instrumented block, up to its own probe. -/
theorem marked_before (hbb : b ∈ pr.plan.instrumentedBB) (m : Meter)
    (hw : m.worst ≤ W) (hg : m.gap + o.commitInterval ≤ W) :
    (m.events (eventsOf id (markedBlock o f pr loops id b (f.costs b)))).worst ≤ W := by
  have hnow := blockNow_cost f pr loops b id hci hmem hcost
  unfold markedBlock
  simp only
  split
  · exact (scan_before hciW hint hg hnow m hw (by omega) (Int.le_refl 0) hci).1
  · rename_i hno
    have hlt : (f.costs b).sum < o.commitInterval := by
      by_contra hle
      rw [hp, weight, if_pos (by omega)] at hno
      exact hno (by decide)
    rw [eventsOf_plain]
    have hown : ownInsts (blockNow o f pr loops b (f.costs b)) = (f.costs b).dropLast :=
      ownInsts_blockNow_probed f pr loops b (f.costs b) hbb
    have hdrop : ∀ c ∈ (f.costs b).dropLast, 0 ≤ c := fun c hc =>
      (hcost c (List.dropLast_subset _ hc)).1
    have hle : (f.costs b).dropLast.sum ≤ (f.costs b).sum :=
      (List.dropLast_sublist _).sum_le_sum fun c hc => (hcost c hc).1
    rw [hown]
    exact (events_cost hdrop m hw (by omega)).2

/-- Any block that is not quiet. -/
theorem loud_block (hpos : 1 ≤ (f.costs b).sum) (hq : ¬ Quiet pr.plan b) (m : Meter)
    (hw : m.worst ≤ W) (hg : m.gap + o.commitInterval ≤ W) :
    (m.events (blockCode o f pr loops b)).gap ≤ o.commitInterval ∧
      (m.events (blockCode o f pr loops b)).worst ≤ W := by
  by_cases hbb : b ∈ pr.plan.instrumentedBB
  · have hbefore : (m.events (eventsOf id (markedBlock o f pr loops id b (f.costs b)))).worst ≤ W :=
      marked_before hci hciW hint hmem hp hcost hbb m hw hg
    simp only [blockCode, codeOf, if_pos hbb, List.map_append]
    rw [events_append]
    change (m.events (List.map _ (List.flatMap _ _))).worst ≤ W at hbefore
    generalize m.events (List.map _ (List.flatMap _ _)) = m' at hbefore ⊢
    cases hlast : (f.costs b).getLast? with
    | none => exact ⟨Int.le_of_lt hci, hbefore⟩
    | some c =>
      have hc := hcost c (List.mem_of_getLast? hlast)
      simp only [Option.toList_some, List.map_cons, List.map_nil, Meter.events, List.foldl_cons,
        List.foldl_nil, Meter.event, Code.event, id]
      omega
  · have hz : pr.plan.costMap b = 0 ∧ o.commitInterval ≤ (f.costs b).sum := by
      have hnot : ¬ 0 < pr.plan.costMap b := fun h => hq ⟨h, hbb⟩
      rw [hp, weight] at hnot ⊢
      split at hnot
      · rename_i hle
        exact ⟨if_pos hle, hle⟩
      · omega
    have hnow := blockNow_cost f pr loops b id hci hmem hcost
    have hle := sum_ownInsts_le fun i hi => (hnow i hi).1
    rw [ownInsts_blockNow f pr loops b _ hbb, List.map_id] at hle
    have hcode : blockCode o f pr loops b = eventsOf id (instructionsToProbe (Inst.cost id)
        o.commitInterval 0 (blockNow o f pr loops b (f.costs b))) := by
      simp [blockCode, codeOf, hbb, markedBlock, hz.1, eventsOf]
    rw [hcode]
    obtain ⟨hworst, hgap⟩ := scan_before hciW hint hg hnow m hw (by omega) (Int.le_refl 0) hci
    exact ⟨hgap (by omega), hworst⟩

end Loud

end Block

/-! ## The cuts of a block

Cutting before every instruction that is probed leaves pieces that cost less than
the interval, but for an instruction that costs the interval alone. -/

section Cuts

variable {ci : Int}

/-- The instructions between the probes. -/
def segments : List (Bool × Int) → List (List Int)
  | [] => [[]]
  | (probed, c) :: is =>
    if probed then [] :: (segments is).modifyHead (c :: ·) else (segments is).modifyHead (c :: ·)

/-- The piece costs less than the interval, or is one instruction that costs it alone. -/
def Bounded (ci : Int) (piece : List Int) : Prop := piece.sum < ci ∨ ∃ c, piece = [c] ∧ ci ≤ c

/-- No total the scan forms is too large for an `int`: it is the cost of an instruction and less
than the interval, or of two neighbours. -/
structure Addable (ci : Int) (cs : List Int) : Prop where
  interval : ∀ c ∈ cs, c + ci ≤ intMax
  neighbours : cs.IsChain fun c c' => c + c' ≤ intMax

theorem segments_ne_nil (is : List (Bool × Int)) : segments is ≠ [] := by
  induction is with
  | nil => simp [segments]
  | cons x is ih =>
    unfold segments
    split <;> simp [ih]

/-- The pieces make up the block. -/
theorem flatten_segments (is : List (Bool × Int)) : (segments is).flatten = is.map Prod.snd := by
  induction is with
  | nil => rfl
  | cons x is ih =>
    obtain ⟨s, ss, hs⟩ := List.exists_cons_of_ne_nil (segments_ne_nil is)
    rw [hs] at ih
    unfold segments
    split <;> simp [hs, ← ih]

/-- The total is the cost of the piece that is open: it stays below the interval, or the piece is
one instruction and any other ends it. If the block gets no probe, all of it is in the piece. -/
theorem segments_bounded {cs : List Int} (h : ∀ c ∈ cs, 0 ≤ c) (piece : List Int)
    (hp : Bounded ci piece) (hnn : 0 ≤ piece.sum) (hadd : Addable ci cs)
    (hnext : ∀ a, piece = [a] → ∀ c ∈ cs.head?, a + c ≤ intMax) :
    ∃ s ss, segments (instructionsToProbe id ci piece.sum cs) = s :: ss ∧
      Bounded ci (piece ++ s) ∧ (∀ x ∈ ss, Bounded ci x) ∧
      ((∀ x ∈ instructionsToProbe id ci piece.sum cs, x.1 = false) → s = cs) := by
  induction cs generalizing piece with
  | nil => exact ⟨[], [], rfl, by simpa using hp, by simp, fun _ => rfl⟩
  | cons c cs ih =>
    obtain ⟨hc, hrest⟩ := List.forall_mem_cons.mp h
    have hadd' : Addable ci cs :=
      ⟨fun x hx => hadd.interval x (List.mem_cons_of_mem c hx), hadd.neighbours.tail⟩
    have hint : int32 (piece.sum + c) = piece.sum + c := by
      refine int32_eq ⟨by unfold intMin; omega, ?_⟩
      rcases hp with hlt | ⟨a, rfl, -⟩
      · have hle := hadd.interval c (by simp)
        omega
      · simpa using hnext a rfl c rfl
    have hsum : (piece ++ [c]).sum = piece.sum + c := by simp
    unfold instructionsToProbe
    simp only [id, hint]
    split
    · -- the probe closes the piece, and `c` opens the next one
      have hone : Bounded ci [c] := by
        by_cases hle : ci ≤ c
        · exact .inr ⟨c, rfl, hle⟩
        · exact .inl (by simpa using hle)
      have hsingle : ([c] : List Int).sum = c := by simp
      have hhead : ∀ a, [c] = [a] → ∀ c' ∈ cs.head?, a + c' ≤ intMax := by
        intro a ha c' hc'
        cases ha
        obtain ⟨cs, rfl⟩ := List.head?_eq_some_iff.mp hc'
        exact (List.isChain_cons_cons.mp hadd.neighbours).1
      obtain ⟨s, ss, hs, hb, hbs, -⟩ := ih hrest [c] hone (by omega) hadd' hhead
      rw [hsingle] at hs
      refine ⟨[], (c :: s) :: ss, by simp [segments, hs], by simpa using hp, ?_, ?_⟩
      · exact List.forall_mem_cons.mpr ⟨hb, hbs⟩
      · exact fun hno => absurd (hno _ List.mem_cons_self) (by simp)
    · have hlong : ∀ a, piece ++ [c] = [a] → ∀ c' ∈ cs.head?, a + c' ≤ intMax := by
        intro a ha c' hc'
        obtain ⟨cs, rfl⟩ := List.head?_eq_some_iff.mp hc'
        have hca : c = a := by
          have hlast := congrArg List.getLast? ha
          simpa using hlast
        exact hca ▸ (List.isChain_cons_cons.mp hadd.neighbours).1
      obtain ⟨s, ss, hs, hb, hbs, hall⟩ := ih hrest (piece ++ [c]) (.inl (by omega)) (by omega)
        hadd' hlong
      rw [hsum] at hs hall
      refine ⟨c :: s, ss, by simp [segments, hs], by simpa using hb, hbs, fun hno => ?_⟩
      rw [hall fun x hx => hno x (List.mem_cons_of_mem _ hx)]

/-- A block that costs the commit interval is probed at least once, and its probes cut it into
pieces that cost less than the interval or are a single instruction that costs it alone. -/
theorem block_probes_cut (ci : Int) (cs : List Int) (hci : 0 < ci) (hcost : ∀ c ∈ cs, 0 ≤ c)
    (hsum : ci ≤ cs.sum) (hadd : Addable ci cs) :
    (∃ c, (true, c) ∈ instructionsToProbe id ci 0 cs) ∧
      (segments (instructionsToProbe id ci 0 cs)).flatten = cs ∧
      ∀ piece ∈ segments (instructionsToProbe id ci 0 cs),
        piece.sum < ci ∨ ∃ c, piece = [c] ∧ ci ≤ c := by
  obtain ⟨s, ss, hs, hb, hbs, hall⟩ := segments_bounded hcost [] (.inl (by simpa using hci))
    (by simp) hadd (by simp)
  rw [List.sum_nil] at hs hall
  rw [List.nil_append] at hb
  refine ⟨?_, ?_, fun piece hp => ?_⟩
  · -- otherwise the block is one piece, and too expensive for that unless it is one instruction
    by_contra hno
    have hone := hall fun x hx => by
      cases hx₁ : x.1 with
      | false => rfl
      | true => exact absurd ⟨x.2, by rw [← hx₁]; exact hx⟩ hno
    rw [hone] at hb
    rcases hb with hlt | ⟨c, rfl, hle⟩
    · omega
    · have hint : int32 c = c := by
        have hmax := hadd.interval c (by simp)
        exact int32_eq ⟨by unfold intMin; omega, by omega⟩
      refine hno ⟨c, ?_⟩
      simp [instructionsToProbe, hint, hle]
  · rw [flatten_segments, instructionsToProbe_snd]
  · rw [hs] at hp
    rcases List.mem_cons.mp hp with rfl | hp
    · exact hb
    · exact hbs piece hp

/-- Two instructions that cost the interval in a row, and a free one behind them. -/
theorem block_probes_cut_calls :
    segments (instructionsToProbe id 5 0 [1, 1, 7, 9, 0, 2]) = [[1, 1], [7], [9], [0, 2]] ∧
      (∃ c, (true, c) ∈ instructionsToProbe id 5 0 [1, 1, 7, 9, 0, 2]) ∧
      ∀ piece ∈ segments (instructionsToProbe id 5 0 [1, 1, 7, 9, 0, 2]),
        piece.sum < 5 ∨ ∃ c, piece = [c] ∧ 5 ≤ c :=
  have h := block_probes_cut 5 [1, 1, 7, 9, 0, 2] (by decide) (by decide) (by decide)
    ⟨by decide, by decide⟩
  ⟨by decide, h.1, h.2.2⟩

/-- The total wraps behind an instruction that costs the largest `int`, and the rest of the block
gets no probe. -/
theorem block_probes_wrap :
    (∀ c ∈ [2147483647, 1, 60, 60, 60, 60], (0 : Int) ≤ c) ∧
      100 ≤ ([2147483647, 1, 60, 60, 60, 60] : List Int).sum ∧
      segments (instructionsToProbe id 100 0 [2147483647, 1, 60, 60, 60, 60]) =
        [[], [2147483647, 1, 60, 60, 60, 60]] := by
  decide

end Cuts

end TinyQuanta.BlockMeter
