import TinyQuanta.LoopCover
import TinyQuanta.ProbeBlocks

/-!
# The distance exported to callers

After the probes are in, `updateFuncInfo` records the longest uninstrumented way
from the entry to a return. It runs `longestDistanceFrom` on the rewritten function
with the maps of the original one. A new block is not among the sorted ones and has
no cost, so a way ends there. A cancelled back edge is no longer skipped, but it
leads back to a block that has been swept, and that block does not return.
-/
namespace TinyQuanta.ExportedDistance

open Relation TopoSort Relaxation Params Planner PlannerSteps PlannerBound InsertProbes
  Instrumented LoopCosts LoopCover ProbeBlocks

/-- The maps at the end of the pass: `CostMap` has no entry for a new block. -/
def finalMaps (f : Func) (p : Plan) : Plan :=
  { p with costMap := fun b => if b ∈ f.blocks then p.costMap b else 0 }

/-- The `MaxUnistDist` that `updateFuncInfo` records when `f` has become `g`. -/
def maxUnistDist (f g : Func) (p : Plan) : Int :=
  (maxReturn g (longestDistanceFrom g (finalMaps f p) g.entry)).2

theorem finalMaps_old {f : Func} {p : Plan} {b : Block} (hb : b ∈ f.blocks) :
    (finalMaps f p).costMap b = p.costMap b := if_pos hb

theorem finalMaps_new {f : Func} {p : Plan} {b : Block} (hb : b ∉ f.blocks) :
    (finalMaps f p).costMap b = 0 := if_neg hb

theorem finalMaps_propagates {f : Func} {p : Plan} {u v : Block} (hu : u ∈ f.blocks)
    (h : propagates (finalMaps f p) u v) : propagates p u v := by
  refine ⟨h.1, ?_, h.2.2⟩
  rw [← finalMaps_old hu]
  exact h.2.1

/-! ## The maps after `insertProbes` -/

/-- What is left of the plan, for distances along forward edges. -/
structure Kept (f : Func) (p r : Plan) : Prop where
  sortedBBs : r.sortedBBs = p.sortedBBs
  costMap : r.costMap = p.costMap
  propagates : ∀ u ∈ p.sortedBBs, ∀ v ∈ forward f p.backEdges u, propagates r u v →
    Planner.propagates p u v
  selfLoop : ∀ b ∈ p.sortedBBs, (b, b) ∈ p.backEdges → (b, b) ∉ r.backEdges → p.costMap b ≤ 0

section Final

variable {o : Options} {f g : Func} {p r : Plan}

/-- The loop of a block by itself costs as much as the block. -/
theorem loopCost_self (h : Inv o f p) {q : Plan} (hm : Merged f p q) {b : Block}
    (hs : b ∈ p.sortedBBs) (hi : q.inst (b, b) ≠ .uninst) (hcost : loopCost f q (b, b) = 0) :
    p.costMap b ≤ 0 := by
  by_contra hpos
  have hb : 0 < q.costMap b := by
    rw [hm.costMap]
    omega
  obtain ⟨x, hx, -, hx₀⟩ := longest_ge (hm.metered h hs) hb [] (List.isChain_singleton b) rfl
  rw [loopCost, if_neg hi, hx, Option.getD_some] at hcost
  omega

theorem kept_insertProbes (h : Inv o f p) : Kept f p (cancelBackEdges f (mergeBlocks f p)) := by
  have hm : Merged f p (mergeBlocks f p) := mergeBlocks_merged h.noBB
  have hc := cancelBackEdges_cancelled f (mergeBlocks f p)
  refine ⟨hc.sortedBBs.trans hm.sortedBBs, hc.costMap.trans hm.costMap, ?_, ?_⟩
  · intro u hu v hv hprop
    rw [← hm.backEdges] at hv
    have hpass := hc.passes (l := p.sortedBBs) ⟨hu, hv, hprop⟩
    exact hm.propagates hpass.2.2 h.noBB
  · intro b hs hb hcancel
    by_contra hpos
    refine hcancel (mem_cancelBackEdges (hm.backEdges ▸ hb) fun hcond => ?_)
    exact hpos (loopCost_self h hm hs hcond.1 hcond.2)

/-! ## Distances on the rewritten function -/

/-- A property of distances that starts at the entry and follows the uninstrumented forward
edges. -/
structure Follows (f : Func) (p r : Plan) (Q : Block → Int → Prop) : Prop where
  entry : Q f.entry (p.costMap f.entry)
  next : ∀ u ∈ p.sortedBBs, ∀ v ∈ forward f p.backEdges u, ∀ y, Q u y → 0 < y → propagates r u v →
    Q v (y + p.costMap v)

/-- The distance is also the cost of a path of the plan, so it is an `int`. -/
def Reached (f : Func) (p : Plan) (Q : Block → Int → Prop) (u : Block) (y : Int) : Prop :=
  Q u y ∧ ∃ path, Unbroken f p f.entry u path ∧ pathCost p path = y

theorem Reached.int32_eq (h : Inv o f p) {Q : Block → Int → Prop} {u : Block} {y : Int}
    (hy : Reached f p Q u y) (hpos : 0 ≤ y) : int32 y = y := by
  obtain ⟨-, path, hpath, rfl⟩ := hy
  exact Params.int32_eq ⟨by unfold intMin; omega, h.fits _ (Inv.entry h) u path hpath⟩

/-- A distance on the rewritten function is one of an original block, at the block or at a new block
behind it. -/
def Originates (f g : Func) (Q : Block → Int → Prop) (v : Block) (x : Int) : Prop :=
  x ≤ 0 ∨ ∃ u ∈ f.blocks, Q u x ∧ (v = u ∨ v ∉ f.blocks ∧ v ∈ g.succs u)

theorem Originates.of_mem {Q : Block → Int → Prop} {v : Block} {x : Int} (h : Originates f g Q v x)
    (hv : v ∈ f.blocks) (hx : 0 < x) : Q v x := by
  rcases h with hle | ⟨u, -, hQ, rfl | ⟨hnew, -⟩⟩
  · omega
  · exact hQ
  · exact absurd hv hnew

/-- The header of a back edge is swept before its latch. -/
theorem header_swept (h : Inv o f p) (hfound : FoundBackedges f p.backEdges) {pre post : List Block}
    {u v : Block} (ho : p.sortedBBs.reverse = pre ++ u :: post) (he : (u, v) ∈ p.backEdges)
    (hne : v ≠ u) : v ∈ pre := by
  have hl : p.sortedBBs = post.reverse ++ (u :: pre.reverse) := by
    rw [← List.reverse_reverse p.sortedBBs, ho]
    simp
  have hmem : v ∈ p.sortedBBs := (h.sorted v).mpr (hfound.header _ he)
  rw [hl] at hmem
  rcases List.mem_append.mp hmem with hpost | hrest
  · -- what comes before the latch in the list is closed under forward edges
    have hclosed : RevTopo (forward f p.backEdges) post.reverse := by
      apply h.topo.initial
      rw [hl]
      exact List.prefix_append _ _
    have hu : u ∈ post.reverse := hclosed.reaches hpost (hfound.latch _ he)
    have hn := h.nodup
    rw [hl] at hn
    exact absurd rfl ((List.nodup_append.mp hn).2.2 u hu u (by simp))
  · simpa [hne] using hrest

/-- What the sweep offers along an edge of the rewritten function. -/
theorem originates_step (h : Inv o f p) (hk : Kept f p r) (hg : Derived f g)
    (hfound : FoundBackedges f p.backEdges) {Q : Block → Int → Prop} (hQ : Follows f p r Q)
    {pre post : List Block} {u v : Block} {x y : Int} (ho : p.sortedBBs.reverse = pre ++ u :: post)
    (hv : v ∈ forward g r.backEdges u) (hy : Originates f g (Reached f p Q) u y)
    (hx : longestCand (finalMaps f r) u v (some y) = some x) :
    Originates f g (Reached f p Q) v x ∨ (∃ w, (w, v) ∈ p.backEdges) ∧ v ∈ pre := by
  have hul : u ∈ p.sortedBBs := by
    rw [← List.mem_reverse, ho]
    simp
  have hu := h.subset hul
  obtain ⟨hvg, hback⟩ := mem_forward.mp hv
  simp only [longestCand, Option.map_some, Option.some.injEq] at hx
  by_cases hc : propagates (finalMaps f r) u v ∧ 0 < y
  · rw [if_pos hc] at hx
    obtain ⟨hprop, hpos⟩ := hc
    have hQu := hy.of_mem hu hpos
    by_cases hvf : v ∈ f.blocks
    · rw [finalMaps_old hvf, hk.costMap] at hx
      have hprop' := finalMaps_propagates hu hprop
      by_cases he : (u, v) ∈ p.backEdges
      · -- a cancelled back edge
        refine .inr ⟨⟨u, he⟩, header_swept h hfound ho he fun hvu => ?_⟩
        subst hvu
        have hzero := hk.selfLoop v hul he hback
        have hcv := hprop'.2.1
        rw [hk.costMap] at hcv
        omega
      · have hfwd : v ∈ forward f p.backEdges u := mem_forward.mpr ⟨hg.edge u hu v hvg hvf, he⟩
        obtain ⟨path, hpath, hcost⟩ := hQu.2
        have hQv : Reached f p Q v (y + p.costMap v) :=
          ⟨hQ.next u hul v hfwd y hQu.1 hpos hprop', path ++ [v],
            .snoc u v path hpath hfwd (hk.propagates u hul v hfwd hprop'), by
              rw [pathCost_snoc, hcost]⟩
        have hnn := h.nonneg v (h.topo.closed hul hfwd)
        rw [hQv.int32_eq h (by omega)] at hx
        exact .inl (.inr ⟨v, hvf, hx ▸ hQv, .inl rfl⟩)
    · rw [finalMaps_new hvf, Int.add_zero, hQu.int32_eq h (Int.le_of_lt hpos)] at hx
      exact .inl (.inr ⟨u, hu, hx ▸ hQu, .inr ⟨hvf, hvg⟩⟩)
  · rw [if_neg hc] at hx
    exact .inl (.inl (by omega))

theorem recorded_source (h : Inv o f p) (hk : Kept f p r) (hg : Derived f g)
    (hfound : FoundBackedges f p.backEdges) {Q : Block → Int → Prop} (hQ : Follows f p r Q)
    {v : Block} {x : Int} (hd : (longestDistanceFrom g (finalMaps f r) g.entry).dist v = some x) :
    Originates f g (Reached f p Q) v x ∨ ∃ u, (u, v) ∈ p.backEdges := by
  have hs : (finalMaps f r).sortedBBs = p.sortedBBs := hk.sortedBBs
  refine sweep_invariant (L := fun v => ∃ u, (u, v) ∈ p.backEdges) (fun _ _ => rfl) ?_ ?_ ?_ hd
  · rw [hs]
    exact List.nodup_reverse.mpr h.nodup
  · intro v x hx
    by_cases hv : v = g.entry
    · subst hv
      simp only [Function.update_self, Option.some.injEq] at hx
      rw [hg.entry, finalMaps_old f.entry_mem, hk.costMap] at hx
      have hreached : Reached f p Q f.entry (p.costMap f.entry) :=
        ⟨hQ.entry, [f.entry], .start, pathCost_singleton p f.entry⟩
      exact .inr ⟨f.entry, f.entry_mem, hx ▸ hreached, .inl hg.entry⟩
    · simp [hv] at hx
  · intro pre u post ho v hv y x hy hx
    rw [hs] at ho
    exact originates_step h hk hg hfound hQ ho hv hy hx

theorem header_succs {backEdges : List (Block × Block)} (hfound : FoundBackedges f backEdges)
    {e : Block × Block} (he : e ∈ backEdges) : f.succs e.2 ≠ [] := by
  rcases (hfound.latch e he).cases_head with heq | ⟨w, hw, -⟩
  · have hedge := hfound.edge e he
    rw [← heq] at hedge
    exact List.ne_nil_of_mem hedge
  · exact List.ne_nil_of_mem (mem_forward.mp hw).1

/-- What bounds the distances of original return blocks bounds the recorded distance. -/
theorem maxUnistDist_le (h : Inv o f p) (hk : Kept f p r) (hg : Derived f g)
    (hfound : FoundBackedges f p.backEdges)
    (hret : ∀ b ∈ f.blocks, f.isRet b = true → f.succs b = []) {Q : Block → Int → Prop}
    (hQ : Follows f p r Q) {x : Int} (hx : 0 ≤ x)
    (hle : ∀ u ∈ f.blocks, f.isRet u = true → ∀ y, Q u y → y ≤ x) :
    maxUnistDist f g r ≤ x := by
  refine maxReturn_le hx fun v _ hr y hy => ?_
  rcases recorded_source h hk hg hfound hQ hy with
    (hneg | ⟨u, hu, hQu, rfl | ⟨hnew, hvu⟩⟩) | ⟨u, he⟩
  · omega
  · exact hle v hu (hg.ret v hu hr) y hQu.1
  · exact hle u hu (hg.tail u hu v hvu hnew hr) y hQu.1
  · have hv : v ∈ f.blocks := reach_blocks (hfound.header _ he)
    exact absurd (hret v hv (hg.ret v hv hr)) (header_succs hfound he)

/-- The distances at the end of the first planning loop. -/
theorem planned_swept {p₁ : Plan} (h₁ : Inv o f p₁) (hn : Narrows p₁ p) :
    Swept (forward f p.backEdges) (longestSum p₁) (fun u _ => u) p.sortedBBs
      ⟨Function.update (fun _ => none) f.entry (some (p.costMap f.entry)),
        Function.update (fun _ => none) f.entry (some f.entry)⟩
      (longestDistanceFrom f p₁ f.entry) := by
  rw [hn.backEdges, hn.sortedBBs, hn.costMap]
  exact longest_swept (Inv.metered h₁ (Inv.entry h₁))

/-- A way that goes on in the end went on then. -/
theorem propagates_before {p₁ : Plan} (hk : Kept f p r) (hn : Narrows p₁ p) {u v : Block}
    (hu : u ∈ p.sortedBBs) (hv : v ∈ forward f p.backEdges u) (hprop : propagates r u v) :
    propagates p₁ u v := by
  obtain ⟨hi, hcost, hbb⟩ := hk.propagates u hu v hv hprop
  refine ⟨?_, hn.costMap ▸ hcost, hn.instrumentedBB ▸ hbb⟩
  by_contra hne
  exact hn.inst_ne hne hi

/-- Where no way leads on from the entry, there is no distance but its cost. -/
theorem follows_entry (hstop : f.entry ∈ p.sortedBBs → ∀ v ∈ forward f p.backEdges f.entry,
    ¬ propagates r f.entry v) :
    Follows f p r fun u x => u = f.entry ∧ x = p.costMap f.entry where
  entry := ⟨rfl, rfl⟩
  next := by
    rintro u hu v hv y ⟨rfl, -⟩ - hprop
    exact absurd hprop (hstop hu v hv)

/-- The distances of the first planning loop bound those along what is left. -/
theorem follows_planned {p₁ : Plan} (h₁ : Inv o f p₁) (hk : Kept f p r) (hn : Narrows p₁ p) :
    Follows f p r fun u x => ∃ d, (longestDistanceFrom f p₁ f.entry).dist u = some d ∧ x ≤ d where
  entry := (planned_swept h₁ hn).grows f.entry _ (by simp)
  next := by
    rintro u hu v hv y ⟨d, hd, hyd⟩ hpos hprop
    have hd₀ : 0 < d := by omega
    have hcand : longestSum p₁ u v (some d) = some (d + p.costMap v) := by
      simp [longestSum, propagates_before hk hn hu hv hprop, hd₀, hn.costMap]
    obtain ⟨d', hd', hle⟩ := (planned_swept h₁ hn).ge u hu v hv _ (hd ▸ hcand)
    exact ⟨d', hd', by omega⟩

/-- The planning bound carries over to the rewritten function. -/
theorem maxUnistDist_le_limit {p₁ : Plan} (h : Inv o f p) (h₁ : Inv o f p₁) (hk : Kept f p r)
    (hn : Narrows p₁ p) (hend : EndToEnd o f p₁) (hg : Derived f g)
    (hfound : FoundBackedges f p.backEdges)
    (hret : ∀ b ∈ f.blocks, f.isRet b = true → f.succs b = []) (hci : 0 < o.commitInterval)
    (hmax : 0 ≤ o.maxE2EUninst) :
    maxUnistDist f g r ≤ if f.isRet f.entry then o.commitInterval - 1 else o.maxE2EUninst := by
  by_cases hre : f.isRet f.entry = true
  · rw [if_pos hre]
    have hstop : ∀ v ∈ forward f p.backEdges f.entry, ¬ propagates r f.entry v := by
      intro v hv
      have hsucc := (mem_forward.mp hv).1
      rw [hret f.entry f.entry_mem hre] at hsucc
      cases hsucc
    apply maxUnistDist_le h hk hg hfound hret (follows_entry fun _ => hstop) (by omega)
    rintro u - - y ⟨-, rfl⟩
    have hsmall := h.small f.entry
    omega
  rw [if_neg hre]
  rcases hend with hle | hall
  · apply maxUnistDist_le h hk hg hfound hret (follows_planned h₁ hk hn) hmax
    rintro u hu hru y ⟨d, hd, hyd⟩
    have hdle := le_maxReturn hu hru hd
    omega
  · -- every way out of the entry has a probe, and the entry does not return
    have hstop : f.entry ∈ p.sortedBBs → ∀ v ∈ forward f p.backEdges f.entry,
        ¬ propagates r f.entry v := by
      intro hu v hv hprop
      have hi := (hk.propagates f.entry hu v hv hprop).1
      exact hn.inst_ne (hall v (mem_forward.mp hv).1) hi
    apply maxUnistDist_le h hk hg hfound hret (follows_entry hstop) hmax
    rintro u - hru y ⟨rfl, -⟩
    exact absurd hru hre

end Final

/-- The recorded distance is within the limit for paths through the function, unless the entry block
returns; then it is below the commit interval. -/
theorem exported_distance_le (o : Options) (f : Func) (backEdges : List (Block × Block))
    (loops : Block × Block → Loop) (hacyc : Acyclic f backEdges)
    (hfound : FoundBackedges f backEdges)
    (hret : ∀ b ∈ f.blocks, f.isRet b = true → f.succs b = [])
    (hpre : ∀ e ∈ backEdges, cloneable e (loops e) = true → e.1 ∈ f.succs (loops e).preheader)
    (hci : 0 < o.commitInterval) (hmax : 0 ≤ o.maxE2EUninst)
    (hcost : ∀ b ∈ f.blocks, ∀ c ∈ f.costs b, 0 ≤ c) (hfit : Fits o f backEdges) :
    ∃ N pr, (∀ n, N ≤ n → generateInst o f backEdges n = .ok pr) ∧
      maxUnistDist f (emitProbes o f backEdges loops pr) pr.plan ≤
        if f.isRet f.entry then o.commitInterval - 1 else o.maxE2EUninst := by
  obtain ⟨N, p, hp, h, rfl, -, p₁, h₁, hn, hend⟩ := planProbes_spec hacyc hci hmax hcost hfit
  obtain ⟨pr, hpr, hplan⟩ : ∃ pr, insertProbes o f p = .ok pr ∧
      pr.plan = cancelBackEdges f (mergeBlocks f p) := ⟨_, insertProbes_eq h, rfl⟩
  have hback : ∀ e, pr.HasLoopProbe e → e ∈ p.backEdges := by
    intro e he
    have hm : Merged f p (mergeBlocks f p) := mergeBlocks_merged h.noBB
    have hc := cancelBackEdges_cancelled f (mergeBlocks f p)
    exact (hm.loopInst h (hc.loopInst h hm (hplan ▸ he.1)).1).1
  have hg : Derived f (emitProbes o f p.backEdges loops pr) := by
    refine emitProbes_derived (fun e he hself => ?_) fun e he => hpre e (hback e he)
    have hb : e.2 ∈ f.blocks := reach_blocks (hfound.header e (hback e he))
    rw [hself]
    refine ⟨hb, Bool.eq_false_iff.mpr fun hr => ?_⟩
    exact header_succs hfound (hback e he) (hret e.2 hb hr)
  refine ⟨N, pr, fun n hN => ?_, ?_⟩
  · unfold generateInst
    rw [hp n hN]
    exact hpr
  · rw [hplan]
    exact maxUnistDist_le_limit h h₁ (kept_insertProbes h) hn hend hg hfound hret hci hmax

/-- The loop of `branchLoop`, without an induction variable. -/
def branchLoopInfo : Block × Block → Loop := fun _ =>
  { preheader := 0, body := [1, 2, 3, 4], depth := 1, exitBlocks := [5], indVar := none }

theorem exported_distance_branchLoop :
    ∃ N pr, (∀ n, N ≤ n → generateInst ⟨10, 3, 40, 1⟩ branchLoop [(4, 1)] n = .ok pr) ∧
      maxUnistDist branchLoop
          (emitProbes ⟨10, 3, 40, 1⟩ branchLoop [(4, 1)] branchLoopInfo pr) pr.plan ≤
        if branchLoop.isRet branchLoop.entry then 10 - 1 else 3 :=
  exported_distance_le ⟨10, 3, 40, 1⟩ branchLoop [(4, 1)] branchLoopInfo acyclic_branchLoop
    foundBackedges_branchLoop (by decide) (by decide) (by decide) (by decide) (by decide)
    (fits_branchLoop _)

/-- A short way to the return, and one that costs as much as an `int` can hold before the last
block. -/
def heavyBranch : Func where
  blocks := [0, 1, 2, 3, 4]
  entry := 0
  succs := fun b => [[1, 3], [2], [3], [4], []].getD b []
  isRet := fun b => b == 4
  costs := fun b => [[1], [1073742724], [1073740824], [50], [500]].getD b []
  calls := fun _ => []
  entry_mem := by decide
  succs_mem := by decide

def heavyBranchOptions : Options := ⟨1073742824, 500, 40, 1⟩

def heavyBranchRecorded (n : Nat) : Option Int :=
  match generateInst heavyBranchOptions heavyBranch [] n with
  | .error _ => none
  | .ok pr => some (maxUnistDist heavyBranch
      (emitProbes heavyBranchOptions heavyBranch [] branchLoopInfo pr) pr.plan)

/-- The distance of the long way wraps to a negative number at the return, so the first loop ends at
once. The second one puts a probe on the long way, and leaves the short way as the longest. -/
theorem heavy_branch_exceeds :
    Acyclic heavyBranch [] ∧ FoundBackedges heavyBranch [] ∧
      (∀ b ∈ heavyBranch.blocks, heavyBranch.isRet b = true → heavyBranch.succs b = []) ∧
      (∀ b ∈ heavyBranch.blocks, ∀ c ∈ heavyBranch.costs b, 0 ≤ c) ∧
      heavyBranch.isRet heavyBranch.entry = false ∧
      ∀ n, ∃ pr, generateInst heavyBranchOptions heavyBranch [] (n + 2) = .ok pr ∧
        heavyBranchOptions.maxE2EUninst < maxUnistDist heavyBranch
          (emitProbes heavyBranchOptions heavyBranch [] branchLoopInfo pr) pr.plan := by
  refine ⟨acyclic_of_rank id (by decide), ⟨by decide, by simp, by simp⟩, by decide, by decide, rfl,
    fun n => ?_⟩
  have hrecorded : heavyBranchRecorded (n + 2) = some 551 := rfl
  unfold heavyBranchRecorded at hrecorded
  split at hrecorded
  · cases hrecorded
  · rename_i pr hpr
    refine ⟨pr, hpr, ?_⟩
    rw [Option.some.inj hrecorded]
    decide

end TinyQuanta.ExportedDistance
