import Mathlib.Data.List.Infix
import TinyQuanta.BlockMeter
import TinyQuanta.LoopCosts

/-!
# Every loop is covered

A back edge that loses its loop probe is one whose loop has a probe on every way
around it: on an edge, in a block that took over the probes of its edges, or in a
block that costs the commit interval by itself. Irreducible loops are included, so
all that is known of the back edges is how `FindFunctionBackedges` finds them.
-/
namespace TinyQuanta.LoopCover

open Relation TopoSort Planner PlannerSteps PlannerBound InsertProbes LoopNest LoopForm
  LoopCosts BlockMeter

/-- What a depth-first search from the entry says of the edges it reports: they go to a block that
is on the stack, which the search came to, and from there to the latch, over other edges. -/
structure FoundBackedges (f : Func) (backEdges : List (Block × Block)) : Prop where
  edge : ∀ e ∈ backEdges, e.2 ∈ f.succs e.1
  header : ∀ e ∈ backEdges, ReflTransGen (Edge (forward f backEdges)) f.entry e.2
  latch : ∀ e ∈ backEdges, ReflTransGen (Edge (forward f backEdges)) e.2 e.1

/-- The blocks of a path over forward edges, first to last. -/
structure IsPath (f : Func) (backEdges : List (Block × Block)) (u v : Block) (path : List Block) :
    Prop where
  head : path.head? = some u
  last : path.getLast? = some v
  chain : path.IsChain fun a b => b ∈ forward f backEdges a

/-- The path has a probe that is not a loop probe. -/
def Probed (o : Options) (f : Func) (p : Plan) (path : List Block) : Prop :=
  (∃ u v, [u, v] <:+: path ∧ p.inst (u, v) = .normInst) ∨
    ∃ b ∈ path, b ∈ p.instrumentedBB ∨ o.commitInterval ≤ (f.costs b).sum

section Settled

variable {o : Options} {f : Func} {backEdges : List (Block × Block)} {l : List Block} {pr : Probes}

theorem Probed.cons {p : Plan} {b : Block} {path : List Block} (h : Probed o f p path) :
    Probed o f p (b :: path) := by
  rcases h with ⟨u, v, huv, hi⟩ | ⟨c, hc, hp⟩
  · exact .inl ⟨u, v, huv.trans (List.suffix_cons b path).isInfix, hi⟩
  · exact .inr ⟨c, List.mem_cons_of_mem b hc, hp⟩

/-- A block without a probe counts with its full cost. -/
theorem quiet_of_unprobed (h : Settled o f backEdges l pr) {b : Block} (hb : b ∈ l)
    {path : List Block} (hsum : 1 ≤ (f.costs b).sum) (hp : ¬ Probed o f pr.plan (b :: path)) :
    Quiet pr.plan b := by
  constructor
  · have hlt : ¬ o.commitInterval ≤ (f.costs b).sum := fun hle => hp (.inr ⟨b, by simp, .inr hle⟩)
    rw [h.weights b hb, weight, if_neg hlt]
    omega
  · exact fun hb => hp (.inr ⟨b, by simp, .inl hb⟩)

/-- A forward edge without a probe is passed. -/
theorem passes_of_unprobed (h : Settled o f backEdges l pr) {u v : Block} {path : List Block}
    (hu : u ∈ l) (hv : v ∈ forward f backEdges u) (hsum : 1 ≤ (f.costs u).sum)
    (hp : ¬ Probed o f pr.plan (u :: v :: path)) : Passes f backEdges l pr.plan u v := by
  obtain ⟨hpos, hbb⟩ := quiet_of_unprobed h hu hsum hp
  refine ⟨hu, hv, ?_, hpos, hbb⟩
  cases hi : pr.plan.inst (u, v) with
  | uninst => rfl
  | normInst => exact absurd (.inl ⟨u, v, ⟨[], path, rfl⟩, hi⟩) hp
  | loopInst => exact absurd (h.back _ (h.loopInst _ hi)).1 (mem_forward.mp hv).2

/-- A path without a probe is a stretch of uninstrumented code. -/
theorem isChain_of_unprobed (h : Settled o f backEdges l pr) (hsum : ∀ b ∈ l, 1 ≤ (f.costs b).sum)
    (path : List Block) {u : Block} (hu : u ∈ l)
    (hchain : (u :: path).IsChain fun a b => b ∈ forward f backEdges a)
    (hp : ¬ Probed o f pr.plan (u :: path)) :
    (u :: path).IsChain (Passes f backEdges l pr.plan) ∧
      ∀ b ∈ u :: path, b ∈ l ∧ Quiet pr.plan b := by
  have hq := quiet_of_unprobed h hu (hsum u hu) hp
  induction path generalizing u with
  | nil => exact ⟨List.isChain_singleton u, by simpa using ⟨hu, hq⟩⟩
  | cons v path ih =>
    obtain ⟨hv, hrest⟩ := List.isChain_cons_cons.mp hchain
    have hvl := h.sorted.topo.closed hu hv
    have hp' : ¬ Probed o f pr.plan (v :: path) := fun hp' => hp hp'.cons
    obtain ⟨hch, hall⟩ := ih hvl hrest hp' (quiet_of_unprobed h hvl (hsum v hvl) hp')
    refine ⟨List.isChain_cons_cons.mpr ⟨passes_of_unprobed h hu hv (hsum u hu) hp, hch⟩,
      fun b hb => ?_⟩
    rcases List.mem_cons.mp hb with rfl | hb
    · exact ⟨hu, hq⟩
    · exact hall b hb

/-- A way around a loop that has no loop probe has another one. -/
theorem probed_around (h : Settled o f backEdges l pr) (hsum : ∀ b ∈ l, 1 ≤ (f.costs b).sum)
    {e : Block × Block} (he : e ∈ backEdges) (hl : e.2 ∈ l) (hno : ¬ pr.HasLoopProbe e)
    {path : List Block} (hpath : IsPath f backEdges e.2 e.1 path) : Probed o f pr.plan path := by
  by_contra hp
  obtain ⟨path, rfl⟩ := List.head?_eq_some_iff.mp hpath.head
  obtain ⟨hchain, hall⟩ := isChain_of_unprobed h hsum path hl hpath.chain hp
  obtain ⟨front, hfront⟩ := List.getLast?_eq_some_iff.mp hpath.last
  -- read backwards, the path is a stretch that ends at the header
  have hrev : (e.2 :: path).reverse = e.1 :: front.reverse := by rw [hfront]; simp
  obtain ⟨hlatch, hq⟩ := hall e.1 (by rw [hfront]; simp)
  refine hno (h.around front.reverse e.1 e.2 hlatch he hq ?_ ?_).1
  · rw [← hrev]
    exact List.isChain_reverse.mpr hchain
  · rw [← hrev]
    simp

end Settled

/-- Every back edge keeps a loop probe that is hit in time, or every way around its loop has another
probe. -/
theorem loops_covered (o : Options) (f : Func) (backEdges : List (Block × Block))
    (hacyc : Acyclic f backEdges) (hfound : FoundBackedges f backEdges) (hci : 0 < o.commitInterval)
    (hmax : 0 ≤ o.maxE2EUninst) (hfc : 0 ≤ o.funcCallThreshold)
    (hcost : ∀ b ∈ f.blocks, ∀ c ∈ f.costs b, 0 ≤ c) (hsum : ∀ b ∈ f.blocks, 1 ≤ (f.costs b).sum)
    (hfit : Fits o f backEdges) :
    ∃ N pr, (∀ n, N ≤ n → generateInst o f backEdges n = .ok pr) ∧ ∀ e ∈ backEdges,
      pr.plan.inst e = .loopInst ∧ 0 < pr.loopCost e ∧ 1 ≤ pr.numIters e ∧
          pr.numIters e * pr.loopCost e ≤ o.commitInterval ∨
        pr.plan.inst e = .uninst ∧
          ∀ path, IsPath f backEdges e.2 e.1 path → Probed o f pr.plan path := by
  obtain ⟨N, pr, l, hpr, hset, hback⟩ := generateInst_spec hacyc hci hmax hfc hcost hfit hfound.edge
    fun l hsorted e he _ => (hsorted.mem e.2).mpr (hfound.header e he)
  refine ⟨N, pr, hpr, fun e he => ?_⟩
  have hl : e.2 ∈ l := (hset.sorted.mem e.2).mpr (hfound.header e he)
  have hsum' : ∀ b ∈ l, 1 ≤ (f.costs b).sum :=
    fun b hb => hsum b (reach_blocks ((hset.sorted.mem b).mp hb))
  cases hi : pr.plan.inst e with
  | uninst =>
    have hno : ¬ pr.HasLoopProbe e := fun hp => by simp [hp.1] at hi
    exact .inr ⟨rfl, fun path hpath => probed_around hset hsum' he hl hno hpath⟩
  | normInst => exact absurd hi (hback e he)
  | loopInst =>
    have hp := hset.loopInst e hi
    exact .inl ⟨rfl, hset.cost_pos e hp, hset.iters_pos e hp, hset.iters_le e hp⟩

theorem foundBackedges_branchLoop : FoundBackedges branchLoop [(4, 1)] where
  edge := by decide
  header := by
    intro e he
    cases List.mem_singleton.mp he
    have h₀₁ : 1 ∈ forward branchLoop [(4, 1)] 0 := by decide
    exact .single h₀₁
  latch := by
    intro e he
    cases List.mem_singleton.mp he
    have h₁₂ : 2 ∈ forward branchLoop [(4, 1)] 1 := by decide
    have h₂₄ : 4 ∈ forward branchLoop [(4, 1)] 2 := by decide
    exact (ReflTransGen.single h₁₂).tail h₂₄

theorem loops_covered_branchLoop :
    ∃ N pr, (∀ n, N ≤ n → generateInst ⟨5, 5, 40, 1⟩ branchLoop [(4, 1)] n = .ok pr) ∧
      ∀ e ∈ [(4, 1)],
        pr.plan.inst e = .loopInst ∧ 0 < pr.loopCost e ∧ 1 ≤ pr.numIters e ∧
            pr.numIters e * pr.loopCost e ≤ 5 ∨
          pr.plan.inst e = .uninst ∧ ∀ path, IsPath branchLoop [(4, 1)] e.2 e.1 path →
            Probed ⟨5, 5, 40, 1⟩ branchLoop pr.plan path :=
  loops_covered ⟨5, 5, 40, 1⟩ branchLoop [(4, 1)] acyclic_branchLoop foundBackedges_branchLoop
    (by decide) (by decide) (by decide) (by decide) (by decide) (fits_branchLoop _)

/-- A self loop that costs more than the largest commit interval. -/
def heavyLoop : Func where
  blocks := [0, 1, 2]
  entry := 0
  succs := fun b => [[1], [1, 2], []].getD b []
  isRet := fun b => b == 2
  costs := fun b => [[1], [1073741824, 1073741824], [1]].getD b []
  calls := fun _ => []
  entry_mem := by decide
  succs_mem := by decide

theorem foundBackedges_heavyLoop : FoundBackedges heavyLoop [(1, 1)] where
  edge := by decide
  header := by
    intro e he
    cases List.mem_singleton.mp he
    have h₀₁ : 1 ∈ forward heavyLoop [(1, 1)] 0 := by decide
    exact .single h₀₁
  latch := by
    intro e he
    cases List.mem_singleton.mp he
    exact .refl

def heavyLoopProbes (n : Nat) : Option (EdgeInst × Int × Int) :=
  match generateInst ⟨2147483647, 0, 40, 1⟩ heavyLoop [(1, 1)] n with
  | .error _ => none
  | .ok pr => some (pr.plan.inst (1, 1), pr.loopCost (1, 1), pr.numIters (1, 1))

/-- The cost of the self loop wraps. It is neither large enough for probes inside the block nor
positive, and no iteration hits the loop probe. -/
theorem heavy_loop_never_hit :
    Acyclic heavyLoop [(1, 1)] ∧ FoundBackedges heavyLoop [(1, 1)] ∧
      (∀ b ∈ heavyLoop.blocks, ∀ c ∈ heavyLoop.costs b, 0 ≤ c) ∧
      (∀ b ∈ heavyLoop.blocks, 1 ≤ (heavyLoop.costs b).sum) ∧
      ∀ n, 2 ≤ n → ∃ pr, generateInst ⟨2147483647, 0, 40, 1⟩ heavyLoop [(1, 1)] n = .ok pr ∧
        pr.plan.inst (1, 1) = .loopInst ∧ pr.loopCost (1, 1) = -2147483648 ∧
        pr.numIters (1, 1) = 0 := by
  refine ⟨acyclic_of_rank id (by decide), foundBackedges_heavyLoop, by decide, by decide, ?_⟩
  rintro (_ | _ | n) hn
  · omega
  · omega
  have hprobes : heavyLoopProbes (n + 2) = some (.loopInst, -2147483648, 0) := rfl
  unfold heavyLoopProbes at hprobes
  split at hprobes
  · cases hprobes
  · rename_i pr hpr
    simp only [Option.some.injEq, Prod.mk.injEq] at hprobes
    exact ⟨pr, hpr, hprobes⟩

end TinyQuanta.LoopCover
