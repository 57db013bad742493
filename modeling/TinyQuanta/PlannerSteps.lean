import Mathlib.Algebra.Order.BigOperators.Group.List
import Mathlib.Algebra.Order.Ring.Int
import Mathlib.Data.List.Chain
import Mathlib.Data.List.Perm.Subperm
import TinyQuanta.Planner

/-!
# Planning steps

What the planning loops may do to the maps: take one edge after the other from
`UNINST` to `NORM_INST`. Such a step keeps everything the loops rely on, and there
are only so many edges. The walk in `decideInstLocations` goes up the topological
order, and finds an edge to instrument if the distances can be traced back.
-/
namespace TinyQuanta.PlannerSteps

open Relation TopoSort Relaxation Planner Params

/-- No cycle of forward edges can be reached from the entry. -/
def Acyclic (f : Func) (backEdges : List (Block × Block)) : Prop :=
  ∀ b, ReflTransGen (Edge (forward f backEdges)) f.entry b →
    ¬ TransGen (Edge (forward f backEdges)) b b

theorem mem_forward {f : Func} {backEdges : List (Block × Block)} {u v : Block} :
    v ∈ forward f backEdges u ↔ v ∈ f.succs u ∧ (u, v) ∉ backEdges := by
  simp [forward]

theorem reach_blocks {f : Func} {backEdges : List (Block × Block)} {b : Block}
    (h : ReflTransGen (Edge (forward f backEdges)) f.entry b) : b ∈ f.blocks := by
  induction h with
  | refl => exact f.entry_mem
  | tail _ hbc ih => exact f.succs_mem _ ih _ (mem_forward.mp hbc).1

/-! ## Costs of blocks and paths -/

/-- Adding up in an `int` is adding up and storing the result. -/
theorem foldl_int32 (cs : List Int) (a : Int) :
    cs.foldl (fun s c => int32 (s + c)) (int32 a) = int32 (a + cs.sum) := by
  induction cs generalizing a with
  | nil => simp
  | cons c cs ih => rw [List.foldl_cons, int32_add, ih, List.sum_cons, Int.add_assoc]

/-- What a block counts for on a path, with nothing wrapped. -/
def weight (o : Options) (f : Func) (b : Block) : Int :=
  if o.commitInterval ≤ (f.costs b).sum then 0 else (f.costs b).sum

theorem populateCostMap_eq {o : Options} {f : Func} {b : Block} (h : ∀ c ∈ f.costs b, 0 ≤ c)
    (hfit : (f.costs b).sum ≤ intMax) : populateCostMap o f b = weight o f b := by
  have hsum : 0 ≤ (f.costs b).sum := List.sum_nonneg h
  have hint : int32 (f.costs b).sum = (f.costs b).sum := int32_eq ⟨by unfold intMin; omega, hfit⟩
  have hfold := foldl_int32 (f.costs b) 0
  rw [int32_zero, Int.zero_add, hint] at hfold
  simp only [populateCostMap, hfold, weight]

theorem weight_nonneg {o : Options} {f : Func} {b : Block} (h : ∀ c ∈ f.costs b, 0 ≤ c) :
    0 ≤ weight o f b := by
  have hsum : 0 ≤ (f.costs b).sum := List.sum_nonneg h
  unfold weight
  split <;> omega

theorem weight_le {o : Options} {f : Func} {b : Block} (h : ∀ c ∈ f.costs b, 0 ≤ c) :
    weight o f b ≤ (f.costs b).sum := by
  have hsum : 0 ≤ (f.costs b).sum := List.sum_nonneg h
  unfold weight
  split <;> omega

/-- No sum the planner forms is too large for an `int`: neither the cost of a block nor the cost
of a path over forward edges, which ends at the first block that counts as free. -/
structure Fits (o : Options) (f : Func) (backEdges : List (Block × Block)) : Prop where
  block : ∀ b ∈ f.blocks, (f.costs b).sum ≤ intMax
  path : ∀ path : List Block, (∀ b ∈ path, ReflTransGen (Edge (forward f backEdges)) f.entry b) →
    path.IsChain (fun u v => v ∈ forward f backEdges u ∧ 0 < weight o f u) →
    (path.map (weight o f)).sum ≤ intMax

/-- The sum of `CostMap` over a path. -/
def pathCost (p : Plan) (path : List Block) : Int := (path.map p.costMap).sum

@[simp] theorem pathCost_nil (p : Plan) : pathCost p [] = 0 := rfl

@[simp] theorem pathCost_cons (p : Plan) (b : Block) (path : List Block) :
    pathCost p (b :: path) = p.costMap b + pathCost p path := by
  simp [pathCost]

theorem pathCost_singleton (p : Plan) (b : Block) : pathCost p [b] = p.costMap b := by
  simp

theorem pathCost_append (p : Plan) (path path' : List Block) :
    pathCost p (path ++ path') = pathCost p path + pathCost p path' := by
  simp [pathCost]

@[simp] theorem pathCost_snoc (p : Plan) (path : List Block) (b : Block) :
    pathCost p (path ++ [b]) = pathCost p path + p.costMap b := by
  simp [pathCost]

/-- A path over forward edges that nothing interrupts: all its edges are `UNINST`, and every block
but the last costs something and has no probe of its own. The blocks are listed first to last. -/
inductive Unbroken (f : Func) (p : Plan) (startBB : Block) : Block → List Block → Prop where
  | start : Unbroken f p startBB startBB [startBB]
  | snoc (u v : Block) (path : List Block) (h : Unbroken f p startBB u path)
    (hv : v ∈ forward f p.backEdges u) (huv : propagates p u v) :
    Unbroken f p startBB v (path ++ [v])

section

variable {f : Func} {p : Plan} {startBB : Block}

theorem Unbroken.reaches {b : Block} {path : List Block} (h : Unbroken f p startBB b path) :
    ReflTransGen (Edge (forward f p.backEdges)) startBB b := by
  induction h with
  | start => exact .refl
  | snoc u v path _ hv _ ih => exact ih.tail hv

theorem Unbroken.mem_reaches {b : Block} {path : List Block} (h : Unbroken f p startBB b path) :
    ∀ c ∈ path, ReflTransGen (Edge (forward f p.backEdges)) startBB c := by
  induction h with
  | start => exact fun c hc => List.mem_singleton.mp hc ▸ .refl
  | snoc u v path h hv _ ih =>
    intro c hc
    rcases List.mem_append.mp hc with hc | hc
    · exact ih c hc
    · exact List.mem_singleton.mp hc ▸ h.reaches.tail hv

theorem Unbroken.getLast {b : Block} {path : List Block} (h : Unbroken f p startBB b path) :
    path.getLast? = some b := by
  cases h with
  | start => rfl
  | snoc u v path _ _ _ => simp

theorem Unbroken.chain {b : Block} {path : List Block} (h : Unbroken f p startBB b path) :
    path.IsChain (fun u v => v ∈ forward f p.backEdges u ∧ 0 < p.costMap u) := by
  induction h with
  | start => exact List.isChain_singleton _
  | snoc u v path h hv huv ih =>
    refine List.isChain_append.mpr ⟨ih, List.isChain_singleton _, fun x hx y hy => ?_⟩
    rw [h.getLast] at hx
    cases hx
    cases hy
    exact ⟨hv, huv.2.1⟩

/-- Fewer interruptions leave more paths. -/
theorem Unbroken.mono {p' : Plan} (hb : p'.backEdges = p.backEdges)
    (hp : ∀ u v, propagates p' u v → propagates p u v) {b : Block} {path : List Block}
    (h : Unbroken f p' startBB b path) : Unbroken f p startBB b path := by
  induction h with
  | start => exact .start
  | snoc u v path _ hv huv ih => exact .snoc u v path ih (hb ▸ hv) (hp u v huv)

end

/-- A path of forward edges passes no block twice. -/
theorem path_nodup {f : Func} {backEdges : List (Block × Block)} (hacyc : Acyclic f backEdges)
    {path : List Block} (hreach : ∀ b ∈ path, ReflTransGen (Edge (forward f backEdges)) f.entry b)
    (hchain : path.IsChain (fun u v => v ∈ forward f backEdges u)) : path.Nodup := by
  have htrans : path.IsChain (TransGen (Edge (forward f backEdges))) :=
    hchain.imp fun u v h => .single h
  refine (List.isChain_iff_pairwise.mp htrans).imp_of_mem fun {u v} hu _ huv heq => ?_
  exact hacyc u (hreach u hu) (heq ▸ huv)

/-- So it weighs no more than all blocks together. -/
theorem sum_path_le {f : Func} {backEdges : List (Block × Block)} (hacyc : Acyclic f backEdges)
    {path : List Block} (hreach : ∀ b ∈ path, ReflTransGen (Edge (forward f backEdges)) f.entry b)
    (hchain : path.IsChain (fun u v => v ∈ forward f backEdges u)) {w : Block → Int}
    (hw : ∀ b ∈ f.blocks, 0 ≤ w b) : (path.map w).sum ≤ (f.blocks.map w).sum := by
  have hsub : path ⊆ f.blocks := fun b hb => reach_blocks (hreach b hb)
  obtain ⟨l, hperm, hl⟩ := (path_nodup hacyc hreach hchain).subperm hsub
  rw [← (hperm.map w).sum_eq]
  exact (hl.map w).sum_le_sum (by simpa using hw)

/-- It is enough if all blocks together fit. -/
theorem Fits.of_total {o : Options} {f : Func} {backEdges : List (Block × Block)}
    (hacyc : Acyclic f backEdges) (hcost : ∀ b ∈ f.blocks, ∀ c ∈ f.costs b, 0 ≤ c)
    (htotal : (f.blocks.map fun b => (f.costs b).sum).sum ≤ intMax) : Fits o f backEdges := by
  have hnn : ∀ b ∈ f.blocks, 0 ≤ (f.costs b).sum := fun b hb => List.sum_nonneg (hcost b hb)
  constructor
  · intro b hb
    exact (List.single_le_sum (by simpa using hnn) _ (List.mem_map_of_mem hb)).trans htotal
  · intro path hreach hchain
    have hle := sum_path_le hacyc hreach (hchain.imp fun u v h => h.1) hnn
    have hweight : (path.map (weight o f)).sum ≤ (path.map fun b => (f.costs b).sum).sum :=
      List.sum_le_sum fun b hb => weight_le (hcost b (reach_blocks (hreach b hb)))
    omega

/-! ## The maps at the start -/

/-- What both loops rely on and keep. -/
structure Inv (o : Options) (f : Func) (p : Plan) : Prop where
  nodup : p.sortedBBs.Nodup
  topo : RevTopo (forward f p.backEdges) p.sortedBBs
  sorted : ∀ b, b ∈ p.sortedBBs ↔ ReflTransGen (Edge (forward f p.backEdges)) f.entry b
  subset : p.sortedBBs ⊆ f.blocks
  keys : ∀ u v, (∃ i, p.edgeInstMap (u, v) = some i) ↔ u ∈ p.sortedBBs ∧ v ∈ f.succs u
  loops : ∀ e, p.edgeInstMap e = some .loopInst ↔
    (e.1 ∈ p.sortedBBs ∧ e.2 ∈ f.succs e.1) ∧ e ∈ p.backEdges
  noBB : p.instrumentedBB = []
  costs : p.costMap = populateCostMap o f
  weights : ∀ b ∈ p.sortedBBs, p.costMap b = weight o f b
  nonneg : ∀ b ∈ p.sortedBBs, 0 ≤ p.costMap b
  small : ∀ b, p.costMap b < o.commitInterval
  fits : ∀ s ∈ p.sortedBBs, ∀ b path, Unbroken f p s b path → pathCost p path ≤ intMax
  noFallback : p.fallbacks = 0

theorem populateCostMap_lt {o : Options} {f : Func} (hci : 0 < o.commitInterval) (b : Block) :
    populateCostMap o f b < o.commitInterval := by
  unfold populateCostMap
  simp only
  split <;> omega

/-- Entering the edges of a block touches only the map. -/
theorem foldl_setInst (b : Block) (ss : List Block) (p : Plan) :
    ∃ m, ss.foldl (fun p s => p.setInst (b, s) .uninst) p = { p with edgeInstMap := m } ∧
      ∀ e, m e = if e.1 = b ∧ e.2 ∈ ss then some .uninst else p.edgeInstMap e := by
  induction ss generalizing p with
  | nil => exact ⟨p.edgeInstMap, rfl, by simp⟩
  | cons s ss ih =>
    obtain ⟨m, hm, he⟩ := ih (p.setInst (b, s) .uninst)
    refine ⟨m, hm, fun e => ?_⟩
    rw [he e]
    by_cases hes : e = (b, s)
    · subst hes
      simp [Plan.setInst]
    · have hne : ¬ (e.1 = b ∧ e.2 = s) := fun h => hes (Prod.ext h.1 h.2)
      by_cases hmem : e.1 = b ∧ e.2 ∈ ss
      · simp [hmem]
      · have hc : ¬ (e.1 = b ∧ e.2 ∈ s :: ss) := by
          rintro ⟨h₁, h₂⟩
          rcases List.mem_cons.mp h₂ with h₂ | h₂
          · exact hne ⟨h₁, h₂⟩
          · exact hmem ⟨h₁, h₂⟩
        rw [if_neg hmem, if_neg hc]
        simp [Plan.setInst, hes]

theorem foldl_blocks (f : Func) (bs : List Block) (p : Plan) :
    ∃ m, bs.foldl (fun p b => (f.succs b).foldl (fun p s => p.setInst (b, s) .uninst) p) p =
        { p with edgeInstMap := m } ∧
      ∀ e, m e = if e.1 ∈ bs ∧ e.2 ∈ f.succs e.1 then some .uninst else p.edgeInstMap e := by
  induction bs generalizing p with
  | nil => exact ⟨p.edgeInstMap, rfl, by simp⟩
  | cons b bs ih =>
    obtain ⟨m₁, hm₁, he₁⟩ := foldl_setInst b (f.succs b) p
    obtain ⟨m₂, hm₂, he₂⟩ := ih { p with edgeInstMap := m₁ }
    refine ⟨m₂, by rw [List.foldl_cons, hm₁, hm₂], fun e => ?_⟩
    rw [he₂ e]
    simp only [he₁ e]
    by_cases heb : e.1 = b
    · subst heb
      by_cases hs : e.2 ∈ f.succs e.1 <;> simp [hs]
    · simp [heb]

/-- Marking the back edges adds no entry. -/
theorem foldl_backEdges (es : List (Block × Block)) (p : Plan) :
    ∃ m n, es.foldl (fun p e =>
        match p.edgeInstMap e with
        | none => p
        | some _ => { p.setInst e .loopInst with numEdgeInst := p.numEdgeInst + 1 }) p =
        { p with edgeInstMap := m, numEdgeInst := n } ∧
      ∀ e, m e = match p.edgeInstMap e with
        | none => none
        | some i => some (if e ∈ es then .loopInst else i) := by
  induction es generalizing p with
  | nil =>
    refine ⟨p.edgeInstMap, p.numEdgeInst, rfl, fun e => ?_⟩
    cases p.edgeInstMap e <;> simp
  | cons e es ih =>
    cases he : p.edgeInstMap e with
    | none =>
      obtain ⟨m, n, hm, hspec⟩ := ih p
      refine ⟨m, n, by simpa [he] using hm, fun e' => ?_⟩
      rw [hspec e']
      cases h' : p.edgeInstMap e' with
      | none => rfl
      | some i =>
        have hne : e' ≠ e := by
          rintro rfl
          rw [he] at h'
          cases h'
        simp [hne]
    | some i =>
      obtain ⟨m, n, hm, hspec⟩ := ih { p.setInst e .loopInst with numEdgeInst := p.numEdgeInst + 1 }
      refine ⟨m, n, by simpa [he, Plan.setInst] using hm, fun e' => ?_⟩
      rw [hspec e']
      by_cases hne : e' = e
      · subst hne
        simp [Plan.setInst, he]
      · simp [Plan.setInst, hne]

/-- The entry of every edge when planning starts. -/
theorem initialPlan_spec (o : Options) (f : Func) (backEdges : List (Block × Block))
    (sortedBBs : List Block) :
    ∃ m n, initialPlan o f backEdges sortedBBs =
        { backEdges := backEdges, sortedBBs := sortedBBs, costMap := populateCostMap o f,
          edgeInstMap := m, instrumentedBB := [], largeBB := none, numEdgeInst := n,
          fallbacks := 0 } ∧
      ∀ e, m e = if e.1 ∈ sortedBBs ∧ e.2 ∈ f.succs e.1 then
        some (if e ∈ backEdges then .loopInst else .uninst) else none := by
  unfold initialPlan populateEdgeInstMap
  obtain ⟨m₁, hm₁, he₁⟩ := foldl_blocks f sortedBBs.reverse
    { backEdges := backEdges, sortedBBs := sortedBBs, costMap := populateCostMap o f,
      edgeInstMap := fun _ => none, instrumentedBB := [], largeBB := none, numEdgeInst := 0,
      fallbacks := 0 }
  rw [hm₁]
  obtain ⟨m₂, n, hm₂, he₂⟩ := foldl_backEdges backEdges
    { backEdges := backEdges, sortedBBs := sortedBBs, costMap := populateCostMap o f,
      edgeInstMap := m₁, instrumentedBB := [], largeBB := none, numEdgeInst := 0, fallbacks := 0 }
  refine ⟨m₂, n, hm₂, fun e => ?_⟩
  rw [he₂ e]
  simp only [he₁ e, List.mem_reverse]
  by_cases h : e.1 ∈ sortedBBs ∧ e.2 ∈ f.succs e.1
  · rw [if_pos h, if_pos h]
  · rw [if_neg h, if_neg h]

/-- A rank that grows along every forward edge rules out cycles. -/
theorem acyclic_of_rank {f : Func} {backEdges : List (Block × Block)} (rank : Block → Nat)
    (h : ∀ u ∈ f.blocks, ∀ v ∈ forward f backEdges u, rank u < rank v) : Acyclic f backEdges := by
  intro b hb hcycle
  have hlt : ∀ c, TransGen (Edge (forward f backEdges)) b c → c ∈ f.blocks ∧ rank b < rank c := by
    intro c hc
    induction hc with
    | single hbc =>
      exact ⟨reach_blocks (hb.tail hbc), h b (reach_blocks hb) _ hbc⟩
    | tail _ hcd ih =>
      exact ⟨f.succs_mem _ ih.1 _ (mem_forward.mp hcd).1, Nat.lt_trans ih.2 (h _ ih.1 _ hcd)⟩
  exact Nat.lt_irrefl _ (hlt b hcycle).2

/-- The sort succeeds, and planning starts from maps that satisfy the invariant. -/
theorem start_inv {o : Options} {f : Func} {backEdges : List (Block × Block)}
    (hacyc : Acyclic f backEdges) (hci : 0 < o.commitInterval)
    (hcost : ∀ b ∈ f.blocks, ∀ c ∈ f.costs b, 0 ≤ c) (hfit : Fits o f backEdges) :
    ∃ sortedBBs, runToposort f backEdges = .ok sortedBBs ∧
      Inv o f (initialPlan o f backEdges sortedBBs) ∧
      (initialPlan o f backEdges sortedBBs).backEdges = backEdges := by
  obtain ⟨m, hrun, hnodup, htopo, hmem⟩ := sort_correct f.entry_mem
    (fun b hb s hs => f.succs_mem b hb s (mem_forward.mp hs).1) hacyc
    (Nat.le_refl f.blocks.length)
  obtain ⟨map, n, he, hmap⟩ := initialPlan_spec o f backEdges m.sorted
  have hweight : ∀ b, ReflTransGen (Edge (forward f backEdges)) f.entry b →
      populateCostMap o f b = weight o f b := fun b hb =>
    populateCostMap_eq (hcost b (reach_blocks hb)) (hfit.block b (reach_blocks hb))
  refine ⟨m.sorted, by simp [runToposort, hrun], ?_⟩
  rw [he]
  refine ⟨?_, rfl⟩
  exact {
    nodup := hnodup
    topo := htopo
    sorted := hmem
    subset := fun b hb => reach_blocks ((hmem b).mp hb)
    keys := fun u v => by
      simp only [hmap (u, v)]
      by_cases h : u ∈ m.sorted ∧ v ∈ f.succs u
      · simp [h]
      · simp [h]
    loops := fun e => by
      simp only [hmap e]
      by_cases h : e.1 ∈ m.sorted ∧ e.2 ∈ f.succs e.1
      · by_cases hb : e ∈ backEdges <;> simp [h, hb]
      · simp [h]
    noBB := rfl
    costs := rfl
    weights := fun b hb => hweight b ((hmem b).mp hb)
    nonneg := fun b hb => by
      have hb := (hmem b).mp hb
      exact (weight_nonneg (hcost b (reach_blocks hb))).trans_eq (hweight b hb).symm
    small := populateCostMap_lt hci
    fits := fun s hs b path h => by
      have hreach : ∀ c ∈ path, ReflTransGen (Edge (forward f backEdges)) f.entry c :=
        fun c hc => ((hmem s).mp hs).trans (h.mem_reaches c hc)
      have hsum : (path.map (populateCostMap o f)).sum = (path.map (weight o f)).sum :=
        congrArg List.sum (List.map_congr_left fun c hc => hweight c (hreach c hc))
      refine hsum.trans_le (hfit.path path hreach ?_)
      -- what costs something on the path also has a weight
      refine h.chain.imp_of_mem_imp fun u v hu _ huv => ⟨huv.1, ?_⟩
      exact huv.2.trans_eq (hweight u (hreach u hu))
    noFallback := rfl }

/-! ## Instrumenting edges -/

/-- The only thing that happens to the maps during planning. -/
structure Narrows (p p' : Plan) : Prop where
  backEdges : p'.backEdges = p.backEdges
  sortedBBs : p'.sortedBBs = p.sortedBBs
  costMap : p'.costMap = p.costMap
  instrumentedBB : p'.instrumentedBB = p.instrumentedBB
  fallbacks : p'.fallbacks = p.fallbacks
  edges : ∀ e, p'.edgeInstMap e = p.edgeInstMap e ∨
    p.edgeInstMap e = some .uninst ∧ p'.edgeInstMap e = some .normInst

theorem Narrows.refl (p : Plan) : Narrows p p := ⟨rfl, rfl, rfl, rfl, rfl, fun _ => .inl rfl⟩

theorem Narrows.trans {p₁ p₂ p₃ : Plan} (h₁ : Narrows p₁ p₂) (h₂ : Narrows p₂ p₃) :
    Narrows p₁ p₃ where
  backEdges := h₂.backEdges.trans h₁.backEdges
  sortedBBs := h₂.sortedBBs.trans h₁.sortedBBs
  costMap := h₂.costMap.trans h₁.costMap
  instrumentedBB := h₂.instrumentedBB.trans h₁.instrumentedBB
  fallbacks := h₂.fallbacks.trans h₁.fallbacks
  edges e := by
    rcases h₁.edges e with he₁ | ⟨he₁, hn₁⟩
    · rcases h₂.edges e with he₂ | ⟨he₂, hn₂⟩
      · exact .inl (he₂.trans he₁)
      · exact .inr ⟨he₁ ▸ he₂, hn₂⟩
    · rcases h₂.edges e with he₂ | ⟨he₂, -⟩
      · exact .inr ⟨he₁, he₂.trans hn₁⟩
      · rw [hn₁] at he₂
        cases he₂

/-- A probe, once planned, is not taken back during planning. -/
theorem Narrows.inst_ne {p p' : Plan} (h : Narrows p p') {e : Block × Block}
    (he : p.inst e ≠ .uninst) : p'.inst e ≠ .uninst := by
  rcases h.edges e with heq | ⟨-, heq⟩
  · simpa only [Plan.inst, heq] using he
  · simp [Plan.inst, heq]

theorem Narrows.propagates {p p' : Plan} (h : Narrows p p') (u v : Block)
    (huv : Planner.propagates p' u v) : Planner.propagates p u v := by
  obtain ⟨hi, hc, hb⟩ := huv
  rw [h.costMap] at hc
  rw [h.instrumentedBB] at hb
  exact ⟨by_contra fun hne => h.inst_ne hne hi, hc, hb⟩

theorem Inv.narrows {o : Options} {f : Func} {p p' : Plan} (h : Inv o f p) (hn : Narrows p p') :
    Inv o f p' := by
  refine ⟨?_, ?_, ?_, ?_, ?_, ?_, ?_, ?_, ?_, ?_, ?_, ?_, ?_⟩ <;>
    simp only [hn.sortedBBs, hn.backEdges, hn.costMap, hn.instrumentedBB, hn.fallbacks]
  · exact h.nodup
  · exact h.topo
  · exact h.sorted
  · exact h.subset
  · intro u v
    rw [← h.keys u v]
    rcases hn.edges (u, v) with he | ⟨he, he'⟩
    · rw [he]
    · simp [he, he']
  · intro e
    rw [← h.loops e]
    rcases hn.edges e with he | ⟨he, he'⟩
    · rw [he]
    · simp [he, he']
  · exact h.noBB
  · exact h.costs
  · exact h.weights
  · exact h.nonneg
  · exact h.small
  · intro s hs b path hpath
    have hle := h.fits s hs b path (hpath.mono hn.backEdges hn.propagates)
    simpa only [pathCost, hn.costMap] using hle
  · exact h.noFallback

theorem narrows_setInst {p : Plan} {e : Block × Block} (h : p.edgeInstMap e = some .uninst)
    (n : Int) :
    Narrows p { p.setInst e .normInst with numEdgeInst := n } := by
  refine ⟨rfl, rfl, rfl, rfl, rfl, fun e' => ?_⟩
  by_cases he : e' = e
  · subst he
    exact .inr ⟨h, by simp [Plan.setInst]⟩
  · exact .inl (by simp [Plan.setInst, he])

theorem narrows_outgoing {f : Func} {b : Block} {p : Plan}
    (h : ∀ s ∈ f.succs b, ∃ i, p.edgeInstMap (b, s) = some i) :
    Narrows p (instrumentOutgoing f b p) := by
  unfold instrumentOutgoing
  generalize f.succs b = ss at h
  induction ss generalizing p with
  | nil => exact .refl p
  | cons s ss ih =>
    rw [List.foldl_cons]
    by_cases hu : p.inst (b, s) = .uninst
    · obtain ⟨i, hi⟩ := h s (by simp)
      have hsome : p.edgeInstMap (b, s) = some .uninst := by
        simp only [Plan.inst, hi, Option.getD_some] at hu
        rw [hi, hu]
      have hn := narrows_setInst hsome (p.numEdgeInst + 1)
      rw [if_pos hu]
      refine hn.trans (ih fun t ht => ?_)
      obtain ⟨j, hj⟩ := h t (by simp [ht])
      rcases hn.edges (b, t) with he | ⟨-, he⟩
      · exact ⟨j, he.trans hj⟩
      · exact ⟨_, he⟩
    · rw [if_neg hu]
      exact ih fun t ht => h t (by simp [ht])

theorem instrumentOutgoing_inst (f : Func) (b : Block) (p : Plan) :
    ∀ s ∈ f.succs b, (instrumentOutgoing f b p).inst (b, s) ≠ .uninst := by
  unfold instrumentOutgoing
  generalize f.succs b = ss
  suffices h : ∀ p : Plan, ∀ s, s ∈ ss ∨ p.inst (b, s) ≠ .uninst →
      (ss.foldl (fun p s =>
        if p.inst (b, s) = .uninst then
          { p.setInst (b, s) .normInst with numEdgeInst := p.numEdgeInst + 1 }
        else p) p).inst (b, s) ≠ .uninst from fun s hs => h p s (.inl hs)
  induction ss with
  | nil => exact fun p s hs => hs.resolve_left (by simp)
  | cons t ss ih =>
    intro p s hs
    rw [List.foldl_cons]
    refine ih _ s ?_
    by_cases hst : s = t
    · subst hst
      right
      by_cases hu : p.inst (b, s) = .uninst
      · rw [if_pos hu]
        simp [Plan.inst, Plan.setInst]
      · rwa [if_neg hu]
    · refine hs.imp (fun hmem => (List.mem_cons.mp hmem).resolve_left hst) fun hne => ?_
      by_cases hu : p.inst (b, t) = .uninst
      · rw [if_pos hu]
        simpa [Plan.inst, Plan.setInst, hst] using hne
      · rwa [if_neg hu]

/-- All edges of the function. -/
def edges (f : Func) : List (Block × Block) := f.blocks.flatMap fun b => (f.succs b).map (Prod.mk b)

/-- How many edges could still be instrumented. -/
def openEdges (f : Func) (p : Plan) : Nat :=
  (edges f).countP fun e => p.edgeInstMap e = some .uninst

theorem countP_open_le {p p' : Plan} (h : Narrows p p') (l : List (Block × Block)) :
    l.countP (fun e => p'.edgeInstMap e = some .uninst) ≤
      l.countP (fun e => p.edgeInstMap e = some .uninst) := by
  apply List.countP_mono_left
  intro e _ he
  simp only [decide_eq_true_eq] at he ⊢
  rcases h.edges e with heq | ⟨hu, -⟩
  · rw [← heq, he]
  · exact hu

theorem openEdges_le (f : Func) {p p' : Plan} (h : Narrows p p') : openEdges f p' ≤ openEdges f p :=
  countP_open_le h (edges f)

theorem openEdges_lt {f : Func} {p p' : Plan} (h : Narrows p p') {e : Block × Block}
    (he : e ∈ edges f) (hu : p.edgeInstMap e = some .uninst)
    (hn : p'.edgeInstMap e = some .normInst) : openEdges f p' < openEdges f p := by
  unfold openEdges
  obtain ⟨l₁, l₂, hl⟩ := List.append_of_mem he
  have h₁ := countP_open_le h l₁
  have h₂ := countP_open_le h l₂
  rw [hl]
  simp only [List.countP_append, List.countP_cons, hu, hn, decide_true, if_true, Option.some.injEq,
    reduceCtorEq, decide_false, Bool.false_eq_true, if_false]
  omega

/-! ## The walk back -/

/-- A block at or above the threshold starts a path or got its distance from a predecessor, over
an uninstrumented edge if the predecessor is below the threshold. -/
def Traceable (f : Func) (p : Plan) (d : Table Block) (thr : Int) : Prop :=
  ∀ v x, d.dist v = some x → thr ≤ x → d.prev v = some v ∨
    ∃ u y, u ∈ p.sortedBBs ∧ v ∈ forward f p.backEdges u ∧ d.prev v = some u ∧
      d.dist u = some y ∧ (y < thr → p.inst (u, v) = .uninst)

/-- The plan after the edge from `u` to `v` got its probe. -/
def probe (p : Plan) (u v : Block) : Plan :=
  { p.setInst (u, v) .normInst with numEdgeInst := p.numEdgeInst + 1 }

/-- The two ways the walk can end. -/
inductive Walked (f : Func) (p : Plan) (d : Table Block) (thr : Int) : Bool × Plan → Prop where
  | edge (u v : Block) (hu : u ∈ p.sortedBBs) (hv : v ∈ f.succs u)
      (he : p.edgeInstMap (u, v) = some .uninst) : Walked f p d thr (true, probe p u v)
  | root (b : Block) (x : Int) (hp : d.prev b = some b) (hd : d.dist b = some x) (hx : thr ≤ x) :
      Walked f p d thr (false, { p with largeBB := some b })

theorem Inv.uninst {o : Options} {f : Func} {p : Plan} (h : Inv o f p) {u v : Block}
    (hu : u ∈ p.sortedBBs) (hv : v ∈ f.succs u) (hi : p.inst (u, v) = .uninst) :
    p.edgeInstMap (u, v) = some .uninst := by
  obtain ⟨i, he⟩ := (h.keys u v).mpr ⟨hu, hv⟩
  simp only [Plan.inst, he, Option.getD_some] at hi
  rw [he, hi]

theorem Inv.idxOf_lt {o : Options} {f : Func} {p : Plan} (h : Inv o f p) {u v : Block}
    (hu : u ∈ p.sortedBBs) (hv : v ∈ forward f p.backEdges u) :
    p.sortedBBs.idxOf v < p.sortedBBs.idxOf u :=
  h.topo.idxOf_lt h.nodup hu hv

/-- The walk goes up the topological order, so it ends, and no assertion stops it. -/
theorem decideInstLocations_spec {o : Options} {f : Func} {p : Plan} {d : Table Block} {thr : Int}
    (h : Inv o f p) (ht : Traceable f p d thr) (n : Nat) {v : Block} {x : Int}
    (hv : v ∈ p.sortedBBs) (hd : d.dist v = some x) (hx : thr ≤ x)
    (hn : p.sortedBBs.length ≤ n + p.sortedBBs.idxOf v) :
    ∃ r, decideInstLocations d thr n v p = .ok r ∧ Walked f p d thr r := by
  induction n generalizing v x with
  | zero =>
    have hlt := List.idxOf_lt_length_iff.mpr hv
    omega
  | succ n ih =>
    unfold decideInstLocations
    rcases ht v x hd hx with hp | ⟨u, y, hu, hvu, hp, hy, hedge⟩
    · refine ⟨_, ?_, .root v x hp hd hx⟩
      simp [hp, hd, Int.not_lt.mpr hx]
    · have hidx := h.idxOf_lt hu hvu
      simp only [hp, hy, Option.getD_some]
      by_cases hlt : y < thr
      · have hun := hedge hlt
        refine ⟨_, ?_, .edge u v hu (mem_forward.mp hvu).1 (h.uninst hu (mem_forward.mp hvu).1 hun)⟩
        simp [hlt, hun, h.noBB, probe]
      · have hne : u ≠ v := by
          rintro rfl
          omega
        obtain ⟨r, hr, hw⟩ := ih hu hy (by omega) (by omega)
        exact ⟨r, by simp [hlt, hne, hr], hw⟩

theorem probe_narrows {o : Options} {f : Func} {p : Plan} (h : Inv o f p) {u v : Block}
    (hu : u ∈ p.sortedBBs) (hv : v ∈ f.succs u) (he : p.edgeInstMap (u, v) = some .uninst) :
    Narrows p (probe p u v) ∧ openEdges f (probe p u v) < openEdges f p := by
  have hn : Narrows p (probe p u v) := narrows_setInst he (p.numEdgeInst + 1)
  refine ⟨hn, openEdges_lt hn (e := (u, v)) ?_ he ?_⟩
  · exact List.mem_flatMap.mpr ⟨u, h.subset hu, List.mem_map.mpr ⟨v, hv, rfl⟩⟩
  · simp [probe, Plan.setInst]

end TinyQuanta.PlannerSteps
