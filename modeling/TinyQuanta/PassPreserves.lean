import TinyQuanta.ClonePreserves
import TinyQuanta.InsertionPreserves
import TinyQuanta.LoopCosts

/-!
# The pass keeps the meaning of a function

The planner works on the graph of a function, and the last stage puts its probes into the
code. A plan of the planner is one that the last stage can carry out, in whatever order
the entries of the maps come: the maps are ordered by addresses.
-/
namespace TinyQuanta.PassPreserves

open Planner (Block)
open PlannerSteps (Acyclic Inv)
open InsertProbes (Probes generateInst mergeBlock mergeBlocks cancelBackEdges)
open LoopCosts (Merged mergeBlocks_merged Cancelled cancelBackEdges_cancelled foldl_uninst
  insertProbes_eq)
open Ssa CodeMap LoopCopy ProbeInsertion InsertionKeeps InsertionPreserves

variable {Op Name Val World Aux : Type}

/-! ## What the planner leaves -/

section Maps

variable {o : Planner.Options} {f : Planner.Func} {p q r : Planner.Plan}

theorem mergeBlock_uninst (b : Block) {e : Block × Block} (h : p.inst e = .uninst) :
    (mergeBlock f p b).inst e = .uninst := by
  unfold mergeBlock
  split
  · obtain ⟨m, n, hm, he⟩ := foldl_uninst b (f.succs b) p
    simp only [hm, Planner.Plan.inst, he]
    split
    · rfl
    · exact h
  · exact h

/-- A block with probes on all its edges loses them. -/
theorem mergeBlock_open {b : Block} (hb : 2 ≤ (f.succs b).length) :
    ∃ s ∈ f.succs b, (mergeBlock f p b).inst (b, s) = .uninst := by
  unfold mergeBlock
  split
  · obtain ⟨m, n, hm, he⟩ := foldl_uninst b (f.succs b) p
    obtain ⟨s, hs⟩ := List.exists_mem_of_length_pos (by omega : 0 < (f.succs b).length)
    exact ⟨s, hs, by simp [hm, Planner.Plan.inst, he, hs]⟩
  · rename_i hall
    by_contra hnone
    exact hall ⟨hb, fun s hs hi => hnone ⟨s, hs, hi⟩⟩

theorem mergeBlocks_open {b : Block} (hmem : b ∈ f.blocks) (hb : 2 ≤ (f.succs b).length) :
    ∃ s ∈ f.succs b, (mergeBlocks f p).inst (b, s) = .uninst := by
  have key : ∀ (bs : List Block) (p : Planner.Plan),
      (b ∈ bs ∨ ∃ s ∈ f.succs b, p.inst (b, s) = .uninst) →
      ∃ s ∈ f.succs b, (bs.foldl (mergeBlock f) p).inst (b, s) = .uninst := by
    intro bs
    induction bs with
    | nil => exact fun p h => h.resolve_left List.not_mem_nil
    | cons c cs ih =>
      intro p h
      refine ih (mergeBlock f p c) ?_
      rcases h with hc | ⟨s, hs, hi⟩
      · rcases List.mem_cons.mp hc with rfl | hc
        · exact .inr (mergeBlock_open hb)
        · exact .inl hc
      · exact .inr ⟨s, hs, mergeBlock_uninst c hi⟩
  exact key f.blocks p (.inl hmem)

/-- Only a block with several edges gets a probe. -/
theorem mergeBlocks_succs (hp : p.instrumentedBB = []) :
    ∀ b ∈ (mergeBlocks f p).instrumentedBB, b ∈ f.blocks ∧ 2 ≤ (f.succs b).length := by
  unfold mergeBlocks
  refine List.foldlRecOn (motive := fun q : Planner.Plan => ∀ b ∈ q.instrumentedBB, b ∈ f.blocks ∧
    2 ≤ (f.succs b).length) _ _ (by simp [hp]) fun q hq c hmem => ?_
  unfold mergeBlock
  split
  · rename_i hc
    obtain ⟨m, n, hm, -⟩ := foldl_uninst c (f.succs c) q
    simp only [hm]
    intro b hb
    rcases List.mem_cons.mp hb with rfl | hb
    · exact ⟨hmem, hc.1⟩
    · exact hq b hb
  · exact hq

theorem cancelled_uninst (hc : Cancelled f q r) {e : Block × Block} (h : q.inst e = .uninst) :
    r.inst e = .uninst := by
  rw [hc.inst e]
  split
  · rfl
  · exact h

end Maps

/-! ## Functions -/

/-- A function as the pass gets it: its graph with the costs, its code, its back edges and what is
known of its loops. No block has two edges to the same successor, and a self loop with an induction
variable is in simplified form and in LCSSA form. -/
structure Input (Op Name Val : Type) where
  graph : Planner.Func
  code : Func Op Name Block Val
  backEdges : List (Block × Block)
  loops : Block × Block → LoopInfo Name Block Val
  valid : Valid code
  succs : ∀ b ∈ graph.blocks, graph.succs b = (code.blocks b).term.succs
  nodup : ∀ b, (code.blocks b).term.succs.Nodup
  acyclic : Acyclic graph backEdges
  costs : ∀ b ∈ graph.blocks, ∀ c ∈ graph.costs b, 0 ≤ c
  selfLoop : ∀ b pre, (b, b) ∈ backEdges → (loops (b, b)).preheader = some pre →
    (loops (b, b)).indVar.isSome → (pre, b) ∉ backEdges ∧
      ∃ sl : SelfLoop code, Closed valid sl ∧ sl.bb = b ∧ sl.preheader = pre

namespace Input

variable (i : Input Op Name Val)

def loopPlan (pr : Probes) (e : Block × Block) : LoopPlan Name Block Val :=
  { i.loops e with latch := e.1, header := e.2, numIters := pr.numIters e }

/-- What the maps say. -/
def toPlan (pr : Probes) : Plan Op Name Block Val where
  edges := (PlannerSteps.edges i.graph).dedup.filter fun e => pr.plan.inst e = .normInst
  blocks := pr.plan.instrumentedBB
  loops := ((PlannerSteps.edges i.graph).dedup.filter fun e => pr.HasLoopProbe e).map
    (i.loopPlan pr)
  metered := i.graph.blocks.dedup.filter fun b => pr.plan.costMap b ≤ 0 ∧ pr.plan.costMap b ≠ -1

/-- `PreheaderMap` has `u` for the self loop `v`. -/
def isPreheader (u v : Block) : Bool := (i.loops (v, v)).preheader = some u

end Input

/-- The same entries, in another order. -/
structure Shuffle (p q : Plan Op Name Block Val) : Prop where
  edges : p.edges.Perm q.edges
  blocks : p.blocks.Perm q.blocks
  loops : p.loops.Perm q.loops
  metered : p.metered.Perm q.metered

theorem Shuffle.refl (p : Plan Op Name Block Val) : Shuffle p p :=
  ⟨.refl _, .refl _, .refl _, .refl _⟩

section Fits

variable {i : Input Op Name Val} {o : Planner.Options} {p : Planner.Plan} {pr : Probes}
  {plan : Plan Op Name Block Val}

theorem mem_edges {f : Planner.Func} {e : Block × Block} :
    e ∈ PlannerSteps.edges f ↔ e.1 ∈ f.blocks ∧ e.2 ∈ f.succs e.1 := by
  unfold PlannerSteps.edges
  constructor
  · intro h
    obtain ⟨b, hb, he⟩ := List.mem_flatMap.mp h
    obtain ⟨s, hs, rfl⟩ := List.mem_map.mp he
    exact ⟨hb, hs⟩
  · exact fun h => List.mem_flatMap.mpr ⟨e.1, h.1, List.mem_map.mpr ⟨e.2, h.2, rfl⟩⟩

theorem Shuffle.mem_edges (h : Shuffle plan (i.toPlan pr)) {e : Block × Block}
    (he : e ∈ plan.edges) :
    e.1 ∈ i.graph.blocks ∧ e.2 ∈ i.graph.succs e.1 ∧ pr.plan.inst e = .normInst := by
  obtain ⟨hmem, hi⟩ := List.mem_filter.mp (h.edges.mem_iff.mp he)
  obtain ⟨hb, hs⟩ := PassPreserves.mem_edges.mp (List.mem_dedup.mp hmem)
  exact ⟨hb, hs, of_decide_eq_true hi⟩

theorem Shuffle.mem_loops (h : Shuffle plan (i.toPlan pr)) {l : LoopPlan Name Block Val}
    (hl : l ∈ plan.loops) :
    l.latch ∈ i.graph.blocks ∧ l.header ∈ i.graph.succs l.latch ∧
      pr.HasLoopProbe (l.latch, l.header) ∧ l = i.loopPlan pr (l.latch, l.header) := by
  obtain ⟨e, he, rfl⟩ := List.mem_map.mp (h.loops.mem_iff.mp hl)
  obtain ⟨hmem, hp⟩ := List.mem_filter.mp he
  obtain ⟨hb, hs⟩ := PassPreserves.mem_edges.mp (List.mem_dedup.mp hmem)
  exact ⟨hb, hs, of_decide_eq_true hp, rfl⟩

/-- The back edges are different. -/
theorem Shuffle.loops_nodup (h : Shuffle plan (i.toPlan pr)) :
    (plan.loops.map fun l => (l.latch, l.header)).Nodup := by
  rw [(h.loops.map _).nodup_iff]
  simp only [Input.toPlan, List.map_map]
  have hid : (fun l : LoopPlan Name Block Val => (l.latch, l.header)) ∘ i.loopPlan pr = id := rfl
  rw [hid, List.map_id]
  exact (List.nodup_dedup _).filter _

/-- Loop probes are on back edges, and not in blocks that have a probe. -/
theorem mem_backEdges (hback : p.backEdges = i.backEdges) (h : Inv o i.graph p)
    (hpr : pr.plan = cancelBackEdges i.graph (mergeBlocks i.graph p)) {e : Block × Block}
    (he : pr.HasLoopProbe e) : e ∈ i.backEdges ∧ e.1 ∉ pr.plan.instrumentedBB := by
  have hm : Merged i.graph p (mergeBlocks i.graph p) := mergeBlocks_merged h.noBB
  have hc : Cancelled i.graph (mergeBlocks i.graph p) pr.plan := hpr ▸ cancelBackEdges_cancelled _ _
  obtain ⟨hb, -, hbb⟩ := hm.loopInst h (hc.loopInst h hm he.1).1
  exact ⟨hback ▸ hb, hc.instrumentedBB ▸ hbb⟩

theorem instrumentedBB_succs (h : Inv o i.graph p)
    (hpr : pr.plan = cancelBackEdges i.graph (mergeBlocks i.graph p)) :
    ∀ b ∈ pr.plan.instrumentedBB, b ∈ i.graph.blocks ∧ 2 ≤ (i.graph.succs b).length := by
  have hc : Cancelled i.graph (mergeBlocks i.graph p) pr.plan := hpr ▸ cancelBackEdges_cancelled _ _
  rw [hc.instrumentedBB]
  exact mergeBlocks_succs h.noBB

theorem fits_toPlan (hback : p.backEdges = i.backEdges) (h : Inv o i.graph p)
    (hpr : pr.plan = cancelBackEdges i.graph (mergeBlocks i.graph p))
    (hplan : Shuffle plan (i.toPlan pr)) :
    Fits i.valid i.isPreheader plan := by
  have hc : Cancelled i.graph (mergeBlocks i.graph p) pr.plan := hpr ▸ cancelBackEdges_cancelled _ _
  have hloop : ∀ l ∈ plan.loops, (l.latch, l.header) ∈ i.backEdges ∧
      l.latch ∉ pr.plan.instrumentedBB := by
    intro l hl
    obtain ⟨-, -, hp, -⟩ := hplan.mem_loops hl
    exact mem_backEdges hback h hpr hp
  refine ⟨i.nodup, ?_, ?_, ?_, hplan.loops_nodup, ?_, ?_, ?_⟩
  · exact hplan.edges.nodup_iff.mpr ((List.nodup_dedup _).filter _)
  · intro e he
    obtain ⟨hb, hs, -⟩ := hplan.mem_edges he
    rwa [← i.succs e.1 hb]
  · intro b hb
    obtain ⟨hblock, hlen⟩ := instrumentedBB_succs h hpr b (hplan.blocks.mem_iff.mp hb)
    rwa [← i.succs b hblock]
  · intro l hl
    obtain ⟨hb, hs, hp, -⟩ := hplan.mem_loops hl
    refine ⟨i.succs _ hb ▸ hs, fun he => ?_,
      fun hmem => (hloop l hl).2 (hplan.blocks.mem_iff.mp hmem)⟩
    cases hp.1.symm.trans (hplan.mem_edges he).2.2
  · intro b hlen
    obtain ⟨v, hv, hopen⟩ : ∃ v ∈ (i.code.blocks b).term.succs, b ∈ i.graph.blocks →
        pr.plan.inst (b, v) = .uninst := by
      by_cases hb : b ∈ i.graph.blocks
      · rw [← i.succs b hb] at hlen ⊢
        obtain ⟨v, hv, hi⟩ := mergeBlocks_open (p := p) hb hlen
        exact ⟨v, hv, fun _ => cancelled_uninst hc hi⟩
      · have hpos : 0 < (i.code.blocks b).term.succs.length := by omega
        obtain ⟨v, hv⟩ := List.exists_mem_of_length_pos hpos
        exact ⟨v, hv, fun hb' => absurd hb' hb⟩
    refine ⟨v, hv, fun he => ?_, fun l hl he => ?_⟩
    · obtain ⟨hb, -, hi⟩ := hplan.mem_edges he
      cases hi.symm.trans (hopen hb)
    · obtain ⟨hb, -, hp, -⟩ := hplan.mem_loops hl
      obtain ⟨rfl, rfl⟩ := Prod.mk.inj he
      cases hp.1.symm.trans (hopen hb)
  · intro l hl pre iv finalValue hd
    obtain ⟨hself, hpre, hiv⟩ := of_decideSelfLoopCloneable hd
    obtain ⟨-, -, -, heq⟩ := hplan.mem_loops hl
    have hinfo : l.toLoopInfo = i.loops (l.header, l.header) := by
      rw [heq]
      exact congrArg i.loops (Prod.ext hself rfl)
    have hb := (hloop l hl).1
    rw [hself] at hb
    rw [hinfo] at hpre hiv
    obtain ⟨hnot, sl, hclosed, hbb, hslp⟩ := i.selfLoop l.header pre hb hpre (by rw [hiv]; rfl)
    refine ⟨sl, hclosed, hbb, hslp, decide_eq_true hpre, fun l' hl' he => hnot ?_⟩
    rw [← he]
    exact (hloop l' hl').1

end Fits

/-! ## A loop that adds up -/

open ClonePreserves (CountOp CountName countSem)

/-- `do { sum = s + i; log(sum); next = i + 1; } while (next < n);` -/
def sumCode : Func CountOp CountName Block Int where
  entry := 0
  blocks
    | 0 => ⟨[], [], .br 1⟩
    | 1 =>
      { phis := [⟨.i, [(0, .const 0), (1, .val .next)]⟩, ⟨.s, [(0, .const 0), (1, .val .sum)]⟩]
        body := [⟨some .sum, .add, [.val .s, .val .i]⟩, ⟨none, .log, [.val .sum]⟩,
          ⟨some .next, .add, [.val .i, .const 1]⟩, ⟨some .test, .lt, [.val .next, .val .n]⟩]
        term := .condBr (.val .test) 1 2 }
    | 2 => ⟨[⟨.result, [(1, .val .sum)]⟩], [], .ret (some (.val .result))⟩
    | _ => ⟨[], [], .ret none⟩

theorem sum_entry : 0 ∈ [0, 1, 2] := by decide

theorem sum_succs : ∀ b ∈ [0, 1, 2], ∀ s ∈ [[1], [1, 2], []].getD b [], s ∈ [0, 1, 2] := by decide

def sumGraph : Planner.Func where
  blocks := [0, 1, 2]
  entry := 0
  succs := fun b => [[1], [1, 2], []].getD b []
  isRet := fun b => b == 2
  costs := fun b => [[1], [1, 5, 1, 1, 1], [1]].getD b []
  calls := fun _ => []
  entry_mem := sum_entry
  succs_mem := sum_succs

def sumValid : Valid sumCode where
  live b x := b ≤ 1 ∧ x = .n
  body b := by
    match b with
    | 0 | 2 | _ + 3 => trivial
    | 1 => simp [sumCode, Scoped, Operand.Within]
  term b o h := by
    match b with
    | 0 | _ + 3 => cases h
    | 1 | 2 =>
      cases h
      simp [sumCode, Operand.Within, Block.defs]
  phis b v hv := by
    match b with
    | 0 =>
      cases List.mem_singleton.mp hv
      simp [sumCode, Phi.incomingFor, Operand.Within]
    | 1 =>
      rcases List.mem_pair.mp hv with rfl | rfl <;>
        simp [sumCode, Phi.incomingFor, Operand.Within, Block.defs]
    | 2 | _ + 3 => cases hv
  out b v hv x hx := by
    match b with
    | 0 | 1 => exact .inl ⟨by decide, hx.2⟩
    | 2 | _ + 3 => cases hv

def sumLoop : SelfLoop sumCode where
  preheader := 0
  bb := 1
  exit := 2
  cond := .val .test
  exitOnTrue := false
  enters := rfl
  latch := rfl
  exit_ne_bb := by decide
  preheader_ne_bb := by decide
  preheader_ne_exit := by decide
  entry_ne_bb := by decide
  uses := by simp [sumCode, Scoped, Operand.Within, Block.defs]
  initial := by simp [sumCode, Phi.incomingFor, Operand.Within]
  next := by simp [sumCode, Phi.incomingFor]
  result := by simp [sumCode, Phi.incomingFor]

def sumInput : Input CountOp CountName Int where
  graph := sumGraph
  code := sumCode
  backEdges := [(1, 1)]
  loops := fun _ =>
    { preheader := some 0
      isNested := false
      exitBlocks := [2]
      indVar := some ⟨.const 0, some 0, .next, 1, .i, some (.val .n), true⟩ }
  valid := sumValid
  succs := by decide
  nodup b := by
    match b with
    | 0 | 1 | 2 => decide
    | _ + 3 => exact List.nodup_nil
  acyclic := PlannerSteps.acyclic_of_rank id (by decide)
  costs := by decide
  selfLoop b pre hb hpre _ := by
    cases List.mem_singleton.mp hb
    cases hpre
    exact ⟨by decide, sumLoop, ⟨by simp [sumCode, sumLoop],
      by simp [sumCode, sumLoop, sumValid, Block.defs],
      by simp [sumCode, sumLoop, sumValid, Block.defs]⟩, rfl, rfl⟩

def sumOptions : Options CountOp Int := ⟨false, 20, id, fun _ => false⟩

/-- A clock that goes on while the program runs. -/
def clock (hook : List Int → List Int) : Runtime CountOp Int (List Int) Int where
  add x y := x + y
  sub x y := x - y
  eq x y := if x = y then 1 else 0
  sgt x y := if x > y then 1 else 0
  sle x y := if x ≤ y then 1 else 0
  sge x y := if x ≥ y then 1 else 0
  now a := (a, a + 1)
  hook _ s := (hook s.1, s.2)
  ran _ _ _ e := (e.1, e.2 + 1)

/-! ## The pass -/

namespace Input

/-- The instrumented function, for the entries of the maps in some order. -/
def instrument [DecidableEq Name] (i : Input Op Name Val) (o : Options Op Val)
    (cost : NewInstr Op Name Val → Int) (termCost : Term (NewName Name) (NewLabel Block) Val → Int)
    (plan : Plan Op Name Block Val) : NewFunc Op Name Block Val :=
  insertProbes o cost termCost i.isPreheader plan i.code

theorem generateInst_fits (i : Input Op Name Val) (o : Planner.Options) (hci : 0 < o.commitInterval)
    (hmax : 0 ≤ o.maxE2EUninst) (hfit : PlannerSteps.Fits o i.graph i.backEdges) :
    ∃ N pr, (∀ n, N ≤ n → generateInst o i.graph i.backEdges n = .ok pr) ∧
      (∀ plan, Shuffle plan (i.toPlan pr) → Fits i.valid i.isPreheader plan) ∧
      (∀ e, pr.HasLoopProbe e → e ∈ i.backEdges) ∧
      ∀ b ∈ pr.plan.instrumentedBB, b ∈ i.graph.blocks := by
  obtain ⟨N, p, hp, h, hback, -⟩ := PlannerBound.planProbes_spec i.acyclic hci hmax i.costs hfit
  obtain ⟨pr, hpr, hplan⟩ : ∃ pr, InsertProbes.insertProbes o i.graph p = .ok pr ∧
      pr.plan = cancelBackEdges i.graph (mergeBlocks i.graph p) := ⟨_, insertProbes_eq h, rfl⟩
  refine ⟨N, pr, fun n hn => ?_, fun plan hs => fits_toPlan hback h hplan hs,
    fun e he => (mem_backEdges hback h hplan he).1,
    fun b hb => (instrumentedBB_succs h hplan b hb).1⟩
  unfold generateInst
  rw [hp n hn]
  exact hpr

end Input

/-- The instrumented loop. -/
def sumProbed (pr : Probes) : NewFunc CountOp CountName Block Int :=
  sumInput.instrument sumOptions (fun _ => 1) (fun _ => 1) (sumInput.toPlan pr)

def sumPlanner : Planner.Options := ⟨20, 20, 40, 1⟩

theorem sum_fits : PlannerSteps.Fits sumPlanner sumGraph [(1, 1)] :=
  .of_total sumInput.acyclic sumInput.costs (by decide)

/-- What the instrumented loop returns and logs for 3 iterations, if the hook logs -1. -/
def sumResult : Option (Option Int × List Int) :=
  match generateInst sumPlanner sumGraph [(1, 1)] 1 with
  | .error _ => none
  | .ok pr =>
    (resultAfter (probed countSem (clock (-1 :: ·))) (sumProbed pr) 40
      (start (sumProbed pr) (fun _ => 3) ([], (fun _ => 0, 0)))).map fun r => (r.1, r.2.1)

theorem sumResult_eq : sumResult = some (some 3, [3, -1, 1, 0]) := by decide +kernel

theorem sumProbed_returns {pr : Probes} (h : generateInst sumPlanner sumGraph [(1, 1)] 1 = .ok pr) :
    ∃ e', Returns (probed countSem (clock (-1 :: ·))) (sumProbed pr)
      (start (sumProbed pr) (fun _ => 3) ([], (fun _ => 0, 0))) (some 3) ([3, -1, 1, 0], e') := by
  have hresult := sumResult_eq
  simp only [sumResult, h] at hresult
  obtain ⟨⟨v, w, e'⟩, hr, he⟩ := Option.map_eq_some_iff.mp hresult
  cases he
  exact ⟨e', returns_of_resultAfter hr⟩

section Pass

variable [DecidableEq Name]

/-- Planning ends, and the instrumented function returns what the original one returns and leaves
the same memory, if the hook leaves it alone. It returns if and only if the original one does. -/
theorem pass_preserves_returns (i : Input Op Name Val) (o : Planner.Options)
    (hci : 0 < o.commitInterval) (hmax : 0 ≤ o.maxE2EUninst)
    (hfit : PlannerSteps.Fits o i.graph i.backEdges) (emission : Options Op Val)
    (cost : NewInstr Op Name Val → Int) (termCost : Term (NewName Name) (NewLabel Block) Val → Int)
    (sem : Sem Op Val World) (r : Runtime Op Val World Aux)
    (hhook : ∀ v w e, (r.hook v (w, e)).1 = w) :
    ∃ N pr, (∀ n, N ≤ n → generateInst o i.graph i.backEdges n = .ok pr) ∧
      ∀ plan, Shuffle plan (i.toPlan pr) → ∀ env env', (∀ x, env' (.old x) = env x) → ∀ w e v w',
        (Returns sem i.code (start i.code env w) v w' ↔
          ∃ e', Returns (probed sem r) (i.instrument emission cost termCost plan)
            (start (i.instrument emission cost termCost plan) env' (w, e)) v (w', e')) := by
  obtain ⟨N, pr, hpr, hfits, -⟩ := i.generateInst_fits o hci hmax hfit
  exact ⟨N, pr, hpr, fun plan hs env env' henv w e v w' =>
    returns_insertProbes_iff emission (hfits plan hs) cost termCost sem r henv w e v w' hhook⟩

/-- The loop runs three times, over the probe on its back edge. -/
theorem pass_preserves_returns_sum :
    ∃ N pr, (∀ n, N ≤ n → generateInst sumPlanner sumInput.graph sumInput.backEdges n = .ok pr) ∧
      ∃ e', Returns (probed countSem (clock id)) (sumProbed pr)
        (start (sumProbed pr) (fun _ => 3) ([], (fun _ => 0, 0))) (some 3) ([3, 1, 0], e') := by
  obtain ⟨N, pr, hpr, hiff⟩ := pass_preserves_returns sumInput sumPlanner (by decide) (by decide)
    sum_fits sumOptions (fun _ => 1) (fun _ => 1) countSem (clock id) fun _ _ _ => rfl
  refine ⟨N, pr, hpr, (hiff _ (.refl _) (fun _ => 3) (fun _ => 3) (fun _ => rfl) []
    (fun _ => 0, 0) _ _).mp ?_⟩
  exact returns_of_resultAfter (n := 16) rfl

/-- For any hook, a run of the instrumented function that returns is a run of the original one in
which the hook changes the memory between two steps. -/
theorem pass_only_preempts (i : Input Op Name Val) (o : Planner.Options)
    (hci : 0 < o.commitInterval) (hmax : 0 ≤ o.maxE2EUninst)
    (hfit : PlannerSteps.Fits o i.graph i.backEdges) (emission : Options Op Val)
    (cost : NewInstr Op Name Val → Int) (termCost : Term (NewName Name) (NewLabel Block) Val → Int)
    (sem : Sem Op Val World) (r : Runtime Op Val World Aux) :
    ∃ N pr, (∀ n, N ≤ n → generateInst o i.graph i.backEdges n = .ok pr) ∧
      ∀ plan, Shuffle plan (i.toPlan pr) → ∀ env env', (∀ x, env' (.old x) = env x) →
        ∀ w e v w' e', Returns (probed sem r) (i.instrument emission cost termCost plan)
            (start (i.instrument emission cost termCost plan) env' (w, e)) v (w', e') →
          ∃ u, Relation.ReflTransGen (Preempted sem i.code (Interferes r)) (start i.code env w) u ∧
            Returned i.code u v w' := by
  obtain ⟨N, pr, hpr, hfits, -⟩ := i.generateInst_fits o hci hmax hfit
  exact ⟨N, pr, hpr, fun plan hs env env' henv w e v w' e' h =>
    returns_insertProbes_preempted emission (hfits plan hs) cost termCost sem r henv w e v w' h⟩

/-- The same loop with a hook that logs -1. It is called once, after the second iteration. -/
theorem pass_only_preempts_sum :
    ∃ N pr e', (∀ n, N ≤ n → generateInst sumPlanner sumInput.graph sumInput.backEdges n = .ok pr) ∧
      Returns (probed countSem (clock (-1 :: ·))) (sumProbed pr)
        (start (sumProbed pr) (fun _ => 3) ([], (fun _ => 0, 0))) (some 3) ([3, -1, 1, 0], e') ∧
      ∃ u, Relation.ReflTransGen (Preempted countSem sumInput.code (Interferes (clock (-1 :: ·))))
        (start sumInput.code (fun _ => 3) []) u ∧ Returned sumInput.code u (some 3)
        [3, -1, 1, 0] := by
  obtain ⟨N, pr, hpr, hpre⟩ := pass_only_preempts sumInput sumPlanner (by decide) (by decide)
    sum_fits sumOptions (fun _ => 1) (fun _ => 1) countSem (clock (-1 :: ·))
  -- no loop of the planner has more than one round here
  have hfuel : generateInst sumPlanner sumGraph [(1, 1)] 1 = .ok pr := hpr (N + 1) (Nat.le_succ N)
  obtain ⟨e', hreturns⟩ := sumProbed_returns hfuel
  exact ⟨N, pr, e', hpr, hreturns,
    hpre _ (.refl _) (fun _ => 3) (fun _ => 3) (fun _ => rfl) [] (fun _ => 0, 0) _ _ _ hreturns⟩

end Pass

end TinyQuanta.PassPreserves
