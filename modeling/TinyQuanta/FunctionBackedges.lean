import TinyQuanta.DepthFirst
import TinyQuanta.LoopCover

/-!
# Back edges and the topological sort

`FindFunctionBackedges` reports the retreating edges of a depth-first search of
its own, which may take the successors of a block in another order than
`recursiveDFSToposort` does. Whatever order it takes, the sort then meets no grey
block, and lists everything that can be reached. The same search gives what the
planner and the loop probes assume of the back edges.
-/
namespace TinyQuanta.FunctionBackedges

open Relation Planner PlannerSteps LoopCover DepthFirst
open TopoSort (Edge sort_correct)

/-- `FindFunctionBackedges` may report these edges. -/
def IsFunctionBackedges (f : Func) (backEdges : List (Block × Block)) : Prop :=
  Retreats f.succs f.entry backEdges

theorem acyclic_of_backedges {f : Func} {backEdges : List (Block × Block)}
    (h : IsFunctionBackedges f backEdges) : Acyclic f backEdges := fun _ => Retreats.acyclic h

/-- What the coverage of loops rests on. -/
theorem foundBackedges_of_backedges {f : Func} {backEdges : List (Block × Block)}
    (h : IsFunctionBackedges f backEdges) : FoundBackedges f backEdges where
  edge _ he := (Retreats.loop h he).1
  header _ he := (Retreats.loop h he).2.1
  latch _ he := (Retreats.loop h he).2.2

/-- Removing the back edges cuts no block off. -/
theorem reaches_iff {f : Func} {backEdges : List (Block × Block)}
    (h : IsFunctionBackedges f backEdges)
    (b : Block) :
    ReflTransGen (Edge (forward f backEdges)) f.entry b ↔ ReflTransGen (Edge f.succs) f.entry b :=
  ⟨fun hb => hb.lift id fun _ _ huv => (mem_forward.mp huv).1, Retreats.reaches h⟩

/-- The sort ends and succeeds; it lists each block that can be reached from the entry once and no
other, and every block behind its successors over edges that are not back edges. -/
theorem toposort_sorts (f : Func) (backEdges : List (Block × Block))
    (h : IsFunctionBackedges f backEdges) :
    ∃ sortedBBs, runToposort f backEdges = .ok sortedBBs ∧ sortedBBs.Nodup ∧
      (∀ b, b ∈ sortedBBs ↔ ReflTransGen (Edge f.succs) f.entry b) ∧
      ∀ u ∈ sortedBBs, ∀ v ∈ f.succs u, (u, v) ∉ backEdges →
        v ∈ sortedBBs ∧ sortedBBs.idxOf v < sortedBBs.idxOf u := by
  obtain ⟨m, hrun, hnodup, htopo, hmem⟩ := sort_correct f.entry_mem
    (fun b hb s hs => f.succs_mem b hb s (mem_forward.mp hs).1) (acyclic_of_backedges h)
    (Nat.le_refl f.blocks.length)
  refine ⟨m.sorted, by simp [runToposort, hrun], hnodup, fun b => (hmem b).trans (reaches_iff h b),
    ?_⟩
  intro u hu v hv hnot
  have hforward : v ∈ forward f backEdges u := mem_forward.mpr ⟨hv, hnot⟩
  exact ⟨htopo.closed hu hforward, htopo.idxOf_lt hnodup hu hforward⟩

/-- A double edge into a loop of two blocks, of which one is a self loop, and a block that nothing
leads to. -/
def tangle : Func where
  blocks := [0, 1, 2, 3]
  entry := 0
  succs b := ([[1, 1], [2, 1], [1], [0]] : List (List Block)).getD b []
  isRet _ := false
  costs _ := [1]
  calls _ := []
  entry_mem := by decide
  succs_mem := by decide

/-- The search that looks at the self loop first. -/
theorem tangle_backedges : IsFunctionBackedges tangle [(1, 1), (2, 1)] := by
  refine ⟨[1, 1], [2, 1, 0], [(2, 1), (1, 1)], fun x => Iff.rfl, ?_, by simp [or_comm]⟩
  exact
    .head (.descend 0 1 [1] [1, 2] [] [] [] (by decide) (by decide) (by simp [tangle, or_comm])) <|
    .head (.retreat 1 1 [2] [(0, [1])] [] [] (by decide)) <|
    .head (.descend 1 2 [] [1] [(0, [1])] [] [(1, 1)] (by decide) (by decide) fun _ => Iff.rfl) <|
    .head (.retreat 2 1 [] [(1, []), (0, [1])] [] [(1, 1)] (by decide)) <|
    .head (.ascend 2 [(1, []), (0, [1])] [] [(2, 1), (1, 1)]) <|
    .head (.ascend 1 [(0, [1])] [2] [(2, 1), (1, 1)]) <|
    .head (.pass 0 1 [] [] [2, 1] [(2, 1), (1, 1)] (by decide)) <|
    .head (.ascend 0 [] [2, 1] [(2, 1), (1, 1)]) .refl

theorem toposort_sorts_tangle :
    ∃ sortedBBs, runToposort tangle [(1, 1), (2, 1)] = .ok sortedBBs ∧ sortedBBs = [2, 1, 0] ∧
      sortedBBs.Nodup ∧ (∀ b, b ∈ sortedBBs ↔ ReflTransGen (Edge tangle.succs) tangle.entry b) := by
  obtain ⟨l, hrun, hnodup, hmem, -⟩ := toposort_sorts tangle [(1, 1), (2, 1)] tangle_backedges
  have hl : runToposort tangle [(1, 1), (2, 1)] = .ok [2, 1, 0] := rfl
  refine ⟨l, hrun, ?_, hnodup, hmem⟩
  rw [hrun] at hl
  exact Except.ok.inj hl

end TinyQuanta.FunctionBackedges
