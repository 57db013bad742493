import Mathlib.Data.List.Dedup
import TinyQuanta.Planner

/-!
# From the plan to the probes

What `insertProbes` decides: probes on all edges out of a block become one probe in the
block, back edges whose loop has a probe on every way around it lose theirs, and every
remaining back edge gets the number of iterations after which its loop probe checks.
Blocks that cost the commit interval by themselves get probes between their instructions.
-/
namespace TinyQuanta.InsertProbes

open Relaxation Planner Params

/-- Step (1) for one block. -/
def mergeBlock (f : Func) (p : Plan) (b : Block) : Plan :=
  if 2 ≤ (f.succs b).length ∧ ∀ s ∈ f.succs b, p.inst (b, s) ≠ .uninst then
    let p := (f.succs b).foldl (fun p s =>
      { p.setInst (b, s) .uninst with numEdgeInst := p.numEdgeInst - 1 }) p
    { p with instrumentedBB := b :: p.instrumentedBB }
  else p

def mergeBlocks (f : Func) (p : Plan) : Plan := f.blocks.foldl (mergeBlock f) p

/-- The calls of a block that count, -1 if one of them has a probe on every path. -/
def populateFuncCallCostMap (f : Func) (b : Block) : Int :=
  if Call.library true ∈ f.calls b then -1 else int32 ((f.calls b).filter (· ≠ .other)).length

/-- What `longestFuncCallDistanceFrom` offers to `v`. -/
def funcCallCand (f : Func) (p : Plan) (u v : Block) (distU : Option Int) : Option Int :=
  distU.map fun d =>
    if propagates p u v ∧ 0 ≤ populateFuncCallCostMap f u ∧ 0 ≤ d then
      int32 (d + populateFuncCallCostMap f v)
    else 0

def longestFuncCallDistanceFrom (f : Func) (p : Plan) (startBB : Block) : Table Block :=
  sweep (forward f p.backEdges) (funcCallCand f p) (fun u _ => u) p.sortedBBs.reverse
    ⟨Function.update (fun _ => none) startBB (some (populateFuncCallCostMap f startBB)),
      Function.update (fun _ => none) startBB (some startBB)⟩

/-- `LoopCost`: the longest way from the header to the latch without a probe. -/
def loopCost (f : Func) (p : Plan) (e : Block × Block) : Int :=
  if p.inst e = .uninst then 0 else ((longestDistanceFrom f p e.2).dist e.1).getD 0

def loopFuncCallCost (f : Func) (p : Plan) (e : Block × Block) : Int :=
  if p.inst e = .uninst then 0 else ((longestFuncCallDistanceFrom f p e.2).dist e.1).getD 0

/-- The end of step (3), for the loop costs found on the plan before it. -/
def cancelBackEdges (f : Func) (p : Plan) : Plan :=
  p.backEdges.dedup.foldl (fun q e =>
    if p.inst e ≠ .uninst ∧ loopCost f p e = 0 then
      { q.setInst e .uninst with
        backEdges := q.backEdges.filter (· ≠ e)
        numEdgeInst := q.numEdgeInst - 1 }
    else q) p

/-- `NumIters`, from the cost and the calls of one iteration. -/
def numIters (o : Options) (cost calls : Int) : Int :=
  let n := o.commitInterval.tdiv cost
  if 0 < calls then
    let m := o.funcCallThreshold.tdiv calls
    let m := if m = 0 then 1 else m
    if n ≤ m then n else m
  else n

/-- The last loop of `insertProbes`: an instruction that takes the total to the commit interval gets
a probe before it, and the count starts again with it. -/
def instructionsToProbe {α : Type} (cost : α → Int) (commitInterval : Int) :
    Int → List α → List (Bool × α)
  | _, [] => []
  | totalInstCost, i :: is =>
    let totalInstCost := int32 (totalInstCost + cost i)
    if commitInterval ≤ totalInstCost then
      (true, i) :: instructionsToProbe cost commitInterval (cost i) is
    else (false, i) :: instructionsToProbe cost commitInterval totalInstCost is

/-- The final maps, with the cost and the number of iterations of every loop. -/
structure Probes where
  plan : Plan
  loopCost : Block × Block → Int
  numIters : Block × Block → Int

/-- The back edge carries a loop probe. -/
def Probes.HasLoopProbe (pr : Probes) (e : Block × Block) : Prop :=
  pr.plan.inst e = .loopInst ∧ pr.loopCost e ≠ 0

instance (pr : Probes) (e : Block × Block) : Decidable (pr.HasLoopProbe e) :=
  inferInstanceAs (Decidable (_ ∧ _))

/-- `insertProbes` up to the code it emits, which `Instrumented` models. -/
def insertProbes (o : Options) (f : Func) (p : Plan) : Except Failure Probes :=
  let p := mergeBlocks f p
  let pr : Probes :=
    { plan := cancelBackEdges f p
      loopCost := loopCost f p
      numIters := fun e => numIters o (loopCost f p e) (loopFuncCallCost f p e) }
  if (∀ e ∈ p.backEdges, p.inst e ≠ .uninst → loopCost f p e = 0 → p.inst e = .loopInst) ∧
      ∀ e ∈ p.backEdges, pr.HasLoopProbe e → e.1 ∉ p.instrumentedBB then .ok pr
  else .error .assertion

/-- `analyzeAndInstrFunc` up to the emitted code. -/
def generateInst (o : Options) (f : Func) (backEdges : List (Block × Block)) (fuel : Nat) :
    Except Failure Probes :=
  match planProbes o f backEdges fuel with
  | .error e => .error e
  | .ok p => insertProbes o f p

end TinyQuanta.InsertProbes
