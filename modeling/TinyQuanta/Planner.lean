import TinyQuanta.Params
import TinyQuanta.Relaxation

/-!
# Probe planning

The part of the `CheapPreemption` pass that decides where probes go, up to the
end of the two loops of `generateInst`. A function is its control-flow graph with
the cost of every instruction; the pass's global maps are the fields of `Plan`.
`IsRecursiveFunc` is never filled by the pass, so the branches it guards are dead
and left out. Sums of costs are `int`s, so `int32` wraps every one of them; the count of
probes, which is only printed, is an exact integer.

A `while (true)` loop runs on fuel. Running out of it, a failed `assert` and a
null block pointer are different failures, so that none of them can pass for a
result.
-/
namespace TinyQuanta.Planner

open TopoSort Relaxation Params

abbrev Block := Nat

/-- A call instruction: indirect, to a function of the cost table, or to any other one. For the
second kind the flag says that its recorded `MaxUnistDist` is 0. -/
inductive Call where
  | indirect
  | library (probed : Bool)
  | other
  deriving DecidableEq, Repr

/-- A control-flow graph, with the costs of the instructions of every block and its calls. The
last instruction of a block is its terminator. The first `allocas` instructions of the entry block
only allocate. -/
structure Func where
  blocks : List Block
  entry : Block
  succs : Block → List Block
  isRet : Block → Bool
  costs : Block → List Int
  calls : Block → List Call
  allocas : Nat := 0
  entry_mem : entry ∈ blocks
  succs_mem : ∀ b ∈ blocks, ∀ s ∈ succs b, s ∈ blocks

/-- The command line options `-commit-intv`, `-max-e2e-length`, `-func-call-threshold` and
`-mem-ops-cost`. -/
structure Options where
  commitInterval : Int
  maxE2EUninst : Int
  funcCallThreshold : Int
  memOpsCost : Int

inductive EdgeInst where
  | uninst | normInst | loopInst
  deriving DecidableEq, Repr

inductive Failure where
  | fuel | cycle | assertion | null
  deriving DecidableEq, Repr

/-- The globals of the pass. `fallbacks` counts how often the second loop had to give up on a
`LargeBB`; the pass does not look at it. -/
structure Plan where
  backEdges : List (Block × Block)
  sortedBBs : List Block
  costMap : Block → Int
  edgeInstMap : Block × Block → Option EdgeInst
  instrumentedBB : List Block
  largeBB : Option Block
  numEdgeInst : Int
  fallbacks : Nat

/-- `EdgeInstMap[e]`; a missing entry reads as the first enumerator. -/
def Plan.inst (p : Plan) (e : Block × Block) : EdgeInst := (p.edgeInstMap e).getD .uninst

def Plan.setInst (p : Plan) (e : Block × Block) (i : EdgeInst) : Plan :=
  { p with edgeInstMap := Function.update p.edgeInstMap e (some i) }

/-- The successors that are not reached over a back edge. -/
def forward (f : Func) (backEdges : List (Block × Block)) (b : Block) : List Block :=
  (f.succs b).filter fun s => (b, s) ∉ backEdges

/-- `runToposort`; a cycle ends the model. No path of the search is longer than the number of
blocks. -/
def runToposort (f : Func) (backEdges : List (Block × Block)) : Except Failure (List Block) :=
  match TopoSort.visit (forward f backEdges) f.blocks.length f.entry start with
  | .ok m => .ok m.sorted
  | .error .fuel => .error .fuel
  | .error .cycle => .error .cycle

/-- A block whose instructions cost the commit interval or more counts as free here; it gets
probes of its own later. -/
def populateCostMap (o : Options) (f : Func) (b : Block) : Int :=
  let instCount := (f.costs b).foldl (fun s c => int32 (s + c)) 0
  if o.commitInterval ≤ instCount then 0 else instCount

/-- Every edge out of a sorted block starts uninstrumented; the back edges get loop probes. The
pass asserts that a back edge has an entry; here one without an entry is left alone. -/
def populateEdgeInstMap (f : Func) (p : Plan) : Plan :=
  let p := p.sortedBBs.reverse.foldl (fun p b =>
    (f.succs b).foldl (fun p s => p.setInst (b, s) .uninst) p) p
  p.backEdges.foldl (fun p e =>
    match p.edgeInstMap e with
    | none => p
    | some _ => { p.setInst e .loopInst with numEdgeInst := p.numEdgeInst + 1 }) p

/-- The path goes on over this edge. -/
def propagates (p : Plan) (u v : Block) : Prop :=
  p.inst (u, v) = .uninst ∧ 0 < p.costMap u ∧ u ∉ p.instrumentedBB

instance (p : Plan) (u v : Block) : Decidable (propagates p u v) :=
  inferInstanceAs (Decidable (_ ∧ _ ∧ _))

/-- What `longestDistanceFrom` offers to `v`, nothing if `u` has no entry. -/
def longestCand (p : Plan) (u v : Block) (distU : Option Int) : Option Int :=
  distU.map fun d => if propagates p u v ∧ 0 < d then int32 (d + p.costMap v) else 0

def longestDistanceFrom (f : Func) (p : Plan) (startBB : Block) : Table Block :=
  sweep (forward f p.backEdges) (longestCand p) (fun u _ => u) p.sortedBBs.reverse
    ⟨Function.update (fun _ => none) startBB (some (p.costMap startBB)),
      Function.update (fun _ => none) startBB (some startBB)⟩

/-- What `generateDistanceMap` offers to `v`. -/
def distanceCand (p : Plan) (u v : Block) (distU : Option Int) : Option Int :=
  some (if propagates p u v then int32 (p.costMap v + distU.getD 0) else p.costMap v)

/-- Where a distance came from: the block itself if the path starts there. -/
def distanceTag (p : Plan) (u v : Block) : Block := if propagates p u v then u else v

def generateDistanceMap (f : Func) (p : Plan) : Tracked Block :=
  sweepMax (forward f p.backEdges) (distanceCand p) (distanceTag p) p.sortedBBs.reverse
    { table := ⟨Function.update (fun _ => none) f.entry (some (p.costMap f.entry)),
        Function.update (fun _ => none) f.entry (some f.entry)⟩
      best := f.entry
      bestDist := p.costMap f.entry }

/-- Walk back from `curBB` to the first block below the threshold and instrument the edge out of
it. The result says whether there was one. -/
def decideInstLocations (d : Table Block) (distThreshold : Int) :
    Nat → Block → Plan → Except Failure (Bool × Plan)
  | 0, _, _ => .error .fuel
  | n + 1, curBB, p =>
    match d.prev curBB with
    | none => .error .null
    | some prevBB =>
      if (d.dist prevBB).getD 0 < distThreshold then
        if p.inst (prevBB, curBB) = .uninst ∧ prevBB ∉ p.instrumentedBB then
          .ok (true, { p.setInst (prevBB, curBB) .normInst with numEdgeInst := p.numEdgeInst + 1 })
        else .error .assertion
      else if prevBB = curBB then .ok (false, { p with largeBB := some curBB })
      else decideInstLocations d distThreshold n prevBB p

/-- Instrument every outgoing edge that is not instrumented yet. -/
def instrumentOutgoing (f : Func) (b : Block) (p : Plan) : Plan :=
  (f.succs b).foldl (fun p s =>
    if p.inst (b, s) = .uninst then
      { p.setInst (b, s) .normInst with numEdgeInst := p.numEdgeInst + 1 }
    else p) p

/-- The return block with the longest uninstrumented path from the entry. -/
def maxReturn (f : Func) (d : Table Block) : Option Block × Int :=
  f.blocks.foldl (fun m b =>
    match d.dist b with
    | none => m
    | some x => if f.isRet b = true ∧ m.2 < x then (some b, x) else m) (none, 0)

/-- The first loop of `generateInst`, for paths through the whole function. -/
def e2eLoop (o : Options) (f : Func) : Nat → Plan → Except Failure Plan
  | 0, _ => .error .fuel
  | n + 1, p =>
    let d := longestDistanceFrom f p f.entry
    let (maxBB, maxDist) := maxReturn f d
    if maxDist ≤ o.maxE2EUninst then .ok p
    else
      match maxBB with
      | none => .error .null
      | some maxBB =>
        match decideInstLocations d o.maxE2EUninst f.blocks.length maxBB p with
        | .error e => .error e
        | .ok (true, p) => e2eLoop o f n p
        | .ok (false, p) =>
          if o.maxE2EUninst ≤ (d.dist f.entry).getD 0 then .ok (instrumentOutgoing f f.entry p)
          else .error .assertion

/-- The second loop of `generateInst`, for all paths. -/
def distanceLoop (o : Options) (f : Func) : Nat → Plan → Except Failure Plan
  | 0, _ => .error .fuel
  | n + 1, p =>
    let m := generateDistanceMap f p
    if m.bestDist ≤ o.commitInterval then .ok p
    else
      match decideInstLocations m.table o.commitInterval f.blocks.length m.best p with
      | .error e => .error e
      | .ok (true, p) => distanceLoop o f n p
      | .ok (false, p) =>
        match p.largeBB with
        | none => .error .null
        | some largeBB =>
          if o.commitInterval ≤ (m.table.dist largeBB).getD 0 then
            let p := instrumentOutgoing f largeBB p
            distanceLoop o f n { p with
              costMap := Function.update p.costMap largeBB (-1)
              fallbacks := p.fallbacks + 1 }
          else .error .assertion

/-- The maps as they are when `generateInst` is called. -/
def initialPlan (o : Options) (f : Func) (backEdges : List (Block × Block))
    (sortedBBs : List Block) : Plan :=
  populateEdgeInstMap f
    { backEdges := backEdges
      sortedBBs := sortedBBs
      costMap := populateCostMap o f
      edgeInstMap := fun _ => none
      instrumentedBB := []
      largeBB := none
      numEdgeInst := 0
      fallbacks := 0 }

/-- `analyzeAndInstrFunc` up to the end of the two loops of `generateInst`. -/
def planProbes (o : Options) (f : Func) (backEdges : List (Block × Block)) (fuel : Nat) :
    Except Failure Plan :=
  match runToposort f backEdges with
  | .error e => .error e
  | .ok sortedBBs =>
    match e2eLoop o f fuel (initialPlan o f backEdges sortedBBs) with
    | .error e => .error e
    | .ok p => distanceLoop o f fuel p

end TinyQuanta.Planner
