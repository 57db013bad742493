import TinyQuanta.InsertProbes
import TinyQuanta.PlannerSteps

/-!
# The instrumented function

What runs after `insertProbes`: the code it puts on edges, at the end of
preheaders and exit blocks and into blocks, and the copies it makes of self loops.
`LoopInfo` and the induction variables it finds are data. An execution chooses
its way through the control-flow graph, and the initial and final value of the
induction variable at every loop entry. Only instructions of the original
function cost something; a check is a run through the code of
`insertCycleProbe`. Splitting an edge puts a block between the two ends; of
parallel edges it splits the first.
-/
namespace TinyQuanta.Instrumented

open Params Planner PlannerSteps InsertProbes

/-! ## Cost between checks -/

inductive Event where
  | cost (c : Int)
  | check
  deriving DecidableEq, Repr

/-- The cost since the last check, and the largest one there has been. -/
structure Meter where
  gap : Int
  worst : Int
  deriving DecidableEq, Repr

def Meter.event (m : Meter) : Event → Meter
  | .cost c => ⟨m.gap + c, max m.worst (m.gap + c)⟩
  | .check => ⟨0, m.worst⟩

def Meter.events (m : Meter) (es : List Event) : Meter := es.foldl Meter.event m

/-! ## Loops -/

inductive Width where
  | w8 | w16 | w32 | w64
  deriving DecidableEq, Repr

/-- The first value a signed integer of the width cannot hold. -/
def Width.half : Width → Int
  | .w8 => 128
  | .w16 => 32768
  | .w32 => 2147483648
  | .w64 => 9223372036854775808

/-- The signed value of a result that is cut down to the width. -/
def Width.wrap (w : Width) (x : Int) : Int := (x + w.half) % (2 * w.half) - w.half

/-- An induction variable as `getLoopsBound` records it. `initial` is the initial value if that is
constant; `finalUsable` says that the final value is known in the preheader, `finalConst` that it
is a constant. `latch` is the comparison at the latch: whether the loop goes on, from the variable
and the final value. -/
structure IndVar where
  width : Width
  step : Int
  initial : Option Int
  finalUsable : Bool
  latch : Int → Int → Bool
  finalConst : Bool := false

/-- The depth is 0 if `LoopInfo` has no loop for the back edge, and then there is no preheader. -/
structure Loop where
  preheader : Block
  body : List Block
  depth : Nat
  exitBlocks : List Block
  indVar : Option IndVar

def Loop.isNested (l : Loop) : Bool := 1 < l.depth

/-- The counter of a loop without an induction variable is cleared in the entry block. -/
def Loop.countsFromEntry (l : Loop) : Bool := l.isNested || decide (l.depth = 0)

/-- `decideSelfLoopCloneable`, for a back edge that is a self loop. -/
def cloneable (e : Block × Block) (l : Loop) : Bool :=
  e.1 == e.2 && (l.indVar.any fun iv => iv.finalUsable)

/-! ## Blocks as the last loop of `insertProbes` finds them -/

/-- An instruction of the function, or one that the pass has emitted. -/
inductive Inst (α : Type) where
  | own (alloca : Bool) (i : α)
  | emitted (alloca : Bool) (cost : Int)

def Inst.isAlloca {α : Type} : Inst α → Bool
  | .own alloca _ | .emitted alloca _ => alloca

def Inst.cost {α : Type} (cost : α → Int) : Inst α → Int
  | .own _ i => cost i
  | .emitted _ c => c

section Emitted

variable {α : Type} (o : Options)

def Inst.alloca : Inst α := .emitted true 0

/-- A load or a store. -/
def Inst.memOp : Inst α := .emitted false o.memOpsCost

/-- Arithmetic, a comparison, a branch, or the call that reads the cycle counter. -/
def Inst.other : Inst α := .emitted false 1

/-- Before the terminator. -/
def insertAtEnd (new is : List (Inst α)) : List (Inst α) := is.dropLast ++ new ++ is.getLast?.toList

/-- `SetInsertPointPastAllocas`, by hand. -/
def insertPastAllocas (new is : List (Inst α)) : List (Inst α) :=
  is.takeWhile Inst.isAlloca ++ new ++ is.dropWhile Inst.isAlloca

/-- `insertCycleProbe` at the end of a block: the time, the last time, their difference, the
threshold, the comparison and the branch. -/
def cycleProbe : List (Inst α) := [.other, .memOp o, .other, .memOp o, .other, .other]

/-- The range and its comparison, which are folded if they are constant. -/
def IndVar.shortLoopTest (iv : IndVar) : List (Inst α) :=
  if iv.initial.isSome ∧ iv.finalConst then [] else [.other, .other]

/-- The first threshold, from the residual steps if there are any. -/
def IndVar.initThreshold (iv : IndVar) (nested : Bool) : List (Inst α) :=
  match iv.initial, nested with
  | _, true => [.memOp o, .other, .memOp o]
  | some _, false => [.memOp o]
  | none, false => [.other, .memOp o]

variable (f : Func) (pr : Probes) (loops : Block × Block → Loop)

/-- The back edges with a loop probe. They are walked in the order of the blocks here, and by
address in the pass. -/
def loopEdges : List (Block × Block) := (edges f).dedup.filter fun e => pr.HasLoopProbe e

/-- What `cloneSelfLoopOnCondition` adds to block `b`. A probe between the preheader and the self
loop takes the test away from the preheader. -/
def cloneSelfLoopCode (b : Block) (e : Block × Block) (is : List (Inst α)) : List (Inst α) :=
  match (loops e).indVar with
  | none => is
  | some iv =>
    let is :=
      if (loops e).isNested ∧ b = f.entry then insertPastAllocas [.alloca, .memOp o] is else is
    if b = (loops e).preheader ∧ pr.plan.inst (b, e.2) ≠ .normInst then
      insertAtEnd iv.shortLoopTest is
    else is

/-- What `insertLoopProbe` adds to block `b`. -/
def insertLoopCode (b : Block) (e : Block × Block) (is : List (Inst α)) : List (Inst α) :=
  let l := loops e
  match l.indVar with
  | none =>
    let clear := if l.countsFromEntry then [.memOp o] else []
    let is := if b = f.entry then insertPastAllocas (.alloca :: clear) is else is
    if b = l.preheader ∧ ¬ l.countsFromEntry then insertAtEnd [.memOp o] is else is
  | some iv =>
    let residual := if l.isNested then [.alloca, .memOp o] else []
    let is := if b = f.entry then insertPastAllocas (.alloca :: residual) is else is
    let is := if b = l.preheader then insertAtEnd (iv.initThreshold o l.isNested) is else is
    if l.isNested ∧ e.1 ≠ e.2 then
      (l.exitBlocks.filter (· = b)).foldl (fun is _ => insertAtEnd [.memOp o, .other, .memOp o] is)
        is
    else is

/-- Block `b` with the code of the loop probe of `e`. -/
def insertLoopAt (b : Block) (is : List (Inst α)) (e : Block × Block) : List (Inst α) :=
  insertLoopCode o f loops b e
    (if cloneable e (loops e) then cloneSelfLoopCode o f pr loops b e is else is)

/-- Block `b` when the last loop comes to it, where `own` are its instructions in the function. The
probe of an instrumented block has split off the terminator. -/
def blockNow (b : Block) (own : List α) : List (Inst α) :=
  let is := own.zipIdx.map fun x => .own (decide (b = f.entry ∧ x.2 < f.allocas)) x.1
  let is := if b ∈ pr.plan.instrumentedBB then is.dropLast ++ cycleProbe o else is
  (loopEdges f pr).foldl (insertLoopAt o f pr loops b) is

/-- The block with the probes of the last loop. -/
def markedBlock (cost : α → Int) (b : Block) (own : List α) : List (Bool × Inst α) :=
  let is := blockNow o f pr loops b own
  if pr.plan.costMap b ≤ 0 ∧ pr.plan.costMap b ≠ -1 then
    instructionsToProbe (Inst.cost cost) o.commitInterval 0 is
  else is.map fun i => (false, i)

end Emitted

/-! ## The code of a block -/

inductive Code (α : Type) where
  | inst (i : α)
  | check
  deriving DecidableEq, Repr

/-- Emitted instructions do not count. -/
def Inst.code {α : Type} (probed : Bool) : Inst α → List (Code α)
  | .own _ i => if probed then [.check, .inst i] else [.inst i]
  | .emitted _ _ => if probed then [.check] else []

def Code.event {α : Type} (cost : α → Int) : Code α → Event
  | .inst i => .cost (cost i)
  | .check => .check

section Block

variable {α : Type} (o : Options) (f : Func) (pr : Probes) (loops : Block × Block → Loop)

/-- A block as it runs. The terminator of an instrumented block comes behind its probe. -/
def codeOf (cost : α → Int) (b : Block) (own : List α) : List (Code α) :=
  let code := (markedBlock o f pr loops cost b own).flatMap fun x => x.2.code x.1
  if b ∈ pr.plan.instrumentedBB then code ++ .check :: own.getLast?.toList.map .inst else code

def blockCode (b : Block) : List Event :=
  (codeOf o f pr loops id b (f.costs b)).map (Code.event id)

end Block

/-! ## The slots of a loop probe -/

/-- The stack slots of a loop probe, and the values of its loop that the probe reads. -/
structure Slots where
  loopIterations : Int
  loopThreshold : Int
  residualSteps : Int
  sumLoopVal : Int
  indVar : Int
  finalValue : Int
  valRange : Int
  deriving DecidableEq, Repr

/-- `getConstInteger`, for the `int` it gets. -/
def IndVar.const (iv : IndVar) (x : Int) : Int := iv.width.wrap (int32 x)

/-- `NumIters * StepValue`, where `StepValue` is the step as an `int`. -/
def IndVar.steps (iv : IndVar) (n : Int) : Int := int32 (n * int32 iv.step)

/-- The initial value at an entry of the loop. -/
def IndVar.init (iv : IndVar) (init : Int) : Int := iv.width.wrap (iv.initial.getD init)

/-- The slots after the code in the entry block. A slot that is set later starts at 0 here. -/
def atEntry (n : Int) (l : Loop) : Slots where
  loopIterations := 0
  loopThreshold := 0
  residualSteps := match l.indVar with
    | none => 0
    | some iv => iv.const (iv.steps n)
  sumLoopVal := 0
  indVar := 0
  finalValue := 0
  valRange := 0

/-- The initialisation in the preheader, for the threshold of an induction variable. -/
def IndVar.threshold (iv : IndVar) (n : Int) (nested : Bool) (residualSteps init : Int) : Int :=
  match iv.initial, nested with
  | some c, true => iv.width.wrap (residualSteps + iv.const (int32 c))
  | some c, false => iv.const (int32 (int32 c + iv.steps n))
  | none, true => iv.width.wrap (residualSteps + iv.init init)
  | none, false => iv.width.wrap (iv.init init + iv.const (iv.steps n))

/-- The end of the preheader. -/
def atPreheader (n : Int) (l : Loop) (init final : Int) (s : Slots) : Slots :=
  match l.indVar with
  | none => if l.countsFromEntry then s else { s with loopIterations := 0 }
  | some iv =>
    { s with
      loopThreshold := iv.threshold n l.isNested s.residualSteps init
      indVar := iv.init init
      finalValue := iv.width.wrap final
      valRange := iv.width.wrap (iv.width.wrap final - iv.init init) }

/-- The code on the back edge, and whether it runs into the check. -/
def atBackEdge (n : Int) (l : Loop) (s : Slots) : Slots × Bool :=
  match l.indVar with
  | none =>
    let inc := int32 (s.loopIterations + 1)
    if inc = n then ({ s with loopIterations := 0 }, true)
    else ({ s with loopIterations := inc }, false)
  | some iv =>
    let stepped := iv.width.wrap (s.indVar + iv.step)
    if stepped = s.loopThreshold then
      ({ s with
        loopThreshold := iv.width.wrap (s.loopThreshold + iv.const (iv.steps n))
        indVar := stepped }, true)
    else ({ s with indVar := stepped }, false)

/-- The end of an exit block: only loops of several blocks keep the rest for the next entry. -/
def atExitBlock (e : Block × Block) (l : Loop) (s : Slots) : Slots :=
  match l.indVar with
  | none => s
  | some iv =>
    if l.isNested ∧ e.1 ≠ e.2 then
      { s with residualSteps := iv.width.wrap (s.loopThreshold - s.indVar) }
    else s

/-- The copied self loop is taken for short ranges. -/
def IndVar.short (iv : IndVar) (n valRange : Int) : Bool :=
  if 0 < int32 iv.step then valRange ≤ iv.const (iv.steps n) else iv.const (iv.steps n) ≤ valRange

/-- The ranges of short stays make a full interval. -/
def IndVar.full (iv : IndVar) (n total : Int) : Bool :=
  if 0 < int32 iv.step then iv.const (iv.steps n) ≤ total else total ≤ iv.const (iv.steps n)

/-- The code on the exit edge of the copy, and whether it runs into the check. -/
def atCloneExit (n : Int) (l : Loop) (s : Slots) : Slots × Bool :=
  match l.indVar with
  | none => (s, false)
  | some iv =>
    if l.isNested then
      let total := iv.width.wrap (s.sumLoopVal + s.valRange)
      if iv.full n total then ({ s with sumLoopVal := 0 }, true)
      else ({ s with sumLoopVal := total }, false)
    else (s, false)

/-- The back edge of the copy. -/
def atCloneLatch (l : Loop) (s : Slots) : Slots :=
  match l.indVar with
  | none => s
  | some iv => { s with indVar := iv.width.wrap (s.indVar + iv.step) }

/-! ## Execution -/

/-- `clone` says that the execution is in the copy of the self loop `cur`. -/
structure State where
  cur : Block
  clone : Bool
  slots : Block × Block → Slots
  meter : Meter

/-- The next block, which of the parallel edges leads there, and the values of the induction
variable if the block is a preheader. -/
structure Choice where
  next : Block
  nth : Nat
  init : Int
  final : Int

section Exec

variable (o : Options) (f : Func) (pr : Probes) (loops : Block × Block → Loop)

def State.check (s : State) : State := { s with meter := s.meter.event .check }

def State.setSlots (s : State) (e : Block × Block) (r : Slots × Bool) : State :=
  let s := { s with slots := Function.update s.slots e r.1 }
  if r.2 then s.check else s

/-- The self loop of the block, if it has a copy. -/
def hasClone (b : Block) : Prop := pr.HasLoopProbe (b, b) ∧ cloneable (b, b) (loops (b, b)) = true

instance (b : Block) : Decidable (hasClone pr loops b) := inferInstanceAs (Decidable (_ ∧ _))

/-- The comparison at the latch of a self loop with a copy allows to go there. -/
def allows (s : State) (next : Block) : Prop :=
  match (loops (s.cur, s.cur)).indVar with
  | none => True
  | some iv =>
    hasClone pr loops s.cur →
      (next = s.cur ↔ iv.latch (s.slots (s.cur, s.cur)).indVar (s.slots (s.cur, s.cur)).finalValue)

instance (s : State) (next : Block) : Decidable (allows pr loops s next) := by
  unfold allows
  split <;> infer_instance

/-- The code on the first edge to `next`. -/
def cross (s : State) (next : Block) : State :=
  let e := (s.cur, next)
  if s.clone then
    if next = s.cur then s.setSlots e (atCloneLatch (loops e) (s.slots e), false)
    else
      let self := (s.cur, s.cur)
      let s := s.setSlots self (atCloneExit (pr.numIters self) (loops self) (s.slots self))
      if pr.plan.inst e = .normInst then s.check else s
  else if pr.HasLoopProbe e then
    s.setSlots e (atBackEdge (pr.numIters e) (loops e) (s.slots e))
  else if pr.plan.inst e = .normInst then s.check
  else s

/-- Another edge to `next` has no probe. In a copy it is the exit, even if it leads back to the
self loop. -/
def crossParallel (s : State) (next : Block) : State :=
  let e := (s.cur, next)
  let self := (s.cur, s.cur)
  let s := if s.clone then
      s.setSlots self (atCloneExit (pr.numIters self) (loops self) (s.slots self))
    else s
  if pr.HasLoopProbe e then s.setSlots e (atCloneLatch (loops e) (s.slots e), false) else s

def crossEdge (s : State) (c : Choice) : State :=
  if c.nth = 0 then cross pr loops s c.next else crossParallel pr loops s c.next

/-- What the end of block `b` does to the slots of a loop. -/
def atBlockEnd (e : Block × Block) (b : Block) (init final : Int) (s : Slots) : Slots :=
  let s := if b = (loops e).preheader then atPreheader (pr.numIters e) (loops e) init final s else s
  if b ∈ (loops e).exitBlocks then atExitBlock e (loops e) s else s

/-- Coming to the self loop `b` from its preheader, whether to take the copy. -/
def entersClone (s : State) (b : Block) : Prop :=
  match (loops (b, b)).indVar with
  | none => False
  | some iv => hasClone pr loops b ∧
      iv.short (pr.numIters (b, b)) (s.slots (b, b)).valRange = true

instance (s : State) (b : Block) : Decidable (entersClone pr loops s b) := by
  unfold entersClone
  split <;> infer_instance

def visit (s : State) (c : Choice) : State where
  cur := c.next
  clone :=
    if c.next = s.cur then s.clone && decide (c.nth = 0)
    else decide (entersClone pr loops s c.next)
  slots := fun e =>
    if pr.HasLoopProbe e then atBlockEnd pr loops e c.next c.init c.final (s.slots e) else s.slots e
  meter := s.meter.events (blockCode o f pr loops c.next)

def step (s : State) (c : Choice) : Option State :=
  if c.nth < (f.succs s.cur).count c.next ∧ allows pr loops s c.next then
    some (visit o f pr loops (crossEdge pr loops s c) c)
  else none

/-- The state at the end of the entry block. -/
def start (init final : Int) : State where
  cur := f.entry
  clone := false
  slots := fun e =>
    if pr.HasLoopProbe e then
      atBlockEnd pr loops e f.entry init final (atEntry (pr.numIters e) (loops e))
    else atEntry (pr.numIters e) (loops e)
  meter := (⟨0, 0⟩ : Meter).events (blockCode o f pr loops f.entry)

end Exec

end TinyQuanta.Instrumented
