import TinyQuanta.CloneEdit
import TinyQuanta.InsertProbes
import TinyQuanta.Params

/-!
# Inserting the probes

The last stage of the pass on functions in SSA form: a check of the cycle counter on an
edge, in a block or before an instruction, the counters and thresholds of loops, and the
clones of self loops. Where the probes go and what is known of the loops is given. The
blocks and values that are made get the next number, and a word for what they are.
-/
namespace TinyQuanta.ProbeInsertion

open Params Ssa CfgRewrite CodeEdits CloneEdit
open InsertProbes (instructionsToProbe)

/-! ## What is emitted -/

/-- Values by the names that the pass gives them. -/
inductive Temp where
  | nextThreshold
  | inc
  | currCycle
  | lastCycle
  | elapsedCycles
  | targetInCycle
  | commit
  | newCycle
  | loopIterations
  | currResidualSteps
  | currThreshold
  | finalThreshold
  | remainingSteps
  | valRange
  | shortLoopCond
  | currSumLoopVal
  | total
  | shortLoopInstCond
  deriving DecidableEq

inductive NewName (Name : Type) where
  | old (x : Name)
  | new (k : ℕ) (t : Temp)
  | cloned (k : ℕ) (y : NewName Name)
  deriving DecidableEq

inductive Part where
  | splittedEdge
  | pushBlock
  | postInstrumentation
  | loopEdge
  | loopThen
  | postLoop
  | clonedSelfLoop
  | splittedClonedSelfLoopEdge
  | sumThen
  | postClonedSelfLoop
  deriving DecidableEq

inductive NewLabel (Label : Type) where
  | old (l : Label)
  | new (k : ℕ) (p : Part)
  deriving DecidableEq

/-- The globals that the probes use, and the variables of the loops. -/
inductive Slot where
  | lastCycleTS
  | ciCyclesThreshold
  | loopVariable (k : ℕ)
  | loopThreshold (k : ℕ)
  | residualSteps (k : ℕ)
  | sumLoopVal (k : ℕ)
  deriving DecidableEq

inductive Emit where
  | load (s : Slot)
  | store (s : Slot)
  | add
  | sub
  | icmpEQ
  | icmpSGT
  | icmpSLE
  | icmpSGE
  | readcyclecounter
  | hook

variable {Op Name Label Val World Aux : Type}

/-- The arithmetic of the emitted instructions, the cycle counter, what the hook does, and what
becomes of the probes' variables and the counter while the program's own instructions run. -/
structure Runtime (Op Val World Aux : Type) where
  add : Val → Val → Val
  sub : Val → Val → Val
  eq : Val → Val → Val
  sgt : Val → Val → Val
  sle : Val → Val → Val
  sge : Val → Val → Val
  now : Aux → Val × Aux
  hook : Val → World × ((Slot → Val) × Aux) → World × ((Slot → Val) × Aux)
  ran : Op → List Val → World → (Slot → Val) × Aux → (Slot → Val) × Aux

/-- The value of a store or of a call is not used. -/
def probed (sem : Sem Op Val World) (r : Runtime Op Val World Aux) :
    Sem (Op ⊕ Emit) Val (World × ((Slot → Val) × Aux)) where
  exec
    | .inl op, args, (w, e) => (sem.exec op args w).map fun v => (v.1, (v.2, r.ran op args w e))
    | .inr (.load s), [], (w, (m, a)) => some (m s, (w, (m, a)))
    | .inr (.store s), [v], (w, (m, a)) => some (v, (w, (Function.update m s v, a)))
    | .inr .add, [x, y], s => some (r.add x y, s)
    | .inr .sub, [x, y], s => some (r.sub x y, s)
    | .inr .icmpEQ, [x, y], s => some (r.eq x y, s)
    | .inr .icmpSGT, [x, y], s => some (r.sgt x y, s)
    | .inr .icmpSLE, [x, y], s => some (r.sle x y, s)
    | .inr .icmpSGE, [x, y], s => some (r.sge x y, s)
    | .inr .readcyclecounter, [], (w, (m, a)) => some ((r.now a).1, (w, (m, (r.now a).2)))
    | .inr .hook, [v], s => some (v, r.hook v s)
    | .inr _, _, _ => none
  truth := sem.truth

abbrev NewFunc (Op Name Label Val : Type) := Func (Op ⊕ Emit) (NewName Name) (NewLabel Label) Val

abbrev NewInstr (Op Name Val : Type) := Instr (Op ⊕ Emit) (NewName Name) Val

abbrev NewOperand (Name Val : Type) := Operand (NewName Name) Val

def emit (dst : Option (NewName Name)) (e : Emit) (args : List (NewOperand Name Val)) :
    NewInstr Op Name Val := ⟨dst, .inr e, args⟩

structure Options (Op Val : Type) where
  willUpdateLastCycleTS : Bool
  commitInterval : Int
  int : Int → Val
  isAlloca : Op → Bool

section Emitted

variable (o : Options Op Val) (k : ℕ)

def temp (t : Temp) : NewOperand Name Val := .val (.new k t)

def getConstInteger (x : Int) : NewOperand Name Val := .const (o.int x)

/-- What a probe does before its branch. It can clear a counter, or raise a threshold. -/
def cycleCheck (loopIterations : Option Slot) (loopThreshold : Option (Slot × Int)) :
    List (NewInstr Op Name Val) :=
  (match loopIterations with
    | some s => [emit none (.store s) [getConstInteger o 0]]
    | none => []) ++
  (match loopThreshold with
    | some (s, incrementBy) =>
      [emit (some (.new k .nextThreshold)) (.load s) [],
        emit (some (.new k .inc)) .add [temp k .nextThreshold, getConstInteger o incrementBy],
        emit none (.store s) [temp k .inc]]
    | none => []) ++
  [emit (some (.new k .currCycle)) .readcyclecounter [],
    emit (some (.new k .lastCycle)) (.load .lastCycleTS) [],
    emit (some (.new k .elapsedCycles)) .sub [temp k .currCycle, temp k .lastCycle],
    emit (some (.new k .targetInCycle)) (.load .ciCyclesThreshold) [],
    emit (some (.new k .commit)) .icmpSGT [temp k .elapsedCycles, temp k .targetInCycle]]

/-- A variable of a loop gets its first value. -/
def setSlot (s : Slot) (x : Int) : List (NewInstr Op Name Val) :=
  [emit none (.store s) [getConstInteger o x]]

def pushToMLCfromTLLC : List (NewInstr Op Name Val) :=
  if o.willUpdateLastCycleTS then
    [emit none .hook [temp k .elapsedCycles],
      emit (some (.new k .newCycle)) .readcyclecounter [],
      emit none (.store .lastCycleTS) [temp k .newCycle]]
  else
    [emit none (.store .lastCycleTS) [temp k .currCycle],
      emit none .hook [temp k .elapsedCycles]]

end Emitted

/-! ## Edits -/

/-- The function so far, and the next number. -/
structure Build (Op Name Label Val : Type) where
  func : NewFunc Op Name Label Val
  next : ℕ

/-- The original function. -/
def embed (f : Func Op Name Label Val) : NewFunc Op Name Label Val where
  entry := .old f.entry
  blocks
    | .old l => (f.blocks l).rename .inl .old .old
    | _ => ⟨[], [], .ret none⟩

section Pass

variable [DecidableEq Label] (o : Options Op Val)

/-- Before the terminator. -/
def insertAtEnd (g : NewFunc Op Name Label Val) (b : NewLabel Label)
    (is : List (NewInstr Op Name Val)) : NewFunc Op Name Label Val :=
  insertAt g b (g.blocks b).body.length is

/-- In the entry block, behind the instructions that only allocate. -/
def insertPastAllocas (g : NewFunc Op Name Label Val) (is : List (NewInstr Op Name Val)) :
    NewFunc Op Name Label Val :=
  insertAt g g.entry ((g.blocks g.entry).body.takeWhile fun i =>
    Sum.elim o.isAlloca (fun _ => false) i.op).length is

/-- A probe before the instruction at index `i` of `b`. What is behind it is in
`postInstrumentation`. -/
def insertCycleProbe (s : Build Op Name Label Val) (b : NewLabel Label) (i : ℕ)
    (loopIterations : Option Slot) (loopThreshold : Option (Slot × Int)) :
    Build Op Name Label Val :=
  let check := cycleCheck o s.next loopIterations loopThreshold
  let g := insertAt s.func b i check
  let g := insertIfThenAt g (temp s.next .commit) b (i + check.length) (.new s.next .pushBlock)
    (.new s.next .postInstrumentation)
  ⟨insertAtEnd g (.new s.next .pushBlock) (pushToMLCfromTLLC o s.next), s.next + 1⟩

def splitEdge (s : Build Op Name Label Val) (u v : NewLabel Label) (p : Part) :
    Build Op Name Label Val :=
  ⟨CfgRewrite.splitEdge s.func u v (.new s.next p), s.next + 1⟩

/-- A probe on an edge. -/
def insertEdgeProbe (s : Build Op Name Label Val) (u v : Label) : Build Op Name Label Val :=
  insertCycleProbe o (splitEdge s (.old u) (.old v) .splittedEdge) (.new s.next .splittedEdge) 0
    none none

/-- A probe before the terminator of a block. -/
def insertBlockProbe (s : Build Op Name Label Val) (b : Label) : Build Op Name Label Val :=
  insertCycleProbe o s (.old b) (s.func.blocks (.old b)).body.length none none

/-- A probe that is only reached if `cond` holds, behind the instructions that compute it. -/
def insertProbeIf (s : Build Op Name Label Val) (l : NewLabel Label)
    (is : List (NewInstr Op Name Val)) (cond : NewOperand Name Val) (thenBB post : Part)
    (loopIterations : Option Slot)
    (loopThreshold : Option (Slot × Int)) : Build Op Name Label Val :=
  let g := insertAtEnd s.func l is
  let g := insertIfThenAt g cond l (g.blocks l).body.length (.new s.next thenBB) (.new s.next post)
  insertCycleProbe o ⟨g, s.next + 1⟩ (.new s.next thenBB) 0 loopIterations loopThreshold

/-! ## Loops -/

/-- The initial value also as a number, if it is a constant. The flag says that the initial and the
final value are there at the end of the preheader. -/
structure IndVar (Name Val : Type) where
  initialValue : Operand Name Val
  initialConstValue : Option Int
  stepInst : Name
  stepValue : Int
  indVar : Name
  finalValue : Option (Operand Name Val)
  dominates : Bool

structure LoopInfo (Name Label Val : Type) where
  preheader : Option Label
  isNested : Bool
  exitBlocks : List Label
  indVar : Option (IndVar Name Val)

/-- A loop by its back edge, with the number of iterations between two probes. -/
structure LoopPlan (Name Label Val : Type) extends LoopInfo Name Label Val where
  latch : Label
  header : Label
  numIters : Int

/-- In the preheader, or in the entry block if there is none. -/
def insertAtPreheader (g : NewFunc Op Name Label Val) (preheader : Option Label)
    (is : List (NewInstr Op Name Val)) : NewFunc Op Name Label Val :=
  match preheader with
  | some p => insertAtEnd g (.old p) is
  | none => insertPastAllocas o g is

def countIteration (k : ℕ) (numIters : Int) : List (NewInstr Op Name Val) :=
  [emit (some (.new k .loopIterations)) (.load (.loopVariable k)) [],
    emit (some (.new k .inc)) .add [temp k .loopIterations, getConstInteger o 1],
    emit none (.store (.loopVariable k)) [temp k .inc],
    emit (some (.new k .commit)) .icmpEQ [temp k .inc, getConstInteger o numIters]]

/-- The probe of a loop without an induction variable counts its iterations. -/
def insertCounterProbe (s : Build Op Name Label Val) (l : NewLabel Label) (numIters : Int)
    (info : LoopInfo Name Label Val) : Build Op Name Label Val :=
  let k := s.next
  let g := insertAtPreheader o s.func (if info.isNested then none else info.preheader)
    (setSlot o (.loopVariable k) 0)
  insertProbeIf o ⟨g, k⟩ l (countIteration o k numIters) (temp k .commit) .loopThen .postLoop
    (some (.loopVariable k)) none

/-- The first threshold, in the preheader. -/
def initThreshold (k : ℕ) (isNested : Bool) (numIters : Int) (iv : IndVar Name Val) :
    List (NewInstr Op Name Val) :=
  match iv.initialConstValue, isNested with
  | some c, true =>
    [emit (some (.new k .currResidualSteps)) (.load (.residualSteps k)) [],
      emit (some (.new k .inc)) .add [temp k .currResidualSteps, getConstInteger o c],
      emit none (.store (.loopThreshold k)) [temp k .inc]]
  | some c, false =>
    [emit none (.store (.loopThreshold k))
      [getConstInteger o (int32 (c + numIters * iv.stepValue))]]
  | none, true =>
    [emit (some (.new k .currResidualSteps)) (.load (.residualSteps k)) [],
      emit (some (.new k .inc)) .add [temp k .currResidualSteps, iv.initialValue.rename .old],
      emit none (.store (.loopThreshold k)) [temp k .inc]]
  | none, false =>
    [emit (some (.new k .inc)) .add
        [iv.initialValue.rename .old, getConstInteger o (int32 (numIters * iv.stepValue))],
      emit none (.store (.loopThreshold k)) [temp k .inc]]

/-- What is left of the threshold is kept at an exit. -/
def keepResidualSteps (k : ℕ) (iv : IndVar Name Val) : List (NewInstr Op Name Val) :=
  [emit (some (.new k .finalThreshold)) (.load (.loopThreshold k)) [],
    emit (some (.new k .remainingSteps)) .sub [temp k .finalThreshold, .val (.old iv.indVar)],
    emit none (.store (.residualSteps k)) [temp k .remainingSteps]]

def compareThreshold (k : ℕ) (iv : IndVar Name Val) : List (NewInstr Op Name Val) :=
  [emit (some (.new k .currThreshold)) (.load (.loopThreshold k)) [],
    emit (some (.new k .commit)) .icmpEQ [.val (.old iv.stepInst), temp k .currThreshold]]

/-- The probe of a loop with an induction variable compares it with a threshold. -/
def insertThreshold (s : Build Op Name Label Val) (l : NewLabel Label) (numIters : Int)
    (info : LoopInfo Name Label Val) (iv : IndVar Name Val) : Build Op Name Label Val :=
  let k := s.next
  let steps := int32 (numIters * iv.stepValue)
  let g := if info.isNested then
      insertPastAllocas o s.func (setSlot o (.residualSteps k) steps)
    else s.func
  let g := insertAtPreheader o g info.preheader (initThreshold o k info.isNested numIters iv)
  insertProbeIf o ⟨g, k⟩ l (compareThreshold k iv) (temp k .commit) .loopThen .postLoop none
    (some (.loopThreshold k, steps))

/-- A self loop has no residual steps, it has a clone. -/
def insertThresholdProbe (s : Build Op Name Label Val) (l : NewLabel Label) (numIters : Int)
    (info : LoopInfo Name Label Val) (iv : IndVar Name Val) (selfLoop : Bool) :
    Build Op Name Label Val :=
  let t := insertThreshold o s l numIters info iv
  if info.isNested ∧ ¬ selfLoop then
    ⟨info.exitBlocks.foldl (fun g b => insertAtEnd g (.old b) (keepResidualSteps s.next iv)) t.func,
      t.next⟩
  else t

def insertLoopProbe (s : Build Op Name Label Val) (l : NewLabel Label)
    (p : LoopPlan Name Label Val) : Build Op Name Label Val :=
  match p.indVar with
  | none => insertCounterProbe o s l p.numIters p.toLoopInfo
  | some iv => insertThresholdProbe o s l p.numIters p.toLoopInfo iv (p.latch = p.header)

/-! ## Clones -/

/-- The successor of the clone that is not the clone. The pass asserts that there are two. -/
def exitOf (clone : NewLabel Label) :
    Term (NewName Name) (NewLabel Label) Val → Option (NewLabel Label)
  | .condBr _ ifTrue ifFalse => some (if ifTrue = clone then ifFalse else ifTrue)
  | _ => none

def sumUpdate (k : ℕ) (stepValue steps : Int) : List (NewInstr Op Name Val) :=
  [emit (some (.new k .currSumLoopVal)) (.load (.sumLoopVal k)) [],
    emit (some (.new k .total)) .add [temp k .currSumLoopVal, temp k .valRange],
    emit none (.store (.sumLoopVal k)) [temp k .total],
    emit (some (.new k .shortLoopInstCond)) (if 0 < stepValue then .icmpSGE else .icmpSLE)
      [temp k .total, getConstInteger o steps]]

/-- The sum of the ranges, and a probe if it is large, on the edge from the clone to the exit. -/
def insertSumProbe (s : Build Op Name Label Val) (k : ℕ) (exitBB : NewLabel Label)
    (stepValue steps : Int) : Build Op Name Label Val :=
  insertProbeIf o (splitEdge s (.new k .clonedSelfLoop) exitBB .splittedClonedSelfLoopEdge)
    (.new s.next .splittedClonedSelfLoopEdge) (sumUpdate o k stepValue steps)
    (temp k .shortLoopInstCond) .sumThen .postClonedSelfLoop (some (.sumLoopVal k)) none

/-- Whether the loop is so short that its clone can be taken. -/
def shortLoopTest (k : ℕ) (initialValue finalValue : Operand Name Val) (stepValue steps : Int) :
    List (NewInstr Op Name Val) :=
  [emit (some (.new k .valRange)) .sub [finalValue.rename .old, initialValue.rename .old],
    emit (some (.new k .shortLoopCond)) (if 0 < stepValue then .icmpSLE else .icmpSGE)
      [temp k .valRange, getConstInteger o steps]]

variable [DecidableEq Name]

/-- The clone of `bb`, with the branch at the end of `instBB`. -/
def insertClone (s : Build Op Name Label Val) (instBB : NewLabel Label) (bb : Label)
    (isNested : Bool) (initialValue finalValue : Operand Name Val) (stepValue steps : Int) :
    Build Op Name Label Val :=
  let k := s.next
  let g := if isNested then insertPastAllocas o s.func (setSlot o (.sumLoopVal k) 0) else s.func
  let g := insertAtEnd g instBB (shortLoopTest o k initialValue finalValue stepValue steps)
  ⟨cloneOn g instBB (.old bb) (.new k .clonedSelfLoop) (.cloned k) (temp k .shortLoopCond), k + 1⟩

def cloneSelfLoopOnCondition (s : Build Op Name Label Val) (instBB : NewLabel Label) (bb : Label)
    (isNested : Bool) (numIters : Int) (iv : IndVar Name Val) (finalValue : Operand Name Val) :
    Build Op Name Label Val :=
  let k := s.next
  let steps := int32 (numIters * iv.stepValue)
  let s := insertClone o s instBB bb isNested iv.initialValue finalValue iv.stepValue steps
  match isNested, exitOf (.new k .clonedSelfLoop) (s.func.blocks (.new k .clonedSelfLoop)).term with
  | true, some exitBB => insertSumProbe o s k exitBB iv.stepValue steps
  | _, _ => s

/-! ## The whole stage -/

/-- Blocks that have come between a preheader and a self loop. -/
abbrev UpdatePreheaderMap (Label : Type) := Label × Label → Option (NewLabel Label)

/-- Where the probes go. -/
structure Plan (Op Name Label Val : Type) where
  edges : List (Label × Label)
  blocks : List Label
  loops : List (LoopPlan Name Label Val)
  metered : List Label

/-- A probe on an edge can stand between a preheader and its self loop. -/
def insertNormProbe (isPreheader : Label → Label → Bool)
    (s : Build Op Name Label Val × UpdatePreheaderMap Label) (e : Label × Label) :
    Build Op Name Label Val × UpdatePreheaderMap Label :=
  (insertEdgeProbe o s.1 e.1 e.2,
    if isPreheader e.1 e.2 then
      Function.update s.2 e (some (.new (s.1.next + 1) .postInstrumentation))
    else s.2)

/-- What the clone of a self loop is made from, if it is to have one. -/
def decideSelfLoopCloneable (p : LoopPlan Name Label Val) :
    Option (Label × IndVar Name Val × Operand Name Val) := do
  let pre ← p.preheader
  let iv ← p.indVar
  let finalValue ← iv.finalValue
  if p.latch = p.header ∧ iv.dominates then some (pre, iv, finalValue) else none

def insertCloneOf (updated : UpdatePreheaderMap Label) (s : Build Op Name Label Val)
    (p : LoopPlan Name Label Val) : Build Op Name Label Val :=
  match decideSelfLoopCloneable p with
  | some (pre, iv, finalValue) =>
    cloneSelfLoopOnCondition o s ((updated (pre, p.header)).getD (.old pre)) p.header p.isNested
      p.numIters iv finalValue
  | none => s

def insertLoop (updated : UpdatePreheaderMap Label) (s : Build Op Name Label Val)
    (p : LoopPlan Name Label Val) : Build Op Name Label Val :=
  let s := insertCloneOf o updated s p
  insertLoopProbe o (splitEdge s (.old p.latch) (.old p.header) .loopEdge) (.new s.next .loopEdge) p

/-- The places of the instructions that get a probe before them. -/
def probePoints (commitInterval : Int) (costs : List Int) : List ℕ :=
  (instructionsToProbe id commitInterval 0 costs).zipIdx.filterMap fun x =>
    if x.1.1 then some x.2 else none

/-- A probe for each point. The block behind a probe starts at its point. -/
def insertProbesAt (s : Build Op Name Label Val) (b : NewLabel Label) (start : ℕ) :
    List ℕ → Build Op Name Label Val
  | [] => s
  | i :: is =>
    insertProbesAt (insertCycleProbe o s b (i - start) none none)
      (.new s.next .postInstrumentation) i is

/-- The terminator has a cost, too. -/
def insertMeterProbes (cost : NewInstr Op Name Val → Int)
    (termCost : Term (NewName Name) (NewLabel Label) Val → Int)
    (s : Build Op Name Label Val) (b : Label) : Build Op Name Label Val :=
  let blk := s.func.blocks (.old b)
  insertProbesAt o s (.old b) 0
    (probePoints o.commitInterval (blk.body.map cost ++ [termCost blk.term]))

def insertProbes (cost : NewInstr Op Name Val → Int)
    (termCost : Term (NewName Name) (NewLabel Label) Val → Int)
    (isPreheader : Label → Label → Bool) (p : Plan Op Name Label Val) (f : Func Op Name Label Val) :
    NewFunc Op Name Label Val :=
  let s := p.edges.foldl (insertNormProbe o isPreheader) (⟨embed f, 0⟩, fun _ => none)
  let b := p.blocks.foldl (insertBlockProbe o) s.1
  let b := p.loops.foldl (insertLoop o s.2) b
  (p.metered.foldl (insertMeterProbes o cost termCost) b).func

end Pass

end TinyQuanta.ProbeInsertion
