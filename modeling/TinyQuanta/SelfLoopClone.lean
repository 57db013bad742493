import TinyQuanta.CfgRewrite
import TinyQuanta.Instrumented
import TinyQuanta.LoopCopy

/-!
# Cloning a self loop

`cloneSelfLoopOnCondition` on functions in SSA form. The rewritten function has the
values and blocks of the original under their own names, the clones, and those the
pass adds. Its instructions are the original ones and the few that the pass emits;
these work on the slot `SumLoopVal` and call the hook. The pass's own arithmetic is
that of the type of the final value and can be anything here.
-/
namespace TinyQuanta.SelfLoopClone

open Params Ssa LoopCopy CfgRewrite

inductive NewName (Name : Type) where
  | old (x : Name)
  | cloned (x : Name)
  | valRange
  | shortLoopCond
  | currSumLoopVal
  | total
  | shortLoopInstCond
  | commit
  deriving DecidableEq

inductive NewLabel (Label : Type) where
  | old (l : Label)
  | clonedSelfLoop
  | splitted
  | thenBB
  | commitBB
  | postInstrumentation
  | postClonedSelfLoop
  deriving DecidableEq

theorem NewName.old_injective {Name : Type} :
    Function.Injective (NewName.old : Name → NewName Name) :=
  fun _ _ h => NewName.old.inj h

theorem NewLabel.old_injective {Label : Type} :
    Function.Injective (NewLabel.old : Label → NewLabel Label) :=
  fun _ _ h => NewLabel.old.inj h

inductive Emit where
  | sub
  | add
  | icmpSLE
  | icmpSGE
  | load
  | store
  | commit
  | hook

structure Arith (Val : Type) where
  sub : Val → Val → Val
  add : Val → Val → Val
  sle : Val → Val → Val
  sge : Val → Val → Val
  int : Int → Val

/-- Whether more cycles than the threshold have gone by, and the call of the hook with the new
time stamp. -/
structure Probe (Val World : Type) where
  commit : World → Val
  hook : World → World

variable {Op Name Label Val World : Type}

/-- The second part of the world is the slot. The value of a store or a call is not used. -/
def instrumented (sem : Sem Op Val World) (a : Arith Val) (p : Probe Val World) :
    Sem (Op ⊕ Emit) Val (World × Val) where
  exec
    | .inl op, args, (w, slot) => (sem.exec op args w).map fun r => (r.1, (r.2, slot))
    | .inr .sub, [x, y], s => some (a.sub x y, s)
    | .inr .add, [x, y], s => some (a.add x y, s)
    | .inr .icmpSLE, [x, y], s => some (a.sle x y, s)
    | .inr .icmpSGE, [x, y], s => some (a.sge x y, s)
    | .inr .load, [], (w, slot) => some (slot, (w, slot))
    | .inr .store, [v], (w, _) => some (v, (w, v))
    | .inr .commit, [], (w, slot) => some (p.commit w, (w, slot))
    | .inr .hook, [], (w, slot) => some (slot, (p.hook w, slot))
    | .inr _, _, _ => none
  truth := sem.truth

abbrev NewFunc (Op Name Label Val : Type) := Func (Op ⊕ Emit) (NewName Name) (NewLabel Label) Val

abbrev NewInstr (Op Name Val : Type) := Instr (Op ⊕ Emit) (NewName Name) Val

def emit (dst : Option (NewName Name)) (e : Emit) (args : List (Operand (NewName Name) Val)) :
    NewInstr Op Name Val := ⟨dst, .inr e, args⟩

/-- The original function; there is nothing in the new blocks yet. -/
def embed (f : Func Op Name Label Val) : NewFunc Op Name Label Val where
  entry := .old f.entry
  blocks
    | .old l => (f.blocks l).rename .inl .old .old
    | _ => ⟨[], [], .ret none⟩

/-! ## The pass -/

section Clone

variable [DecidableEq Name] [DecidableEq Label]

/-- The values of the block are mapped to those of the clone, others to themselves. -/
def getClonedValue (b : Block Op Name Label Val) (fresh : Name → Name) (x : Name) : Name :=
  if x ∈ b.defs then fresh x else x

/-- The clone of `bb` is the block `clone`, with `fresh` for the names. -/
def cloneSelfLoop (g : Func Op Name Label Val) (bb clone : Label) (fresh : Name → Name) :
    Func Op Name Label Val :=
  let b := g.blocks bb
  let map := getClonedValue b fresh
  let copy := b.rename id map id
  let g := mapPhis g (b.term.succs.filter (· ≠ bb)) fun p =>
    match p.incomingFor bb with
    | some oldIncoming => addIncoming (oldIncoming.rename map) clone p
    | none => p
  setBlock g clone
    ⟨copy.phis.map (setIncomingBlock bb clone), copy.body, setSuccessor bb clone copy.term⟩

end Clone

/-- What the pass knows of the loop. -/
structure Bounds (Name Val : Type) where
  initialValue : Operand Name Val
  finalValue : Operand Name Val
  stepValue : Int
  numIters : Int
  isNested : Bool

section Pass

variable (a : Arith Val) (c : Bounds Name Val)

def getConstInteger (x : Int) : Operand (NewName Name) Val := .const (a.int x)

def limit : Operand (NewName Name) Val := getConstInteger a (int32 (c.numIters * c.stepValue))

/-- The two instructions at the end of the preheader. -/
def preheaderTest : List (NewInstr Op Name Val) :=
  [emit (some .valRange) .sub [c.finalValue.rename .old, c.initialValue.rename .old],
    emit (some .shortLoopCond) (if 0 < c.stepValue then .icmpSLE else .icmpSGE)
      [.val .valRange, limit a c]]

/-- What is done behind the clone of a nested loop. -/
def sumUpdate : List (NewInstr Op Name Val) :=
  [emit (some .currSumLoopVal) .load [],
    emit (some .total) .add [.val .currSumLoopVal, .val .valRange],
    emit none .store [.val .total],
    emit (some .shortLoopInstCond) (if 0 < c.stepValue then .icmpSGE else .icmpSLE)
      [.val .total, limit a c]]

def resetSlot : NewInstr Op Name Val := emit none .store [getConstInteger a 0]

variable [DecidableEq Label]

/-- `SumLoopVal` is cleared in the entry block, behind the instructions that only allocate. -/
def clearInEntry (isAlloca : Op → Bool) (g : NewFunc Op Name Label Val) :
    NewFunc Op Name Label Val :=
  let b := g.blocks g.entry
  let skip (i : NewInstr Op Name Val) := Sum.elim isAlloca (fun _ => false) i.op
  setBlock g g.entry { b with
    body := b.body.takeWhile skip ++ resetSlot a :: b.body.dropWhile skip }

/-- The probe at the end of `b`, which clears the slot. -/
def insertCycleProbe (g : NewFunc Op Name Label Val) (b : NewLabel Label) :
    NewFunc Op Name Label Val :=
  let g := append g b [resetSlot a, emit (some .commit) .commit []]
  let g := splitBlockAndInsertIfThen g (.val .commit) b .commitBB .postInstrumentation
  append g .commitBB [emit none .hook []]

/-- The successor of the clone that is not the clone. The pass asserts that there are two. -/
def exitOf (clone : NewLabel Label) :
    Term (NewName Name) (NewLabel Label) Val → Option (NewLabel Label)
  | .condBr _ ifTrue ifFalse => some (if ifTrue = clone then ifFalse else ifTrue)
  | _ => none

/-- The sum of the ranges and the probe, on the edge from the clone to the exit. -/
def insertSumProbe (g : NewFunc Op Name Label Val) (exitBB : NewLabel Label) :
    NewFunc Op Name Label Val :=
  let g := append (splitEdge g .clonedSelfLoop exitBB .splitted) .splitted (sumUpdate a c)
  let g := splitBlockAndInsertIfThen g (.val .shortLoopInstCond) .splitted .thenBB
    .postClonedSelfLoop
  insertCycleProbe a g .thenBB

/-- The name of the clone of a value. -/
def fresh : NewName Name → NewName Name
  | .old x => .cloned x
  | y => y

variable [DecidableEq Name]

/-- The clone, with the branch at the end of `instBB` that leads to it or to the loop. -/
def insertClone (isAlloca : Op → Bool) (f : Func Op Name Label Val) (instBB bb : Label) :
    NewFunc Op Name Label Val :=
  let g := if c.isNested then clearInEntry a isAlloca (embed f) else embed f
  let g := append g (.old instBB) (preheaderTest a c)
  let g := cloneSelfLoop g (.old bb) .clonedSelfLoop fresh
  setTerm g (.old instBB) (.condBr (.val .shortLoopCond) .clonedSelfLoop (.old bb))

def cloneSelfLoopOnCondition (isAlloca : Op → Bool) (f : Func Op Name Label Val)
    (instBB bb : Label) : NewFunc Op Name Label Val :=
  let g := insertClone a c isAlloca f instBB bb
  match c.isNested, exitOf .clonedSelfLoop (g.blocks .clonedSelfLoop).term with
  | true, some exitBB => insertSumProbe a c g exitBB
  | _, _ => g

end Pass

/-! ## The code outside the loop -/

section Runs

variable [DecidableEq Name] {a : Arith Val} {c : Bounds Name Val} {sem : Sem Op Val World}
  {p : Probe Val World} (env : NewName Name → Val) (w : World) (slot : Val)

theorem run_preheaderTest {r : Val}
    (hr : a.sub ((c.finalValue.rename .old).eval env) ((c.initialValue.rename .old).eval env) = r) :
    runBody (instrumented sem a p) (preheaderTest a c) env (w, slot) =
      some (Function.update (Function.update env .valRange r) .shortLoopCond
        (if 0 < c.stepValue then a.sle r ((limit a c).eval env)
          else a.sge r ((limit a c).eval env)), (w, slot)) := by
  subst hr
  unfold preheaderTest
  by_cases h : 0 < c.stepValue
  · rw [if_pos h, if_pos h]
    rfl
  · rw [if_neg h, if_neg h]
    rfl

theorem run_sumUpdate {t : Val} (ht : a.add slot (env .valRange) = t) :
    runBody (instrumented sem a p) (sumUpdate a c) env (w, slot) =
      some (Function.update (Function.update (Function.update env .currSumLoopVal slot) .total t)
        .shortLoopInstCond
        (if 0 < c.stepValue then a.sge t ((limit a c).eval env)
          else a.sle t ((limit a c).eval env)), (w, t)) := by
  subst ht
  unfold sumUpdate
  by_cases h : 0 < c.stepValue
  · rw [if_pos h, if_pos h]
    rfl
  · rw [if_neg h, if_neg h]
    rfl

end Runs

/-! ## The arithmetic of an induction variable -/

section Width

open Instrumented

variable {iv : IndVar} {n : Int} {sem : Sem Op Int World} {p : Probe Int World}
  {c : Bounds Name Int}

def arith (iv : IndVar) : Arith Int where
  sub x y := iv.width.wrap (x - y)
  add x y := iv.width.wrap (x + y)
  sle x y := if x ≤ y then 1 else 0
  sge x y := if y ≤ x then 1 else 0
  int := iv.const

/-- The step and the number of iterations are those of the loop. -/
structure BoundsOf (iv : IndVar) (n : Int) (c : Bounds Name Int) : Prop where
  stepValue : c.stepValue = int32 iv.step
  numIters : c.numIters = n

theorem BoundsOf.limit_eq (h : BoundsOf iv n c) :
    limit (arith iv) c = .const (iv.const (iv.steps n)) := by
  unfold limit getConstInteger IndVar.steps
  rw [h.stepValue, h.numIters]
  rfl

theorem truth_bit (htruth : ∀ v, sem.truth v = decide (v ≠ 0)) (P : Prop) [Decidable P] :
    sem.truth (if P then 1 else 0) = decide P := by
  rw [htruth]
  by_cases h : P <;> simp [h]

variable [DecidableEq Name]

/-- The test in the preheader takes the clone for the ranges that are `short`. -/
theorem preheaderTest_short (h : BoundsOf iv n c) (htruth : ∀ v, sem.truth v = decide (v ≠ 0))
    (env : NewName Name → Int) (w : World) (slot : Int) :
    ∃ env', runBody (instrumented sem (arith iv) p) (preheaderTest (arith iv) c) env (w, slot) =
        some (env', (w, slot)) ∧
      env' .valRange = iv.width.wrap
        ((c.finalValue.rename .old).eval env - (c.initialValue.rename .old).eval env) ∧
      sem.truth (env' .shortLoopCond) = iv.short n (env' .valRange) := by
  refine ⟨_, run_preheaderTest env w slot rfl, rfl, ?_⟩
  rw [Function.update_self, h.limit_eq, h.stepValue]
  unfold IndVar.short
  by_cases hs : 0 < int32 iv.step
  · rw [if_pos hs, if_pos hs]
    exact truth_bit htruth _
  · rw [if_neg hs, if_neg hs]
    exact truth_bit htruth _

/-- The sum that is compared behind the clone leads to a check if it is `full`. -/
theorem sumUpdate_full (h : BoundsOf iv n c) (htruth : ∀ v, sem.truth v = decide (v ≠ 0))
    (env : NewName Name → Int) (w : World) (slot : Int) :
    ∃ env', runBody (instrumented sem (arith iv) p) (sumUpdate (arith iv) c) env (w, slot) =
        some (env', (w, iv.width.wrap (slot + env .valRange))) ∧
      sem.truth (env' .shortLoopInstCond) = iv.full n (iv.width.wrap (slot + env .valRange)) := by
  refine ⟨_, run_sumUpdate env w slot rfl, ?_⟩
  rw [Function.update_self, h.limit_eq, h.stepValue]
  unfold IndVar.full
  by_cases hs : 0 < int32 iv.step
  · rw [if_pos hs, if_pos hs]
    exact truth_bit htruth _
  · rw [if_neg hs, if_neg hs]
    exact truth_bit htruth _

end Width

end TinyQuanta.SelfLoopClone
