import TinyQuanta.Machine
import TinyQuanta.Params

/-!
# The interrupt library

The thread-local state of `ci_lib.c` and the calls that change it, on one thread.
A probe calls whatever `intvActionHook` points to: nothing (`dummy`), a handler
(`register_ci_direct`) or the static function `interrupt_handler`, which runs
`app_handler` between two writes of the hook. Handlers make calls of their own,
and probes are executed while they run, so that the handlers that have not
returned form a stack.

No margin hook is ever registered, so `ci_disable` and `ci_enable` call none.
-/
namespace TinyQuanta.CiLib

open Params

variable {H : Type}

/-- The values of `intvActionHook`. -/
inductive Hook (H : Type) where
  | dummy
  | interruptHandler
  | direct (h : H)
  deriving DecidableEq, Repr

/-- A handler that has not returned, and who called it. -/
inductive Frame (H : Type) where
  | interruptHandler (h : H)
  | direct (h : H)
  deriving DecidableEq, Repr

/-- The last registration, if no `deregister_ci` came after it. -/
inductive Registration (H : Type) where
  | none
  | ci (h : H)
  | direct (h : H)
  deriving DecidableEq, Repr

/-- The intervals a registration sets. -/
structure Intervals where
  ciIrInterval : Nat
  ciResetIrInterval : Nat
  ciCyclesInterval : Nat
  ciCyclesThreshold : Nat
  localLC : Int
  deriving DecidableEq, Repr

/-- `appHandler` is `none` for `dummy`. Nothing reads `registration`. -/
structure State (H : Type) where
  intvActionHook : Hook H
  appHandler : Option H
  lcDisabledCount : Int
  intervals : Intervals
  frames : List (Frame H)
  registration : Registration H
  deriving DecidableEq, Repr

inductive Act (H : Type) where
  | registerCi (irInterval cyclesInterval : Int) (ciFunc : H)
  | registerCiDirect (irInterval cyclesInterval : Int) (ciFunc : H)
  | deregisterCi
  | ciDisable
  | ciEnable
  | probe
  | ret
  deriving DecidableEq, Repr

def largeInterval : Nat := 100000
def smallInterval : Nat := 10000

/-- An `int` stored into a `uint64_t`. -/
def uint64 (x : Int) : Nat := (x % 18446744073709551616).toNat

def init : State H where
  intvActionHook := .dummy
  appHandler := none
  lcDisabledCount := 0
  intervals := ⟨largeInterval, largeInterval / 2, smallInterval, largeInterval * 9 / 10, 0⟩
  frames := []
  registration := .none

/-- The assignments both registrations start with. For an interval that is not negative,
`0.9 * x` rounds down to `9 * x / 10`. -/
def Intervals.register (irInterval cyclesInterval : Int) (i : Intervals) : Intervals where
  localLC := int32 (i.localLC + i.ciIrInterval)
  ciIrInterval := uint64 irInterval
  ciResetIrInterval := uint64 (irInterval.tdiv 2)
  ciCyclesInterval := uint64 cyclesInterval
  ciCyclesThreshold := uint64 (9 * cyclesInterval / 10)

def Intervals.deregister (i : Intervals) : Intervals where
  localLC := i.localLC
  ciIrInterval := largeInterval
  ciResetIrInterval := largeInterval / 2
  ciCyclesInterval := largeInterval
  ciCyclesThreshold := largeInterval * 9 / 10

def registerCi (irInterval cyclesInterval : Int) (ciFunc : H) (s : State H) : State H :=
  { s with
    intervals := s.intervals.register irInterval cyclesInterval
    appHandler := some ciFunc
    intvActionHook := .interruptHandler
    registration := .ci ciFunc }

def registerCiDirect (irInterval cyclesInterval : Int) (ciFunc : H) (s : State H) : State H :=
  { s with
    intervals := s.intervals.register irInterval cyclesInterval
    intvActionHook := .direct ciFunc
    registration := .direct ciFunc }

def deregisterCi (s : State H) : State H :=
  { s with
    intervals := s.intervals.deregister
    appHandler := none
    intvActionHook := .dummy
    registration := .none }

def ciDisable (s : State H) : State H :=
  { s with intvActionHook := .dummy, lcDisabledCount := s.lcDisabledCount + 1 }

def ciEnable (s : State H) : State H :=
  let count := if 0 < s.lcDisabledCount then s.lcDisabledCount - 1 else s.lcDisabledCount
  { s with
    lcDisabledCount := count
    intvActionHook := if count = 0 then .interruptHandler else s.intvActionHook }

/-- A probe event: the call of the hook, up to the first instruction of a handler. With `dummy`
in place of `app_handler` the trampoline is left at once, with the hook as before. -/
def probe (s : State H) : State H :=
  match s.intvActionHook, s.appHandler with
  | .dummy, _ => s
  | .direct h, _ => { s with frames := .direct h :: s.frames }
  | .interruptHandler, none => s
  | .interruptHandler, some h =>
    { s with intvActionHook := .dummy, frames := .interruptHandler h :: s.frames }

/-- The innermost handler returns; `interrupt_handler` then sets the hook again. -/
def ret (s : State H) : Option (State H) :=
  match s.frames with
  | [] => none
  | .interruptHandler _ :: frames =>
    some { s with intvActionHook := .interruptHandler, frames := frames }
  | .direct _ :: frames => some { s with frames := frames }

/-- Incrementing the largest `int` has no meaning. -/
def step (s : State H) : Act H → Option (State H)
  | .registerCi irInterval cyclesInterval ciFunc =>
    some (registerCi irInterval cyclesInterval ciFunc s)
  | .registerCiDirect irInterval cyclesInterval ciFunc =>
    some (registerCiDirect irInterval cyclesInterval ciFunc s)
  | .deregisterCi => some (deregisterCi s)
  | .ciDisable => if s.lcDisabledCount < intMax then some (ciDisable s) else none
  | .ciEnable => some (ciEnable s)
  | .probe => some (probe s)
  | .ret => ret s

def Frame.handler : Frame H → H
  | .interruptHandler h => h
  | .direct h => h

def Frame.isTrampoline : Frame H → Bool
  | .interruptHandler _ => true
  | .direct _ => false

def Registration.handler : Registration H → Option H
  | .none => Option.none
  | .ci h => some h
  | .direct h => some h

/-- The handler a probe event would call. -/
def invoked (s : State H) : Option H :=
  match s.intvActionHook with
  | .dummy => none
  | .direct h => some h
  | .interruptHandler => s.appHandler

/-- The handler it should call: the registered one, unless interrupts are disabled. -/
def expected (s : State H) : Option H :=
  if s.lcDisabledCount = 0 then s.registration.handler else none

theorem frames_probe (s : State H) :
    (probe s).frames.map Frame.handler = (invoked s).toList ++ s.frames.map Frame.handler := by
  unfold probe invoked
  cases s.intvActionHook with
  | dummy => rfl
  | direct h => rfl
  | interruptHandler =>
    cases s.appHandler with
    | none => rfl
    | some h => rfl

theorem eq_ciDisable {s t : State H} (h : step s .ciDisable = some t) : t = ciDisable s := by
  simp only [step, Option.ite_none_right_eq_some, Option.some.injEq] at h
  exact h.2.symm

/-! ## Counting -/

/-- The count never goes below 0. -/
theorem ciEnable_count {s : State H} (h : 0 ≤ s.lcDisabledCount) :
    (ciEnable s).lcDisabledCount = max 0 (s.lcDisabledCount - 1) := by
  unfold ciEnable
  dsimp only
  split <;> omega

theorem step_count_nonneg {s t : State H} {a : Act H} (ht : step s a = some t)
    (h : 0 ≤ s.lcDisabledCount) : 0 ≤ t.lcDisabledCount := by
  cases a with
  | registerCi ir cy f =>
    cases ht
    exact h
  | registerCiDirect ir cy f =>
    cases ht
    exact h
  | deregisterCi =>
    cases ht
    exact h
  | ciDisable =>
    cases eq_ciDisable ht
    simp only [ciDisable]
    omega
  | ciEnable =>
    cases ht
    rw [ciEnable_count h]
    omega
  | probe =>
    cases ht
    unfold probe
    split <;> exact h
  | ret =>
    simp only [step, ret] at ht
    split at ht
    · cases ht
    · cases ht
      exact h
    · cases ht
      exact h

theorem run_count_nonneg {as : List (Act H)} {s : State H}
    (h : Machine.run step as init = some s) : 0 ≤ s.lcDisabledCount :=
  Machine.run_induction (P := fun _ s => 0 ≤ s.lcDisabledCount) (Int.le_refl 0)
    (fun _ _ _ _ _ hs ht => step_count_nonneg ht hs) h

end TinyQuanta.CiLib
