import TinyQuanta.BinaryHeap
import TinyQuanta.WorkerSlots

/-!
# The worker loop of the `LAS` build

Least attained service first: `busy_coros` is a heap on `num_quanta`, and the job on
top gets as many quanta as it takes to leave the others behind, within what is
left of the dequeue period. Everything else is the loop of `Worker`, whose state
is kept; its `busyCoros` is here the array of the heap.

`top()` of an empty heap reads memory that holds no element. What is found there
is an input of the step.
-/
namespace TinyQuanta.LasWorker

open Params Packet Worker

structure State where
  base : Worker.State
  quantumIdx : Nat
  numAssignedQuanta : Nat

/-- How a resumed job gives control back: when `call_the_yield` yields, or at its end, after
`hooks` calls of the hook that did not yield. -/
inductive Resume where
  | preempted
  | completed (hooks : Nat)

inductive Act where
  | arrive (m : Mbuf)
  | resume (r : Resume) (stale : Nat)
  | dispatch
  | handle
  | transmit (nbTx : Nat)
  | giveBack

def init (sv : Server) (sq : Nat) : State := ⟨Worker.init sv sq, 0, 1⟩

/-- `coro_info_ptr_cmp`: the job with more quanta is the smaller one. -/
def coroInfoPtrCmp (coros : Nat → CoroInfo) (c d : Nat) : Bool :=
  decide ((coros d).numQuanta < (coros c).numQuanta)

/-- `num_assigned_quanta`, in `uint32_t`; `dispatch_index` is promoted to `int`. -/
def assignedQuanta (topQuanta nextQuanta dispatchIndex : Nat) : Nat :=
  let n := u32 (topQuanta + (4294967296 - nextQuanta) + 1)
  if u32 (n + dispatchIndex) ≤ dispatchRingDequeuePeriod then n
  else u32 (dispatchRingDequeuePeriod + 4294967296 - dispatchIndex)

/-- `call_the_yield`: the new `quantum_idx`, and whether it yields. -/
def callTheYield (numAssignedQuanta quantumIdx : Nat) : Nat × Bool :=
  (u32 (quantumIdx + 1), decide (u32 (quantumIdx + 1) = numAssignedQuanta))

/-- The `k`th call after `quantum_idx` was set to 0. -/
def hookCall (numAssignedQuanta : Nat) : Nat → Nat × Bool
  | 0 => (0, false)
  | k + 1 => callTheYield numAssignedQuanta (hookCall numAssignedQuanta k).1

/-- The first call that yields: for 0 the counter has to come round. -/
def quantaUntilYield (n : Nat) : Nat := if n = 0 then 4294967296 else n

/-- The heap without its top. -/
def others (s : Worker.State) : List Nat :=
  BinaryHeap.pop (coroInfoPtrCmp s.coros) s.busyCoros

/-- What `busy_coros.top()->num_quanta` is after the pop. -/
def topQuanta (stale : Nat) (s : Worker.State) : Nat :=
  match (others s).head? with
  | some d => (s.coros d).numQuanta
  | none => stale

/-- A job that is not finished is charged what it was assigned and goes back to the heap. -/
def notFinished (c n : Nat) (s : Worker.State) : Worker.State :=
  let coros := Function.update s.coros c { s.coros c with
    numQuanta := u32 ((s.coros c).numQuanta + n) }
  { s with
    coros := coros
    busyCoros := BinaryHeap.push (coroInfoPtrCmp coros) s.busyCoros c
    currSq := u64 (s.currSq + n)
    log := s.log ++ [.preempted c] }

/-- Run the coroutine on top of the heap until it yields. -/
def runNext (r : Resume) (stale : Nat) (s : State) : Option State :=
  match s.base.busyCoros with
  | [] => some s
  | c :: _ =>
    let n := assignedQuanta (topQuanta stale s.base) (s.base.coros c).numQuanta s.base.dispatchIndex
    let popped (last : Option Nat) (quantumIdx : Nat) : Worker.State := { s.base with
      busyCoros := others s.base
      coros := Function.update s.base.coros c { s.base.coros c with last := last }
      dispatchIndex := u16 (s.base.dispatchIndex + quantumIdx)
      flushIndex := u16 (s.base.flushIndex + quantumIdx) }
    match r with
    | .preempted => some ⟨notFinished c n (popped none n), n, n⟩
    | .completed hooks =>
      if hooks < quantaUntilYield n then
        some ⟨finished c (popped (some (s.base.coros c).yield) hooks), hooks, n⟩
      else none

/-- One iteration of the loop over `rx_bufs`. -/
def handleOne (sv : Server) (s : Worker.State) : Option Worker.State :=
  match s.rxBufs.getLast? with
  | none => some { s with dispatchIndex := 0, pc := .transmit }
  | some rx =>
    let s := { s with rxBufs := s.rxBufs.dropLast }
    if isRxMbufValid sv.net rx.mbuf = false then some (reject rx s)
    else
      match s.idleCoros.getLast? with
      | none => none
      | some c =>
        let s := processRxMbuf sv rx c { s with idleCoros := s.idleCoros.dropLast }
        some { s with busyCoros := BinaryHeap.push (coroInfoPtrCmp s.coros) s.busyCoros c }

def step (sv : Server) (s : State) : Act → Option State
  | .arrive m =>
    if s.base.ring.length < ringCapacity then some { s with base := arrive m s.base } else none
  | .resume r stale =>
    if s.base.pc = .head then
      (runNext r stale s).map fun t => { t with base := { setForce t.base with pc := .dispatch } }
    else none
  | .dispatch => if s.base.pc = .dispatch then some { s with base := dispatchNew s.base } else none
  | .handle =>
    if s.base.pc = .handle then (handleOne sv s.base).map fun t => { s with base := t } else none
  | .transmit nbTx =>
    if s.base.pc = .transmit then (txPath nbTx s.base).map fun t => { s with base := t } else none
  | .giveBack => if s.base.pc = .giveBack then some { s with base := returnRx s.base } else none

def Reachable (sv : Server) (s : State) : Prop :=
  ∃ sq as, Machine.run (step sv) as (init sv sq) = some s

theorem quantaUntilYield_eq {n : Nat} (hn : 1 ≤ n) : quantaUntilYield n = n :=
  if_neg (by omega)

theorem hookCall_fst (n k : Nat) : (hookCall n k).1 = u32 k := by
  induction k with
  | zero => rfl
  | succ k ih =>
    simp only [hookCall, callTheYield, ih, u32]
    omega

theorem hookCall_yields {n k : Nat} (hk : 1 ≤ k) : (hookCall n k).2 = true ↔ u32 k = n := by
  obtain ⟨k, rfl⟩ : ∃ j, k = j + 1 := ⟨k - 1, by omega⟩
  simp only [hookCall, callTheYield, hookCall_fst, decide_eq_true_eq, u32]
  omega

/-- `quantaUntilYield` is the first call at which the code yields. -/
theorem yields_first {n : Nat} (hn : n < 4294967296) :
    (hookCall n (quantaUntilYield n)).2 = true ∧
      ∀ k, 1 ≤ k → k < quantaUntilYield n → (hookCall n k).2 = false := by
  have hpos : 1 ≤ quantaUntilYield n := by
    unfold quantaUntilYield
    split <;> omega
  constructor
  · rw [hookCall_yields hpos]
    unfold quantaUntilYield u32
    split <;> omega
  · intro k hk hlt
    rw [← Bool.not_eq_true, hookCall_yields hk]
    unfold quantaUntilYield at hlt
    unfold u32
    split at hlt <;> omega

end TinyQuanta.LasWorker
