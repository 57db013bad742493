import TinyQuanta.Machine
import TinyQuanta.BinaryHeap
import TinyQuanta.Packet
import Mathlib.Logic.Function.Basic

/-!
# The dispatcher loop

`run_server` of the `NEW_DISPATCHER` build, with or without `MSQ`, and with each
of the three ways to choose a worker. A step is one dispatched group, one worker
visited in a check-in, or one of the tests between the loops; the packets of a
burst, what the rings accept, what `std::rand` returns and what is read from
`curr_sizes` are inputs.

The heap holds worker numbers and compares the entries of `worker_info_vec`, so
that an entry may change while its number sits in the heap. `visited` lists the
workers a running check-in has popped, its length being the loop index;
`checkIns` counts completed check-ins. Nothing but the loop test reads them.
-/
namespace TinyQuanta.Dispatcher

open Params Packet

/-- `leastLoaded` is the shipped build; the others are `RAND_DISP`, without and with `POWER_TWO`. -/
inductive Policy where
  | leastLoaded | rand | powerTwo
  deriving DecidableEq, Repr

/-- What the macros fix. `int` stores an exact value into one of the `int` counters: by
wrapping, as compiled, or without loss, to speak about the exact counts. -/
structure Build where
  numWorkerThreads : Nat
  threads_pos : 0 < numWorkerThreads
  msq : Bool
  policy : Policy
  int : Int → Int
  int_eq : ∀ x, InInt x → int x = x
  int_add : ∀ x y, int (int x + y) = int (x + y)

/-- The build of the Makefile. -/
def shipped : Build where
  numWorkerThreads := shippedThreads
  threads_pos := by decide
  msq := true
  policy := .leastLoaded
  int := int32
  int_eq _ := int32_eq
  int_add := int32_add

/-- The same build with counters that cannot overflow. -/
def Build.exact (b : Build) : Build where
  numWorkerThreads := b.numWorkerThreads
  threads_pos := b.threads_pos
  msq := b.msq
  policy := b.policy
  int := id
  int_eq _ _ := rfl
  int_add _ _ := rfl

/-- The fields of `worker_info` that the loop reads. -/
structure WorkerInfo where
  versionNumber : Int
  numRunningJobs : Int
  servicedQuanta : Int
  deriving DecidableEq, Repr

/-- `operator<` on `worker_info`; the larger one is nearer to the top of the heap. -/
def lessThan (msq : Bool) (lhs rhs : WorkerInfo) : Bool :=
  if lhs.versionNumber ≠ rhs.versionNumber then decide (rhs.versionNumber < lhs.versionNumber)
  else if msq = true ∧ lhs.numRunningJobs = rhs.numRunningJobs then
    decide (lhs.servicedQuanta < rhs.servicedQuanta)
  else decide (rhs.numRunningJobs < lhs.numRunningJobs)

/-- Where the loop stands; `dispatch` carries `max_dispatch_size` and the packets from `i` on. -/
inductive Pc where
  | recv
  | dispatch (maxDispatchSize : Nat) (rxBufs : List Mbuf)
  | checkin (visited : List Nat) (totalReturnSize : Nat)

structure State where
  pc : Pc
  workerInfoVec : Nat → WorkerInfo
  workerQueue : List Nat
  prevSizes : Nat → Nat
  curVersionNumber : Int
  totalRunningJobs : Int
  packetDropCount : Int
  returnQueueCheckinIdx : Nat
  checkIns : Nat

inductive Act where
  | rxBurst (rxBufs : List Mbuf)
  | dispatch (nbReturn rand₁ rand₂ : Nat)
  | endBurst
  | visit (currSize sq : Nat)
  | endCheckin

/-- `worker_info_ptr_cmp`, on worker numbers. -/
def workerInfoPtrCmp (b : Build) (info : Nat → WorkerInfo) (w₁ w₂ : Nat) : Bool :=
  lessThan b.msq (info w₁) (info w₂)

def init (b : Build) : State where
  pc := .recv
  workerInfoVec := fun _ => ⟨0, 0, 0⟩
  workerQueue := (List.range b.numWorkerThreads).foldl
    (BinaryHeap.push (workerInfoPtrCmp b fun _ => ⟨0, 0, 0⟩)) []
  prevSizes := fun _ => 0
  curVersionNumber := 0
  totalRunningJobs := 0
  packetDropCount := 0
  returnQueueCheckinIdx := 0
  checkIns := 0

/-- `ceil(nb_rx / NUM_WORKER_THREADS)`. -/
def maxDispatchSize (b : Build) (nbRx : Nat) : Nat :=
  (nbRx + b.numWorkerThreads - 1) / b.numWorkerThreads

/-- The worker the next group is offered to. -/
def offered (b : Build) (rand₁ rand₂ : Nat) (s : State) : Option Nat :=
  match b.policy with
  | .leastLoaded => s.workerQueue.head?
  | .rand => some (rand₁ % b.numWorkerThreads)
  | .powerTwo =>
    let w₁ := rand₁ % b.numWorkerThreads
    let w₂ := rand₂ % b.numWorkerThreads
    some (if (s.workerInfoVec w₁).numRunningJobs < (s.workerInfoVec w₂).numRunningJobs
      then w₁ else w₂)

/-- Change the entry of a worker that was popped from the top and push it again. -/
def requeue (b : Build) (w : Nat) (info : WorkerInfo) (s : State) : State :=
  let vec := Function.update s.workerInfoVec w info
  { s with
    workerInfoVec := vec
    workerQueue := BinaryHeap.push (workerInfoPtrCmp b vec)
      (BinaryHeap.pop (workerInfoPtrCmp b s.workerInfoVec) s.workerQueue) w }

/-- `num_running_jobs += nb_return`, in the heap or beside it. -/
def addJobs (b : Build) (w nbReturn : Nat) (s : State) : State :=
  let info := { s.workerInfoVec w with
    numRunningJobs := b.int ((s.workerInfoVec w).numRunningJobs + nbReturn) }
  match b.policy with
  | .leastLoaded => requeue b w info s
  | _ => { s with workerInfoVec := Function.update s.workerInfoVec w info }

/-- The bookkeeping after `rte_ring_enqueue_burst` has taken `nbReturn` of `dispatchSize`
packets. -/
def account (b : Build) (w dispatchSize nbReturn : Nat) (s : State) : State :=
  if nbReturn ≠ dispatchSize then
    let s := addJobs b w nbReturn s
    let packetDropCount := b.int (s.packetDropCount + 1)
    { s with
      totalRunningJobs := b.int (s.totalRunningJobs + nbReturn)
      packetDropCount := if packetDropCount = 100000 then 0 else packetDropCount }
  else
    let s := addJobs b w nbReturn s
    { s with
      returnQueueCheckinIdx := u16 (s.returnQueueCheckinIdx + nbReturn)
      totalRunningJobs := b.int (s.totalRunningJobs + nbReturn) }

/-- Pop one worker, collect its return count and push it again. -/
def visitTop (b : Build) (visited : List Nat) (totalReturnSize w currSize sq : Nat) (s : State) :
    State :=
  let returnSize := u16 (sub64 currSize (s.prevSizes w))
  let info := s.workerInfoVec w
  let s := requeue b w
    { versionNumber := b.int (info.versionNumber + 1)
      numRunningJobs := b.int (info.numRunningJobs - returnSize)
      servicedQuanta := if b.msq then int32 sq else info.servicedQuanta } s
  { s with
    prevSizes := Function.update s.prevSizes w currSize
    pc := .checkin (visited ++ [w]) (u16 (totalReturnSize + returnSize)) }

theorem account_numRunningJobs (b : Build) (w dispatchSize nbReturn : Nat) (s : State) (u : Nat) :
    ((account b w dispatchSize nbReturn s).workerInfoVec u).numRunningJobs =
      if u = w then b.int ((s.workerInfoVec w).numRunningJobs + nbReturn)
      else (s.workerInfoVec u).numRunningJobs := by
  have hadd : ((addJobs b w nbReturn s).workerInfoVec u).numRunningJobs =
      if u = w then b.int ((s.workerInfoVec w).numRunningJobs + nbReturn)
      else (s.workerInfoVec u).numRunningJobs := by
    unfold addJobs requeue
    by_cases hu : u = w
    · subst hu
      split <;> simp
    · split <;> simp [hu]
  unfold account
  split <;> exact hadd

theorem account_prevSizes (b : Build) (w dispatchSize nbReturn : Nat) (s : State) :
    (account b w dispatchSize nbReturn s).prevSizes = s.prevSizes := by
  unfold account addJobs requeue
  split <;> split <;> rfl

theorem addJobs_counters (b : Build) (w nbReturn : Nat) (s : State) :
    (addJobs b w nbReturn s).totalRunningJobs = s.totalRunningJobs ∧
      (addJobs b w nbReturn s).packetDropCount = s.packetDropCount := by
  unfold addJobs requeue
  split <;> exact ⟨rfl, rfl⟩

theorem account_totalRunningJobs (b : Build) (w dispatchSize nbReturn : Nat) (s : State) :
    (account b w dispatchSize nbReturn s).totalRunningJobs =
      b.int (s.totalRunningJobs + nbReturn) := by
  unfold account
  split <;> simp only [addJobs_counters]

theorem account_packetDropCount (b : Build) (w dispatchSize nbReturn : Nat) (s : State) :
    (account b w dispatchSize nbReturn s).packetDropCount =
      if nbReturn ≠ dispatchSize then
        if b.int (s.packetDropCount + 1) = 100000 then 0 else b.int (s.packetDropCount + 1)
      else s.packetDropCount := by
  unfold account
  split <;> simp only [addJobs_counters]

/-- A group that fits brings the next check-in nearer. -/
theorem account_returnQueueCheckinIdx (b : Build) (w nbReturn : Nat) (s : State) :
    (account b w nbReturn nbReturn s).returnQueueCheckinIdx =
      u16 (s.returnQueueCheckinIdx + nbReturn) := by
  have hadd : (addJobs b w nbReturn s).returnQueueCheckinIdx = s.returnQueueCheckinIdx := by
    unfold addJobs requeue
    split <;> rfl
  simp [account, hadd]

theorem visitTop_numRunningJobs (b : Build) (visited : List Nat) (total w currSize sq : Nat)
    (s : State) (u : Nat) :
    ((visitTop b visited total w currSize sq s).workerInfoVec u).numRunningJobs =
      if u = w then b.int ((s.workerInfoVec w).numRunningJobs - u16
        (sub64 currSize (s.prevSizes w)))
      else (s.workerInfoVec u).numRunningJobs := by
  unfold visitTop requeue
  by_cases hu : u = w
  · subst hu
    simp
  · simp [hu]

theorem visitTop_versionNumber (b : Build) (visited : List Nat) (total w currSize sq : Nat)
    (s : State) (u : Nat) :
    ((visitTop b visited total w currSize sq s).workerInfoVec u).versionNumber =
      if u = w then b.int ((s.workerInfoVec w).versionNumber + 1)
      else (s.workerInfoVec u).versionNumber := by
  unfold visitTop requeue
  by_cases hu : u = w
  · subst hu
    simp
  · simp [hu]

def step (b : Build) (s : State) : Act → Option State
  | .rxBurst rxBufs =>
    match s.pc with
    | .recv =>
      if rxBufs.length ≤ rxQueueBurstSize b.numWorkerThreads then
        if rxBufs.length = 0 then some s
        else some { s with pc := .dispatch (maxDispatchSize b rxBufs.length) rxBufs }
      else none
    | _ => none
  | .dispatch nbReturn rand₁ rand₂ =>
    match s.pc with
    | .dispatch size (m :: rxBufs) =>
      match offered b rand₁ rand₂ s with
      | none => none
      | some w =>
        if nbReturn ≤ ((m :: rxBufs).take size).length then
          some { account b w ((m :: rxBufs).take size).length nbReturn s with
            pc := .dispatch size ((m :: rxBufs).drop size) }
        else none
    | _ => none
  | .endBurst =>
    match s.pc with
    | .dispatch _ [] =>
      if returnRingCheckinPeriod ≤ s.returnQueueCheckinIdx then some { s with pc := .checkin [] 0 }
      else some { s with pc := .recv }
    | _ => none
  | .visit currSize sq =>
    match s.pc with
    | .checkin visited totalReturnSize =>
      if visited.length < b.numWorkerThreads then
        match s.workerQueue.head? with
        | none => none
        | some w => some (visitTop b visited totalReturnSize w currSize sq s)
      else none
    | _ => none
  | .endCheckin =>
    match s.pc with
    | .checkin visited totalReturnSize =>
      if visited.length < b.numWorkerThreads then none
      else some { s with
        pc := .recv
        returnQueueCheckinIdx := 0
        curVersionNumber := b.int (s.curVersionNumber + 1)
        totalRunningJobs := b.int (s.totalRunningJobs - totalReturnSize)
        checkIns := s.checkIns + 1 }
    | _ => none

/-- Everything one step can do, with its guard. -/
inductive Move (b : Build) (s : State) : Act → State → Prop where
  | nothing (hp : s.pc = .recv) : Move b s (.rxBurst []) s
  | receive (rxBufs : List Mbuf) (hp : s.pc = .recv) (hne : rxBufs ≠ [])
    (hle : rxBufs.length ≤ rxQueueBurstSize b.numWorkerThreads) :
    Move b s (.rxBurst rxBufs)
      { s with pc := .dispatch (maxDispatchSize b rxBufs.length) rxBufs }
  | dispatch (size : Nat) (rxBufs : List Mbuf) (nbReturn rand₁ rand₂ w : Nat)
    (hp : s.pc = .dispatch size rxBufs) (hne : rxBufs ≠ []) (hw : offered b rand₁ rand₂ s = some w)
    (hle : nbReturn ≤ (rxBufs.take size).length) :
    Move b s (.dispatch nbReturn rand₁ rand₂)
      { account b w (rxBufs.take size).length nbReturn s with
        pc := .dispatch size (rxBufs.drop size) }
  | startCheckin (size : Nat) (hp : s.pc = .dispatch size [])
    (hc : returnRingCheckinPeriod ≤ s.returnQueueCheckinIdx) :
    Move b s .endBurst { s with pc := .checkin [] 0 }
  | noCheckin (size : Nat) (hp : s.pc = .dispatch size [])
    (hc : ¬ returnRingCheckinPeriod ≤ s.returnQueueCheckinIdx) :
    Move b s .endBurst { s with pc := .recv }
  | visit (visited : List Nat) (totalReturnSize w currSize sq : Nat)
    (hp : s.pc = .checkin visited totalReturnSize) (hlt : visited.length < b.numWorkerThreads)
    (hw : s.workerQueue.head? = some w) :
    Move b s (.visit currSize sq) (visitTop b visited totalReturnSize w currSize sq s)
  | endCheckin (visited : List Nat) (totalReturnSize : Nat)
    (hp : s.pc = .checkin visited totalReturnSize) (hlt : ¬ visited.length < b.numWorkerThreads) :
    Move b s .endCheckin { s with
      pc := .recv
      returnQueueCheckinIdx := 0
      curVersionNumber := b.int (s.curVersionNumber + 1)
      totalRunningJobs := b.int (s.totalRunningJobs - totalReturnSize)
      checkIns := s.checkIns + 1 }

theorem step_move {b : Build} {s t : State} {a : Act} (h : step b s a = some t) : Move b s a t := by
  cases a with
  | rxBurst rxBufs =>
    simp only [step] at h
    split at h
    · rename_i hp
      simp only [Option.ite_none_right_eq_some] at h
      obtain ⟨hle, h⟩ := h
      by_cases hz : rxBufs.length = 0
      · rw [if_pos hz] at h
        cases h
        cases List.length_eq_zero_iff.mp hz
        exact .nothing hp
      · rw [if_neg hz] at h
        cases h
        exact .receive rxBufs hp (fun he => hz (by simp [he])) hle
    · cases h
  | dispatch nbReturn rand₁ rand₂ =>
    simp only [step] at h
    split at h
    · rename_i size m rxBufs hp
      cases hw : offered b rand₁ rand₂ s with
      | none => simp [hw] at h
      | some w =>
        simp only [hw, Option.ite_none_right_eq_some, Option.some.injEq] at h
        obtain ⟨hle, rfl⟩ := h
        exact .dispatch size (m :: rxBufs) nbReturn rand₁ rand₂ w hp (by simp) hw hle
    · cases h
  | endBurst =>
    simp only [step] at h
    split at h
    · rename_i size hp
      split at h
      · cases h
        exact .startCheckin size hp ‹_›
      · cases h
        exact .noCheckin size hp ‹_›
    · cases h
  | visit currSize sq =>
    simp only [step] at h
    split at h
    · rename_i visited total hp
      cases hw : s.workerQueue.head? with
      | none => simp [hw] at h
      | some w =>
        simp only [hw, Option.ite_none_right_eq_some, Option.some.injEq] at h
        obtain ⟨hlt, rfl⟩ := h
        exact .visit visited total w currSize sq hp hlt hw
    · cases h
  | endCheckin =>
    simp only [step] at h
    split at h
    · rename_i visited total hp
      simp only [Option.ite_none_left_eq_some, Option.some.injEq] at h
      obtain ⟨hlt, rfl⟩ := h
      exact .endCheckin visited total hp hlt
    · cases h

theorem move_step {b : Build} {s t : State} {a : Act} (h : Move b s a t) : step b s a = some t := by
  cases h with
  | nothing hp => simp [step, hp]
  | receive rxBufs hp hne hle => simp [step, hp, hne, hle]
  | dispatch size rxBufs nbReturn r₁ r₂ w hp hne hw hle =>
    cases rxBufs with
    | nil => exact absurd rfl hne
    | cons m rxBufs => simp only [step, hp, hw, if_pos hle]
  | startCheckin size hp hc => simp [step, hp, hc]
  | noCheckin size hp hc => simp only [step, hp, if_neg hc]
  | visit visited total w currSize sq hp hlt hw => simp [step, hp, hlt, hw]
  | endCheckin visited total hp hlt => simp only [step, hp, if_neg hlt]

/-- Every value the step stores into an `int` counter is representable. -/
def Representable (b : Build) (s : State) : Act → Prop
  | .dispatch nbReturn rand₁ rand₂ => ∀ w, offered b rand₁ rand₂ s = some w →
      InInt ((s.workerInfoVec w).numRunningJobs + nbReturn) ∧
      InInt (s.totalRunningJobs + nbReturn) ∧ InInt (s.packetDropCount + 1)
  | .visit currSize _ => ∀ w, s.workerQueue.head? = some w →
      InInt ((s.workerInfoVec w).versionNumber + 1) ∧
      InInt ((s.workerInfoVec w).numRunningJobs - u16 (sub64 currSize (s.prevSizes w)))
  | .endCheckin => InInt (s.curVersionNumber + 1) ∧
      ∀ visited total, s.pc = .checkin visited total → InInt (s.totalRunningJobs - total)
  | _ => True

theorem account_exact {b : Build} {s : State} {w dispatchSize nbReturn : Nat}
    (hnum : InInt ((s.workerInfoVec w).numRunningJobs + nbReturn))
    (htotal : InInt (s.totalRunningJobs + nbReturn)) (hdrop : InInt (s.packetDropCount + 1)) :
    account b w dispatchSize nbReturn s = account b.exact w dispatchSize nbReturn s := by
  have hadd : addJobs b w nbReturn s = addJobs b.exact w nbReturn s := by
    simp only [addJobs, b.int_eq _ hnum]
    rfl
  simp only [account, hadd, addJobs_counters, b.int_eq _ htotal, b.int_eq _ hdrop]
  rfl

/-- Then the step does the same with counters that cannot overflow. -/
theorem move_exact {b : Build} {s t : State} {a : Act} (m : Move b s a t)
    (h : Representable b s a) : Move b.exact s a t := by
  cases m with
  | nothing hp => exact .nothing hp
  | receive rxBufs hp hne hle => exact .receive rxBufs hp hne hle
  | dispatch size rxBufs nbReturn r₁ r₂ w hp hne hw hle =>
    obtain ⟨hnum, htotal, hdrop⟩ := h w hw
    rw [account_exact hnum htotal hdrop]
    exact .dispatch size rxBufs nbReturn r₁ r₂ w hp hne hw hle
  | startCheckin size hp hc => exact .startCheckin size hp hc
  | noCheckin size hp hc => exact .noCheckin size hp hc
  | visit visited total w currSize sq hp hlt hw =>
    obtain ⟨hver, hnum⟩ := h w hw
    have he : visitTop b visited total w currSize sq s =
        visitTop b.exact visited total w currSize sq s := by
      simp only [visitTop, b.int_eq _ hver, b.int_eq _ hnum]
      rfl
    rw [he]
    exact .visit visited total w currSize sq hp hlt hw
  | endCheckin visited total hp hlt =>
    rw [b.int_eq _ h.1, b.int_eq _ (h.2 _ _ hp)]
    exact .endCheckin visited total hp hlt

end TinyQuanta.Dispatcher
