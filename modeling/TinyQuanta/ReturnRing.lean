import TinyQuanta.DispatcherHeap
import TinyQuanta.Worker

/-!
# The build with return rings

Without `NEW_DISPATCHER` (as with `DEBUG=y`) a worker gives the buffers of
finished jobs back over a ring of its own, and `abort()`s if the ring does not
take all of them. The dispatcher enqueues packets one by one, and drains the
rings only when enough of them were enqueued since the last time.

The loops are those of `Worker` and `Dispatcher` where the two builds agree.
`curr_sizes` and `prev_sizes` do not exist here; no step reads them. A check-in
takes one burst off a ring per step, so workers run on in between; `returnSize`
is `return_size` for the worker at the top of the heap. An `abort()`, a failed
`assert` and a write behind the end of `return_rx_bufs` are the end of a run.
-/
namespace TinyQuanta.ReturnRing

open Params Packet

def returnRingSize : Nat := 512

/-- `RETURN_RING_BURST_SIZE` of this build. -/
def returnBurstSize : Nat := 8

/-- `RETURN_RING_CHECKIN_PERIOD` of this build. -/
def checkinPeriod (numWorkerThreads : Nat) : Nat := returnBurstSize * numWorkerThreads * 2

def freeMbufMaxBatchSize (numWorkerThreads : Nat) : Nat := returnRingSize * numWorkerThreads

/-- What a return ring holds at most. -/
def returnCapacity : Nat := returnRingSize - 1

structure Config where
  numWorkerThreads : Nat
  threads_pos : 0 < numWorkerThreads
  server : Worker.Server

/-- `MSQ` is not defined either, and packets always go to the top of the heap. -/
def Config.build (c : Config) : Dispatcher.Build where
  numWorkerThreads := c.numWorkerThreads
  threads_pos := c.threads_pos
  msq := false
  policy := .leastLoaded
  int := int32
  int_eq _ := int32_eq
  int_add := int32_add

/-- The build of `make DEBUG=y`: `NUM_WORKER_COROS` has its default. -/
def debug : Config where
  numWorkerThreads := shippedThreads
  threads_pos := Dispatcher.shipped.threads_pos
  server := { Worker.shipped with numWorkerCoros := 8 }

inductive Fault where
  | abort (w : Nat)
  | assertion
  | overrun
  deriving DecidableEq, Repr

structure State where
  disp : Dispatcher.State
  returnSize : Nat
  workers : Nat → Worker.State
  returnQ : Nat → List (Option Worker.Rx)
  fault : Option Fault

inductive Act where
  | rxBurst (rxBufs : List Mbuf)
  | dispatch
  | endBurst
  | drain
  | endCheckin
  | work (w : Nat) (a : Worker.Act)

def init (c : Config) : State where
  disp := Dispatcher.init c.build
  returnSize := 0
  workers _ := Worker.init c.server 0
  returnQ _ := []
  fault := none

def State.setPc (s : State) (pc : Dispatcher.Pc) :
    State := { s with disp := { s.disp with pc := pc } }

def State.setWorker (s : State) (w : Nat) (t : Worker.State) : State :=
  { s with workers := Function.update s.workers w t }

/-! ## The dispatcher -/

/-- Offer one packet to the worker at the top; it is dropped if the dispatch ring is full. -/
def dispatchOne (c : Config) (w : Nat) (m : Mbuf) (rxBufs : List Mbuf) (s : State) : State :=
  if (s.workers w).ring.length < ringCapacity then
    { s.setWorker w (Worker.arrive m (s.workers w)) with
      disp := { Dispatcher.account c.build w 1 1 s.disp with pc := .dispatch 1 rxBufs } }
  else
    { s with
      disp := { Dispatcher.requeue c.build w (s.disp.workerInfoVec w) s.disp with
        pc := .dispatch 1 rxBufs } }

/-- The entry of a worker whose ring was found empty. -/
def drained (c : Config) (s : State) (w : Nat) : Dispatcher.WorkerInfo :=
  let info := s.disp.workerInfoVec w
  { info with
    versionNumber := c.build.int (info.versionNumber + 1)
    numRunningJobs := c.build.int (info.numRunningJobs - s.returnSize) }

/-- One burst from the return ring of the worker at the top, or the end of its visit. -/
def drain (c : Config) (visited : List Nat) (totalReturnSize w : Nat) (s : State) : State :=
  if (s.disp.workerInfoVec w).versionNumber ≠ s.disp.curVersionNumber then
    { s with fault := some .assertion }
  else
    let nbReturn := min returnBurstSize (s.returnQ w).length
    if nbReturn = 0 then
      { s with
        disp := { Dispatcher.requeue c.build w (drained c s w) s.disp with
          pc := .checkin (visited ++ [w]) totalReturnSize }
        returnSize := 0 }
    else if freeMbufMaxBatchSize c.numWorkerThreads < totalReturnSize + nbReturn then
      { s with fault := some .overrun }
    else
      { s with
        disp := { s.disp with pc := .checkin visited (u16 (totalReturnSize + nbReturn)) }
        returnSize := u16 (s.returnSize + nbReturn)
        returnQ := Function.update s.returnQ w ((s.returnQ w).drop nbReturn) }

/-! ## The worker -/

/-- A packet that fails validation is kept for the next return, if there is room. -/
def reject (rx : Worker.Rx) (s : Worker.State) : Worker.State :=
  { s with
    returnRxBufs :=
      if s.returnRxBufs.length < returnBurstSize then s.returnRxBufs ++
        [some rx] else s.returnRxBufs
    log := s.log ++ [.rejected rx (decide (s.returnRxBufs.length < returnBurstSize))] }

def handleOne (sv : Worker.Server) (s : Worker.State) : Option Worker.State :=
  match s.rxBufs.getLast? with
  | none => Worker.handleOne sv s
  | some rx =>
    if isRxMbufValid sv.net rx.mbuf = false then some
      (reject rx { s with rxBufs := s.rxBufs.dropLast })
    else Worker.handleOne sv s

/-- The steps of a worker that do not touch the return ring. -/
def ownStep (sv : Worker.Server) (s : Worker.State) : Worker.Act → Option Worker.State
  | .arrive _ => none
  | .giveBack => none
  | .handle => if s.pc = .handle then handleOne sv s else none
  | a => Worker.step sv s a

/-- The buffers are given back now. -/
def returnReady (s : Worker.State) : Prop :=
  s.forceFlush = true ∨ s.returnRxBufs.length = returnBurstSize

instance (s : Worker.State) : Decidable (returnReady s) := inferInstanceAs (Decidable (_ ∨ _))

/-- Return the receive buffers; a ring that takes fewer is the end. -/
def giveBack (w : Nat) (s : State) : State :=
  let t := s.workers w
  if returnReady t then
    let nbReturn := min t.returnRxBufs.length (returnCapacity - (s.returnQ w).length)
    let returnQ := Function.update s.returnQ w (s.returnQ w ++ t.returnRxBufs.take nbReturn)
    if nbReturn ≠ t.returnRxBufs.length then { s with returnQ := returnQ, fault := some (.abort w) }
    else { s.setWorker w { t with returnRxBufs := [], pc := .head } with returnQ := returnQ }
  else s.setWorker w { t with pc := .head }

def workStep (c : Config) (w : Nat) (s : State) : Worker.Act → Option State
  | .giveBack => if (s.workers w).pc = .giveBack then some (giveBack w s) else none
  | a => (ownStep c.server (s.workers w) a).map (s.setWorker w)

/-! ## The system -/

def step (c : Config) (s : State) (a : Act) : Option State :=
  if s.fault.isSome then none
  else
    match a with
    | .rxBurst rxBufs =>
      match s.disp.pc with
      | .recv =>
        if rxBufs.length ≤ rxQueueBurstSize c.numWorkerThreads then
          some (if rxBufs.length = 0 then s else s.setPc (.dispatch 1 rxBufs))
        else none
      | _ => none
    | .dispatch =>
      match s.disp.pc with
      | .dispatch _ (m :: rxBufs) => s.disp.workerQueue.head?.map fun w =>
        dispatchOne c w m rxBufs s
      | _ => none
    | .endBurst =>
      match s.disp.pc with
      | .dispatch _ [] =>
        some (s.setPc (if checkinPeriod c.numWorkerThreads ≤ s.disp.returnQueueCheckinIdx
          then .checkin [] 0 else .recv))
      | _ => none
    | .drain =>
      match s.disp.pc with
      | .checkin visited totalReturnSize =>
        if visited.length < c.numWorkerThreads then
          s.disp.workerQueue.head?.map fun w => drain c visited totalReturnSize w s
        else none
      | _ => none
    | .endCheckin => (Dispatcher.step c.build s.disp .endCheckin).map fun d => { s with disp := d }
    | .work w a => if w < c.numWorkerThreads then workStep c w s a else none

/-- Everything one step can do, with its guard. -/
inductive Move (c : Config) (s : State) : Act → State → Prop where
  | nothing (hp : s.disp.pc = .recv) : Move c s (.rxBurst []) s
  | receive (rxBufs : List Mbuf) (hp : s.disp.pc = .recv) (hne : rxBufs ≠ [])
    (hle : rxBufs.length ≤ rxQueueBurstSize c.numWorkerThreads) :
    Move c s (.rxBurst rxBufs) (s.setPc (.dispatch 1 rxBufs))
  | enqueue (size : Nat) (m : Mbuf) (rxBufs : List Mbuf) (w : Nat)
    (hp : s.disp.pc = .dispatch size (m :: rxBufs)) (hw : s.disp.workerQueue.head? = some w)
    (room : (s.workers w).ring.length < ringCapacity) :
    Move c s .dispatch { s.setWorker w (Worker.arrive m (s.workers w)) with
      disp := { Dispatcher.account c.build w 1 1 s.disp with pc := .dispatch 1 rxBufs } }
  | drop (size : Nat) (m : Mbuf) (rxBufs : List Mbuf) (w : Nat)
    (hp : s.disp.pc = .dispatch size (m :: rxBufs)) (hw : s.disp.workerQueue.head? = some w)
    (full : ¬ (s.workers w).ring.length < ringCapacity) :
    Move c s .dispatch { s with
      disp := { Dispatcher.requeue c.build w (s.disp.workerInfoVec w) s.disp with
        pc := .dispatch 1 rxBufs } }
  | startCheckin (size : Nat) (hp : s.disp.pc = .dispatch size [])
    (hc : checkinPeriod c.numWorkerThreads ≤ s.disp.returnQueueCheckinIdx) :
    Move c s .endBurst (s.setPc (.checkin [] 0))
  | noCheckin (size : Nat) (hp : s.disp.pc = .dispatch size [])
    (hc : ¬ checkinPeriod c.numWorkerThreads ≤ s.disp.returnQueueCheckinIdx) :
    Move c s .endBurst (s.setPc .recv)
  | assertion (visited : List Nat) (totalReturnSize w : Nat)
    (hp : s.disp.pc = .checkin visited totalReturnSize) (hlt : visited.length < c.numWorkerThreads)
    (hw : s.disp.workerQueue.head? = some w)
    (hv : (s.disp.workerInfoVec w).versionNumber ≠ s.disp.curVersionNumber) :
    Move c s .drain { s with fault := some .assertion }
  | visited (visited : List Nat) (totalReturnSize w : Nat)
    (hp : s.disp.pc = .checkin visited totalReturnSize) (hlt : visited.length < c.numWorkerThreads)
    (hw : s.disp.workerQueue.head? = some w)
    (hv : (s.disp.workerInfoVec w).versionNumber = s.disp.curVersionNumber)
    (hempty : s.returnQ w = []) :
    Move c s .drain { s with
      disp := { Dispatcher.requeue c.build w (drained c s w) s.disp with
        pc := .checkin (visited ++ [w]) totalReturnSize }
      returnSize := 0 }
  | overrun (visited : List Nat) (totalReturnSize w nbReturn : Nat)
    (hp : s.disp.pc = .checkin visited totalReturnSize) (hlt : visited.length < c.numWorkerThreads)
    (hw : s.disp.workerQueue.head? = some w) (hn : nbReturn ≤ (s.returnQ w).length)
    (hover : freeMbufMaxBatchSize c.numWorkerThreads < totalReturnSize + nbReturn) :
    Move c s .drain { s with fault := some .overrun }
  | collect (visited : List Nat) (totalReturnSize w nbReturn : Nat)
    (hp : s.disp.pc = .checkin visited totalReturnSize) (hlt : visited.length < c.numWorkerThreads)
    (hw : s.disp.workerQueue.head? = some w) (hn : nbReturn ≤ (s.returnQ w).length) :
    Move c s .drain { s with
      disp := { s.disp with pc := .checkin visited (u16 (totalReturnSize + nbReturn)) }
      returnSize := u16 (s.returnSize + nbReturn)
      returnQ := Function.update s.returnQ w ((s.returnQ w).drop nbReturn) }
  | endCheckin (d : Dispatcher.State) (hd : Dispatcher.Move c.build s.disp .endCheckin d) :
    Move c s .endCheckin { s with disp := d }
  | work (w : Nat) (a : Worker.Act) (t : Worker.State) (hw : w < c.numWorkerThreads)
    (ht : ownStep c.server (s.workers w) a = some t) : Move c s (.work w a) (s.setWorker w t)
  | abort (w : Nat) (hw : w < c.numWorkerThreads) (hp : (s.workers w).pc = .giveBack)
    (hr : returnReady (s.workers w))
    (short : returnCapacity - (s.returnQ w).length < (s.workers w).returnRxBufs.length) :
    Move c s (.work w .giveBack) { s with
      returnQ := Function.update s.returnQ w (s.returnQ w ++
        (s.workers w).returnRxBufs.take (returnCapacity - (s.returnQ w).length))
      fault := some (.abort w) }
  | giveBack (w : Nat) (hw : w < c.numWorkerThreads) (hp : (s.workers w).pc = .giveBack)
    (hr : returnReady (s.workers w))
    (room : (s.workers w).returnRxBufs.length ≤ returnCapacity - (s.returnQ w).length) :
    Move c s (.work w .giveBack)
      { s.setWorker w { s.workers w with returnRxBufs := [], pc := .head } with
        returnQ := Function.update s.returnQ w (s.returnQ w ++ (s.workers w).returnRxBufs) }
  | defer (w : Nat) (hw : w < c.numWorkerThreads) (hp : (s.workers w).pc = .giveBack)
    (hr : ¬ returnReady (s.workers w)) :
    Move c s (.work w .giveBack) (s.setWorker w { s.workers w with pc := .head })

theorem drain_move {c : Config} {s : State} {visited : List Nat} {total w : Nat}
    (hp : s.disp.pc = .checkin visited total) (hlt : visited.length < c.numWorkerThreads)
    (hw : s.disp.workerQueue.head? = some w) : Move c s .drain (drain c visited total w s) := by
  unfold drain
  by_cases hv : (s.disp.workerInfoVec w).versionNumber ≠ s.disp.curVersionNumber
  · rw [if_pos hv]
    exact .assertion visited total w hp hlt hw hv
  rw [if_neg hv]
  by_cases hz : min returnBurstSize (s.returnQ w).length = 0
  · simp only [hz, if_true]
    refine .visited visited total w hp hlt hw (not_not.mp hv) (List.length_eq_zero_iff.mp ?_)
    simp only [returnBurstSize] at hz
    omega
  simp only [if_neg hz]
  split
  · exact .overrun visited total w _ hp hlt hw (Nat.min_le_right _ _) ‹_›
  · exact .collect visited total w _ hp hlt hw (Nat.min_le_right _ _)

theorem giveBack_move {c : Config} {s : State} {w : Nat} (hw : w < c.numWorkerThreads)
    (hp : (s.workers w).pc = .giveBack) : Move c s (.work w .giveBack) (giveBack w s) := by
  unfold giveBack
  by_cases hr : returnReady (s.workers w)
  · simp only [if_pos hr]
    by_cases room : (s.workers w).returnRxBufs.length ≤ returnCapacity - (s.returnQ w).length
    · simpa [Nat.min_eq_left room] using Move.giveBack w hw hp hr room
    · have hlt := Nat.lt_of_not_le room
      rw [Nat.min_eq_right hlt.le, if_pos hlt.ne]
      exact .abort w hw hp hr hlt
  · simp only [if_neg hr]
    exact .defer w hw hp hr

/-- The step function does nothing that `Move` does not list, and nothing after a fault. -/
theorem step_move {c : Config} {s t : State} {a : Act} (h : step c s a = some t) :
    s.fault = none ∧ Move c s a t := by
  simp only [step, Option.ite_none_left_eq_some, Option.not_isSome_iff_eq_none] at h
  obtain ⟨hf, h⟩ := h
  refine ⟨hf, ?_⟩
  cases a with
  | rxBurst rxBufs =>
    simp only at h
    split at h
    · rename_i hp
      simp only [Option.ite_none_right_eq_some, Option.some.injEq] at h
      obtain ⟨hle, rfl⟩ := h
      by_cases hz : rxBufs.length = 0
      · rw [if_pos hz]
        cases List.length_eq_zero_iff.mp hz
        exact .nothing hp
      · rw [if_neg hz]
        exact .receive rxBufs hp (fun he => hz (by simp [he])) hle
    · cases h
  | dispatch =>
    simp only at h
    split at h
    · rename_i size m rxBufs hp
      obtain ⟨w, hw, rfl⟩ := Option.map_eq_some_iff.mp h
      unfold dispatchOne
      split
      · exact .enqueue size m rxBufs w hp hw ‹_›
      · exact .drop size m rxBufs w hp hw ‹_›
    · cases h
  | endBurst =>
    simp only at h
    split at h
    · rename_i size hp
      cases h
      split
      · exact .startCheckin size hp ‹_›
      · exact .noCheckin size hp ‹_›
    · cases h
  | drain =>
    simp only at h
    split at h
    · rename_i visited total hp
      simp only [Option.ite_none_right_eq_some] at h
      obtain ⟨hlt, h⟩ := h
      obtain ⟨w, hw, rfl⟩ := Option.map_eq_some_iff.mp h
      exact drain_move hp hlt hw
    · cases h
  | endCheckin =>
    obtain ⟨d, hd, rfl⟩ := Option.map_eq_some_iff.mp h
    exact .endCheckin d (Dispatcher.step_move hd)
  | work w a =>
    simp only [Option.ite_none_right_eq_some] at h
    obtain ⟨hw, h⟩ := h
    unfold workStep at h
    split at h
    · simp only [Option.ite_none_right_eq_some, Option.some.injEq] at h
      obtain ⟨hp, rfl⟩ := h
      exact giveBack_move hw hp
    · obtain ⟨t, ht, rfl⟩ := Option.map_eq_some_iff.mp h
      exact .work w a t hw ht

end TinyQuanta.ReturnRing
