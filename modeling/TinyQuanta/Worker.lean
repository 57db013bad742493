import TinyQuanta.Machine
import TinyQuanta.Packet
import Mathlib.Data.List.Basic
import Mathlib.Logic.Function.Basic

/-!
# The worker loop

One `worker` thread of the shipped build (`NEW_DISPATCHER`, `MSQ`, no `LAS`), as
a machine that stops between any two accesses to memory it shares with the
dispatcher. Its environment decides which packets appear on the dispatch ring,
how each resumed job yields, and how many buffers the NIC takes.

Buffers with an index are lists: `return_rx_bufs` with `return_rx_buf_idx` is
`returnRxBufs`, `tx_bufs` with `tx_buf_idx` is `txBufs`, and `rxBufs` is the
part of `rx_bufs` that the handling loop has not reached. A pointer that may be
null is an `Option`. `log` records what the loop did and is never read by it.
-/
namespace TinyQuanta.Worker

open Params Packet

/-- What the build and the command line fix. -/
structure Server where
  net : Net
  leveldb : Bool
  numWorkerCoros : Nat

/-- A received mbuf; `seq` is its position in the order of arrival at this worker's ring. -/
structure Rx where
  seq : Nat
  mbuf : Mbuf

/-- A response mbuf; `id` counts the allocations from `tx_mbuf_pool` by this worker. -/
structure Tx where
  id : Nat
  frame : List UInt8
  deriving DecidableEq, Repr

/-- `coro_info_t`; `last` is what `coro->get()` returns. -/
structure CoroInfo where
  yield : Nat
  last : Option Nat
  jinfo : JobInfo
  rxMbuf : Option Rx
  txMbuf : Option Tx
  numQuanta : Nat

/-- How a resumed job gives control back: through a probe, or at its end. -/
inductive Resume where
  | preempted | completed
  deriving DecidableEq, Repr

inductive Event where
  | dequeued (rxs : List Rx)
  | rejected (rx : Rx) (kept : Bool)
  | bound (coro : Nat) (rx : Rx) (tx : Tx)
  | preempted (coro : Nat)
  | finished (coro : Nat) (rx : Option Rx) (tx : Option Tx)
  | transmitted (txs : List (Option Tx)) (nbTx : Nat)
  | freed (rxs : List (Option Rx))

/-- Where the loop stands; `head` is the `while` test. -/
inductive Pc where
  | head | dispatch | handle | transmit | giveBack
  deriving DecidableEq, Repr

structure State where
  pc : Pc
  ring : List Rx
  currSize : Nat
  currSq : Nat
  coros : Nat → CoroInfo
  idleCoros : List Nat
  busyCoros : List Nat
  rxBufs : List Rx
  returnRxBufs : List (Option Rx)
  txBufs : List (Option Tx)
  dispatchIndex : Nat
  flushIndex : Nat
  forceFlush : Bool
  forceDispatch : Bool
  arrived : Nat
  allocated : Nat
  log : List Event

inductive Act where
  | arrive (m : Mbuf)
  | resume (r : Resume)
  | dispatch
  | handle
  | transmit (nbTx : Nat)
  | giveBack

/-- The state in which the loop is entered. `curr_sizes[tid].sq` is never initialised. -/
def init (sv : Server) (sq : Nat) : State where
  pc := .head
  ring := []
  currSize := 0
  currSq := sq
  coros := fun c => ⟨c, some c, ⟨0, 0, 0⟩, none, none, 0⟩
  idleCoros := List.range sv.numWorkerCoros
  busyCoros := []
  rxBufs := []
  returnRxBufs := []
  txBufs := []
  dispatchIndex := 0
  flushIndex := 0
  forceFlush := false
  forceDispatch := false
  arrived := 0
  allocated := 0
  log := []

/-- A packet becomes visible on the dispatch ring. -/
def arrive (m : Mbuf) (s : State) : State :=
  { s with ring := s.ring ++ [⟨s.arrived, m⟩], arrived := s.arrived + 1 }

/-- `call_the_yield` passes a null pointer through `curr_yield`; `coro` ends a job
by yielding the address of its own `push_type`. -/
def yielded (info : CoroInfo) : Resume → Option Nat
  | .preempted => none
  | .completed => some info.yield

/-- A job that is not finished goes to the back of the deque. -/
def notFinished (c : Nat) (s : State) : State :=
  { s with
    coros := Function.update s.coros c { s.coros c with
      numQuanta := u32 ((s.coros c).numQuanta + 1) }
    busyCoros := s.busyCoros ++ [c]
    currSq := u64 (s.currSq + 1)
    log := s.log ++ [.preempted c] }

/-- A finished job leaves its two mbufs to the flush stages and frees its slot. -/
def finished (c : Nat) (s : State) : State :=
  { s with
    returnRxBufs := s.returnRxBufs ++ [(s.coros c).rxMbuf]
    txBufs := s.txBufs ++ [(s.coros c).txMbuf]
    idleCoros := s.idleCoros ++ [c]
    currSize := u64 (s.currSize + 1)
    currSq := sub64 s.currSq (s.coros c).numQuanta
    log := s.log ++ [.finished c (s.coros c).rxMbuf (s.coros c).txMbuf] }

/-- Run the coroutine at the front of the deque until it yields. -/
def runNext (r : Resume) (s : State) : State :=
  match s.busyCoros with
  | [] => s
  | c :: rest =>
    let last := yielded (s.coros c) r
    let s := { s with
      busyCoros := rest
      coros := Function.update s.coros c { s.coros c with last := last }
      dispatchIndex := u16 (s.dispatchIndex + 1)
      flushIndex := u16 (s.flushIndex + 1) }
    match last with
    | none => notFinished c s
    | some _ => finished c s

/-- `force_dispatch` and `force_flush` of this iteration. -/
def setForce (s : State) : State :=
  if s.busyCoros.isEmpty then
    { s with forceDispatch := true, forceFlush := decide (0 < s.txBufs.length) }
  else { s with forceDispatch := false, forceFlush := false }

/-- Nothing is running, or the dequeue period is up and there is an idle coroutine. -/
def dispatchReady (s : State) : Prop :=
  s.forceDispatch = true ∨ (dispatchRingDequeuePeriod ≤ s.dispatchIndex ∧ s.idleCoros ≠ [])

instance (s : State) : Decidable (dispatchReady s) := inferInstanceAs (Decidable (_ ∨ _))

/-- How many packets `rte_ring_dequeue_burst` delivers. -/
def burst (s : State) : Nat := min s.idleCoros.length s.ring.length

/-- Take new jobs off the ring. -/
def dispatchNew (s : State) : State :=
  if dispatchReady s then
    { s with
      rxBufs := s.ring.take (u16 (burst s))
      ring := s.ring.drop (burst s)
      pc := .handle
      log := s.log ++ [.dequeued (s.ring.take (burst s))] }
  else { s with pc := .transmit }

/-- `process_rx_mbuf` on slot `c`. -/
def processRxMbuf (sv : Server) (rx : Rx) (c : Nat) (s : State) : State :=
  let tx : Tx := ⟨s.allocated, responseFrame sv.net rx.mbuf⟩
  { s with
    coros := Function.update s.coros c { s.coros c with
      jinfo := fillJobInfo sv.leveldb rx.mbuf (s.coros c).jinfo
      rxMbuf := some rx
      txMbuf := some tx
      numQuanta := 0 }
    allocated := s.allocated + 1
    log := s.log ++ [.bound c rx tx] }

/-- A packet that fails validation is kept for the next return, if there is room. -/
def reject (rx : Rx) (s : State) : State :=
  { s with
    returnRxBufs :=
      if s.returnRxBufs.length < returnRingBurstSize then s.returnRxBufs ++ [some rx]
      else s.returnRxBufs
    log := s.log ++ [.rejected rx (decide (s.returnRxBufs.length < returnRingBurstSize))] }

/-- One iteration of the loop over `rx_bufs`, which runs from the last packet to the first. -/
def handleOne (sv : Server) (s : State) : Option State :=
  match s.rxBufs.getLast? with
  | none => some { s with dispatchIndex := 0, pc := .transmit }
  | some rx =>
    let s := { s with rxBufs := s.rxBufs.dropLast }
    if isRxMbufValid sv.net rx.mbuf = false then some (reject rx s)
    else
      match s.idleCoros.getLast? with
      | none => none
      | some c =>
        let s := processRxMbuf sv rx c { s with idleCoros := s.idleCoros.dropLast }
        some { s with busyCoros := c :: s.busyCoros }

/-- The transmit buffers are handed to the NIC in this iteration. -/
def txReady (s : State) : Prop :=
  s.forceFlush = true ∨ (txDequeuePeriod ≤ s.flushIndex ∧ s.txBufs.length ≠ 0) ∨
    s.txBufs.length = txQueueBurstSize

instance (s : State) : Decidable (txReady s) := inferInstanceAs (Decidable (_ ∨ _ ∨ _))

/-- The TX path; the NIC accepts the first `nbTx` buffers. -/
def txPath (nbTx : Nat) (s : State) : Option State :=
  if txReady s then
    if nbTx ≤ s.txBufs.length then
      some { s with
        txBufs := []
        flushIndex := 0
        pc := .giveBack
        log := s.log ++ [.transmitted s.txBufs nbTx] }
    else none
  else some { s with pc := .giveBack }

/-- The receive buffers are given back to their pool. -/
def returnRx (s : State) : State :=
  if s.forceFlush = true ∨ s.returnRxBufs.length = returnRingBurstSize then
    { s with returnRxBufs := [], pc := .head, log := s.log ++ [.freed s.returnRxBufs] }
  else { s with pc := .head }

def step (sv : Server) (s : State) : Act → Option State
  | .arrive m => if s.ring.length < ringCapacity then some (arrive m s) else none
  | .resume r => if s.pc = .head then some { setForce (runNext r s) with pc := .dispatch } else none
  | .dispatch => if s.pc = .dispatch then some (dispatchNew s) else none
  | .handle => if s.pc = .handle then handleOne sv s else none
  | .transmit nbTx => if s.pc = .transmit then txPath nbTx s else none
  | .giveBack => if s.pc = .giveBack then some (returnRx s) else none

/-- Everything one step can do, with its guard. -/
inductive Move (sv : Server) (s : State) : Act → State → Prop where
  | arrive (m : Mbuf) (room : s.ring.length < ringCapacity) : Move sv s (.arrive m) (arrive m s)
  | idle (r : Resume) (hp : s.pc = .head) (hb : s.busyCoros = []) :
    Move sv s (.resume r) { s with
      forceDispatch := true, forceFlush := decide (0 < s.txBufs.length), pc := .dispatch }
  | preempt (c : Nat) (rest : List Nat) (hp : s.pc = .head) (hb : s.busyCoros = c :: rest) :
    Move sv s (.resume .preempted) { s with
      busyCoros := rest ++ [c]
      coros := Function.update s.coros c { s.coros c with
        last := none, numQuanta := u32 ((s.coros c).numQuanta + 1) }
      dispatchIndex := u16 (s.dispatchIndex + 1)
      flushIndex := u16 (s.flushIndex + 1)
      currSq := u64 (s.currSq + 1)
      forceDispatch := false
      forceFlush := false
      pc := .dispatch
      log := s.log ++ [.preempted c] }
  | finish (c : Nat) (rest : List Nat) (hp : s.pc = .head) (hb : s.busyCoros = c :: rest) :
    Move sv s (.resume .completed) { s with
      busyCoros := rest
      coros := Function.update s.coros c { s.coros c with last := some (s.coros c).yield }
      dispatchIndex := u16 (s.dispatchIndex + 1)
      flushIndex := u16 (s.flushIndex + 1)
      returnRxBufs := s.returnRxBufs ++ [(s.coros c).rxMbuf]
      txBufs := s.txBufs ++ [(s.coros c).txMbuf]
      idleCoros := s.idleCoros ++ [c]
      currSize := u64 (s.currSize + 1)
      currSq := sub64 s.currSq (s.coros c).numQuanta
      forceDispatch := rest.isEmpty
      forceFlush := rest.isEmpty
      pc := .dispatch
      log := s.log ++ [.finished c (s.coros c).rxMbuf (s.coros c).txMbuf] }
  | dequeue (hp : s.pc = .dispatch) (hd : dispatchReady s) :
    Move sv s .dispatch { s with
      rxBufs := s.ring.take (u16 (burst s))
      ring := s.ring.drop (burst s)
      pc := .handle
      log := s.log ++ [.dequeued (s.ring.take (burst s))] }
  | wait (hp : s.pc = .dispatch) (hd : ¬ dispatchReady s) :
    Move sv s .dispatch { s with pc := .transmit }
  | handled (hp : s.pc = .handle) (hr : s.rxBufs = []) :
    Move sv s .handle { s with dispatchIndex := 0, pc := .transmit }
  | keep (rx : Rx) (rest : List Rx) (hp : s.pc = .handle) (hr : s.rxBufs = rest ++ [rx])
    (hv : isRxMbufValid sv.net rx.mbuf = false)
    (room : s.returnRxBufs.length < returnRingBurstSize) :
    Move sv s .handle { s with
      rxBufs := rest
      returnRxBufs := s.returnRxBufs ++ [some rx]
      log := s.log ++ [.rejected rx true] }
  | lose (rx : Rx) (rest : List Rx) (hp : s.pc = .handle) (hr : s.rxBufs = rest ++ [rx])
    (hv : isRxMbufValid sv.net rx.mbuf = false)
    (full : ¬ s.returnRxBufs.length < returnRingBurstSize) :
    Move sv s .handle { s with rxBufs := rest, log := s.log ++ [.rejected rx false] }
  | bind (rx : Rx) (rest : List Rx) (c : Nat) (idle : List Nat) (hp : s.pc = .handle)
    (hr : s.rxBufs = rest ++ [rx]) (hv : isRxMbufValid sv.net rx.mbuf = true)
    (hi : s.idleCoros = idle ++ [c]) :
    Move sv s .handle { s with
      rxBufs := rest
      idleCoros := idle
      busyCoros := c :: s.busyCoros
      coros := Function.update s.coros c { s.coros c with
        jinfo := fillJobInfo sv.leveldb rx.mbuf (s.coros c).jinfo
        rxMbuf := some rx
        txMbuf := some ⟨s.allocated, responseFrame sv.net rx.mbuf⟩
        numQuanta := 0 }
      allocated := s.allocated + 1
      log := s.log ++ [.bound c rx ⟨s.allocated, responseFrame sv.net rx.mbuf⟩] }
  | send (nbTx : Nat) (hp : s.pc = .transmit) (ht : txReady s) (hn : nbTx ≤ s.txBufs.length) :
    Move sv s (.transmit nbTx) { s with
      txBufs := []
      flushIndex := 0
      pc := .giveBack
      log := s.log ++ [.transmitted s.txBufs nbTx] }
  | hold (nbTx : Nat) (hp : s.pc = .transmit) (ht : ¬ txReady s) :
    Move sv s (.transmit nbTx) { s with pc := .giveBack }
  | free (hp : s.pc = .giveBack)
    (hf : s.forceFlush = true ∨ s.returnRxBufs.length = returnRingBurstSize) :
    Move sv s .giveBack { s with
      returnRxBufs := [], pc := .head, log := s.log ++ [.freed s.returnRxBufs] }
  | defer (hp : s.pc = .giveBack)
    (hf : ¬ (s.forceFlush = true ∨ s.returnRxBufs.length = returnRingBurstSize)) :
    Move sv s .giveBack { s with pc := .head }

/-- The step function does nothing that `Move` does not list. -/
theorem step_move {sv : Server} {s t : State} {a : Act} (h : step sv s a = some t) :
    Move sv s a t := by
  cases a with
  | arrive m =>
    simp only [step, Option.ite_none_right_eq_some, Option.some.injEq] at h
    obtain ⟨hroom, rfl⟩ := h
    exact .arrive m hroom
  | resume r =>
    simp only [step, Option.ite_none_right_eq_some, Option.some.injEq] at h
    obtain ⟨hp, rfl⟩ := h
    cases hb : s.busyCoros with
    | nil =>
      have hm : Move sv s (.resume r) _ := .idle r hp hb
      simpa [runNext, setForce, hb] using hm
    | cons c rest =>
      cases r with
      | preempted =>
        have hm : Move sv s (.resume .preempted) _ := .preempt c rest hp hb
        simpa [runNext, setForce, hb, yielded, notFinished] using hm
      | completed =>
        have hm : Move sv s (.resume .completed) _ := .finish c rest hp hb
        cases rest with
        | nil => simpa [runNext, setForce, hb, yielded, finished] using hm
        | cons d rest => simpa [runNext, setForce, hb, yielded, finished] using hm
  | dispatch =>
    simp only [step, Option.ite_none_right_eq_some, Option.some.injEq] at h
    obtain ⟨hp, rfl⟩ := h
    unfold dispatchNew
    split
    · exact .dequeue hp ‹_›
    · exact .wait hp ‹_›
  | handle =>
    simp only [step, Option.ite_none_right_eq_some] at h
    obtain ⟨hp, h⟩ := h
    unfold handleOne at h
    cases hl : s.rxBufs.getLast? with
    | none =>
      simp only [hl, Option.some.injEq] at h
      subst h
      exact .handled hp (List.getLast?_eq_none_iff.mp hl)
    | some rx =>
      have hr := (List.dropLast_append_getLast? rx hl).symm
      simp only [hl] at h
      by_cases hv : isRxMbufValid sv.net rx.mbuf = false
      · simp only [hv, if_true, Option.some.injEq] at h
        subst h
        by_cases room : s.returnRxBufs.length < returnRingBurstSize
        · simpa [reject, room] using Move.keep rx _ hp hr hv room
        · simpa [reject, room] using Move.lose rx _ hp hr hv room
      · rw [if_neg hv] at h
        cases hi : s.idleCoros.getLast? with
        | none => simp [hi] at h
        | some c =>
          simp only [hi, Option.some.injEq] at h
          subst h
          exact .bind rx _ c _ hp hr (by simpa using hv) (List.dropLast_append_getLast? c hi).symm
  | transmit nbTx =>
    simp only [step, Option.ite_none_right_eq_some] at h
    obtain ⟨hp, h⟩ := h
    unfold txPath at h
    by_cases ht : txReady s
    · simp only [ht, if_true, Option.ite_none_right_eq_some, Option.some.injEq] at h
      obtain ⟨hn, rfl⟩ := h
      exact .send nbTx hp ht hn
    · simp only [ht, if_false, Option.some.injEq] at h
      subst h
      exact .hold nbTx hp ht
  | giveBack =>
    simp only [step, Option.ite_none_right_eq_some, Option.some.injEq] at h
    obtain ⟨hp, rfl⟩ := h
    unfold returnRx
    split
    · exact .free hp ‹_›
    · exact .defer hp ‹_›

/-- And it does all of it. -/
theorem move_step {sv : Server} {s t : State} {a : Act} (h : Move sv s a t) :
    step sv s a = some t := by
  cases h with
  | arrive m room => simp [step, room]
  | idle r hp hb => simp [step, hp, runNext, setForce, hb]
  | preempt c rest hp hb => simp [step, hp, runNext, setForce, hb, yielded, notFinished]
  | finish c rest hp hb =>
    cases rest with
    | nil => simp [step, hp, runNext, setForce, hb, yielded, finished]
    | cons d rest => simp [step, hp, runNext, setForce, hb, yielded, finished]
  | dequeue hp hd => simp [step, hp, dispatchNew, hd]
  | wait hp hd => simp [step, hp, dispatchNew, hd]
  | handled hp hr => simp [step, hp, handleOne, hr]
  | keep rx rest hp hr hv room => simp [step, hp, handleOne, hr, hv, reject, room]
  | lose rx rest hp hr hv full => simp [step, hp, handleOne, hr, hv, reject, full]
  | bind rx rest c idle hp hr hv hi => simp [step, hp, handleOne, hr, hv, hi, processRxMbuf]
  | send nbTx hp ht hn => simp [step, hp, txPath, ht, hn]
  | hold nbTx hp ht => simp [step, hp, txPath, ht]
  | free hp hf => simp [step, hp, returnRx, hf]
  | defer hp hf => simp [step, hp, returnRx, hf]

/-- The states a worker can be in. -/
def Reachable (sv : Server) (s : State) : Prop :=
  ∃ sq as, Machine.run (step sv) as (init sv sq) = some s

/-- An invariant of the initial states that every move keeps. -/
theorem reachable_invariant {sv : Server} {P : State → Prop} (hi : ∀ sq, P (init sv sq))
    (hm : ∀ s a t, P s → Move sv s a t → P t) {s : State} (h : Reachable sv s) : P s := by
  obtain ⟨sq, as, h⟩ := h
  exact Machine.run_induction (P := fun _ s => P s) (hi sq)
    (fun _ s a t _ hs ht => hm s a t hs (step_move ht)) h

/-! ## A server and two packets for concrete runs -/

/-- The shipped number of coroutines, at 10.0.0.1. -/
def shipped : Server where
  net := { myEth := fun _ => 2, myIp := 0x0a000001, serverPort := 1234 }
  leveldb := false
  numWorkerCoros := shippedCoros

/-- A frame for another host. -/
def stray : Mbuf := ⟨fun _ => 0, 90⟩

/-- A UDP packet for `shipped`. -/
def request : Mbuf where
  data i :=
    if i < 6 then 2
    else if i = 12 then 8
    else if i = etherHdrLen + 9 then 17
    else if i = etherHdrLen + 16 then 10
    else if i = etherHdrLen + 19 then 1
    else 0
  dataLen := 90

/-- One iteration of the loop that dequeues `packets` packets. -/
def iteration (r : Resume) (packets nbTx : Nat) : List Act :=
  [.resume r, .dispatch] ++ List.replicate (packets + 1) .handle ++ [.transmit nbTx, .giveBack]

example : isRxMbufValid shipped.net stray = false := by decide
example : isRxMbufValid shipped.net request = true := by decide

end TinyQuanta.Worker
