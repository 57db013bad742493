import TinyQuanta.Interleaving
import TinyQuanta.RequestServer
import TinyQuanta.WorkerDrain
import Mathlib.Algebra.BigOperators.Group.Finset.Piecewise
import Mathlib.Algebra.Order.Group.Multiset
import Mathlib.Tactic.Abel

/-!
# The server as a whole answers requests

The dispatcher and its workers, taken together, are a server of requests: a packet waits
in the burst that the dispatcher has in hand, on a dispatch ring, among the packets that
a worker has just taken, with a coroutine, or with its response in the transmit buffer.
What is seen from outside are the packets that `rte_eth_rx_burst` delivers, the ones that
are freed because a ring is full or because they are not for this server, and the buffers
that `rte_eth_tx_burst` takes or leaves.
-/
namespace TinyQuanta.EndToEnd

open Params Packet
open RequestServer (Service Event Step Run Books)
open WorkerService (Job jobs running completed handed)
open Interleaving (Config State Act step Move group enqueued Track)

/-- Packets for this server are answered with the frame that `process_rx_mbuf` builds. -/
def service (sv : Worker.Server) : Service Mbuf (List UInt8) where
  accepts m := isRxMbufValid sv.net m
  respond m := responseFrame sv.net m

theorem coe_take_add_drop {α : Type} (n : Nat) (l : List α) :
    (l.take n + l.drop n : Multiset α) = l := by
  rw [Multiset.coe_add, List.take_append_drop]

/-! ## One worker -/

/-- The jobs whose responses are in `tx_bufs`. -/
def toSend (s : Worker.State) : List Job := (completed s).drop (handed s).length

/-- The packets a worker has not done with. -/
def waitingAt (s : Worker.State) : Multiset Mbuf :=
  (s.ring.map Worker.Rx.mbuf : List Mbuf) + (s.rxBufs.map Worker.Rx.mbuf : List Mbuf) +
    ((running s).map (·.rx.mbuf) : List Mbuf) + ((toSend s).map (·.rx.mbuf) : List Mbuf)

/-- What a step of a worker shows. -/
def workerEvents (sv : Worker.Server) (s : Worker.State) :
    Worker.Act → List (Event Mbuf (List UInt8))
  | .handle =>
    match s.rxBufs.getLast? with
    | some rx => if isRxMbufValid sv.net rx.mbuf then [] else [.refused rx.mbuf]
    | none => []
  | .transmit nbTx =>
    if Worker.txReady s then
      ((s.txBufs.take nbTx).filterMap id).map (fun tx => .sent tx.frame) ++
        ((s.txBufs.drop nbTx).filterMap id).map (fun tx => .unsent tx.frame)
    else []
  | _ => []

section Worker

variable {sv : Worker.Server} {s t : Worker.State} {a : Worker.Act}

theorem txBufs_eq (h : WorkerService.Service sv s) :
    s.txBufs = (toSend s).map fun j => some j.tx := by
  rw [toSend, List.map_drop, ← h.sent, List.drop_left]

/-- A response that waits is the one the service promises for its packet. -/
theorem toSend_built (h : WorkerService.Service sv s) {j : Job} (hj : j ∈ toSend s) :
    isRxMbufValid sv.net j.rx.mbuf = true ∧ j.tx.frame = responseFrame sv.net j.rx.mbuf :=
  h.built j (h.split.mem_iff.mpr (List.mem_append_right _ (List.mem_of_mem_drop hj)))

/-- Responses of one kind are responses to the packets of their jobs. -/
theorem run_responses (js : List Job) {f : List UInt8 → Event Mbuf (List UInt8)}
    (hb : ∀ j ∈ js, isRxMbufValid sv.net j.rx.mbuf = true ∧
    j.tx.frame = responseFrame sv.net j.rx.mbuf)
    (hf : ∀ m w, isRxMbufValid sv.net m = true →
    Step (service sv) (m ::ₘ w) (f (responseFrame sv.net m)) w)
    (w : Multiset Mbuf) :
    Run (service sv) ((js.map (·.rx.mbuf) : List Mbuf) + w) (js.map fun j => f j.tx.frame) w := by
  have hmap : (js.map fun j => f j.tx.frame) = (js.map (·.rx.mbuf)).map fun m =>
      f (responseFrame sv.net m) := by
    rw [List.map_map]
    exact List.map_congr_left fun j hj => congrArg f (hb j hj).2
  rw [hmap]
  refine Run.settle (fun m hm u => ?_) w
  obtain ⟨j, hj, rfl⟩ := List.mem_map.mp hm
  exact hf _ u (hb j hj).1

/-- The responses that the NIC takes, and those it leaves, are responses to packets that waited. -/
theorem run_send (h : WorkerService.Service sv s) (nbTx : Nat) (w : Multiset Mbuf) :
    Run (service sv) (((toSend s).map (·.rx.mbuf) : List Mbuf) + w)
      (((s.txBufs.take nbTx).filterMap id).map (fun tx => .sent tx.frame) ++
        ((s.txBufs.drop nbTx).filterMap id).map (fun tx => .unsent tx.frame)) w := by
  have hsent := run_responses ((toSend s).take nbTx) (f := .sent)
    (fun j hj => toSend_built h (List.mem_of_mem_take hj))
    (fun m u hv => .sent m u hv) ((((toSend s).drop nbTx).map (·.rx.mbuf) : List Mbuf) + w)
  have hunsent := run_responses ((toSend s).drop nbTx) (f := .unsent)
    (fun j hj => toSend_built h (List.mem_of_mem_drop hj))
    (fun m u hv => .unsent m u hv) w
  have hrun := hsent.append hunsent
  rw [← add_assoc, Multiset.coe_add, ← List.map_append, List.take_append_drop] at hrun
  rw [txBufs_eq h, ← List.map_take, ← List.map_drop]
  simpa [List.filterMap_map, Function.comp_def] using hrun

/-- A finished job has its response appended to those that wait. -/
theorem toSend_complete (h : WorkerService.Service sv s) {j : Job}
    (hc : completed t = completed s ++ [j])
    (hh : handed t = handed s) : toSend t = toSend s ++ [j] := by
  have hlen := congrArg List.length h.sent
  rw [List.length_append, List.length_map] at hlen
  rw [toSend, toSend, hc, hh, List.drop_append_of_le_length (by omega)]

theorem toSend_congr (hc : completed t = completed s) (hh : handed t = handed s) :
    toSend t = toSend s := by
  rw [toSend, toSend, hc, hh]

/-- A step that shows nothing. -/
theorem run_silent (h : waitingAt t = waitingAt s) :
    Run (service sv) (waitingAt s) [] (waitingAt t) := by
  rw [h]
  exact .nil _

/-- A step that shows nothing and keeps packets and jobs where they are. -/
theorem run_same (hr : t.ring = s.ring) (hx : t.rxBufs = s.rxBufs)
    (hj : (running t).Perm (running s))
    (hs : toSend t = toSend s) : Run (service sv) (waitingAt s) [] (waitingAt t) := by
  have hrun : ((running t).map (·.rx.mbuf) : Multiset Mbuf) =
    ((running s).map (·.rx.mbuf) : List Mbuf) :=
    Multiset.coe_eq_coe.mpr (hj.map _)
  exact run_silent (by rw [waitingAt, waitingAt, hr, hx, hrun, hs])

/-- A packet that is not for this server. -/
theorem run_refuse {rx : Worker.Rx} {rest : List Worker.Rx} (hx : s.rxBufs = rest ++ [rx])
    (hv : isRxMbufValid sv.net rx.mbuf = false) (hr : t.ring = s.ring) (hxt : t.rxBufs = rest)
    (hj : running t = running s) (hs : toSend t = toSend s) :
    Run (service sv) (waitingAt s) [.refused rx.mbuf] (waitingAt t) := by
  have hw : waitingAt s = rx.mbuf ::ₘ waitingAt t := by
    rw [waitingAt, waitingAt, hr, hxt, hj, hs, hx, List.map_append, ← Multiset.coe_add,
      List.map_singleton, Multiset.coe_singleton, ← Multiset.singleton_add]
    abel
  rw [hw]
  exact .cons (.refused _ _ hv) (.nil _)

section

attribute [local simp] jobs completed handed WorkerService.Event.binds WorkerService.Event.completes
  WorkerService.Event.hands

/-- Every step of a worker shows what the service allows. -/
theorem worker_follows (h : WorkerService.Service sv s) (m : Worker.Move sv s a t)
    (ha : ∀ m, a ≠ .arrive m) :
    Run (service sv) (waitingAt s) (workerEvents sv s a) (waitingAt t) := by
  have hjobs := WorkerService.move_jobs h m
  cases m with
  | arrive m room => exact absurd rfl (ha m)
  | idle r hp hb => exact .nil _
  | preempt c rest hp hb =>
    cases hjobs with
    | complete j hcomp hr hj hf hrx htx => exact absurd hcomp (by simp [WorkerService.Completes])
    | bind j hc hr hj hf => simp at hj
    | rotate hc hr hj hf => exact run_same rfl rfl hr (toSend_congr hf (by simp))
  | finish c rest hp hb =>
    cases hjobs with
    | complete j hcomp hr hj hf hrx htx =>
      refine run_silent ?_
      rw [waitingAt, waitingAt, hr, toSend_complete h hf (by simp), List.map_append,
        List.map_singleton, List.map_cons, ← Multiset.coe_add, Multiset.coe_singleton,
        ← Multiset.cons_coe, ← Multiset.singleton_add]
      abel
    | bind j hc hr hj hf => simp at hj
    | rotate hc hr hj hf => exact absurd ⟨rfl, by simp [hb]⟩ hc
  | dequeue hp hd =>
    refine run_silent ?_
    have hring : (s.ring.map Worker.Rx.mbuf : Multiset Mbuf) =
        ((s.ring.drop (Worker.burst s)).map Worker.Rx.mbuf : List Mbuf) +
          ((s.ring.take (Worker.burst s)).map Worker.Rx.mbuf : List Mbuf) := by
      rw [List.map_drop, List.map_take, add_comm, coe_take_add_drop]
    rw [waitingAt, waitingAt, hring, h.books.inv.pendingAt (by simp [hp]),
      WorkerSlots.u16_dequeue h.books.inv.ring, toSend_congr (s := s) (by simp) (by simp)]
    simp only [running, List.map_nil, Multiset.coe_nil, add_zero]
  | wait hp hd => exact .nil _
  | handled hp hr =>
    have he : workerEvents sv s .handle = [] := by simp [workerEvents, hr]
    rw [he]
    exact .nil _
  | keep rx rest hp hr hv room =>
    have he : workerEvents sv s .handle = [.refused rx.mbuf] := by simp [workerEvents, hr, hv]
    rw [he]
    exact run_refuse hr hv rfl rfl rfl (toSend_congr (by simp) (by simp))
  | lose rx rest hp hr hv full =>
    have he : workerEvents sv s .handle = [.refused rx.mbuf] := by simp [workerEvents, hr, hv]
    rw [he]
    exact run_refuse hr hv rfl rfl rfl (toSend_congr (by simp) (by simp))
  | bind rx rest c idle hp hr hv hidle =>
    have he : workerEvents sv s .handle = [] := by simp [workerEvents, hr, hv]
    rw [he]
    refine run_silent ?_
    cases hjobs with
    | complete j hcomp hr' hj hf hrx htx => simp at hf
    | bind j hc hr' hj hf =>
      have hrx : j.rx = rx := by
        simp only [jobs, List.flatMap_append, List.append_cancel_left_eq] at hj
        simp at hj
        rw [← hj]
      rw [waitingAt, waitingAt, hr', hr, toSend_congr (s := s) hf (by simp), List.map_append,
        List.map_singleton,
        List.map_cons, ← Multiset.coe_add, Multiset.coe_singleton, ← Multiset.cons_coe,
          ← Multiset.singleton_add, hrx]
      abel
    | rotate hc hr' hj hf => simp at hj
  | send nbTx hp ht hn =>
    have he : workerEvents sv s (.transmit nbTx) = _ := if_pos ht
    have hnone : toSend { s with
        txBufs := [], flushIndex := 0, pc := .giveBack
        log := s.log ++ [.transmitted s.txBufs nbTx] } = [] := by
      have hlen := congrArg List.length h.sent
      rw [List.length_append, List.length_map] at hlen
      refine List.drop_eq_nil_of_le ?_
      simp only [completed, handed, List.flatMap_append, List.length_append] at hlen ⊢
      simp at hlen ⊢
      omega
    rw [he, waitingAt, waitingAt, hnone, add_comm, List.map_nil, Multiset.coe_nil, add_zero]
    exact run_send h nbTx _
  | hold nbTx hp ht =>
    have he : workerEvents sv s (.transmit nbTx) = [] := by simp [workerEvents, ht]
    rw [he]
    exact .nil _
  | free hp hf => exact run_same rfl rfl (.refl _) (toSend_congr (by simp) (by simp))
  | defer hp hf => exact .nil _

end

theorem waitingAt_arrive (m : Mbuf) (s : Worker.State) :
    waitingAt (Worker.arrive m s) = m ::ₘ waitingAt s := by
  have hrun : running (Worker.arrive m s) = running s := rfl
  have hsend : toSend (Worker.arrive m s) = toSend s := rfl
  rw [waitingAt, waitingAt, hrun, hsend, ← Multiset.singleton_add]
  simp only [Worker.arrive, List.map_append, List.map_singleton, ← Multiset.coe_add,
    Multiset.coe_singleton]
  abel

/-- Packets that the ring takes wait with the worker. -/
theorem waitingAt_arrivals {ms : List Mbuf}
    (h : Machine.run (Worker.step sv) (ms.map .arrive) s = some t) :
    waitingAt t = ms + waitingAt s := by
  induction ms generalizing s with
  | nil =>
    cases h
    exact (zero_add _).symm
  | cons m ms ih =>
    obtain ⟨u, hu, h⟩ := Option.bind_eq_some_iff.mp h
    cases Worker.step_move hu
    rw [ih h, waitingAt_arrive, Multiset.add_cons, ← Multiset.cons_coe, Multiset.cons_add]

end Worker

/-! ## The whole server -/

/-- The packets of the burst that are still to be offered. -/
def inHand : Dispatcher.Pc → List Mbuf
  | .dispatch _ rxBufs => rxBufs
  | _ => []

/-- All packets that wait anywhere. -/
def waiting (c : Config) (s : State) : Multiset Mbuf :=
  inHand s.disp.pc + ∑ w ∈ Finset.range c.build.numWorkerThreads, waitingAt (s.workers w)

/-- What a step shows. -/
def events (c : Config) (s : State) : Act → List (Event Mbuf (List UInt8))
  | .rxBurst rxBufs => rxBufs.map .received
  | .dispatch nbReturn _ _ => ((group s.disp.pc).drop nbReturn).map .dropped
  | .work w a => workerEvents c.server (s.workers w) a
  | _ => []

/-- What a run shows. -/
def trace (c : Config) : List Act → State → List (Event Mbuf (List UInt8)) :=
    Machine.outputs (step c) (events c)

/-- Workers are in states their own loop can reach, and the heap holds all of them. -/
structure Inv (c : Config) (s : State) : Prop where
  track : Track c s
  queue : s.disp.workerQueue.Perm (List.range c.build.numWorkerThreads)

variable {c : Config} {s t : State} {a : Act}

theorem init_follows (c : Config) (sqs : Nat → Nat) : Inv c (Interleaving.init c sqs) where
  track := Interleaving.init_track c sqs
  queue := (DispatcherHeap.init_inv c.build).queue

/-- The heap loses no worker, whatever the counters say. -/
theorem queue_move {b : Dispatcher.Build} {s t : Dispatcher.State} {a : Dispatcher.Act}
    (m : Dispatcher.Move b s a t) : t.workerQueue.Perm s.workerQueue := by
  cases m with
  | dispatch size rxBufs nbReturn r₁ r₂ w hp hne hw hle =>
    obtain ⟨total, drops, idx, he⟩ := @DispatcherHeap.account_eq b s w
      (rxBufs.take size).length nbReturn
    rw [he]
    cases hpol : b.policy with
    | leastLoaded =>
      simp only [Dispatcher.offered, hpol] at hw
      simp only [Dispatcher.addJobs, hpol]
      exact DispatcherHeap.requeue_perm hw _
    | rand | powerTwo =>
      simp only [Dispatcher.addJobs, hpol]
      exact .refl _
  | visit visited total w n q hp hlt hw => exact DispatcherHeap.requeue_perm hw _
  | _ => exact .refl _

theorem move_follows_inv (h : Inv c s) (m : Move c s a t) : Inv c t where
  track := Interleaving.move_track h.track m
  queue := by
    rcases Interleaving.move_disp m with he | ⟨da, hd, -⟩
    · rw [he]
      exact h.queue
    · exact (queue_move hd).trans h.queue

/-- The worker a group is offered to is one of the workers. -/
theorem offered_worker (h : Inv c s) {r₁ r₂ w : Nat}
    (hw : Dispatcher.offered c.build r₁ r₂ s.disp = some w) :
    w < c.build.numWorkerThreads := by
  have hmod : ∀ r, r % c.build.numWorkerThreads < c.build.numWorkerThreads := fun r =>
    Nat.mod_lt r c.build.threads_pos
  cases hpol : c.build.policy with
  | leastLoaded =>
    simp only [Dispatcher.offered, hpol] at hw
    exact List.mem_range.mp (h.queue.mem_iff.mp (List.mem_of_mem_head? hw))
  | rand =>
    simp only [Dispatcher.offered, hpol, Option.some.injEq] at hw
    exact hw ▸ hmod r₁
  | powerTwo =>
    simp only [Dispatcher.offered, hpol, Option.some.injEq] at hw
    rw [← hw]
    split
    · exact hmod r₁
    · exact hmod r₂

/-- One worker and the others. -/
theorem exists_others (s : State) {n w : Nat} (hw : w < n) :
    ∃ x, ∑ v ∈ Finset.range n, waitingAt (s.workers v) = waitingAt (s.workers w) + x ∧
      ∀ u, ∑ v ∈ Finset.range n, waitingAt (Function.update s.workers w u v) = waitingAt u + x := by
  have hmem := Finset.mem_range.mpr hw
  refine ⟨∑ v ∈ (Finset.range n).erase w, waitingAt (s.workers v),
    (Finset.add_sum_erase _ _ hmem).symm, fun u => ?_⟩
  rw [← Finset.add_sum_erase _ _ hmem, Function.update_self]
  refine congrArg _ (Finset.sum_congr rfl fun v hv => ?_)
  rw [Function.update_of_ne (Finset.ne_of_mem_erase hv)]

/-- Every step of the dispatcher or of a worker shows what the service allows. -/
theorem move_follows (h : Inv c s) (m : Move c s a t) :
    Run (service c.server) (waiting c s) (events c s a) (waiting c t) := by
  cases m with
  | rxBurst rxBufs d hd =>
    cases hd with
    | nothing hp => exact .nil _
    | receive _ hp hne hle =>
      have hin : inHand s.disp.pc = [] := by rw [hp]; rfl
      rw [waiting, waiting, hin, Multiset.coe_nil, zero_add]
      exact Run.receive rxBufs _
  | dispatch nbReturn r₁ r₂ w d u hd hw hu =>
    obtain ⟨x, hx, hux⟩ := exists_others s (offered_worker h hw)
    cases hd with
    | dispatch size rxBufs _ _ _ w' hp hne hw' hle =>
      have hgroup : group s.disp.pc = rxBufs.take size := by rw [hp]; rfl
      have hcut : (rxBufs : Multiset Mbuf) = (rxBufs.take size).drop nbReturn +
          (rxBufs.drop size + enqueued s nbReturn) := by
        rw [enqueued, hgroup, ← coe_take_add_drop size rxBufs,
          ← coe_take_add_drop nbReturn (rxBufs.take size)]
        abel
      have hs : waiting c s = (rxBufs.take size).drop nbReturn +
          (rxBufs.drop size + (waitingAt u + x)) := by
        rw [waiting, hp, hx, waitingAt_arrivals hu, inHand, hcut]
        abel
      rw [hs, waiting, hux, events, hgroup]
      exact Run.settle (fun m _ v => .dropped m v) _
  | endBurst d hd =>
    cases hd with
    | startCheckin size hp hc | noCheckin size hp hc =>
      rw [waiting, waiting, hp]
      exact .nil _
  | visit w d hw hd =>
    cases hd with
    | visit visited total w' _ _ hp hlt hw' =>
      rw [waiting, waiting, hp]
      exact .nil _
  | endCheckin d hd =>
    cases hd with
    | endCheckin visited total hp hlt =>
      rw [waiting, waiting, hp]
      exact .nil _
  | work w a u hw ha hu =>
    obtain ⟨x, hx, hux⟩ := exists_others s hw
    have hrun := (worker_follows (WorkerService.reachable_service (h.track.reach w)) hu ha).add
      (x + inHand s.disp.pc)
    rw [waiting, waiting, hx, hux, add_comm, add_comm _ (waitingAt u + x), add_assoc, add_assoc]
    exact hrun

theorem run_follows_inv {sqs : Nat → Nat} {as : List Act}
    (h : Machine.run (step c) as (Interleaving.init c sqs) = some s) :
    Inv c s :=
  Machine.run_induction (P := fun _ s => Inv c s) (init_follows c sqs)
    (fun _ _ _ _ _ hs ht => move_follows_inv hs (Interleaving.step_move ht)) h

theorem waiting_init (c : Config) (sqs : Nat → Nat) : waiting c (Interleaving.init c sqs) = 0 := by
  simp [waiting, Interleaving.init, Dispatcher.init, inHand, waitingAt, Worker.init, running,
    toSend, completed]

theorem run_follows {sqs : Nat → Nat} {as : List Act}
    (h : Machine.run (step c) as (Interleaving.init c sqs) = some s) :
    Run (service c.server) 0 (trace c as (Interleaving.init c sqs)) (waiting c s) := by
  rw [← waiting_init c sqs]
  exact Machine.run_followed (P := Inv c) Run.nil (fun _ _ _ _ _ h₁ h₂ => h₁.append h₂)
    (fun s a t hs ht => ⟨move_follows_inv hs (Interleaving.step_move ht),
      move_follows hs (Interleaving.step_move ht)⟩) (init_follows c sqs) h

/-- In every interleaving of the dispatcher with its workers, what is seen from outside is what a
server of independent requests may show. So each packet received still waits, was dropped at a full
ring, was refused because it is not for this server, or was answered, or failed to be, with the one
response that is built from it. -/
theorem server_answers_requests (c : Config) (sqs : Nat → Nat) (as : List Act) (s : State)
    (h : Machine.run (step c) as (Interleaving.init c sqs) = some s) :
    Run (service c.server) 0 (trace c as (Interleaving.init c sqs)) (waiting c s) ∧
      ∃ answered failed, Books (service c.server) 0 (trace c as (Interleaving.init c sqs))
        (waiting c s)
        answered failed :=
  ⟨run_follows h, (run_follows h).books⟩

/-- One request that is served. -/
theorem server_answers_requests_one :
    ∃ s, Machine.run (step Interleaving.shipped) ([.rxBurst [Worker.request], .dispatch 1 0 0] ++
        (Worker.iteration .completed 1 0 ++ Worker.iteration .completed 0 1).map (.work 0))
        (Interleaving.init Interleaving.shipped fun _ => 0) = some s ∧
      ∃ answered failed, Books (service Worker.shipped) 0 (trace Interleaving.shipped
        ([.rxBurst [Worker.request], .dispatch 1 0 0] ++
          (Worker.iteration .completed 1 0 ++ Worker.iteration .completed 0 1).map (.work 0))
        (Interleaving.init Interleaving.shipped fun _ => 0))
        (waiting Interleaving.shipped s) answered failed := by
  have h : (Machine.run (step Interleaving.shipped) ([.rxBurst [Worker.request], .dispatch 1 0 0] ++
      (Worker.iteration .completed 1 0 ++ Worker.iteration .completed 0 1).map (.work 0))
      (Interleaving.init Interleaving.shipped fun _ => 0)).isSome = true := by decide +kernel
  obtain ⟨s, hs⟩ := Option.isSome_iff_exists.mp h
  exact ⟨s, hs, (server_answers_requests _ _ _ s hs).2⟩

/-! ## When no more packets come -/

/-- The dispatcher receives nothing and has nothing to offer; jobs are preempted at most `n`
times. -/
def Settling (n : Nat) (s : State) : Act → Prop
  | .rxBurst rxBufs => rxBufs = []
  | .dispatch _ _ _ => False
  | .work w a => WorkerDrain.Quiescent n (s.workers w) a
  | .endBurst | .visit | .endCheckin => True

instance (n : Nat) (s : State) : ∀ a, Decidable (Settling n s a)
  | .rxBurst rxBufs => decidable_of_iff (rxBufs.isEmpty = true) List.isEmpty_iff
  | .dispatch _ _ _ => isFalse id
  | .work w a => inferInstanceAs (Decidable (WorkerDrain.Quiescent n (s.workers w) a))
  | .endBurst | .visit | .endCheckin => isTrue trivial

/-- The steps of worker `w`. -/
def stepsOf (w : Nat) : List Act → List Worker.Act
  | [] => []
  | .work v a :: as => if v = w then a :: stepsOf w as else stepsOf w as
  | _ :: as => stepsOf w as

/-- Meanwhile each worker makes a run of its own. -/
theorem settling_runs {n : Nat} {bs : List Act} (hin : inHand s.disp.pc = [])
    (h : Machine.run (step c) bs s = some t) (hq : Machine.Along (step c) (Settling n) bs s)
    (w : Nat) :
    inHand t.disp.pc = [] ∧ Machine.run (Worker.step c.server) (stepsOf w bs) (s.workers w) =
      some (t.workers w) ∧
      Machine.Along (Worker.step c.server) (WorkerDrain.Quiescent n) (stepsOf w bs)
        (s.workers w) := by
  induction bs generalizing s with
  | nil =>
    cases h
    exact ⟨hin, rfl, trivial⟩
  | cons b bs ih =>
    obtain ⟨u, hu, h⟩ := Option.bind_eq_some_iff.mp h
    have hq' := hq.2 u hu
    cases Interleaving.step_move hu with
    | rxBurst rxBufs d hd =>
      cases hd with
      | nothing hp => exact ih hin h hq'
      | receive _ hp hne hle => exact absurd hq.1 hne
    | dispatch nbReturn r₁ r₂ v d u hd hv hu => exact hq.1.elim
    | endBurst d hd =>
      have hd' : inHand d.pc = [] := by cases hd <;> rfl
      exact ih (s := { s with disp := d }) hd' h hq'
    | visit v d hv hd =>
      have hd' : inHand d.pc = [] := by cases hd; rfl
      exact ih (s := { s with disp := d, readAt := _ }) hd' h hq'
    | endCheckin d hd =>
      have hd' : inHand d.pc = [] := by cases hd; rfl
      exact ih (s := { s with disp := d }) hd' h hq'
    | work v a u hv ha hm =>
      obtain ⟨hint, hrun, halong⟩ := ih
        (s := { s with workers := Function.update s.workers v u }) hin h hq'
      by_cases hvw : v = w
      · subst hvw
        simp only [Function.update_self] at hrun halong
        rw [stepsOf, if_pos rfl]
        refine ⟨hint, ?_, hq.1, fun u' hu' => ?_⟩
        · rw [Machine.run_cons, Worker.move_step hm]
          exact hrun
        · cases hu'.symm.trans (Worker.move_step hm)
          exact halong
      · simp only [Function.update_of_ne (Ne.symm hvw)] at hrun halong
        rw [stepsOf, if_neg hvw]
        exact ⟨hint, hrun, halong⟩

theorem stepsOf_append (w : Nat) (as bs : List Act) :
    stepsOf w (as ++ bs) = stepsOf w as ++ stepsOf w bs := by
  induction as with
  | nil => rfl
  | cons a as ih =>
    cases a with
    | work v a =>
      by_cases hv : v = w
      · simp [stepsOf, hv, ih]
      · simp [stepsOf, hv, ih]
    | _ => simpa [stepsOf] using ih

theorem stepsOf_work (w v : Nat) (as : List Worker.Act) :
    stepsOf w (as.map (.work v)) = if v = w then as else [] := by
  induction as with
  | nil => simp [stepsOf]
  | cons a as ih =>
    rw [List.map_cons, stepsOf, ih]
    split <;> rfl

/-- A run of one worker is a run of the system. -/
theorem work_run {n w : Nat} (hw : w < c.build.numWorkerThreads) {as : List Worker.Act}
    {u : Worker.State} (h : Machine.run (Worker.step c.server) as (s.workers w) = some u)
    (hq : Machine.Along (Worker.step c.server) (WorkerDrain.Quiescent n) as (s.workers w)) :
    Machine.run (step c) (as.map (.work w)) s =
        some { s with workers := Function.update s.workers w u } ∧
      Machine.Along (step c) (Settling n) (as.map (.work w)) s := by
  induction as generalizing s with
  | nil =>
    cases h
    rw [Function.update_eq_self]
    exact ⟨rfl, trivial⟩
  | cons a as ih =>
    obtain ⟨x, hx, h⟩ := Option.bind_eq_some_iff.mp h
    have hstep : step c s (.work w a) = some { s with workers := Function.update s.workers w x } :=
      Interleaving.move_step (.work w a x hw hq.1.own (Worker.step_move hx))
    have hq' := hq.2 x hx
    have hself : Function.update s.workers w x w = x := Function.update_self ..
    rw [← hself] at h hq'
    obtain ⟨hrun, halong⟩ := ih (s := { s with workers := Function.update s.workers w x }) h hq'
    rw [Function.update_idem] at hrun
    refine ⟨?_, hq.1, fun t ht => ?_⟩
    · rw [List.map_cons, Machine.run_cons, hstep]
      exact hrun
    · rw [hstep] at ht
      cases ht
      exact halong

/-- The system is never stuck either: from every state the workers have runs of any length, to
their loop heads. -/
theorem exists_settling_run (hr : ∀ w, Worker.Reachable c.server (s.workers w)) (n : Nat)
    (k : Nat → Nat) :
    ∃ bs t, Machine.run (step c) bs s = some t ∧ Machine.Along (step c) (Settling n) bs s ∧
      ∀ w < c.build.numWorkerThreads, k w ≤ (stepsOf w bs).length ∧ (t.workers w).pc = .head := by
  -- one worker after the other, those that come later as they were
  have key : ∀ W ≤ c.build.numWorkerThreads, ∃ bs t, Machine.run (step c) bs s = some t ∧
      Machine.Along (step c) (Settling n) bs s ∧
      (∀ w < W, k w ≤ (stepsOf w bs).length ∧ (t.workers w).pc = .head) ∧
      ∀ w, W ≤ w → t.workers w = s.workers w := by
    intro W
    induction W with
    | zero => exact fun _ => ⟨[], s, rfl, trivial, fun w hw => (Nat.not_lt_zero w hw).elim,
        fun _ _ => rfl⟩
    | succ W ih =>
      intro hW
      obtain ⟨bs, t, ht, hq, hdone, hsame⟩ := ih (by omega)
      obtain ⟨as, u, hu, hqu, hk, hp⟩ := WorkerDrain.exists_quiescent_run (hr W) n (k W)
      rw [← hsame W (Nat.le_refl W)] at hu hqu
      obtain ⟨hrun, halong⟩ := work_run (by omega) hu hqu
      refine ⟨bs ++ as.map (.work W), _, Machine.run_join ht hrun,
        (Machine.along_append ..).mpr ⟨hq, fun t' ht' => ?_⟩, fun w hw => ?_, fun w hw => ?_⟩
      · rw [ht] at ht'
        cases ht'
        exact halong
      · rw [stepsOf_append, stepsOf_work, List.length_append]
        by_cases hwW : w = W
        · subst hwW
          simp only [if_true, Function.update_self]
          exact ⟨by omega, hp⟩
        · simp only [if_neg (Ne.symm hwW), Function.update_of_ne hwW]
          exact hdone w (by omega)
      · simp only [Function.update_of_ne (by omega : w ≠ W)]
        exact hsame w (by omega)
  obtain ⟨bs, t, ht, hq, hdone, -⟩ := key c.build.numWorkerThreads (Nat.le_refl _)
  exact ⟨bs, t, ht, hq, hdone⟩

/-- A worker at its loop head with nothing to do. -/
theorem waitingAt_drained {s : Worker.State} {sv : Worker.Server} (h : Worker.Reachable sv s)
    (hp : s.pc = .head)
    (hd : WorkerLoad.Drained s) : waitingAt s = 0 := by
  have htx := (WorkerDrain.all_handed h hp hd).1
  rw [txBufs_eq (WorkerService.reachable_service h), List.map_eq_nil_iff] at htx
  obtain ⟨hring, hrx, hbusy⟩ := hd
  simp [waitingAt, hring, hrx, htx, running, hbusy]

/-- From any state of any interleaving in which the dispatcher has no packet in hand: when no more
packets come and jobs are preempted at most `n` times, every worker has after a number of steps,
given by what it has outstanding, and at its next loop head, done with all its packets. Every packet
the server ever received was then dropped at a full ring, refused, or had its own response passed to
the NIC. -/
theorem every_request_settled (c : Config) (hpos : 0 < c.server.numWorkerCoros) (n : Nat)
    (hn : n < 4294967296)
    (sqs : Nat → Nat) (as bs : List Act) (s t : State)
    (hs : Machine.run (step c) as (Interleaving.init c sqs) = some s) (hin : inHand s.disp.pc = [])
    (ht : Machine.run (step c) bs s = some t) (hq : Machine.Along (step c) (Settling n) bs s)
    (hlen : ∀ w < c.build.numWorkerThreads,
      5 * ((n + 3) * WorkerLoad.outstanding (s.workers w)) + 8 < (stepsOf w bs).length)
    (hhead : ∀ w < c.build.numWorkerThreads, (t.workers w).pc = .head) :
    ∃ answered failed, Books (service c.server) 0 (trace c (as ++ bs) (Interleaving.init c sqs)) 0
      answered failed := by
  have hrun := Machine.run_join hs ht
  have hnone : waiting c t = 0 := by
    have hin' := (settling_runs hin ht hq 0).1
    rw [waiting, hin', Multiset.coe_nil, zero_add]
    refine Finset.sum_eq_zero fun w hw => ?_
    have hlt := Finset.mem_range.mp hw
    obtain ⟨-, hrunw, halong⟩ := settling_runs hin ht hq w
    have hdrained := WorkerDrain.drained_of_quiescent hpos hn ((run_follows_inv hs).track.reach w)
      hrunw halong (hlen w hlt)
    exact waitingAt_drained ((run_follows_inv hrun).track.reach w) (hhead w hlt) hdrained
  have hfollows := run_follows hrun
  rw [hnone] at hfollows
  exact hfollows.books

/-- One request, and enough iterations of every worker. -/
def settle : List Act :=
  (List.range shippedThreads).flatMap fun w =>
    ((if w = 0 then Worker.iteration .completed 1 0 ++ Worker.iteration .completed 0 1 else []) ++
      Worker.iteration .completed 0 0 ++ Worker.iteration .completed 0 0 ++ Worker.iteration
        .completed 0 0).map (.work w)

theorem every_request_settled_one :
    ∃ t, Machine.run (step Interleaving.shipped)
      ([.rxBurst [Worker.request], .dispatch 1 0 0] ++ settle)
        (Interleaving.init Interleaving.shipped fun _ => 0) = some t ∧
      ∃ answered failed, Books (service Worker.shipped) 0 (trace Interleaving.shipped
        ([.rxBurst [Worker.request], .dispatch 1 0 0] ++ settle)
        (Interleaving.init Interleaving.shipped fun _ => 0)) 0 answered failed := by
  have h : (Machine.run (step Interleaving.shipped) [.rxBurst [Worker.request], .dispatch 1 0 0]
      (Interleaving.init Interleaving.shipped fun _ => 0)).any (fun s =>
        (inHand s.disp.pc).isEmpty &&
        decide (Machine.Along (step Interleaving.shipped) (Settling 0) settle s) &&
        decide (∀ w < shippedThreads, 5 * ((0 + 3) * WorkerLoad.outstanding (s.workers w)) + 8 <
          (stepsOf w settle).length) &&
        (Machine.run (step Interleaving.shipped) settle s).any fun t =>
          decide (∀ w < shippedThreads, (t.workers w).pc = .head)) = true := by decide +kernel
  obtain ⟨s, hs, h⟩ := (Option.any_eq_true _ _).mp h
  simp only [Bool.and_eq_true, List.isEmpty_iff, decide_eq_true_eq] at h
  obtain ⟨⟨⟨hin, hq⟩, hlen⟩, ht⟩ := h
  obtain ⟨t, ht, hhead⟩ := (Option.any_eq_true _ _).mp ht
  exact ⟨t, Machine.run_join hs ht, every_request_settled Interleaving.shipped (by decide) 0
    (by decide) _ _ _ s t hs
    hin ht hq hlen (of_decide_eq_true hhead)⟩

end TinyQuanta.EndToEnd
