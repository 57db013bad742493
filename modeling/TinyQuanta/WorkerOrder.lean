import TinyQuanta.WorkerService

/-!
# First come, first served

With the quantum of the `FCFS` build no job is preempted, so a job starts and ends
in one resume and every busy coroutine has yet to start. A burst is put in front
of the deque in ring order. Whether that keeps the order of arrival depends on
what is in the deque at that moment.
-/
namespace TinyQuanta.WorkerOrder

open Params Packet Worker WorkerBuffers WorkerService

/-- The packets whose jobs were started, in the order in which they were. -/
def started (s : State) : List Rx := (completed s).map Job.rx

/-- The packets whose jobs wait in the deque, from its front. -/
def waiting (s : State) : List Rx := (running s).map Job.rx

/-- The valid packets the dispatcher put on the ring, in that order. -/
def enqueued (sv : Server) (s : State) : List Rx := validRx sv (dequeued s ++ s.ring)

/-- No job runs past its quantum. -/
def Unpreempted (s : State) : Act → Prop
  | .resume r => r = .completed ∨ s.busyCoros = []
  | _ => True

instance (s : State) : ∀ a, Decidable (Unpreempted s a)
  | .resume _ => instDecidableOr
  | .arrive _ => isTrue trivial
  | .dispatch => isTrue trivial
  | .handle => isTrue trivial
  | .transmit _ => isTrue trivial
  | .giveBack => isTrue trivial

/-- Valid packets are taken off the ring only when no job waits. -/
def NoOvertaking (sv : Server) (s : State) : Act → Prop
  | .dispatch => s.pc = .dispatch → dispatchReady s →
    s.busyCoros = [] ∨ validRx sv (s.ring.take (burst s)) = []
  | _ => True

instance (sv : Server) (s : State) : ∀ a, Decidable (NoOvertaking sv s a)
  | .dispatch => inferInstanceAs (Decidable (s.pc = .dispatch → dispatchReady s →
      s.busyCoros = [] ∨ validRx sv (s.ring.take (burst s)) = []))
  | .resume _ => isTrue trivial
  | .arrive _ => isTrue trivial
  | .handle => isTrue trivial
  | .transmit _ => isTrue trivial
  | .giveBack => isTrue trivial

/-- Between started and waiting jobs stand the packets of a burst not handled yet. -/
structure Queue (sv : Server) (s : State) : Prop where
  service : Service sv s
  order : started s ++ (validRx sv s.rxBufs ++ waiting s) = validRx sv (dequeued s)

theorem init_queue (sv : Server) (sq : Nat) : Queue sv (init sv sq) where
  service := init_service sv sq
  order := by simp [init, started, completed, validRx, waiting, running, dequeued]

section

attribute [local simp] started waiting validRx dequeued completed running Event.takenIn
  Event.completes

theorem move_queue {sv : Server} {s t : State} {a : Act} (h : Queue sv s) (m : Move sv s a t)
    (hu : Unpreempted s a) (ho : NoOvertaking sv s a) : Queue sv t := by
  refine ⟨move_service h.service m, ?_⟩
  have hq := h.order
  have hi := h.service.books.inv
  cases m with
  | preempt c rest hp hb =>
    rcases hu with hu | hu
    · cases hu
    · simp [hb] at hu
  | finish c rest hp hb =>
    obtain ⟨j, hj⟩ := h.service.attached c (by simp [hb])
    obtain ⟨-, hr, ht⟩ := jobAt_eq_some hj
    have hn := hi.pendingAt (by simp [hp])
    simpa [hb, hj, hn, hr, ht, jobAt_update] using hq
  | dequeue hp hd =>
    have hn := hi.pendingAt (by simp [hp])
    rcases ho hp hd with hb | hv
    · simp [hb, hn] at hq
      simp [hb, WorkerSlots.u16_dequeue hi.ring, hq]
    · simp only [validRx] at hv
      simp [hn] at hq
      simp only [started, waiting, validRx, dequeued, completed, running, List.flatMap_append,
        List.filter_append, WorkerSlots.u16_dequeue hi.ring, hv]
      simpa [hv] using hq
  | keep rx rest hp hr hv room => simpa [hr, hv] using hq
  | lose rx rest hp hr hv full => simpa [hr, hv] using hq
  | bind rx rest c idle hp hr hv hidle =>
    have hc := idle_not_busy hi hidle
    simpa [hr, hv, jobAt, filterMap_jobAt_of_notMem s.coros c _ _ hc] using hq
  | _ => simpa [arrive] using hq

end

/-- What has been started is an initial part of what was enqueued. -/
theorem Queue.in_order {sv : Server} {s : State} (h : Queue sv s) :
    started s <+: enqueued sv s := by
  refine ⟨validRx sv s.rxBufs ++ waiting s ++ validRx sv s.ring, ?_⟩
  rw [← List.append_assoc, h.order]
  simp [enqueued, validRx]

theorem run_queue {sv : Server} {sq : Nat} {as : List Act} {s : State}
    (h : Machine.run (step sv) as (init sv sq) = some s)
    (ha : Machine.Along (step sv) (fun s a => Unpreempted s a ∧ NoOvertaking sv s a) as
      (init sv sq)) : Queue sv s :=
  Machine.run_invariant (init_queue sv sq)
    (fun _ _ _ hq hc ht => move_queue hq (step_move ht) hc.1 hc.2) h ha

/-- If no job is preempted, and valid packets are dequeued only when no job waits, valid packets
start in the order in which they were enqueued. -/
theorem first_come_first_served (sv : Server) (sq : Nat) (as : List Act) (s : State)
    (h : Machine.run (step sv) as (init sv sq) = some s)
    (ha : Machine.Along (step sv) (fun s a => Unpreempted s a ∧ NoOvertaking sv s a) as
      (init sv sq)) : started s <+: enqueued sv s := by
  exact (run_queue h ha).in_order

/-- Two requests in one burst; the first one has been started. -/
def twoRequests : List Act :=
  [.arrive request, .arrive request] ++ iteration .completed 2 0 ++ [.resume .completed]

theorem first_come_first_served_two_requests :
    ∃ s, Machine.run (step shipped) twoRequests (init shipped 0) = some s ∧
      Machine.Along (step shipped) (fun s a => Unpreempted s a ∧ NoOvertaking shipped s a)
        twoRequests (init shipped 0) ∧
      (started s).map Rx.seq = [0] ∧ started s <+: enqueued shipped s := by
  have h : (Machine.run (step shipped) twoRequests (init shipped 0)).any
      (fun s => decide ((started s).map Rx.seq = [0])) = true := by decide +kernel
  have ha : Machine.Along (step shipped) (fun s a => Unpreempted s a ∧ NoOvertaking shipped s a)
      twoRequests (init shipped 0) := by decide +kernel
  obtain ⟨s, hs, hd⟩ := Option.any_eq_true _ _ |>.mp h
  exact ⟨s, hs, ha, of_decide_eq_true hd, first_come_first_served shipped 0 twoRequests s hs ha⟩

/-- With five slots or more a packet that comes while the fifth job waits is started before it:
after four jobs `dispatch_index` reaches its period and the new packet goes to the front. -/
def sixRequests : List Act :=
  List.replicate 5 (.arrive request) ++ iteration .completed 5 0 ++
    [.resume .completed, .dispatch, .transmit 0, .giveBack] ++
    [.resume .completed, .dispatch, .transmit 2, .giveBack] ++
    [.resume .completed, .dispatch, .transmit 0, .giveBack] ++
    [.arrive request] ++ iteration .completed 1 2 ++ [.resume .completed]

theorem sixRequests_overtakes :
    ∃ s, Machine.run (step shipped) sixRequests (init shipped 0) = some s ∧
      Machine.Along (step shipped) Unpreempted sixRequests (init shipped 0) ∧
      (started s).map Rx.seq = [0, 1, 2, 3, 5] ∧ ¬ started s <+: enqueued shipped s := by
  have h : (Machine.run (step shipped) sixRequests (init shipped 0)).any (fun s =>
      decide ((started s).map Rx.seq = [0, 1, 2, 3, 5] ∧
        (enqueued shipped s).map Rx.seq = [0, 1, 2, 3, 4, 5])) = true := by decide +kernel
  have hu : Machine.Along (step shipped) Unpreempted sixRequests (init shipped 0) := by
    decide +kernel
  obtain ⟨s, hs, hd⟩ := Option.any_eq_true _ _ |>.mp h
  obtain ⟨hst, hen⟩ := of_decide_eq_true hd
  refine ⟨s, hs, hu, hst, fun hp => ?_⟩
  have hm := hp.map Rx.seq
  rw [hst, hen] at hm
  revert hm
  decide

/-! ## Pools no larger than the dequeue period -/

/-- The period is not up before the jobs of a burst have been run. -/
structure Paced (sv : Server) (s : State) : Prop where
  inv : WorkerSlots.Inv sv s
  room : s.pc ≠ .handle → s.busyCoros ≠ [] →
    s.busyCoros.length + s.dispatchIndex ≤ dispatchRingDequeuePeriod
  forced : s.pc = .dispatch → s.forceDispatch = true → s.busyCoros = []

theorem init_paced (sv : Server) (sq : Nat) : Paced sv (init sv sq) := by
  refine ⟨WorkerSlots.init_inv sv sq, ?_, ?_⟩ <;> simp [init]

theorem move_paced {sv : Server} {s t : State} {a : Act}
    (hn : sv.numWorkerCoros ≤ dispatchRingDequeuePeriod) (h : Paced sv s) (m : Move sv s a t)
    (hu : Unpreempted s a) : Paced sv t := by
  refine ⟨WorkerSlots.move_inv h.inv m, ?_, ?_⟩
  · cases m with
    | idle r hp hb => exact fun _ hne => absurd hb hne
    | preempt c rest hp hb =>
      rcases hu with hu | hu
      · cases hu
      · simp [hb] at hu
    | finish c rest hp hb =>
      intro _ _
      have hr := h.room (by simp [hp]) (by simp [hb])
      simp only [hb, List.length_cons, dispatchRingDequeuePeriod] at hr
      simp only [u16, dispatchRingDequeuePeriod]
      omega
    | handled hp hr =>
      intro _ _
      have hl := WorkerSlots.length_slots h.inv
      simp only
      omega
    | wait hp hd => exact fun _ => h.room (by simp [hp])
    | send nbTx hp ht hn => exact fun _ => h.room (by simp [hp])
    | hold nbTx hp ht => exact fun _ => h.room (by simp [hp])
    | free hp hf => exact fun _ => h.room (by simp [hp])
    | defer hp hf => exact fun _ => h.room (by simp [hp])
    | arrive m room => exact h.room
    | _ => simp_all
  · cases m with
    | arrive m room => exact h.forced
    | idle r hp hb => exact fun _ _ => hb
    | finish c rest hp hb => simp
    | _ => simp_all

/-- A worker with at most `DISPATCH_RING_DEQUEUE_PERIOD` coroutines has run a whole burst when it
takes the next one, so it serves in order whatever arrives. -/
theorem small_pool_in_order (sv : Server) (hn : sv.numWorkerCoros ≤ dispatchRingDequeuePeriod)
    (sq : Nat) (as : List Act) (s : State) (h : Machine.run (step sv) as (init sv sq) = some s)
    (hu : Machine.Along (step sv) Unpreempted as (init sv sq)) : started s <+: enqueued sv s := by
  have ha : Machine.Along (step sv) (fun s a => Unpreempted s a ∧ NoOvertaking sv s a) as
      (init sv sq) := by
    refine Machine.along_strengthen (P := Paced sv)
      (fun s a t hs hc ht => move_paced hn hs (step_move ht) hc) ?_ (init_paced sv sq) hu
    intro s a hs hc
    refine ⟨hc, ?_⟩
    cases a with
    | dispatch =>
      intro hp hd
      left
      by_contra hne
      have hroom := hs.room (by simp [hp]) hne
      have hpos := List.length_pos_iff.mpr hne
      rcases hd with hd | ⟨hd, -⟩
      · exact hne (hs.forced hp hd)
      · omega
    | _ => trivial
  exact (run_queue h ha).in_order

end TinyQuanta.WorkerOrder
