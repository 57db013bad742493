import TinyQuanta.WorkerBuffers

/-!
# Exactly-once service in a worker

A job is a packet together with the slot it is bound to and the response built
for it. The log lists the jobs that were bound and the jobs that completed; the
deque of busy coroutines must account for the difference.
-/
namespace TinyQuanta.WorkerService

open Params Packet Worker WorkerBuffers
open WorkerSlots (u16_dequeue)

structure Job where
  coro : Nat
  rx : Rx
  tx : Tx

def Event.binds : Event → List Job
  | .bound c rx tx => [⟨c, rx, tx⟩]
  | _ => []

def Event.completes : Event → List Job
  | .finished c (some rx) (some tx) => [⟨c, rx, tx⟩]
  | _ => []

def Event.hands : Event → List (Option Tx)
  | .transmitted txs _ => txs
  | _ => []

/-- Every job there ever was, in the order in which packets were bound. -/
def jobs (s : State) : List Job := s.log.flatMap Event.binds

/-- The completed jobs, in the order of their completion yields. -/
def completed (s : State) : List Job := s.log.flatMap Event.completes

/-- The sequence of all buffers handed to `rte_eth_tx_burst`. -/
def handed (s : State) : List (Option Tx) := s.log.flatMap Event.hands

/-- The job a slot is bound to. -/
def jobAt (coros : Nat → CoroInfo) (c : Nat) : Option Job :=
  match (coros c).rxMbuf, (coros c).txMbuf with
  | some rx, some tx => some ⟨c, rx, tx⟩
  | _, _ => none

/-- The jobs bound to busy coroutines. -/
def running (s : State) : List Job := s.busyCoros.filterMap (jobAt s.coros)

def validRx (sv : Server) (rxs : List Rx) : List Rx :=
  rxs.filter fun rx => isRxMbufValid sv.net rx.mbuf

/-- A slot keeps its job when its mbufs are left alone. -/
theorem jobAt_update (coros : Nat → CoroInfo) (c : Nat) (info : CoroInfo)
    (hr : info.rxMbuf = (coros c).rxMbuf) (ht : info.txMbuf = (coros c).txMbuf) :
    jobAt (Function.update coros c info) = jobAt coros := by
  funext d
  by_cases hd : d = c
  · subst hd
    simp [jobAt, hr, ht]
  · simp [jobAt, Function.update_of_ne hd]

theorem jobAt_eq_some {coros : Nat → CoroInfo} {c : Nat} {j : Job} (h : jobAt coros c = some j) :
    j.coro = c ∧ (coros c).rxMbuf = some j.rx ∧ (coros c).txMbuf = some j.tx := by
  unfold jobAt at h
  split at h
  · cases h
    exact ⟨rfl, ‹_›, ‹_›⟩
  · cases h

theorem filterMap_jobAt_of_notMem (coros : Nat → CoroInfo) (c : Nat) (info : CoroInfo)
    (l : List Nat) (h : c ∉ l) :
    l.filterMap (jobAt (Function.update coros c info)) = l.filterMap (jobAt coros) := by
  apply List.filterMap_congr
  intro d hd
  have hne : d ≠ c := by
    rintro rfl
    exact h hd
  simp [jobAt, Function.update_of_ne hne]

/-- What links the deque, the slots and the log. -/
structure Service (sv : Server) (s : State) : Prop where
  books : RxLedger sv s
  attached : ∀ c ∈ s.busyCoros, ∃ j, jobAt s.coros c = some j
  taken : (validRx sv (dequeued s)).Perm (validRx sv s.rxBufs ++ (jobs s).map Job.rx)
  ids : (jobs s).map (fun j => j.tx.id) = List.range s.allocated
  built : ∀ j ∈ jobs s, isRxMbufValid sv.net j.rx.mbuf = true ∧
    j.tx.frame = responseFrame sv.net j.rx.mbuf
  split : (jobs s).Perm (running s ++ completed s)
  sent : handed s ++ s.txBufs = (completed s).map fun j => some j.tx

theorem init_service (sv : Server) (sq : Nat) : Service sv (init sv sq) where
  books := init_rxLedger sv sq
  attached := by simp [init]
  taken := by simp [init, validRx, dequeued, jobs]
  ids := by simp [init, jobs]
  built := by simp [init, jobs]
  split := by simp [init, jobs, running, completed]
  sent := by simp [init, handed, completed]

/-- The coroutine at the front of the deque yields the address of its own `push_type`. -/
def Completes (s : State) (a : Act) : Prop := a = .resume .completed ∧ s.busyCoros ≠ []

/-- What a step can do to the jobs. -/
inductive JobStep (s : State) (a : Act) (t : State) : Prop where
  | complete (j : Job) (ha : Completes s a) (hr : running s = j :: running t)
    (hj : jobs t = jobs s) (hf : completed t = completed s ++ [j])
    (hrx : t.returnRxBufs = s.returnRxBufs ++ [some j.rx])
    (htx : t.txBufs = s.txBufs ++ [some j.tx])
  | bind (j : Job) (ha : ¬ Completes s a) (hr : running t = j :: running s)
    (hj : jobs t = jobs s ++ [j]) (hf : completed t = completed s)
  | rotate (ha : ¬ Completes s a) (hr : (running t).Perm (running s)) (hj : jobs t = jobs s)
    (hf : completed t = completed s)

section

attribute [local simp] dequeued jobs completed handed running Event.takenIn Event.binds
  Event.completes Event.hands

theorem move_jobs {sv : Server} {s t : State} {a : Act} (h : Service sv s) (m : Move sv s a t) :
    JobStep s a t := by
  cases m with
  | preempt c rest hp hb =>
    refine .rotate (by simp [Completes]) ?_ (by simp) (by simp)
    simpa [hb, jobAt_update] using (List.perm_append_singleton c rest).filterMap (jobAt s.coros)
  | finish c rest hp hb =>
    obtain ⟨j, hj⟩ := h.attached c (by simp [hb])
    obtain ⟨hc, hr, ht⟩ := jobAt_eq_some hj
    subst hc
    exact .complete j ⟨rfl, by simp [hb]⟩ (by simp [hb, hj, jobAt_update]) (by simp)
      (by simp [hr, ht]) (by simp [hr]) (by simp [ht])
  | bind rx rest c idle hp hr hv hi =>
    have hc := idle_not_busy h.books.inv hi
    refine .bind ⟨c, rx, ⟨s.allocated, responseFrame sv.net rx.mbuf⟩⟩ (by simp [Completes]) ?_
      (by simp) (by simp)
    simp [jobAt, filterMap_jobAt_of_notMem s.coros c _ _ hc]
  | idle r hp hb => exact .rotate (by simp [Completes, hb]) (by simp) (by simp) (by simp)
  | _ =>
    exact .rotate (by simp [Completes]) (by simp [arrive]) (by simp [arrive]) (by simp [arrive])

theorem move_attached {sv : Server} {s t : State} {a : Act} (h : Service sv s)
    (m : Move sv s a t) : ∀ c ∈ t.busyCoros, ∃ j, jobAt t.coros c = some j := by
  have ha := h.attached
  cases m with
  | preempt c rest hp hb =>
    intro d hd
    have hd' : d ∈ s.busyCoros := by simpa [hb, or_comm] using hd
    simpa [jobAt_update] using ha d hd'
  | finish c rest hp hb =>
    intro d hd
    have hd' : d ∈ s.busyCoros := by simp [hb, show d ∈ rest from hd]
    simpa [jobAt_update] using ha d hd'
  | bind rx rest c idle hp hr hv hi =>
    intro d hd
    by_cases he : d = c
    · subst he
      simp [jobAt]
    · have hd' : d ∈ s.busyCoros := by simpa [he] using hd
      simpa [jobAt, Function.update_of_ne he] using ha d hd'
  | _ => exact ha

theorem move_taken {sv : Server} {s t : State} {a : Act} (h : Service sv s) (m : Move sv s a t) :
    (validRx sv (dequeued t)).Perm (validRx sv t.rxBufs ++ (jobs t).map Job.rx) := by
  have ht := h.taken
  cases m with
  | dequeue hp hd =>
    have hn := h.books.inv.pendingAt (by simp [hp])
    rw [hn] at ht
    simp [validRx, u16_dequeue h.books.inv.ring] at ht ⊢
    exact (ht.append_right _).trans List.perm_append_comm
  | keep rx rest hp hr hv room => simpa [validRx, hr, hv] using ht
  | lose rx rest hp hr hv full => simpa [validRx, hr, hv] using ht
  | bind rx rest c idle hp hr hv hi =>
    simp [validRx, hr, hv] at ht ⊢
    refine ht.trans (List.Perm.append_left _ ?_)
    exact (List.perm_append_singleton rx _).symm
  | _ => simpa [arrive] using ht

/-- A step binds one packet, to a response that is built for it, or none. -/
theorem move_binds {sv : Server} {s t : State} {a : Act} (m : Move sv s a t) :
    (jobs t = jobs s ∧ t.allocated = s.allocated) ∨
      ∃ c rx, isRxMbufValid sv.net rx.mbuf = true ∧
        jobs t = jobs s ++ [⟨c, rx, ⟨s.allocated, responseFrame sv.net rx.mbuf⟩⟩] ∧
        t.allocated = s.allocated + 1 := by
  cases m with
  | bind rx rest c idle hp hr hv hidle => exact .inr ⟨c, rx, hv, by simp, rfl⟩
  | _ => exact .inl ⟨by simp [arrive], rfl⟩

theorem move_built {sv : Server} {s t : State} {a : Act} (h : Service sv s) (m : Move sv s a t) :
    (jobs t).map (fun j => j.tx.id) = List.range t.allocated ∧
      ∀ j ∈ jobs t, isRxMbufValid sv.net j.rx.mbuf = true ∧
        j.tx.frame = responseFrame sv.net j.rx.mbuf := by
  rcases move_binds m with ⟨hj, ha⟩ | ⟨c, rx, hv, hj, ha⟩
  · rw [hj, ha]
    exact ⟨h.ids, h.built⟩
  · rw [hj, ha]
    constructor
    · rw [List.map_append, h.ids, List.range_succ]
      rfl
    · intro j hmem
      rcases List.mem_append.mp hmem with hmem | hmem
      · exact h.built j hmem
      · cases List.mem_singleton.mp hmem
        exact ⟨hv, rfl⟩

theorem move_sent {sv : Server} {s t : State} {a : Act} (h : Service sv s) (m : Move sv s a t) :
    handed t ++ t.txBufs = (completed t).map fun j => some j.tx := by
  have hs := h.sent
  cases m with
  | finish c rest hp hb =>
    obtain ⟨j, hj⟩ := h.attached c (by simp [hb])
    obtain ⟨hc, hr, ht⟩ := jobAt_eq_some hj
    simp [hr, ht, ← List.append_assoc] at hs ⊢
    rw [hs]
  | _ => simpa [arrive] using hs

end

theorem move_split {s t : State} {a : Act} (h : (jobs s).Perm (running s ++ completed s))
    (m : JobStep s a t) : (jobs t).Perm (running t ++ completed t) := by
  cases m with
  | complete j ha hr hj hf hrx htx =>
    rw [hj, hf, ← List.append_assoc]
    rw [hr] at h
    exact h.trans (List.perm_append_singleton j _).symm
  | bind j ha hr hj hf =>
    rw [hr, hj, hf]
    exact (List.perm_append_singleton j _).trans (h.cons j)
  | rotate ha hr hj hf =>
    rw [hj, hf]
    exact h.trans (hr.symm.append_right _)

theorem move_service {sv : Server} {s t : State} {a : Act} (h : Service sv s) (m : Move sv s a t) :
    Service sv t where
  books := move_rxLedger h.books m
  attached := move_attached h m
  taken := move_taken h m
  ids := (move_built h m).1
  built := (move_built h m).2
  split := move_split h.split (move_jobs h m)
  sent := move_sent h m

theorem reachable_service {sv : Server} {s : State} (h : Reachable sv s) : Service sv s :=
  reachable_invariant (init_service sv) (fun _ _ _ => move_service) h

/-- Every busy coroutine has its job, in the order of the deque. -/
theorem running_coros {sv : Server} {s : State} (h : Service sv s) :
    (running s).map Job.coro = s.busyCoros := by
  have ha := h.attached
  unfold running
  generalize s.busyCoros = l at ha
  induction l with
  | nil => rfl
  | cons c l ih =>
    obtain ⟨j, hj⟩ := ha c (by simp)
    rw [List.filterMap_cons_some hj, List.map_cons, (jobAt_eq_some hj).1,
      ih fun d hd => ha d (by simp [hd])]

/-- No two jobs serve the same packet. -/
theorem nodup_jobs {sv : Server} {s : State} (h : Service sv s) :
    ((jobs s).map fun j => j.rx.seq).Nodup := by
  have hv : ((validRx sv (dequeued s)).map Rx.seq).Nodup :=
    (nodup_dequeued h.books).sublist (List.filter_sublist.map Rx.seq)
  have hp := (h.taken.map Rx.seq).nodup_iff.mp hv
  rw [List.map_append, List.map_map] at hp
  exact hp.of_append_right

/-- Exactly-once service, in every state of every run: the valid packets dequeued are those
still to be handled and those bound to a coroutine, no packet twice; the jobs bound are those
running and those completed; each has the response built from its own, valid, packet; the
buffers handed to the NIC, followed by those waiting, are the responses of the completed jobs
in completion order. A completion yield takes its own job off the deque and appends the two
mbufs of that job to the two flush buffers; no other step completes or unbinds a job. -/
theorem service_exactly_once (sv : Server) (s : State) (h : Reachable sv s) :
    (validRx sv (dequeued s)).Perm (validRx sv s.rxBufs ++ (jobs s).map Job.rx) ∧
    (s.pc = .head → s.rxBufs = []) ∧
    ((jobs s).map fun j => j.rx.seq).Nodup ∧ ((jobs s).map fun j => j.tx.id).Nodup ∧
    (∀ j ∈ jobs s, isRxMbufValid sv.net j.rx.mbuf = true ∧
      j.tx.frame = responseFrame sv.net j.rx.mbuf) ∧
    (running s).map Job.coro = s.busyCoros ∧
    (jobs s).Perm (running s ++ completed s) ∧
    handed s ++ s.txBufs = (completed s).map (fun j => some j.tx) ∧
    ∀ a t, step sv s a = some t →
      (Completes s a → ∃ j, running s = j :: running t ∧ completed t = completed s ++ [j] ∧
        t.returnRxBufs = s.returnRxBufs ++ [some j.rx] ∧
        t.txBufs = s.txBufs ++ [some j.tx]) ∧
      (¬ Completes s a → completed t = completed s ∧ ∀ j ∈ running s, j ∈ running t) := by
  have hs := reachable_service h
  have hids : ((jobs s).map fun j => j.tx.id).Nodup := by
    rw [hs.ids]
    exact List.nodup_range
  refine ⟨hs.taken, fun hp => hs.books.inv.pendingAt (by simp [hp]), nodup_jobs hs, hids, hs.built,
    running_coros hs, hs.split, hs.sent, fun a t ht => ?_⟩
  cases move_jobs hs (step_move ht) with
  | complete j ha hr hj hf hrx htx =>
    exact ⟨fun _ => ⟨j, hr, hf, hrx, htx⟩, fun hn => absurd ha hn⟩
  | bind j ha hr hj hf =>
    rw [hr]
    exact ⟨fun hc => absurd hc ha, fun _ => ⟨hf, fun i hi => List.mem_cons_of_mem j hi⟩⟩
  | rotate ha hr hj hf =>
    exact ⟨fun hc => absurd hc ha, fun _ => ⟨hf, fun i hi => hr.mem_iff.mpr hi⟩⟩

/-- After one request was served. -/
theorem service_exactly_once_one_request :
    ∃ s, Reachable shipped s ∧ (completed s).length = 1 ∧
      handed s ++ s.txBufs = (completed s).map (fun j => some j.tx) := by
  have h : (Machine.run (step shipped) (oneRequest 1) (init shipped 0)).any
      (fun s => decide ((completed s).length = 1)) = true := by decide +kernel
  obtain ⟨s, hs, hc⟩ := Option.any_eq_true _ _ |>.mp h
  have hr : Reachable shipped s := ⟨0, _, hs⟩
  exact ⟨s, hr, of_decide_eq_true hc, (service_exactly_once shipped s hr).2.2.2.2.2.2.2.1⟩

end TinyQuanta.WorkerService
