import TinyQuanta.Worker

/-!
# Coroutine slots and buffer sizes of a worker

The indices grow in the first stage and in the handling loop and are reset only
by tests for equality, so each bound is stated with the place of the loop at
which it holds strictly.
-/
namespace TinyQuanta.WorkerSlots

open Params Packet Worker

/-- What every stage of the loop keeps. -/
structure Inv (sv : Server) (s : State) : Prop where
  slots : (s.idleCoros ++ s.busyCoros).Perm (List.range sv.numWorkerCoros)
  ring : s.ring.length ≤ ringCapacity
  pending : s.rxBufs.length ≤ s.idleCoros.length
  pendingAt : s.pc ≠ .handle → s.rxBufs = []
  returns : s.returnRxBufs.length ≤ returnRingBurstSize
  returnsAt : s.pc = .head → s.returnRxBufs.length < returnRingBurstSize
  sends : s.txBufs.length ≤ txQueueBurstSize
  sendsAt : s.pc = .head ∨ s.pc = .giveBack → s.txBufs.length < txQueueBurstSize

theorem init_inv (sv : Server) (sq : Nat) : Inv sv (init sv sq) := by
  constructor <;> simp [init, returnRingBurstSize, txQueueBurstSize]

/-- The ring is far too small for its length to be truncated by `uint16_t num_rx_buf`. -/
theorem u16_dequeue {s : State} (h : s.ring.length ≤ ringCapacity) :
    u16 (burst s) = burst s := by
  simp only [ringCapacity, dispatchRingSize] at h
  unfold u16 burst
  omega

theorem move_inv {sv : Server} {s t : State} {a : Act} (h : Inv sv s) (m : Move sv s a t) :
    Inv sv t := by
  cases m with
  | arrive m room =>
    exact { h with ring := by simp only [arrive, List.length_append, List.length_singleton]; omega }
  | idle r hp hb =>
    exact { h with
      pendingAt := fun _ => h.pendingAt (by simp [hp])
      returnsAt := by simp
      sendsAt := by simp }
  | preempt c rest hp hb =>
    have hs := h.slots
    rw [hb] at hs
    exact { h with
      slots := ((List.perm_append_singleton c rest).append_left s.idleCoros).trans hs
      pendingAt := fun _ => h.pendingAt (by simp [hp])
      returnsAt := by simp
      sendsAt := by simp }
  | finish c rest hp hb =>
    have hs := h.slots
    rw [hb] at hs
    have hr := h.returnsAt hp
    have ht := h.sendsAt (.inl hp)
    have hn := h.pendingAt (by simp [hp])
    exact { h with
      slots := by simpa using hs
      pending := by simp [hn]
      pendingAt := fun _ => hn
      returns := by simp only [List.length_append, List.length_singleton]; omega
      returnsAt := by simp
      sends := by simp only [List.length_append, List.length_singleton]; omega
      sendsAt := by simp }
  | dequeue hp hd =>
    exact { h with
      ring := by simp only [List.length_drop]; have := h.ring; omega
      pending := by simp only [u16_dequeue h.ring, List.length_take]; unfold burst; omega
      pendingAt := by simp
      returnsAt := by simp
      sendsAt := by simp }
  | wait hp hd =>
    exact { h with
      pendingAt := fun _ => h.pendingAt (by simp [hp])
      returnsAt := by simp
      sendsAt := by simp }
  | handled hp hr =>
    exact { h with pendingAt := fun _ => hr, returnsAt := by simp, sendsAt := by simp }
  | keep rx rest hp hr hv room =>
    have hn := h.pending
    rw [hr, List.length_append] at hn
    exact { h with
      pending := by simp only; omega
      pendingAt := fun hne => absurd hp hne
      returns := by simp only [List.length_append, List.length_singleton]; omega
      returnsAt := by simp [hp] }
  | lose rx rest hp hr hv full =>
    have hn := h.pending
    rw [hr, List.length_append] at hn
    exact { h with pending := by simp only; omega, pendingAt := fun hne => absurd hp hne }
  | bind rx rest c idle hp hr hv hi =>
    have hn := h.pending
    have hs := h.slots
    rw [hr, hi, List.length_append, List.length_append] at hn
    rw [hi, List.append_assoc, List.singleton_append] at hs
    exact { h with
      slots := hs
      pending := by simp only [List.length_singleton] at hn; simp only; omega
      pendingAt := fun hne => absurd hp hne }
  | send nbTx hp ht hn =>
    exact { h with
      pendingAt := fun _ => h.pendingAt (by simp [hp])
      returnsAt := by simp
      sends := by simp
      sendsAt := by simp [txQueueBurstSize] }
  | hold nbTx hp ht =>
    have hne : s.txBufs.length ≠ txQueueBurstSize := fun he => ht (.inr (.inr he))
    have hle := h.sends
    exact { h with
      pendingAt := fun _ => h.pendingAt (by simp [hp])
      returnsAt := by simp
      sendsAt := fun _ => by simp only; omega }
  | free hp hf =>
    exact { h with
      pendingAt := fun _ => h.pendingAt (by simp [hp])
      returns := by simp
      returnsAt := by simp [returnRingBurstSize]
      sendsAt := fun _ => h.sendsAt (.inr hp) }
  | defer hp hf =>
    have hne : s.returnRxBufs.length ≠ returnRingBurstSize := fun he => hf (.inr he)
    have hle := h.returns
    exact { h with
      pendingAt := fun _ => h.pendingAt (by simp [hp])
      returnsAt := fun _ => by simp only; omega
      sendsAt := fun _ => h.sendsAt (.inr hp) }

theorem reachable_inv {sv : Server} {s : State} (h : Reachable sv s) : Inv sv s :=
  reachable_invariant (init_inv sv) (fun _ _ _ => move_inv) h

/-- The step that the loop makes next, where a job yields as `r` and the NIC takes `nbTx`
buffers. -/
def nextAct (r : Resume) (nbTx : Nat) : Pc → Act
  | .head => .resume r
  | .dispatch => .dispatch
  | .handle => .handle
  | .transmit => .transmit nbTx
  | .giveBack => .giveBack

/-- The worker is never stuck: the handling loop has a slot for every packet. -/
theorem exists_step {sv : Server} {s : State} (h : Inv sv s) (r : Resume) {nbTx : Nat}
    (hn : nbTx ≤ s.txBufs.length) : ∃ t, step sv s (nextAct r nbTx s.pc) = some t := by
  cases hp : s.pc with
  | head | dispatch | giveBack => exact ⟨_, if_pos hp⟩
  | handle =>
    simp only [nextAct, step, if_pos hp, handleOne]
    cases hl : s.rxBufs.getLast? with
    | none => exact ⟨_, rfl⟩
    | some rx =>
      have hlen := List.length_pos_of_mem (List.mem_of_getLast? hl)
      have hpending := h.pending
      obtain ⟨c, hc⟩ := List.getLast?_isSome.mpr (List.ne_nil_of_length_pos (by omega :
        0 < s.idleCoros.length)) |> Option.isSome_iff_exists.mp
      simp only [hc]
      split
      · exact ⟨_, rfl⟩
      · exact ⟨_, rfl⟩
  | transmit =>
    simp only [nextAct, step, if_pos hp, txPath, if_pos hn]
    split
    · exact ⟨_, rfl⟩
    · exact ⟨_, rfl⟩

/-- The slots not idle are the busy ones, so a full idle vector means an empty deque. -/
theorem length_slots {sv : Server} {s : State} (h : Inv sv s) :
    s.idleCoros.length + s.busyCoros.length = sv.numWorkerCoros := by
  have hl := h.slots.length_eq
  simpa using hl

/-- In every state of every run of a worker: idle and busy coroutines partition the slots; a
slot is available for every packet still to be handled; no buffer holds more than was
allocated for it (an append writes at the current length, so no write was outside); the
flush stages leave room before the next iteration; and the mbufs a worker keeps for itself
stay within the bounds used to size the pools. -/
theorem worker_slots_and_buffers (sv : Server) (s : State) (h : Reachable sv s) :
    (s.idleCoros ++ s.busyCoros).Perm (List.range sv.numWorkerCoros) ∧
    (s.idleCoros ++ s.busyCoros).Nodup ∧
    (s.rxBufs ≠ [] → s.idleCoros ≠ []) ∧
    burst s ≤ sv.numWorkerCoros ∧ s.rxBufs.length ≤ sv.numWorkerCoros ∧
    s.returnRxBufs.length ≤ returnRingBurstSize ∧
    s.txBufs.length ≤ txQueueBurstSize ∧
    (s.pc = .head →
      s.txBufs.length < txQueueBurstSize ∧ s.returnRxBufs.length < returnRingBurstSize) ∧
    s.rxBufs.length + s.busyCoros.length + s.returnRxBufs.length ≤
      sv.numWorkerCoros + returnRingBurstSize ∧
    s.busyCoros.length + s.txBufs.length ≤ maxNumTxMbufPerThread sv.numWorkerCoros := by
  have hi := reachable_inv h
  have hl := length_slots hi
  have hp := hi.pending
  have hr := hi.returns
  have ht := hi.sends
  refine ⟨hi.slots, hi.slots.nodup_iff.mpr List.nodup_range, ?_, by unfold burst; omega,
    by omega, hr, ht, fun hh => ⟨hi.sendsAt (.inl hh), hi.returnsAt hh⟩, by omega, ?_⟩
  · intro hne he
    rw [he] at hp
    exact hne (List.eq_nil_of_length_eq_zero (Nat.le_zero.mp hp))
  · unfold maxNumTxMbufPerThread
    omega

/-- With one packet bound, thirteen slots are idle. -/
theorem worker_slots_and_buffers_one_packet :
    ∃ s, Reachable shipped s ∧ s.busyCoros = [13] ∧ (s.idleCoros ++ s.busyCoros).Nodup := by
  have h : (Machine.run (step shipped) (.arrive request :: iteration .preempted 1 0)
      (init shipped 0)).any (fun s => decide (s.busyCoros = [13])) = true := by decide +kernel
  obtain ⟨s, hs, hb⟩ := Option.any_eq_true _ _ |>.mp h
  have hr : Reachable shipped s := ⟨0, _, hs⟩
  exact ⟨s, hr, of_decide_eq_true hb, (worker_slots_and_buffers shipped s hr).2.1⟩

end TinyQuanta.WorkerSlots
