import TinyQuanta.Ledger
import TinyQuanta.WorkerSlots

/-!
# Conservation of receive and transmit buffers in a worker

Both ledgers have the same shape: what came in is what is still held, plus what
went out, plus what was dropped on the way. The dropped part is exactly what the
two full-buffer paths of the loop forget, so conservation at a loop head is the
statement that neither path was ever taken.
-/
namespace TinyQuanta.WorkerBuffers

open Params Packet Worker Machine Ledger
open WorkerSlots (u16_dequeue)

/-! ## What the log says -/

def Event.takenIn : Event → List Rx
  | .dequeued rxs => rxs
  | _ => []

def Event.givenBack : Event → List (Option Rx)
  | .freed rxs => rxs
  | _ => []

def Event.forgotten : Event → List Rx
  | .rejected rx false => [rx]
  | _ => []

def Event.built : Event → List Tx
  | .bound _ _ tx => [tx]
  | _ => []

def Event.accepted : Event → List (Option Tx)
  | .transmitted txs nbTx => txs.take nbTx
  | _ => []

def Event.unsent : Event → List (Option Tx)
  | .transmitted txs nbTx => txs.drop nbTx
  | _ => []

/-- The receive mbufs dequeued so far, in order. -/
def dequeued (s : State) : List Rx := s.log.flatMap Event.takenIn

/-- Everything passed to `rte_pktmbuf_free_bulk` so far. -/
def freed (s : State) : List (Option Rx) := s.log.flatMap Event.givenBack

/-- Rejected packets for which `return_rx_bufs` had no room. -/
def lost (s : State) : List Rx := s.log.flatMap Event.forgotten

/-- Everything `process_rx_mbuf` allocated so far. -/
def allocatedTx (s : State) : List Tx := s.log.flatMap Event.built

/-- The transmit mbufs the NIC took over. -/
def acceptedTx (s : State) : List (Option Tx) := s.log.flatMap Event.accepted

/-- The transmit mbufs the NIC refused. -/
def unsentTx (s : State) : List (Option Tx) := s.log.flatMap Event.unsent

/-- The receive mbufs attached to busy coroutines. -/
def heldRx (s : State) : List (Option Rx) := s.busyCoros.map fun c => (s.coros c).rxMbuf

/-- The transmit mbufs attached to busy coroutines. -/
def heldTx (s : State) : List (Option Tx) := s.busyCoros.map fun c => (s.coros c).txMbuf

/-- Every dequeued mbuf is in exactly one place, and there once: attached to one busy
coroutine, waiting to be given back, or already freed. -/
def RxConserved (s : State) : Prop :=
  ∀ rx ∈ dequeued s, tally Rx.seq rx.seq (heldRx s) + tally Rx.seq rx.seq s.returnRxBufs +
    tally Rx.seq rx.seq (freed s) = 1

instance (s : State) : Decidable (RxConserved s) := List.decidableBAll _ _

/-- Every allocated response is in exactly one place, and there once: attached to one busy
coroutine, waiting to be sent, or with the NIC. -/
def TxConserved (s : State) : Prop :=
  ∀ tx ∈ allocatedTx s, tally Tx.id tx.id (heldTx s) + tally Tx.id tx.id s.txBufs +
    tally Tx.id tx.id (acceptedTx s) = 1

instance (s : State) : Decidable (TxConserved s) := List.decidableBAll _ _

/-- Changing a slot without touching a field leaves that field of all slots alone. -/
theorem update_field {β : Type} (f : CoroInfo → β) (coros : Nat → CoroInfo) (c : Nat)
    (info : CoroInfo) (h : f info = f (coros c)) :
    (fun d => f (Function.update coros c info d)) = fun d => f (coros d) := by
  funext d
  by_cases hd : d = c
  · subst hd
    simp [h]
  · simp [Function.update_of_ne hd]

/-- Changing a slot that is not listed does not change the listed ones. -/
theorem map_update_of_notMem {β : Type} (f : CoroInfo → β) (coros : Nat → CoroInfo) (c : Nat)
    (info : CoroInfo) (l : List Nat) (h : c ∉ l) :
    l.map (fun d => f (Function.update coros c info d)) = l.map fun d => f (coros d) := by
  apply List.map_congr_left
  intro d hd
  rw [Function.update_of_ne (by rintro rfl; exact h hd)]

/-- The slot that is taken from the idle vector is not in the deque. -/
theorem idle_not_busy {sv : Server} {s : State} (h : WorkerSlots.Inv sv s) {idle : List Nat}
    {c : Nat} (hi : s.idleCoros = idle ++ [c]) : c ∉ s.busyCoros := by
  have hn := h.slots.nodup_iff.mpr List.nodup_range
  exact fun hc => List.disjoint_of_nodup_append hn (by simp [hi]) hc

/-! ## Receive buffers -/

/-- The books of the receive side. -/
structure RxLedger (sv : Server) (s : State) : Prop where
  inv : WorkerSlots.Inv sv s
  order : (dequeued s ++ s.ring).map Rx.seq = List.range s.arrived
  balance : ∀ q, tally Rx.seq q ((dequeued s).map some) =
    tally Rx.seq q (s.rxBufs.map some) + tally Rx.seq q (heldRx s) +
    tally Rx.seq q s.returnRxBufs + tally Rx.seq q (freed s) + tally Rx.seq q ((lost s).map some)

theorem init_rxLedger (sv : Server) (sq : Nat) : RxLedger sv (init sv sq) where
  inv := WorkerSlots.init_inv sv sq
  order := by simp [dequeued, init]
  balance := by simp [dequeued, init, heldRx, freed, lost]

section

attribute [local simp] dequeued freed lost heldRx Event.takenIn Event.givenBack Event.forgotten

theorem move_order {sv : Server} {s t : State} {a : Act}
    (h : (dequeued s ++ s.ring).map Rx.seq = List.range s.arrived) (m : Move sv s a t) :
    (dequeued t ++ t.ring).map Rx.seq = List.range t.arrived := by
  cases m with
  | arrive m room =>
    have ha : dequeued (arrive m s) ++ (arrive m s).ring =
        (dequeued s ++ s.ring) ++ [⟨s.arrived, m⟩] := by simp [arrive]
    rw [ha, List.map_append, h]
    exact List.range_succ.symm
  | _ => simpa using h

theorem move_balance {sv : Server} {s t : State} {a : Act} (h : RxLedger sv s)
    (m : Move sv s a t) (q : Nat) : tally Rx.seq q ((dequeued t).map some) =
      tally Rx.seq q (t.rxBufs.map some) + tally Rx.seq q (heldRx t) +
      tally Rx.seq q t.returnRxBufs + tally Rx.seq q (freed t) +
      tally Rx.seq q ((lost t).map some) := by
  have hq := h.balance q
  cases m with
  | preempt c rest hp hb =>
    simp [hb, update_field] at hq ⊢
    omega
  | finish c rest hp hb =>
    simp [hb, update_field] at hq ⊢
    omega
  | dequeue hp hd =>
    have hn := h.inv.pendingAt (by simp [hp])
    simp [hn, u16_dequeue h.inv.ring] at hq ⊢
    omega
  | keep rx rest hp hr hv room =>
    simp [hr] at hq ⊢
    omega
  | lose rx rest hp hr hv full =>
    simp [hr] at hq ⊢
    omega
  | bind rx rest c idle hp hr hv hi =>
    have hc := idle_not_busy h.inv hi
    simp [hr, map_update_of_notMem CoroInfo.rxMbuf s.coros c _ _ hc] at hq ⊢
    omega
  | free hp hf =>
    simp at hq ⊢
    omega
  | _ => simpa [arrive] using hq

end

theorem move_rxLedger {sv : Server} {s t : State} {a : Act} (h : RxLedger sv s)
    (m : Move sv s a t) : RxLedger sv t :=
  ⟨WorkerSlots.move_inv h.inv m, move_order h.order m, move_balance h m⟩

theorem reachable_rxLedger {sv : Server} {s : State} (h : Reachable sv s) : RxLedger sv s :=
  reachable_invariant (init_rxLedger sv) (fun _ _ _ => move_rxLedger) h

theorem nodup_dequeued {sv : Server} {s : State} (h : RxLedger sv s) :
    ((dequeued s).map Rx.seq).Nodup := by
  have hn : ((dequeued s ++ s.ring).map Rx.seq).Nodup := by
    rw [h.order]
    exact List.nodup_range
  rw [List.map_append] at hn
  exact hn.of_append_left

/-- With nothing left to handle, what is missing from the three places is what was lost. -/
theorem rxConserved_iff_lost {sv : Server} {s : State} (h : RxLedger sv s) (hn : s.rxBufs = []) :
    RxConserved s ↔ lost s = [] := by
  have hd := nodup_dequeued h
  have hb : ∀ q, tally Rx.seq q ((dequeued s).map some) = (tally Rx.seq q (heldRx s) +
      tally Rx.seq q s.returnRxBufs + tally Rx.seq q (freed s)) +
      tally Rx.seq q ((lost s).map some) := by
    intro q
    have hq := h.balance q
    rw [hn] at hq
    simp only [List.map_nil, tally_nil] at hq
    omega
  have hc : RxConserved s ↔ (lost s).map some = [] := all_in_place_iff hd hb (by simp)
  rw [hc, List.map_eq_nil_iff]

/-- The packets among these that fail validation. -/
def invalid (sv : Server) (rxs : List Rx) : List Rx :=
  rxs.filter fun rx => !isRxMbufValid sv.net rx.mbuf

/-- When a burst is dequeued, `return_rx_bufs` has room for the invalid packets in it. -/
def Fits (sv : Server) (s : State) : Act → Prop
  | .dispatch => dispatchReady s →
      s.returnRxBufs.length + (invalid sv (s.ring.take (burst s))).length ≤ returnRingBurstSize
  | _ => True

/-- Nothing was lost, and nothing of the burst being handled will be. -/
def NoLoss (sv : Server) (s : State) : Prop :=
  lost s = [] ∧ s.returnRxBufs.length + (invalid sv s.rxBufs).length ≤ returnRingBurstSize

/-- With the burst handled, there is always room. -/
theorem noLoss_of_pending {sv : Server} {s : State} (h : WorkerSlots.Inv sv s)
    (hn : s.rxBufs = []) : NoLoss sv s ↔ lost s = [] := by
  have hr := h.returns
  simp only [NoLoss, hn, invalid, List.filter_nil, List.length_nil, Nat.add_zero, hr, and_true]

/-- A packet is lost exactly if its burst did not fit when it was dequeued. -/
theorem noLoss_move {sv : Server} {s t : State} {a : Act} (h : WorkerSlots.Inv sv s)
    (m : Move sv s a t) : NoLoss sv t ↔ NoLoss sv s ∧ Fits sv s a := by
  have ht := WorkerSlots.move_inv h m
  cases m with
  | arrive m room => simp [NoLoss, Fits, arrive, lost]
  | dequeue hp hd =>
    have hs := noLoss_of_pending h (h.pendingAt (by simp [hp]))
    rw [hs]
    simp [NoLoss, Fits, hd, lost, Event.forgotten, u16_dequeue h.ring]
  | wait hp hd => simp [NoLoss, Fits, hd, lost]
  | keep rx rest hp hr hv room =>
    simp [NoLoss, Fits, lost, Event.forgotten, hr, invalid, hv, Nat.add_assoc, Nat.add_comm]
  | lose rx rest hp hr hv full =>
    have hlt := h.returns
    simp [NoLoss, Fits, lost, Event.forgotten, hr, invalid, hv]
    omega
  | bind rx rest c idle hp hr hv hi => simp [NoLoss, Fits, lost, Event.forgotten, hr, invalid, hv]
  | finish c rest hp hb =>
    rw [noLoss_of_pending ht (ht.pendingAt (by simp)),
      noLoss_of_pending h (h.pendingAt (by simp [hp]))]
    simp [lost, Fits, Event.forgotten]
  | free hp hf =>
    rw [noLoss_of_pending ht (ht.pendingAt (by simp)),
      noLoss_of_pending h (h.pendingAt (by simp [hp]))]
    simp [lost, Fits, Event.forgotten]
  | _ => simp [NoLoss, Fits, lost, Event.forgotten]

theorem noLoss_iff_along {sv : Server} {sq : Nat} {as : List Act} {s : State}
    (h : run (step sv) as (init sv sq) = some s) :
    NoLoss sv s ↔ Along (step sv) (Fits sv) as (init sv sq) := by
  refine run_induction (P := fun as s => NoLoss sv s ↔ Along (step sv) (Fits sv) as (init sv sq))
    ?_ ?_ h
  · simp [NoLoss, init, lost, invalid, Along]
  · intro as s a t hs ih ht
    rw [noLoss_move (WorkerSlots.reachable_inv ⟨sq, as, hs⟩) (step_move ht), ih, along_snoc hs]

/-- At the head of the loop every receive mbuf the worker ever dequeued is in exactly one of
its places, provided no dequeued burst had more invalid packets than `return_rx_bufs` had
room for; one such burst is enough to break this for good. -/
theorem rx_conserved_iff (sv : Server) (sq : Nat) (as : List Act) (s : State)
    (h : run (step sv) as (init sv sq) = some s) (hp : s.pc = .head) :
    RxConserved s ↔ Along (step sv) (Fits sv) as (init sv sq) := by
  have hl := reachable_rxLedger ⟨sq, as, h⟩
  have hn := hl.inv.pendingAt (by simp [hp])
  rw [rxConserved_iff_lost hl hn, ← noLoss_of_pending hl.inv hn, noLoss_iff_along h]

/-- Fourteen strays are one burst and fit into the empty buffer. -/
theorem rx_conserved_iff_fourteen_strays :
    ∃ s, run (step shipped) (List.replicate 14 (.arrive stray) ++ iteration .preempted 14 0)
      (init shipped 0) = some s ∧ s.pc = .head ∧
      (RxConserved s ↔ Along (step shipped) (Fits shipped)
        (List.replicate 14 (.arrive stray) ++ iteration .preempted 14 0) (init shipped 0)) := by
  have h : (run (step shipped) (List.replicate 14 (.arrive stray) ++ iteration .preempted 14 0)
      (init shipped 0)).any (fun s => decide (s.pc = .head)) = true := by decide +kernel
  obtain ⟨s, hs, hp⟩ := Option.any_eq_true _ _ |>.mp h
  exact ⟨s, hs, of_decide_eq_true hp,
    rx_conserved_iff shipped 0 _ s hs (of_decide_eq_true hp)⟩

/-- Seventy stray frames queued at once, taken in five full bursts. -/
def strayFlood : List Act :=
  List.replicate 70 (.arrive stray) ++ (List.replicate 5 (iteration .preempted 14 0)).flatten

/-- The fifth burst finds 56 strays waiting and keeps only eight of its own. -/
theorem strayFlood_leaks :
    ∃ s, run (step shipped) strayFlood (init shipped 0) = some s ∧ s.pc = .head ∧
      (lost s).length = 6 ∧ ¬ RxConserved s := by
  have h : (run (step shipped) strayFlood (init shipped 0)).any (fun s =>
      decide (s.pc = .head ∧ (lost s).length = 6 ∧ ¬ RxConserved s)) = true := by decide +kernel
  obtain ⟨s, hs, hp⟩ := Option.any_eq_true _ _ |>.mp h
  exact ⟨s, hs, of_decide_eq_true hp⟩

/-! ## Transmit buffers -/

/-- The books of the transmit side. -/
structure TxLedger (sv : Server) (s : State) : Prop where
  inv : WorkerSlots.Inv sv s
  order : (allocatedTx s).map Tx.id = List.range s.allocated
  real : ∀ p ∈ heldTx s ++ s.txBufs ++ unsentTx s, ∃ tx, p = some tx
  balance : ∀ q, tally Tx.id q ((allocatedTx s).map some) = tally Tx.id q (heldTx s) +
    tally Tx.id q s.txBufs + tally Tx.id q (acceptedTx s) + tally Tx.id q (unsentTx s)

theorem init_txLedger (sv : Server) (sq : Nat) : TxLedger sv (init sv sq) where
  inv := WorkerSlots.init_inv sv sq
  order := by simp [allocatedTx, init]
  real := by simp [heldTx, unsentTx, init]
  balance := by simp [allocatedTx, init, heldTx, acceptedTx, unsentTx]

section

attribute [local simp] allocatedTx acceptedTx unsentTx heldTx Event.built Event.accepted
  Event.unsent

theorem move_real {sv : Server} {s t : State} {a : Act} (h : TxLedger sv s) (m : Move sv s a t) :
    ∀ p ∈ heldTx t ++ t.txBufs ++ unsentTx t, ∃ tx, p = some tx := by
  have hr := h.real
  intro p hp
  cases m with
  | preempt c rest hpc hb =>
    apply hr p
    simp [hb, update_field, -List.mem_map, -List.mem_flatMap] at hp ⊢
    tauto
  | finish c rest hpc hb =>
    apply hr p
    simp [hb, update_field, -List.mem_map, -List.mem_flatMap] at hp ⊢
    tauto
  | bind rx rest c idle hpc hrx hv hi =>
    have hc := idle_not_busy h.inv hi
    simp [map_update_of_notMem CoroInfo.txMbuf s.coros c _ _ hc] at hp
    rcases hp with rfl | hp
    · exact ⟨_, rfl⟩
    · exact hr p (by simpa using hp)
  | send nbTx hpc ht hn =>
    apply hr p
    simp at hp ⊢
    rcases hp with hp | hp | hp
    · exact .inl hp
    · exact .inr (.inr hp)
    · exact .inr (.inl (List.mem_of_mem_drop hp))
  | _ => exact hr p (by simpa [arrive] using hp)

theorem move_txBalance {sv : Server} {s t : State} {a : Act} (h : TxLedger sv s)
    (m : Move sv s a t) (q : Nat) : tally Tx.id q ((allocatedTx t).map some) =
      tally Tx.id q (heldTx t) + tally Tx.id q t.txBufs + tally Tx.id q (acceptedTx t) +
      tally Tx.id q (unsentTx t) := by
  have hq := h.balance q
  cases m with
  | preempt c rest hp hb =>
    simp [hb, update_field] at hq ⊢
    omega
  | finish c rest hp hb =>
    simp [hb, update_field] at hq ⊢
    omega
  | bind rx rest c idle hp hr hv hi =>
    have hc := idle_not_busy h.inv hi
    simp [map_update_of_notMem CoroInfo.txMbuf s.coros c _ _ hc] at hq ⊢
    omega
  | send nbTx hp ht hn =>
    have hsplit := tally_append Tx.id q (s.txBufs.take nbTx) (s.txBufs.drop nbTx)
    rw [List.take_append_drop] at hsplit
    simp at hq ⊢
    omega
  | _ => simpa [arrive] using hq

theorem move_txLedger {sv : Server} {s t : State} {a : Act} (h : TxLedger sv s)
    (m : Move sv s a t) : TxLedger sv t := by
  refine ⟨WorkerSlots.move_inv h.inv m, ?_, move_real h m, move_txBalance h m⟩
  have ho := h.order
  cases m with
  | bind rx rest c idle hp hr hv hi => simpa [List.range_succ] using ho
  | _ => simpa [arrive] using ho

end

theorem reachable_txLedger {sv : Server} {s : State} (h : Reachable sv s) : TxLedger sv s :=
  reachable_invariant (init_txLedger sv) (fun _ _ _ => move_txLedger) h

/-- What is missing from the three places is what the NIC refused. -/
theorem txConserved_iff_unsent {sv : Server} {s : State} (h : TxLedger sv s) :
    TxConserved s ↔ unsentTx s = [] := by
  have hn : ((allocatedTx s).map Tx.id).Nodup := by
    rw [h.order]
    exact List.nodup_range
  exact all_in_place_iff hn h.balance fun p hp => h.real p (List.mem_append_right _ hp)

/-- The NIC takes every buffer it is handed. -/
def TakesAll (s : State) : Act → Prop
  | .transmit nbTx => txReady s → nbTx = s.txBufs.length
  | _ => True

theorem unsentTx_move {sv : Server} {s t : State} {a : Act} (m : Move sv s a t) :
    unsentTx t = [] ↔ unsentTx s = [] ∧ TakesAll s a := by
  cases m with
  | send nbTx hp ht hn =>
    have he : s.txBufs.length ≤ nbTx ↔ nbTx = s.txBufs.length := by omega
    simp [unsentTx, Event.unsent, TakesAll, ht, he]
  | hold nbTx hp ht => simp [unsentTx, TakesAll, ht]
  | _ => simp [unsentTx, Event.unsent, TakesAll, arrive]

theorem unsentTx_iff_along {sv : Server} {sq : Nat} {as : List Act} {s : State}
    (h : run (step sv) as (init sv sq) = some s) :
    unsentTx s = [] ↔ Along (step sv) TakesAll as (init sv sq) := by
  refine run_induction
    (P := fun as s => unsentTx s = [] ↔ Along (step sv) TakesAll as (init sv sq)) ?_ ?_ h
  · simp [unsentTx, init, Along]
  · intro as s a t hs ih ht
    rw [unsentTx_move (step_move ht), ih, along_snoc hs]

/-- Every response mbuf allocated by the worker is accounted for as long as the NIC takes all
that it is handed; a buffer refused once is referenced from nowhere afterwards. -/
theorem tx_conserved_iff (sv : Server) (sq : Nat) (as : List Act) (s : State)
    (h : run (step sv) as (init sv sq) = some s) :
    TxConserved s ↔ Along (step sv) TakesAll as (init sv sq) := by
  rw [txConserved_iff_unsent (reachable_txLedger ⟨sq, as, h⟩), unsentTx_iff_along h]

/-- One request that is served at once; the NIC accepts `nbTx` buffers. -/
def oneRequest (nbTx : Nat) : List Act :=
  .arrive request :: iteration .preempted 1 0 ++ iteration .completed 0 nbTx

theorem tx_conserved_iff_one_request :
    ∃ s, run (step shipped) (oneRequest 1) (init shipped 0) = some s ∧
      (TxConserved s ↔ Along (step shipped) TakesAll (oneRequest 1) (init shipped 0)) := by
  have h : (run (step shipped) (oneRequest 1) (init shipped 0)).isSome = true := by decide +kernel
  obtain ⟨s, hs⟩ := Option.isSome_iff_exists.mp h
  exact ⟨s, hs, tx_conserved_iff shipped 0 _ s hs⟩

/-- A transmit queue that is full once costs the pool one mbuf. -/
theorem refused_response_leaks :
    ∃ s, run (step shipped) (oneRequest 0) (init shipped 0) = some s ∧ s.pc = .head ∧
      (allocatedTx s).length = 1 ∧ heldTx s = [] ∧ s.txBufs = [] ∧ acceptedTx s = [] ∧
      ¬ TxConserved s := by
  have h : (run (step shipped) (oneRequest 0) (init shipped 0)).any (fun s =>
      decide (s.pc = .head ∧ (allocatedTx s).length = 1 ∧ (heldTx s).length = 0 ∧
        s.txBufs = [] ∧ acceptedTx s = [] ∧ ¬ TxConserved s)) = true := by decide +kernel
  obtain ⟨s, hs, hp⟩ := Option.any_eq_true _ _ |>.mp h
  have hp := of_decide_eq_true hp
  rw [List.length_eq_zero_iff] at hp
  exact ⟨s, hs, hp⟩

end TinyQuanta.WorkerBuffers
