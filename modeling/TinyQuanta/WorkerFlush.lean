import TinyQuanta.WorkerService

/-!
# When responses leave a worker

Three tests decide whether `tx_bufs` is flushed: `force_flush`, computed before new
jobs are admitted, the period of `flush_index`, and a full buffer. Nothing resets
`flush_index` while the buffer is empty, so it wraps; a response that starts to
wait finds it at any value, zero included.
-/
namespace TinyQuanta.WorkerFlush

open Params Packet Worker

/-- Only packets that failed validation. -/
def OnlyRejected (sv : Server) (s : State) : Prop :=
  ∀ p ∈ s.returnRxBufs, ∃ rx, p = some rx ∧ isRxMbufValid sv.net rx.mbuf = false ∧
    .rejected rx true ∈ s.log

/-- Between the first stage and the flush stages, a worker without jobs that is not about to
flush has nothing to flush. After the transmit stage a response waits only behind a running job
and within its period. -/
structure Flush (sv : Server) (s : State) : Prop where
  inv : WorkerSlots.Inv sv s
  waits : s.pc = .head ∨ s.pc = .giveBack → s.txBufs ≠ [] →
    s.busyCoros ≠ [] ∧ s.flushIndex < txDequeuePeriod
  unforced : s.pc ≠ .head → s.forceFlush = false → s.txBufs ≠ [] → s.busyCoros ≠ []
  rejected : s.pc = .head → s.busyCoros = [] → OnlyRejected sv s
  unforcedRejected : s.pc ≠ .head → s.forceFlush = false → s.busyCoros = [] → OnlyRejected sv s

theorem init_flush (sv : Server) (sq : Nat) : Flush sv (init sv sq) := by
  refine ⟨WorkerSlots.init_inv sv sq, ?_, ?_, ?_, ?_⟩ <;> simp [init, OnlyRejected]

/-- A longer log and the same buffer. -/
theorem OnlyRejected.mono {sv : Server} {s t : State} (h : OnlyRejected sv s)
    (hb : t.returnRxBufs = s.returnRxBufs) (hl : ∀ e ∈ s.log, e ∈ t.log) : OnlyRejected sv t := by
  intro p hp
  rw [hb] at hp
  obtain ⟨rx, he, hv, hm⟩ := h p hp
  exact ⟨rx, he, hv, hl _ hm⟩

section Move

variable {sv : Server} {s t : State} {a : Act}

/-- Before the flush stages only two things are at stake. -/
theorem Flush.of_middle (hi : WorkerSlots.Inv sv t) (hh : t.pc ≠ .head) (hg : t.pc ≠ .giveBack)
    (hu : t.forceFlush = false → t.txBufs ≠ [] → t.busyCoros ≠ [])
    (hr : t.forceFlush = false → t.busyCoros = [] → OnlyRejected sv t) : Flush sv t where
  inv := hi
  waits hp := absurd hp fun hp => hp.elim hh hg
  unforced _ := hu
  rejected hp := absurd hp hh
  unforcedRejected _ := hr

/-- A step before the flush stages that leaves the jobs and the buffers alone. -/
theorem Flush.frame (h : Flush sv s) (hi : WorkerSlots.Inv sv t) (hs : s.pc ≠ .head)
    (hh : t.pc ≠ .head) (hg : t.pc ≠ .giveBack) (hf : t.forceFlush = s.forceFlush)
    (hx : t.txBufs = s.txBufs) (hb : t.busyCoros = s.busyCoros)
    (hr : t.returnRxBufs = s.returnRxBufs) (hl : ∀ e ∈ s.log, e ∈ t.log) : Flush sv t := by
  refine .of_middle hi hh hg ?_ ?_
  · rw [hf, hx, hb]
    exact h.unforced hs
  · rw [hf, hb]
    exact fun hff he => (h.unforcedRejected hs hff he).mono hr hl

theorem move_flush (h : Flush sv s) (m : Move sv s a t) : Flush sv t := by
  have hi := WorkerSlots.move_inv h.inv m
  cases m with
  | arrive m room => exact ⟨hi, h.waits, h.unforced, h.rejected, h.unforcedRejected⟩
  | idle r hp hb =>
    have hempty : s.txBufs = [] := by
      by_contra hne
      exact (h.waits (.inl hp) hne).1 hb
    refine .of_middle hi (by simp) (by simp) (fun _ hne => absurd hempty hne) fun _ _ => ?_
    exact (h.rejected hp hb).mono rfl fun _ he => he
  | preempt c rest hp hb => exact .of_middle hi (by simp) (by simp) (by simp) (by simp)
  | finish c rest hp hb =>
    have hrest : rest.isEmpty = false → rest ≠ [] := by simp
    exact .of_middle hi (by simp) (by simp) (fun hf _ => hrest hf) fun hf he => absurd he (hrest hf)
  | dequeue hp hd =>
    exact h.frame hi (by simp [hp]) (by simp) (by simp) rfl rfl rfl rfl
      fun _ he => List.mem_append_left _ he
  | wait hp hd =>
    exact h.frame hi (by simp [hp]) (by simp) (by simp) rfl rfl rfl rfl fun _ he => he
  | handled hp hr =>
    exact h.frame hi (by simp [hp]) (by simp) (by simp) rfl rfl rfl rfl fun _ he => he
  | keep rx rest hp hr hv room =>
    have hne : s.pc ≠ .head := by simp [hp]
    refine .of_middle hi hne (by simp [hp]) (h.unforced hne) fun hf he p hm => ?_
    rcases List.mem_append.mp hm with hm | hm
    · obtain ⟨rx', hp', hv', hl'⟩ := h.unforcedRejected hne hf he p hm
      exact ⟨rx', hp', hv', List.mem_append_left _ hl'⟩
    · exact ⟨rx, List.mem_singleton.mp hm, hv, by simp⟩
  | lose rx rest hp hr hv full =>
    exact h.frame hi (by simp [hp]) (by simp [hp]) (by simp [hp]) rfl rfl rfl rfl
      fun _ he => List.mem_append_left _ he
  | bind rx rest c idle hp hr hv hi' =>
    exact .of_middle hi (by simp [hp]) (by simp [hp]) (by simp) (by simp)
  | send nbTx hp ht hn =>
    exact {
      inv := hi
      waits := by simp
      unforced := by simp
      rejected := by simp
      unforcedRejected := fun _ hf he =>
        (h.unforcedRejected (by simp [hp]) hf he).mono rfl fun _ he => List.mem_append_left _ he }
  | hold nbTx hp ht =>
    have hf : s.forceFlush = false := by
      by_contra hne
      exact ht (.inl (by simpa using hne))
    exact {
      inv := hi
      waits := fun _ hne => by
        refine ⟨h.unforced (by simp [hp]) hf hne, ?_⟩
        by_contra hlt
        exact ht (.inr (.inl ⟨by simpa using hlt, by simpa using hne⟩))
      unforced := fun _ => h.unforced (by simp [hp])
      rejected := by simp
      unforcedRejected := fun _ => h.unforcedRejected (by simp [hp]) }
  | free hp hf =>
    exact {
      inv := hi
      waits := fun _ => h.waits (.inr hp)
      unforced := by simp
      rejected := by simp [OnlyRejected]
      unforcedRejected := by simp }
  | defer hp hf =>
    have hff : s.forceFlush = false := by
      by_contra hne
      exact hf (.inl (by simpa using hne))
    exact {
      inv := hi
      waits := fun _ => h.waits (.inr hp)
      unforced := by simp
      rejected := fun _ he => h.unforcedRejected (by simp [hp]) hff he
      unforcedRejected := by simp }

end Move

theorem reachable_flush {sv : Server} {s : State} (h : Reachable sv s) : Flush sv s :=
  reachable_invariant (init_flush sv) (fun _ _ _ => move_flush) h

/-! ## How long a response waits -/

def Act.isResume : Act → Bool
  | .resume _ => true
  | _ => false

/-- How many loop iterations are started. -/
def iterations (as : List Act) : Nat := as.countP Act.isResume

/-- The response has been passed to `rte_eth_tx_burst`. -/
def Passed (tx : Option Tx) (s : State) : Prop := ∃ txs nbTx, .transmitted txs nbTx ∈ s.log ∧
    tx ∈ txs

/-- A response that waits, and for how many iterations it has. -/
structure Waiting (tx : Option Tx) (n : Nat) (s : State) : Prop where
  kept : tx ∈ s.txBufs
  since : n ≤ s.flushIndex

theorem Passed.move {tx : Option Tx} {sv : Server} {s t : State} {a : Act} (h : Passed tx s)
    (m : Move sv s a t) : Passed tx t := by
  obtain ⟨txs, nbTx, he, hm⟩ := h
  refine ⟨txs, nbTx, ?_, hm⟩
  cases m <;> simp [arrive, he]

/-- Every iteration either passes the response on or is counted by `flush_index`, which cannot
wrap while something waits. -/
theorem waiting_move {tx : Option Tx} {n : Nat} {sv : Server} {s t : State} {a : Act}
    (hf : Flush sv s) (h : Waiting tx n s) (m : Move sv s a t) :
    Passed tx t ∨ Waiting tx (n + if Act.isResume a then 1 else 0) t := by
  obtain ⟨hk, hs⟩ := h
  have hne : s.txBufs ≠ [] := List.ne_nil_of_mem hk
  cases m with
  | idle r hp hb => exact absurd hb (hf.waits (.inl hp) hne).1
  | preempt c rest hp hb =>
    have hlt := (hf.waits (.inl hp) hne).2
    unfold txDequeuePeriod at hlt
    refine .inr ⟨hk, ?_⟩
    simp only [Act.isResume, if_true, u16]
    omega
  | finish c rest hp hb =>
    have hlt := (hf.waits (.inl hp) hne).2
    unfold txDequeuePeriod at hlt
    refine .inr ⟨List.mem_append_left _ hk, ?_⟩
    simp only [Act.isResume, if_true, u16]
    omega
  | send nbTx hp ht hn => exact .inl ⟨s.txBufs, nbTx, by simp, hk⟩
  | _ => exact .inr ⟨hk, hs⟩

/-- A response that waits is passed on before `TX_DEQUEUE_PERIOD` more iterations are over. -/
theorem waiting_run {tx : Option Tx} {sv : Server} {s u : State} {as : List Act}
    (hf : Flush sv s) (h : Waiting tx 0 s) (hr : Machine.run (step sv) as s = some u)
    (hp : u.pc = .head) (hn : txDequeuePeriod ≤ iterations as) : Passed tx u := by
  have key := Machine.run_induction
    (P := fun as u => Flush sv u ∧ (Passed tx u ∨ Waiting tx (iterations as) u)) ?_ ?_ hr
  · obtain ⟨hfu, hpass | hw⟩ := key
    · exact hpass
    · have hlt := (hfu.waits (.inl hp) (List.ne_nil_of_mem hw.kept)).2
      have hsince := hw.since
      omega
  · exact ⟨hf, .inr h⟩
  · intro as s a t _ ih ht
    have hm := step_move ht
    refine ⟨move_flush ih.1 hm, ?_⟩
    rcases ih.2 with hpass | hw
    · exact .inl (hpass.move hm)
    · have hnext := waiting_move ih.1 hw hm
      rwa [iterations, List.countP_append, List.countP_singleton, ← iterations]

/-- At every head of the loop: a response waits only while a job runs, in a buffer with room and
within the period of `flush_index`; without jobs there is no response waiting and the only
receive buffers kept are those of rejected packets. A job that completes in the iteration
starting here has its response passed to the NIC by the end of the `TX_DEQUEUE_PERIOD`th
iteration after it. -/
theorem no_withheld_response (sv : Server) (s : State) (h : Reachable sv s) (hp : s.pc = .head) :
    (0 < s.txBufs.length → s.busyCoros ≠ [] ∧ s.txBufs.length < txQueueBurstSize ∧
      s.flushIndex < txDequeuePeriod) ∧
    (s.busyCoros = [] → s.txBufs = [] ∧ OnlyRejected sv s) ∧
    ∀ c rest t, s.busyCoros = c :: rest → step sv s (.resume .completed) = some t →
      ∃ tx, (s.coros c).txMbuf = some tx ∧
        ∀ as u, Machine.run (step sv) as t = some u → u.pc = .head →
          txDequeuePeriod ≤ iterations as → Passed (some tx) u := by
  have hf := reachable_flush h
  refine ⟨fun hlen => ?_, fun hb => ⟨?_, hf.rejected hp hb⟩, fun c rest t hb ht => ?_⟩
  · obtain ⟨hbusy, hlt⟩ := hf.waits (.inl hp) (List.ne_nil_of_length_pos hlen)
    exact ⟨hbusy, hf.inv.sendsAt (.inl hp), hlt⟩
  · by_contra hne
    exact (hf.waits (.inl hp) hne).1 hb
  · obtain ⟨j, hj⟩ := (WorkerService.reachable_service h).attached c (by simp [hb])
    obtain ⟨-, -, htx⟩ := WorkerService.jobAt_eq_some hj
    have hm := step_move ht
    refine ⟨j.tx, htx, fun as u hr hpu hn => waiting_run (move_flush hf hm) ?_ hr hpu hn⟩
    cases hm with
    | idle r hp' hb' => simp [hb] at hb'
    | finish d rest' hp' hb' =>
      rw [hb] at hb'
      cases hb'
      exact ⟨by simp [htx], Nat.zero_le _⟩

/-- A worker that runs its first job. -/
theorem no_withheld_response_one_job :
    ∃ s, Reachable shipped s ∧ s.pc = .head ∧ s.busyCoros = [13] ∧
      ∀ t, step shipped s (.resume .completed) = some t → ∃ tx, (s.coros 13).txMbuf = some tx ∧
        ∀ as u, Machine.run (step shipped) as t = some u → u.pc = .head →
          txDequeuePeriod ≤ iterations as → Passed (some tx) u := by
  have h : (Machine.run (step shipped) (.arrive request :: iteration .preempted 1 0)
      (init shipped 0)).any (fun s => decide (s.pc = .head ∧ s.busyCoros = [13])) = true := by
    decide +kernel
  obtain ⟨s, hs, hd⟩ := Option.any_eq_true _ _ |>.mp h
  obtain ⟨hp, hb⟩ := of_decide_eq_true hd
  have hr : Reachable shipped s := ⟨0, _, hs⟩
  exact ⟨s, hr, hp, hb, fun t ht => (no_withheld_response shipped s hr hp).2.2 13 [] t hb ht⟩

end TinyQuanta.WorkerFlush
