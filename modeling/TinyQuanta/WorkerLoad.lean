import TinyQuanta.WorkerSlots

/-!
# What a worker owes the dispatcher

Every packet that ever appeared on the ring of a worker is still on it, being
handled, bound to a busy coroutine, rejected, or finished. Only the last of these
moves `curr_sizes[tid].size`, which is all the dispatcher sees.
-/
namespace TinyQuanta.WorkerLoad

open Params Packet Worker

def Event.isRejection : Event → Bool
  | .rejected _ _ => true
  | _ => false

def Event.isCompletion : Event → Bool
  | .finished _ _ _ => true
  | _ => false

/-- How many packets the worker has rejected. -/
def numRejected (s : State) : Nat := s.log.countP Event.isRejection

/-- How many jobs the worker has completed. -/
def numFinished (s : State) : Nat := s.log.countP Event.isCompletion

/-- How many accepted packets have neither been finished nor rejected. -/
def outstanding (s : State) : Nat := s.ring.length + s.rxBufs.length + s.busyCoros.length

structure Load (sv : Server) (s : State) : Prop where
  inv : WorkerSlots.Inv sv s
  arrived : s.arrived = outstanding s + numRejected s + numFinished s
  size : s.currSize = u64 (numFinished s)

theorem init_load (sv : Server) (sq : Nat) : Load sv (init sv sq) where
  inv := WorkerSlots.init_inv sv sq
  arrived := by simp [init, outstanding, numRejected, numFinished]
  size := by simp [init, numFinished, u64]

theorem u64_succ (n : Nat) : u64 (u64 n + 1) = u64 (n + 1) := by
  unfold u64
  omega

section

attribute [local simp] outstanding numRejected numFinished Event.isRejection Event.isCompletion

theorem move_load {sv : Server} {s t : State} {a : Act} (h : Load sv s) (m : Move sv s a t) :
    Load sv t := by
  have ha := h.arrived
  have hs := h.size
  refine ⟨WorkerSlots.move_inv h.inv m, ?_, ?_⟩
  · cases m with
    | arrive m room =>
      simp [arrive] at ha ⊢
      omega
    | preempt c rest hp hb => simpa [hb] using ha
    | finish c rest hp hb =>
      simp [hb] at ha ⊢
      omega
    | dequeue hp hd =>
      have hn := h.inv.pendingAt (by simp [hp])
      have hle : burst s ≤ s.ring.length := Nat.min_le_right _ _
      simp [hn, WorkerSlots.u16_dequeue h.inv.ring] at ha ⊢
      omega
    | keep rx rest hp hr hv room =>
      simp [hr] at ha ⊢
      omega
    | lose rx rest hp hr hv full =>
      simp [hr] at ha ⊢
      omega
    | bind rx rest c idle hp hr hv hi =>
      simp [hr] at ha ⊢
      omega
    | _ => simpa using ha
  · cases m with
    | finish c rest hp hb => simpa [hs] using u64_succ (numFinished s)
    | _ => simpa [arrive] using hs

end

theorem reachable_load {sv : Server} {s : State} (h : Reachable sv s) : Load sv s :=
  reachable_invariant (init_load sv) (fun _ _ _ => move_load) h

/-- Completions are only ever added. -/
theorem numFinished_move {sv : Server} {s t : State} {a : Act} (m : Move sv s a t) :
    numFinished s ≤ numFinished t := by
  cases m <;> simp [numFinished, Worker.arrive]

/-- Nothing on the ring, nothing being handled, nothing bound. -/
def Drained (s : State) : Prop := s.ring = [] ∧ s.rxBufs = [] ∧ s.busyCoros = []

/-- A drained worker stays drained, and completes nothing, until a packet arrives. -/
theorem drained_move {sv : Server} {s t : State} {a : Act} (h : Drained s) (m : Move sv s a t)
    (ha : ∀ m, a ≠ .arrive m) :
    Drained t ∧ numFinished t = numFinished s ∧ t.arrived = s.arrived := by
  obtain ⟨hring, hrx, hbusy⟩ := h
  cases m with
  | arrive m room => exact absurd rfl (ha m)
  | preempt c rest hp hb => simp [hbusy] at hb
  | finish c rest hp hb => simp [hbusy] at hb
  | dequeue hp hd => simp [Drained, hring, hbusy, numFinished, Event.isCompletion]
  | keep rx rest hp hr hv room => simp [hrx] at hr
  | lose rx rest hp hr hv full => simp [hrx] at hr
  | bind rx rest c idle hp hr hv hi => simp [hrx] at hr
  | _ => simp [Drained, hring, hrx, hbusy, numFinished, Event.isCompletion]

/-- Only packets that pass validation have come so far. -/
structure Clean (sv : Server) (s : State) : Prop where
  waiting : ∀ rx ∈ s.ring, isRxMbufValid sv.net rx.mbuf = true
  pending : ∀ rx ∈ s.rxBufs, isRxMbufValid sv.net rx.mbuf = true
  none : numRejected s = 0

theorem init_clean (sv : Server) (sq : Nat) : Clean sv (init sv sq) := by
  constructor <;> simp [init, numRejected]

theorem clean_move {sv : Server} {s t : State} {a : Act} (h : Clean sv s) (m : Move sv s a t)
    (ha : ∀ m, a = .arrive m → isRxMbufValid sv.net m = true) : Clean sv t := by
  have hw := h.waiting
  have hp := h.pending
  have hn := h.none
  cases m with
  | arrive m room =>
    refine ⟨fun rx hrx => ?_, hp, hn⟩
    rcases List.mem_append.mp hrx with hrx | hrx
    · exact hw rx hrx
    · cases List.mem_singleton.mp hrx
      exact ha m rfl
  | dequeue hpc hd =>
    exact ⟨fun rx hrx => hw rx (List.mem_of_mem_drop hrx),
      fun rx hrx => hw rx (List.mem_of_mem_take hrx),
      by simpa [numRejected, Event.isRejection] using hn⟩
  | keep rx rest hpc hr hv room => simp [hp rx (by simp [hr])] at hv
  | lose rx rest hpc hr hv full => simp [hp rx (by simp [hr])] at hv
  | bind rx rest c idle hpc hr hv hi =>
    exact ⟨hw, fun rx hrx => hp rx (by simp [hr, show rx ∈ rest from hrx]),
      by simpa [numRejected, Event.isRejection] using hn⟩
  | _ => exact ⟨hw, hp, by simpa [numRejected, Event.isRejection] using hn⟩

/-! ## Serving one packet -/

/-- The actions are the worker's own: none of them makes a packet appear. -/
def Own (as : List Act) : Prop := ∀ a ∈ as, ∀ m, a ≠ .arrive m

/-- The two flush stages end at the head of the loop and leave the jobs alone. -/
theorem flush_stages {sv : Server} {s : State} (hp : s.pc = .transmit) :
    ∃ as t, Own as ∧ Machine.run (step sv) as s = some t ∧ t.pc = .head ∧ t.ring = s.ring ∧
      t.rxBufs = s.rxBufs ∧ t.busyCoros = s.busyCoros ∧ t.idleCoros = s.idleCoros := by
  obtain ⟨u, hu, hpc, hring, hrx, hbusy, hidle⟩ : ∃ u, Move sv s (.transmit s.txBufs.length) u ∧
      u.pc = .giveBack ∧ u.ring = s.ring ∧ u.rxBufs = s.rxBufs ∧ u.busyCoros = s.busyCoros ∧
      u.idleCoros = s.idleCoros := by
    by_cases ht : txReady s
    · exact ⟨_, .send _ hp ht (Nat.le_refl _), rfl, rfl, rfl, rfl, rfl⟩
    · exact ⟨_, .hold _ hp ht, rfl, rfl, rfl, rfl, rfl⟩
  obtain ⟨t, ht, h⟩ : ∃ t, Move sv u .giveBack t ∧ t.pc = .head ∧ t.ring = u.ring ∧
      t.rxBufs = u.rxBufs ∧ t.busyCoros = u.busyCoros ∧ t.idleCoros = u.idleCoros := by
    by_cases hf : u.forceFlush = true ∨ u.returnRxBufs.length = returnRingBurstSize
    · exact ⟨_, .free hpc hf, rfl, rfl, rfl, rfl, rfl⟩
    · exact ⟨_, .defer hpc hf, rfl, rfl, rfl, rfl, rfl⟩
  refine ⟨[.transmit s.txBufs.length, .giveBack], t, by simp [Own], ?_, ?_⟩
  · simp [move_step hu, move_step ht]
  · rw [← hring, ← hrx, ← hbusy, ← hidle]
    exact h

/-- A worker at rest that finds one valid packet on its ring binds it. -/
theorem take_one {sv : Server} {s : State} {rx : Rx} (hi : WorkerSlots.Inv sv s)
    (hpos : 0 < sv.numWorkerCoros) (hp : s.pc = .head) (hbusy : s.busyCoros = [])
    (hring : s.ring = [rx]) (hv : isRxMbufValid sv.net rx.mbuf = true) :
    ∃ as t c, Own as ∧ Machine.run (step sv) as s = some t ∧ t.pc = .head ∧ t.ring = [] ∧
      t.rxBufs = [] ∧ t.busyCoros = [c] := by
  have hlen := WorkerSlots.length_slots hi
  have hne : s.idleCoros ≠ [] := by
    intro he
    simp [he, hbusy] at hlen
    omega
  obtain ⟨idle, c, hidle⟩ := List.eq_nil_or_concat s.idleCoros |>.resolve_left hne
  obtain ⟨s₁, m₁, hp₁, hf₁, hi₁, hr₁, hb₁⟩ : ∃ s₁, Move sv s (.resume .preempted) s₁ ∧
      s₁.pc = .dispatch ∧ s₁.forceDispatch = true ∧ s₁.idleCoros = idle ++ [c] ∧
      s₁.ring = [rx] ∧ s₁.busyCoros = [] :=
    ⟨_, .idle _ hp hbusy, rfl, rfl, by simpa using hidle, hring, hbusy⟩
  have hburst : burst s₁ = 1 := by
    simp [burst, hi₁, hr₁]
  obtain ⟨s₂, m₂, hp₂, hx₂, hi₂, hr₂, hb₂⟩ : ∃ s₂, Move sv s₁ .dispatch s₂ ∧ s₂.pc = .handle ∧
      s₂.rxBufs = [] ++ [rx] ∧ s₂.idleCoros = idle ++ [c] ∧ s₂.ring = [] ∧ s₂.busyCoros = [] :=
    ⟨_, .dequeue hp₁ (.inl hf₁), rfl, by simp [hburst, hr₁, u16], hi₁, by simp [hburst, hr₁], hb₁⟩
  obtain ⟨s₃, m₃, hp₃, hx₃, hr₃, hb₃⟩ : ∃ s₃, Move sv s₂ .handle s₃ ∧ s₃.pc = .handle ∧
      s₃.rxBufs = [] ∧ s₃.ring = [] ∧ s₃.busyCoros = [c] :=
    ⟨_, .bind rx [] c idle hp₂ hx₂ hv hi₂, hp₂, rfl, hr₂, by simp [hb₂]⟩
  obtain ⟨s₄, m₄, hp₄, hx₄, hr₄, hb₄⟩ : ∃ s₄, Move sv s₃ .handle s₄ ∧ s₄.pc = .transmit ∧
      s₄.rxBufs = [] ∧ s₄.ring = [] ∧ s₄.busyCoros = [c] :=
    ⟨_, .handled hp₃ hx₃, rfl, hx₃, hr₃, hb₃⟩
  obtain ⟨as, t, hown, hrun, hpt, hrt, hxt, hbt, -⟩ := @flush_stages sv s₄ hp₄
  refine ⟨.resume .preempted :: .dispatch :: .handle :: .handle :: as, t, c, ?_, ?_, hpt,
    hrt.trans hr₄, hxt.trans hx₄, hbt.trans hb₄⟩
  · simpa [Own] using hown
  · simp [move_step m₁, move_step m₂, move_step m₃, move_step m₄, hrun]

/-- A worker with one job, and nothing else to do, completes it and is at rest again. -/
theorem complete_one {sv : Server} {s : State} {c : Nat} (hp : s.pc = .head) (hring : s.ring = [])
    (hbusy : s.busyCoros = [c]) :
    ∃ as t, Own as ∧ Machine.run (step sv) as s = some t ∧ t.pc = .head ∧ Drained t := by
  obtain ⟨s₁, m₁, hp₁, hf₁, hr₁, hb₁⟩ : ∃ s₁, Move sv s (.resume .completed) s₁ ∧
      s₁.pc = .dispatch ∧ s₁.forceDispatch = true ∧ s₁.ring = [] ∧ s₁.busyCoros = [] :=
    ⟨_, .finish c [] hp hbusy, rfl, rfl, hring, rfl⟩
  obtain ⟨s₂, m₂, hp₂, hx₂, hr₂, hb₂⟩ : ∃ s₂, Move sv s₁ .dispatch s₂ ∧ s₂.pc = .handle ∧
      s₂.rxBufs = [] ∧ s₂.ring = [] ∧ s₂.busyCoros = [] :=
    ⟨_, .dequeue hp₁ (.inl hf₁), rfl, by simp [hr₁], by simp [hr₁], hb₁⟩
  obtain ⟨s₃, m₃, hp₃, hx₃, hr₃, hb₃⟩ : ∃ s₃, Move sv s₂ .handle s₃ ∧ s₃.pc = .transmit ∧
      s₃.rxBufs = [] ∧ s₃.ring = [] ∧ s₃.busyCoros = [] :=
    ⟨_, .handled hp₂ hx₂, rfl, hx₂, hr₂, hb₂⟩
  obtain ⟨as, t, hown, hrun, hpt, hrt, hxt, hbt, -⟩ := @flush_stages sv s₃ hp₃
  refine ⟨.resume .completed :: .dispatch :: .handle :: as, t, ?_, ?_, hpt,
    hrt.trans hr₃, hxt.trans hx₃, hbt.trans hb₃⟩
  · simpa [Own] using hown
  · simp [move_step m₁, move_step m₂, move_step m₃, hrun]

/-- A worker at rest serves one valid packet and is at rest again. -/
theorem serve_one {sv : Server} {s : State} {rx : Rx} (hi : WorkerSlots.Inv sv s)
    (hpos : 0 < sv.numWorkerCoros) (hp : s.pc = .head) (hbusy : s.busyCoros = [])
    (hring : s.ring = [rx]) (hv : isRxMbufValid sv.net rx.mbuf = true) :
    ∃ as t, Own as ∧ Machine.run (step sv) as s = some t ∧ t.pc = .head ∧ Drained t := by
  obtain ⟨as, u, c, hown, hrun, hpu, hru, -, hbu⟩ := take_one hi hpos hp hbusy hring hv
  obtain ⟨bs, t, hown', hrun', hpt, hdt⟩ := @complete_one sv u c hpu hru hbu
  refine ⟨as ++ bs, t, fun a ha => ?_, Machine.run_join hrun hrun', hpt, hdt⟩
  rcases List.mem_append.mp ha with ha | ha
  · exact hown a ha
  · exact hown' a ha

end TinyQuanta.WorkerLoad
