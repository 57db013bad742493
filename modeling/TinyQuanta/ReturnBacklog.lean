import TinyQuanta.ReturnRoom
import TinyQuanta.WorkerSlots
import Mathlib.Algebra.BigOperators.Group.Finset.Piecewise
import Mathlib.Algebra.Order.BigOperators.Group.Finset

/-!
# A backlog before a pause

The dispatcher drains the return rings only after it has enqueued packets. When
traffic stops, a worker goes on with what it has, and nobody empties its return
ring: if more is outstanding than the ring takes, the worker ends in `abort()`.
The dispatch ring is eight times as long as the return ring, and enough packets
arrive there if the worker is held up for some time.
-/
namespace TinyQuanta.ReturnBacklog

open Params Packet ReturnRing ReturnRoom

/-! ## A worker that gets valid packets -/

/-- What every stage keeps. No buffer waits to be returned unless the worker has something to
do that will return it. -/
structure Serving (sv : Worker.Server) (s : Worker.State) : Prop where
  slots : s.idleCoros.length + s.busyCoros.length = sv.numWorkerCoros
  ring : s.ring.length ≤ ringCapacity
  pending : s.rxBufs.length ≤ s.idleCoros.length
  pendingAt : s.pc ≠ .handle → s.rxBufs = []
  valid : ∀ rx ∈ s.ring ++ s.rxBufs, isRxMbufValid sv.net rx.mbuf = true
  flush : s.returnRxBufs ≠ [] →
    s.busyCoros ≠ [] ∨ s.rxBufs ≠ [] ∨ s.pc ≠ .head ∧ s.forceFlush = true

theorem init_serving (sv : Worker.Server) : Serving sv (Worker.init sv 0) := by
  constructor <;> simp [Worker.init]

section Steps

variable {sv : Worker.Server} {s t : Worker.State} {a : Worker.Act}

theorem Serving.valid_pending (h : Serving sv s) :
    ∀ rx ∈ s.rxBufs, isRxMbufValid sv.net rx.mbuf = true := fun rx hrx =>
  h.valid rx (List.mem_append_right _ hrx)

theorem Serving.not_invalid (h : Serving sv s) {rx : Worker.Rx} {rest : List Worker.Rx}
    (hr : s.rxBufs = rest ++ [rx]) : isRxMbufValid sv.net rx.mbuf ≠ false := by
  rw [h.valid_pending rx (by simp [hr])]
  decide

/-- Where no packet is pending, buffers wait for a running job or for the end of the iteration. -/
theorem Serving.kept (h : Serving sv s) (hr : s.rxBufs = []) (hne : s.returnRxBufs ≠ []) :
    s.busyCoros ≠ [] ∨ s.pc ≠ .head ∧ s.forceFlush = true :=
  (h.flush hne).imp_right fun hk => hk.resolve_left fun hp => hp hr

/-- So an idle worker has returned everything when it comes to the head of its loop. -/
theorem Serving.nothing_kept (h : Serving sv s) (hp : s.pc = .head) (hb : s.busyCoros = []) :
    s.returnRxBufs = [] := by
  by_contra hne
  rcases h.kept (h.pendingAt (by simp [hp])) hne with hbusy | ⟨hhead, -⟩
  · exact hbusy hb
  · exact hhead hp

/-- A later stage of the iteration has returned no buffer yet. -/
theorem Serving.kept_later (h : Serving sv s) (hr : s.rxBufs = []) {pc : Worker.Pc}
    (hpc : pc ≠ .head)
    (rxBufs : List Worker.Rx) (hne : s.returnRxBufs ≠ []) :
    s.busyCoros ≠ [] ∨ rxBufs ≠ [] ∨ pc ≠ .head ∧ s.forceFlush = true :=
  (h.kept hr hne).imp_right fun hk => .inr ⟨hpc, hk.2⟩

theorem arrive_serving (h : Serving sv s) {m : Mbuf} (hm : isRxMbufValid sv.net m = true)
    (room : s.ring.length < ringCapacity) : Serving sv (Worker.arrive m s) :=
  { h with
    ring := by simp only [Worker.arrive, List.length_append, List.length_singleton]; omega
    valid := by
      intro rx hrx
      simp only [Worker.arrive, List.mem_append, List.mem_singleton] at hrx
      rcases hrx with (hrx | rfl) | hrx
      · exact h.valid rx (List.mem_append_left _ hrx)
      · exact hm
      · exact h.valid_pending rx hrx }

/-- Between two packets the loop does not touch them. -/
theorem move_serving (h : Serving sv s) (m : Worker.Move sv s a t) (hg : a ≠ .giveBack)
    (ha : ∀ m, a ≠ .arrive m) : Serving sv t ∧ held t = held s := by
  cases m with
  | arrive m room => exact absurd rfl (ha m)
  | idle r hp hb =>
    have hret := h.nothing_kept hp hb
    exact ⟨{ h with
      pendingAt := fun _ => h.pendingAt (by simp [hp])
      flush := fun hne => absurd hret hne }, rfl⟩
  | preempt c rest hp hb =>
    have hs := h.slots
    rw [hb] at hs
    exact ⟨{ h with
      slots := by simpa using hs
      pendingAt := fun _ => h.pendingAt (by simp [hp])
      flush := fun _ => .inl (by simp) }, by simp [held, hb]⟩
  | finish c rest hp hb =>
    have hs := h.slots
    have hr := h.pendingAt (by simp [hp])
    rw [hb, List.length_cons] at hs
    refine ⟨{ h with
      slots := by simp only [List.length_append, List.length_singleton]; omega
      pending := by simp [hr]
      pendingAt := fun _ => hr
      flush := fun _ => ?_ }, by simp [held, hb]; omega⟩
    cases rest with
    | nil => exact .inr (.inr ⟨by simp, rfl⟩)
    | cons d rest => exact .inl (by simp)
  | dequeue hp hd =>
    have hr := h.pendingAt (by simp [hp])
    have hring := h.ring
    have hb : Worker.burst s ≤ s.ring.length := Nat.min_le_right _ _
    refine ⟨{ h with
      ring := by simp only [List.length_drop]; omega
      pending := by
        simp only [WorkerSlots.u16_dequeue hring, List.length_take]
        unfold Worker.burst
        omega
      pendingAt := fun hne => absurd rfl hne
      valid := fun rx hrx => ?_
      flush := h.kept_later hr (by simp) _ }, ?_⟩
    · rcases List.mem_append.mp hrx with hrx | hrx
      · exact h.valid rx (List.mem_append_left _ (List.mem_of_mem_drop hrx))
      · exact h.valid rx (List.mem_append_left _ (List.mem_of_mem_take hrx))
    · simp only [held, WorkerSlots.u16_dequeue hring, List.length_take, List.length_drop, hr,
        List.length_nil]
      omega
  | wait hp hd =>
    have hr := h.pendingAt (by simp [hp])
    exact ⟨{ h with pendingAt := fun _ => hr, flush := h.kept_later hr (by simp) _ }, rfl⟩
  | handled hp hr =>
    exact ⟨{ h with pendingAt := fun _ => hr, flush := h.kept_later hr (by simp) _ }, rfl⟩
  | keep rx rest hp hr hv room => exact absurd hv (h.not_invalid hr)
  | lose rx rest hp hr hv full => exact absurd hv (h.not_invalid hr)
  | bind rx rest c idle hp hr hv hi =>
    have hs := h.slots
    have hn := h.pending
    rw [hi, List.length_append, List.length_singleton] at hs hn
    rw [hr, List.length_append, List.length_singleton] at hn
    refine ⟨{ h with
      slots := by simp only [List.length_cons]; omega
      pending := by simp only; omega
      pendingAt := fun hne => absurd hp hne
      valid := fun rx' hrx' => ?_
      flush := fun _ => .inl (by simp) }, by simp [held, hr]; omega⟩
    rcases List.mem_append.mp hrx' with hrx' | hrx'
    · exact h.valid rx' (List.mem_append_left _ hrx')
    · exact h.valid_pending rx' (by simp [hr, hrx'])
  | send nbTx hp ht hn =>
    have hr := h.pendingAt (by simp [hp])
    exact ⟨{ h with pendingAt := fun _ => hr, flush := h.kept_later hr (by simp) _ }, rfl⟩
  | hold nbTx hp ht =>
    have hr := h.pendingAt (by simp [hp])
    exact ⟨{ h with pendingAt := fun _ => hr, flush := h.kept_later hr (by simp) _ }, rfl⟩
  | free hp hf => exact absurd rfl hg
  | defer hp hf => exact absurd rfl hg

/-- The last stage returns all buffers, or the worker has more to do. -/
theorem giveBack_serving (h : Serving sv s) (hp : s.pc = .giveBack) {bufs : List (Option Worker.Rx)}
    (hb : bufs = [] ∨ bufs = s.returnRxBufs ∧ ¬ returnReady s) :
    Serving sv { s with returnRxBufs := bufs, pc := .head } := by
  have hr := h.pendingAt (by simp [hp])
  refine { h with pendingAt := fun _ => hr, flush := fun hne => ?_ }
  rcases hb with hb | ⟨rfl, hn⟩
  · exact absurd hb hne
  · rcases h.kept hr hne with hne | ⟨-, hf⟩
    · exact .inl hne
    · exact absurd (.inl hf) hn

/-- If all packets are valid, every step of the other build is one of this. -/
theorem ownStep_of_move (m : Worker.Move sv s a t) (hg : a ≠ .giveBack) (ha : ∀ m, a ≠ .arrive m)
    (hv : ∀ rx ∈ s.rxBufs, isRxMbufValid sv.net rx.mbuf = true) : ownStep sv s a = some t := by
  have h := Worker.move_step m
  cases a with
  | arrive mbuf => exact absurd rfl (ha mbuf)
  | giveBack => exact absurd rfl hg
  | handle =>
    have he : handleOne sv s = Worker.handleOne sv s := by
      unfold handleOne
      split
      · rfl
      · rename_i rx hl
        rw [if_neg (by simp [hv rx (List.mem_of_getLast? hl)])]
    simpa only [ownStep, he, Worker.step] using h
  | resume r => exact h
  | dispatch => exact h
  | transmit nbTx => exact h

end Steps

/-! ## The workers of a server that gets valid packets -/

/-- Only valid packets come from the NIC. -/
def ValidTraffic (c : Config) (as : List Act) : Prop :=
  ∀ rxBufs, Act.rxBurst rxBufs ∈ as → ∀ m ∈ rxBufs, isRxMbufValid c.server.net m = true

structure Served (c : Config) (s : State) : Prop where
  packets : ∀ size rxBufs, s.disp.pc = .dispatch size rxBufs →
    ∀ m ∈ rxBufs, isRxMbufValid c.server.net m = true
  serving : ∀ w, Serving c.server (s.workers w)
  returned : ∀ w, (s.returnQ w).length ≤ returnCapacity

theorem init_served (c : Config) : Served c (init c) where
  packets _ _ hp := by cases hp
  serving _ := init_serving c.server
  returned _ := Nat.zero_le _

section Served

variable {c : Config} {s : State}

theorem Served.setWorker (h : Served c s) {w : Nat} {t : Worker.State} (ht : Serving c.server t) :
    Served c (s.setWorker w t) :=
  { h with
    serving := (Function.forall_update_iff s.workers fun _ t => Serving c.server t).mpr
      ⟨ht, fun u _ => h.serving u⟩ }

theorem Served.setReturnQ (h : Served c s) {w : Nat} {q : List (Option Worker.Rx)}
    (hq : q.length ≤ returnCapacity) :
    Served c { s with returnQ := Function.update s.returnQ w q } :=
  { h with
    returned := (Function.forall_update_iff s.returnQ fun _ q => q.length ≤ returnCapacity).mpr
      ⟨hq, fun u _ => h.returned u⟩ }

theorem ownStep_serving {sv : Worker.Server} {s t : Worker.State} {a : Worker.Act}
    (h : Serving sv s) (ht : ownStep sv s a = some t) : Serving sv t := by
  rcases ownStep_cases ht with ⟨m, hg, ha⟩ | ⟨rx, rest, hp, hr, hv, rfl⟩
  · exact (move_serving h m hg ha).1
  · exact absurd hv (h.not_invalid hr)

theorem move_served (h : Served c s) {t : State} {a : Act} (m : Move c s a t)
    (ha : ∀ rxBufs, a = .rxBurst rxBufs → ∀ m ∈ rxBufs, isRxMbufValid c.server.net m = true) :
    Served c t := by
  cases m with
  | nothing hp => exact h
  | receive rxBufs hp hne hle =>
    exact { h with packets := fun _ _ hp' => by cases hp'; exact ha rxBufs rfl }
  | enqueue size m rxBufs w hp hw room =>
    have hpackets := h.packets size _ hp
    have hs :=
      h.setWorker (w := w) (arrive_serving (h.serving w) (hpackets m List.mem_cons_self) room)
    exact { hs with
      packets := fun _ _ hp' => by
        cases hp'
        exact fun m' hm' => hpackets m' (List.mem_cons_of_mem m hm') }
  | drop size m rxBufs w hp hw full =>
    have hpackets := h.packets size _ hp
    exact { h with
      packets := fun _ _ hp' => by
        cases hp'
        exact fun m' hm' => hpackets m' (List.mem_cons_of_mem m hm') }
  | startCheckin size hp hcheck => exact { h with packets := fun _ _ hp' => by cases hp' }
  | noCheckin size hp hcheck => exact { h with packets := fun _ _ hp' => by cases hp' }
  | assertion visited total w hp hlt hw hv => exact { h with }
  | visited visited total w hp hlt hw hv hempty =>
    exact { h with packets := fun _ _ hp' => by cases hp' }
  | overrun visited total w n hp hlt hw hn hover => exact { h with }
  | collect visited total w n hp hlt hw hn =>
    have hq : ((s.returnQ w).drop n).length ≤ returnCapacity := by
      have hle := h.returned w
      simp only [List.length_drop]
      omega
    exact { h.setReturnQ (w := w) hq with packets := fun _ _ hp' => by cases hp' }
  | endCheckin d hd =>
    cases hd with
    | endCheckin visited total hp hlen => exact { h with packets := fun _ _ hp' => by cases hp' }
  | work w a t hw ht => exact h.setWorker (ownStep_serving (h.serving w) ht)
  | abort w hw hp hr short =>
    have hq : (s.returnQ w ++ (s.workers w).returnRxBufs.take
        (returnCapacity - (s.returnQ w).length)).length ≤ returnCapacity := by
      have hle := h.returned w
      simp only [List.length_append, List.length_take]
      omega
    exact { h.setReturnQ (w := w) hq with }
  | giveBack w hw hp hr room =>
    have hq : (s.returnQ w ++ (s.workers w).returnRxBufs).length ≤ returnCapacity := by
      have hle := h.returned w
      simp only [List.length_append]
      omega
    exact (h.setWorker (giveBack_serving (h.serving w) hp (.inl rfl))).setReturnQ hq
  | defer w hw hp hr => exact h.setWorker (giveBack_serving (h.serving w) hp (.inr ⟨rfl, hr⟩))

end Served

theorem run_served {c : Config} {as : List Act} {s : State}
    (h : Machine.run (step c) as (init c) = some s) (hv : ValidTraffic c as) : Served c s := by
  have hc : Machine.Along (step c) (fun _ a => ∀ rxBufs, a = .rxBurst rxBufs →
      ∀ m ∈ rxBufs, isRxMbufValid c.server.net m = true) as (init c) := by
    apply Machine.along_of_mem
    rintro a ha - rxBufs rfl
    exact hv rxBufs ha
  exact Machine.run_invariant (init_served c)
    (fun _ _ _ hs ha ht => move_served hs (step_move ht).2 ha) h hc

/-! ## A pause -/

/-- More is outstanding than the return ring of `w` takes. -/
structure Backlog (c : Config) (w : Nat) (s : State) : Prop where
  fault : s.fault = none
  serving : Serving c.server (s.workers w)
  returned : (s.returnQ w).length ≤ returnCapacity
  enough : returnRingSize ≤ outstanding s w

def rank : Worker.Pc → Nat
  | .head => 0
  | .giveBack => 1
  | .transmit => 2
  | .handle => 3
  | .dispatch => 4

/-- What a worker has to do before it has returned everything: a packet is taken off the ring,
bound to a coroutine, and completed. -/
def workLeft (s : Worker.State) : Nat :=
  5 * (3 * s.ring.length + 2 * s.rxBufs.length + s.busyCoros.length) + rank s.pc

section Pause

variable {c : Config} {w : Nat} {s : State}

theorem step_work (hf : s.fault = none) (hw : w < c.numWorkerThreads) (a : Worker.Act) :
    step c s (.work w a) = workStep c w s a := by
  simp [step, hf, hw]

@[simp] theorem setWorker_self (t : Worker.State) : (s.setWorker w t).workers w = t := by
  simp [State.setWorker]

/-- A stage that does not return buffers keeps the backlog. -/
theorem Backlog.advance (h : Backlog c w s) (hw : w < c.numWorkerThreads) {a : Worker.Act}
    {t : Worker.State} (m : Worker.Move c.server (s.workers w) a t) (hg : a ≠ .giveBack)
    (ha : ∀ m, a ≠ .arrive m) :
    step c s (.work w a) = some (s.setWorker w t) ∧ Backlog c w (s.setWorker w t) := by
  have hown := ownStep_of_move m hg ha h.serving.valid_pending
  obtain ⟨hs, hheld⟩ := move_serving h.serving m hg ha
  constructor
  · rw [step_work h.fault hw]
    cases a with
    | giveBack => exact absurd rfl hg
    | _ => simp only [workStep, hown, Option.map_some]
  · refine ⟨h.fault, by simpa using hs, h.returned, ?_⟩
    show returnRingSize ≤ held ((s.setWorker w t).workers w) + (s.returnQ w).length
    rw [setWorker_self, hheld]
    exact h.enough

/-- A worker at the head of its loop that has nothing in hand finds packets on its ring. -/
theorem Backlog.ring_ne_nil (h : Backlog c w s) (hp : (s.workers w).pc = .head)
    (hb : (s.workers w).busyCoros = []) : 0 < (s.workers w).ring.length := by
  have hr := h.serving.pendingAt (by simp [hp])
  have hret := h.serving.nothing_kept hp hb
  have he := h.enough
  have hq := h.returned
  simp only [outstanding, held, hr, hb, hret, List.length_nil, returnCapacity, returnRingSize]
    at he hq
  omega

/-- Giving back is the end, or gets the worker to the head of its loop with the same backlog. -/
theorem Backlog.giveBack (h : Backlog c w s) (hw : w < c.numWorkerThreads)
    (hp : (s.workers w).pc = .giveBack) :
    ∃ t, step c s (.work w .giveBack) = some t ∧
      (t.fault = some (.abort w) ∨
        Backlog c w t ∧ workLeft (t.workers w) < workLeft (s.workers w)) := by
  obtain ⟨t, ht⟩ : ∃ t, step c s (.work w .giveBack) = some t := by
    rw [step_work h.fault hw]
    simp only [workStep, if_pos hp]
    exact ⟨_, rfl⟩
  refine ⟨t, ht, ?_⟩
  have hless : ∀ bufs, workLeft { s.workers w with returnRxBufs := bufs, pc := .head } <
      workLeft (s.workers w) := fun bufs => by simp [workLeft, hp, rank]
  have he := h.enough
  have hq := h.returned
  cases (step_move ht).2 with
  | work _ _ t hw hown => cases hown
  | abort _ hw hp hr short => exact .inl rfl
  | giveBack _ hw hp hr room =>
    refine .inr ⟨⟨h.fault, ?_, ?_, ?_⟩, ?_⟩
    · simpa using giveBack_serving h.serving hp (.inl rfl)
    · simp only [Function.update_self, List.length_append]
      omega
    · simp only [outstanding, held, State.setWorker, Function.update_self, List.length_append,
        List.length_nil] at he ⊢
      omega
    · simpa using hless []
  | defer _ hw hp hr =>
    refine .inr ⟨⟨h.fault, ?_, hq, ?_⟩, ?_⟩
    · simpa using giveBack_serving h.serving hp (.inr ⟨rfl, hr⟩)
    · simpa [outstanding, held, State.setWorker] using he
    · simpa using hless (s.workers w).returnRxBufs

/-- A worker with a backlog always has something to do, and does it. -/
theorem Backlog.next (h : Backlog c w s) (hw : w < c.numWorkerThreads)
    (hk : 0 < c.server.numWorkerCoros) :
    ∃ as t, Machine.run (step c) as s = some t ∧ (∀ a ∈ as, ∃ b, a = Act.work w b) ∧
      (t.fault = some (.abort w) ∨
        Backlog c w t ∧ workLeft (t.workers w) < workLeft (s.workers w)) := by
  -- one stage that leaves less to do
  have one : ∀ {a : Worker.Act} {t : Worker.State}, Worker.Move c.server (s.workers w) a t →
      a ≠ .giveBack → (∀ m, a ≠ .arrive m) → workLeft t < workLeft (s.workers w) →
      ∃ as t, Machine.run (step c) as s = some t ∧ (∀ a ∈ as, ∃ b, a = Act.work w b) ∧
        (t.fault = some (.abort w) ∨
          Backlog c w t ∧ workLeft (t.workers w) < workLeft (s.workers w)) := by
    intro a t m hg ha hlt
    obtain ⟨hstep, hback⟩ := h.advance hw m hg ha
    exact ⟨[.work w a], _, Machine.run_one hstep, by simp, .inr ⟨hback, by simpa using hlt⟩⟩
  have hs := h.serving
  cases hp : (s.workers w).pc with
  | head =>
    cases hb : (s.workers w).busyCoros with
    | cons d rest =>
      refine one (.finish d rest hp hb) (by simp) (by simp) ?_
      simp only [workLeft, hp, hb, rank, List.length_cons]
      omega
    | nil =>
      -- nothing to resume: the loop turns to the ring at once
      have hring := h.ring_ne_nil hp hb
      obtain ⟨hstep₁, hback₁⟩ := h.advance hw (.idle .completed hp hb) (by simp) (by simp)
      obtain ⟨hstep₂, hback₂⟩ := hback₁.advance hw
        (.dequeue (by simp) (by simp [Worker.dispatchReady])) (by simp) (by simp)
      refine ⟨[.work w (.resume .completed), .work w .dispatch], _, by simp [hstep₁, hstep₂],
        by simp, .inr ⟨hback₂, ?_⟩⟩
      have hr := hs.pendingAt (by simp [hp])
      have hslots := hs.slots
      rw [hb, List.length_nil] at hslots
      have hburst : 0 < Worker.burst (s.workers w) := by
        unfold Worker.burst
        omega
      have hle : Worker.burst (s.workers w) ≤ (s.workers w).ring.length := Nat.min_le_right _ _
      have hu := WorkerSlots.u16_dequeue hs.ring
      simp only [Worker.burst] at hburst hle hu
      simp only [workLeft, setWorker_self, Worker.burst, hu, List.length_take, List.length_drop, hr,
        hb, hp, rank, List.length_nil]
      omega
  | dispatch =>
    by_cases hd : Worker.dispatchReady (s.workers w)
    · refine one (.dequeue hp hd) (by simp) (by simp) ?_
      have hr := hs.pendingAt (by simp [hp])
      have hb : Worker.burst (s.workers w) ≤ (s.workers w).ring.length := Nat.min_le_right _ _
      simp only [workLeft, WorkerSlots.u16_dequeue hs.ring, List.length_take, List.length_drop, hr,
        hp, rank, List.length_nil]
      omega
    · exact one (.wait hp hd) (by simp) (by simp) (by simp [workLeft, hp, rank])
  | handle =>
    rcases List.eq_nil_or_concat' (s.workers w).rxBufs with hr | ⟨rest, rx, hr⟩
    · exact one (.handled hp hr) (by simp) (by simp) (by simp [workLeft, hp, rank])
    · rcases List.eq_nil_or_concat' (s.workers w).idleCoros with hi | ⟨idle, d, hi⟩
      · have hn := hs.pending
        simp [hr, hi] at hn
      · have hv := hs.valid_pending rx (by simp [hr])
        refine one (.bind rx rest d idle hp hr hv hi) (by simp) (by simp) ?_
        simp only [workLeft, hp, hr, rank, List.length_append, List.length_cons, List.length_nil]
        omega
  | transmit =>
    by_cases ht : Worker.txReady (s.workers w)
    · exact one (.send 0 hp ht (Nat.zero_le _)) (by simp) (by simp) (by simp [workLeft, hp, rank])
    · exact one (.hold 0 hp ht) (by simp) (by simp) (by simp [workLeft, hp, rank])
  | giveBack =>
    obtain ⟨t, ht, hres⟩ := h.giveBack hw hp
    exact ⟨[.work w .giveBack], t, Machine.run_one ht, by simp, hres⟩

/-- So it ends in `abort()` if it is left alone. -/
theorem Backlog.overflows (h : Backlog c w s) (hw : w < c.numWorkerThreads)
    (hk : 0 < c.server.numWorkerCoros) :
    ∃ bs t, Machine.run (step c) bs s = some t ∧ (∀ a ∈ bs, ∃ b, a = Act.work w b) ∧
      t.fault = some (.abort w) :=
  Machine.run_until (fun s => workLeft (s.workers w)) (fun _ hs => hs.next hw hk) h

/-- Nothing comes in during a pause, so what did not fit was there at its start. -/
theorem enough_of_abort {bs : List Act} {t : State} (h : Machine.run (step c) bs s = some t)
    (hb : ∀ a ∈ bs, ∃ b, a = Act.work w b) (hf : s.fault = none)
    (ht : t.fault = some (.abort w)) : returnRingSize ≤ outstanding s w := by
  induction bs generalizing s with
  | nil =>
    cases h
    rw [hf] at ht
    cases ht
  | cons a bs ih =>
    obtain ⟨u, hu, hrest⟩ := Option.bind_eq_some_iff.mp h
    obtain ⟨b, rfl⟩ := hb a List.mem_cons_self
    have hb' : ∀ a ∈ bs, ∃ b, a = Act.work w b := fun a ha => hb a (List.mem_cons_of_mem _ ha)
    cases (step_move hu).2 with
    | work _ _ x hw hx =>
      have hle := ih hrest hb' hf
      have hheld := ownStep_held hx
      simp only [outstanding, State.setWorker, Function.update_self] at hle ⊢
      omega
    | abort _ hw hp hr short =>
      simp only [outstanding, held, returnRingSize]
      simp only [returnCapacity, returnRingSize] at short
      omega
    | giveBack _ hw hp hr room =>
      have hle := ih hrest hb' hf
      simp only [outstanding, held, State.setWorker, Function.update_self, List.length_append,
        List.length_nil] at hle ⊢
      omega
    | defer _ hw hp hr =>
      have hle := ih hrest hb' hf
      simpa [outstanding, held, State.setWorker] using hle

end Pause

/-! ## How a backlog builds up -/

/-- The packets on the dispatch rings. -/
def filled (c : Config) (s : State) : Nat :=
  ∑ w ∈ Finset.range c.numWorkerThreads, (s.workers w).ring.length

/-- The dispatcher has been running and no worker has. Every check-in but the current one
was preceded by a packet. -/
structure Filling (c : Config) (s : State) : Prop where
  fault : s.fault = none
  heap : DispatcherHeap.Inv c.build s.disp
  empty : ∀ w, s.returnQ w = []
  checkIns : s.disp.checkIns + min 1 s.disp.returnQueueCheckinIdx ≤ filled c s
  busy : ∀ visited total, s.disp.pc = .checkin visited total → 0 < s.disp.returnQueueCheckinIdx
  short : ∀ w < c.numWorkerThreads, (s.workers w).ring.length ≤ returnCapacity

/-- The places of the dispatcher loop, up to the next packet. -/
def placesLeft (c : Config) : Dispatcher.Pc → Nat
  | .dispatch _ [] => c.numWorkerThreads + 3
  | .checkin visited _ => c.numWorkerThreads - visited.length + 2
  | .recv => 1
  | .dispatch _ (_ :: _) => 0

/-- One packet more than all the return rings take, less those that have arrived. -/
def fillLeft (c : Config) (s : State) : Nat :=
  (c.numWorkerThreads + 4) * (c.numWorkerThreads * returnCapacity + 1 - filled c s) +
    placesLeft c s.disp.pc

theorem init_filling (c : Config) : Filling c (init c) where
  fault := rfl
  heap := DispatcherHeap.init_inv c.build
  empty _ := rfl
  checkIns := Nat.zero_le _
  busy _ _ hp := by cases hp
  short _ _ := Nat.zero_le _

section Fill

variable {c : Config} {s : State}

theorem Filling.filled_le (h : Filling c s) : filled c s ≤ c.numWorkerThreads * returnCapacity := by
  have hle := Finset.sum_le_card_nsmul (Finset.range c.numWorkerThreads)
    (fun w => (s.workers w).ring.length) returnCapacity fun w hw => h.short w
      (Finset.mem_range.mp hw)
  simpa [filled] using hle

theorem Filling.setPc (h : Filling c s) {pc : Dispatcher.Pc}
    (hv : DispatcherHeap.visitedAt pc = DispatcherHeap.visitedAt s.disp.pc)
    (hb : ∀ visited total, pc = .checkin visited total → 0 < s.disp.returnQueueCheckinIdx) :
    Filling c (s.setPc pc) :=
  { h with heap := h.heap.setPc hv, busy := hb }

theorem filled_arrive {w : Nat} (hw : w < c.numWorkerThreads) (m : Mbuf) :
    filled c (s.setWorker w (Worker.arrive m (s.workers w))) = filled c s + 1 := by
  have hring : (fun u => ((s.setWorker w (Worker.arrive m (s.workers w))).workers u).ring.length) =
      fun u => (s.workers u).ring.length + if u = w then 1 else 0 := by
    funext u
    by_cases he : u = w
    · subst he
      simp [Worker.arrive]
    · simp [State.setWorker, he]
  unfold filled
  rw [hring, Finset.sum_add_distrib, Finset.sum_ite_eq' (Finset.range c.numWorkerThreads) w,
    if_pos (Finset.mem_range.mpr hw)]

/-- The packet goes to the top of the heap, where there is room for it. -/
theorem Filling.enqueue (h : Filling c s) {size w : Nat} {m : Mbuf} {rxBufs : List Mbuf}
    (hp : s.disp.pc = .dispatch size (m :: rxBufs)) (hw : s.disp.workerQueue.head? = some w)
    (hshort : (s.workers w).ring.length < returnCapacity) :
    Filling c { s.setWorker w (Worker.arrive m (s.workers w)) with
      disp := { Dispatcher.account c.build w 1 1 s.disp with pc := .dispatch 1 rxBufs } } := by
  have hwn : w < c.numWorkerThreads := h.heap.mem_queue.mp (List.mem_of_mem_head? hw)
  have hcount := h.checkIns
  refine { h with
    heap := ?_
    checkIns := ?_
    busy := fun _ _ hp' => by cases hp'
    short := fun u hu => ?_ }
  · have hoffered : Dispatcher.offered c.build 0 0 s.disp = some w := hw
    have hd := DispatcherHeap.dispatch_inv h.heap hp hoffered 1 1 rxBufs
    have hv : DispatcherHeap.visitedAt (.dispatch 1 rxBufs) = DispatcherHeap.visitedAt
        (.dispatch size rxBufs) := rfl
    exact hd.setPc hv
  · have hf : filled c { s.setWorker w (Worker.arrive m (s.workers w)) with
        disp := { Dispatcher.account c.build w 1 1 s.disp with pc := .dispatch 1 rxBufs } } =
        filled c s + 1 := filled_arrive hwn m
    rw [hf]
    simp only [DispatcherHeap.account_checkIns]
    omega
  · by_cases he : u = w
    · subst he
      simp only [State.setWorker, Function.update_self, Worker.arrive, List.length_append,
        List.length_singleton]
      omega
    · simpa only [State.setWorker, Function.update_of_ne he] using h.short u hu

/-- A check-in finds the return ring of the next worker empty. -/
theorem Filling.visit (h : Filling c s) {visited : List Nat} {total w : Nat}
    (hp : s.disp.pc = .checkin visited total) (hlt : visited.length < c.numWorkerThreads)
    (hw : s.disp.workerQueue.head? = some w) (hroom : (s.disp.checkIns : Int) < intMax) :
    Filling c { s with
      disp := { Dispatcher.requeue c.build w (drained c s w) s.disp with
        pc := .checkin (visited ++ [w]) total }
      returnSize := 0 } :=
  { h with
    heap := DispatcherHeap.requeue_visit_inv h.heap hp hlt hw hroom rfl total
    busy := fun _ _ _ => h.busy visited total hp }

theorem fillLeft_lt_of_place {t : State} (hf : filled c t = filled c s)
    (hp : placesLeft c t.disp.pc < placesLeft c s.disp.pc) : fillLeft c t < fillLeft c s := by
  unfold fillLeft
  rw [hf]
  omega

theorem fillLeft_lt_of_packet {t : State} (hf : filled c t = filled c s + 1)
    (hle : filled c s ≤ c.numWorkerThreads * returnCapacity)
    (hp : placesLeft c t.disp.pc < c.numWorkerThreads + 4) : fillLeft c t < fillLeft c s := by
  have hs : c.numWorkerThreads * returnCapacity + 1 - filled c s =
      c.numWorkerThreads * returnCapacity + 1 - filled c t + 1 := by omega
  unfold fillLeft
  rw [hs, Nat.mul_add_one]
  omega

/-- The worker at the top of the heap. -/
theorem Filling.exists_top (h : Filling c s) :
    ∃ w < c.numWorkerThreads, s.disp.workerQueue.head? = some w := by
  obtain ⟨w, hw⟩ := h.heap.exists_top
  exact ⟨w, h.heap.mem_queue.mp (List.mem_of_mem_head? hw), hw⟩

theorem Filling.rxBurst (h : Filling c s) (hp : s.disp.pc = .recv) :
    ∃ t, step c s (.rxBurst [Worker.request]) = some t ∧ Filling c t ∧
      fillLeft c t < fillLeft c s := by
  have hburst : 1 ≤ rxQueueBurstSize c.numWorkerThreads := by
    have hpos := c.threads_pos
    simp only [rxQueueBurstSize, maxDispatchUnit]
    omega
  refine ⟨s.setPc (.dispatch 1 [Worker.request]), by simp [step, h.fault, hp, hburst], ?_, ?_⟩
  · exact h.setPc (by rw [hp]; rfl) (fun _ _ hp' => by cases hp')
  · exact fillLeft_lt_of_place rfl (by simp [hp, State.setPc, placesLeft])

theorem Filling.endBurst (h : Filling c s) {size : Nat} (hp : s.disp.pc = .dispatch size []) :
    ∃ t, step c s .endBurst = some t ∧ Filling c t ∧ fillLeft c t < fillLeft c s := by
  by_cases hc : checkinPeriod c.numWorkerThreads ≤ s.disp.returnQueueCheckinIdx
  · have hpos : 0 < s.disp.returnQueueCheckinIdx := by
      have hpos := c.threads_pos
      simp only [checkinPeriod, returnBurstSize] at hc
      omega
    refine ⟨s.setPc (.checkin [] 0), by simp [step, h.fault, hp, hc], ?_, ?_⟩
    · exact h.setPc (by rw [hp]; rfl) (fun _ _ _ => hpos)
    · exact fillLeft_lt_of_place rfl (by simp [hp, State.setPc, placesLeft])
  · refine ⟨s.setPc .recv, by simp [step, h.fault, hp, hc], ?_, ?_⟩
    · exact h.setPc (by rw [hp]; rfl) (fun _ _ hp' => by cases hp')
    · exact fillLeft_lt_of_place rfl (by simp [hp, State.setPc, placesLeft])

/-- A return ring could not take what is on this dispatch ring. -/
def Full (c : Config) (s : State) : Prop :=
  s.fault = none ∧ ∃ w < c.numWorkerThreads, returnRingSize ≤ (s.workers w).ring.length

theorem Filling.dispatch (h : Filling c s) {size : Nat} {m : Mbuf} {rxBufs : List Mbuf}
    (hp : s.disp.pc = .dispatch size (m :: rxBufs)) :
    ∃ t, step c s .dispatch = some t ∧ (Full c t ∨ Filling c t ∧ fillLeft c t < fillLeft c s) := by
  obtain ⟨w, hwn, hw⟩ := h.exists_top
  have hring := h.short w hwn
  have hcap : (s.workers w).ring.length < ringCapacity := by
    simp only [returnCapacity, returnRingSize] at hring
    simp only [ringCapacity, dispatchRingSize]
    omega
  refine ⟨{ s.setWorker w (Worker.arrive m (s.workers w)) with
    disp := { Dispatcher.account c.build w 1 1 s.disp with pc := .dispatch 1 rxBufs } },
    by simp [step, h.fault, hp, hw, dispatchOne, hcap], ?_⟩
  by_cases hshort : (s.workers w).ring.length < returnCapacity
  · refine .inr ⟨h.enqueue hp hw hshort, fillLeft_lt_of_packet (filled_arrive hwn m) h.filled_le ?_⟩
    cases rxBufs with
    | nil => exact Nat.lt_succ_self _
    | cons m rxBufs => exact Nat.zero_lt_succ _
  · refine .inl ⟨h.fault, w, hwn, ?_⟩
    simp only [State.setWorker, Function.update_self, Worker.arrive, List.length_append,
      List.length_singleton]
    simp only [returnCapacity] at hshort
    omega

theorem Filling.drain (h : Filling c s) {visited : List Nat} {total : Nat}
    (hp : s.disp.pc = .checkin visited total) (hlt : visited.length < c.numWorkerThreads)
    (hroom : (s.disp.checkIns : Int) < intMax) :
    ∃ t, step c s .drain = some t ∧ Filling c t ∧ fillLeft c t < fillLeft c s := by
  obtain ⟨w, hwn, hw⟩ := h.exists_top
  have hver := (DispatcherHeap.top_not_visited h.heap hw (by rw [hp]; exact hlt)).2
  refine ⟨{ s with
    disp := { Dispatcher.requeue c.build w (drained c s w) s.disp with
      pc := .checkin (visited ++ [w]) total }
    returnSize := 0 }, by simp [step, h.fault, hp, hlt, hw, ReturnRing.drain, hver, h.empty w],
    h.visit hp hlt hw hroom, fillLeft_lt_of_place rfl ?_⟩
  simp only [hp, placesLeft, List.length_append, List.length_singleton]
  omega

theorem Filling.endCheckin (h : Filling c s) {visited : List Nat} {total : Nat}
    (hp : s.disp.pc = .checkin visited total) (hlt : ¬ visited.length < c.numWorkerThreads)
    (hroom : (s.disp.checkIns : Int) < intMax) :
    ∃ t, step c s .endCheckin = some t ∧ Filling c t ∧ fillLeft c t < fillLeft c s := by
  have hm : Dispatcher.Move c.build s.disp .endCheckin _ := .endCheckin visited total hp hlt
  have hcount := h.checkIns
  have hbusy := h.busy visited total hp
  refine ⟨{ s with disp := { s.disp with
    pc := .recv
    returnQueueCheckinIdx := 0
    curVersionNumber := c.build.int (s.disp.curVersionNumber + 1)
    totalRunningJobs := c.build.int (s.disp.totalRunningJobs - total)
    checkIns := s.disp.checkIns + 1 } }, by simp [step, h.fault, Dispatcher.move_step hm], ?_, ?_⟩
  · have hf : s.disp.checkIns + 1 ≤ filled c s := by omega
    exact { h with
      heap := DispatcherHeap.endCheckin_inv h.heap hroom hm
      checkIns := hf
      busy := fun _ _ hp' => by cases hp' }
  · exact fillLeft_lt_of_place rfl (by simp [hp, placesLeft])

/-- Without the workers the dispatcher goes on until a ring holds more than can be returned. -/
theorem Filling.next (h : Filling c s) (hn : (c.numWorkerThreads * returnCapacity : Nat) < intMax) :
    ∃ as t, Machine.run (step c) as s = some t ∧
      (∀ a ∈ as, ∀ rxBufs, a = Act.rxBurst rxBufs → rxBufs = [Worker.request]) ∧
      (Full c t ∨ Filling c t ∧ fillLeft c t < fillLeft c s) := by
  have hle := h.filled_le
  have hcount := h.checkIns
  have hroom : (s.disp.checkIns : Int) < intMax := by omega
  cases hp : s.disp.pc with
  | recv =>
    obtain ⟨t, ht, hf⟩ := h.rxBurst hp
    exact ⟨_, t, Machine.run_one ht, by simp, .inr hf⟩
  | dispatch size rxBufs =>
    cases rxBufs with
    | nil =>
      obtain ⟨t, ht, hf⟩ := h.endBurst hp
      exact ⟨_, t, Machine.run_one ht, by simp, .inr hf⟩
    | cons m rxBufs =>
      obtain ⟨t, ht, hf⟩ := h.dispatch hp
      exact ⟨_, t, Machine.run_one ht, by simp, hf⟩
  | checkin visited total =>
    by_cases hlt : visited.length < c.numWorkerThreads
    · obtain ⟨t, ht, hf⟩ := h.drain hp hlt hroom
      exact ⟨_, t, Machine.run_one ht, by simp, .inr hf⟩
    · obtain ⟨t, ht, hf⟩ := h.endCheckin hp hlt hroom
      exact ⟨_, t, Machine.run_one ht, by simp, .inr hf⟩

/-- A worker that is held up for long enough has a backlog in the end. -/
theorem backlog_builds_up (c : Config) (hn : (c.numWorkerThreads * returnCapacity : Nat) < intMax) :
    ∃ as s, Machine.run (step c) as (init c) = some s ∧
      (∀ a ∈ as, ∀ rxBufs, a = Act.rxBurst rxBufs → rxBufs = [Worker.request]) ∧
      Full c s :=
  Machine.run_until (fillLeft c) (fun _ hs => hs.next hn) (init_filling c)

end Fill

/-! ## The return rings -/

/-- The build without `NEW_DISPATCHER`. As long as packets are offered only to workers with fewer
than `RETURN_RING_SIZE - 1` running jobs, every return ring has room for all a worker may return
and no `abort()` is reached, nor does a check-in write behind `return_rx_bufs`. And if traffic
was valid and pauses now, a worker can get to its `abort()` before the dispatcher runs again
exactly if `RETURN_RING_SIZE` of its packets have not been collected. -/
theorem return_ring_room (c : Config) (as : List Act) (s : State)
    (h : Machine.run (step c) as (init c) = some s) :
    (Machine.Along (step c) Capped as (init c) →
      s.fault ≠ some .overrun ∧ ∀ w, s.fault ≠ some (.abort w) ∧
        (s.workers w).returnRxBufs.length + (s.returnQ w).length ≤ returnCapacity) ∧
    (ValidTraffic c as → 0 < c.server.numWorkerCoros → s.fault = none →
      ∀ w < c.numWorkerThreads,
        ((∃ bs t, Machine.run (step c) bs s = some t ∧ (∀ a ∈ bs, ∃ b, a = Act.work w b) ∧
          t.fault = some (.abort w)) ↔ returnRingSize ≤ outstanding s w)) := by
  constructor
  · intro hc
    have hr := run_roomy h hc
    refine ⟨fun hf => ?_, fun w => ⟨fun hf => ?_, ?_⟩⟩
    · simpa [hf] using hr.fault
    · simpa [hf] using hr.fault
    · have hle := hr.outstanding_le w
      simp only [outstanding, held] at hle
      omega
  · intro hv hk hf w hw
    have hs := run_served h hv
    constructor
    · rintro ⟨bs, t, ht, hb, hab⟩
      exact enough_of_abort ht hb hf hab
    · intro henough
      exact Backlog.overflows ⟨hf, hs.serving w, hs.returned w, henough⟩ hw hk

/-- One packet, and a pause. -/
theorem return_ring_room_one_packet :
    ∃ s, Machine.run (step debug) [.rxBurst [Worker.request], .dispatch, .endBurst] (init debug) =
        some s ∧
      (∀ w, (s.workers w).returnRxBufs.length + (s.returnQ w).length ≤ returnCapacity) ∧
      ¬ ∃ bs t, Machine.run (step debug) bs s = some t ∧ (∀ a ∈ bs, ∃ b, a = Act.work 0 b) ∧
        t.fault = some (.abort 0) := by
  obtain ⟨s, hs⟩ : ∃ s, Machine.run (step debug) [.rxBurst [Worker.request], .dispatch, .endBurst]
      (init debug) = some s := ⟨_, rfl⟩
  have hc : Machine.Along (step debug) Capped [.rxBurst [Worker.request], .dispatch, .endBurst]
      (init debug) := by
    refine ⟨trivial, fun t ht => ⟨fun w _ => ?_, fun _ _ => ⟨trivial, fun _ _ => trivial⟩⟩⟩
    cases ht
    show (0 : Int) < returnCapacity
    decide
  have hv : ValidTraffic debug [.rxBurst [Worker.request], .dispatch, .endBurst] := by
    intro rxBufs hm m hmem
    simp only [List.mem_cons, Act.rxBurst.injEq, reduceCtorEq, List.not_mem_nil, or_false] at hm
    rw [hm, List.mem_singleton] at hmem
    rw [hmem]
    decide
  obtain ⟨hroom, hpause⟩ := return_ring_room debug _ s hs
  refine ⟨s, hs, fun w => ((hroom hc).2 w).2, ?_⟩
  cases hs
  rw [hpause hv (by decide) rfl 0 (by decide)]
  decide

/-- Packets for the server arrive one by one while its workers are held up, then there is a
pause: a worker that goes on with its backlog ends in `abort()`. -/
theorem backlog_aborts :
    ∃ as bs t w, Machine.run (step debug) (as ++ bs) (init debug) = some t ∧
      (∀ rxBufs, Act.rxBurst rxBufs ∈ as → rxBufs = [Worker.request]) ∧
      (∀ a ∈ bs, ∃ b, a = Act.work w b) ∧ t.fault = some (.abort w) := by
  obtain ⟨as, s, hs, has, hf, w, hw, hring⟩ := backlog_builds_up debug (by decide)
  have hv : ValidTraffic debug as := by
    intro rxBufs hm m hmem
    rw [has _ hm rxBufs rfl, List.mem_singleton] at hmem
    rw [hmem]
    decide
  have hserved := run_served hs hv
  have henough : returnRingSize ≤ outstanding s w := by
    simp only [outstanding, held]
    omega
  obtain ⟨bs, t, ht, hb, hab⟩ :=
    Backlog.overflows ⟨hf, hserved.serving w, hserved.returned w, henough⟩ hw (by decide)
  exact ⟨as, bs, t, w, Machine.run_join hs ht, fun rxBufs hm => has _ hm rxBufs rfl, hb, hab⟩

end TinyQuanta.ReturnBacklog
