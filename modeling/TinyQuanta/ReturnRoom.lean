import TinyQuanta.ReturnRing

/-!
# How much a return ring has to take

A packet of a worker is on its dispatch ring, in the hands of the worker, or on
its return ring. The worker moves packets along this way and never makes one, so
the return ring never has to take more than was outstanding. What is outstanding
is counted by `num_running_jobs`.
-/
namespace TinyQuanta.ReturnRoom

open Params Packet ReturnRing

/-- The packets in the hands of a worker, with its dispatch ring. -/
def held (s : Worker.State) : Nat :=
  s.ring.length + s.rxBufs.length + s.busyCoros.length + s.returnRxBufs.length

/-- The packets of a worker that the dispatcher has not collected. -/
def outstanding (s : State) (w : Nat) : Nat := held (s.workers w) + (s.returnQ w).length

/-! ## The steps of one worker -/

/-- A step of the worker alone is one of the other build, or a rejection with the shorter buffer. -/
theorem ownStep_cases {sv : Worker.Server} {s t : Worker.State} {a : Worker.Act}
    (h : ownStep sv s a = some t) :
    Worker.Move sv s a t ∧ a ≠ .giveBack ∧ (∀ m, a ≠ .arrive m) ∨
    ∃ rx rest, s.pc = .handle ∧ s.rxBufs = rest ++ [rx] ∧ isRxMbufValid sv.net rx.mbuf = false ∧
      t = reject rx { s with rxBufs := rest } := by
  cases a with
  | arrive m => cases h
  | giveBack => cases h
  | handle =>
    simp only [ownStep, Option.ite_none_right_eq_some] at h
    obtain ⟨hp, h⟩ := h
    have hmove : Worker.handleOne sv s = some t → Worker.Move sv s .handle t := fun he =>
      Worker.step_move (by simp only [Worker.step, if_pos hp, he])
    unfold handleOne at h
    split at h
    · exact .inl ⟨hmove h, by simp, by simp⟩
    · rename_i rx hl
      split at h
      · cases h
        exact .inr ⟨rx, _, hp, (List.dropLast_append_getLast? rx hl).symm, ‹_›, rfl⟩
      · exact .inl ⟨hmove h, by simp, by simp⟩
  | resume r => exact .inl ⟨Worker.step_move h, by simp, by simp⟩
  | dispatch => exact .inl ⟨Worker.step_move h, by simp, by simp⟩
  | transmit nbTx => exact .inl ⟨Worker.step_move h, by simp, by simp⟩

/-- A worker never has more packets than before. -/
theorem ownStep_held {sv : Worker.Server} {s t : Worker.State} {a : Worker.Act}
    (h : ownStep sv s a = some t) : held t ≤ held s := by
  rcases ownStep_cases h with ⟨m, hg, ha⟩ | ⟨rx, rest, hp, hr, hv, rfl⟩
  · cases m with
    | arrive m room => exact absurd rfl (ha m)
    | preempt c rest hp hb => simp [held, hb]
    | finish c rest hp hb => simp only [held, hb, List.length_append, List.length_cons]; simp; omega
    | dequeue hp hd =>
      have hu : u16 (Worker.burst s) ≤ Worker.burst s := Nat.mod_le _ _
      have hb : Worker.burst s ≤ s.ring.length := Nat.min_le_right _ _
      simp only [held, List.length_take, List.length_drop]
      omega
    | keep rx rest hp hr hv room => simp [held, hr]; omega
    | lose rx rest hp hr hv full => simp [held, hr]
    | bind rx rest c idle hp hr hv hi => simp [held, hr]; omega
    | free hp hf => exact absurd rfl hg
    | defer hp hf => exact absurd rfl hg
    | _ => exact Nat.le_refl _
  · simp only [held, reject, hr]
    split <;> simp only [List.length_append, List.length_singleton] <;> omega

/-! ## Enough room -/

/-- A check-in has a worker to visit. -/
def Draining (c : Config) : Dispatcher.Pc → Prop
  | .checkin visited _ => visited.length < c.numWorkerThreads
  | _ => False

/-- Packets are offered only to a worker with fewer jobs than its return ring has places. -/
def Capped (s : State) : Act → Prop
  | .dispatch => ∀ w, s.disp.workerQueue.head? = some w →
      (s.disp.workerInfoVec w).numRunningJobs < returnCapacity
  | _ => True

/-- No worker has more packets than its entry says, and that is at most what its ring takes. The
entry of a worker that is being visited still counts what was taken off its ring. -/
structure Roomy (c : Config) (s : State) : Prop where
  idle : ¬ Draining c s.disp.pc → s.returnSize = 0
  count : ∀ u, (outstanding s u : Int) ≤ (s.disp.workerInfoVec u).numRunningJobs
  visit : ∀ u, s.disp.workerQueue.head? = some u →
    (outstanding s u : Int) + s.returnSize ≤ (s.disp.workerInfoVec u).numRunningJobs
  cap : ∀ u, (s.disp.workerInfoVec u).numRunningJobs ≤ returnCapacity
  total : ∀ visited total, s.disp.pc = .checkin visited total →
    total ≤ returnCapacity * visited.length + s.returnSize
  fault : s.fault = none ∨ s.fault = some .assertion

theorem init_roomy (c : Config) : Roomy c (init c) where
  idle _ := rfl
  count _ := Int.le_refl 0
  visit _ _ := Int.le_refl 0
  cap _ := show (0 : Int) ≤ returnCapacity by decide
  total _ _ hp := by cases hp
  fault := .inl rfl

section Room

variable {c : Config} {s : State}

theorem Roomy.outstanding_le (h : Roomy c s) (u : Nat) : outstanding s u ≤ returnCapacity := by
  have h1 := h.count u
  have h2 := h.cap u
  omega

/-- While nothing has been taken off a ring, the entries count what is outstanding. -/
theorem roomy_of_idle (hzero : s.returnSize = 0)
    (hcount : ∀ u, (outstanding s u : Int) ≤ (s.disp.workerInfoVec u).numRunningJobs)
    (hcap : ∀ u, (s.disp.workerInfoVec u).numRunningJobs ≤ returnCapacity)
    (htotal : ∀ visited total, s.disp.pc = .checkin visited total →
      total ≤ returnCapacity * visited.length)
    (hfault : s.fault = none ∨ s.fault = some .assertion) : Roomy c s where
  idle _ := hzero
  count := hcount
  visit u _ := by
    have hu := hcount u
    omega
  cap := hcap
  total visited total hp := by
    have ht := htotal visited total hp
    omega
  fault := hfault

/-- The dispatcher moves on while no ring is being drained. -/
theorem Roomy.setPc (h : Roomy c s) (hd : ¬ Draining c s.disp.pc) {pc : Dispatcher.Pc}
    (hpc : ∀ visited total, pc = .checkin visited total → total = 0) : Roomy c (s.setPc pc) :=
  roomy_of_idle (h.idle hd) h.count h.cap
    (fun visited total hp => by rw [hpc visited total hp]; exact Nat.zero_le _) h.fault

/-- What one worker does is no concern of the others, and its own packets get no more. -/
theorem Roomy.work (h : Roomy c s) {w : Nat} {t : Worker.State} {q : List (Option Worker.Rx)}
    (hle : held t + q.length ≤ outstanding s w) :
    Roomy c { s.setWorker w t with returnQ := Function.update s.returnQ w q } := by
  have key : ∀ u, outstanding { s.setWorker w t with returnQ := Function.update s.returnQ w q } u ≤
      outstanding s u := by
    intro u
    by_cases he : u = w
    · subst he
      simpa only [outstanding, State.setWorker, Function.update_self] using hle
    · simp only [outstanding, State.setWorker, Function.update_of_ne he, Nat.le_refl]
  exact { h with
    count := fun u => Int.le_trans (Int.ofNat_le.mpr (key u)) (h.count u)
    visit := fun u hu => Int.le_trans (Int.add_le_add_right (Int.ofNat_le.mpr (key u)) _)
      (h.visit u hu) }

theorem Roomy.setWorker (h : Roomy c s) {w : Nat} {t : Worker.State}
    (hle : held t ≤ held (s.workers w)) : Roomy c (s.setWorker w t) := by
  have hr := h.work (q := s.returnQ w) (Nat.add_le_add_right hle _)
  rwa [Function.update_eq_self] at hr

theorem enqueue_roomy (h : Roomy c s) {size w : Nat} {m : Mbuf} {rxBufs : List Mbuf}
    (hp : s.disp.pc = .dispatch size (m :: rxBufs))
    (hlt : (s.disp.workerInfoVec w).numRunningJobs < returnCapacity) :
    Roomy c { s.setWorker w (Worker.arrive m (s.workers w)) with
      disp := { Dispatcher.account c.build w 1 1 s.disp with pc := .dispatch 1 rxBufs } } := by
  have hint : c.build.int ((s.disp.workerInfoVec w).numRunningJobs + (1 : Nat)) =
      (s.disp.workerInfoVec w).numRunningJobs + 1 := by
    have h0 := h.count w
    apply c.build.int_eq
    simp only [InInt, intMin, intMax, returnCapacity, returnRingSize] at hlt ⊢
    omega
  refine roomy_of_idle (h.idle (by simp [hp, Draining])) (fun u => ?_) (fun u => ?_)
    (fun _ _ hp' => by cases hp') h.fault
  · have hu := h.count u
    simp only [Dispatcher.account_numRunningJobs, hint]
    by_cases he : u = w
    · subst he
      simp only [outstanding, held, State.setWorker, Function.update_self, Worker.arrive,
        List.length_append, List.length_singleton, if_true] at hu ⊢
      omega
    · simpa only [outstanding, State.setWorker, Function.update_of_ne he, if_neg he] using hu
  · have hu := h.cap u
    simp only [Dispatcher.account_numRunningJobs, hint]
    split <;> omega

/-- The worker at the top has been drained: what was taken is no longer counted. -/
theorem visited_roomy (h : Roomy c s) {visited : List Nat} {total w : Nat}
    (hp : s.disp.pc = .checkin visited total) (hw : s.disp.workerQueue.head? = some w) :
    Roomy c { s with
      disp := { Dispatcher.requeue c.build w (drained c s w) s.disp with
        pc := .checkin (visited ++ [w]) total }
      returnSize := 0 } := by
  have hv := h.visit w hw
  have hcap := h.cap w
  have hint : (drained c s w).numRunningJobs =
      (s.disp.workerInfoVec w).numRunningJobs - s.returnSize := by
    apply c.build.int_eq
    simp only [InInt, intMin, intMax, returnCapacity, returnRingSize] at hcap ⊢
    omega
  have hvec : ∀ u, ((Dispatcher.requeue c.build w (drained c s w) s.disp).workerInfoVec
    u).numRunningJobs =
      if u = w then (s.disp.workerInfoVec w).numRunningJobs - s.returnSize
      else (s.disp.workerInfoVec u).numRunningJobs := by
    intro u
    by_cases he : u = w
    · subst he
      simp [Dispatcher.requeue, hint]
    · simp [Dispatcher.requeue, he]
  have hcount : ∀ u, (outstanding s u : Int) ≤
      ((Dispatcher.requeue c.build w (drained c s w) s.disp).workerInfoVec u).numRunningJobs := by
    intro u
    have hu := h.count u
    rw [hvec]
    split
    · subst u
      omega
    · exact hu
  refine roomy_of_idle rfl hcount (fun u => ?_) (fun _ _ hp' => ?_) h.fault
  · have hu := h.cap u
    simp only [hvec]
    split <;> omega
  · cases hp'
    have ht := h.total visited total hp
    simp only [List.length_append, List.length_singleton, Nat.mul_add, Nat.mul_one]
    omega

/-- A burst moves from the return ring to the dispatcher, which has room for it. -/
theorem collect_roomy (h : Roomy c s) {visited : List Nat} {total w n : Nat}
    (hp : s.disp.pc = .checkin visited total) (hlt : visited.length < c.numWorkerThreads)
    (hw : s.disp.workerQueue.head? = some w) (hn : n ≤ (s.returnQ w).length) :
    Roomy c { s with
      disp := { s.disp with pc := .checkin visited (u16 (total + n)) }
      returnSize := u16 (s.returnSize + n)
      returnQ := Function.update s.returnQ w ((s.returnQ w).drop n) } := by
  have hv := h.visit w hw
  have hcap := h.cap w
  have hsize : u16 (s.returnSize + n) = s.returnSize + n := by
    apply Nat.mod_eq_of_lt
    simp only [outstanding, returnCapacity, returnRingSize] at hv hcap
    omega
  have hrest : (s.returnQ w).length - n + n = (s.returnQ w).length := Nat.sub_add_cancel hn
  have hsum : u16 (total + n) ≤ total + n := Nat.mod_le _ _
  exact { h with
    idle := fun hd => absurd hlt hd
    count := fun u => by
      have hu := h.count u
      by_cases he : u = w
      · subst he
        simp only [outstanding, Function.update_self, List.length_drop] at hu ⊢
        omega
      · simpa only [outstanding, Function.update_of_ne he] using hu
    visit := fun u hu => by
      cases hw.symm.trans hu
      simp only [outstanding, hsize, Function.update_self, List.length_drop] at hv ⊢
      omega
    total := fun _ _ hp' => by
      cases hp'
      have ht := h.total visited total hp
      simp only [hsize]
      omega }

theorem not_overrun (h : Roomy c s) {visited : List Nat} {total w n : Nat}
    (hp : s.disp.pc = .checkin visited total) (hlt : visited.length < c.numWorkerThreads)
    (hw : s.disp.workerQueue.head? = some w) (hn : n ≤ (s.returnQ w).length) :
    total + n ≤ freeMbufMaxBatchSize c.numWorkerThreads := by
  have hv := h.visit w hw
  have hcap := h.cap w
  have ht := h.total visited total hp
  have hmul : returnCapacity * (visited.length + 1) ≤ returnRingSize * c.numWorkerThreads :=
    Nat.mul_le_mul (Nat.sub_le _ _) hlt
  rw [Nat.mul_add, Nat.mul_one] at hmul
  simp only [outstanding] at hv
  simp only [freeMbufMaxBatchSize]
  omega

/-- One step keeps the room if packets are offered only to workers that have room. -/
theorem move_roomy (h : Roomy c s) {t : State} {a : Act} (m : Move c s a t) (hc : Capped s a) :
    Roomy c t := by
  cases m with
  | nothing hp => exact h
  | receive rxBufs hp hne hle =>
    exact h.setPc (by simp [hp, Draining]) fun _ _ hp' => by cases hp'
  | enqueue size m rxBufs w hp hw room => exact enqueue_roomy h hp (hc w hw)
  | drop size m rxBufs w hp hw full =>
    have hvec : ∀ u,
        (Dispatcher.requeue c.build w (s.disp.workerInfoVec w) s.disp).workerInfoVec u =
          s.disp.workerInfoVec u := fun u =>
      congrFun (Function.update_eq_self w s.disp.workerInfoVec) u
    refine roomy_of_idle (h.idle (by simp [hp, Draining])) (fun u => ?_) (fun u => ?_)
      (fun _ _ hp' => by cases hp') h.fault
    · rw [hvec]
      exact h.count u
    · rw [hvec]
      exact h.cap u
  | startCheckin size hp hcheck =>
    exact h.setPc (by simp [hp, Draining]) fun _ _ hp' => by cases hp'; rfl
  | noCheckin size hp hcheck =>
    exact h.setPc (by simp [hp, Draining]) fun _ _ hp' => by cases hp'
  | assertion visited total w hp hlt hw hv => exact { h with fault := .inr rfl }
  | visited visited total w hp hlt hw hv hempty => exact visited_roomy h hp hw
  | overrun visited total w n hp hlt hw hn hover =>
    exact absurd hover (Nat.not_lt.mpr (not_overrun h hp hlt hw hn))
  | collect visited total w n hp hlt hw hn => exact collect_roomy h hp hlt hw hn
  | endCheckin d hd =>
    cases hd with
    | endCheckin visited total hp hlen =>
      exact roomy_of_idle (h.idle (by rw [hp]; exact hlen)) h.count h.cap
        (fun _ _ hp' => by cases hp') h.fault
  | work w a t hw ht => exact h.setWorker (ownStep_held ht)
  | abort w hw hp hr short =>
    have hle := h.outstanding_le w
    simp only [outstanding, held] at hle
    omega
  | giveBack w hw hp hr room =>
    refine h.work ?_
    simp only [outstanding, held, List.length_append, List.length_nil]
    omega
  | defer w hw hp hr => exact h.setWorker (Nat.le_refl _)

end Room

theorem run_roomy {c : Config} {as : List Act} {s : State}
    (h : Machine.run (step c) as (init c) = some s)
    (hc : Machine.Along (step c) Capped as (init c)) :
    Roomy c s :=
  Machine.run_invariant (init_roomy c) (fun _ _ _ hs hc ht => move_roomy hs (step_move ht).2 hc) h
    hc

end TinyQuanta.ReturnRoom
