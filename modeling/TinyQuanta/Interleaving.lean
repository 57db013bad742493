import TinyQuanta.DispatcherHeap
import TinyQuanta.WorkerLoad

/-!
# The dispatcher and its workers

The two loops side by side. They share the dispatch rings, where the packets of
a group that the ring accepts appear at once, and `curr_sizes`, which a check-in
reads one worker at a time while all workers run on. `readAt` counts, for each
worker, the completions behind the last value that was read; no step looks at it.
-/
namespace TinyQuanta.Interleaving

open Params Packet
open WorkerLoad (numFinished numRejected)

structure Config where
  build : Dispatcher.Build
  server : Worker.Server

structure State where
  disp : Dispatcher.State
  workers : Nat → Worker.State
  readAt : Nat → Nat

inductive Act where
  | rxBurst (rxBufs : List Mbuf)
  | dispatch (nbReturn rand₁ rand₂ : Nat)
  | endBurst
  | visit
  | endCheckin
  | work (w : Nat) (a : Worker.Act)

/-- The server as the Makefile builds it. -/
def shipped : Config := ⟨Dispatcher.shipped, Worker.shipped⟩

/-- All loops are at their head; `sqs` is what the unset `sq` fields hold. -/
def init (c : Config) (sqs : Nat → Nat) : State where
  disp := Dispatcher.init c.build
  workers w := Worker.init c.server (sqs w)
  readAt _ := 0

/-- The packets that are offered next. -/
def group : Dispatcher.Pc → List Mbuf
  | .dispatch size rxBufs => rxBufs.take size
  | _ => []

/-- The packets of the group that the ring accepts. -/
def enqueued (s : State) (nbReturn : Nat) : List Mbuf := (group s.disp.pc).take nbReturn

/-- A worker step that is not the arrival of a packet. -/
def ownStep (c : Config) (s : Worker.State) : Worker.Act → Option Worker.State
  | .arrive _ => none
  | a => Worker.step c.server s a

def step (c : Config) (s : State) : Act → Option State
  | .rxBurst rxBufs =>
    (Dispatcher.step c.build s.disp (.rxBurst rxBufs)).map fun d => { s with disp := d }
  | .dispatch nbReturn rand₁ rand₂ =>
    (Dispatcher.step c.build s.disp (.dispatch nbReturn rand₁ rand₂)).bind fun d =>
      (Dispatcher.offered c.build rand₁ rand₂ s.disp).bind fun w =>
        (Machine.run (Worker.step c.server) ((enqueued s nbReturn).map .arrive) (s.workers w)).map
          fun t => { s with disp := d, workers := Function.update s.workers w t }
  | .endBurst => (Dispatcher.step c.build s.disp .endBurst).map fun d => { s with disp := d }
  | .visit =>
    s.disp.workerQueue.head?.bind fun w =>
      (Dispatcher.step c.build s.disp
        (.visit (s.workers w).currSize (s.workers w).currSq)).map fun d =>
          { s with disp := d, readAt := Function.update s.readAt w (numFinished (s.workers w)) }
  | .endCheckin => (Dispatcher.step c.build s.disp .endCheckin).map fun d => { s with disp := d }
  | .work w a =>
    if w < c.build.numWorkerThreads then
      (ownStep c (s.workers w) a).map fun t =>
        { s with workers := Function.update s.workers w t }
    else none

/-- Everything one step of the system can do. -/
inductive Move (c : Config) (s : State) : Act → State → Prop where
  | rxBurst (rxBufs : List Mbuf) (d : Dispatcher.State)
    (hd : Dispatcher.Move c.build s.disp (.rxBurst rxBufs) d) :
    Move c s (.rxBurst rxBufs) { s with disp := d }
  | dispatch (nbReturn rand₁ rand₂ w : Nat) (d : Dispatcher.State) (t : Worker.State)
    (hd : Dispatcher.Move c.build s.disp (.dispatch nbReturn rand₁ rand₂) d)
    (hw : Dispatcher.offered c.build rand₁ rand₂ s.disp = some w)
    (ht : Machine.run (Worker.step c.server) ((enqueued s nbReturn).map .arrive)
      (s.workers w) = some t) :
    Move c s (.dispatch nbReturn rand₁ rand₂)
      { s with disp := d, workers := Function.update s.workers w t }
  | endBurst (d : Dispatcher.State) (hd : Dispatcher.Move c.build s.disp .endBurst d) :
    Move c s .endBurst { s with disp := d }
  | visit (w : Nat) (d : Dispatcher.State) (hw : s.disp.workerQueue.head? = some w)
    (hd : Dispatcher.Move c.build s.disp (.visit (s.workers w).currSize (s.workers w).currSq) d) :
    Move c s .visit
      { s with disp := d, readAt := Function.update s.readAt w (numFinished (s.workers w)) }
  | endCheckin (d : Dispatcher.State) (hd : Dispatcher.Move c.build s.disp .endCheckin d) :
    Move c s .endCheckin { s with disp := d }
  | work (w : Nat) (a : Worker.Act) (t : Worker.State) (hw : w < c.build.numWorkerThreads)
    (ha : ∀ m, a ≠ .arrive m) (ht : Worker.Move c.server (s.workers w) a t) :
    Move c s (.work w a) { s with workers := Function.update s.workers w t }

theorem ownStep_eq_some {c : Config} {s t : Worker.State} {a : Worker.Act} :
    ownStep c s a = some t ↔ (∀ m, a ≠ .arrive m) ∧ Worker.step c.server s a = some t := by
  cases a <;> simp [ownStep]

theorem step_move {c : Config} {s t : State} {a : Act} (h : step c s a = some t) :
    Move c s a t := by
  cases a with
  | rxBurst rxBufs =>
    obtain ⟨d, hd, rfl⟩ := Option.map_eq_some_iff.mp h
    exact .rxBurst rxBufs d (Dispatcher.step_move hd)
  | dispatch nbReturn r₁ r₂ =>
    obtain ⟨d, hd, h⟩ := Option.bind_eq_some_iff.mp h
    obtain ⟨w, hw, h⟩ := Option.bind_eq_some_iff.mp h
    obtain ⟨u, hu, rfl⟩ := Option.map_eq_some_iff.mp h
    exact .dispatch nbReturn r₁ r₂ w d u (Dispatcher.step_move hd) hw hu
  | endBurst =>
    obtain ⟨d, hd, rfl⟩ := Option.map_eq_some_iff.mp h
    exact .endBurst d (Dispatcher.step_move hd)
  | visit =>
    obtain ⟨w, hw, h⟩ := Option.bind_eq_some_iff.mp h
    obtain ⟨d, hd, rfl⟩ := Option.map_eq_some_iff.mp h
    exact .visit w d hw (Dispatcher.step_move hd)
  | endCheckin =>
    obtain ⟨d, hd, rfl⟩ := Option.map_eq_some_iff.mp h
    exact .endCheckin d (Dispatcher.step_move hd)
  | work w a =>
    simp only [step, Option.ite_none_right_eq_some] at h
    obtain ⟨hw, h⟩ := h
    obtain ⟨u, hu, rfl⟩ := Option.map_eq_some_iff.mp h
    obtain ⟨ha, hu⟩ := ownStep_eq_some.mp hu
    exact .work w a u hw ha (Worker.step_move hu)

theorem move_step {c : Config} {s t : State} {a : Act} (h : Move c s a t) :
    step c s a = some t := by
  cases h with
  | rxBurst rxBufs d hd => simp [step, Dispatcher.move_step hd]
  | dispatch nbReturn r₁ r₂ w d u hd hw hu => simp [step, Dispatcher.move_step hd, hw, hu]
  | endBurst d hd => simp [step, Dispatcher.move_step hd]
  | visit w d hw hd => simp [step, hw, Dispatcher.move_step hd]
  | endCheckin d hd => simp [step, Dispatcher.move_step hd]
  | work w a u hw ha hu =>
    have ho := ownStep_eq_some.mpr ⟨ha, Worker.move_step hu⟩
    simp [step, hw, ho]

/-! ## What a step means for one worker -/

/-- Packets arriving one after the other. -/
theorem run_arrivals {sv : Worker.Server} {ms : List Mbuf} {s t : Worker.State}
    (h : Machine.run (Worker.step sv) (ms.map .arrive) s = some t) :
    t.arrived = s.arrived + ms.length ∧ numFinished t = numFinished s := by
  induction ms generalizing s with
  | nil =>
    cases h
    exact ⟨rfl, rfl⟩
  | cons m ms ih =>
    obtain ⟨u, hu, h⟩ := Option.bind_eq_some_iff.mp h
    obtain ⟨ha, hf⟩ := ih h
    cases Worker.step_move hu
    rw [ha, hf]
    refine ⟨?_, rfl⟩
    simp only [Worker.arrive, List.length_cons]
    omega

/-- The three ways in which a step concerns the load estimate of worker `w`. -/
inductive Change (c : Config) (s : State) (a : Act) (t : State) (w : Nat) : Prop where
  | same
    (hn : (t.disp.workerInfoVec w).numRunningJobs = (s.disp.workerInfoVec w).numRunningJobs)
    (ha : (t.workers w).arrived = (s.workers w).arrived) (hr : t.readAt w = s.readAt w)
  | enqueue (n : Nat)
    (hn : (t.disp.workerInfoVec w).numRunningJobs =
      c.build.int ((s.disp.workerInfoVec w).numRunningJobs + n))
    (ha : (t.workers w).arrived = (s.workers w).arrived + n) (hr : t.readAt w = s.readAt w)
  | read (hv : a = .visit) (hw : s.disp.workerQueue.head? = some w)
    (hn : (t.disp.workerInfoVec w).numRunningJobs = c.build.int
      ((s.disp.workerInfoVec w).numRunningJobs -
        ((numFinished (s.workers w) - s.readAt w) % 65536 : Nat)))
    (ha : (t.workers w).arrived = (s.workers w).arrived)
    (hr : t.readAt w = numFinished (s.workers w))

/-- Both sides keep their promises: workers are in states their own loop can reach, and what
the dispatcher remembers is a value that the counter had. -/
structure Track (c : Config) (s : State) : Prop where
  reach : ∀ w, Worker.Reachable c.server (s.workers w)
  prev : ∀ w, s.disp.prevSizes w = u64 (s.readAt w)
  read : ∀ w, s.readAt w ≤ numFinished (s.workers w)

theorem init_track (c : Config) (sqs : Nat → Nat) : Track c (init c sqs) where
  reach w := ⟨sqs w, [], rfl⟩
  prev w := by simp [init, Dispatcher.init, u64]
  read w := Nat.zero_le _

/-- A worker that is not concerned is left alone; what it did before can be continued. -/
theorem reach_update {c : Config} {s : State} (h : Track c s) (w : Nat) {t : Worker.State}
    {as : List Worker.Act} (ht : Machine.run (Worker.step c.server) as (s.workers w) = some t)
    (u : Nat) : Worker.Reachable c.server (Function.update s.workers w t u) := by
  by_cases hu : u = w
  · subst hu
    rw [Function.update_self]
    obtain ⟨sq, bs, hs⟩ := h.reach u
    exact ⟨sq, bs ++ as, Machine.run_join hs ht⟩
  · rw [Function.update_of_ne hu]
    exact h.reach u

theorem update_read {s : State} {w : Nat} {t : Worker.State}
    (h : ∀ u, s.readAt u ≤ numFinished (s.workers u))
    (ht : numFinished (s.workers w) ≤ numFinished t) (u : Nat) :
    s.readAt u ≤ numFinished (Function.update s.workers w t u) := by
  by_cases hu : u = w
  · subst hu
    rw [Function.update_self]
    exact (h u).trans ht
  · rw [Function.update_of_ne hu]
    exact h u

/-- The dispatcher changes what it remembers only when it visits. -/
theorem disp_prevSizes {b : Dispatcher.Build} {s t : Dispatcher.State} {a : Dispatcher.Act}
    (m : Dispatcher.Move b s a t) (ha : ∀ n q, a ≠ .visit n q) : t.prevSizes = s.prevSizes := by
  cases m with
  | dispatch size rxBufs nbReturn r₁ r₂ w hp hne hw hle =>
    exact Dispatcher.account_prevSizes _ _ _ _ _
  | visit visited total w n q hp hlt hw => exact absurd rfl (ha n q)
  | _ => rfl

theorem move_track {c : Config} {s t : State} {a : Act} (h : Track c s) (m : Move c s a t) :
    Track c t := by
  cases m with
  | rxBurst rxBufs d hd =>
    exact { h with prev := fun w => by rw [disp_prevSizes hd (by simp)]; exact h.prev w }
  | dispatch nbReturn r₁ r₂ w d u hd hw hu =>
    exact {
      reach := reach_update h w hu
      prev := fun v => by rw [disp_prevSizes hd (by simp)]; exact h.prev v
      read := update_read h.read (Nat.le_of_eq (run_arrivals hu).2.symm) }
  | endBurst d hd =>
    exact { h with prev := fun w => by rw [disp_prevSizes hd (by simp)]; exact h.prev w }
  | endCheckin d hd =>
    exact { h with prev := fun w => by rw [disp_prevSizes hd (by simp)]; exact h.prev w }
  | visit w d hw hd =>
    have hsize := (WorkerLoad.reachable_load (h.reach w)).size
    refine { h with prev := fun v => ?_, read := fun v => ?_ }
    · cases hd with
      | visit visited total w' _ _ hp hlt hw' =>
        cases hw.symm.trans hw'
        by_cases hv : v = w
        · subst hv
          simpa [Dispatcher.visitTop] using hsize
        · simpa [Dispatcher.visitTop, Dispatcher.requeue, Function.update_of_ne hv] using h.prev v
    · by_cases hv : v = w
      · subst hv
        simp
      · simpa [Function.update_of_ne hv] using h.read v
  | work w a u hw ha hu =>
    have hrun : Machine.run (Worker.step c.server) [a] (s.workers w) = some u := by
      simp [Worker.move_step hu]
    exact {
      reach := reach_update h w hrun
      prev := h.prev
      read := update_read h.read (WorkerLoad.numFinished_move hu) }

/-- The number of packets a worker has received only changes when it receives some. -/
theorem arrived_move {sv : Worker.Server} {s t : Worker.State} {a : Worker.Act}
    (m : Worker.Move sv s a t) (ha : ∀ m, a ≠ .arrive m) : t.arrived = s.arrived := by
  cases m with
  | arrive m room => exact absurd rfl (ha m)
  | _ => rfl

theorem move_change {c : Config} {s t : State} {a : Act} (h : Track c s) (m : Move c s a t)
    (v : Nat) : Change c s a t v := by
  cases m with
  | rxBurst rxBufs d hd => cases hd <;> exact .same rfl rfl rfl
  | endBurst d hd => cases hd <;> exact .same rfl rfl rfl
  | endCheckin d hd =>
    cases hd
    exact .same rfl rfl rfl
  | dispatch nbReturn r₁ r₂ w d u hd hw hu =>
    obtain ⟨harr, -⟩ := run_arrivals hu
    cases hd with
    | dispatch size rxBufs _ _ _ w' hp hne hw' hle =>
      cases hw.symm.trans hw'
      have hlen : (enqueued s nbReturn).length = nbReturn := by
        simp only [enqueued, group, hp, List.length_take] at hle ⊢
        omega
      by_cases hv : v = w
      · subst hv
        refine .enqueue nbReturn ?_ ?_ rfl
        · simp [Dispatcher.account_numRunningJobs]
        · simp [harr, hlen]
      · refine .same ?_ ?_ rfl
        · simp [Dispatcher.account_numRunningJobs, hv]
        · simp [Function.update_of_ne hv]
  | visit w d hw hd =>
    have hsize := (WorkerLoad.reachable_load (h.reach w)).size
    cases hd with
    | visit visited total w' _ _ hp hlt hw' =>
      cases hw.symm.trans hw'
      by_cases hv : v = w
      · subst hv
        refine .read rfl hw ?_ rfl (by simp)
        simp only [Dispatcher.visitTop_numRunningJobs, if_true, hsize, h.prev v,
          u16_sub64 (h.read v)]
      · exact .same (by simp [Dispatcher.visitTop_numRunningJobs, hv]) rfl
          (by simp [Function.update_of_ne hv])
  | work w a u hw ha hu =>
    refine .same rfl ?_ rfl
    by_cases hv : v = w
    · subst hv
      simpa using arrived_move hu ha
    · simp [Function.update_of_ne hv]

/-- A step of the whole is a dispatcher step or leaves the dispatcher alone. -/
theorem move_disp {c : Config} {s t : State} {a : Act} (m : Move c s a t) :
    t.disp = s.disp ∨ ∃ da, Dispatcher.Move c.build s.disp da t.disp ∧
      (da = .endBurst → a = .endBurst) ∧ ∀ rxBufs, da = .rxBurst rxBufs → a = .rxBurst rxBufs := by
  cases m with
  | rxBurst rxBufs d hd =>
    exact .inr ⟨_, hd, by simp, fun _ he => by rw [Dispatcher.Act.rxBurst.inj he]⟩
  | dispatch nbReturn r₁ r₂ w d u hd hw hu => exact .inr ⟨_, hd, by simp, by simp⟩
  | endBurst d hd => exact .inr ⟨_, hd, fun _ => rfl, by simp⟩
  | visit w d hw hd => exact .inr ⟨_, hd, by simp, by simp⟩
  | endCheckin d hd => exact .inr ⟨_, hd, by simp, by simp⟩
  | work w a u hw ha hu => exact .inl rfl

theorem run_track {c : Config} {sqs : Nat → Nat} {as : List Act} {s : State}
    (h : Machine.run (step c) as (init c sqs) = some s) : Track c s :=
  Machine.run_induction (P := fun _ s => Track c s) (init_track c sqs)
    (fun _ _ _ _ _ hs ht => move_track hs (step_move ht)) h

end TinyQuanta.Interleaving
