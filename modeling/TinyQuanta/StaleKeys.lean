import TinyQuanta.DispatcherHeap

/-!
# Loads that change inside the heap

The random policies add jobs to a worker that stays in `worker_queue`, so the
keys of the heap change under it and the order on load is lost. Here any worker
may get any load at any time between two steps of the loop. The order on
versions is all that a check-in needs, and no change of a load touches it.
-/
namespace TinyQuanta.StaleKeys

open Params Dispatcher DispatcherHeap BinaryHeap

/-- A step of the loop, or a change of `num_running_jobs` behind the back of the heap. -/
inductive Act where
  | loop (a : Dispatcher.Act)
  | setJobs (w : Nat) (jobs : Int)

def setJobs (w : Nat) (jobs : Int) (s : State) : State :=
  { s with
    workerInfoVec :=
      Function.update s.workerInfoVec w { s.workerInfoVec w with numRunningJobs := jobs } }

def step (b : Build) (s : State) : Act → Option State
  | .loop a => Dispatcher.step b s a
  | .setJobs w jobs => some (setJobs w jobs s)

@[simp] theorem setJobs_versionNumber (w : Nat) (jobs : Int) (s : State) (u : Nat) :
    ((setJobs w jobs s).workerInfoVec u).versionNumber = (s.workerInfoVec u).versionNumber := by
  by_cases hu : u = w
  · subst hu
    simp [setJobs]
  · simp [setJobs, hu]

/-- The heap compares versions first, so it stays in order on them. -/
theorem setJobs_inv {b : Build} {s : State} (hpol : b.policy ≠ .leastLoaded) (h : Inv b s)
    (w : Nat) (jobs : Int) : Inv b (setJobs w jobs s) where
  queue := h.queue
  versions := h.versions.congr fun x _ y _ hxy => by
    simpa only [versionAbove, setJobs_versionNumber] using hxy
  loads hl := absurd hl hpol
  current := h.current
  once := h.once
  workers := h.workers
  level u hu := by
    rw [setJobs_versionNumber]
    exact h.level u hu

theorem step_checkIns {b : Build} {s t : State} {a : Act} (h : step b s a = some t) :
    s.checkIns ≤ t.checkIns := by
  cases a with
  | loop a => exact move_checkIns (step_move h)
  | setJobs w jobs =>
    cases h
    exact Nat.le_refl _

theorem step_inv {b : Build} {s t : State} {a : Act} (hpol : b.policy ≠ .leastLoaded)
    (h : Inv b s) (hroom : (s.checkIns : Int) < intMax) (ht : step b s a = some t) : Inv b t := by
  cases a with
  | loop a => exact move_inv h (step_move ht) fun _ _ _ => hroom
  | setJobs w jobs =>
    cases ht
    exact setJobs_inv hpol h w jobs

/-- Whatever loads the workers are given, the invariant holds as long as versions have room. -/
theorem run_inv {b : Build} (hpol : b.policy ≠ .leastLoaded) {as : List Act} {s : State}
    (h : Machine.run (step b) as (init b) = some s) (hroom : (s.checkIns : Int) < intMax) :
    Inv b s := by
  have key := Machine.run_induction (P := fun _ s => (s.checkIns : Int) < intMax → Inv b s) ?_ ?_ h
  · exact key hroom
  · intro _
    exact init_inv b
  · intro _ s a t _ ih ht hroom
    have hle := step_checkIns ht
    have hs : (s.checkIns : Int) < intMax := by omega
    exact step_inv hpol (ih hs) hs ht

/-- A check-in with keys that went stale in the heap. It has popped no worker twice; while a
worker is left, the top is one that was not popped yet and has the current version, and its
visit collects its return count and nobody else's; at the end every worker has been popped. -/
theorem stale_checkin (b : Build) (hpol : b.policy ≠ .leastLoaded) (as : List Act) (s : State)
    (h : Machine.run (step b) as (init b) = some s) (hroom : (s.checkIns : Int) < intMax)
    (visited : List Nat) (total : Nat) (hp : s.pc = .checkin visited total) :
    visited.Nodup ∧
    (visited.length < b.numWorkerThreads → ∃ w, s.workerQueue.head? = some w ∧ w ∉ visited ∧
      (s.workerInfoVec w).versionNumber = s.curVersionNumber ∧
      ∀ currSize sq, ∃ t, step b s (.loop (.visit currSize sq)) = some t ∧
        t.pc = .checkin (visited ++ [w]) (u16 (total + u16 (sub64 currSize (s.prevSizes w)))) ∧
        t.prevSizes = Function.update s.prevSizes w currSize) ∧
    (visited.length < b.numWorkerThreads ∨ visited.Perm (List.range b.numWorkerThreads) ∧
      ∃ t, step b s (.loop .endCheckin) = some t) := by
  obtain ⟨hn, hvisit, hend⟩ := checkin_visits (run_inv hpol h hroom) hp
  exact ⟨hn, hvisit, hend.imp_right fun ⟨hperm, t, ht, _⟩ => ⟨hperm, t, ht⟩⟩

/-- Three workers, and the better of two random ones gets the next group. -/
def powerOfTwo : Build := { threeWorkers with policy := .powerTwo }

/-- A packet is dispatched, and the loads are scrambled before and during the check-in. -/
def scrambled : List Act :=
  [.loop (.rxBurst [⟨fun _ => 0, 60⟩]), .loop (.dispatch 1 2 0), .setJobs 0 7, .loop .endBurst,
    .loop (.visit 1 0), .setJobs 1 (-5)]

theorem stale_checkin_scrambled :
    ∃ s, Machine.run (step powerOfTwo) scrambled (init powerOfTwo) = some s ∧
      ∃ w, s.workerQueue.head? = some w ∧ w ∉ [0] ∧
        (s.workerInfoVec w).versionNumber = s.curVersionNumber := by
  refine ⟨_, rfl, ?_⟩
  have h := stale_checkin powerOfTwo (by decide) scrambled _ rfl (by decide) [0] 1 rfl
  obtain ⟨w, hw, hnew, hver, -⟩ := h.2.1 (by decide)
  exact ⟨w, hw, hnew, hver⟩

end TinyQuanta.StaleKeys
