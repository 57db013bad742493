import TinyQuanta.Dispatcher
import Mathlib.Data.List.Range
import Mathlib.Data.List.Perm.Subperm

/-!
# The order of the worker heap

Two orders are followed through every run. By version number alone the heap is
in order under all three policies, because the random ones only change the load
of a worker that stays in the heap. By version, load and serviced quanta it is
in order when every change is made to a worker outside the heap, as the shipped
policy does.
-/
namespace TinyQuanta.DispatcherHeap

open Params Dispatcher BinaryHeap

def versionAbove (x y : WorkerInfo) : Prop := x.versionNumber ≤ y.versionNumber

/-- The order of `operator<`, written out. -/
def loadAbove (msq : Bool) (x y : WorkerInfo) : Prop :=
  x.versionNumber < y.versionNumber ∨ x.versionNumber = y.versionNumber ∧
    (x.numRunningJobs < y.numRunningJobs ∨ x.numRunningJobs = y.numRunningJobs ∧
      (msq = true → y.servicedQuanta ≤ x.servicedQuanta))

theorem versionAbove_decides (msq : Bool) : Decides (lessThan msq) versionAbove where
  refl x := Int.le_refl _
  trans x y z := Int.le_trans
  of_lt x y h := by
    unfold lessThan at h
    unfold versionAbove
    split at h
    · exact Int.le_of_lt (of_decide_eq_true h)
    · omega
  of_not_lt x y h := by
    unfold lessThan at h
    unfold versionAbove
    split at h
    · exact Int.not_lt.mp (of_decide_eq_false h)
    · omega

theorem lessThan_iff (msq : Bool) (x y : WorkerInfo) :
    lessThan msq x y = true ↔ ¬ loadAbove msq x y := by
  unfold lessThan loadAbove
  cases msq with
  | false =>
    simp only [Bool.false_eq_true, false_and, if_false, false_implies, and_true]
    split <;> simp only [decide_eq_true_eq] <;> omega
  | true =>
    simp only [true_and, true_implies]
    split
    · simp only [decide_eq_true_eq]
      omega
    · split <;> simp only [decide_eq_true_eq] <;> omega

theorem loadAbove_decides (msq : Bool) : Decides (lessThan msq) (loadAbove msq) where
  refl x := .inr ⟨rfl, .inr ⟨rfl, fun _ => Int.le_refl _⟩⟩
  trans x y z hxy hyz := by
    unfold loadAbove at *
    cases msq with
    | false => simp only [Bool.false_eq_true, false_implies, and_true] at *; omega
    | true => simp only [true_implies] at *; omega
  of_lt x y h := by
    rw [lessThan_iff] at h
    unfold loadAbove at *
    cases msq with
    | false => simp only [Bool.false_eq_true, false_implies, and_true] at *; omega
    | true => simp only [true_implies] at *; omega
  of_not_lt x y h := by
    by_contra hn
    rw [(lessThan_iff msq x y).mpr hn] at h
    cases h

/-- The heap of worker numbers is in order by what their entries say now. -/
def HeapOrdered (above : WorkerInfo → WorkerInfo → Prop) (s : State) : Prop :=
  Ordered (fun x y => above (s.workerInfoVec x) (s.workerInfoVec y)) s.workerQueue

section Requeue

variable {b : Build} {s : State} {w : Nat}

theorem requeue_perm (hw : s.workerQueue.head? = some w) (info : WorkerInfo) :
    (requeue b w info s).workerQueue.Perm s.workerQueue := by
  obtain ⟨l, hl⟩ : ∃ l, s.workerQueue = w :: l := List.head?_eq_some_iff.mp hw
  simp only [requeue, hl]
  exact (push_perm _ _ _).trans ((pop_perm _ _ _).cons w)

/-- A worker that was changed while it was outside is put back in its place. -/
theorem requeue_ordered {above : WorkerInfo → WorkerInfo → Prop}
    (d : Decides (lessThan b.msq) above)
    (hn : s.workerQueue.Nodup) (hw : s.workerQueue.head? = some w) (info : WorkerInfo)
    (h : HeapOrdered above s) : HeapOrdered above (requeue b w info s) := by
  obtain ⟨l, hl⟩ : ∃ l, s.workerQueue = w :: l := List.head?_eq_some_iff.mp hw
  have hpop := pop_ordered (d.comap s.workerInfoVec) h
  have hmem : ∀ x ∈ pop (workerInfoPtrCmp b s.workerInfoVec) s.workerQueue, x ≠ w := by
    intro x hx
    rw [hl] at hx hn
    have hx' := (pop_perm _ w l).mem_iff.mp hx
    rintro rfl
    exact (List.nodup_cons.mp hn).1 hx'
  refine push_ordered (d.comap (Function.update s.workerInfoVec w info)) (hpop.congr ?_) w
  intro x hx y hy hxy
  simpa only [Function.update_of_ne (hmem x hx), Function.update_of_ne (hmem y hy)] using hxy

/-- The entry at the top is above all others. -/
theorem top_is_above {above : WorkerInfo → WorkerInfo → Prop} (d : Decides (lessThan b.msq) above)
    (h : HeapOrdered above s) (hw : s.workerQueue.head? = some w) {u : Nat}
    (hu : u ∈ s.workerQueue) : above (s.workerInfoVec w) (s.workerInfoVec u) :=
  top_above (d.comap s.workerInfoVec) h hw u hu

end Requeue

/-- The workers popped so far by the check-in that is going on. -/
def visitedAt : Pc → List Nat
  | .checkin visited _ => visited
  | _ => []

/-- What every step keeps, as long as version numbers have room to grow. -/
structure Inv (b : Build) (s : State) : Prop where
  queue : s.workerQueue.Perm (List.range b.numWorkerThreads)
  versions : HeapOrdered versionAbove s
  loads : b.policy = .leastLoaded → HeapOrdered (loadAbove b.msq) s
  current : s.curVersionNumber = s.checkIns
  once : (visitedAt s.pc).Nodup
  workers : ∀ w ∈ visitedAt s.pc, w < b.numWorkerThreads
  level : ∀ w < b.numWorkerThreads, (s.workerInfoVec w).versionNumber =
    if w ∈ visitedAt s.pc then s.curVersionNumber + 1 else s.curVersionNumber

theorem init_inv (b : Build) : Inv b (init b) where
  queue := foldl_push_perm _ _ []
  versions := foldl_push_ordered ((versionAbove_decides b.msq).comap fun _ => ⟨0, 0, 0⟩) _ []
    ordered_nil
  loads _ := foldl_push_ordered ((loadAbove_decides b.msq).comap fun _ => ⟨0, 0, 0⟩) _ []
    ordered_nil
  current := rfl
  once := by simp [init, visitedAt]
  workers := by simp [init, visitedAt]
  level := by simp [init, visitedAt]

section Steps

variable {b : Build} {s : State}

theorem Inv.nodup (h : Inv b s) : s.workerQueue.Nodup := h.queue.nodup_iff.mpr List.nodup_range

theorem Inv.mem_queue (h : Inv b s) {w : Nat} : w ∈ s.workerQueue ↔ w < b.numWorkerThreads := by
  rw [h.queue.mem_iff, List.mem_range]

theorem Inv.exists_top (h : Inv b s) : ∃ w, s.workerQueue.head? = some w := by
  have hm := h.mem_queue.mpr b.threads_pos
  cases hq : s.workerQueue with
  | nil => simp [hq] at hm
  | cons w l => exact ⟨w, rfl⟩

/-- Under the shipped policy the worker that is offered a group is the top of the heap. -/
theorem offered_lt (h : Inv b s) {r₁ r₂ w : Nat} (hw : offered b r₁ r₂ s = some w) :
    w < b.numWorkerThreads := by
  unfold offered at hw
  split at hw
  · exact h.mem_queue.mp (List.mem_of_mem_head? hw)
  · cases hw
    exact Nat.mod_lt _ b.threads_pos
  · cases hw
    split <;> exact Nat.mod_lt _ b.threads_pos

@[simp] theorem addJobs_version (w nbReturn u : Nat) :
    ((addJobs b w nbReturn s).workerInfoVec u).versionNumber =
      (s.workerInfoVec u).versionNumber := by
  unfold addJobs requeue
  by_cases hu : u = w
  · subst hu
    split <;> simp
  · split <;> simp [Function.update_of_ne hu]

/-- Adding jobs keeps both orders: it happens outside the heap, or touches no version. -/
theorem addJobs_heap (h : Inv b s) {r₁ r₂ w : Nat} (hw : offered b r₁ r₂ s = some w)
    (nbReturn : Nat) :
    (addJobs b w nbReturn s).workerQueue.Perm (List.range b.numWorkerThreads) ∧
    HeapOrdered versionAbove (addJobs b w nbReturn s) ∧
    (b.policy = .leastLoaded → HeapOrdered (loadAbove b.msq) (addJobs b w nbReturn s)) := by
  by_cases hpol : b.policy = .leastLoaded
  · have htop : s.workerQueue.head? = some w := by simpa [offered, hpol] using hw
    simp only [addJobs, hpol]
    exact ⟨(requeue_perm htop _).trans h.queue,
      requeue_ordered (versionAbove_decides _) h.nodup htop _ h.versions,
      fun _ => requeue_ordered (loadAbove_decides _) h.nodup htop _ (h.loads hpol)⟩
  · have hq : (addJobs b w nbReturn s).workerQueue = s.workerQueue := by
      unfold addJobs
      split
      · exact absurd ‹_› hpol
      · rfl
    refine ⟨hq ▸ h.queue, ?_, fun hl => absurd hl hpol⟩
    unfold HeapOrdered
    rw [hq]
    exact h.versions.congr fun x _ y _ hxy => by
      simpa only [versionAbove, addJobs_version] using hxy

/-- `account` adds the jobs and otherwise touches counters only. -/
theorem account_eq (w dispatchSize nbReturn : Nat) :
    ∃ total drops idx, account b w dispatchSize nbReturn s =
      { addJobs b w nbReturn s with
        totalRunningJobs := total, packetDropCount := drops, returnQueueCheckinIdx := idx } := by
  unfold account
  split
  · exact ⟨_, _, _, rfl⟩
  · exact ⟨_, _, _, rfl⟩

theorem addJobs_frame (w nbReturn : Nat) :
    (addJobs b w nbReturn s).curVersionNumber = s.curVersionNumber ∧
      (addJobs b w nbReturn s).checkIns = s.checkIns := by
  unfold addJobs requeue
  split <;> exact ⟨rfl, rfl⟩

theorem dispatch_inv (h : Inv b s) {size : Nat} {rxBufs : List Packet.Mbuf} {r₁ r₂ w : Nat}
    (hp : s.pc = .dispatch size rxBufs) (hw : offered b r₁ r₂ s = some w) (n nbReturn : Nat)
    (rest : List Packet.Mbuf) :
    Inv b { account b w n nbReturn s with pc := .dispatch size rest } := by
  obtain ⟨total, drops, idx, he⟩ := @account_eq b s w n nbReturn
  obtain ⟨hq, hv, hl⟩ := addJobs_heap h hw nbReturn
  obtain ⟨hcur, hcount⟩ := @addJobs_frame b s w nbReturn
  have hlevel := h.level
  rw [hp] at hlevel
  rw [he]
  exact {
    queue := hq
    versions := hv
    loads := hl
    current := by simpa only [hcur, hcount] using h.current
    once := List.nodup_nil
    workers := by simp [visitedAt]
    level := fun u hu => by simpa [visitedAt, hcur] using hlevel u hu }

/-- While a worker is still to be visited, the top of the heap is one of those. -/
theorem top_not_visited (h : Inv b s) {w : Nat} (hw : s.workerQueue.head? = some w)
    (hlt : (visitedAt s.pc).length < b.numWorkerThreads) :
    w ∉ visitedAt s.pc ∧ (s.workerInfoVec w).versionNumber = s.curVersionNumber := by
  have hwn := h.mem_queue.mp (List.mem_of_mem_head? hw)
  obtain ⟨u, hu, hun⟩ : ∃ u ∈ List.range b.numWorkerThreads, u ∉ visitedAt s.pc := by
    by_contra hall
    have hsub : List.range b.numWorkerThreads ⊆ visitedAt s.pc := by
      intro u hu
      by_contra hun
      exact hall ⟨u, hu, hun⟩
    have hle := (List.subperm_of_subset List.nodup_range hsub).length_le
    rw [List.length_range] at hle
    omega
  have hle := top_is_above (versionAbove_decides b.msq) h.versions hw (h.queue.mem_iff.mpr hu)
  have hvw := h.level w hwn
  have hvu := h.level u (List.mem_range.mp hu)
  rw [if_neg hun] at hvu
  unfold versionAbove at hle
  by_cases hmem : w ∈ visitedAt s.pc
  · rw [if_pos hmem] at hvw
    omega
  · rw [if_neg hmem] at hvw
    exact ⟨hmem, hvw⟩

/-- The loop moves on without touching a worker. -/
theorem Inv.setPc (h : Inv b s) {pc : Pc} (hv : visitedAt pc = visitedAt s.pc) :
    Inv b { s with pc := pc } :=
  { h with
    once := by simpa only [hv] using h.once
    workers := by simpa only [hv] using h.workers
    level := by simpa only [hv] using h.level }

/-- A visit raises the version of the worker it popped, whatever else it writes into the entry. -/
theorem requeue_visit_inv (h : Inv b s) {visited : List Nat} {total w : Nat}
    (hp : s.pc = .checkin visited total) (hlt : visited.length < b.numWorkerThreads)
    (hw : s.workerQueue.head? = some w) (hroom : (s.checkIns : Int) < intMax) {info : WorkerInfo}
    (hinfo : info.versionNumber = b.int ((s.workerInfoVec w).versionNumber + 1)) (total' : Nat) :
    Inv b { requeue b w info s with pc := .checkin (visited ++ [w]) total' } := by
  have hvis : visitedAt s.pc = visited := by rw [hp]; rfl
  obtain ⟨hnew, hver⟩ := top_not_visited h hw (by rw [hvis]; exact hlt)
  have hwn := h.mem_queue.mp (List.mem_of_mem_head? hw)
  have hcur := h.current
  have hnext : info.versionNumber = s.curVersionNumber + 1 := by
    rw [hinfo, hver]
    apply b.int_eq
    simp only [InInt, intMin, intMax] at hroom ⊢
    omega
  have honce := h.once
  have hworkers := h.workers
  have hlevel := h.level
  rw [hvis] at hnew honce hworkers hlevel
  exact {
    queue := (requeue_perm hw _).trans h.queue
    versions := requeue_ordered (versionAbove_decides _) h.nodup hw _ h.versions
    loads := fun hl => requeue_ordered (loadAbove_decides _) h.nodup hw _ (h.loads hl)
    current := hcur
    once := by simpa [visitedAt, List.nodup_append] using ⟨honce, fun a ha he => hnew (he ▸ ha)⟩
    workers := by
      intro u hu
      rcases List.mem_append.mp hu with hu | hu
      · exact hworkers u hu
      · exact (List.mem_singleton.mp hu) ▸ hwn
    level := by
      intro u hu
      by_cases he : u = w
      · simp [requeue, visitedAt, he, hnext]
      · simpa [requeue, visitedAt, he] using hlevel u hu }

theorem visit_inv (h : Inv b s) {visited : List Nat} {total w : Nat}
    (hp : s.pc = .checkin visited total) (hlt : visited.length < b.numWorkerThreads)
    (hw : s.workerQueue.head? = some w) (hroom : (s.checkIns : Int) < intMax) (currSize sq : Nat) :
    Inv b (visitTop b visited total w currSize sq s) :=
  -- `prev_sizes` is no part of the invariant
  { requeue_visit_inv h hp hlt hw hroom rfl _ with }

/-- A check-in whose loop is over has visited everyone. -/
theorem all_visited (h : Inv b s) (hlen : ¬ (visitedAt s.pc).length < b.numWorkerThreads) :
    (visitedAt s.pc).Perm (List.range b.numWorkerThreads) := by
  have hsub : visitedAt s.pc ⊆ List.range b.numWorkerThreads := fun w hw =>
    List.mem_range.mpr (h.workers w hw)
  have hperm := List.subperm_of_subset h.once hsub
  exact hperm.perm_of_length_le (by rw [List.length_range]; omega)

theorem endCheckin_inv (h : Inv b s) (hroom : (s.checkIns : Int) < intMax) {t : State}
    (hm : Move b s .endCheckin t) : Inv b t := by
  cases hm with
  | endCheckin visited total hp hlen =>
    have hvis : visitedAt s.pc = visited := by rw [hp]; rfl
    have hall := all_visited h (by rw [hvis]; exact hlen)
    have hcur := h.current
    have hnext : b.int (s.curVersionNumber + 1) = s.curVersionNumber + 1 := by
      apply b.int_eq
      simp only [InInt, intMin, intMax] at hroom ⊢
      omega
    exact {
      queue := h.queue
      versions := h.versions
      loads := h.loads
      current := by simp only [hnext]; omega
      once := List.nodup_nil
      workers := by simp [visitedAt]
      level := by
        intro w hw
        have hl := h.level w hw
        rw [if_pos (hall.mem_iff.mpr (List.mem_range.mpr hw))] at hl
        simpa [visitedAt, hnext] using hl }

theorem account_checkIns (w dispatchSize nbReturn : Nat) :
    (account b w dispatchSize nbReturn s).checkIns = s.checkIns := by
  obtain ⟨total, drops, idx, he⟩ := @account_eq b s w dispatchSize nbReturn
  rw [he]
  exact (@addJobs_frame b s w nbReturn).2

theorem move_checkIns {t : State} {a : Act} (m : Move b s a t) : s.checkIns ≤ t.checkIns := by
  cases m with
  | dispatch size rxBufs nbReturn r₁ r₂ w hp hne hw hle =>
    exact Nat.le_of_eq (account_checkIns w _ nbReturn).symm
  | endCheckin visited total hp hlt => exact Nat.le_succ _
  | _ => exact Nat.le_refl _

/-- One step keeps the invariant if no check-in is going on that would overflow the versions. -/
theorem move_inv {t : State} {a : Act} (h : Inv b s) (m : Move b s a t)
    (hroom : ∀ visited total, s.pc = .checkin visited total → (s.checkIns : Int) < intMax) :
    Inv b t := by
  cases m with
  | nothing hp => exact h
  | receive rxBufs hp hne hle => exact h.setPc (by rw [hp]; rfl)
  | dispatch size rxBufs nbReturn r₁ r₂ w hp hne hw hle => exact dispatch_inv h hp hw _ _ _
  | startCheckin size hp hc => exact h.setPc (by rw [hp]; rfl)
  | noCheckin size hp hc => exact h.setPc (by rw [hp]; rfl)
  | visit visited total w currSize sq hp hlt hw =>
    exact visit_inv h hp hlt hw (hroom _ _ hp) currSize sq
  | endCheckin visited total hp hlt =>
    exact endCheckin_inv h (hroom _ _ hp) (.endCheckin visited total hp hlt)

/-- The loop of a check-in. No worker is popped twice; while one is left, the top is one that was
not popped yet, has the current version and is popped next, with its count and no other; at the end
every worker has been popped and the loop is left. -/
theorem checkin_visits (h : Inv b s) {visited : List Nat} {total : Nat}
    (hp : s.pc = .checkin visited total) :
    visited.Nodup ∧
    (visited.length < b.numWorkerThreads → ∃ w, s.workerQueue.head? = some w ∧ w ∉ visited ∧
      (s.workerInfoVec w).versionNumber = s.curVersionNumber ∧
      ∀ currSize sq, ∃ t, step b s (.visit currSize sq) = some t ∧
        t.pc = .checkin (visited ++ [w]) (u16 (total + u16 (sub64 currSize (s.prevSizes w)))) ∧
        t.prevSizes = Function.update s.prevSizes w currSize) ∧
    (visited.length < b.numWorkerThreads ∨ visited.Perm (List.range b.numWorkerThreads) ∧
      ∃ t, step b s .endCheckin = some t ∧ t.pc = .recv) := by
  have hn : visited.Nodup := by
    have ho := h.once
    rwa [hp] at ho
  refine ⟨hn, fun hlt => ?_, ?_⟩
  · obtain ⟨w, hw⟩ := h.exists_top
    have htop := top_not_visited h hw (by rw [hp]; exact hlt)
    rw [hp] at htop
    refine ⟨w, hw, htop.1, htop.2, fun currSize sq => ?_⟩
    exact ⟨_, move_step (.visit visited total w currSize sq hp hlt hw), rfl, rfl⟩
  · by_cases hlt : visited.length < b.numWorkerThreads
    · exact .inl hlt
    · have hperm := all_visited h (by rw [hp]; exact hlt)
      rw [hp] at hperm
      exact .inr ⟨hperm, _, move_step (.endCheckin visited total hp hlt), rfl⟩

/-- Outside check-ins all versions are equal. -/
theorem same_version (h : Inv b s) (hv : visitedAt s.pc = []) {w : Nat}
    (hw : w < b.numWorkerThreads) : (s.workerInfoVec w).versionNumber = s.curVersionNumber := by
  have hl := h.level w hw
  rwa [hv, if_neg List.not_mem_nil] at hl

/-- So the top of the heap is decided by load, and then by serviced quanta. -/
theorem top_least_loaded (h : Inv b s) (hpol : b.policy = .leastLoaded)
    (hv : visitedAt s.pc = []) {w : Nat} (hw : s.workerQueue.head? = some w) {u : Nat}
    (hu : u < b.numWorkerThreads) :
    (s.workerInfoVec w).numRunningJobs ≤ (s.workerInfoVec u).numRunningJobs ∧
    (b.msq = true → (s.workerInfoVec u).numRunningJobs = (s.workerInfoVec w).numRunningJobs →
      (s.workerInfoVec u).servicedQuanta ≤ (s.workerInfoVec w).servicedQuanta) := by
  have ha := top_is_above (loadAbove_decides b.msq) (h.loads hpol) hw (h.mem_queue.mpr hu)
  have hvw := same_version h hv (h.mem_queue.mp (List.mem_of_mem_head? hw))
  have hvu := same_version h hv hu
  unfold loadAbove at ha
  rcases ha with ha | ⟨-, ha | ⟨ha, hq⟩⟩
  · omega
  · exact ⟨by omega, fun _ he => by omega⟩
  · exact ⟨by omega, fun hm _ => hq hm⟩

end Steps

/-- The invariant, with room for the check-in that is going on. -/
structure Safe (b : Build) (s : State) : Prop where
  inv : Inv b s
  room : ∀ visited total, s.pc = .checkin visited total → (s.checkIns : Int) < intMax
  count : (s.checkIns : Int) ≤ intMax

theorem init_safe (b : Build) : Safe b (init b) where
  inv := init_inv b
  room _ _ hp := nomatch hp
  count := show (0 : Int) ≤ intMax by decide

/-- It is enough to look at the count of check-ins when one starts. -/
theorem move_safe {b : Build} {s t : State} {a : Act} (h : Safe b s) (m : Move b s a t)
    (ha : a = .endBurst → returnRingCheckinPeriod ≤ s.returnQueueCheckinIdx →
      (s.checkIns : Int) < intMax) : Safe b t := by
  refine ⟨move_inv h.inv m h.room, fun visited total hp => ?_, ?_⟩
  · cases m with
    | nothing hp' => exact h.room visited total hp
    | startCheckin size hp' hc => exact ha rfl hc
    | visit v tot w currSize sq hp' hlt hw => exact h.room v tot hp'
    | _ => cases hp
  · cases m with
    | dispatch size rxBufs nbReturn r₁ r₂ w hp hne hw hle =>
      rw [account_checkIns]
      exact h.count
    | endCheckin visited total hp hlt =>
      have hroom := h.room _ _ hp
      simp only
      omega
    | _ => exact h.count

/-- The invariant holds in every run that has completed fewer than `2^31 - 1` check-ins. -/
theorem run_inv {b : Build} {as : List Act} {s : State}
    (h : Machine.run (step b) as (init b) = some s) (hroom : (s.checkIns : Int) < intMax) :
    Inv b s := by
  have key := Machine.run_induction (P := fun _ s => (s.checkIns : Int) < intMax → Inv b s) ?_ ?_ h
  · exact key hroom
  · intro _
    exact init_inv b
  · intro _ s a t _ ih ht hroom
    have hm := step_move ht
    have hle := move_checkIns hm
    have hs : (s.checkIns : Int) < intMax := by omega
    exact move_inv (ih hs) hm fun _ _ _ => hs

/-- The shipped build: least-loaded worker first, ties broken by serviced quanta. Before any
check-in that would overflow the version numbers, a burst and a check-in start with every worker
in the heap once and all versions equal; a group is offered to a worker with the fewest running
jobs, and the most serviced quanta among those, and what its ring takes is added to its jobs; a
check-in pops a worker of the current version that it has not popped before as long as there is
one, and ends having popped each worker once. -/
theorem dispatcher_heap (b : Build) (hmsq : b.msq = true) (hpol : b.policy = .leastLoaded)
    (as : List Act) (s : State) (h : Machine.run (step b) as (init b) = some s)
    (hroom : (s.checkIns : Int) < intMax) :
    (visitedAt s.pc = [] → s.workerQueue.Perm (List.range b.numWorkerThreads) ∧
      ∀ w < b.numWorkerThreads, (s.workerInfoVec w).versionNumber = s.curVersionNumber) ∧
    (∀ size rxBufs, s.pc = .dispatch size rxBufs → ∀ r₁ r₂, ∃ w, offered b r₁ r₂ s = some w ∧
      (∀ u < b.numWorkerThreads,
        (s.workerInfoVec w).numRunningJobs ≤ (s.workerInfoVec u).numRunningJobs ∧
        ((s.workerInfoVec u).numRunningJobs = (s.workerInfoVec w).numRunningJobs →
          (s.workerInfoVec u).servicedQuanta ≤ (s.workerInfoVec w).servicedQuanta)) ∧
      (rxBufs ≠ [] → ∀ nbReturn ≤ (rxBufs.take size).length,
        ∃ t, step b s (.dispatch nbReturn r₁ r₂) = some t ∧
          t.pc = .dispatch size (rxBufs.drop size) ∧
          ∀ u, (t.workerInfoVec u).numRunningJobs =
            if u = w then b.int ((s.workerInfoVec w).numRunningJobs + nbReturn)
            else (s.workerInfoVec u).numRunningJobs)) ∧
    (∀ visited total, s.pc = .checkin visited total →
      visited.Nodup ∧
      (visited.length < b.numWorkerThreads → ∃ w, s.workerQueue.head? = some w ∧ w ∉ visited ∧
        (s.workerInfoVec w).versionNumber = s.curVersionNumber ∧
        ∀ currSize sq, ∃ t, step b s (.visit currSize sq) = some t ∧
          t.pc = .checkin (visited ++ [w]) (u16 (total + u16 (sub64 currSize (s.prevSizes w)))) ∧
          t.prevSizes = Function.update s.prevSizes w currSize) ∧
      (visited.length < b.numWorkerThreads ∨ visited.Perm (List.range b.numWorkerThreads) ∧
        ∃ t, step b s .endCheckin = some t ∧ t.pc = .recv)) := by
  have hi := run_inv h hroom
  refine ⟨fun hv => ⟨hi.queue, fun w hw => same_version hi hv hw⟩, fun size rxBufs hp r₁ r₂ => ?_,
    fun visited total hp => checkin_visits hi hp⟩
  obtain ⟨w, hw⟩ := hi.exists_top
  have hoff : offered b r₁ r₂ s = some w := by simp [offered, hpol, hw]
  refine ⟨w, hoff, fun u hu => ?_, fun hne nbReturn hle => ?_⟩
  · have hl := top_least_loaded hi hpol (by rw [hp]; rfl) hw hu
    exact ⟨hl.1, hl.2 hmsq⟩
  · exact ⟨_, move_step (.dispatch size rxBufs nbReturn r₁ r₂ w hp hne hoff hle), rfl,
      account_numRunningJobs b w _ nbReturn s⟩

/-- Three workers. -/
def threeWorkers : Build where
  numWorkerThreads := 3
  threads_pos := by decide
  msq := true
  policy := .leastLoaded
  int := int32
  int_eq _ := int32_eq
  int_add := int32_add

/-- Four packets, one of which finds no room, and two of the visits of the check-in. -/
def partlyDropped : List Act :=
  [.rxBurst (List.replicate 4 ⟨fun _ => 0, 60⟩), .dispatch 2 0 0, .dispatch 1 0 0, .endBurst,
    .visit 0 5, .visit 1 2]

/-- The last visit, and the next packet. Worker 0 has a job left. -/
def afterCheckin : List Act := [.visit 1 7, .endCheckin, .rxBurst [⟨fun _ => 0, 60⟩]]

theorem dispatcher_heap_partly_dropped :
    ∃ s t, Machine.run (step threeWorkers) partlyDropped (init threeWorkers) = some s ∧
      s.packetDropCount = 1 ∧
      (∃ w, s.workerQueue.head? = some w ∧ w ∉ [2, 1] ∧
        (s.workerInfoVec w).versionNumber = s.curVersionNumber) ∧
      Machine.run (step threeWorkers) (partlyDropped ++ afterCheckin) (init threeWorkers) = some t ∧
      t.checkIns = 1 ∧ (t.workerInfoVec 0).numRunningJobs = 1 ∧
      t.workerQueue.Perm (List.range 3) ∧
      ∃ w, offered threeWorkers 0 0 t = some w ∧ ∀ u < 3,
        (t.workerInfoVec w).numRunningJobs ≤ (t.workerInfoVec u).numRunningJobs ∧
        ((t.workerInfoVec u).numRunningJobs = (t.workerInfoVec w).numRunningJobs →
          (t.workerInfoVec u).servicedQuanta ≤ (t.workerInfoVec w).servicedQuanta) := by
  refine ⟨_, _, rfl, by decide, ?_, rfl, by decide, by decide, ?_⟩
  · have h := dispatcher_heap threeWorkers rfl rfl partlyDropped _ rfl (by decide)
    obtain ⟨w, hw, hnew, hver, -⟩ := (h.2.2 [2, 1] 1 rfl).2.1 (by decide)
    exact ⟨w, hw, hnew, hver⟩
  · have h := dispatcher_heap threeWorkers rfl rfl (partlyDropped ++ afterCheckin) _ rfl (by decide)
    obtain ⟨w, hw, hleast, -⟩ := h.2.1 1 [⟨fun _ => 0, 60⟩] rfl 0 0
    exact ⟨(h.1 rfl).1, w, hw, hleast⟩

end TinyQuanta.DispatcherHeap
