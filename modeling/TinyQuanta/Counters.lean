import TinyQuanta.LoadEstimate
import Mathlib.Algebra.BigOperators.Group.Finset.Basic
import Mathlib.Algebra.Order.BigOperators.Group.Finset

/-!
# The signed counters of the dispatcher

While version numbers and the total have room, the server with 32-bit counters
does exactly what it would do with unbounded ones. The total bounds every
worker's estimate, so it is the only load that has to be watched; the version
number has room for `2^31 - 1` check-ins, and the one after that goes wrong.
-/
namespace TinyQuanta.Counters

open Params Packet Interleaving LoadEstimate
open DispatcherHeap (visitedAt Safe)

def Config.exact (c : Config) : Config := ⟨c.build.exact, c.server⟩

/-- A burst is received only if the total has room for it, and a check-in starts only while fewer
than `2^31 - 1` have completed. -/
def Room (s : State) : Act → Prop
  | .rxBurst rxBufs => s.disp.totalRunningJobs + rxBufs.length ≤ intMax
  | .endBurst => returnRingCheckinPeriod ≤ s.disp.returnQueueCheckinIdx →
      (s.disp.checkIns : Int) < intMax
  | _ => True

instance (s : State) : (a : Act) → Decidable (Room s a)
  | .rxBurst rxBufs =>
    inferInstanceAs (Decidable (s.disp.totalRunningJobs + rxBufs.length ≤ intMax))
  | .endBurst => inferInstanceAs (Decidable (_ → _))
  | .dispatch .. | .visit | .endCheckin | .work .. => inferInstanceAs (Decidable True)

/-- The returns that a check-in has collected but not yet taken off the total. -/
def collected : Dispatcher.Pc → Nat
  | .checkin _ totalReturnSize => totalReturnSize
  | _ => 0

/-- The packets of the burst that are still to be dispatched. -/
def waiting : Dispatcher.Pc → Nat
  | .dispatch _ rxBufs => rxBufs.length
  | _ => 0

def sumJobs (n : Nat) (vec : Nat → Dispatcher.WorkerInfo) : Int :=
  ∑ w ∈ Finset.range n, (vec w).numRunningJobs

/-- Changing one worker changes the sum by as much. -/
theorem sumJobs_change {n w : Nat} (hw : w < n) {vec vec' : Nat → Dispatcher.WorkerInfo} {x : Int}
    (h : ∀ u, (vec' u).numRunningJobs = if u = w then x else (vec u).numRunningJobs) :
    sumJobs n vec' = sumJobs n vec + (x - (vec w).numRunningJobs) := by
  have hmem : w ∈ Finset.range n := Finset.mem_range.mpr hw
  unfold sumJobs
  rw [← Finset.add_sum_erase _ _ hmem,
    ← Finset.add_sum_erase _ (fun u => (vec u).numRunningJobs) hmem]
  have hrest : ∑ u ∈ (Finset.range n).erase w, (vec' u).numRunningJobs =
      ∑ u ∈ (Finset.range n).erase w, (vec u).numRunningJobs := by
    apply Finset.sum_congr rfl
    intro u hu
    rw [h u, if_neg (Finset.ne_of_mem_erase hu)]
  rw [hrest, h w, if_pos rfl]
  omega

/-- What keeps all counters representable. -/
structure Bounded (c : Config) (s : State) : Prop where
  track : Track c s
  safe : Safe c.build s.disp
  covers : ∀ w, Covers s w
  budget : sumJobs c.build.numWorkerThreads s.disp.workerInfoVec + collected s.disp.pc ≤
    s.disp.totalRunningJobs
  upper : s.disp.totalRunningJobs + waiting s.disp.pc ≤ intMax
  drops : 0 ≤ s.disp.packetDropCount ∧ s.disp.packetDropCount < 100000

theorem init_bounded (c : Config) (sqs : Nat → Nat) : Bounded c (init c sqs) where
  track := init_track c sqs
  safe := DispatcherHeap.init_safe c.build
  covers := init_covers c sqs
  budget := by simp [init, Dispatcher.init, sumJobs, collected]
  upper := show (0 : Int) + 0 ≤ intMax by decide
  drops := show (0 : Int) ≤ 0 ∧ (0 : Int) < 100000 by decide

section Steps

variable {c : Config} {s t : State}

theorem Bounded.jobs_nonneg (h : Bounded c s) (w : Nat) :
    0 ≤ (s.disp.workerInfoVec w).numRunningJobs := by
  have hle := outstanding_le h.track (h.covers w)
  omega

theorem Bounded.jobs_le_total (h : Bounded c s) {w : Nat} (hw : w < c.build.numWorkerThreads) :
    (s.disp.workerInfoVec w).numRunningJobs + collected s.disp.pc ≤ s.disp.totalRunningJobs := by
  have hle : (s.disp.workerInfoVec w).numRunningJobs ≤
      sumJobs c.build.numWorkerThreads s.disp.workerInfoVec :=
    Finset.single_le_sum (f := fun u => (s.disp.workerInfoVec u).numRunningJobs)
      (fun u _ => h.jobs_nonneg u) (Finset.mem_range.mpr hw)
  have hb := h.budget
  omega

theorem inInt_of_bounds {x : Int} (h₀ : 0 ≤ x) (h₁ : x ≤ 2147483647) : InInt x := by
  simp only [InInt, intMin, intMax]
  omega

/-- Nothing that a step stores is out of range. -/
theorem move_exact {a : Act} (h : Bounded c s) (m : Move c s a t) :
    Move (Config.exact c) s a t := by
  have hu := h.upper
  have hd₀ := h.drops
  cases m with
  | rxBurst rxBufs d hd => exact .rxBurst rxBufs d (Dispatcher.move_exact hd trivial)
  | endBurst d hd => exact .endBurst d (Dispatcher.move_exact hd trivial)
  | work w a u hw ha hu => exact .work w a u hw ha hu
  | dispatch nbReturn r₁ r₂ w d u hd hw hu' =>
    refine .dispatch nbReturn r₁ r₂ w d u (Dispatcher.move_exact hd ?_) hw hu'
    intro v hv
    have hlt := DispatcherHeap.offered_lt h.safe.inv hv
    have hle := h.jobs_le_total hlt
    have hge := h.jobs_nonneg v
    have hnb : nbReturn ≤ waiting s.disp.pc := by
      cases hd with
      | dispatch size rxBufs _ _ _ _ hp hne hw' hle =>
        rw [hp]
        simp only [waiting, List.length_take] at hle ⊢
        omega
    simp only [intMax] at hu
    refine ⟨inInt_of_bounds ?_ ?_, inInt_of_bounds ?_ ?_, inInt_of_bounds ?_ ?_⟩ <;> omega
  | visit w d hw hd =>
    refine .visit w d hw (Dispatcher.move_exact hd ?_)
    intro v hv
    cases hw.symm.trans hv
    have hlt := h.safe.inv.mem_queue.mp (List.mem_of_mem_head? hw)
    have hle := h.jobs_le_total hlt
    have hcov := h.covers w
    have hread := h.track.read w
    have harr := (WorkerLoad.reachable_load (h.track.reach w)).arrived
    have hsize := (WorkerLoad.reachable_load (h.track.reach w)).size
    cases hd with
    | visit visited total w' _ _ hp hlt' hw' =>
      have hroom := h.safe.room _ _ hp
      have hver := (DispatcherHeap.top_not_visited h.safe.inv hw (by rw [hp]; exact hlt')).2
      have hcur := h.safe.inv.current
      rw [hsize, h.track.prev w, u16_sub64 hread]
      unfold Covers at hcov
      simp only [intMax] at hu hroom
      refine ⟨inInt_of_bounds ?_ ?_, inInt_of_bounds ?_ ?_⟩ <;> omega
  | endCheckin d hd =>
    refine .endCheckin d (Dispatcher.move_exact hd ?_)
    have hcur := h.safe.inv.current
    have hsum : 0 ≤ sumJobs c.build.numWorkerThreads s.disp.workerInfoVec :=
      Finset.sum_nonneg fun u _ => h.jobs_nonneg u
    have hb := h.budget
    cases hd with
    | endCheckin visited total hp hlt =>
      have hroom := h.safe.room _ _ hp
      simp only [intMax] at hu hroom
      refine ⟨inInt_of_bounds (by omega) (by omega), fun v tot hp' => ?_⟩
      · rw [hp'] at hb
        simp only [collected] at hb
        refine inInt_of_bounds ?_ ?_ <;> omega

/-- With exact counters, the total still covers all estimates after the step. -/
theorem disp_budget {b : Dispatcher.Build} (hexact : ∀ x, b.int x = x) {d d' : Dispatcher.State}
    {a : Dispatcher.Act} (m : Dispatcher.Move b d a d')
    (hoff : ∀ r₁ r₂ w, Dispatcher.offered b r₁ r₂ d = some w → w < b.numWorkerThreads)
    (htop : ∀ w, d.workerQueue.head? = some w → w < b.numWorkerThreads)
    (h : sumJobs b.numWorkerThreads d.workerInfoVec + collected d.pc ≤ d.totalRunningJobs) :
    sumJobs b.numWorkerThreads d'.workerInfoVec + collected d'.pc ≤ d'.totalRunningJobs := by
  cases m with
  | nothing hp => exact h
  | dispatch size rxBufs nbReturn r₁ r₂ w hp hne hw hle =>
    have hsum := sumJobs_change (hoff r₁ r₂ w hw)
      (Dispatcher.account_numRunningJobs b w (rxBufs.take size).length nbReturn d)
    simp only [hp, collected, hsum, Dispatcher.account_totalRunningJobs, hexact] at h ⊢
    omega
  | visit visited total w currSize sq hp hlt hw =>
    have hsum := sumJobs_change (htop w hw)
      (Dispatcher.visitTop_numRunningJobs b visited total w currSize sq d)
    have hu : u16 (total + u16 (sub64 currSize (d.prevSizes w))) ≤
        total + u16 (sub64 currSize (d.prevSizes w)) := Nat.mod_le _ _
    rw [hsum, hexact]
    simp only [hp, collected, Dispatcher.visitTop, Dispatcher.requeue] at h ⊢
    omega
  | endCheckin visited total hp hlt =>
    simp only [hp, collected, hexact] at h ⊢
    omega
  | receive rxBufs hp hne hle =>
    rw [hp] at h
    exact h
  | startCheckin size hp hc =>
    rw [hp] at h
    exact h
  | noCheckin size hp hc =>
    rw [hp] at h
    exact h

/-- The total grows by what was received and not dropped. -/
theorem disp_upper {b : Dispatcher.Build} (hexact : ∀ x, b.int x = x) {d d' : Dispatcher.State}
    {a : Dispatcher.Act} (m : Dispatcher.Move b d a d')
    (hroom : ∀ rxBufs, a = .rxBurst rxBufs → d.totalRunningJobs + rxBufs.length ≤ intMax)
    (h : d.totalRunningJobs + waiting d.pc ≤ intMax) :
    d'.totalRunningJobs + waiting d'.pc ≤ intMax := by
  cases m with
  | nothing hp => exact h
  | receive rxBufs hp hne hle => exact hroom rxBufs rfl
  | dispatch size rxBufs nbReturn r₁ r₂ w hp hne hw hle =>
    simp only [hp, waiting, Dispatcher.account_totalRunningJobs, hexact, List.length_take,
      List.length_drop] at h hle ⊢
    omega
  | startCheckin size hp hc =>
    rw [hp] at h
    exact h
  | noCheckin size hp hc =>
    rw [hp] at h
    exact h
  | visit visited total w currSize sq hp hlt hw =>
    rw [hp] at h
    exact h
  | endCheckin visited total hp hlt =>
    simp only [hp, waiting, hexact] at h ⊢
    omega

theorem disp_drops {b : Dispatcher.Build} (hexact : ∀ x, b.int x = x) {d d' : Dispatcher.State}
    {a : Dispatcher.Act} (m : Dispatcher.Move b d a d')
    (h : 0 ≤ d.packetDropCount ∧ d.packetDropCount < 100000) :
    0 ≤ d'.packetDropCount ∧ d'.packetDropCount < 100000 := by
  cases m with
  | dispatch size rxBufs nbReturn r₁ r₂ w hp hne hw hle =>
    simp only [Dispatcher.account_packetDropCount, hexact]
    split
    · split <;> omega
    · exact h
  | _ => exact h

theorem safe_move {a : Act} (h : Bounded c s) (m : Move c s a t) (hr : Room s a) :
    Safe c.build t.disp := by
  rcases move_disp m with he | ⟨da, hd, hend, -⟩
  · rw [he]
    exact h.safe
  · refine DispatcherHeap.move_safe h.safe hd fun hda => ?_
    cases hend hda
    exact hr

theorem move_bounded {a : Act} (h : Bounded c s) (m : Move c s a t) (hr : Room s a) :
    Bounded c t := by
  have hexact : ∀ x, (Config.exact c).build.int x = x := fun _ => rfl
  have m' := move_exact h m
  have htrack : Track (Config.exact c) s := ⟨h.track.reach, h.track.prev, h.track.read⟩
  have hcovers : ∀ w, Covers t w := fun w => move_covers hexact htrack m' (h.covers w)
  rcases move_disp m' with he | ⟨da, hd, hend, hburst⟩
  · exact {
      track := move_track h.track m
      safe := he ▸ h.safe
      covers := hcovers
      budget := he ▸ h.budget
      upper := he ▸ h.upper
      drops := he ▸ h.drops }
  · exact {
      track := move_track h.track m
      safe := safe_move h m hr
      covers := hcovers
      budget := disp_budget hexact hd (fun _ _ _ => DispatcherHeap.offered_lt h.safe.inv)
        (fun _ hw => h.safe.inv.mem_queue.mp (List.mem_of_mem_head? hw)) h.budget
      upper := disp_upper hexact hd (fun rxBufs hda => by cases hburst rxBufs hda; exact hr) h.upper
      drops := disp_drops hexact hd h.drops }

end Steps

/-- As long as there is room, the run with 32-bit counters is the run with exact ones. -/
theorem run_bounded {c : Config} {sqs : Nat → Nat} {as : List Act} {s : State}
    (h : Machine.run (step c) as (init c sqs) = some s)
    (hr : Machine.Along (step c) Room as (init c sqs)) : Bounded c s :=
  Machine.run_invariant (init_bounded c sqs)
    (fun _ _ _ hb hroom ht => move_bounded hb (step_move ht) hroom) h hr

theorem run_exact {c : Config} {sqs : Nat → Nat} {as : List Act} {s : State}
    (h : Machine.run (step c) as (init c sqs) = some s)
    (hr : Machine.Along (step c) Room as (init c sqs)) :
    Machine.run (step (Config.exact c)) as (init (Config.exact c) sqs) = some s := by
  revert hr
  refine Machine.run_induction (P := fun as s => Machine.Along (step c) Room as (init c sqs) →
    Machine.run (step (Config.exact c)) as (init (Config.exact c) sqs) = some s) ?_ ?_ h
  · intro _
    rfl
  · intro as s a t hs ih ht hr
    rw [Machine.along_snoc hs] at hr
    have hb := run_bounded hs hr.1
    exact Machine.run_snoc.mpr ⟨s, ih hr.1, move_step (move_exact hb (step_move ht))⟩

/-- The loop of a check-in, with what it reads from the workers. -/
theorem checkin_visits {c : Config} {s : State} (h : DispatcherHeap.Inv c.build s.disp)
    {visited : List Nat} {total : Nat} (hp : s.disp.pc = .checkin visited total) :
    visited.Nodup ∧
    (visited.length < c.build.numWorkerThreads → ∃ w, s.disp.workerQueue.head? = some w ∧
      w ∉ visited ∧ (s.disp.workerInfoVec w).versionNumber = s.disp.curVersionNumber ∧
      ∃ t total', step c s .visit = some t ∧ t.disp.pc = .checkin (visited ++ [w]) total') ∧
    (visited.length < c.build.numWorkerThreads ∨
      visited.Perm (List.range c.build.numWorkerThreads) ∧
      ∃ t, step c s .endCheckin = some t ∧ t.disp.pc = .recv) := by
  obtain ⟨hn, hvisit, hend⟩ := DispatcherHeap.checkin_visits h hp
  refine ⟨hn, fun hlt => ?_, hend.imp_right fun ⟨hperm, d, hd, hpc⟩ => ⟨hperm, ?_⟩⟩
  · obtain ⟨w, hw, hnew, hver, hstep⟩ := hvisit hlt
    obtain ⟨d, hd, hpc, -⟩ := hstep (s.workers w).currSize (s.workers w).currSq
    exact ⟨w, hw, hnew, hver, _, _, move_step (.visit w d hw (Dispatcher.step_move hd)), hpc⟩
  · exact ⟨_, move_step (.endCheckin d (Dispatcher.step_move hd)), hpc⟩

theorem visiting {pc : Dispatcher.Pc} {w : Nat} (h : w ∈ visitedAt pc) :
    ∃ visited total, pc = .checkin visited total := by
  cases pc with
  | checkin visited total => exact ⟨visited, total, rfl⟩
  | recv => cases h
  | dispatch size rxBufs => cases h

/-- In every run that leaves room: the counters hold their exact values, all of them an `int`;
a check-in pops a worker of the current version that it has not popped before as long as there is
one, and ends having popped each worker once; and outside check-ins the shipped policy has a
least-loaded worker at the top of the heap. -/
theorem counters_stay_in_range (c : Config) (sqs : Nat → Nat) (as : List Act) (s : State)
    (h : Machine.run (step c) as (init c sqs) = some s)
    (hr : Machine.Along (step c) Room as (init c sqs)) :
    Machine.run (step (Config.exact c)) as (init (Config.exact c) sqs) = some s ∧
    InInt s.disp.curVersionNumber ∧ InInt s.disp.totalRunningJobs ∧
    (∀ w < c.build.numWorkerThreads, InInt (s.disp.workerInfoVec w).versionNumber ∧
      InInt (s.disp.workerInfoVec w).numRunningJobs) ∧
    (∀ visited total, s.disp.pc = .checkin visited total →
      visited.Nodup ∧
      (visited.length < c.build.numWorkerThreads → ∃ w, s.disp.workerQueue.head? = some w ∧
        w ∉ visited ∧ (s.disp.workerInfoVec w).versionNumber = s.disp.curVersionNumber ∧
        ∃ t total', step c s .visit = some t ∧ t.disp.pc = .checkin (visited ++ [w]) total') ∧
      (visited.length < c.build.numWorkerThreads ∨
        visited.Perm (List.range c.build.numWorkerThreads) ∧
        ∃ t, step c s .endCheckin = some t ∧ t.disp.pc = .recv)) ∧
    (c.build.policy = .leastLoaded → visitedAt s.disp.pc = [] →
      ∃ w, s.disp.workerQueue.head? = some w ∧ ∀ u < c.build.numWorkerThreads,
        (s.disp.workerInfoVec w).numRunningJobs ≤ (s.disp.workerInfoVec u).numRunningJobs) := by
  have hb := run_bounded h hr
  have hi := hb.safe.inv
  have hcur := hi.current
  have hcount := hb.safe.count
  have hupper := hb.upper
  have hsum : 0 ≤ sumJobs c.build.numWorkerThreads s.disp.workerInfoVec :=
    Finset.sum_nonneg fun u _ => hb.jobs_nonneg u
  have hbudget := hb.budget
  simp only [intMax] at hcount hupper
  refine ⟨run_exact h hr, inInt_of_bounds (by omega) (by omega),
    inInt_of_bounds (by omega) (by omega), fun w hw => ⟨?_, ?_⟩,
    fun visited total hp => checkin_visits hi hp, fun hpol hv => ?_⟩
  · have hlevel := hi.level w hw
    split at hlevel
    · rename_i hmem
      obtain ⟨visited, total, hp⟩ := visiting hmem
      have hroom := hb.safe.room _ _ hp
      simp only [intMax] at hroom
      exact inInt_of_bounds (by omega) (by omega)
    · exact inInt_of_bounds (by omega) (by omega)
  · have hle := hb.jobs_le_total hw
    have hge := hb.jobs_nonneg w
    exact inInt_of_bounds hge (by omega)
  · obtain ⟨w, hw⟩ := hi.exists_top
    exact ⟨w, hw, fun u hu => (DispatcherHeap.top_least_loaded hi hpol hv hw hu).1⟩

/-- One request and a complete check-in. -/
theorem counters_stay_in_range_one_request :
    ∃ s, Machine.run (step shipped) (onePacket Worker.request ++ visits ++ [.endCheckin])
        (init shipped fun _ => 0) = some s ∧
      s.disp.curVersionNumber = 1 ∧ InInt s.disp.totalRunningJobs := by
  have h : (Machine.run (step shipped) (onePacket Worker.request ++ visits ++ [.endCheckin])
      (init shipped fun _ => 0)).any (fun s => decide (s.disp.curVersionNumber = 1)) = true := by
    decide +kernel
  obtain ⟨s, hs, hv⟩ := (Option.any_eq_true _ _).mp h
  exact ⟨s, hs, of_decide_eq_true hv,
    (counters_stay_in_range shipped _ _ s hs (by decide +kernel)).2.2.1⟩

end TinyQuanta.Counters
