import TinyQuanta.Interleaving

/-!
# The load estimate

`num_running_jobs` grows by what a ring accepts and shrinks by the 16-bit
difference of two readings of `curr_sizes`. It never falls below the work a
worker really has; it follows that work exactly while no packet is rejected and
no difference is cut off.
-/
namespace TinyQuanta.LoadEstimate

open Params Packet Interleaving
open WorkerLoad (numFinished numRejected outstanding Drained Clean)
open DispatcherHeap (visitedAt Safe)

/-- One packet goes to worker 0, which takes it off its ring. -/
def onePacket (m : Mbuf) : List Act :=
  [.rxBurst [m], .dispatch 1 0 0] ++ (Worker.iteration .preempted 1 0).map (.work 0)

/-! ## Never too low -/

/-- The estimate of `w` is at least what arrived since its last reading. -/
def Covers (s : State) (w : Nat) : Prop :=
  ((s.workers w).arrived : Int) - s.readAt w ≤ (s.disp.workerInfoVec w).numRunningJobs

theorem init_covers (c : Config) (sqs : Nat → Nat) (w : Nat) : Covers (init c sqs) w := by
  simp [Covers, init, Worker.init, Dispatcher.init]

/-- Cutting a difference off to 16 bits takes away too little, never too much. -/
theorem move_covers {c : Config} (hexact : ∀ x, c.build.int x = x) {s t : State} {a : Act}
    (h : Track c s) (m : Move c s a t) {w : Nat} (hs : Covers s w) : Covers t w := by
  have hle := h.read w
  unfold Covers at *
  cases move_change h m w with
  | same hn ha hr => rwa [hn, ha, hr]
  | enqueue n hn ha hr =>
    rw [hn, ha, hr, hexact]
    omega
  | read hv hw hn ha hr =>
    rw [hn, ha, hr, hexact]
    omega

/-- What the worker really has to do is covered. -/
theorem outstanding_le {c : Config} {s : State} (h : Track c s) {w : Nat} (hs : Covers s w) :
    (outstanding (s.workers w) : Int) ≤ (s.disp.workerInfoVec w).numRunningJobs := by
  have harr := (WorkerLoad.reachable_load (h.reach w)).arrived
  have hread := h.read w
  unfold Covers at hs
  omega

/-- In every state of every interleaving the estimate covers the packets on the ring, those
dequeued but not handled, and those attached to busy coroutines. -/
theorem load_estimate_sound (c : Config) (hexact : ∀ x, c.build.int x = x) (sqs : Nat → Nat)
    (as : List Act) (s : State) (h : Machine.run (step c) as (init c sqs) = some s) (w : Nat) :
    (((s.workers w).ring.length + (s.workers w).rxBufs.length + (s.workers w).busyCoros.length
      : Nat) : Int) ≤ (s.disp.workerInfoVec w).numRunningJobs ∧
    0 ≤ (s.disp.workerInfoVec w).numRunningJobs := by
  have hcovers : Covers s w := Machine.run_induction (P := fun _ s => Covers s w)
    (init_covers c sqs w)
    (fun _ _ _ _ hs hc ht => move_covers hexact (run_track hs) (step_move ht) hc) h
  have hle := outstanding_le (run_track h) hcovers
  unfold outstanding at hle
  omega

/-- The build whose counters cannot overflow, with one request bound to worker 0. -/
theorem load_estimate_sound_one_request :
    ∃ s, Machine.run (step ⟨Dispatcher.shipped.exact, Worker.shipped⟩)
        (onePacket Worker.request) (init ⟨Dispatcher.shipped.exact, Worker.shipped⟩ fun _ => 0) =
          some s ∧
      (s.workers 0).busyCoros.length = 1 ∧ 1 ≤ (s.disp.workerInfoVec 0).numRunningJobs := by
  have h : (Machine.run (step ⟨Dispatcher.shipped.exact, Worker.shipped⟩)
      (onePacket Worker.request)
      (init ⟨Dispatcher.shipped.exact, Worker.shipped⟩ fun _ => 0)).any (fun s =>
        decide ((s.workers 0).busyCoros.length = 1)) = true := by decide +kernel
  obtain ⟨s, hs, hb⟩ := (Option.any_eq_true _ _).mp h
  have hb := of_decide_eq_true hb
  have hle := (load_estimate_sound _ (fun _ => rfl) _ _ s hs 0).1
  exact ⟨s, hs, hb, by omega⟩

/-! ## No drift -/

/-- Of worker `w`: only valid packets are enqueued to it, and fewer than `2^16` of its jobs
complete between two readings; and a check-in starts only while version numbers have room. -/
def Sound (c : Config) (w : Nat) (s : State) : Act → Prop
  | .dispatch nbReturn rand₁ rand₂ => Dispatcher.offered c.build rand₁ rand₂ s.disp = some w →
      ∀ m ∈ enqueued s nbReturn, isRxMbufValid c.server.net m = true
  | .visit => s.disp.workerQueue.head? = some w →
      numFinished (s.workers w) - s.readAt w < 65536
  | .endBurst => returnRingCheckinPeriod ≤ s.disp.returnQueueCheckinIdx →
      (s.disp.checkIns : Int) < intMax
  | _ => True

instance (c : Config) (w : Nat) (s : State) (a : Act) : Decidable (Sound c w s a) := by
  cases a <;> unfold Sound <;> infer_instance

/-- What sound steps keep. -/
structure Steady (c : Config) (w : Nat) (s : State) : Prop where
  track : Track c s
  safe : Safe c.build s.disp
  clean : Clean c.server (s.workers w)
  estimate : (s.disp.workerInfoVec w).numRunningJobs =
    c.build.int (((s.workers w).arrived : Int) - s.readAt w)

theorem init_steady (c : Config) (sqs : Nat → Nat) (w : Nat) : Steady c w (init c sqs) where
  track := init_track c sqs
  safe := DispatcherHeap.init_safe c.build
  clean := WorkerLoad.init_clean c.server (sqs w)
  estimate := by
    have h0 : c.build.int 0 = 0 := c.build.int_eq 0 (by decide)
    simp [init, Worker.init, Dispatcher.init, h0]

theorem clean_arrivals {sv : Worker.Server} {ms : List Mbuf} {s t : Worker.State}
    (h : Clean sv s) (hm : ∀ m ∈ ms, isRxMbufValid sv.net m = true)
    (ht : Machine.run (Worker.step sv) (ms.map .arrive) s = some t) : Clean sv t := by
  induction ms generalizing s with
  | nil =>
    cases ht
    exact h
  | cons m ms ih =>
    obtain ⟨u, hu, ht⟩ := Option.bind_eq_some_iff.mp ht
    have hc := WorkerLoad.clean_move h (Worker.step_move hu) (by
      intro m' he
      cases he
      exact hm m (by simp))
    exact ih hc (fun m' hm' => hm m' (by simp [hm'])) ht

theorem move_clean {c : Config} {s t : State} {a : Act} {w : Nat}
    (h : Clean c.server (s.workers w)) (m : Move c s a t) (hs : Sound c w s a) :
    Clean c.server (t.workers w) := by
  cases m with
  | dispatch nbReturn r₁ r₂ v d u hd hv hu =>
    by_cases he : w = v
    · subst he
      simpa using clean_arrivals h (hs hv) hu
    · simpa [Function.update_of_ne he] using h
  | work v a u hv ha hu =>
    by_cases he : w = v
    · subst he
      simpa using WorkerLoad.clean_move h hu fun m hm => absurd hm (ha m)
    · simpa [Function.update_of_ne he] using h
  | _ => exact h

theorem move_estimate {c : Config} {s t : State} {a : Act} {w : Nat} (h : Steady c w s)
    (m : Move c s a t) (hs : Sound c w s a) :
    (t.disp.workerInfoVec w).numRunningJobs =
      c.build.int (((t.workers w).arrived : Int) - t.readAt w) := by
  have he := h.estimate
  have hread := h.track.read w
  cases move_change h.track m w with
  | same hn ha hr => rwa [hn, ha, hr]
  | enqueue n hn ha hr =>
    rw [hn, ha, hr, he, c.build.int_add]
    congr 1
    omega
  | read hv hw hn ha hr =>
    subst hv
    have hlt : numFinished (s.workers w) - s.readAt w < 65536 := hs hw
    rw [hn, ha, hr, he, Int.sub_eq_add_neg, c.build.int_add, Nat.mod_eq_of_lt hlt]
    congr 1
    omega

theorem move_steady {c : Config} {s t : State} {a : Act} {w : Nat} (h : Steady c w s)
    (m : Move c s a t) (hs : Sound c w s a) : Steady c w t where
  track := move_track h.track m
  safe := by
    rcases move_disp m with he | ⟨da, hd, hend, -⟩
    · rw [he]
      exact h.safe
    · refine DispatcherHeap.move_safe h.safe hd fun hda => ?_
      cases hend hda
      exact hs
  clean := move_clean h.clean m hs
  estimate := move_estimate h m hs

theorem run_steady {c : Config} {sqs : Nat → Nat} {as : List Act} {s : State} {w : Nat}
    (h : Machine.run (step c) as (init c sqs) = some s)
    (hs : Machine.Along (step c) (Sound c w) as (init c sqs)) : Steady c w s :=
  Machine.run_invariant (init_steady c sqs w)
    (fun _ _ _ hs hc ht => move_steady hs (step_move ht) hc) h hs

/-- Since `w` was drained with `k` packets behind it: as long as it receives no other, it stays
drained, and once it is visited its reading is complete. -/
structure Quiet (w k : Nat) (s : State) : Prop where
  received : k ≤ (s.workers w).arrived
  drained : (s.workers w).arrived = k → Drained (s.workers w)
  caught : (s.workers w).arrived = k → w ∈ visitedAt s.disp.pc →
    s.readAt w = numFinished (s.workers w)

/-- Outside the check-in loop there is nothing to show about visits. -/
theorem Quiet.of_disp {w k : Nat} {s : State} (h : Quiet w k s) {d : Dispatcher.State}
    (hd : w ∈ visitedAt d.pc → w ∈ visitedAt s.disp.pc) : Quiet w k { s with disp := d } :=
  ⟨h.received, h.drained, fun hk hv => h.caught hk (hd hv)⟩

theorem move_quiet {c : Config} {s t : State} {a : Act} {w k : Nat} (h : Quiet w k s)
    (m : Move c s a t) : Quiet w k t := by
  cases m with
  | rxBurst rxBufs d hd =>
    apply h.of_disp
    cases hd with
    | nothing hp => exact id
    | receive _ hp hne hle => simp [visitedAt]
  | endBurst d hd =>
    apply h.of_disp
    cases hd <;> simp [visitedAt]
  | endCheckin d hd =>
    apply h.of_disp
    cases hd
    simp [visitedAt]
  | dispatch nbReturn r₁ r₂ v d u hd hv hu =>
    have hnone : w ∉ visitedAt d.pc := by
      cases hd
      simp [visitedAt]
    by_cases he : w = v
    · subst he
      obtain ⟨harr, -⟩ := run_arrivals hu
      have hrec := h.received
      refine ⟨by simp [harr]; omega, fun hk => ?_, fun _ hw => absurd hw hnone⟩
      simp only [Function.update_self] at hk ⊢
      have hnil : enqueued s nbReturn = [] := List.eq_nil_of_length_eq_zero (by omega)
      rw [hnil] at hu
      cases hu
      exact h.drained (by omega)
    · exact ⟨by simpa [he] using h.received, by simpa [he] using h.drained,
        fun _ hw => absurd hw hnone⟩
  | visit v d hv hd =>
    cases hd with
    | visit visited total v' _ _ hp hlt hv' =>
      cases hv.symm.trans hv'
      refine ⟨h.received, h.drained, fun hk hw => ?_⟩
      by_cases he : w = v
      · subst he
        simp
      · have hold : w ∈ visitedAt s.disp.pc := by
          rw [hp]
          simpa [Dispatcher.visitTop, visitedAt, he] using hw
        simpa [he] using h.caught hk hold
  | work v a u hv ha hu =>
    by_cases he : w = v
    · subst he
      have harr := arrived_move hu ha
      refine ⟨by simpa [harr] using h.received, fun hk => ?_, fun hk hw => ?_⟩
      · simp only [Function.update_self, harr] at hk ⊢
        exact (WorkerLoad.drained_move (h.drained hk) hu ha).1
      · simp only [Function.update_self, harr] at hk ⊢
        rw [(WorkerLoad.drained_move (h.drained hk) hu ha).2.1]
        exact h.caught hk hw
    · exact ⟨by simpa [he] using h.received, by simpa [he] using h.drained,
        by simpa [he] using h.caught⟩

/-- In a run of sound steps, if worker `w` is drained and a check-in that has not yet visited it
completes before it receives another packet, its estimate is zero afterwards. -/
theorem no_drift (c : Config) (w : Nat) (hw : w < c.build.numWorkerThreads) (sqs : Nat → Nat)
    (as bs : List Act) (s t u : State) (hs : Machine.run (step c) as (init c sqs) = some s)
    (ht : Machine.run (step c) bs s = some t) (hu : step c t .endCheckin = some u)
    (hsound : Machine.Along (step c) (Sound c w) (as ++ bs) (init c sqs))
    (hdrained : Drained (s.workers w)) (hnew : w ∉ visitedAt s.disp.pc)
    (hnone : (u.workers w).arrived = (s.workers w).arrived) :
    (u.disp.workerInfoVec w).numRunningJobs = 0 := by
  have hsteady := run_steady (Machine.run_join hs ht) hsound
  have hquiet : Quiet w (s.workers w).arrived t :=
    Machine.run_induction (P := fun _ t => Quiet w (s.workers w).arrived t)
      ⟨Nat.le_refl _, fun _ => hdrained, fun _ hv => absurd hv hnew⟩
      (fun _ _ _ _ _ hq hstep => move_quiet hq (step_move hstep)) ht
  cases step_move hu with
  | endCheckin d hd =>
    cases hd with
    | endCheckin visited total hp hlt =>
      have harr : (t.workers w).arrived = (s.workers w).arrived := hnone
      have hvisited : w ∈ visitedAt t.disp.pc := by
        have hall := DispatcherHeap.all_visited hsteady.safe.inv (by rw [hp]; exact hlt)
        exact hall.mem_iff.mpr (List.mem_range.mpr hw)
      have hread := hquiet.caught harr hvisited
      obtain ⟨hring, hrx, hbusy⟩ := hquiet.drained harr
      have hload := (WorkerLoad.reachable_load (hsteady.track.reach w)).arrived
      have hrej := hsteady.clean.none
      have hzero : ((t.workers w).arrived : Int) - t.readAt w = 0 := by
        simp only [outstanding, hring, hrx, hbusy, List.length_nil] at hload
        omega
      have hest := hsteady.estimate
      rw [hzero] at hest
      exact hest.trans (c.build.int_eq 0 (by decide))

/-- The rest of the dispatcher's round, up to the end of the check-in loop. -/
def visits : List Act := .endBurst :: List.replicate 14 .visit

/-- A request that is served is forgotten by the next check-in. -/
theorem no_drift_served_request :
    ∃ u, Machine.run (step shipped)
      (onePacket Worker.request ++ (Worker.iteration .completed 0 1).map (.work 0) ++ visits ++
        [.endCheckin]) (init shipped fun _ => 0) = some u ∧
      (u.disp.workerInfoVec 0).numRunningJobs = 0 := by
  have hs : (Machine.run (step shipped) (onePacket Worker.request ++
      (Worker.iteration .completed 0 1).map (.work 0)) (init shipped fun _ => 0)).any (fun s =>
      (s.workers 0).ring.isEmpty && (s.workers 0).rxBufs.isEmpty &&
        (s.workers 0).busyCoros.isEmpty && decide (0 ∉ visitedAt s.disp.pc) &&
        (Machine.run (step shipped) visits s).any fun t => (step shipped t .endCheckin).any fun u =>
          decide ((u.workers 0).arrived = (s.workers 0).arrived)) = true := by decide +kernel
  obtain ⟨s, hs, h⟩ := (Option.any_eq_true _ _).mp hs
  simp only [Bool.and_eq_true, List.isEmpty_iff, decide_eq_true_eq] at h
  obtain ⟨⟨⟨⟨hring, hrx⟩, hbusy⟩, hnew⟩, ht⟩ := h
  obtain ⟨t, ht, hu⟩ := (Option.any_eq_true _ _).mp ht
  obtain ⟨u, hu, harr⟩ := (Option.any_eq_true _ _).mp hu
  refine ⟨u, Machine.run_join (Machine.run_join hs ht) (by simp [hu]), ?_⟩
  exact no_drift shipped 0 (by decide) (fun _ => 0) _ _ s t u hs ht hu (by decide +kernel)
    ⟨hring, hrx, hbusy⟩ hnew (of_decide_eq_true harr)

/-- A stray frame is rejected at once, and counted for ever. -/
theorem stray_is_counted :
    ∃ s u, Machine.run (step shipped) (onePacket Worker.stray) (init shipped fun _ => 0) = some s ∧
      Drained (s.workers 0) ∧
      Machine.run (step shipped) (visits ++ [.endCheckin]) s = some u ∧
      (u.workers 0).arrived = (s.workers 0).arrived ∧
      (u.disp.workerInfoVec 0).numRunningJobs = 1 := by
  have hs : (Machine.run (step shipped) (onePacket Worker.stray) (init shipped fun _ => 0)).any
      (fun s => (s.workers 0).ring.isEmpty && (s.workers 0).rxBufs.isEmpty &&
        (s.workers 0).busyCoros.isEmpty &&
        (Machine.run (step shipped) (visits ++ [.endCheckin]) s).any fun u =>
          decide ((u.workers 0).arrived = (s.workers 0).arrived ∧
            (u.disp.workerInfoVec 0).numRunningJobs = 1)) = true := by decide +kernel
  obtain ⟨s, hs, h⟩ := (Option.any_eq_true _ _).mp hs
  simp only [Bool.and_eq_true, List.isEmpty_iff] at h
  obtain ⟨⟨⟨hring, hrx⟩, hbusy⟩, hu⟩ := h
  obtain ⟨u, hu, hn⟩ := (Option.any_eq_true _ _).mp hu
  exact ⟨s, u, hs, ⟨hring, hrx, hbusy⟩, hu, of_decide_eq_true hn⟩

end TinyQuanta.LoadEstimate
