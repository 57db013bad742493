import TinyQuanta.CiLib

/-!
# When a probe calls the registered handler

`intvActionHook` encodes two things at once: which handler is registered and
whether interrupts are enabled. The writes in `ci_enable` and at the end of
`interrupt_handler` assume that a handler came from `register_ci` and that
interrupts are to be on, and a registration turns them on whatever the count is.
The hook is right between those writes exactly as long as these assumptions are.
-/
namespace TinyQuanta.CiProtocol

open Params CiLib

variable {H : Type}

/-- Some handler called by `interrupt_handler` has not returned. -/
def inTrampoline (s : State H) : Bool := s.frames.any Frame.isTrampoline

/-- A directly registered handler is the one that `interrupt_handler` would run. -/
def Restorable (s : State H) : Prop :=
  match s.registration with
  | .direct h => s.appHandler = some h
  | _ => True

/-- Returning from `frame`, with the handlers `frames` still running. -/
def MayReturn (s : State H) (frames : List (Frame H)) : Frame H → Prop
  | .interruptHandler _ => frames.any Frame.isTrampoline = false →
      (s.lcDisabledCount ≠ 0 → s.appHandler = none) ∧ (s.lcDisabledCount = 0 → Restorable s)
  | .direct _ => True

/-- Outside handlers run by `interrupt_handler`: registrations come while interrupts are enabled,
and where the hook is set to `interrupt_handler`, that stands for the registered handler and for
interrupts that are enabled. -/
def Disciplined (s : State H) : Act H → Prop
  | .registerCi _ _ _ => inTrampoline s = false → s.lcDisabledCount = 0
  | .registerCiDirect _ _ _ => inTrampoline s = false → s.lcDisabledCount = 0
  | .ciEnable => inTrampoline s = false → s.lcDisabledCount ≤ 1 → Restorable s
  | .ret =>
    match s.frames with
    | [] => True
    | frame :: frames => MayReturn s frames frame
  | _ => True

/-- `app_handler` follows the registrations with `register_ci`. -/
structure Synced (s : State H) : Prop where
  count : 0 ≤ s.lcDisabledCount
  ci : ∀ h, s.registration = .ci h → s.appHandler = some h
  none : s.registration = .none → s.appHandler = none

theorem init_synced : Synced (init : State H) where
  count := Int.le_refl 0
  ci _ hr := by cases hr
  none _ := rfl

theorem Synced.of_eq {s t : State H} (h : Synced s) (hcount : 0 ≤ t.lcDisabledCount)
    (happ : t.appHandler = s.appHandler) (hreg : t.registration = s.registration) : Synced t where
  count := hcount
  ci := by
    rw [happ, hreg]
    exact h.ci
  none := by
    rw [happ, hreg]
    exact h.none

theorem probe_registration (s : State H) :
    (probe s).appHandler = s.appHandler ∧ (probe s).registration = s.registration := by
  unfold probe
  split <;> exact ⟨rfl, rfl⟩

theorem ret_eq {s t : State H} (h : ret s = some t) : ∃ frame, s.frames = frame :: t.frames ∧
    t = { s with
      intvActionHook := if frame.isTrampoline then .interruptHandler else s.intvActionHook
      frames := t.frames } := by
  unfold ret at h
  split at h
  · cases h
  · cases h
    exact ⟨_, by assumption, rfl⟩
  · cases h
    exact ⟨_, by assumption, rfl⟩

theorem step_synced {s t : State H} {a : Act H} (ht : step s a = some t) (h : Synced s) :
    Synced t := by
  have hcount := step_count_nonneg ht h.count
  cases a with
  | registerCi ir cy f =>
    cases ht
    exact ⟨hcount, fun g hg => (by cases hg; rfl), fun hn => (by cases hn)⟩
  | registerCiDirect ir cy f =>
    cases ht
    exact ⟨hcount, fun g hg => (by cases hg), fun hn => (by cases hn)⟩
  | deregisterCi =>
    cases ht
    exact ⟨hcount, fun g hg => (by cases hg), fun _ => rfl⟩
  | ciDisable =>
    cases eq_ciDisable ht
    exact h.of_eq hcount rfl rfl
  | ciEnable =>
    cases ht
    exact h.of_eq hcount rfl rfl
  | probe =>
    cases ht
    exact h.of_eq hcount (probe_registration s).1 (probe_registration s).2
  | ret =>
    obtain ⟨frame, -, he⟩ := ret_eq ht
    rw [he]
    rw [he] at hcount
    exact h.of_eq hcount rfl rfl

/-- Outside `interrupt_handler` the hook is what it should be. -/
def Right (s : State H) : Prop := inTrampoline s = false → invoked s = expected s

/-- `interrupt_handler` stands for the registered handler. -/
theorem appHandler_eq_iff {s : State H} (h : Synced s) :
    s.appHandler = s.registration.handler ↔ Restorable s := by
  unfold Restorable
  cases hr : s.registration with
  | none => simp [h.none hr, Registration.handler]
  | ci g => simp [h.ci g hr, Registration.handler]
  | direct g => rfl

theorem ciEnable_right_iff {s : State H} (hs : Synced s) (h : Right s) :
    Right (ciEnable s) ↔ (inTrampoline s = false → s.lcDisabledCount ≤ 1 → Restorable s) := by
  have hin : inTrampoline (ciEnable s) = inTrampoline s := rfl
  have hcount := ciEnable_count hs.count
  have hpos := hs.count
  unfold Right at h ⊢
  rw [hin]
  refine forall_congr' fun hout => ?_
  by_cases hle : s.lcDisabledCount ≤ 1
  · have hzero : (ciEnable s).lcDisabledCount = 0 := by omega
    have hhook : invoked (ciEnable s) = s.appHandler := by
      have he : (ciEnable s).intvActionHook = .interruptHandler := if_pos hzero
      simp only [invoked, he]
      rfl
    have hexp : expected (ciEnable s) = s.registration.handler := if_pos hzero
    rw [hhook, hexp, appHandler_eq_iff hs]
    exact ⟨fun hr _ => hr, fun hr => hr hle⟩
  · have hne : (ciEnable s).lcDisabledCount ≠ 0 := by omega
    have hhook : invoked (ciEnable s) = invoked s := by
      have he : (ciEnable s).intvActionHook = s.intvActionHook := if_neg hne
      simp only [invoked, he]
      rfl
    have hexp : expected (ciEnable s) = expected s := by
      rw [expected, expected, if_neg hne, if_neg (by omega)]
    rw [hhook, hexp]
    exact ⟨fun _ hl => absurd hl hle, fun _ => h hout⟩

theorem ret_right_iff {s t : State H} (hs : Synced s) (h : Right s) (ht : ret s = some t) :
    Right t ↔ Disciplined s .ret := by
  obtain ⟨frame, hf, he⟩ := ret_eq ht
  generalize t.frames = frames at hf he
  subst he
  simp only [Disciplined, hf]
  cases frame with
  | interruptHandler g =>
    unfold Right inTrampoline invoked
    simp only [MayReturn, Frame.isTrampoline, if_true]
    refine forall_congr' fun _ => ?_
    change s.appHandler = expected s ↔ _
    unfold expected
    by_cases hz : s.lcDisabledCount = 0
    · rw [if_pos hz, appHandler_eq_iff hs]
      exact ⟨fun hr => ⟨fun hn => absurd hz hn, fun _ => hr⟩, fun hr => hr.2 hz⟩
    · rw [if_neg hz]
      exact ⟨fun hr => ⟨fun _ => hr, fun hn => absurd hn hz⟩, fun hr => hr.1 hz⟩
  | direct g =>
    simp only [MayReturn, iff_true]
    intro hout
    apply h
    unfold inTrampoline at hout ⊢
    rw [hf, List.any_cons]
    exact hout

theorem probe_right {s : State H} (h : Right s) : Right (probe s) := by
  unfold probe
  split
  · exact h
  · intro hout
    exact h hout
  · exact h
  · intro hout
    cases hout

/-- A step keeps the hook right if and only if it is disciplined. -/
theorem step_right_iff {s t : State H} {a : Act H} (hs : Synced s) (h : Right s)
    (ht : step s a = some t) : Right t ↔ Disciplined s a := by
  cases a with
  | registerCi ir cy f =>
    cases ht
    refine forall_congr' fun hout => ?_
    change some f = (if s.lcDisabledCount = 0 then some f else none) ↔ _
    split <;> simp [*]
  | registerCiDirect ir cy f =>
    cases ht
    refine forall_congr' fun hout => ?_
    change some f = (if s.lcDisabledCount = 0 then some f else none) ↔ _
    split <;> simp [*]
  | deregisterCi =>
    cases ht
    simp only [Disciplined, iff_true]
    intro _
    change (none : Option H) = if s.lcDisabledCount = 0 then none else none
    rw [ite_self]
  | ciDisable =>
    cases eq_ciDisable ht
    have hpos := hs.count
    simp only [Disciplined, iff_true]
    intro _
    have hne : (ciDisable s).lcDisabledCount ≠ 0 := by
      simp only [ciDisable]
      omega
    rw [expected, if_neg hne]
    rfl
  | ciEnable =>
    cases ht
    exact ciEnable_right_iff hs h
  | probe =>
    cases ht
    simp only [Disciplined, iff_true]
    exact probe_right h
  | ret => exact ret_right_iff hs h ht

theorem run_right {as : List (Act H)} {s : State H} (h : Machine.run step as init = some s)
    (hc : Machine.Along step Disciplined as init) : Synced s ∧ Right s :=
  Machine.run_invariant (P := fun s => Synced s ∧ Right s) ⟨init_synced, fun _ => rfl⟩
    (fun _ _ _ hs hd ht => ⟨step_synced ht hs.1, (step_right_iff hs.1 hs.2 ht).mpr hd⟩) h hc

/-- Nothing less would do: the hook has been right all along only if every step was disciplined. -/
theorem disciplined_iff {as : List (Act H)} {s : State H} (h : Machine.run step as init = some s) :
    Machine.Along step Disciplined as init ↔
      ∀ pre post t, as = pre ++ post → Machine.run step pre init = some t → Right t := by
  constructor
  · intro hc pre post t has ht
    rw [has] at hc
    exact (run_right ht ((Machine.along_append _ _ _ _ _).mp hc).1).2
  · refine Machine.run_induction (P := fun as _ => (∀ pre post t, as = pre ++ post →
      Machine.run step pre init = some t → Right t) → Machine.Along step Disciplined as init)
      (fun _ => trivial) ?_ h
    intro as s a t hs ih ht hall
    have has := ih fun pre post u hpre => hall pre (post ++ [a]) u (by rw [hpre, List.append_assoc])
    obtain ⟨hsync, hright⟩ := run_right hs has
    have hlast := hall (as ++ [a]) [] t (List.append_nil _).symm (Machine.run_snoc.mpr ⟨s, hs, ht⟩)
    exact (Machine.along_snoc hs).mpr ⟨has, (step_right_iff hsync hright ht).mp hlast⟩

/-- Whenever no handler runs, a probe event calls the handler registered last if interrupts are
enabled, and nothing otherwise. -/
theorem probe_calls_registered (as : List (Act H)) (s : State H)
    (h : Machine.run step as init = some s) (hc : Machine.Along step Disciplined as init)
    (hf : s.frames = []) :
    ∃ t, step s .probe = some t ∧ t.frames.map Frame.handler = (expected s).toList := by
  have hright := (run_right h hc).2
  have hout : inTrampoline s = false := by
    unfold inTrampoline
    rw [hf]
    rfl
  refine ⟨probe s, rfl, ?_⟩
  rw [frames_probe, hf, hright hout]
  simp

/-- Two nested pairs around a registered handler, and a handler that disables and enables
interrupts again. -/
theorem probe_calls_registered_pairs :
    ∃ s : State Nat, Machine.run step [.registerCi 1000 5000 7, .ciDisable, .ciDisable, .ciEnable,
      .ciEnable, .probe, .ciDisable, .ciEnable, .ret] init = some s ∧
      ∃ t, step s .probe = some t ∧ t.frames.map Frame.handler = [7] := by
  obtain ⟨s, hs⟩ : ∃ s : State Nat, Machine.run step
    [.registerCi 1000 5000 7, .ciDisable, .ciDisable,
      .ciEnable, .ciEnable, .probe, .ciDisable, .ciEnable, .ret] init = some s := ⟨_, rfl⟩
  have hf : s.frames = [] ∧ expected s = some 7 := by
    cases hs
    exact ⟨rfl, rfl⟩
  obtain ⟨t, ht, hcalls⟩ := probe_calls_registered _ s hs
    (by simp [Machine.Along, step, Disciplined, inTrampoline, MayReturn, Restorable, registerCi,
      ciDisable, ciEnable, probe, ret, init]) hf.1
  rw [hf.2] at hcalls
  exact ⟨s, hs, t, ht, hcalls⟩

/-- A handler registered directly is lost by disabling and enabling interrupts once: a probe event
then calls nothing. -/
theorem direct_handler_lost :
    ∃ s t : State Nat, Machine.run step [.registerCiDirect 9000 1000 7, .ciDisable, .ciEnable] init
        = some s ∧
      s.frames = [] ∧ s.lcDisabledCount = 0 ∧ s.registration = .direct 7 ∧
      step s .probe = some t ∧ t.frames.map Frame.handler = [] ∧ (expected s).toList = [7] :=
  ⟨_, _, rfl, rfl, rfl, rfl, rfl, rfl, rfl⟩

end TinyQuanta.CiProtocol
