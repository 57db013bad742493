import TinyQuanta.CiLib

/-!
# Reentry of a handler

`interrupt_handler` keeps `app_handler` from being called again by leaving
`dummy` in the hook while it runs. The handler may execute probes and pairs of
`ci_disable` and `ci_enable`; the end of an outermost pair puts
`interrupt_handler` back into the hook, and from then on nothing protects the
running handler.
-/
namespace TinyQuanta.CiReentry

open Params CiLib

variable {H : Type}

/-- Probe events and properly nested pairs, `depth` of them open at the start. The last pairs may
still be open at the end. -/
def Nested : Nat → List (Act H) → Prop
  | _, [] => True
  | depth, .probe :: as => Nested depth as
  | depth, .ciDisable :: as => Nested (depth + 1) as
  | depth + 1, .ciEnable :: as => Nested depth as
  | _, _ :: _ => False

/-- Some probe event stands outside every pair and after the end of one; `ended` says whether a
pair has ended already. -/
def exposed : Bool → Nat → List (Act H) → Bool
  | _, _, [] => false
  | ended, depth, .probe :: as => ended && depth == 0 || exposed ended depth as
  | ended, depth, .ciDisable :: as => exposed ended (depth + 1) as
  | _, depth + 1, .ciEnable :: as => exposed true depth as
  | ended, depth, _ :: as => exposed ended depth as

theorem nested_cons {a : Act H} {as : List (Act H)} {depth : Nat} (h : Nested depth (a :: as)) :
    (a = .probe ∧ Nested depth as) ∨ (a = .ciDisable ∧ Nested (depth + 1) as) ∨
      ∃ d, depth = d + 1 ∧ a = .ciEnable ∧ Nested d as := by
  cases a with
  | probe => exact .inl ⟨rfl, h⟩
  | ciDisable => exact .inr (.inl ⟨rfl, h⟩)
  | ciEnable =>
    cases depth with
    | zero => exact h.elim
    | succ d => exact .inr (.inr ⟨d, rfl, rfl, h⟩)
  | _ => exact h.elim

theorem probe_frames_length (s : State H) : s.frames.length ≤ (probe s).frames.length := by
  have h := congrArg List.length (frames_probe s)
  simp only [List.length_map, List.length_append] at h
  omega

/-- As long as only such steps are made, no handler returns. -/
theorem nested_frames_length {as : List (Act H)} {depth : Nat} {s t : State H}
    (hn : Nested depth as)
    (h : Machine.run step as s = some t) : s.frames.length ≤ t.frames.length := by
  induction as generalizing depth s with
  | nil =>
    cases h
    exact Nat.le_refl _
  | cons a as ih =>
    obtain ⟨u, hu, ht⟩ := Option.bind_eq_some_iff.mp h
    rcases nested_cons hn with ⟨rfl, htail⟩ | ⟨rfl, htail⟩ | ⟨d, rfl, rfl, htail⟩
    · cases hu
      exact Nat.le_trans (probe_frames_length s) (ih htail ht)
    · cases eq_ciDisable hu
      exact ih (s := ciDisable s) htail ht
    · cases hu
      exact ih (s := ciEnable s) htail ht

/-- The handler `h` runs for the first time, `depth` pairs deep, on top of `base` calls of
`ci_disable` that came before it. -/
structure Running (h : H) (base : Int) (depth : Nat) (ended : Bool) (s : State H) : Prop where
  count : s.lcDisabledCount = base + depth
  app : s.appHandler = some h
  hook : s.intvActionHook =
    if base = 0 ∧ depth = 0 ∧ ended = true then .interruptHandler else .dummy

section

variable {h : H} {base : Int} {depth : Nat} {ended : Bool} {s : State H}

theorem Running.disable (hr : Running h base depth ended s) :
    Running h base (depth + 1) ended (ciDisable s) where
  count := by
    simp only [ciDisable, hr.count]
    omega
  app := hr.app
  hook := by
    rw [if_neg (by omega)]
    rfl

theorem Running.enable (hc : 0 ≤ base) (hr : Running h base (depth + 1) ended s) :
    Running h base depth true (ciEnable s) := by
  have hcount := ciEnable_count (s := s) (by rw [hr.count]; omega)
  rw [hr.count] at hcount
  have hdepth : (ciEnable s).lcDisabledCount = base + depth := by omega
  have hhook : s.intvActionHook = .dummy := by
    rw [hr.hook, if_neg (by omega)]
  refine ⟨hdepth, hr.app, ?_⟩
  change (if (ciEnable s).lcDisabledCount = 0 then Hook.interruptHandler else s.intvActionHook) = _
  rw [hdepth, hhook]
  by_cases hz : base + depth = 0
  · rw [if_pos hz, if_pos ⟨by omega, by omega, rfl⟩]
  · rw [if_neg hz, if_neg (by omega)]

theorem Running.probe_eq (hr : Running h base depth ended s)
    (hp : ¬ (base = 0 ∧ depth = 0 ∧ ended = true)) : probe s = s := by
  have hhook := hr.hook
  rw [if_neg hp] at hhook
  simp only [probe, hhook]

theorem Running.probe_length (hr : Running h base depth ended s)
    (hp : base = 0 ∧ depth = 0 ∧ ended = true) :
    (probe s).frames.length = s.frames.length + 1 := by
  have hhook := hr.hook
  rw [if_pos hp] at hhook
  simp only [probe, hhook, hr.app, List.length_cons]

/-- The handler is entered again at the first exposed probe event, and only there. -/
theorem Running.frames_iff {as : List (Act H)} {t : State H} (hc : 0 ≤ base)
    (hr : Running h base depth ended s) (hn : Nested depth as)
    (ht : Machine.run step as s = some t) :
    t.frames = s.frames ↔ (base = 0 → exposed ended depth as = false) := by
  induction as generalizing depth ended s with
  | nil =>
    cases ht
    exact ⟨fun _ _ => rfl, fun _ => rfl⟩
  | cons a as ih =>
    obtain ⟨u, hu, hrest⟩ := Option.bind_eq_some_iff.mp ht
    rcases nested_cons hn with ⟨rfl, htail⟩ | ⟨rfl, htail⟩ | ⟨d, rfl, rfl, htail⟩
    · cases hu
      by_cases hp : base = 0 ∧ depth = 0 ∧ ended = true
      · -- entered again, and no step of the rest returns from there
        have hlen := nested_frames_length htail hrest
        rw [hr.probe_length hp] at hlen
        obtain ⟨hz, rfl, rfl⟩ := hp
        constructor
        · intro hf
          rw [hf] at hlen
          omega
        · intro he
          have hfalse := he hz
          simp [exposed] at hfalse
      · rw [hr.probe_eq hp] at hrest
        rw [ih hr htail hrest]
        refine forall_congr' fun hz => ?_
        have hhead : (ended && depth == 0) = false := by
          cases ended with
          | false => rfl
          | true =>
            simp only [Bool.true_and, beq_eq_false_iff_ne]
            exact fun hd => hp ⟨hz, hd, rfl⟩
        simp only [exposed, hhead, Bool.false_or]
    · cases eq_ciDisable hu
      have hi := ih hr.disable htail hrest
      exact hi
    · cases hu
      have hi := ih (hr.enable hc) htail hrest
      exact hi

end

/-- A handler installed with `register_ci` is called by a probe event in `s`, and makes the steps
`as` before it returns. It is not called again meanwhile if and only if interrupts were disabled
when it was called or none of its probe events is exposed. -/
theorem not_reentered_iff (hist as : List (Act H)) (h : H) (s t : State H)
    (hs : Machine.run step hist init = some s) (hhook : s.intvActionHook = .interruptHandler)
    (happ : s.appHandler = some h) (hn : Nested 0 as)
    (ht : Machine.run step (.probe :: as) s = some t) :
    t.frames = .interruptHandler h :: s.frames ↔
      (s.lcDisabledCount = 0 → exposed false 0 as = false) := by
  have hprobe : probe s =
      { s with intvActionHook := .dummy, frames := .interruptHandler h :: s.frames } := by
    simp only [probe, hhook, happ]
  have hrun : Machine.run step as (probe s) = some t := ht
  have hr : Running h s.lcDisabledCount 0 false (probe s) := by
    rw [hprobe]
    exact ⟨(Int.add_zero _).symm, happ, (if_neg (by simp)).symm⟩
  have hiff := hr.frames_iff (run_count_nonneg hs) hn hrun
  rw [hprobe] at hiff
  exact hiff

/-- A handler with a probe event inside a pair. -/
theorem not_reentered_iff_inside :
    ∃ s t : State Nat, Machine.run step [.registerCi 1000 5000 7] init = some s ∧
      Machine.run step [.probe, .probe, .ciDisable, .probe, .ciEnable] s = some t ∧
      t.frames = .interruptHandler 7 :: s.frames :=
  ⟨_, _, rfl, rfl, (not_reentered_iff [.registerCi 1000 5000 7]
    [.probe, .ciDisable, .probe, .ciEnable]
    7 _ _ rfl rfl rfl trivial rfl).mpr (by decide)⟩

/-- A handler that makes one pair of calls before a probe event is entered again. -/
theorem pair_then_probe_reenters :
    ∃ s t : State Nat, Machine.run step [.registerCi 1000 5000 7] init = some s ∧
      Nested 0 [Act.ciDisable, Act.ciEnable, (Act.probe : Act Nat)] ∧
      Machine.run step [.probe, .ciDisable, .ciEnable, .probe] s = some t ∧
      t.frames = [.interruptHandler 7, .interruptHandler 7] :=
  ⟨_, _, rfl, trivial, rfl, rfl⟩

end TinyQuanta.CiReentry
