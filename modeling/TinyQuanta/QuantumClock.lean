import TinyQuanta.Machine
import TinyQuanta.Params
import Mathlib.Logic.Function.Basic

/-!
# What a quantum is measured against

One worker that does not use `LAS`, with probes compiled to update `LastCycleTS`
after the hook returns. All coroutines of the worker share that one timestamp. It is
written by the worker before the first resume of a job, and by the code behind the
hook of a probe; the hook call of `__wrap_pthread_mutex_lock` has no such code
behind it.

Time is the cycle counter, which never goes back, so differences are exact.
`resumedAt` and `preemptions` only record what happened.
-/
namespace TinyQuanta.QuantumClock

open Params

/-- Where a coroutine stands: `ready` is a job not started, the two hooks are the places at
which it gave control to the worker loop. -/
inductive Pc where
  | idle | ready | run | probeHook | mutexHook
  deriving DecidableEq, Repr

/-- A probe that preempted the running coroutine. -/
structure Preemption (C : Type) where
  coro : C
  resumedAt : Nat
  now : Nat
  deriving DecidableEq, Repr

structure State (C : Type) where
  now : Nat
  lastCycleTS : Nat
  cur : Option C
  pc : C → Pc
  numQuanta : C → Nat
  resumedAt : Nat
  preemptions : List (Preemption C)

inductive Act (C : Type) where
  | tick (cycles : Nat)
  | bind (c : C)
  | resume (c : C)
  | hookReturn (c : C)
  | probe (c : C)
  | mutexWait (c : C)
  | complete (c : C)

section

variable {C : Type} [DecidableEq C]

/-- `LastCycleTS` starts at 0; the counter has any value. -/
def init (now : Nat) : State C where
  now := now
  lastCycleTS := 0
  cur := none
  pc := fun _ => .idle
  numQuanta := fun _ => 0
  resumedAt := 0
  preemptions := []

/-- `call_the_yield`, and what the loop does with a job that is not finished. -/
def yieldAt (c : C) (p : Pc) (s : State C) : State C :=
  { s with
    cur := none
    pc := Function.update s.pc c p
    numQuanta := Function.update s.numQuanta c (u32 (s.numQuanta c + 1)) }

/-- The worker resumes a coroutine that has a job. -/
def resume (c : C) (s : State C) : State C :=
  { s with
    lastCycleTS := if s.numQuanta c = 0 then s.now else s.lastCycleTS
    cur := some c
    pc := Function.update s.pc c (if s.pc c = .ready then .run else s.pc c)
    resumedAt := s.now }

/-- A probe: it compares the time since `LastCycleTS` with `ci_cycles_threshold`. -/
def probe (threshold : Int) (c : C) (s : State C) : State C :=
  if threshold < (s.now : Int) - s.lastCycleTS then
    { yieldAt c .probeHook s with
      preemptions := s.preemptions ++ [⟨c, s.resumedAt, s.now⟩] }
  else s

def step (threshold : Int) (s : State C) : Act C → Option (State C)
  | .tick cycles => some { s with now := s.now + cycles }
  | .bind c =>
    if s.cur = none ∧ s.pc c = .idle then
      some { s with
        pc := Function.update s.pc c .ready
        numQuanta := Function.update s.numQuanta c 0 }
    else none
  | .resume c => if s.cur = none ∧ s.pc c ≠ .idle then some (resume c s) else none
  | .hookReturn c =>
    if s.cur = some c ∧ s.pc c = .probeHook then
      some { s with lastCycleTS := s.now, pc := Function.update s.pc c .run }
    else if s.cur = some c ∧ s.pc c = .mutexHook then
      some { s with pc := Function.update s.pc c .run }
    else none
  | .probe c => if s.cur = some c ∧ s.pc c = .run then some (probe threshold c s) else none
  | .mutexWait c =>
    if s.cur = some c ∧ s.pc c = .run then some (yieldAt c .mutexHook s) else none
  | .complete c =>
    if s.cur = some c ∧ s.pc c = .run then
      some { s with cur := none, pc := Function.update s.pc c .idle }
    else none

/-- No coroutine comes back from a wait for a mutex. -/
def NoMutexResume (s : State C) : Act C → Prop
  | .resume c => s.pc c ≠ .mutexHook
  | _ => True

instance (s : State C) : ∀ a, Decidable (NoMutexResume s a)
  | .resume c => inferInstanceAs (Decidable (s.pc c ≠ .mutexHook))
  | .tick _ => isTrue trivial
  | .bind _ => isTrue trivial
  | .hookReturn _ => isTrue trivial
  | .probe _ => isTrue trivial
  | .mutexWait _ => isTrue trivial
  | .complete _ => isTrue trivial

/-- The timestamp is not older than the resume of the coroutine that runs by it. -/
structure Inv (threshold : Int) (s : State C) : Prop where
  clock : s.resumedAt ≤ s.now
  running : ∀ c, s.pc c = .run → s.cur = some c
  ready : ∀ c, s.pc c = .ready → s.numQuanta c = 0
  noMutex : ∀ c, s.cur = some c → s.pc c ≠ .mutexHook
  stamped : ∀ c, s.cur = some c → s.pc c = .run → s.resumedAt ≤ s.lastCycleTS
  charged : ∀ p ∈ s.preemptions, threshold < (p.now : Int) - p.resumedAt

variable {threshold : Int} {s t : State C} {c : C}

omit [DecidableEq C] in
theorem init_inv (now : Nat) : Inv threshold (init now : State C) := by
  constructor <;> simp [init]

/-- The place of a coroutine after one of them has moved. -/
theorem update_pc {pc : C → Pc} {d : C} {p q : Pc} (h : Function.update pc c p d = q) :
    d = c ∧ p = q ∨ d ≠ c ∧ pc d = q := by
  by_cases hd : d = c
  · rw [hd, Function.update_self] at h
    exact .inl ⟨hd, h⟩
  · rw [Function.update_of_ne hd] at h
    exact .inr ⟨hd, h⟩

/-- A coroutine leaves `run`, and nobody runs. -/
theorem Inv.leave (h : Inv threshold s) (hc : s.cur = some c) {p : Pc} (hr : p ≠ .run)
    (hp : p ≠ .ready) (numQuanta : C → Nat) (hn : ∀ d, d ≠ c → numQuanta d = s.numQuanta d) :
    Inv threshold { s with
      cur := none, pc := Function.update s.pc c p, numQuanta := numQuanta } where
  clock := h.clock
  running d hd := by
    rcases update_pc hd with ⟨-, hp'⟩ | ⟨hne, hd⟩
    · exact absurd hp' hr
    · have hcur := h.running d hd
      rw [hc] at hcur
      exact absurd (Option.some.inj hcur).symm hne
  ready d hd := by
    rcases update_pc hd with ⟨-, hp'⟩ | ⟨hne, hd⟩
    · exact absurd hp' hp
    · exact (hn d hne).trans (h.ready d hd)
  noMutex d hd := by cases hd
  stamped d hd := by cases hd
  charged := h.charged

theorem Inv.yieldAt (h : Inv threshold s) (hc : s.cur = some c) {p : Pc} (hr : p ≠ .run)
    (hp : p ≠ .ready) : Inv threshold (yieldAt c p s) :=
  h.leave hc hr hp _ fun d hd => by rw [Function.update_of_ne hd]

/-- A job that starts gets a new timestamp; one that was preempted is not in `run` yet. -/
theorem Inv.resume (h : Inv threshold s) (hcur : s.cur = none) (hm : s.pc c ≠ .mutexHook) :
    Inv threshold (resume c s) := by
  have hnot : ∀ d, s.pc d ≠ .run := by
    intro d hd
    have hd' := h.running d hd
    rw [hcur] at hd'
    cases hd'
  refine ⟨Nat.le_refl _, fun d hd => ?_, fun d hd => ?_, fun d hd => ?_, fun d hd hr => ?_,
    h.charged⟩
  · rcases update_pc hd with ⟨he, -⟩ | ⟨-, hd⟩
    · exact congrArg some he.symm
    · exact absurd hd (hnot d)
  · rcases update_pc hd with ⟨-, hp⟩ | ⟨-, hd⟩
    · split at hp
      · cases hp
      · contradiction
    · exact h.ready d hd
  · cases hd
    simp only [QuantumClock.resume, Function.update_self]
    split
    · simp
    · exact hm
  · cases hd
    simp only [QuantumClock.resume, Function.update_self] at hr ⊢
    by_cases hp : s.pc c = .ready
    · exact Nat.le_of_eq (if_pos (h.ready c hp)).symm
    · rw [if_neg hp] at hr
      exact absurd hr (hnot c)

/-- The code behind the hook of a probe. -/
theorem Inv.stamp (h : Inv threshold s) (hc : s.cur = some c) :
    Inv threshold { s with lastCycleTS := s.now, pc := Function.update s.pc c .run } where
  clock := h.clock
  running d hd := by
    rcases update_pc hd with ⟨he, -⟩ | ⟨-, hd⟩
    · exact he ▸ hc
    · exact h.running d hd
  ready d hd := by
    rcases update_pc hd with ⟨-, hp⟩ | ⟨-, hd⟩
    · cases hp
    · exact h.ready d hd
  noMutex d hd hm := by
    rcases update_pc hm with ⟨-, hp⟩ | ⟨-, hm⟩
    · cases hp
    · exact h.noMutex d hd hm
  stamped _ _ _ := h.clock
  charged := h.charged

/-- A probe that fires charges the coroutine for its own time only. -/
theorem Inv.probe (h : Inv threshold s) (hc : s.cur = some c) (hp : s.pc c = .run) :
    Inv threshold (probe threshold c s) := by
  unfold QuantumClock.probe
  split
  · rename_i hlt
    have hy := h.yieldAt hc (p := .probeHook) (by simp) (by simp)
    have hst := h.stamped c hc hp
    refine { hy with charged := fun p hm => ?_ }
    rcases List.mem_append.mp hm with hm | hm
    · exact h.charged p hm
    · cases List.mem_singleton.mp hm
      simp only
      omega
  · exact h

theorem Inv.bind (h : Inv threshold s) (hcur : s.cur = none) :
    Inv threshold { s with
      pc := Function.update s.pc c .ready, numQuanta := Function.update s.numQuanta c 0 } where
  clock := h.clock
  running d hd := by
    rcases update_pc hd with ⟨-, hp⟩ | ⟨-, hd⟩
    · cases hp
    · exact h.running d hd
  ready d hd := by
    rcases update_pc hd with ⟨he, -⟩ | ⟨hne, hd⟩
    · simp only [he, Function.update_self]
    · simp only [Function.update_of_ne hne]
      exact h.ready d hd
  noMutex d hd := by
    simp only [hcur] at hd
    cases hd
  stamped d hd := by
    simp only [hcur] at hd
    cases hd
  charged := h.charged

theorem step_inv (h : Inv threshold s) {a : Act C} (hn : NoMutexResume s a)
    (ht : step threshold s a = some t) : Inv threshold t := by
  cases a with
  | tick cycles =>
    cases ht
    exact { h with clock := Nat.le_trans h.clock (Nat.le_add_right _ _) }
  | bind c =>
    simp only [step, Option.ite_none_right_eq_some, Option.some.injEq] at ht
    obtain ⟨⟨hcur, -⟩, rfl⟩ := ht
    exact h.bind hcur
  | resume c =>
    simp only [step, Option.ite_none_right_eq_some, Option.some.injEq] at ht
    obtain ⟨⟨hcur, -⟩, rfl⟩ := ht
    exact h.resume hcur hn
  | hookReturn c =>
    simp only [step] at ht
    split at ht
    · rename_i hc
      cases ht
      exact h.stamp hc.1
    · simp only [Option.ite_none_right_eq_some, Option.some.injEq] at ht
      obtain ⟨⟨hc, hm⟩, -⟩ := ht
      exact absurd hm (h.noMutex c hc)
  | probe c =>
    simp only [step, Option.ite_none_right_eq_some, Option.some.injEq] at ht
    obtain ⟨⟨hc, hp⟩, rfl⟩ := ht
    exact h.probe hc hp
  | mutexWait c =>
    simp only [step, Option.ite_none_right_eq_some, Option.some.injEq] at ht
    obtain ⟨⟨hc, -⟩, rfl⟩ := ht
    exact h.yieldAt hc (by simp) (by simp)
  | complete c =>
    simp only [step, Option.ite_none_right_eq_some, Option.some.injEq] at ht
    obtain ⟨⟨hc, -⟩, rfl⟩ := ht
    exact h.leave hc (by simp) (by simp) _ fun _ _ => rfl

/-- If no coroutine is resumed that yielded while it waited for a mutex, every coroutine that a
probe preempted had been running for more than the threshold since it was resumed. -/
theorem preempted_after_quantum (threshold : Int) (now : Nat) (as : List (Act C)) (s : State C)
    (h : Machine.run (step threshold) as (init now) = some s)
    (ha : Machine.Along (step threshold) NoMutexResume as (init now)) :
    ∀ p ∈ s.preemptions, threshold < (p.now : Int) - p.resumedAt := by
  have hi : Inv threshold s := Machine.run_invariant (init_inv now)
    (fun _ _ _ hs hn ht => step_inv hs hn ht) h ha
  exact hi.charged

end

/-- Nine tenths of the shipped quantum of 5200 cycles. -/
def shippedThreshold : Int := 4680

/-- Two jobs, one after the other, that run past the threshold. -/
def twoPreemptions : List (Act Nat) :=
  [.bind 0, .bind 1, .resume 0, .tick 5200, .probe 0, .resume 1, .tick 4000, .probe 1, .tick 700,
    .probe 1]

theorem preempted_after_quantum_two :
    ∃ s, Machine.run (step shippedThreshold) twoPreemptions (init 0) = some s ∧
      s.preemptions = [⟨0, 0, 5200⟩, ⟨1, 5200, 9900⟩] ∧
      Machine.Along (step shippedThreshold) NoMutexResume twoPreemptions (init 0) ∧
      ∀ p ∈ s.preemptions, shippedThreshold < p.now - p.resumedAt := by
  have ha : Machine.Along (step shippedThreshold) NoMutexResume twoPreemptions (init 0) := by decide
  exact ⟨_, rfl, rfl, ha, preempted_after_quantum shippedThreshold 0 twoPreemptions _ rfl ha⟩

/-- Coroutine 0 is preempted in a critical section; coroutine 1 starts, finds the mutex taken and
yields; 0 goes on for 4500 cycles and ends; 1 is resumed and gets the mutex. Its first probe,
after 200 cycles, charges it with the 4500 of the other. -/
def sharedMutex : List (Act Nat) :=
  [.bind 0, .resume 0, .tick 5200, .probe 0, .bind 1, .resume 1, .tick 10, .mutexWait 1,
    .resume 0, .hookReturn 0, .tick 4500, .complete 0, .resume 1, .hookReturn 1, .tick 200,
    .probe 1]

theorem sharedMutex_charges_other :
    ∃ s, Machine.run (step shippedThreshold) sharedMutex (init 0) = some s ∧ ∃ p ∈ s.preemptions,
      p.coro = 1 ∧ (p.now : Int) - p.resumedAt = 200 ∧
        ¬ shippedThreshold < (p.now : Int) - p.resumedAt :=
  ⟨_, rfl, ⟨1, 9710, 9910⟩, by decide, rfl, by decide, by decide⟩

end TinyQuanta.QuantumClock
