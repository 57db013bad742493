import TinyQuanta.Machine
import Mathlib.Logic.Function.Basic

/-!
# Mutexes shared by coroutines

`__wrap_pthread_mutex_lock` for any number of threads, coroutines per thread and
mutexes. A thread runs one of its coroutines, or its worker loop; control leaves a
coroutine only inside `intvActionHook` or at the end of a job. Threads interleave
at every access to a mutex.

What glibc does is assumed as documented, with the lock word and `__owner` written
one after the other: `pthread_mutex_trylock` takes a free mutex and then records
the thread, succeeds at once if the mutex is recursive and the thread is its
owner, and fails with `EBUSY` if it is taken otherwise; `pthread_mutex_unlock`
clears the owner at the last release and then frees the mutex. `cp_pid` of a
thread is its own thread id.
-/
namespace TinyQuanta.CoroMutex

inductive Kind where
  | normal | recursive
  deriving DecidableEq, Repr

/-- The thread each coroutine belongs to and the kind of each mutex. -/
structure System (T C M : Type) where
  thread : C → T
  kind : M → Kind

/-- Where a coroutine stands. `run` is any code of a job, in a critical section or not; `hook`
is inside `intvActionHook`, called by a probe or by the lock function for the given mutex. -/
inductive Pc (M : Type) where
  | idle
  | run
  | hook (wanted : Option M)
  | check (m : M)
  | trylock (m : M)
  | acquired (m : M)
  | releasing (m : M)

/-- `holds` counts the successful locks of a mutex by a coroutine that it has not unlocked. -/
structure State (T C M : Type) where
  cur : T → Option C
  pc : C → Pc M
  taken : M → Bool
  owner : M → Option T
  count : M → Nat
  holds : C → M → Nat

inductive Instr (M : Type) where
  | start | finish
  | resume | yield
  | probe | hookReturn
  | lock (m : M)
  | check
  | trylock | trylockError | setOwner
  | unlock (m : M)
  | release

section Model

variable {T C M : Type}

def init : State T C M where
  cur := fun _ => none
  pc := fun _ => .idle
  taken := fun _ => false
  owner := fun _ => none
  count := fun _ => 0
  holds := fun _ _ => 0

variable [DecidableEq C]

def State.goto (s : State T C M) (c : C) (p : Pc M) : State T C M :=
  { s with pc := Function.update s.pc c p }

@[simp] theorem goto_pc (s : State T C M) (c : C) (p : Pc M) (d : C) :
    (s.goto c p).pc d = if d = c then p else s.pc d := by
  simp [State.goto, Function.update_apply]

@[simp] theorem goto_holds (s : State T C M) (c : C) (p : Pc M) :
    (s.goto c p).holds = s.holds := rfl

variable [DecidableEq M]

def State.setHolds (s : State T C M) (c : C) (m : M) (n : Nat) : State T C M :=
  { s with holds := Function.update s.holds c (Function.update (s.holds c) m n) }

@[simp] theorem setHolds_holds (s : State T C M) (c : C) (m : M) (n : Nat) (d : C) (k : M) :
    (s.setHolds c m n).holds d k = if d = c ∧ k = m then n else s.holds d k := by
  by_cases hd : d = c
  · subst hd
    simp [State.setHolds, Function.update_apply]
  · simp [State.setHolds, hd]

variable [DecidableEq T]

/-- `pthread_mutex_trylock`, up to the point where the lock word is taken. -/
def tryLock (sys : System T C M) (c : C) (m : M) (s : State T C M) : State T C M :=
  if sys.kind m = .recursive ∧ s.owner m = some (sys.thread c) then
    { (s.goto c .run).setHolds c m (s.holds c m + 1) with
      count := Function.update s.count m (s.count m + 1) }
  else if s.taken m then s.goto c (.hook (some m))
  else { s.goto c (.acquired m) with taken := Function.update s.taken m true }

/-- `pthread_mutex_unlock`, up to the point where the owner is cleared. -/
def unlock (sys : System T C M) (c : C) (m : M) (s : State T C M) : State T C M :=
  if sys.kind m = .recursive ∧ 1 < s.count m then
    { s.setHolds c m (s.holds c m - 1) with
      count := Function.update s.count m (s.count m - 1) }
  else { s.goto c (.releasing m) with owner := Function.update s.owner m none }

/-- One instruction of the coroutine that its thread is running. -/
def exec (sys : System T C M) (c : C) (s : State T C M) : Instr M → Option (State T C M)
  | .start => match s.pc c with
    | .idle => some (s.goto c .run)
    | _ => none
  | .finish => match s.pc c with
    | .run => some (s.goto c .idle)
    | _ => none
  | .resume => none
  | .yield => match s.pc c with
    | .idle => some { s with cur := Function.update s.cur (sys.thread c) none }
    | .hook _ => some { s with cur := Function.update s.cur (sys.thread c) none }
    | _ => none
  | .probe => match s.pc c with
    | .run => some (s.goto c (.hook none))
    | _ => none
  | .hookReturn => match s.pc c with
    | .hook none => some (s.goto c .run)
    | .hook (some m) => some (s.goto c (.check m))
    | _ => none
  | .lock m => match s.pc c with
    | .run => some (s.goto c (.check m))
    | _ => none
  | .check => match s.pc c with
    | .check m =>
      some (s.goto c (if s.owner m = some (sys.thread c) then .hook (some m) else .trylock m))
    | _ => none
  | .trylock => match s.pc c with
    | .trylock m => some (tryLock sys c m s)
    | _ => none
  | .trylockError => match s.pc c with
    | .trylock _ => some (s.goto c .run)
    | _ => none
  | .setOwner => match s.pc c with
    | .acquired m => some { (s.goto c .run).setHolds c m (s.holds c m + 1) with
        owner := Function.update s.owner m (some (sys.thread c))
        count := Function.update s.count m 1 }
    | _ => none
  | .unlock m => match s.pc c with
    | .run => if 0 < s.holds c m then some (unlock sys c m s) else none
    | _ => none
  | .release => match s.pc c with
    | .releasing m => some { (s.goto c .run).setHolds c m (s.holds c m - 1) with
        taken := Function.update s.taken m false }
    | _ => none

/-- The worker loop resumes a coroutine, or the running coroutine of a thread goes on. -/
def step (sys : System T C M) (s : State T C M) (a : C × Instr M) : Option (State T C M) :=
  match a.2 with
  | .resume =>
    if s.cur (sys.thread a.1) = none then
      some { s with cur := Function.update s.cur (sys.thread a.1) (some a.1) }
    else none
  | i => if s.cur (sys.thread a.1) = some a.1 then exec sys a.1 s i else none

end Model

/-! ## The four phases of a mutex -/

/-- What a mutex is for: one coroutine at a time takes it, holds it and gives it back. -/
inductive Phase (C : Type) where
  | free
  | taking (c : C)
  | held (c : C)
  | giving (c : C)

section Phases

variable {T C M : Type}

def Phase.user : Phase C → Option C
  | .free => none
  | .taking c => some c
  | .held c => some c
  | .giving c => some c

/-- The coroutine has nothing to do with the mutex beyond wanting it. -/
structure Out (s : State T C M) (d : C) (m : M) : Prop where
  holds : s.holds d m = 0
  acquired : s.pc d ≠ .acquired m
  releasing : s.pc d ≠ .releasing m

/-- The memory of the mutex, and the place of its user, in each phase. -/
def Shows (sys : System T C M) (s : State T C M) (m : M) : Phase C → Prop
  | .free => s.taken m = false ∧ s.owner m = none
  | .taking c => s.owner m = none ∧ s.pc c = .acquired m ∧ s.holds c m = 0
  | .held c => s.owner m = some (sys.thread c) ∧ s.count m = 1 ∧ s.holds c m = 1 ∧
      s.pc c ≠ .acquired m ∧ s.pc c ≠ .releasing m
  | .giving c => s.owner m = none ∧ s.pc c = .releasing m ∧ s.holds c m = 1

structure InPhase (sys : System T C M) (s : State T C M) (m : M) (ph : Phase C) : Prop where
  shows : Shows sys s m ph
  taken : ∀ c, ph.user = some c → s.taken m = true
  others : ∀ d, ph.user ≠ some d → Out s d m

/-- The places where control cannot leave the coroutine. -/
def Pinned : Pc M → Prop
  | .check _ => True
  | .trylock _ => True
  | .acquired _ => True
  | .releasing _ => True
  | _ => False

/-- Every mutex is in a phase. A coroutine between two steps of the lock code is the running one
of its thread, and one that has read the owner is not of the owner's thread. -/
structure Inv (sys : System T C M) (s : State T C M) : Prop where
  pinned : ∀ c, Pinned (s.pc c) → s.cur (sys.thread c) = some c
  tries : ∀ m c, s.pc c = .trylock m → s.owner m ≠ some (sys.thread c)
  phase : ∀ m, ∃ ph, InPhase sys s m ph

theorem init_inv (sys : System T C M) : Inv sys init where
  pinned c hc := absurd hc id
  tries m c hc := by cases hc
  phase m := ⟨.free, ⟨rfl, rfl⟩, fun c hc => (by cases hc), fun d _ =>
    ⟨rfl, fun h => (by cases h), fun h => (by cases h)⟩⟩

variable {sys : System T C M} {s t : State T C M} {c : C} {m : M}

/-- Two states that agree on a mutex and on who is in its two calls. -/
structure Agree (s t : State T C M) (m : M) : Prop where
  taken : t.taken m = s.taken m
  owner : t.owner m = s.owner m
  count : t.count m = s.count m
  holds : ∀ d, t.holds d m = s.holds d m
  acquired : ∀ d, t.pc d = .acquired m ↔ s.pc d = .acquired m
  releasing : ∀ d, t.pc d = .releasing m ↔ s.pc d = .releasing m

theorem Agree.inPhase (h : Agree s t m) {ph : Phase C} (hp : InPhase sys s m ph) :
    InPhase sys t m ph where
  shows := by
    have hs := hp.shows
    cases ph with
    | free => simpa only [Shows, h.taken, h.owner] using hs
    | taking c => simpa only [Shows, h.owner, h.acquired, h.holds] using hs
    | held c => simpa only [Shows, h.owner, h.count, h.holds, ne_eq, h.acquired,
        h.releasing] using hs
    | giving c => simpa only [Shows, h.owner, h.releasing, h.holds] using hs
  taken c hc := by rw [h.taken]; exact hp.taken c hc
  others d hd := by
    obtain ⟨h₁, h₂, h₃⟩ := hp.others d hd
    exact ⟨by rw [h.holds]; exact h₁, by rwa [ne_eq, h.acquired], by rwa [ne_eq, h.releasing]⟩

/-- A place outside the two calls that are under way on a mutex. -/
def Plain (p : Pc M) (m : M) : Prop := p ≠ .acquired m ∧ p ≠ .releasing m

theorem InPhase.eq_free {ph : Phase C} (h : InPhase sys s m ph) (hf : s.taken m = false) :
    ph = .free := by
  cases hu : ph.user with
  | none => cases ph <;> first | rfl | cases hu
  | some c =>
    have ht := h.taken c hu
    rw [hf] at ht
    cases ht

/-- A coroutine that is not out of the mutex is its user. -/
theorem InPhase.user_eq [DecidableEq C] {ph : Phase C} (h : InPhase sys s m ph) (hc : ¬ Out s c m) :
    ph.user = some c := by
  by_contra hne
  exact hc (h.others c hne)

theorem phase_step [DecidableEq M] (h : Inv sys s) (m : M) (ph : Phase C) (hm : InPhase sys t m ph)
    (hk : ∀ k, k ≠ m → Agree s t k) (k : M) : ∃ ph, InPhase sys t k ph := by
  by_cases he : k = m
  · subst he
    exact ⟨ph, hm⟩
  · obtain ⟨ph', hph⟩ := h.phase k
    exact ⟨ph', (hk k he).inPhase hph⟩

/-- Another coroutine may run when the current one is not pinned. -/
theorem Inv.setCur [DecidableEq T] (h : Inv sys s) {t : T} (o : Option C)
    (hn : ∀ d, sys.thread d = t → ¬ Pinned (s.pc d)) :
    Inv sys { s with cur := Function.update s.cur t o } where
  pinned d hd := by
    have hne : sys.thread d ≠ t := fun he => hn d he hd
    simpa [hne] using h.pinned d hd
  tries := h.tries
  phase k := by
    obtain ⟨ph, hph⟩ := h.phase k
    exact ⟨ph, hph.shows, hph.taken, fun d hd => ⟨(hph.others d hd).1, (hph.others d hd).2,
      (hph.others d hd).3⟩⟩

end Phases

/-! ## Steps -/

section Steps

variable {T C M : Type} [DecidableEq C] {sys : System T C M} {s t : State T C M} {c : C} {m : M}

/-- Moving between places that are plain for the mutex. -/
theorem goto_agree {p : Pc M} (hp : Plain (s.pc c) m) (hq : Plain p m) :
    Agree s (s.goto c p) m where
  taken := rfl
  owner := rfl
  count := rfl
  holds _ := rfl
  acquired d := by
    rw [goto_pc]
    by_cases hd : d = c
    · rw [if_pos hd, hd]
      exact ⟨fun he => absurd he hq.1, fun he => absurd he hp.1⟩
    · rw [if_neg hd]
  releasing d := by
    rw [goto_pc]
    by_cases hd : d = c
    · rw [if_pos hd, hd]
      exact ⟨fun he => absurd he hq.2, fun he => absurd he hp.2⟩
    · rw [if_neg hd]

/-- What the running coroutine does to the places. -/
theorem pinned_goto (h : Inv sys s) (hc : s.cur (sys.thread c) = some c) {p : Pc M} (d : C)
    (hd : Pinned ((s.goto c p).pc d)) : s.cur (sys.thread d) = some d := by
  rw [goto_pc] at hd
  by_cases he : d = c
  · rw [he]
    exact hc
  · rw [if_neg he] at hd
    exact h.pinned d hd

/-- Who is about to try after the running coroutine has gone elsewhere. -/
theorem goto_tries {p : Pc M} {k : M} {d : C} (hp : p ≠ .trylock k)
    (hd : (s.goto c p).pc d = .trylock k) : d ≠ c ∧ s.pc d = .trylock k := by
  rw [goto_pc] at hd
  by_cases he : d = c
  · rw [if_pos he] at hd
    exact absurd hd hp
  · rw [if_neg he] at hd
    exact ⟨he, hd⟩

theorem Inv.goto (h : Inv sys s) (hc : s.cur (sys.thread c) = some c) {p : Pc M}
    (hp : ∀ m, Plain (s.pc c) m) (hq : ∀ m, Plain p m)
    (ht : ∀ m, p = .trylock m → s.owner m ≠ some (sys.thread c)) : Inv sys (s.goto c p) where
  pinned := pinned_goto h hc
  tries m d hd := by
    rw [goto_pc] at hd
    by_cases he : d = c
    · rw [if_pos he] at hd
      rw [he]
      exact ht m hd
    · rw [if_neg he] at hd
      exact h.tries m d hd
  phase m := by
    obtain ⟨ph, hph⟩ := h.phase m
    exact ⟨ph, (goto_agree (hp m) (hq m)).inPhase hph⟩

/-- A step of `c` on one mutex, seen from another one. -/
theorem goto_agree_with {p : Pc M} (hp : Plain (s.pc c) m) (hq : Plain p m)
    (hpc : t.pc = (s.goto c p).pc) (h₁ : t.taken m = s.taken m) (h₂ : t.owner m = s.owner m)
    (h₃ : t.count m = s.count m) (h₄ : ∀ d, t.holds d m = s.holds d m) : Agree s t m := by
  have h : Agree s (s.goto c p) m := goto_agree hp hq
  refine ⟨h₁, h₂, h₃, h₄, ?_, ?_⟩
  · rw [hpc]
    exact h.acquired
  · rw [hpc]
    exact h.releasing

/-! ## What the place of a coroutine says about the phase -/

theorem InPhase.eq_taking {ph : Phase C} (h : InPhase sys s m ph) (hp : s.pc c = .acquired m) :
    ph = .taking c := by
  have hu := h.user_eq (fun ho => ho.acquired hp)
  have hs := h.shows
  cases ph with
  | free => cases hu
  | taking d => cases hu; rfl
  | held d => cases hu; exact absurd hp hs.2.2.2.1
  | giving d =>
    cases hu
    rw [hs.2.1] at hp
    cases hp

theorem InPhase.eq_giving {ph : Phase C} (h : InPhase sys s m ph) (hp : s.pc c = .releasing m) :
    ph = .giving c := by
  have hu := h.user_eq (fun ho => ho.releasing hp)
  have hs := h.shows
  cases ph with
  | free => cases hu
  | taking d =>
    cases hu
    rw [hs.2.1] at hp
    cases hp
  | held d => cases hu; exact absurd hp hs.2.2.2.2
  | giving d => cases hu; rfl

theorem InPhase.eq_held {ph : Phase C} (h : InPhase sys s m ph) (hh : 0 < s.holds c m)
    (hp : Plain (s.pc c) m) : ph = .held c := by
  have hu := h.user_eq (c := c) (fun ho => by rw [ho.holds] at hh; cases hh)
  have hs := h.shows
  cases ph with
  | free => cases hu
  | taking d => cases hu; exact absurd hs.2.1 hp.1
  | held d => cases hu; rfl
  | giving d => cases hu; exact absurd hs.2.1 hp.2

/-! ## The transitions -/

theorem Out.goto_ne {d : C} (h : Out s d m) (hd : d ≠ c) {t : State T C M} {p : Pc M}
    (hpc : t.pc = (s.goto c p).pc) (hh : t.holds d m = s.holds d m) : Out t d m := by
  have he : t.pc d = s.pc d := by rw [hpc, goto_pc, if_neg hd]
  exact ⟨hh.trans h.holds, by rw [he]; exact h.acquired, by rw [he]; exact h.releasing⟩

/-- Everybody but the user of the mutex stays out of it. -/
theorem InPhase.others_goto {ph : Phase C} (h : InPhase sys s m ph)
    (hu : ∀ d, d ≠ c → ph.user ≠ some d) {t : State T C M} {p : Pc M}
    (hpc : t.pc = (s.goto c p).pc) (hh : ∀ d, d ≠ c → t.holds d m = s.holds d m) (d : C)
    (hd : some c ≠ some d) : Out t d m := by
  have hne : d ≠ c := fun he => hd (congrArg some he.symm)
  exact (h.others d (hu d hne)).goto_ne hne hpc (hh d hne)

variable [DecidableEq M]

/-- The lock word of a free mutex is taken. -/
theorem Inv.acquire (h : Inv sys s) (hp : s.pc c = .trylock m) (hf : s.taken m = false) :
    Inv sys { s.goto c (.acquired m) with taken := Function.update s.taken m true } := by
  have hc := h.pinned c (by rw [hp]; trivial)
  obtain ⟨ph, hph⟩ := h.phase m
  cases hph.eq_free hf
  refine ⟨pinned_goto h hc, fun k d hd => ?_, phase_step h m (.taking c) ⟨?_, ?_, ?_⟩ ?_⟩
  · exact h.tries k d (goto_tries (by simp) hd).2
  · exact ⟨hph.shows.2, by simp, (hph.others c (by simp [Phase.user])).holds⟩
  · intro d _
    simp
  · exact hph.others_goto (by simp [Phase.user]) rfl fun _ _ => rfl
  · intro k hk
    refine goto_agree_with (c := c) (p := .acquired m) ?_ ?_ rfl ?_ rfl rfl fun _ => rfl
    · simp [Plain, hp]
    · simp [Plain, Ne.symm hk]
    · simp [hk]

/-- `__owner` is set. No other coroutine of the thread is past its test of the owner. -/
theorem Inv.setOwner (h : Inv sys s) (hp : s.pc c = .acquired m) :
    Inv sys { (s.goto c .run).setHolds c m (s.holds c m + 1) with
      owner := Function.update s.owner m (some (sys.thread c))
      count := Function.update s.count m 1 } := by
  have hc := h.pinned c (by rw [hp]; trivial)
  obtain ⟨ph, hph⟩ := h.phase m
  cases hph.eq_taking hp
  refine ⟨pinned_goto h hc, fun k d hd => ?_, phase_step h m (.held c) ⟨?_, ?_, ?_⟩ ?_⟩
  · obtain ⟨hne, htry⟩ := goto_tries (by simp) hd
    by_cases hk : k = m
    · subst hk
      have hcur := h.pinned d (by rw [htry]; trivial)
      simp only [Function.update_self, ne_eq, Option.some.injEq]
      intro hth
      rw [← hth, hc] at hcur
      exact hne (Option.some.inj hcur).symm
    · simpa [hk] using h.tries k d htry
  · refine ⟨by simp, by simp, ?_, ?_, ?_⟩
    · simp [hph.shows.2.2]
    · change (s.goto c .run).pc c ≠ _
      simp
    · change (s.goto c .run).pc c ≠ _
      simp
  · intro d _
    exact hph.taken c rfl
  · exact hph.others_goto (by simp [Phase.user, eq_comm]) rfl fun d hd => by simp [hd]
  · intro k hk
    refine goto_agree_with (c := c) (p := .run) ?_ ?_ rfl rfl ?_ ?_ fun d => ?_
    · simp [Plain, hp, Ne.symm hk]
    · simp [Plain]
    · simp [hk]
    · simp [hk]
    · simp [hk]

/-- The owner is cleared. -/
theorem Inv.clear (h : Inv sys s) (hc : s.cur (sys.thread c) = some c) (hp : s.pc c = .run)
    (hh : 0 < s.holds c m) :
    Inv sys { s.goto c (.releasing m) with owner := Function.update s.owner m none } := by
  obtain ⟨ph, hph⟩ := h.phase m
  cases hph.eq_held hh (by simp [Plain, hp])
  refine ⟨pinned_goto h hc, fun k d hd => ?_, phase_step h m (.giving c) ⟨?_, ?_, ?_⟩ ?_⟩
  · by_cases hk : k = m
    · subst hk
      simp
    · simpa [hk] using h.tries k d (goto_tries (by simp) hd).2
  · exact ⟨by simp, by simp, hph.shows.2.2.1⟩
  · intro d _
    exact hph.taken c rfl
  · exact hph.others_goto (by simp [Phase.user, eq_comm]) rfl fun _ _ => rfl
  · intro k hk
    refine goto_agree_with (c := c) (p := .releasing m) ?_ ?_ rfl rfl ?_ rfl fun _ => rfl
    · simp [Plain, hp]
    · simp [Plain, Ne.symm hk]
    · simp [hk]

/-- The lock word is freed. -/
theorem Inv.release (h : Inv sys s) (hp : s.pc c = .releasing m) :
    Inv sys { (s.goto c .run).setHolds c m (s.holds c m - 1) with
      taken := Function.update s.taken m false } := by
  have hc := h.pinned c (by rw [hp]; trivial)
  obtain ⟨ph, hph⟩ := h.phase m
  cases hph.eq_giving hp
  refine ⟨pinned_goto h hc, fun k d hd => ?_, phase_step h m .free ⟨?_, ?_, ?_⟩ ?_⟩
  · exact h.tries k d (goto_tries (by simp) hd).2
  · exact ⟨by simp, hph.shows.1⟩
  · intro d hd
    cases hd
  · intro d _
    by_cases hd : d = c
    · subst hd
      refine ⟨by simp [hph.shows.2.2], ?_, ?_⟩
      · change (s.goto d .run).pc d ≠ _
        simp
      · change (s.goto d .run).pc d ≠ _
        simp
    · exact (hph.others d (fun he => hd (Option.some.inj he).symm)).goto_ne hd rfl (by simp [hd])
  · intro k hk
    refine goto_agree_with (c := c) (p := .run) ?_ ?_ rfl ?_ rfl rfl fun d => ?_
    · simp [Plain, hp, Ne.symm hk]
    · simp [Plain]
    · simp [hk]
    · simp [hk]

theorem Inv.unlock (h : Inv sys s) (hc : s.cur (sys.thread c) = some c) (hp : s.pc c = .run)
    (hh : 0 < s.holds c m) : Inv sys (unlock sys c m s) := by
  obtain ⟨ph, hph⟩ := h.phase m
  cases hph.eq_held hh (by simp [Plain, hp])
  have hcount := hph.shows.2.1
  unfold CoroMutex.unlock
  rw [if_neg (fun hr => by omega)]
  exact h.clear hc hp hh

variable [DecidableEq T]

theorem Inv.tryLock (h : Inv sys s) (hp : s.pc c = .trylock m) : Inv sys (tryLock sys c m s) := by
  have hc := h.pinned c (by rw [hp]; trivial)
  have hown := h.tries m c hp
  unfold CoroMutex.tryLock
  -- the owner was not this thread when it was read, and nothing can have made it so
  rw [if_neg (fun hr => hown hr.2)]
  cases ht : s.taken m with
  | true => exact h.goto hc (by simp [Plain, hp]) (by simp [Plain]) (by simp)
  | false => exact h.acquire hp ht

theorem exec_inv (h : Inv sys s) (hc : s.cur (sys.thread c) = some c) {i : Instr M}
    (ht : exec sys c s i = some t) : Inv sys t := by
  have hself : ∀ d, sys.thread d = sys.thread c → Pinned (s.pc d) → d = c := by
    intro d hd hpin
    have hcur := h.pinned d hpin
    rw [hd, hc] at hcur
    exact (Option.some.inj hcur).symm
  cases i with
  | resume => cases ht
  | yield =>
    have hleave : ¬ Pinned (s.pc c) → Inv sys
        { s with cur := Function.update s.cur (sys.thread c) none } := by
      intro hn
      refine h.setCur none fun d hd hpin => ?_
      cases hself d hd hpin
      exact hn hpin
    cases hp : s.pc c <;> simp only [exec, hp] at ht <;> cases ht
    · exact hleave (by rw [hp]; exact id)
    · exact hleave (by rw [hp]; exact id)
  | hookReturn =>
    cases hp : s.pc c with
    | hook o =>
      cases o <;> simp only [exec, hp] at ht <;> cases ht
      · exact h.goto hc (by simp [Plain, hp]) (by simp [Plain]) (by simp)
      · exact h.goto hc (by simp [Plain, hp]) (by simp [Plain]) (by simp)
    | _ => simp [exec, hp] at ht
  | check =>
    cases hp : s.pc c with
    | check m =>
      simp only [exec, hp] at ht
      cases ht
      by_cases ho : s.owner m = some (sys.thread c)
      · rw [if_pos ho]
        exact h.goto hc (by simp [Plain, hp]) (by simp [Plain]) (by simp)
      · rw [if_neg ho]
        refine h.goto hc (by simp [Plain, hp]) (by simp [Plain]) fun k hk => ?_
        cases hk
        exact ho
    | _ => simp [exec, hp] at ht
  | trylock =>
    cases hp : s.pc c with
    | trylock m =>
      simp only [exec, hp] at ht
      cases ht
      exact h.tryLock hp
    | _ => simp [exec, hp] at ht
  | setOwner =>
    cases hp : s.pc c with
    | acquired m =>
      simp only [exec, hp] at ht
      cases ht
      exact h.setOwner hp
    | _ => simp [exec, hp] at ht
  | unlock m =>
    cases hp : s.pc c with
    | run =>
      simp only [exec, hp, Option.ite_none_right_eq_some, Option.some.injEq] at ht
      obtain ⟨hh, rfl⟩ := ht
      exact h.unlock hc hp hh
    | _ => simp [exec, hp] at ht
  | release =>
    cases hp : s.pc c with
    | releasing m =>
      simp only [exec, hp] at ht
      cases ht
      exact h.release hp
    | _ => simp [exec, hp] at ht
  | _ =>
    cases hp : s.pc c <;> simp only [exec, hp] at ht <;> cases ht
    exact h.goto hc (by simp [Plain, hp]) (by simp [Plain]) (by simp)

theorem step_inv (h : Inv sys s) {a : C × Instr M} (ht : step sys s a = some t) : Inv sys t := by
  obtain ⟨c, i⟩ := a
  cases i with
  | resume =>
    simp only [step, Option.ite_none_right_eq_some, Option.some.injEq] at ht
    obtain ⟨hn, rfl⟩ := ht
    refine h.setCur (some c) fun d hd hpin => ?_
    have hcur := h.pinned d hpin
    rw [hd, hn] at hcur
    cases hcur
  | _ =>
    simp only [step, Option.ite_none_right_eq_some] at ht
    exact exec_inv h ht.1 ht.2

/-- For any threads, coroutines and mutexes of either kind, and any interleaving: at most one
coroutine is between a successful `__wrap_pthread_mutex_lock` of a mutex and its unlock. -/
theorem mutual_exclusion (sys : System T C M) (as : List (C × Instr M)) (s : State T C M)
    (h : Machine.run (step sys) as init = some s) (m : M) (c d : C) (hc : 0 < s.holds c m)
    (hd : 0 < s.holds d m) : c = d := by
  have hi : Inv sys s := Machine.run_induction (P := fun _ s => Inv sys s) (init_inv sys)
    (fun _ _ _ _ _ hs ht => step_inv hs ht) h
  obtain ⟨ph, hph⟩ := hi.phase m
  have huc := hph.user_eq (c := c) fun ho => by rw [ho.holds] at hc; cases hc
  have hud := hph.user_eq (c := d) fun ho => by rw [ho.holds] at hd; cases hd
  rw [huc] at hud
  exact Option.some.inj hud

end Steps

/-- Coroutines 0 and 1 on one thread, 2 and 3 on the next, and so on, and one recursive mutex. -/
def pairs : System Nat Nat Unit := ⟨fun c => c / 2, fun _ => .recursive⟩

/-- Coroutine 0 is preempted with the mutex; its sibling and a coroutine of another thread wait. -/
def contended : List (Nat × Instr Unit) :=
  [(0, .resume), (0, .start), (0, .lock ()), (0, .check), (2, .resume), (2, .start),
    (2, .lock ()), (2, .check), (0, .trylock), (2, .trylock), (0, .setOwner), (0, .probe),
    (0, .yield), (1, .resume), (1, .start), (1, .lock ()), (1, .check)]

theorem mutual_exclusion_contended :
    ∃ s, Machine.run (step pairs) contended init = some s ∧ s.holds 0 () = 1 ∧
      ∀ d, 0 < s.holds d () → 0 = d := by
  refine ⟨_, rfl, rfl, fun d hd => ?_⟩
  exact mutual_exclusion pairs contended _ rfl () 0 d (by decide) hd

end TinyQuanta.CoroMutex
