import Mathlib.Data.List.Induction

/-!
# Runs of a partial step function

A program that reacts to its environment is a function `step` from a state and
an action to the next state, `none` when the action is not enabled there. A run
is a finite list of actions; nothing bounds its length. The two rules below are
the only inductions over runs that the later modules need.
-/
namespace TinyQuanta.Machine

variable {σ α : Type}

/-- Perform the actions in order; `none` as soon as one of them is not enabled. -/
def run (step : σ → α → Option σ) : List α → σ → Option σ
  | [], s => some s
  | a :: as, s => (step s a).bind (run step as)

/-- Every action of the run is taken in a state in which `cond` allows it. -/
def Along (step : σ → α → Option σ) (cond : σ → α → Prop) : List α → σ → Prop
  | [], _ => True
  | a :: as, s => cond s a ∧ ∀ t, step s a = some t → Along step cond as t

@[simp] theorem run_nil (step : σ → α → Option σ) (s : σ) : run step [] s = some s := rfl
@[simp] theorem run_cons (step : σ → α → Option σ) (a : α) (as : List α) (s : σ) :
    run step (a :: as) s = (step s a).bind (run step as) := rfl

theorem run_one {step : σ → α → Option σ} {a : α} {s t : σ} (h : step s a = some t) :
    run step [a] s = some t := by
  rw [run_cons, h]
  rfl

theorem run_append (step : σ → α → Option σ) (as bs : List α) (s : σ) :
    run step (as ++ bs) s = (run step as s).bind (run step bs) := by
  induction as generalizing s with
  | nil => rfl
  | cons a as ih =>
    simp only [List.cons_append, run_cons]
    cases step s a with
    | none => rfl
    | some t => exact ih t

/-- Two runs that meet in a state are one run. -/
theorem run_join {step : σ → α → Option σ} {as bs : List α} {s t u : σ}
    (h₁ : run step as s = some t) (h₂ : run step bs t = some u) :
    run step (as ++ bs) s = some u := by
  rw [run_append, h₁]
  exact h₂

theorem run_snoc {step : σ → α → Option σ} {as : List α} {a : α} {s u : σ} :
    run step (as ++ [a]) s = some u ↔ ∃ t, run step as s = some t ∧ step t a = some u := by
  rw [run_append, Option.bind_eq_some_iff]
  constructor
  · rintro ⟨t, ht, hu⟩
    obtain ⟨v, hv, he⟩ := Option.bind_eq_some_iff.mp hu
    cases he
    exact ⟨t, ht, hv⟩
  · rintro ⟨t, ht, hu⟩
    exact ⟨t, ht, Option.bind_eq_some_iff.mpr ⟨u, hu, rfl⟩⟩

theorem along_append (step : σ → α → Option σ) (cond : σ → α → Prop) (as bs : List α) (s : σ) :
    Along step cond (as ++ bs) s ↔
      Along step cond as s ∧ ∀ t, run step as s = some t → Along step cond bs t := by
  induction as generalizing s with
  | nil => simp [Along]
  | cons a as ih =>
    simp only [List.cons_append, Along, run_cons, ih, Option.bind_eq_some_iff]
    constructor
    · rintro ⟨hc, h⟩
      exact ⟨⟨hc, fun t ht => (h t ht).1⟩, fun u ⟨t, ht, hu⟩ => (h t ht).2 u hu⟩
    · rintro ⟨⟨hc, h⟩, hb⟩
      exact ⟨hc, fun t ht => ⟨h t ht, fun u hu => hb u ⟨t, ht, hu⟩⟩⟩

theorem along_snoc {step : σ → α → Option σ} {cond : σ → α → Prop} {as : List α} {a : α}
    {s t : σ} (h : run step as s = some t) :
    Along step cond (as ++ [a]) s ↔ Along step cond as s ∧ cond t a := by
  rw [along_append]
  constructor
  · rintro ⟨h₁, h₂⟩
    exact ⟨h₁, (h₂ t h).1⟩
  · rintro ⟨h₁, h₂⟩
    refine ⟨h₁, fun u hu => ?_⟩
    rw [h] at hu
    cases hu
    exact ⟨h₂, fun _ _ => trivial⟩

/-- A condition on the actions alone. -/
theorem along_of_mem {step : σ → α → Option σ} {cond : σ → α → Prop} {as : List α}
    (h : ∀ a ∈ as, ∀ s, cond s a) (s : σ) : Along step cond as s := by
  induction as generalizing s with
  | nil => trivial
  | cons a as ih =>
    exact ⟨h a List.mem_cons_self s, fun t _ => ih (fun b hb => h b (List.mem_cons_of_mem a hb)) t⟩

/-- A condition that an invariant turns into a stronger one. -/
theorem along_strengthen {step : σ → α → Option σ} {cond cond' : σ → α → Prop} {P : σ → Prop}
    (next : ∀ s a t, P s → cond s a → step s a = some t → P t)
    (imp : ∀ s a, P s → cond s a → cond' s a) {as : List α} {s : σ} (hs : P s)
    (h : Along step cond as s) : Along step cond' as s := by
  induction as generalizing s with
  | nil => trivial
  | cons a as ih =>
    exact ⟨imp s a hs h.1, fun t ht => ih (next s a t hs h.1 ht) (h.2 t ht)⟩

/-- On a concrete run the condition can be evaluated step by step. -/
instance decidableAlong (step : σ → α → Option σ) (cond : σ → α → Prop)
    [∀ s a, Decidable (cond s a)] : ∀ as s, Decidable (Along step cond as s)
  | [], _ => isTrue trivial
  | a :: as, s =>
    match h : step s a with
    | none => decidable_of_iff (cond s a)
        ⟨fun hc => ⟨hc, fun t ht => by rw [h] at ht; cases ht⟩, fun hc => hc.1⟩
    | some t =>
      have := decidableAlong step cond as t
      decidable_of_iff (cond s a ∧ Along step cond as t)
        ⟨fun hc => ⟨hc.1, fun u hu => by rw [h] at hu; cases hu; exact hc.2⟩,
          fun hc => ⟨hc.1, hc.2 t h⟩⟩

/-- Induction over a run, with the actions performed so far as the history. -/
theorem run_induction {step : σ → α → Option σ} {P : List α → σ → Prop} {s₀ : σ}
    (init : P [] s₀)
    (next : ∀ as s a t, run step as s₀ = some s → P as s → step s a = some t → P (as ++ [a]) t)
    {as : List α} {s : σ} (h : run step as s₀ = some s) : P as s := by
  induction as using List.reverseRecOn generalizing s with
  | nil =>
    cases h
    exact init
  | append_singleton as a ih =>
    obtain ⟨t, ht, hs⟩ := run_snoc.mp h
    exact next as t a s ht (ih ht) hs

/-- What holds initially and survives every allowed step holds after every allowed run. -/
theorem run_invariant {step : σ → α → Option σ} {cond : σ → α → Prop} {P : σ → Prop} {s₀ : σ}
    (init : P s₀) (next : ∀ s a t, P s → cond s a → step s a = some t → P t)
    {as : List α} {s : σ} (h : run step as s₀ = some s) (hc : Along step cond as s₀) : P s := by
  induction as generalizing s₀ with
  | nil =>
    cases h
    exact init
  | cons a as ih =>
    obtain ⟨t, ht, hs⟩ := Option.bind_eq_some_iff.mp h
    exact ih (next s₀ a t init hc.1 ht) hs (hc.2 t ht)

/-- Short runs that each make a measure smaller join to a run that gets there. -/
theorem run_until {step : σ → α → Option σ} {P Q : σ → Prop} {C : α → Prop} (μ : σ → Nat)
    (next : ∀ s, P s → ∃ as t, run step as s = some t ∧ (∀ a ∈ as, C a) ∧ (Q t ∨ P t ∧ μ t < μ s))
    {s : σ} (h : P s) : ∃ as t, run step as s = some t ∧ (∀ a ∈ as, C a) ∧ Q t := by
  induction hn : μ s using Nat.strongRecOn generalizing s with
  | ind n ih =>
    subst hn
    obtain ⟨as, t, ht, ha, hq | ⟨hp, hlt⟩⟩ := next s h
    · exact ⟨as, t, ht, ha, hq⟩
    · obtain ⟨bs, u, hu, hb, hq⟩ := ih (μ t) hlt hp rfl
      refine ⟨as ++ bs, u, run_join ht hu, fun a hm => ?_, hq⟩
      rcases List.mem_append.mp hm with hm | hm
      · exact ha a hm
      · exact hb a hm

/-- Where a step is always possible, there are runs of every length. -/
theorem exists_run {step : σ → α → Option σ} {P : σ → Prop} {C : α → Prop}
    (next : ∀ s, P s → ∃ a t, step s a = some t ∧ C a ∧ P t) (k : Nat) {s : σ} (h : P s) :
    ∃ as t, run step as s = some t ∧ as.length = k ∧ (∀ a ∈ as, C a) ∧ P t := by
  induction k generalizing s with
  | zero => exact ⟨[], s, rfl, rfl, fun a ha => (List.not_mem_nil ha).elim, h⟩
  | succ k ih =>
    obtain ⟨a, t, ht, ha, hp⟩ := next s h
    obtain ⟨as, u, hu, hk, has, hpu⟩ := ih hp
    refine ⟨a :: as, u, ?_, congrArg (· + 1) hk, List.forall_mem_cons.mpr ⟨ha, has⟩, hpu⟩
    rw [run_cons, ht]
    exact hu

/-- A measure that every allowed step makes smaller until `Q` holds bounds the runs that do not get
there. -/
theorem run_settles {step : σ → α → Option σ} {cond : σ → α → Prop} {P Q : σ → Prop} (μ : σ → Nat)
    (keep : ∀ s a t, P s → cond s a → step s a = some t → P t ∧ (Q s → Q t))
    (lower : ∀ s a t, P s → cond s a → step s a = some t → Q s ∨ μ t < μ s)
    {as : List α} {s t : σ} (hs : P s) (h : run step as s = some t) (hc : Along step cond as s)
    (hn : μ s < as.length) : Q t := by
  induction as generalizing s with
  | nil => cases hn
  | cons a as ih =>
    obtain ⟨u, hu, hrun⟩ := Option.bind_eq_some_iff.mp h
    have hpu := (keep s a u hs hc.1 hu).1
    rcases lower s a u hs hc.1 hu with hq | hlt
    · have hqu := (keep s a u hs hc.1 hu).2 hq
      exact (run_invariant (P := fun s => P s ∧ Q s) ⟨hpu, hqu⟩
        (fun s a t hpq hcond hstep => (keep s a t hpq.1 hcond hstep).imp_right fun hq => hq hpq.2)
        hrun (hc.2 u hu)).2
    · rw [List.length_cons] at hn
      exact ih hpu hrun (hc.2 u hu) (by omega)

/-! ## What can be seen of a run -/

/-- The events of a run, when `out` tells those of a step. -/
def outputs {ε : Type} (step : σ → α → Option σ) (out : σ → α → List ε) : List α → σ → List ε
  | [], _ => []
  | a :: as, s => out s a ++ ((step s a).map (outputs step out as)).getD []

theorem outputs_cons {ε : Type} {step : σ → α → Option σ} (out : σ → α → List ε) {a : α} {s t : σ}
    (h : step s a = some t) (as : List α) :
    outputs step out (a :: as) s = out s a ++ outputs step out as t := by
  rw [outputs, h]
  rfl

/-- If another system can follow each step with the events of this step, it can follow every run. -/
theorem run_followed {ε τ : Type} {step : σ → α → Option σ} {out : σ → α → List ε}
    {R : τ → List ε → τ → Prop} {abs : σ → τ} {P : σ → Prop} (nil : ∀ w, R w [] w)
    (append : ∀ w es u fs x, R w es u → R u fs x → R w (es ++ fs) x)
    (next : ∀ s a t, P s → step s a = some t → P t ∧ R (abs s) (out s a) (abs t))
    {as : List α} {s t : σ} (hs : P s) (h : run step as s = some t) :
    R (abs s) (outputs step out as s) (abs t) := by
  induction as generalizing s with
  | nil =>
    cases h
    exact nil _
  | cons a as ih =>
    obtain ⟨u, hu, hrun⟩ := Option.bind_eq_some_iff.mp h
    obtain ⟨hpu, hr⟩ := next s a u hs hu
    rw [outputs_cons out hu]
    exact append _ _ _ _ _ hr (ih hpu hrun)

end TinyQuanta.Machine
