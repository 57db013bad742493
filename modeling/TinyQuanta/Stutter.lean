import Mathlib.Computability.StateTransition
import Mathlib.Order.WellFounded

/-!
# Simulation with steps in between

A system that takes the steps of another one and steps of its own. Each of these
lowers a rank, so that there is an end to them: what one system reaches the other
reaches, and if one stops, so does the other.
-/
namespace TinyQuanta.Stutter

open StateTransition

variable {σ τ ρ : Type} [LT ρ] [WellFoundedLT ρ]

/-- A step of `next` is a step of the other system, or the rank gets lower. -/
def Simulates (Step : σ → σ → Prop) (next : τ → Option τ) (R : σ → τ → Prop) (rank : τ → ρ) :
    Prop :=
  ∀ s t t', R s t → next t = some t' →
    (∃ s', Step s s' ∧ R s' t') ∨ (R s t' ∧ rank t' < rank t)

variable {Step : σ → σ → Prop} {first : σ → Option σ} {next : τ → Option τ} {R : σ → τ → Prop}
  {rank : τ → ρ}

omit [WellFoundedLT ρ] in
theorem Simulates.reaches (h : Simulates Step next R rank) {s : σ} {t t' : τ} (hst : R s t)
    (hreach : Reaches next t t') : ∃ s', Relation.ReflTransGen Step s s' ∧ R s' t' := by
  induction hreach with
  | refl => exact ⟨s, .refl, hst⟩
  | tail _ hstep ih =>
    obtain ⟨u, hsu, hut⟩ := ih
    rcases h u _ _ hut hstep with ⟨s', hus, hrel⟩ | ⟨hrel, -⟩
    · exact ⟨s', hsu.tail hus, hrel⟩
    · exact ⟨u, hsu, hrel⟩

/-- The steps in between come to an end. -/
theorem Simulates.settles (h : Simulates Step next R rank) {s : σ} {t : τ} (hst : R s t) :
    ∃ u, Reaches next t u ∧ R s u ∧
      (next u = none ∨ ∃ s' u', Step s s' ∧ next u = some u' ∧ R s' u') := by
  induction t using (InvImage.wf rank wellFounded_lt).induction with
  | h t ih =>
    cases ht : next t with
    | none => exact ⟨t, .refl, hst, .inl ht⟩
    | some t' =>
      rcases h s t t' hst ht with ⟨s', hs, hrel⟩ | ⟨hrel, hlt⟩
      · exact ⟨t, .refl, hst, .inr ⟨s', t', hs, ht, hrel⟩⟩
      · obtain ⟨u, hreach, hu⟩ := ih t' hlt hrel
        exact ⟨u, .head ht hreach, hu⟩

/-- Both come to an end, or neither does, if the first one stops where the second does. -/
theorem Simulates.eval (h : Simulates (fun s s' => first s = some s') next R rank)
    (hstop : ∀ s t, R s t → next t = none → first s = none) {s : σ} {t : τ} (hst : R s t) :
    (∀ u ∈ eval first s, ∃ v ∈ eval next t, R u v) ∧
      ∀ v ∈ StateTransition.eval next t, ∃ u ∈ StateTransition.eval first s, R u v := by
  constructor
  · intro u hu
    obtain ⟨hreach, hend⟩ := mem_eval.mp hu
    clear hu
    induction hreach using Relation.ReflTransGen.head_induction_on generalizing t with
    | refl =>
      obtain ⟨v, hreach, hrel, hv | ⟨s', _, hs, _⟩⟩ := h.settles hst
      · exact ⟨v, mem_eval.mpr ⟨hreach, hv⟩, hrel⟩
      · cases hend.symm.trans hs
    | head hstep _ ih =>
      obtain ⟨v, hreach, hrel, hv | ⟨s', v', hs, hv, hrel'⟩⟩ := h.settles hst
      · cases (hstop _ v hrel hv).symm.trans hstep
      · cases Option.some.inj (hs.symm.trans hstep)
        rw [reaches_eval (hreach.tail hv)]
        exact ih hrel'
  · intro v hv
    obtain ⟨hreach, hend⟩ := mem_eval.mp hv
    obtain ⟨u, hsu, huv⟩ := h.reaches hst hreach
    exact ⟨u, mem_eval.mpr ⟨hsu, hstop u v huv hend⟩, huv⟩

end TinyQuanta.Stutter
