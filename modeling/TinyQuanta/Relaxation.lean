import TinyQuanta.TopoSort

/-!
# Relaxation along a topological order

A table holds, for some vertices, a number and the vertex it came from. Sweeping
the vertices in topological order, every edge offers a number to its head, which
keeps the largest. What an edge offers may depend on the number at its tail,
which is final when the tail is swept; so afterwards every number is an offer
computed from final numbers, and no offer exceeds the number at its head.
-/
namespace TinyQuanta.Relaxation

open TopoSort

variable {β : Type} [DecidableEq β]

structure Table (β : Type) where
  dist : β → Option Int
  prev : β → Option β

/-- Record `d` for `v`, as coming from `p`. -/
def set (t : Table β) (v : β) (d : Int) (p : β) : Table β :=
  ⟨Function.update t.dist v (some d), Function.update t.prev v (some p)⟩

/-- Whether `d` would be recorded for `v`. -/
def improves (t : Table β) (v : β) (d : Int) : Bool :=
  match t.dist v with
  | none => true
  | some old => decide (old < d)

/-- Keep `d` for `v` if there is nothing better. -/
def offer (t : Table β) (v : β) (d : Int) (p : β) : Table β :=
  if improves t v d then set t v d p else t

/-- The offer along the edge from `u` to `v`, if there is one. -/
def relax (cand : β → β → Option Int → Option Int) (tag : β → β → β) (u : β) (t : Table β)
    (v : β) : Table β :=
  match cand u v (t.dist u) with
  | none => t
  | some d => offer t v d (tag u v)

def sweep (next : β → List β) (cand : β → β → Option Int → Option Int) (tag : β → β → β)
    (order : List β) (t : Table β) : Table β :=
  order.foldl (fun t u => (next u).foldl (relax cand tag u) t) t

/-- The entry of `v` is as it was. -/
def Same (t t' : Table β) (v : β) : Prop := t'.dist v = t.dist v ∧ t'.prev v = t.prev v

/-- No number got smaller. -/
def Grows (t t' : Table β) : Prop := ∀ v d, t.dist v = some d → ∃ d', t'.dist v = some d' ∧ d ≤ d'

omit [DecidableEq β] in
theorem Grows.refl (t : Table β) : Grows t t := fun _ d h => ⟨d, h, Int.le_refl d⟩

omit [DecidableEq β] in
theorem Grows.trans {t₁ t₂ t₃ : Table β} (h₁ : Grows t₁ t₂) (h₂ : Grows t₂ t₃) : Grows t₁ t₃ := by
  intro v d h
  obtain ⟨d', h', hle⟩ := h₁ v d h
  obtain ⟨d'', h'', hle'⟩ := h₂ v d' h'
  exact ⟨d'', h'', Int.le_trans hle hle'⟩

theorem offer_grows (t : Table β) (v : β) (d : Int) (p : β) : Grows t (offer t v d p) := by
  intro x e h
  unfold offer
  by_cases hi : improves t v d = true
  · rw [if_pos hi]
    by_cases hx : x = v
    · subst hx
      simp only [improves, h, decide_eq_true_eq] at hi
      exact ⟨d, by simp [set], by omega⟩
    · exact ⟨e, by simp [set, hx, h], Int.le_refl e⟩
  · rw [if_neg hi]
    exact ⟨e, h, Int.le_refl e⟩

theorem offer_ge (t : Table β) (v : β) (d : Int) (p : β) :
    ∃ d', (offer t v d p).dist v = some d' ∧ d ≤ d' := by
  unfold offer
  cases h : t.dist v with
  | none => exact ⟨d, by simp [improves, h, set], Int.le_refl d⟩
  | some old =>
    by_cases hlt : old < d
    · exact ⟨d, by simp [improves, h, hlt, set], Int.le_refl d⟩
    · exact ⟨old, by simp [improves, h, hlt], by omega⟩

theorem offer_source (t : Table β) (v : β) (d : Int) (p x : β) :
    Same t (offer t v d p) x ∨
      x = v ∧ (offer t v d p).dist x = some d ∧ (offer t v d p).prev x = some p := by
  unfold offer
  by_cases hi : improves t v d = true
  · rw [if_pos hi]
    by_cases hx : x = v
    · subst hx
      exact .inr ⟨rfl, by simp [set], by simp [set]⟩
    · exact .inl ⟨by simp [set, hx], by simp [set, hx]⟩
  · rw [if_neg hi]
    exact .inl ⟨rfl, rfl⟩

section Sweep

variable (next : β → List β) (cand : β → β → Option Int → Option Int) (tag : β → β → β)

/-- What sweeping the vertices of `l` does to a table. -/
structure Swept (l : List β) (t t' : Table β) : Prop where
  grows : Grows t t'
  ge : ∀ u ∈ l, ∀ v ∈ next u, ∀ d, cand u v (t'.dist u) = some d →
    ∃ d', t'.dist v = some d' ∧ d ≤ d'
  source : ∀ v, Same t t' v ∨ ∃ u ∈ l, v ∈ next u ∧ ∃ d, cand u v (t'.dist u) = some d ∧
    t'.dist v = some d ∧ t'.prev v = some (tag u v)

/-- All offers of one vertex. -/
structure Relaxed (u : β) (vs : List β) (t t' : Table β) : Prop where
  grows : Grows t t'
  ge : ∀ v ∈ vs, ∀ d, cand u v (t.dist u) = some d → ∃ d', t'.dist v = some d' ∧ d ≤ d'
  source : ∀ x, Same t t' x ∨ x ∈ vs ∧ ∃ d, cand u x (t.dist u) = some d ∧
    t'.dist x = some d ∧ t'.prev x = some (tag u x)

variable {next cand tag}

theorem relax_relaxed (u v : β) (t : Table β) :
    Relaxed cand tag u [v] t (relax cand tag u t v) := by
  unfold relax
  cases hc : cand u v (t.dist u) with
  | none =>
    refine ⟨.refl t, ?_, fun x => .inl ⟨rfl, rfl⟩⟩
    intro x hx d hd
    cases List.mem_singleton.mp hx
    rw [hc] at hd
    cases hd
  | some d =>
    refine ⟨offer_grows t v d (tag u v), ?_, fun x => ?_⟩
    · intro x hx e he
      cases List.mem_singleton.mp hx
      rw [hc] at he
      cases he
      exact offer_ge t v d (tag u v)
    · rcases offer_source t v d (tag u v) x with h | ⟨rfl, hd, hp⟩
      · exact .inl h
      · exact .inr ⟨by simp, d, hc, hd, hp⟩

/-- The offers of a vertex that is not its own successor. -/
theorem foldl_relaxed (u : β) (vs : List β) (hu : u ∉ vs) (t : Table β) :
    Relaxed cand tag u vs t (vs.foldl (relax cand tag u) t) := by
  induction vs generalizing t with
  | nil => exact ⟨.refl t, by simp, fun x => .inl ⟨rfl, rfl⟩⟩
  | cons v vs ih =>
    have h₁ : Relaxed cand tag u [v] t (relax cand tag u t v) := relax_relaxed u v t
    have h₂ := ih (fun h => hu (by simp [h])) (relax cand tag u t v)
    have hsame : (relax cand tag u t v).dist u = t.dist u := by
      rcases h₁.source u with h | ⟨h, -⟩
      · exact h.1
      · exact absurd (List.mem_singleton.mp h) (fun he => hu (by simp [he]))
    refine ⟨h₁.grows.trans h₂.grows, ?_, fun x => ?_⟩
    · intro x hx d hd
      rcases List.mem_cons.mp hx with rfl | hx
      · obtain ⟨d₁, hd₁, hle⟩ := h₁.ge x (by simp) d hd
        obtain ⟨d₂, hd₂, hle₂⟩ := h₂.grows x d₁ hd₁
        exact ⟨d₂, hd₂, by omega⟩
      · exact h₂.ge x hx d (by rw [hsame]; exact hd)
    · rcases h₂.source x with hx | ⟨hx, d, hd, hx₁, hx₂⟩
      · rcases h₁.source x with hy | ⟨hy, d, hd, hy₁, hy₂⟩
        · exact .inl ⟨hx.1.trans hy.1, hx.2.trans hy.2⟩
        · cases List.mem_singleton.mp hy
          exact .inr ⟨by simp, d, hd, hx.1.trans hy₁, hx.2.trans hy₂⟩
      · rw [hsame] at hd
        exact .inr ⟨by simp [hx], d, hd, hx₁, hx₂⟩

/-- Sweeping a reverse topological order from its end. -/
theorem sweep_swept {l : List β} (h : RevTopo next l) (hn : l.Nodup) (t : Table β) :
    Swept next cand tag l t (sweep next cand tag l.reverse t) := by
  induction h generalizing t with
  | nil => exact ⟨.refl t, by simp, fun v => .inl ⟨rfl, rfl⟩⟩
  | snoc l a hl ha ih =>
    have hal : a ∉ l := by
      rw [List.nodup_append] at hn
      exact fun hmem => hn.2.2 a hmem a (by simp) rfl
    have hnl : l.Nodup := (List.nodup_append.mp hn).1
    have h₁ : Relaxed cand tag a (next a) t _ := foldl_relaxed a (next a) (fun h => hal (ha a h)) t
    have h₂ := ih hnl ((next a).foldl (relax cand tag a) t)
    have he : sweep next cand tag (l ++ [a]).reverse t =
        sweep next cand tag l.reverse ((next a).foldl (relax cand tag a) t) := by
      simp [sweep]
    rw [he]
    generalize (next a).foldl (relax cand tag a) t = t₁ at h₁ h₂
    generalize sweep next cand tag l.reverse t₁ = t₂ at h₂
    have hsame : t₂.dist a = t.dist a := by
      rcases h₂.source a with h | ⟨u, hu, hau, -⟩
      · rcases h₁.source a with h' | ⟨h', -⟩
        · exact h.1.trans h'.1
        · exact absurd (ha a h') hal
      · exact absurd (hl.closed hu hau) hal
    refine ⟨h₁.grows.trans h₂.grows, ?_, fun v => ?_⟩
    · intro u hu v hv d hd
      rcases List.mem_append.mp hu with hu | hu
      · exact h₂.ge u hu v hv d hd
      · cases List.mem_singleton.mp hu
        rw [hsame] at hd
        obtain ⟨d₁, hd₁, hle⟩ := h₁.ge v hv d hd
        obtain ⟨d₂, hd₂, hle₂⟩ := h₂.grows v d₁ hd₁
        exact ⟨d₂, hd₂, by omega⟩
    · rcases h₂.source v with hv | ⟨u, hu, hv⟩
      · rcases h₁.source v with hw | ⟨hw, d, hd, hd₁, hp⟩
        · exact .inl ⟨hv.1.trans hw.1, hv.2.trans hw.2⟩
        · exact .inr ⟨a, by simp, hw, d, by rw [hsame]; exact hd, hv.1.trans hd₁, hv.2.trans hp⟩
      · exact .inr ⟨u, by simp [hu], hv⟩

omit [DecidableEq β] in
/-- What a sweep does can be said with other offers if they agree on the final numbers. -/
theorem Swept.congr {cand' : β → β → Option Int → Option Int} {l : List β} {t t' : Table β}
    (h : Swept next cand tag l t t')
    (heq : ∀ u ∈ l, ∀ v ∈ next u, cand u v (t'.dist u) = cand' u v (t'.dist u)) :
    Swept next cand' tag l t t' where
  grows := h.grows
  ge u hu v hv d hd := h.ge u hu v hv d (by rw [heq u hu v hv]; exact hd)
  source v := (h.source v).imp_right fun ⟨u, hu, hv, d, hd, hrest⟩ =>
    ⟨u, hu, hv, d, by rw [← heq u hu v hv]; exact hd, hrest⟩

/-- A property of the numbers that every offer hands on. -/
theorem sweep_forall {P : β → Int → Prop} {order : List β} {t : Table β}
    (hinit : ∀ v d, t.dist v = some d → P v d)
    (hstep : ∀ u ∈ order, ∀ v ∈ next u, ∀ y : Option Int, (∀ d, y = some d → P u d) →
      ∀ d, cand u v y = some d → P v d) {v : β} {d : Int}
    (hd : (sweep next cand tag order t).dist v = some d) : P v d := by
  have key : ∀ v d, (sweep next cand tag order t).dist v = some d → P v d := by
    unfold sweep
    refine List.foldlRecOn (motive := fun (t : Table β) => ∀ v d, t.dist v = some d → P v d)
      order _ hinit fun t ht u hu => ?_
    refine List.foldlRecOn (motive := fun (t : Table β) => ∀ v d, t.dist v = some d → P v d)
      (next u) _ ht fun t ht w hw v d hd => ?_
    have hr : Relaxed cand tag u [w] t (relax cand tag u t w) := relax_relaxed u w t
    rcases hr.source v with hs | ⟨hv, e, hc, he, -⟩
    · exact ht v d (hs.1 ▸ hd)
    · rw [he] at hd
      cases hd
      obtain rfl := List.mem_singleton.mp hv
      exact hstep u hu v hw _ (fun d hd => ht u d hd) d hc
  exact key v d hd

/-- The same along the order. An edge back to a vertex
that has been swept need not keep it: what it changes is not offered any more. -/
theorem sweep_invariant {P : β → Int → Prop} {L : β → Prop} (hnone : ∀ u v, cand u v none = none)
    {order : List β} (hn : order.Nodup) {t : Table β} (hinit : ∀ v x, t.dist v = some x → P v x)
    (hstep : ∀ pre u post, order = pre ++ u :: post → ∀ v ∈ next u, ∀ y x, P u y →
      cand u v (some y) = some x → P v x ∨ L v ∧ v ∈ pre)
    {v : β} {x : Int} (hd : (sweep next cand tag order t).dist v = some x) : P v x ∨ L v := by
  have key : ∀ (post pre : List β) (t : Table β), order = pre ++ post →
      (∀ v x, t.dist v = some x → P v x ∨ L v ∧ v ∈ pre) →
      ∀ v x, (sweep next cand tag post t).dist v = some x → P v x ∨ L v := by
    intro post
    induction post with
    | nil => exact fun pre t _ ht v x hx => (ht v x hx).imp_right And.left
    | cons u post ih =>
      intro pre t ho ht v x hx
      have hu : u ∉ pre := by
        rw [ho] at hn
        exact fun hmem => (List.nodup_append.mp hn).2.2 u hmem u (by simp) rfl
      -- the number of a vertex that is being swept has the property throughout
      have hrelaxed : ∀ v x, ((next u).foldl (relax cand tag u) t).dist v = some x →
          P v x ∨ L v ∧ v ∈ pre := by
        refine List.foldlRecOn (motive := fun (t : Table β) =>
          ∀ v x, t.dist v = some x → P v x ∨ L v ∧ v ∈ pre) (next u) _ ht fun t ht w hw v x hx => ?_
        have hr : Relaxed cand tag u [w] t (relax cand tag u t w) := relax_relaxed u w t
        rcases hr.source v with hs | ⟨hv, d, hc, hdv, -⟩
        · exact ht v x (hs.1 ▸ hx)
        · rw [hdv] at hx
          cases hx
          rw [List.mem_singleton.mp hv] at hc ⊢
          cases hy : t.dist u with
          | none => simp [hy, hnone] at hc
          | some y =>
            have hPu : P u y := (ht u y hy).resolve_right fun h => hu h.2
            exact hstep pre u post ho w hw y x hPu (by rw [← hy]; exact hc)
      refine ih (pre ++ [u]) _ (by simpa using ho) (fun v x hx => ?_) v x hx
      exact (hrelaxed v x hx).imp_right fun h => ⟨h.1, List.mem_append_left _ h.2⟩
  exact key order [] t rfl (fun v x hx => .inl (hinit v x hx)) v x hd

end Sweep

/-! ## Keeping the largest number -/

/-- A table with the largest number seen so far, and where it was. -/
structure Tracked (β : Type) where
  table : Table β
  best : β
  bestDist : Int

def offerMax (m : Tracked β) (v : β) (d : Int) (p : β) : Tracked β :=
  if improves m.table v d then
    { table := set m.table v d p
      best := if m.bestDist < d then v else m.best
      bestDist := if m.bestDist < d then d else m.bestDist }
  else m

def relaxMax (cand : β → β → Option Int → Option Int) (tag : β → β → β) (u : β) (m : Tracked β)
    (v : β) : Tracked β :=
  match cand u v (m.table.dist u) with
  | none => m
  | some d => offerMax m v d (tag u v)

def sweepMax (next : β → List β) (cand : β → β → Option Int → Option Int) (tag : β → β → β)
    (order : List β) (m : Tracked β) : Tracked β :=
  order.foldl (fun m u => (next u).foldl (relaxMax cand tag u) m) m

/-- The largest number is in the table, and is the largest. -/
structure IsBest (m : Tracked β) : Prop where
  here : m.table.dist m.best = some m.bestDist
  le : ∀ v d, m.table.dist v = some d → d ≤ m.bestDist

section Track

variable (next : β → List β) (cand : β → β → Option Int → Option Int) (tag : β → β → β)

theorem relaxMax_table (u : β) (m : Tracked β) (v : β) :
    (relaxMax cand tag u m v).table = relax cand tag u m.table v := by
  unfold relaxMax relax
  cases cand u v (m.table.dist u) with
  | none => rfl
  | some d =>
    simp only [offerMax, offer]
    split <;> rfl

theorem sweepMax_table (order : List β) (m : Tracked β) :
    (sweepMax next cand tag order m).table = sweep next cand tag order m.table := by
  have inner : ∀ (u : β) (vs : List β) (m : Tracked β),
      (vs.foldl (relaxMax cand tag u) m).table = vs.foldl (relax cand tag u) m.table := by
    intro u vs
    induction vs with
    | nil => exact fun m => rfl
    | cons v vs ih =>
      intro m
      rw [List.foldl_cons, List.foldl_cons, ih, relaxMax_table]
  unfold sweepMax sweep
  induction order generalizing m with
  | nil => rfl
  | cons u order ih => rw [List.foldl_cons, List.foldl_cons, ih, inner]

theorem offerMax_best {m : Tracked β} (h : IsBest m) (v : β) (d : Int) (p : β) :
    IsBest (offerMax m v d p) := by
  unfold offerMax
  by_cases hi : improves m.table v d = true
  · rw [if_pos hi]
    by_cases hlt : m.bestDist < d
    · simp only [hlt, if_true]
      refine ⟨by simp [set], fun x e hx => ?_⟩
      by_cases hxv : x = v
      · subst hxv
        simp only [set, Function.update_self, Option.some.injEq] at hx
        exact Int.le_of_eq hx.symm
      · have hle := h.le x e (by simpa [set, hxv] using hx)
        simp only
        omega
    · simp only [hlt, if_false]
      have hne : m.best ≠ v := by
        intro he
        simp only [improves, ← he, h.here, decide_eq_true_eq] at hi
        exact hlt hi
      refine ⟨by simpa [set, hne] using h.here, fun x e hx => ?_⟩
      by_cases hxv : x = v
      · subst hxv
        simp only [set, Function.update_self, Option.some.injEq] at hx
        simp only
        omega
      · exact h.le x e (by simpa [set, hxv] using hx)
  · rw [if_neg hi]
    exact h

theorem sweepMax_best (order : List β) {m : Tracked β} (h : IsBest m) :
    IsBest (sweepMax next cand tag order m) := by
  have inner : ∀ (u : β) (vs : List β) (m : Tracked β), IsBest m →
      IsBest (vs.foldl (relaxMax cand tag u) m) := by
    intro u vs
    induction vs with
    | nil => exact fun m hm => hm
    | cons v vs ih =>
      intro m hm
      apply ih
      unfold relaxMax
      split
      · exact hm
      · exact offerMax_best hm v _ _
  unfold sweepMax
  induction order generalizing m with
  | nil => exact h
  | cons u order ih => exact ih (inner u (next u) m h)

end Track

end TinyQuanta.Relaxation
