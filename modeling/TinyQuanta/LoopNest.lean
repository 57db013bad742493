import Mathlib.Algebra.Order.BigOperators.Group.List
import Mathlib.Algebra.Order.Ring.Int
import Mathlib.Logic.Relation

/-!
# Loops of a flow graph

The edges of the graph go up in a rank, except for the back edges. A back edge
goes to the header of a loop, whose body is entered at the header only and comes
after it. Two things follow. Coming from a header that lies in no other loop, one
never gets below it again. And a walk can be cut down at every back edge to a
header it has passed: what remains is a trail, which has few back edges left.
-/
namespace TinyQuanta.LoopNest

open Relation

variable {β : Type}

structure Nest (edge back : β → β → Prop) (rank : β → Nat) (body : β → β → Prop) : Prop where
  up : ∀ u v, edge u v → ¬ back u v → rank u < rank v
  isEdge : ∀ u h, back u h → edge u h
  latch : ∀ u h, back u h → body h u
  closed : ∀ h u v, edge u v → body h v → v ≠ h → body h u
  first : ∀ h x, body h x → x ≠ h → rank h < rank x

/-- No other loop contains `h`. -/
def Outermost (back : β → β → Prop) (body : β → β → Prop) (h : β) : Prop :=
  ∀ u y, back u y → y ≠ h → ¬ body y h

section Nest

variable {edge back : β → β → Prop} {rank : β → Nat} {body : β → β → Prop}

/-- From an outermost header one only reaches vertices and loops that come after it. -/
theorem Nest.reach (hn : Nest edge back rank body) {h z : β} (hout : Outermost back body h)
    (hr : ReflTransGen edge h z) :
    rank h ≤ rank z ∧ ∀ u y, back u y → y ≠ h → body y z → rank h ≤ rank y := by
  induction hr with
  | refl => exact ⟨Nat.le_refl _, fun u y hb hy hz => absurd hz (hout u y hb hy)⟩
  | @tail x z _ hxz ih =>
    have hrank : rank h ≤ rank z := by
      by_cases hb : back x z
      · by_cases hzh : z = h
        · exact Nat.le_of_eq (congrArg rank hzh.symm)
        · exact ih.2 x z hb hzh (hn.latch x z hb)
      · exact Nat.le_of_lt (Nat.lt_of_le_of_lt ih.1 (hn.up x z hxz hb))
    refine ⟨hrank, fun u y hb hy hz => ?_⟩
    by_cases hzy : z = y
    · exact hzy ▸ hrank
    · exact ih.2 u y hb hy (hn.closed y x z hxz hz hzy)

/-- An outermost loop is entered once. -/
theorem Nest.not_reenter (hn : Nest edge back rank body) {h v : β} (hout : Outermost back body h)
    (hr : ReflTransGen edge h v) (he : edge v h) (hb : ¬ back v h) : False :=
  Nat.lt_irrefl _ (Nat.lt_of_le_of_lt (hn.reach hout hr).1 (hn.up v h he hb))

end Nest

/-! ## Trails -/

/-- A walk, latest vertex first, without the loops it has completed. `hs` are the headers it came
to over a back edge without having passed them before. -/
inductive Trail (opn back : β → β → Prop) : List β → List β → Prop where
  | one (v : β) : Trail opn back [] [v]
  | forward {hs P : List β} {u : β} (v : β) (ht : Trail opn back hs (u :: P)) (he : opn u v) :
      Trail opn back hs (v :: u :: P)
  | back {hs P : List β} {u : β} (h : β) (ht : Trail opn back hs (u :: P)) (he : back u h)
      (hnew : h ∉ u :: P) : Trail opn back (h :: hs) (h :: u :: P)

/-- A stretch of a trail without back edges, latest vertex first. -/
def Stretch (opn : β → β → Prop) (Q : List β) : Prop := Q.IsChain fun v u => opn u v

theorem Stretch.cons {opn : β → β → Prop} {u v : β} {Q : List β} (h : Stretch opn (u :: Q))
    (he : opn u v) : Stretch opn (v :: u :: Q) := List.isChain_cons_cons.mpr ⟨he, h⟩

variable {opn back : β → β → Prop}

theorem Trail.subset {hs P : List β} (h : Trail opn back hs P) : hs ⊆ P := by
  induction h with
  | one v => exact List.nil_subset _
  | forward v _ _ ih => exact fun x hx => List.mem_cons_of_mem v (ih hx)
  | back h _ _ _ ih =>
    intro x hx
    rcases List.mem_cons.mp hx with rfl | hx
    · exact List.mem_cons_self
    · exact List.mem_cons_of_mem h (ih hx)

theorem Trail.nodup {hs P : List β} (h : Trail opn back hs P) : hs.Nodup := by
  induction h with
  | one v => exact List.nodup_nil
  | forward v _ _ ih => exact ih
  | back h ht _ hnew ih => exact List.nodup_cons.mpr ⟨fun hmem => hnew (ht.subset hmem), ih⟩

/-- A header left in the trail is not its own latch. -/
theorem Trail.header {hs P : List β} (h : Trail opn back hs P) :
    ∀ x ∈ hs, ∃ u, back u x ∧ u ≠ x := by
  induction h with
  | one v => exact fun x hx => absurd hx List.not_mem_nil
  | forward v _ _ ih => exact ih
  | back h ht he hnew ih =>
    intro x hx
    rcases List.mem_cons.mp hx with rfl | hx
    · exact ⟨_, he, fun heq => hnew (heq ▸ List.mem_cons_self)⟩
    · exact ih x hx

section Cost

theorem sum_map_update [DecidableEq β] (w : β → Int) (c : Int) {e : β} {l : List β} (hn : l.Nodup)
    (he : e ∈ l) : (l.map (Function.update w e (w e + c))).sum = (l.map w).sum + c := by
  induction l with
  | nil => cases he
  | cons b l ih =>
    obtain ⟨hb, hl⟩ := List.nodup_cons.mp hn
    rw [List.map_cons, List.map_cons, List.sum_cons, List.sum_cons]
    by_cases hbe : b = e
    · subst hbe
      have hrest : l.map (Function.update w b (w b + c)) = l.map w :=
        List.map_congr_left fun x hx => Function.update_of_ne (ne_of_mem_of_not_mem hx hb) _ _
      rw [Function.update_self, hrest]
      omega
    · have hel : e ∈ l := (List.mem_cons.mp he).resolve_left fun heq => hbe heq.symm
      rw [Function.update_of_ne hbe, ih hl hel]
      omega

variable {w : β → Int} {K : Int}

/-- A trail ends with a stretch, and has one more for every header left in it. -/
theorem Trail.sum_last (hK : ∀ Q, Stretch opn Q → (Q.map w).sum ≤ K) {hs P : List β}
    (h : Trail opn back hs P) :
    ∃ u Q R, P = u :: Q ++ R ∧ Stretch opn (u :: Q) ∧ (R.map w).sum ≤ hs.length * K := by
  induction h with
  | one v => exact ⟨v, [], [], rfl, .singleton v, by simp⟩
  | @forward hs P u v _ he ih =>
    obtain ⟨u', Q, R, hP, hQ, hR⟩ := ih
    obtain ⟨rfl, rfl⟩ := List.cons.inj hP
    exact ⟨v, u :: Q, R, rfl, hQ.cons he, hR⟩
  | @back hs P v h _ _ _ ih =>
    obtain ⟨u, Q, R, hP, hQ, hR⟩ := ih
    refine ⟨h, [], v :: P, rfl, .singleton h, ?_⟩
    have hle := hK _ hQ
    rw [hP, List.map_append, List.sum_append, List.length_cons, Int.natCast_add, Int.add_mul]
    omega

theorem Trail.sum_le (hK : ∀ Q, Stretch opn Q → (Q.map w).sum ≤ K) {hs P : List β}
    (h : Trail opn back hs P) : (P.map w).sum ≤ (hs.length + 1) * K := by
  obtain ⟨u, Q, R, hP, hQ, hR⟩ := h.sum_last hK
  have hle := hK _ hQ
  rw [hP, List.map_append, List.sum_append, Int.add_mul]
  omega

end Cost

section Cut

variable {edge : β → β → Prop} {rank : β → Nat} {body : β → β → Prop}

/-- A loop that contains the end of a stretch and is not entered on it contains its start. -/
theorem Stretch.body_start (hn : Nest edge back rank body) (ho : ∀ u v, opn u v → edge u v)
    {h a x : β} {Q : List β} (hs : Stretch opn (x :: Q ++ [a])) (hx : body h x)
    (hav : ∀ z ∈ x :: Q, z ≠ h) : body h a := by
  induction Q generalizing x with
  | nil =>
    obtain ⟨he, -⟩ := List.isChain_cons_cons.mp hs
    exact hn.closed h a x (ho a x he) hx (hav x (by simp))
  | cons y Q ih =>
    obtain ⟨he, hrest⟩ := List.isChain_cons_cons.mp hs
    refine ih hrest (hn.closed h y x (ho y x he) hx (hav x (by simp))) fun z hz => ?_
    exact hav z (List.mem_cons_of_mem x hz)

/-- The part of a trail since its last visit of `h`, unless a back edge in between left the loop
of `h` for one around it. -/
theorem Trail.since (hn : Nest edge back rank body) (ho : ∀ u v, opn u v → edge u v) {h : β}
    {hs P : List β} (ht : Trail opn back hs P) (hmem : h ∈ P) :
    (∃ Q R, P = Q ++ h :: R ∧ Trail opn back hs (h :: R) ∧ Stretch opn (Q ++ [h])) ∨
      ∃ y, y ≠ h ∧ body y h ∧ ∀ x P', P = x :: P' → body h x → body h y := by
  induction ht with
  | one v =>
    cases List.mem_singleton.mp hmem
    exact .inl ⟨[], [], rfl, .one h, .singleton h⟩
  | @forward hs P u v ht he ih =>
    by_cases hvh : v = h
    · subst hvh
      exact .inl ⟨[], u :: P, rfl, .forward v ht he, .singleton v⟩
    · have hmem : h ∈ u :: P := (List.mem_cons.mp hmem).resolve_left (fun heq => hvh heq.symm)
      rcases ih hmem with ⟨Q, R, hP, hR, hQ⟩ | ⟨y, hy, hyh, hback⟩
      · refine .inl ⟨v :: Q, R, by rw [hP]; rfl, hR, ?_⟩
        cases Q with
        | nil =>
          cases hP
          exact hQ.cons he
        | cons q Q =>
          cases hP
          exact hQ.cons he
      · refine .inr ⟨y, hy, hyh, fun x P' hx hb => ?_⟩
        cases hx
        exact hback u P rfl (hn.closed h u v (ho u v he) hb hvh)
  | @back hs P u k ht he hnew ih =>
    by_cases hkh : k = h
    · subst hkh
      exact .inl ⟨[], u :: P, rfl, .back k ht he hnew, .singleton k⟩
    · have hmem : h ∈ u :: P := (List.mem_cons.mp hmem).resolve_left (fun heq => hkh heq.symm)
      right
      rcases ih hmem with ⟨Q, R, hP, hR, hQ⟩ | ⟨y, hy, hyh, hback⟩
      · refine ⟨k, hkh, ?_, fun x P' hx hb => by cases hx; exact hb⟩
        have hu : body k u := hn.latch u k he
        cases Q with
        | nil =>
          cases hP
          exact hu
        | cons q Q =>
          cases hP
          refine Stretch.body_start hn ho hQ hu fun z hz hzk => hnew ?_
          rw [← hzk]
          exact List.mem_append_left _ hz
      · refine ⟨y, hy, hyh, fun x P' hx hb => ?_⟩
        cases hx
        exact hback u P rfl (hn.closed h u k (hn.isEdge u k he) hb hkh)

/-- At a back edge to a header on the trail, the trail since the header is a stretch. -/
theorem Trail.cut (hn : Nest edge back rank body) (ho : ∀ u v, opn u v → edge u v) {h u : β}
    {hs P : List β} (ht : Trail opn back hs (u :: P)) (hmem : h ∈ u :: P) (hb : back u h) :
    ∃ Q R, u :: P = Q ++ h :: R ∧ Trail opn back hs (h :: R) ∧ Stretch opn (Q ++ [h]) := by
  rcases ht.since hn ho hmem with hcut | ⟨y, hy, hyh, hback⟩
  · exact hcut
  · have hhy := hback u P rfl (hn.latch u h hb)
    have h₁ := hn.first h y hhy hy
    have h₂ := hn.first y h hyh (fun heq => hy heq.symm)
    omega

end Cut

end TinyQuanta.LoopNest
