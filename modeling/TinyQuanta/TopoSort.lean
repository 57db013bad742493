import Mathlib.Data.List.Basic
import Mathlib.Logic.Function.Basic
import Mathlib.Logic.Relation

/-!
# Depth-first topological sort

The recursive sort with three colours: a vertex is grey while its successors are
explored and is appended to the result when it is finished. The recursion is on
fuel; on an acyclic part of the graph as much fuel as there are white vertices
is enough, and the result lists what was reached in reverse topological order.
-/
namespace TinyQuanta.TopoSort

open Relation

variable {β : Type}

inductive Color where
  | white | grey | black
  deriving DecidableEq, Repr

structure Marks (β : Type) where
  color : β → Color
  sorted : List β

inductive Failure where
  | fuel | cycle
  deriving DecidableEq, Repr

/-- Sort what can be reached from a white vertex. -/
def visit [DecidableEq β] (next : β → List β) : Nat → β → Marks β → Except Failure (Marks β)
  | 0, _, _ => .error .fuel
  | n + 1, b, m =>
    match (next b).foldlM (fun m s =>
        match m.color s with
        | .white => visit next n s m
        | .grey => .error .cycle
        | .black => .ok m) { m with color := Function.update m.color b .grey } with
    | .error e => .error e
    | .ok m => .ok { color := Function.update m.color b .black, sorted := m.sorted ++ [b] }

/-- There is an edge from `a` to `b`. -/
def Edge (next : β → List β) (a b : β) : Prop := b ∈ next a

/-- Every vertex stands after all its successors. -/
inductive RevTopo (next : β → List β) : List β → Prop where
  | nil : RevTopo next []
  | snoc (l : List β) (a : β) (hl : RevTopo next l) (ha : ∀ b ∈ next a, b ∈ l) :
    RevTopo next (l ++ [a])

theorem RevTopo.closed {next : β → List β} {l : List β} (h : RevTopo next l) {a b : β}
    (ha : a ∈ l) (hb : b ∈ next a) : b ∈ l := by
  induction h with
  | nil => cases ha
  | snoc l c hl hc ih =>
    rcases List.mem_append.mp ha with ha | ha
    · exact List.mem_append_left _ (ih ha)
    · cases List.mem_singleton.mp ha
      exact List.mem_append_left _ (hc b hb)

/-- Successors come first. -/
theorem RevTopo.idxOf_lt [DecidableEq β] {next : β → List β} {l : List β} (h : RevTopo next l)
    (hn : l.Nodup) {a b : β} (ha : a ∈ l) (hb : b ∈ next a) : l.idxOf b < l.idxOf a := by
  induction h with
  | nil => cases ha
  | snoc l c hl hc ih =>
    rw [List.nodup_append] at hn
    rcases List.mem_append.mp ha with ha | ha
    · rw [List.idxOf_append_of_mem ha, List.idxOf_append_of_mem (hl.closed ha hb)]
      exact ih hn.1 ha
    · cases List.mem_singleton.mp ha
      have hbl := hc b hb
      have hal : a ∉ l := fun hmem => hn.2.2 a hmem a (by simp) rfl
      have hlt := List.idxOf_lt_length_iff.mpr hbl
      rw [List.idxOf_append_of_mem hbl, List.idxOf_append_of_notMem hal]
      omega

theorem RevTopo.initial {next : β → List β} {l l' : List β} (h : RevTopo next l') (hl : l <+: l') :
    RevTopo next l := by
  induction h with
  | nil =>
    rw [List.prefix_nil.mp hl]
    exact .nil
  | snoc l' a h ha ih =>
    rcases List.prefix_concat_iff.mp hl with rfl | hl
    · exact .snoc l' a h ha
    · exact ih hl

theorem RevTopo.reaches {next : β → List β} {l : List β} (h : RevTopo next l) {a b : β}
    (ha : a ∈ l) (hab : ReflTransGen (Edge next) a b) : b ∈ l := by
  induction hab with
  | refl => exact ha
  | tail _ hbc ih => exact h.closed ih hbc

/-- The finished vertices are the black ones, listed once, successors first. -/
structure Good (next : β → List β) (m : Marks β) : Prop where
  black : ∀ b, m.color b = .black ↔ b ∈ m.sorted
  nodup : m.sorted.Nodup
  order : RevTopo next m.sorted

/-- What exploring leaves alone. -/
structure Extends (m m' : Marks β) : Prop where
  sorted : m.sorted <+: m'.sorted
  grey : ∀ b, m'.color b = .grey ↔ m.color b = .grey

theorem Extends.refl (m : Marks β) : Extends m m := ⟨List.prefix_refl _, fun _ => Iff.rfl⟩

theorem Extends.trans {m₁ m₂ m₃ : Marks β} (h₁ : Extends m₁ m₂) (h₂ : Extends m₂ m₃) :
    Extends m₁ m₃ :=
  ⟨h₁.sorted.trans h₂.sorted, fun b => (h₂.grey b).trans (h₁.grey b)⟩

/-- Finished vertices stay finished. -/
theorem Extends.black {next : β → List β} {m m' : Marks β} (h : Extends m m') (hg : Good next m)
    (hg' : Good next m') {b : β} (hb : m.color b = .black) : m'.color b = .black :=
  (hg'.black b).mpr (h.sorted.subset ((hg.black b).mp hb))

/-- How many vertices have not been reached. -/
def whites (univ : List β) (m : Marks β) : Nat := univ.countP fun b => m.color b = .white

theorem whites_mono {next : β → List β} (univ : List β) {m m' : Marks β} (h : Extends m m')
    (hg : Good next m) (hg' : Good next m') : whites univ m' ≤ whites univ m := by
  apply List.countP_mono_left
  intro b _ hb
  simp only [decide_eq_true_eq] at hb ⊢
  cases hc : m.color b with
  | white => rfl
  | grey =>
    rw [(h.grey b).mpr hc] at hb
    cases hb
  | black =>
    rw [h.black hg hg' hc] at hb
    cases hb

theorem whites_grey [DecidableEq β] {univ : List β} {m : Marks β} {b : β} (hb : b ∈ univ)
    (hw : m.color b = .white) :
    whites univ { m with color := Function.update m.color b .grey } < whites univ m := by
  unfold whites
  obtain ⟨l₁, l₂, rfl⟩ := List.append_of_mem hb
  have hle : ∀ l : List β, l.countP (fun c => Function.update m.color b .grey c = .white) ≤
      l.countP (fun c => m.color c = .white) := by
    intro l
    apply List.countP_mono_left
    intro c _ hc
    by_cases he : c = b
    · subst he
      simp at hc
    · simpa [he] using hc
  have h₁ := hle l₁
  have h₂ := hle l₂
  simp only [List.countP_append, List.countP_cons, Function.update_self, hw, reduceCtorEq,
    decide_false, decide_true, if_true, Bool.false_eq_true, if_false]
  omega

section Correct

variable [DecidableEq β] (next : β → List β) (univ : List β)

/-- What the visit of `b` achieves with fuel `n`. -/
def Visits (n : Nat) : Prop :=
  ∀ b m, b ∈ univ → m.color b = .white → Good next m →
    (∀ g, m.color g = .grey → TransGen (Edge next) g b) →
    (∀ x, ReflTransGen (Edge next) b x → ¬ TransGen (Edge next) x x) → whites univ m ≤ n →
    ∃ m', visit next n b m = .ok m' ∧ Good next m' ∧ Extends m m' ∧ m'.color b = .black ∧
      ∀ x ∈ m'.sorted, x ∈ m.sorted ∨ ReflTransGen (Edge next) b x

variable {next univ}

/-- The loop over the successors of a grey vertex `b`. -/
theorem visit_successors (hclosed : ∀ b ∈ univ, ∀ s ∈ next b, s ∈ univ) {n : Nat}
    (ih : Visits next univ n) {b : β} (hb : b ∈ univ)
    (hacyc : ∀ x, ReflTransGen (Edge next) b x → ¬ TransGen (Edge next) x x) (ss : List β)
    (hss : ∀ s ∈ ss, s ∈ next b) (m : Marks β) (hgood : Good next m)
    (hgrey : ∀ g, m.color g = .grey → g = b ∨ TransGen (Edge next) g b)
    (hfuel : whites univ m ≤ n) :
    ∃ m', ss.foldlM (fun m s =>
        match m.color s with
        | .white => visit next n s m
        | .grey => .error .cycle
        | .black => .ok m) m = .ok m' ∧
      Good next m' ∧ Extends m m' ∧ (∀ s ∈ ss, m'.color s = .black) ∧
      ∀ x ∈ m'.sorted, x ∈ m.sorted ∨ ReflTransGen (Edge next) b x := by
  induction ss generalizing m with
  | nil => exact ⟨m, rfl, hgood, .refl m, by simp, fun x hx => .inl hx⟩
  | cons s ss ihs =>
    have hedge : Edge next b s := hss s (by simp)
    have hs : s ∈ univ := hclosed b hb s hedge
    have hacyc' : ∀ x, ReflTransGen (Edge next) s x → ¬ TransGen (Edge next) x x :=
      fun x hx => hacyc x (hx.head hedge)
    have hstack : ∀ g, m.color g = .grey → TransGen (Edge next) g s := by
      intro g hg
      rcases hgrey g hg with rfl | hg
      · exact .single hedge
      · exact hg.tail hedge
    obtain ⟨m₁, hrun, hgood₁, hext₁, hblack, hnew₁⟩ : ∃ m₁, (match m.color s with
          | .white => visit next n s m
          | .grey => .error .cycle
          | .black => .ok m) = .ok m₁ ∧ Good next m₁ ∧ Extends m m₁ ∧ m₁.color s = .black ∧
        ∀ x ∈ m₁.sorted, x ∈ m.sorted ∨ ReflTransGen (Edge next) s x := by
      cases hc : m.color s with
      | white => exact ih s m hs hc hgood hstack hacyc' hfuel
      | grey => exact absurd (hstack s hc) (hacyc' s .refl)
      | black => exact ⟨m, rfl, hgood, .refl m, hc, fun x hx => .inl hx⟩
    obtain ⟨m₂, hrun₂, hgood₂, hext₂, hblack₂, hnew₂⟩ :=
      ihs (fun t ht => hss t (by simp [ht])) m₁ hgood₁
        (fun g hg => hgrey g ((hext₁.grey g).mp hg))
        (Nat.le_trans (whites_mono univ hext₁ hgood hgood₁) hfuel)
    refine ⟨m₂, ?_, hgood₂, hext₁.trans hext₂, ?_, ?_⟩
    · rw [List.foldlM_cons, hrun]
      exact hrun₂
    · intro t ht
      rcases List.mem_cons.mp ht with rfl | ht
      · exact hext₂.black hgood₁ hgood₂ hblack
      · exact hblack₂ t ht
    · intro x hx
      rcases hnew₂ x hx with hx | hx
      · rcases hnew₁ x hx with hx | hx
        · exact .inl hx
        · exact .inr (hx.head hedge)
      · exact .inr hx

theorem visits (hclosed : ∀ b ∈ univ, ∀ s ∈ next b, s ∈ univ) (n : Nat) : Visits next univ n := by
  induction n with
  | zero =>
    intro b m hb hw hgood hgrey hacyc hfuel
    have hpos : 0 < whites univ m := List.countP_pos_iff.mpr ⟨b, hb, by simp [hw]⟩
    omega
  | succ n ih =>
    intro b m hb hw hgood hgrey hacyc hfuel
    have hfewer := whites_grey hb hw
    have hgood' : Good next { m with color := Function.update m.color b .grey } := by
      refine ⟨fun c => ?_, hgood.nodup, hgood.order⟩
      by_cases hc : c = b
      · subst hc
        have hn : c ∉ m.sorted := by
          rw [← hgood.black, hw]
          simp
        simp [hn]
      · simpa [hc] using hgood.black c
    obtain ⟨m', hrun, hgoodm, hext, hblack, hnew⟩ := visit_successors hclosed ih hb hacyc (next b)
      (fun s hs => hs) { m with color := Function.update m.color b .grey } hgood'
      (by
        intro g hg
        by_cases hgb : g = b
        · exact .inl hgb
        · exact .inr (hgrey g (by simpa [hgb] using hg)))
      (by omega)
    have hbgrey : m'.color b = .grey := (hext.grey b).mpr (by simp)
    have hbn : b ∉ m'.sorted := by
      rw [← hgoodm.black, hbgrey]
      simp
    refine ⟨{ color := Function.update m'.color b .black, sorted := m'.sorted ++ [b] }, ?_, ?_,
      ⟨hext.sorted.trans (List.prefix_append _ _), fun c => ?_⟩, by simp, fun x hx => ?_⟩
    · simp only [visit, hrun]
    · refine ⟨fun c => ?_, ?_, RevTopo.snoc _ _ hgoodm.order fun s hs =>
        (hgoodm.black s).mp (hblack s hs)⟩
      · by_cases hc : c = b
        · subst hc
          simp
        · simpa [hc] using hgoodm.black c
      · rw [List.nodup_append]
        exact ⟨hgoodm.nodup, by simp, fun x hx y hy he => hbn (by
          cases List.mem_singleton.mp hy
          exact he ▸ hx)⟩
    · by_cases hc : c = b
      · subst hc
        simp [hw]
      · have hg := hext.grey c
        simpa [hc] using hg
    · rcases List.mem_append.mp hx with hx | hx
      · exact hnew x hx
      · exact .inr (List.mem_singleton.mp hx ▸ .refl)

end Correct

/-- All vertices white, nothing sorted. -/
def start : Marks β := ⟨fun _ => .white, []⟩

/-- If nothing that can be reached from `root` lies on a cycle, the sort succeeds, and lists
exactly what can be reached, once each, successors first. -/
theorem sort_correct [DecidableEq β] {next : β → List β} {univ : List β} {root : β}
    (hroot : root ∈ univ)
    (hclosed : ∀ b ∈ univ, ∀ s ∈ next b, s ∈ univ)
    (hacyc : ∀ x, ReflTransGen (Edge next) root x → ¬ TransGen (Edge next) x x) {n : Nat}
    (hn : univ.length ≤ n) :
    ∃ m, visit next n root start = .ok m ∧ m.sorted.Nodup ∧ RevTopo next m.sorted ∧
      ∀ x, x ∈ m.sorted ↔ ReflTransGen (Edge next) root x := by
  have hgood : Good next (start : Marks β) := ⟨by simp [start], List.nodup_nil, .nil⟩
  obtain ⟨m, hrun, hg, -, hblack, hnew⟩ := visits hclosed n root start hroot rfl hgood
    (by simp [start]) hacyc (Nat.le_trans List.countP_le_length hn)
  refine ⟨m, hrun, hg.nodup, hg.order, fun x => ⟨fun hx => ?_, fun hx => ?_⟩⟩
  · exact (hnew x hx).resolve_left (by simp [start])
  · exact hg.order.reaches ((hg.black root).mp hblack) hx

end TinyQuanta.TopoSort
