import Mathlib.Data.List.Basic

/-!
# Array binary heaps as the C++ library builds them

`pushHeap` and `adjustHeap` follow `__push_heap` and `__adjust_heap`: a hole
moves through the array and the displaced value is written once, at the end.
The comparator `lt` is only assumed to agree with some transitive relation
`above`. With a strict weak order this is the textbook contract; with a coarser
relation the same lemmas say which part of the order survives when some keys
have been changed behind the back of the heap.
-/
namespace TinyQuanta.BinaryHeap

variable {α : Type}

/-- `__push_heap`: parents move down until the hole fits `value`. -/
def pushHeap (lt : α → α → Bool) (value : α) : Nat → List α → Nat → List α
  | 0, l, hole => l.set hole value
  | fuel + 1, l, hole =>
    match l[(hole - 1) / 2]? with
    | none => l.set hole value
    | some p =>
      if 0 < hole ∧ lt p value = true then pushHeap lt value fuel (l.set hole p) ((hole - 1) / 2)
      else l.set hole value

/-- The larger of the two children of `hole`, as the loop of `__adjust_heap` picks it. -/
def largerChild (lt : α → α → Bool) (l : List α) (hole : Nat) : Nat :=
  match l[2 * hole + 2]?, l[2 * hole + 1]? with
  | some right, some left => if lt right left = true then 2 * hole + 1 else 2 * hole + 2
  | _, _ => 2 * hole + 2

/-- The walk of `__adjust_heap` that moves the hole to a leaf, always lifting the larger child;
a last parent with a single child is treated after the loop. -/
def adjustHeap (lt : α → α → Bool) : Nat → List α → Nat → List α × Nat
  | 0, l, hole => (l, hole)
  | fuel + 1, l, hole =>
    if hole < (l.length - 1) / 2 then
      match l[largerChild lt l hole]? with
      | none => (l, hole)
      | some c => adjustHeap lt fuel (l.set hole c) (largerChild lt l hole)
    else if l.length % 2 = 0 ∧ hole = (l.length - 2) / 2 then
      match l[2 * hole + 1]? with
      | none => (l, hole)
      | some c => (l.set hole c, 2 * hole + 1)
    else (l, hole)

/-- `priority_queue::push`. -/
def push (lt : α → α → Bool) (l : List α) (value : α) : List α :=
  pushHeap lt value l.length (l ++ [value]) l.length

/-- `priority_queue::pop`: the last element is taken out and pushed into the hole left at the
top. -/
def pop (lt : α → α → Bool) (l : List α) : List α :=
  match l.getLast? with
  | none => []
  | some value =>
    if l.length ≤ 1 then []
    else
      let (l', hole) := adjustHeap lt l.length l.dropLast 0
      pushHeap lt value hole l' hole

/-- The comparator decides the order that the heap is kept in: a total preorder, or a coarser
one that ignores part of what the comparator looks at. -/
structure Decides (lt : α → α → Bool) (above : α → α → Prop) : Prop where
  refl : ∀ a, above a a
  trans : ∀ a b c, above a b → above b c → above a c
  of_lt : ∀ a b, lt a b = true → above b a
  of_not_lt : ∀ a b, lt a b = false → above a b

/-- Elements may be compared through what is stored about them. -/
theorem Decides.comap {β : Type} {lt : β → β → Bool} {above : β → β → Prop} (d : Decides lt above)
    (f : α → β) : Decides (fun a b => lt (f a) (f b)) (fun a b => above (f a) (f b)) where
  refl a := d.refl (f a)
  trans a b c := d.trans (f a) (f b) (f c)
  of_lt a b := d.of_lt (f a) (f b)
  of_not_lt a b := d.of_not_lt (f a) (f b)

/-- Every element is above its children. -/
def Ordered (above : α → α → Prop) (l : List α) : Prop :=
  ∀ i, 0 < i → ∀ p c, l[(i - 1) / 2]? = some p → l[i]? = some c → above p c

/-- All pairs that do not involve the hole are in order, and so are the hole's
children with the hole's parent. -/
structure Holed (above : α → α → Prop) (l : List α) (hole : Nat) : Prop where
  off : ∀ i, 0 < i → i ≠ hole → (i - 1) / 2 ≠ hole →
    ∀ p c, l[(i - 1) / 2]? = some p → l[i]? = some c → above p c
  around : 0 < hole → ∀ i, 0 < i → (i - 1) / 2 = hole →
    ∀ p c, l[(hole - 1) / 2]? = some p → l[i]? = some c → above p c

/-- Moving a value into the hole leaves the multiset of values as it was. -/
theorem set_hole_perm (l : List α) (hole j : Nat) (v x : α) (hh : hole < l.length)
    (hj : l[j]? = some x) (hne : j ≠ hole) :
    ((l.set hole x).set j v).Perm (l.set hole v) := by
  obtain ⟨hlt, rfl⟩ := List.getElem?_eq_some_iff.mp hj
  have h := @List.set_set_perm α (l.set hole v) hole j (by simpa using hh) (by simpa using hlt)
  simpa [List.getElem_set, hne.symm] using h

theorem pushHeap_perm (lt : α → α → Bool) (v : α) (fuel : Nat) (l : List α) (hole : Nat)
    (hh : hole < l.length) : (pushHeap lt v fuel l hole).Perm (l.set hole v) := by
  induction fuel generalizing l hole with
  | zero => exact List.Perm.refl _
  | succ fuel ih =>
    simp only [pushHeap]
    cases hp : l[(hole - 1) / 2]? with
    | none => exact List.Perm.refl _
    | some p =>
      by_cases hc : 0 < hole ∧ lt p v = true
      · simp only [hc, and_self, if_true]
        have h := ih (l.set hole p) ((hole - 1) / 2) (by rw [List.length_set]; omega)
        exact h.trans (set_hole_perm l hole _ v p hh hp (by omega))
      · simp only [hc, if_false]
        exact List.Perm.refl _

theorem largerChild_range (lt : α → α → Bool) (l : List α) (hole : Nat) :
    largerChild lt l hole = 2 * hole + 1 ∨ largerChild lt l hole = 2 * hole + 2 := by
  unfold largerChild
  split
  · split <;> simp
  · simp

theorem adjustHeap_perm (lt : α → α → Bool) (v : α) (fuel : Nat) (l : List α) (hole : Nat)
    (hh : hole < l.length) :
    (adjustHeap lt fuel l hole).2 < (adjustHeap lt fuel l hole).1.length ∧
      ((adjustHeap lt fuel l hole).1.set (adjustHeap lt fuel l hole).2 v).Perm (l.set hole v) := by
  induction fuel generalizing l hole with
  | zero => exact ⟨hh, List.Perm.refl _⟩
  | succ fuel ih =>
    simp only [adjustHeap]
    by_cases hc : hole < (l.length - 1) / 2
    · simp only [hc, if_true]
      have hr := largerChild_range lt l hole
      cases hx : l[largerChild lt l hole]? with
      | none => exact ⟨hh, List.Perm.refl _⟩
      | some x =>
        obtain ⟨h₁, h₂⟩ := ih (l.set hole x) (largerChild lt l hole)
          (by rw [List.length_set]; omega)
        exact ⟨h₁, h₂.trans (set_hole_perm l hole _ v x hh hx (by omega))⟩
    · simp only [hc, if_false]
      by_cases he : l.length % 2 = 0 ∧ hole = (l.length - 2) / 2
      · rw [if_pos he]
        cases hx : l[2 * hole + 1]? with
        | none => exact ⟨hh, List.Perm.refl _⟩
        | some x =>
          have hlt := (List.getElem?_eq_some_iff.mp hx).1
          exact ⟨by simpa using hlt, set_hole_perm l hole (2 * hole + 1) v x hh hx (by omega)⟩
      · simp only [he, if_false]
        exact ⟨hh, List.Perm.refl _⟩

theorem push_perm (lt : α → α → Bool) (l : List α) (v : α) : (push lt l v).Perm (v :: l) := by
  have h := pushHeap_perm lt v l.length (l ++ [v]) l.length (by simp)
  have he : (l ++ [v]).set l.length v = l ++ [v] := by simp
  rw [he] at h
  exact h.trans (List.perm_append_singleton v l)

theorem foldl_push_perm (lt : α → α → Bool) (l q : List α) :
    (l.foldl (push lt) q).Perm (q ++ l) := by
  induction l generalizing q with
  | nil => simp
  | cons v l ih =>
    have hp : ((push lt q v) ++ l).Perm (q ++ v :: l) :=
      ((push_perm lt q v).append_right l).trans List.perm_middle.symm
    exact (ih (push lt q v)).trans hp

theorem pop_perm (lt : α → α → Bool) (x : α) (l : List α) : (pop lt (x :: l)).Perm l := by
  cases hl : l.getLast? with
  | none =>
    rw [List.getLast?_eq_none_iff] at hl
    subst hl
    simp [pop]
  | some v =>
    have hne : l ≠ [] := by rintro rfl; simp at hl
    have hlen : 0 < l.length := List.length_pos_iff.mpr hne
    have hlast : (x :: l).getLast? = some v := by rw [List.getLast?_cons, hl]; rfl
    have hdrop : (x :: l).dropLast = x :: l.dropLast := List.dropLast_cons_of_ne_nil hne
    have happ : l.dropLast ++ [v] = l := by
      rw [List.getLast?_eq_some_getLast hne] at hl
      cases hl
      exact List.dropLast_concat_getLast hne
    obtain ⟨h₁, h₂⟩ := adjustHeap_perm lt v (x :: l).length (x :: l.dropLast) 0 (by simp)
    have h₃ := pushHeap_perm lt v (adjustHeap lt (x :: l).length (x :: l.dropLast) 0).2 _ _ h₁
    have h₄ := (List.perm_append_singleton v l.dropLast).symm
    rw [happ] at h₄
    simp only [pop, hlast, hdrop, List.length_cons, show ¬ (l.length + 1 ≤ 1) by omega, if_false]
    exact (h₃.trans h₂).trans h₄

section Order

variable {lt : α → α → Bool} {above : α → α → Prop} (d : Decides lt above)

include d in
/-- One step of `__push_heap` keeps everything off the hole in order. -/
theorem pushHeap_step {l : List α} {hole : Nat} {v p : α} (h : Holed above l hole)
    (below : ∀ i, 0 < i → (i - 1) / 2 = hole → ∀ c, l[i]? = some c → above v c)
    (hpos : 0 < hole) (hp : l[(hole - 1) / 2]? = some p) (hlt : lt p v = true) :
    Holed above (l.set hole p) ((hole - 1) / 2) ∧
      ∀ i, 0 < i → (i - 1) / 2 = (hole - 1) / 2 → ∀ c, (l.set hole p)[i]? = some c → above v c := by
  have hv : above v p := d.of_lt p v hlt
  have side : ∀ i, 0 < i → i ≠ hole → (i - 1) / 2 = (hole - 1) / 2 →
      ∀ c, l[i]? = some c → above p c := by
    intro i hi hne he c hc
    exact h.off i hi hne (by omega) p c (by rw [he]; exact hp) hc
  have same : ∀ c, (l.set hole p)[hole]? = some c → c = p := by
    intro c hc
    rw [List.getElem?_set] at hc
    simp only [if_true] at hc
    split at hc
    · exact (Option.some.inj hc).symm
    · cases hc
  refine ⟨⟨?_, ?_⟩, ?_⟩
  · intro i hi hne hpar q c hq hc
    have hih : i ≠ hole := by rintro rfl; exact hpar rfl
    rw [List.getElem?_set_ne (Ne.symm hih)] at hc
    by_cases hph : (i - 1) / 2 = hole
    · rw [hph] at hq
      rw [same q hq]
      exact h.around hpos i hi hph p c hp hc
    · rw [List.getElem?_set_ne (Ne.symm hph)] at hq
      exact h.off i hi hih hph q c hq hc
  · intro hpos' i hi hpar q c hq hc
    have hqp : above q p := by
      rw [List.getElem?_set_ne (by omega)] at hq
      exact h.off ((hole - 1) / 2) hpos' (by omega) (by omega) q p hq hp
    by_cases hih : i = hole
    · subst hih
      rw [same c hc]
      exact hqp
    · rw [List.getElem?_set_ne (Ne.symm hih)] at hc
      exact d.trans q p c hqp (side i hi hih hpar c hc)
  · intro i hi hpar c hc
    by_cases hih : i = hole
    · subst hih
      rw [same c hc]
      exact hv
    · rw [List.getElem?_set_ne (Ne.symm hih)] at hc
      exact d.trans v p c hv (side i hi hih hpar c hc)

/-- Writing a value that fits the hole completes the heap. -/
theorem holed_fill {l : List α} {hole : Nat} {v : α} (h : Holed above l hole)
    (below : ∀ i, 0 < i → (i - 1) / 2 = hole → ∀ c, l[i]? = some c → above v c)
    (fits : 0 < hole → ∀ p, l[(hole - 1) / 2]? = some p → above p v) :
    Ordered above (l.set hole v) := by
  intro i hi p c hp hc
  by_cases hih : i = hole
  · subst hih
    rw [List.getElem?_set_ne (by omega)] at hp
    rw [List.getElem?_set] at hc
    simp only [if_true] at hc
    split at hc
    · cases hc
      exact fits hi p hp
    · cases hc
  · rw [List.getElem?_set_ne (Ne.symm hih)] at hc
    by_cases hph : (i - 1) / 2 = hole
    · rw [hph, List.getElem?_set] at hp
      simp only [if_true] at hp
      split at hp
      · cases hp
        exact below i hi hph c hc
      · cases hp
    · rw [List.getElem?_set_ne (Ne.symm hph)] at hp
      exact h.off i hi hih hph p c hp hc

include d in
theorem pushHeap_ordered (v : α) (fuel : Nat) (l : List α) (hole : Nat) (hf : hole ≤ fuel)
    (h : Holed above l hole)
    (below : ∀ i, 0 < i → (i - 1) / 2 = hole → ∀ c, l[i]? = some c → above v c) :
    Ordered above (pushHeap lt v fuel l hole) := by
  induction fuel generalizing l hole with
  | zero => exact holed_fill h below (by omega)
  | succ fuel ih =>
    simp only [pushHeap]
    cases hp : l[(hole - 1) / 2]? with
    | none => exact holed_fill h below (by intro _ p hq; rw [hp] at hq; cases hq)
    | some p =>
      by_cases hc : 0 < hole ∧ lt p v = true
      · simp only [hc, and_self, if_true]
        obtain ⟨h₁, h₂⟩ := pushHeap_step d h below hc.1 hp hc.2
        exact ih _ _ (by omega) h₁ h₂
      · simp only [hc, if_false]
        refine holed_fill h below ?_
        intro hpos q hq
        rw [hp] at hq
        cases hq
        cases hb : lt p v with
        | false => exact d.of_not_lt p v hb
        | true => exact absurd ⟨hpos, hb⟩ hc

include d in
/-- Lifting the larger child keeps everything off the hole in order. -/
theorem adjustHeap_step {l : List α} {hole : Nat} {x : α} (h : Holed above l hole)
    (hroom : 2 * hole + 2 < l.length) (hx : l[largerChild lt l hole]? = some x) :
    Holed above (l.set hole x) (largerChild lt l hole) := by
  have hr := largerChild_range lt l hole
  have sibling : ∀ i, 0 < i → i ≠ largerChild lt l hole → (i - 1) / 2 = hole →
      ∀ c, l[i]? = some c → above x c := by
    intro i hi hne hpar c hc
    have hright : l[2 * hole + 2]? = some l[2 * hole + 2] := List.getElem?_eq_getElem hroom
    have hleft : l[2 * hole + 1]? = some l[2 * hole + 1] := List.getElem?_eq_getElem (by omega)
    unfold largerChild at hne hx
    rw [hright, hleft] at hne hx
    simp only at hne hx
    by_cases hb : lt l[2 * hole + 2] l[2 * hole + 1] = true
    · simp only [hb, if_true] at hne hx
      have hi2 : i = 2 * hole + 2 := by omega
      subst hi2
      rw [hleft] at hx
      rw [hright] at hc
      cases hx
      cases hc
      exact d.of_lt _ _ hb
    · simp only [hb] at hne hx
      have hi1 : i = 2 * hole + 1 := by simp at hne; omega
      subst hi1
      simp only [Bool.false_eq_true, if_false] at hx
      rw [hright] at hx
      rw [hleft] at hc
      cases hx
      cases hc
      exact d.of_not_lt _ _ (by simpa using hb)
  have same : ∀ c, (l.set hole x)[hole]? = some c → c = x := by
    intro c hc
    rw [List.getElem?_set_self (by omega)] at hc
    exact (Option.some.inj hc).symm
  constructor
  · intro i hi hne hpar p c hp hc
    by_cases hih : i = hole
    · subst hih
      rw [List.getElem?_set_ne (by omega)] at hp
      rw [same c hc]
      exact h.around hi (largerChild lt l i) (by omega) (by omega) p x hp hx
    · rw [List.getElem?_set_ne (Ne.symm hih)] at hc
      by_cases hph : (i - 1) / 2 = hole
      · rw [hph] at hp
        rw [same p hp]
        exact sibling i hi hne hph c hc
      · rw [List.getElem?_set_ne (Ne.symm hph)] at hp
        exact h.off i hi hih hph p c hp hc
  · intro hpos i hi hpar p c hp hc
    have hph : (largerChild lt l hole - 1) / 2 = hole := by omega
    rw [hph] at hp
    rw [same p hp]
    rw [List.getElem?_set_ne (by omega)] at hc
    exact h.off i hi (by omega) (by omega) x c (by rw [hpar]; exact hx) hc

include d in
/-- The walk ends in a leaf. -/
theorem adjustHeap_holed (fuel : Nat) (l : List α) (hole : Nat) (hh : hole < l.length)
    (hf : l.length ≤ hole + fuel) (h : Holed above l hole) :
    Holed above (adjustHeap lt fuel l hole).1 (adjustHeap lt fuel l hole).2 ∧
      ∀ i, 0 < i → (i - 1) / 2 = (adjustHeap lt fuel l hole).2 →
        (adjustHeap lt fuel l hole).1[i]? = none := by
  induction fuel generalizing l hole with
  | zero => omega
  | succ fuel ih =>
    simp only [adjustHeap]
    have hr := largerChild_range lt l hole
    by_cases hc : hole < (l.length - 1) / 2
    · simp only [hc, if_true]
      have hx : l[largerChild lt l hole]? = some l[largerChild lt l hole] :=
        List.getElem?_eq_getElem (by omega)
      rw [hx]
      exact ih _ _ (by rw [List.length_set]; omega) (by rw [List.length_set]; omega)
        (adjustHeap_step d h (by omega) hx)
    · simp only [hc, if_false]
      by_cases he : l.length % 2 = 0 ∧ hole = (l.length - 2) / 2
      · rw [if_pos he]
        have hx : l[2 * hole + 1]? = some l[2 * hole + 1] := List.getElem?_eq_getElem (by omega)
        rw [hx]
        simp only
        refine ⟨⟨?_, ?_⟩, ?_⟩
        · intro i hi hne hpar p c hp hc'
          by_cases hih : i = hole
          · subst hih
            rw [List.getElem?_set_ne (by omega)] at hp
            rw [List.getElem?_set_self (by omega)] at hc'
            cases hc'
            exact h.around hi (2 * i + 1) (by omega) (by omega) p _ hp hx
          · rw [List.getElem?_set_ne (Ne.symm hih)] at hc'
            have hlt := (List.getElem?_eq_some_iff.mp hc').1
            rw [List.getElem?_set_ne (by omega)] at hp
            exact h.off i hi hih (by omega) p c hp hc'
        · intro _ i hi hpar p c _ hc'
          have hlt := (List.getElem?_eq_some_iff.mp hc').1
          rw [List.length_set] at hlt
          omega
        · intro i hi hpar
          exact List.getElem?_eq_none (by rw [List.length_set]; omega)
      · simp only [he, if_false]
        exact ⟨h, fun i hi hpar => List.getElem?_eq_none (by omega)⟩

include d in
theorem push_ordered {l : List α} (h : Ordered above l) (v : α) :
    Ordered above (push lt l v) := by
  refine pushHeap_ordered d v _ _ _ (Nat.le_refl _) ⟨?_, ?_⟩ ?_
  · intro i hi hne hpar p c hp hc
    have hlt := (List.getElem?_eq_some_iff.mp hc).1
    simp only [List.length_append, List.length_singleton] at hlt
    rw [List.getElem?_append_left (by omega)] at hp hc
    exact h i hi p c hp hc
  · intro _ i hi hpar p c _ hc
    have hlt := (List.getElem?_eq_some_iff.mp hc).1
    simp only [List.length_append, List.length_singleton] at hlt
    omega
  · intro i hi hpar c hc
    have hlt := (List.getElem?_eq_some_iff.mp hc).1
    simp only [List.length_append, List.length_singleton] at hlt
    omega

include d in
theorem foldl_push_ordered (l q : List α) (h : Ordered above q) :
    Ordered above (l.foldl (push lt) q) := by
  induction l generalizing q with
  | nil => exact h
  | cons v l ih => exact ih (push lt q v) (push_ordered d h v)

theorem ordered_nil : Ordered above [] := by
  intro i hi p c hp
  cases hp

include d in
theorem pop_ordered {l : List α} (h : Ordered above l) : Ordered above (pop lt l) := by
  unfold pop
  cases hl : l.getLast? with
  | none => intro i hi p c hp; simp at hp
  | some v =>
    by_cases hlen : l.length ≤ 1
    · simp only [hlen, if_true]
      intro i hi p c hp
      simp at hp
    · simp only [hlen, if_false]
      have hdrop : Holed above l.dropLast 0 := by
        refine ⟨?_, by omega⟩
        intro i hi _ _ p c hp hc
        have hlt := (List.getElem?_eq_some_iff.mp hc).1
        rw [List.length_dropLast] at hlt
        rw [List.getElem?_dropLast, if_pos (by omega)] at hp hc
        exact h i hi p c hp hc
      obtain ⟨h₁, h₂⟩ := adjustHeap_holed d l.length l.dropLast 0
        (by rw [List.length_dropLast]; omega) (by rw [List.length_dropLast]; omega) hdrop
      refine pushHeap_ordered d v _ _ _ (Nat.le_refl _) h₁ ?_
      intro i hi hpar c hc
      rw [h₂ i hi hpar] at hc
      cases hc

include d in
/-- The first element is above every element. -/
theorem top_above {l : List α} (h : Ordered above l) {x : α}
    (hx : l.head? = some x) : ∀ y ∈ l, above x y := by
  have index : ∀ (i : Nat) (y : α), l[i]? = some y → above x y := by
    intro i
    induction i using Nat.strongRecOn with
    | ind i ih =>
      intro y hy
      by_cases hi : i = 0
      · subst hi
        rw [← List.head?_eq_getElem?, hx] at hy
        cases hy
        exact d.refl x
      · have hlt := (List.getElem?_eq_some_iff.mp hy).1
        have hp : l[(i - 1) / 2]? = some l[(i - 1) / 2] := List.getElem?_eq_getElem (by omega)
        exact d.trans _ _ _ (ih _ (by omega) _ hp) (h i (by omega) _ y hp hy)
  intro y hy
  obtain ⟨i, hi⟩ := List.mem_iff_getElem?.mp hy
  exact index i y hi

/-- Only the elements inside the heap matter for its order. -/
theorem Ordered.congr {above' : α → α → Prop} {l : List α} (h : Ordered above l)
    (he : ∀ a ∈ l, ∀ b ∈ l, above a b → above' a b) : Ordered above' l := by
  intro i hi p c hp hc
  exact he p (List.mem_of_getElem? hp) c (List.mem_of_getElem? hc) (h i hi p c hp hc)

end Order

end TinyQuanta.BinaryHeap
