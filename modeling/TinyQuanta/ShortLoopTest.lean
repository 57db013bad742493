import TinyQuanta.Machine
import TinyQuanta.LoopCounters
import TinyQuanta.Progression

/-!
# The test that selects the copy of a self loop

`cloneSelfLoopOnCondition` compares the signed difference of final and initial
value with `NumIters * StepValue`. How often the loop takes its back edge depends
on something else: on how far, in the direction of the step and modulo the
width, the first value the latch compares is from the values for which the
latch leaves.
-/
namespace TinyQuanta.ShortLoopTest

open Params Planner Instrumented LoopCounters Progression

/-- The comparisons of a counted loop; the loop goes on while it holds. -/
inductive Pred where
  | slt | sle | sgt | sge | ult | ule | ugt | uge | ne
  deriving DecidableEq, Repr

/-- The value the latch compares with the final value. -/
inductive Operand where
  | stepInst | indVar
  deriving DecidableEq, Repr

def Pred.holds (w : Width) (p : Pred) (x y : Int) : Bool :=
  match p with
  | .slt => x < y
  | .sle => x ≤ y
  | .sgt => y < x
  | .sge => y ≤ x
  | .ult => x % (2 * w.half) < y % (2 * w.half)
  | .ule => x % (2 * w.half) ≤ y % (2 * w.half)
  | .ugt => y % (2 * w.half) < x % (2 * w.half)
  | .uge => y % (2 * w.half) ≤ x % (2 * w.half)
  | .ne => x ≠ y

def Operand.offset (o : Operand) (step : Int) : Int :=
  match o with
  | .stepInst => step
  | .indVar => 0

/-- The induction variable of a loop with such a latch. -/
def counted (w : Width) (p : Pred) (o : Operand) (step : Int) (initial : Option Int) : IndVar where
  width := w
  step := step
  initial := initial
  finalUsable := true
  latch := fun x y => p.holds w (w.wrap (x + o.offset step)) y

/-! ## The values for which the latch leaves -/

/-- They are an arc of the circle of `w`-bit values, from `exitStart` on. -/
def exitStart (w : Width) (p : Pred) (y : Int) : Int :=
  match p with
  | .slt => y
  | .sle => y + 1
  | .sgt => -w.half
  | .sge => -w.half
  | .ult => y
  | .ule => y + 1
  | .ugt => 0
  | .uge => 0
  | .ne => y

def exitLength (w : Width) (p : Pred) (y : Int) : Int :=
  match p with
  | .slt => w.half - y
  | .sle => w.half - 1 - y
  | .sgt => y + w.half + 1
  | .sge => y + w.half
  | .ult => 2 * w.half - y % (2 * w.half)
  | .ule => 2 * w.half - 1 - y % (2 * w.half)
  | .ugt => y % (2 * w.half) + 1
  | .uge => y % (2 * w.half)
  | .ne => 1

theorem half_pos (w : Width) : 0 < w.half := by
  cases w <;> decide

theorem wrap_lt_half (w : Width) (x : Int) : w.wrap x < w.half := by
  cases w <;> simp only [Width.wrap, Width.half] <;> omega

theorem exitLength_bounds (w : Width) (p : Pred) {y : Int} (h₁ : -w.half ≤ y) (h₂ : y < w.half) :
    0 ≤ exitLength w p y ∧ exitLength w p y ≤ 2 * w.half := by
  have hpos := half_pos w
  have hnn := Int.emod_nonneg y (show 2 * w.half ≠ 0 by omega)
  have hlt := Int.emod_lt_of_pos y (show 0 < 2 * w.half by omega)
  cases p <;> simp only [exitLength] <;> omega

theorem leaves_iff_arc (w : Width) (p : Pred) {y : Int} (h₁ : -w.half ≤ y) (h₂ : y < w.half)
    (x : Int) : p.holds w (w.wrap x) y = false ↔
      (x - exitStart w p y) % (2 * w.half) < exitLength w p y := by
  cases p <;> simp only [Pred.holds, exitStart, exitLength, decide_eq_false_iff_not] <;>
    cases w <;> simp only [Width.wrap, Width.half] at * <;> omega

/-- Where the first compared value `x` stands relative to that arc, in the direction of the step. -/
def position (w : Width) (p : Pred) (step x y : Int) : Int :=
  if 0 < step then x - exitStart w p y else exitStart w p y + exitLength w p y - 1 - x

/-- The way from `x` to the arc, in round `r`. -/
def way (w : Width) (p : Pred) (step x y : Int) (r : Nat) : Int :=
  ahead (2 * w.half) (exitLength w p y) (position w p step x y) + r * (2 * w.half)

/-- In some round the way is at most `n` steps, and the steps do not jump over the arc. -/
def Leaves (w : Width) (p : Pred) (step n x y : Int) : Prop :=
  ∃ r : Nat, way w p step x y r ≤ n * step.natAbs ∧
    -way w p step x y r % step.natAbs < exitLength w p y

/-- The latch leaves at one of the first `n + 1` comparisons. -/
theorem leaves_iff {w : Width} {step n y : Int} (p : Pred) (hs : step ≠ 0) (hn : 0 ≤ n)
    (h₁ : -w.half ≤ y) (h₂ : y < w.half) (x : Int) :
    (∃ i : Nat, (i : Int) ≤ n ∧ p.holds w (w.wrap (x + i * step)) y = false) ↔
      Leaves w p step n x y := by
  have hM : 0 < 2 * w.half := by
    have hpos := half_pos w
    omega
  obtain ⟨hL₀, hL₁⟩ := exitLength_bounds w p h₁ h₂
  simp only [leaves_iff_arc w p h₁ h₂, Leaves, way, position]
  by_cases hpos : 0 < step
  · have habs : (step.natAbs : Int) = step := by omega
    simp only [if_pos hpos, habs]
    rw [← hits_arc_iff hM hL₁ hpos _ n hn]
    refine exists_congr fun i => and_congr_right fun _ => ?_
    have he : x + i * step - exitStart w p y = x - exitStart w p y + i * step := by omega
    rw [he]
  · have habs : (step.natAbs : Int) = -step := by omega
    simp only [if_neg hpos, habs]
    rw [← hits_arc_iff hM hL₁ (show 0 < -step by omega) _ n hn]
    refine exists_congr fun i => and_congr_right fun _ => ?_
    rw [reflect_iff hM hL₀ hL₁, Int.mul_neg]
    have he : exitLength w p y - 1 - (x + i * step - exitStart w p y) =
        exitStart w p y + exitLength w p y - 1 - x + -(i * step) := by omega
    rw [he]

/-! ## The copy as it runs -/

/-- The back edge of the copy, if the latch takes it. -/
def cloneStep (l : Loop) (s : Slots) (_ : Unit) : Option Slots :=
  match l.indVar with
  | none => none
  | some iv => if iv.latch s.indVar s.finalValue = true then some (atCloneLatch l s) else none

section

variable {l : Loop} {iv : IndVar} {s : Slots}

theorem run_clone_iff (hi : l.indVar = some iv) (hs : iv.width.wrap s.indVar = s.indVar)
    (as : List Unit) : (∃ t, Machine.run (cloneStep l) as s = some t) ↔
      ∀ i : Nat, i < as.length → iv.latch (iv.width.wrap (s.indVar + i * iv.step)) s.finalValue =
        true := by
  induction as generalizing s with
  | nil => simp
  | cons a as ih =>
    have hstep : (atCloneLatch l s).indVar = iv.width.wrap (s.indVar + iv.step) ∧
        (atCloneLatch l s).finalValue = s.finalValue := by
      simp only [atCloneLatch, hi, and_self]
    have hnext := ih (s := atCloneLatch l s) (by rw [hstep.1, wrap_wrap])
    rw [hstep.1, hstep.2] at hnext
    have hshift : ∀ i : Nat, iv.width.wrap (iv.width.wrap (s.indVar + iv.step) + i * iv.step) =
        iv.width.wrap (s.indVar + ((i + 1 : Nat) : Int) * iv.step) := by
      intro i
      rw [wrap_add_left, Int.natCast_add, Int.add_mul]
      congr 1
      omega
    simp only [hshift] at hnext
    have hzero : iv.width.wrap (s.indVar + ((0 : Nat) : Int) * iv.step) = s.indVar := by
      simpa using hs
    by_cases hl : iv.latch s.indVar s.finalValue = true
    · have hrun : ∀ t, Machine.run (cloneStep l) (a :: as) s = some t ↔
          Machine.run (cloneStep l) as (atCloneLatch l s) = some t := by
        intro t
        rw [Machine.run_cons]
        simp only [cloneStep, hi, if_pos hl, Option.bind_some]
      simp only [hrun, hnext, List.length_cons]
      constructor
      · intro h i hlt
        cases i with
        | zero => rw [hzero, hl]
        | succ i => exact h i (by omega)
      · intro h i hlt
        exact h (i + 1) (by omega)
    · refine iff_of_false ?_ fun h => hl ?_
      · rintro ⟨t, ht⟩
        rw [Machine.run_cons] at ht
        simp [cloneStep, hi, hl] at ht
      · have h₀ := h 0 (by simp)
        rwa [hzero] at h₀

/-- The back edge is taken at most `n` times if the latch leaves in time. -/
theorem trips_le_iff (hi : l.indVar = some iv) (hs : iv.width.wrap s.indVar = s.indVar) {n : Int}
    (hn : 0 ≤ n) :
    (∀ as t, Machine.run (cloneStep l) as s = some t → (as.length : Int) ≤ n) ↔
      ∃ i : Nat, (i : Int) ≤ n ∧
        iv.latch (iv.width.wrap (s.indVar + i * iv.step)) s.finalValue = false := by
  constructor
  · intro h
    by_contra hnone
    have hall : ∀ i : Nat, i < (List.replicate (n.toNat + 1) ()).length →
        iv.latch (iv.width.wrap (s.indVar + i * iv.step)) s.finalValue = true := by
      intro i hlt
      rw [List.length_replicate] at hlt
      by_contra hf
      exact hnone ⟨i, by omega, by simpa using hf⟩
    obtain ⟨t, ht⟩ := (run_clone_iff hi hs _).mpr hall
    have hle := h _ t ht
    rw [List.length_replicate] at hle
    omega
  · rintro ⟨i, hle, hf⟩ as t ht
    by_contra hlt
    have htrue := (run_clone_iff hi hs as).mp ⟨t, ht⟩ i (by omega)
    rw [hf] at htrue
    cases htrue

end

/-! ## The test -/

/-- The comparison in the preheader: signed, after a `w`-bit subtraction. -/
def Selected (w : Width) (step n x y : Int) : Prop :=
  if 0 < step then w.wrap (y - x) ≤ w.wrap (n * step) else w.wrap (n * step) ≤ w.wrap (y - x)

theorem short_iff_selected (iv : IndVar) {n x y : Int} (hn : 1 ≤ n) (hint : InInt (n * iv.step)) :
    iv.short n (iv.width.wrap (y - x)) = true ↔ Selected iv.width iv.step n x y := by
  unfold IndVar.short Selected
  rw [const_steps hn hint, int32_step hn hint]
  split <;> simp

/-- The copy is selected only for loops that take the back edge at most `n` times if and only if
the test passes only where the latch leaves within `n` steps. -/
theorem short_test_iff (w : Width) (p : Pred) (o : Operand) (step n : Int) (initial : Option Int)
    (l : Loop) (hn : 1 ≤ n) (hs : step ≠ 0) (hint : InInt (n * step))
    (hi : l.indVar = some (counted w p o step initial)) (init final : Int) (s : Slots) :
    ((counted w p o step initial).short n (atPreheader n l init final s).valRange = true →
      ∀ as t, Machine.run (cloneStep l) as (atPreheader n l init final s) = some t →
        (as.length : Int) ≤ n) ↔
    (Selected w step n (w.wrap (initial.getD init)) (w.wrap final) →
      Leaves w p step n (w.wrap (initial.getD init) + o.offset step) (w.wrap final)) := by
  have hpre : (atPreheader n l init final s).indVar = w.wrap (initial.getD init) ∧
      (atPreheader n l init final s).finalValue = w.wrap final ∧
      (atPreheader n l init final s).valRange =
        w.wrap (w.wrap final - w.wrap (initial.getD init)) := by
    simp only [atPreheader, hi]
    exact ⟨rfl, rfl, rfl⟩
  obtain ⟨hx, hy, hr⟩ := hpre
  have htrips := trips_le_iff (n := n) hi (s := atPreheader n l init final s)
    (by rw [hx]; exact wrap_wrap w _) (by omega)
  rw [hr, htrips, hx, hy]
  have hshort := short_iff_selected (counted w p o step initial) (n := n)
    (x := w.wrap (initial.getD init)) (y := w.wrap final) hn hint
  refine imp_congr hshort ?_
  rw [← leaves_iff p hs (by omega) (neg_half_le_wrap w final) (wrap_lt_half w final)]
  refine exists_congr fun i => and_congr_right fun _ => ?_
  simp only [counted]
  rw [wrap_add_left]
  have he : w.wrap (initial.getD init) + i * step + o.offset step =
      w.wrap (initial.getD init) + o.offset step + i * step := by omega
  rw [he]

/-! ## Loops in range -/

def Pred.unsigned (p : Pred) : Bool :=
  match p with
  | .ult | .ule | .ugt | .uge => true
  | .slt | .sle | .sgt | .sge | .ne => false

/-- The loop also goes on at the final value. -/
def Pred.inclusive (p : Pred) : Bool :=
  match p with
  | .sle | .ule | .sge | .uge => true
  | .slt | .ult | .sgt | .ugt | .ne => false

/-- The comparison ends a loop that counts in the direction of the step. -/
def Pred.follows (p : Pred) (step : Int) : Prop :=
  match p with
  | .slt | .sle | .ult | .ule => 0 < step
  | .sgt | .sge | .ugt | .uge => step < 0
  | .ne => step ≠ 0

instance (p : Pred) (step : Int) : Decidable (p.follows step) := by
  unfold Pred.follows
  split <;> infer_instance

/-- The number that the comparison takes a value for. -/
def Pred.value (w : Width) (p : Pred) (x : Int) : Int :=
  if p.unsigned then x % (2 * w.half) else x

def Pred.lowest (w : Width) (p : Pred) : Int := if p.unsigned then 0 else -w.half

/-- How far the final value is from the initial one, in the direction of the step. -/
def distance (w : Width) (p : Pred) (step x y : Int) : Int :=
  if 0 < step then p.value w y - p.value w x else p.value w x - p.value w y

/-- How many values there are from the final one on, in the direction of the step. -/
def room (w : Width) (p : Pred) (step y : Int) : Int :=
  if 0 < step then p.lowest w + 2 * w.half - p.value w y else p.value w y - p.lowest w + 1

/-- A loop that counts towards its final value, without an overflow on the way: of the range, of
`NumIters * StepValue` or at the last step. A loop with `!=` meets its final value. One that is
left behind its final value, by a comparison of the variable before the step, takes one more
iteration than there are steps in its range. -/
structure InRange (w : Width) (p : Pred) (o : Operand) (step n x y : Int) : Prop where
  follows : p.follows step
  toward : 0 ≤ distance w p step x y
  fits : distance w p step x y < w.half
  steps : n * step.natAbs < w.half
  last : p ≠ .ne → step.natAbs + (if p.inclusive then 1 else 0) ≤ room w p step y
  ahead : o = .stepInst → p.inclusive = false → 0 < distance w p step x y
  meets : p = .ne → (step.natAbs : Int) ∣ distance w p step x y
  behind : o = .indVar → p.inclusive = true → distance w p step x y ≠ n * step.natAbs

section

variable {w : Width} {p : Pred} {o : Operand} {step n x y : Int}

theorem InRange.step_ne (h : InRange w p o step n x y) : step ≠ 0 := by
  have hf := h.follows
  cases p <;> simp only [Pred.follows] at hf <;> omega

theorem wrap_congr {a b : Int} (h : a % (2 * w.half) = b % (2 * w.half)) : w.wrap a = w.wrap b := by
  unfold Width.wrap
  rw [Int.add_emod, h, ← Int.add_emod]

theorem value_emod (w : Width) (p : Pred) (z : Int) :
    p.value w z % (2 * w.half) = z % (2 * w.half) := by
  unfold Pred.value
  split
  · exact Int.emod_emod_of_dvd z (Int.dvd_refl _)
  · rfl

/-- The subtraction of `w` bits yields the range if that is small. -/
theorem wrap_sub_eq {d : Int} (hd : d = p.value w y - p.value w x) (h₁ : -w.half ≤ d)
    (h₂ : d < w.half) : w.wrap (y - x) = d := by
  rw [← wrap_eq h₁ h₂]
  apply wrap_congr
  rw [hd, Int.sub_emod, ← value_emod w p y, ← value_emod w p x, ← Int.sub_emod]

/-- The test compares the range with `n` steps. -/
theorem InRange.selected_iff (h : InRange w p o step n x y) (hn : 0 ≤ n) :
    Selected w step n x y ↔ distance w p step x y ≤ n * step.natAbs := by
  have hne := h.step_ne
  have h₀ := h.toward
  have h₁ := h.fits
  have h₂ := h.steps
  have hprod : 0 ≤ n * step.natAbs := Int.mul_nonneg hn (by omega)
  unfold Selected
  unfold distance at *
  by_cases hs : 0 < step
  · have habs : (step.natAbs : Int) = step := by omega
    rw [habs] at h₂ hprod ⊢
    simp only [if_pos hs] at h₀ h₁ ⊢
    rw [wrap_sub_eq (p := p) rfl (by omega) h₁, wrap_eq (by omega) h₂]
  · have habs : n * (step.natAbs : Int) = -(n * step) := by
      rw [← Int.mul_neg]
      congr 1
      omega
    rw [habs] at h₂ hprod ⊢
    simp only [if_neg hs] at h₀ h₁ ⊢
    rw [wrap_sub_eq (p := p) rfl (by omega) (by omega), wrap_eq (x := n * step) (by omega)
      (by omega)]
    omega

/-- The way `d` from the initial value that ends the loop. -/
def Ends (p : Pred) (r s d : Int) : Prop :=
  if p = .ne then d = r else if p.inclusive then r < d ∧ d ≤ r + s else r ≤ d ∧ d < r + s

theorem Ends.ge {r s d : Int} (h : Ends p r s d) : r ≤ d ∧ (p.inclusive = true → r < d) := by
  unfold Ends at h
  split at h
  · rename_i hp
    subst hp
    exact ⟨Int.le_of_eq h.symm, fun hi => by cases hi⟩
  · split at h
    · exact ⟨Int.le_of_lt h.1, fun _ => h.1⟩
    · rename_i hi
      exact ⟨h.1, fun hi' => absurd hi' hi⟩

/-- A multiple of `s` that is not far above another one is that one. -/
theorem eq_of_multiples {s r k : Int} (hs : 0 < s) (hr : s ∣ r) (hge : r ≤ k * s)
    (hlt : k * s < r + s) : k * s = r := by
  obtain ⟨q, rfl⟩ := hr
  have hdiff : k * s - s * q = (k - q) * s := by rw [Int.sub_mul, Int.mul_comm s q]
  have hq : k - q = 0 := by
    have h₁ : k - q < 1 := Int.lt_of_mul_lt_mul_right (a := s) (by omega) (by omega)
    have h₂ : 0 ≤ k - q := Int.le_of_mul_le_mul_right (a := s) (by omega) hs
    omega
  rw [hq] at hdiff
  omega

/-- Some multiple of the step ends the loop. -/
theorem exists_multiple_ends {r s m : Int} (hs : 0 < s) (hr : 0 ≤ r) (hmeets : p = .ne → s ∣ r)
    (hle : r ≤ m * s) (hlt : p.inclusive = true → r ≠ m * s) :
    ∃ k : Nat, (k : Int) ≤ m ∧ Ends p r s (k * s) := by
  have hfirst : ∀ g : Int, 0 ≤ g → g ≤ m * s → ∃ k : Nat, (k : Int) ≤ m ∧ g ≤ k * s ∧
    k * s < g + s :=
    fun g hg hgm => (multiple_between_iff hs hg m s).mpr ⟨hgm, Int.emod_lt_of_pos _ hs⟩
  cases hi : p.inclusive with
  | true =>
    have hne := hlt hi
    obtain ⟨k, hk, hge, hlt⟩ := hfirst (r + 1) (by omega) (by omega)
    have hp : p ≠ .ne := by
      rintro rfl
      cases hi
    refine ⟨k, hk, ?_⟩
    rw [Ends, if_neg hp, hi, if_pos rfl]
    omega
  | false =>
    obtain ⟨k, hk, hge, hlt⟩ := hfirst r hr hle
    refine ⟨k, hk, ?_⟩
    by_cases hp : p = .ne
    · rw [Ends, if_pos hp]
      exact eq_of_multiples hs (hmeets hp) hge hlt
    · rw [Ends, if_neg hp, hi, if_neg Bool.false_ne_true]
      exact ⟨hge, hlt⟩

/-- Among the first `n + 1` ways that the latch looks at is one that ends the loop. -/
theorem InRange.exists_ends (h : InRange w p o step n x y)
    (hle : distance w p step x y ≤ n * step.natAbs) :
    ∃ i : Nat, (i : Int) ≤ n ∧ Ends p (distance w p step x y) step.natAbs
      ((if o = .stepInst then (step.natAbs : Int) else 0) + i * step.natAbs) := by
  have hs : (0 : Int) < step.natAbs := by
    have hne := h.step_ne
    omega
  have h₀ := h.toward
  have hahead := h.ahead
  have hbehind := h.behind
  have hex := fun {m : Int} => exists_multiple_ends (p := p) (m := m) hs h.toward h.meets
  generalize distance w p step x y = r at *
  generalize (step.natAbs : Int) = s at *
  cases o with
  | indVar =>
    obtain ⟨k, hk, hends⟩ := hex hle (hbehind rfl)
    exact ⟨k, hk, by simpa using hends⟩
  | stepInst =>
    -- the comparison with index `i` is made after `i + 1` steps
    have hnext : (n + 1) * s = n * s + s := by rw [Int.add_mul, Int.one_mul]
    obtain ⟨k, hk, hends⟩ := hex (m := n + 1) (by omega) (fun _ => by omega)
    cases k with
    | zero =>
      rw [Int.natCast_zero, Int.zero_mul] at hends
      obtain ⟨hge, hgt⟩ := hends.ge
      cases hi : p.inclusive with
      | true =>
        have hlt := hgt hi
        omega
      | false =>
        have hpos := hahead rfl hi
        omega
    | succ i =>
      refine ⟨i, by omega, ?_⟩
      have hmul : ((i + 1 : Nat) : Int) * s = s + i * s := by
        rw [Int.natCast_add, Int.add_mul, Int.natCast_one, Int.one_mul, Int.add_comm]
      rw [hmul] at hends
      simpa using hends

theorem value_bounds (w : Width) (p : Pred) {z : Int} (h₁ : -w.half ≤ z) (h₂ : z < w.half) :
    p.lowest w ≤ p.value w z ∧ p.value w z < p.lowest w + 2 * w.half := by
  unfold Pred.value Pred.lowest
  have hpos := half_pos w
  split
  · exact ⟨Int.emod_nonneg z (by omega), by
      have hlt := Int.emod_lt_of_pos z (show 0 < 2 * w.half by omega)
      omega⟩
  · omega

/-- A value is known by the number that it is taken for. -/
theorem value_wrap {z v : Int} (h : z % (2 * w.half) = v % (2 * w.half)) (h₁ : p.lowest w ≤ v)
    (h₂ : v < p.lowest w + 2 * w.half) : p.value w (w.wrap z) = v := by
  rw [wrap_congr h]
  unfold Pred.value Pred.lowest at *
  split
  · rename_i hu
    simp only [hu, if_true] at h₁ h₂
    cases w <;> simp only [Width.wrap, Width.half] at * <;> omega
  · rename_i hu
    rw [if_neg hu] at h₁ h₂
    exact wrap_eq h₁ (by omega)

/-- The number that is reached from `x` on the way `d`. -/
def reached (w : Width) (p : Pred) (step x d : Int) : Int :=
  if 0 < step then p.value w x + d else p.value w x - d

theorem InRange.reached_bounds (h : InRange w p o step n x y) (hx₁ : -w.half ≤ x) (hx₂ : x < w.half)
    (hy₁ : -w.half ≤ y) (hy₂ : y < w.half) {d : Int}
    (hd : Ends p (distance w p step x y) step.natAbs d) :
    p.lowest w ≤ reached w p step x d ∧ reached w p step x d < p.lowest w + 2 * w.half := by
  have hx := value_bounds w p hx₁ hx₂
  have hy := value_bounds w p hy₁ hy₂
  have h₀ := h.toward
  have hge := hd.ge.1
  have hlast := h.last
  unfold Ends at hd
  unfold distance at *
  unfold room at hlast
  unfold reached
  by_cases hs : 0 < step
  · simp only [if_pos hs] at *
    split at hd
    · omega
    · rename_i hp
      have hroom := hlast hp
      split at hd <;> rename_i hi <;>
        simp only [hi, if_true, if_false, Bool.false_eq_true] at hroom <;> omega
  · simp only [if_neg hs] at *
    split at hd
    · omega
    · rename_i hp
      have hroom := hlast hp
      split at hd <;> rename_i hi <;>
        simp only [hi, if_true, if_false, Bool.false_eq_true] at hroom <;> omega

/-- The latch leaves at the number on a way that ends the loop. -/
theorem holds_false {z d s : Int} (hf : p.follows step)
    (hd : Ends p (distance w p step x y) s d)
    (hz : p.value w z = reached w p step x d) : p.holds w z y = false := by
  unfold distance at hd
  unfold reached at hz
  by_cases hs : 0 < step
  · rw [if_pos hs] at hd hz
    cases p <;>
      simp only [Pred.follows, Pred.holds, Pred.value, Pred.unsigned, Ends, Pred.inclusive,
        reduceCtorEq, if_true, if_false, Bool.false_eq_true, decide_eq_false_iff_not]
        at hf hd hz ⊢ <;>
      omega
  · rw [if_neg hs] at hd hz
    cases p <;>
      simp only [Pred.follows, Pred.holds, Pred.value, Pred.unsigned, Ends, Pred.inclusive,
        reduceCtorEq, if_true, if_false, Bool.false_eq_true, decide_eq_false_iff_not]
        at hf hd hz ⊢ <;>
      omega

/-- So the latch leaves in time. -/
theorem InRange.leaves (h : InRange w p o step n x y) (hn : 0 ≤ n) (hx₁ : -w.half ≤ x)
    (hx₂ : x < w.half) (hy₁ : -w.half ≤ y) (hy₂ : y < w.half) (hsel : Selected w step n x y) :
    Leaves w p step n (x + o.offset step) y := by
  obtain ⟨i, hi, hends⟩ := h.exists_ends ((h.selected_iff hn).mp hsel)
  refine (leaves_iff p h.step_ne hn hy₁ hy₂ _).mp ⟨i, hi, ?_⟩
  obtain ⟨hlow, htop⟩ := h.reached_bounds hx₁ hx₂ hy₁ hy₂ hends
  refine holds_false h.follows hends (value_wrap ?_ hlow htop)
  have hway : x + o.offset step + i * step - reached w p step x
      ((if o = .stepInst then (step.natAbs : Int) else 0) + i * step.natAbs) = x - p.value w x := by
    unfold reached
    by_cases hs : 0 < step
    · have habs : (step.natAbs : Int) = step := by omega
      rw [if_pos hs, habs]
      cases o <;> simp only [Operand.offset, reduceCtorEq, if_true, if_false] <;> omega
    · have habs : (step.natAbs : Int) = -step := by omega
      rw [if_neg hs, habs, Int.mul_neg]
      cases o <;> simp only [Operand.offset, reduceCtorEq, if_true, if_false] <;> omega
  have hclass : (x - p.value w x) % (2 * w.half) = 0 := by
    rw [Int.sub_emod, value_emod, Int.sub_self, Int.zero_emod]
  rw [← hway] at hclass
  exact Int.emod_eq_emod_iff_emod_sub_eq_zero.mpr hclass

end

/-- The copy is selected only for loops that take the back edge at most `n` times, for all loops
that count in range. -/
theorem short_test_sound (w : Width) (p : Pred) (o : Operand) (step n : Int) (initial : Option Int)
    (l : Loop) (hn : 1 ≤ n) (hint : InInt (n * step))
    (hi : l.indVar = some (counted w p o step initial)) (init final : Int) (s : Slots)
    (hrange : InRange w p o step n (w.wrap (initial.getD init)) (w.wrap final))
    (hshort : (counted w p o step initial).short n (atPreheader n l init final s).valRange = true)
    (as : List Unit) (t : Slots)
    (hrun : Machine.run (cloneStep l) as (atPreheader n l init final s) = some t) :
    (as.length : Int) ≤ n :=
  (short_test_iff w p o step n initial l hn hrange.step_ne hint hi init final s).mpr
    (hrange.leaves (by omega) (neg_half_le_wrap w _) (wrap_lt_half w _) (neg_half_le_wrap w _)
      (wrap_lt_half w _)) hshort as t hrun

/-- A self loop of block 1 that is entered from block 0. -/
def selfLoop (iv : IndVar) : Loop := ⟨0, [1], 1, [2], some iv⟩

/-- `for (i = 0; i < 100; i += 3)`. -/
def byThree : Loop := selfLoop (counted .w32 .slt .stepInst 3 (some 0))

theorem inRange_byThree : InRange .w32 .slt .stepInst 3 40 0 100 where
  follows := by decide
  toward := by decide
  fits := by decide
  steps := by decide
  last _ := by decide
  ahead _ _ := by decide
  meets hp := by cases hp
  behind ho := by cases ho

theorem short_test_sound_by_three :
    (counted .w32 .slt .stepInst 3 (some 0)).short 40
        (atPreheader 40 byThree 0 100 (atEntry 40 byThree)).valRange = true ∧
      ∀ as t, Machine.run (cloneStep byThree) as (atPreheader 40 byThree 0 100 (atEntry 40 byThree))
        = some t → (as.length : Int) ≤ 40 :=
  ⟨by decide, short_test_sound .w32 .slt .stepInst 3 40 (some 0) byThree (by decide)
    (by decide) rfl 0
    100 _ inRange_byThree (by decide)⟩

/-- `for (unsigned i = 0; i < 3000000000; i++)`. -/
def longUnsigned : Loop := selfLoop (counted .w32 .ult .stepInst 1 (some 0))

/-- The signed difference is negative, so that the copy is taken; it then goes on for more than
`NumIters` iterations. -/
theorem long_unsigned_selected : cloneable (1, 1) longUnsigned = true ∧
    (counted .w32 .ult .stepInst 1 (some 0)).short 10
        (atPreheader 10 longUnsigned 0 3000000000 (atEntry 10 longUnsigned)).valRange = true ∧
      ∃ t, Machine.run (cloneStep longUnsigned) (List.replicate 11 ())
        (atPreheader 10 longUnsigned 0 3000000000 (atEntry 10 longUnsigned)) = some t :=
  ⟨by decide, by decide, _, rfl⟩

end TinyQuanta.ShortLoopTest
