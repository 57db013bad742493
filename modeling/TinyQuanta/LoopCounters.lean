import TinyQuanta.Instrumented

/-!
# The arithmetic of loop probes

Thresholds and residual steps are computed modulo the width of the induction
variable, from constants that go through an `int`. As long as the commit interval
times the step is an `int`, they stand for the exact number of iterations left
until the next check. The copy of a self loop decides by signed comparisons,
which say something about the number of iterations only if the latch counts the
steps of the signed range.
-/
namespace TinyQuanta.LoopCounters

open Params Planner InsertProbes Instrumented

/-! ## Fixed width -/

theorem wrap_add_left (w : Width) (x y : Int) : w.wrap (w.wrap x + y) = w.wrap (x + y) := by
  cases w <;> simp only [Width.wrap, Width.half] <;> omega

theorem wrap_add_right (w : Width) (x y : Int) : w.wrap (x + w.wrap y) = w.wrap (x + y) := by
  rw [Int.add_comm, wrap_add_left, Int.add_comm]

theorem wrap_wrap (w : Width) (x : Int) : w.wrap (w.wrap x) = w.wrap x := by
  have h := wrap_add_left w x 0
  rwa [Int.add_zero, Int.add_zero] at h

/-- What is left of a sum after taking away its first part. -/
theorem wrap_add_sub (w : Width) (x y : Int) : w.wrap (w.wrap (x + y) - x) = w.wrap y := by
  rw [Int.sub_eq_add_neg, wrap_add_left]
  congr 1
  omega

theorem wrap_eq {w : Width} {x : Int} (h₁ : -w.half ≤ x) (h₂ : x < w.half) : w.wrap x = x := by
  cases w <;> simp only [Width.wrap, Width.half] at h₁ h₂ ⊢ <;> omega

/-! ## Constants -/

/-- The constants of the loop probe are exact. -/
structure Fits (ci : Int) (iv : IndVar) : Prop where
  steps : InInt (ci * iv.step)
  initial : ∀ c, iv.initial = some c → InInt c ∧ InInt (c + ci * iv.step)

/-- A multiple of the step up to `ci` lies between 0 and `ci` steps. -/
theorem mul_step_between {ci n s : Int} (h₀ : 0 ≤ n) (hn : n ≤ ci) :
    0 ≤ n * s ∧ n * s ≤ ci * s ∨ ci * s ≤ n * s ∧ n * s ≤ 0 := by
  rcases Int.le_total 0 s with hs | hs
  · exact .inl ⟨Int.mul_nonneg h₀ hs, Int.mul_le_mul_of_nonneg_right hn hs⟩
  · exact .inr ⟨Int.mul_le_mul_of_nonpos_right hn hs, Int.mul_nonpos_of_nonneg_of_nonpos h₀ hs⟩

theorem inInt_add_mul {ci n s c : Int} (h₀ : 0 ≤ n) (hn : n ≤ ci) (hc : InInt c)
    (h : InInt (c + ci * s)) : InInt (c + n * s) := by
  simp only [InInt, intMin, intMax] at *
  rcases mul_step_between (s := s) h₀ hn with hb | hb <;> omega

section Consts

variable {ci n : Int} {iv : IndVar}

/-- If the steps of an interval are an `int`, so is one step. -/
theorem int32_step (h₁ : 1 ≤ n) (h : InInt (n * iv.step)) : int32 iv.step = iv.step := by
  have hfit := inInt_add_mul (c := 0) (s := iv.step) (by omega) h₁ (by decide) (by simpa using h)
  exact int32_eq (by simpa using hfit)

theorem steps_eq (h₁ : 1 ≤ n) (h : InInt (n * iv.step)) : iv.steps n = n * iv.step := by
  unfold IndVar.steps
  rw [int32_step h₁ h]
  exact int32_eq h

theorem const_steps (h₁ : 1 ≤ n) (h : InInt (n * iv.step)) :
    iv.const (iv.steps n) = iv.width.wrap (n * iv.step) := by
  unfold IndVar.const
  rw [steps_eq h₁ h, int32_eq h]

/-- The threshold of a nested loop goes on from the residual steps. -/
theorem threshold_nested (h : ∀ c, iv.initial = some c → InInt c) (residual init : Int) :
    iv.threshold n true residual init = iv.width.wrap (residual + iv.init init) := by
  unfold IndVar.threshold
  cases hi : iv.initial with
  | none => rfl
  | some c => simp only [IndVar.const, IndVar.init, hi, Option.getD_some, int32_eq (h c hi)]

theorem Fits.inInt_initial (h : Fits ci iv) : ∀ c, iv.initial = some c → InInt c :=
  fun c hc => (h.initial c hc).1

theorem Fits.inInt (h : Fits ci iv) (h₁ : 1 ≤ n) (hn : n ≤ ci) : InInt (n * iv.step) := by
  have hfit := inInt_add_mul (c := 0) (s := iv.step) (by omega) hn (by decide)
    (by simpa using h.steps)
  simpa using hfit

/-- The threshold of a loop that is not nested starts anew. -/
theorem Fits.threshold_outer (h : Fits ci iv) (h₁ : 1 ≤ n) (hn : n ≤ ci) (residual init : Int) :
    iv.threshold n false residual init = iv.width.wrap (iv.init init + n * iv.step) := by
  unfold IndVar.threshold
  cases hi : iv.initial with
  | none =>
    simp only [const_steps h₁ (h.inInt h₁ hn)]
    rw [wrap_add_right]
  | some c =>
    obtain ⟨hc, hcs⟩ := h.initial c hi
    simp only [IndVar.const, IndVar.init, hi, Option.getD_some, steps_eq h₁ (h.inInt h₁ hn),
      int32_eq hc]
    rw [int32_eq (int32_inInt _), int32_eq (inInt_add_mul (by omega) hn hc hcs), wrap_add_left]

/-- The code on the back edge: either the threshold is reached, or there are steps left. -/
theorem threshold_step {l : Loop} (h₁ : 1 ≤ n) (hint : InInt (n * iv.step))
    (hi : l.indVar = some iv)
    {s : Slots} {c : Int}
    (hthr : s.loopThreshold = iv.width.wrap (s.indVar + (n - c) * iv.step)) (hc : c < n) :
    (atBackEdge n l s).1.indVar = iv.width.wrap (s.indVar + iv.step) ∧
      ((atBackEdge n l s).2 = true → (atBackEdge n l s).1.loopThreshold =
        iv.width.wrap ((atBackEdge n l s).1.indVar + n * iv.step)) ∧
      ((atBackEdge n l s).2 = false → c + 1 < n ∧ (atBackEdge n l s).1.loopThreshold =
        iv.width.wrap ((atBackEdge n l s).1.indVar + (n - (c + 1)) * iv.step)) := by
  simp only [atBackEdge, hi]
  by_cases hhit : iv.width.wrap (s.indVar + iv.step) = s.loopThreshold
  · rw [if_pos hhit]
    refine ⟨rfl, fun _ => ?_, fun hf => (by cases hf)⟩
    simp only [const_steps h₁ hint, wrap_add_right, ← hhit]
  · rw [if_neg hhit]
    refine ⟨rfl, fun hf => (by cases hf), fun _ => ⟨?_, ?_⟩⟩
    · by_contra hlast
      have heq : n - c = 1 := by omega
      rw [hthr, heq, Int.one_mul] at hhit
      exact hhit rfl
    · simp only [hthr, wrap_add_left]
      have hsplit : n - c = 1 + (n - (c + 1)) := by omega
      rw [hsplit, Int.add_mul, Int.one_mul, Int.add_assoc]

end Consts

/-! ## The copy of a self loop -/

/-- A signed difference, counted in the direction of the step. -/
def along (iv : IndVar) (x : Int) : Int := if 0 < iv.step then x else -x

/-- The sums of the copy cannot overflow. -/
def CloneFits (ci : Int) (iv : IndVar) : Prop :=
  iv.step ≠ 0 ∧ 2 * (ci * along iv iv.step) < iv.width.half

theorem along_add (iv : IndVar) (x y : Int) : along iv (x + y) = along iv x + along iv y := by
  unfold along
  split <;> omega

theorem along_mul (iv : IndVar) (n : Int) : along iv (n * iv.step) = n * along iv iv.step := by
  unfold along
  split
  · rfl
  · rw [Int.mul_neg]

theorem along_step_pos {iv : IndVar} (h : iv.step ≠ 0) : 0 < along iv iv.step := by
  unfold along
  split <;> omega

section Clone

variable {ci n : Int} {iv : IndVar}

theorem CloneFits.mul_le (hc : CloneFits ci iv) (hn : n ≤ ci) :
    n * along iv iv.step ≤ ci * along iv iv.step :=
  Int.mul_le_mul_of_nonneg_right hn (Int.le_of_lt (along_step_pos hc.1))

/-- A value between 0 and the half range in the direction of the step is kept. -/
theorem wrap_along {x : Int} (h₀ : 0 ≤ along iv x) (h₁ : along iv x < iv.width.half) :
    iv.width.wrap x = x := by
  unfold along at h₀ h₁
  split at h₀ <;> rename_i hs <;> simp only [hs, if_true, if_false] at h₁ <;> apply wrap_eq <;>
    omega

theorem CloneFits.const_steps (hf : Fits ci iv) (hc : CloneFits ci iv) (h₁ : 1 ≤ n) (hn : n ≤ ci) :
    iv.const (iv.steps n) = n * iv.step := by
  rw [LoopCounters.const_steps h₁ (hf.inInt h₁ hn)]
  have hle := hc.mul_le hn
  have hlt := hc.2
  have hpos : 0 ≤ n * along iv iv.step :=
    Int.mul_nonneg (by omega) (Int.le_of_lt (along_step_pos hc.1))
  apply wrap_along <;> rw [along_mul] <;> omega

theorem short_iff (hf : Fits ci iv) (hc : CloneFits ci iv) (h₁ : 1 ≤ n) (hn : n ≤ ci) (r : Int) :
    iv.short n r = true ↔ along iv r ≤ n * along iv iv.step := by
  unfold IndVar.short
  rw [hc.const_steps hf h₁ hn, int32_step h₁ (hf.inInt h₁ hn), ← along_mul]
  unfold along
  split
  · simp only [decide_eq_true_eq]
  · simp only [decide_eq_true_eq]
    omega

theorem full_iff (hf : Fits ci iv) (hc : CloneFits ci iv) (h₁ : 1 ≤ n) (hn : n ≤ ci) (r : Int) :
    iv.full n r = true ↔ n * along iv iv.step ≤ along iv r := by
  unfold IndVar.full
  rw [hc.const_steps hf h₁ hn, int32_step h₁ (hf.inInt h₁ hn), ← along_mul]
  unfold along
  split
  · simp only [decide_eq_true_eq]
  · simp only [decide_eq_true_eq]
    omega

/-- How often the latch takes the back edge: `k` steps from `x` stay within the signed range, and
one more does not. -/
structure TripCount (iv : IndVar) (x final range k : Int) : Prop where
  nonneg : 0 ≤ k
  stay : ∀ i, 0 ≤ i → i < k → iv.latch (iv.width.wrap (x + i * iv.step)) final = true
  leave : iv.latch (iv.width.wrap (x + k * iv.step)) final = false
  lower : k * along iv iv.step < along iv range
  upper : along iv range ≤ (k + 1) * along iv iv.step

/-- The latch counts the steps of the signed range from the initial to the final value. -/
def Counts (iv : IndVar) (init final : Int) : Prop :=
  ∃ k, TripCount iv (iv.init init) (iv.width.wrap final)
    (iv.width.wrap (iv.width.wrap final - iv.init init)) k

/-- An execution of the self loop that has taken the back edge `j` times. -/
def Trip (iv : IndVar) (s : Slots) (j : Int) : Prop :=
  ∃ x k, TripCount iv x s.finalValue s.valRange k ∧ 0 ≤ j ∧ j ≤ k ∧
    s.indVar = iv.width.wrap (x + j * iv.step)

theorem Trip.nonneg {s : Slots} {j : Int} (h : Trip iv s j) : 0 ≤ j := by
  obtain ⟨x, k, -, hj, -⟩ := h
  exact hj

theorem Trip.lt_range (hs : iv.step ≠ 0) {s : Slots} {j : Int} (h : Trip iv s j) :
    j * along iv iv.step < along iv s.valRange := by
  obtain ⟨x, k, ht, -, hjk, -⟩ := h
  have hle := Int.mul_le_mul_of_nonneg_right hjk (Int.le_of_lt (along_step_pos hs))
  have hlt := ht.lower
  omega

/-- Taking the back edge once more. -/
theorem Trip.next {s s' : Slots} {j : Int} (h : Trip iv s j)
    (hl : iv.latch s.indVar s.finalValue = true) (hf : s'.finalValue = s.finalValue)
    (hr : s'.valRange = s.valRange) (hi : s'.indVar = iv.width.wrap (s.indVar + iv.step)) :
    Trip iv s' (j + 1) := by
  obtain ⟨x, k, ht, hj, hjk, hs⟩ := h
  have hne : j ≠ k := by
    rintro rfl
    rw [hs, ht.leave] at hl
    cases hl
  refine ⟨x, k, by rw [hf, hr]; exact ht, by omega, by omega, ?_⟩
  rw [hi, hs, wrap_add_left, Int.add_mul]
  congr 1
  omega

/-- Leaving the loop at the end of the range. -/
theorem Trip.last {s : Slots} {j : Int} (h : Trip iv s j)
    (hl : iv.latch s.indVar s.finalValue = false) :
    along iv s.valRange ≤ (j + 1) * along iv iv.step := by
  obtain ⟨x, k, ht, hj, hjk, hs⟩ := h
  have heq : j = k := by
    by_contra hne
    rw [hs, ht.stay j hj (by omega)] at hl
    cases hl
  rw [heq]
  exact ht.upper

end Clone

/-- The variable of `for (i = …; i < n; i += step)`, compared after the step. -/
def below (width : Width) (step : Int) (initial : Option Int) (finalUsable : Bool) : IndVar :=
  ⟨width, step, initial, finalUsable, fun i n => decide (width.wrap (i + step) < n), false⟩

theorem neg_half_le_wrap (w : Width) (x : Int) : -w.half ≤ w.wrap x := by
  have hpos : 0 < 2 * w.half := by cases w <;> decide
  have hmod := Int.emod_nonneg (x + w.half) (Int.ne_of_gt hpos)
  unfold Width.wrap
  omega

/-- Such a loop counts its range, unless a difference or the last step overflows. -/
theorem counts_below {w : Width} {step : Int} {initial : Option Int} {usable : Bool}
    {init final : Int} (hs : 0 < step) (hlt : w.wrap (initial.getD init) < w.wrap final)
    (hlast : w.wrap final + step ≤ w.half)
    (hrange : w.wrap final - w.wrap (initial.getD init) < w.half) :
    Counts (below w step initial usable) init final := by
  unfold Counts IndVar.init
  simp only [below]
  have hlow := neg_half_le_wrap w (initial.getD init)
  generalize w.wrap (initial.getD init) = x at hlt hrange hlow ⊢
  generalize w.wrap final = n at hlt hlast hrange ⊢
  have hk₁ : (n - x - 1) / step * step ≤ n - x - 1 := Int.ediv_mul_le _ (by omega)
  have hk₂ := Int.lt_ediv_add_one_mul_self (n - x - 1) hs
  have hk₀ : 0 ≤ (n - x - 1) / step := Int.ediv_nonneg (by omega) (by omega)
  generalize (n - x - 1) / step = k at hk₀ hk₁ hk₂
  rw [Int.add_mul, Int.one_mul] at hk₂
  have hwrap : ∀ i, 0 ≤ i → i ≤ k → w.wrap (w.wrap (x + i * step) + step) =
      x + i * step + step := by
    intro i h₀ hi
    have hle := Int.mul_le_mul_of_nonneg_right hi (Int.le_of_lt hs)
    have hnn := Int.mul_nonneg h₀ (Int.le_of_lt hs)
    rw [wrap_add_left]
    exact wrap_eq (by omega) (by omega)
  refine ⟨k, hk₀, fun i h₀ hi => ?_, ?_, ?_, ?_⟩
  · have hle := Int.mul_le_mul_of_nonneg_right (show i + 1 ≤ k from hi) (Int.le_of_lt hs)
    rw [Int.add_mul, Int.one_mul] at hle
    simp only [hwrap i h₀ (by omega), decide_eq_true_eq]
    omega
  · simp only [hwrap k hk₀ (Int.le_refl k), decide_eq_false_iff_not]
    omega
  · rw [wrap_eq (by omega) hrange]
    simp only [along, if_pos hs]
    omega
  · rw [wrap_eq (by omega) hrange]
    simp only [along, if_pos hs]
    rw [Int.add_mul]
    omega

end TinyQuanta.LoopCounters
