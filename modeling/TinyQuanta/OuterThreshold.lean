import TinyQuanta.LoopCounters
import Mathlib.Data.Nat.Find

/-!
# The threshold test of an outermost loop

The code of `insertLoopProbe` at depth 1 runs into the check when the stepped
variable equals the threshold, and moves the threshold on by `NumIters * StepValue`
each time. Variable and threshold are compared modulo the width of the variable,
but the constants are computed as `int`. Whatever constants come out, the check
keeps its rhythm if and only if each distance from the variable to the threshold
is one of the first `NumIters` multiples of the step.
-/
namespace TinyQuanta.OuterThreshold

open Params Planner Instrumented LoopCounters

/-- The slots after `k` traversals of the back edge. -/
def slotsAt (n : Int) (l : Loop) (s : Slots) : Nat → Slots
  | 0 => s
  | k + 1 => (atBackEdge n l (slotsAt n l s k)).1

/-- The traversal after the first `k` runs into the check. -/
def checkAt (n : Int) (l : Loop) (s : Slots) (k : Nat) : Bool :=
  (atBackEdge n l (slotsAt n l s k)).2

theorem slotsAt_add (n : Int) (l : Loop) (s : Slots) (j k : Nat) :
    slotsAt n l s (j + k) = slotsAt n l (slotsAt n l s j) k := by
  induction k with
  | zero => rfl
  | succ k ih =>
    rw [← Nat.add_assoc]
    simp only [slotsAt, ih]

theorem checkAt_add (n : Int) (l : Loop) (s : Slots) (j k : Nat) :
    checkAt n l s (j + k) = checkAt n l (slotsAt n l s j) k := by
  unfold checkAt
  rw [slotsAt_add]

/-! ## Constants -/

theorem int32_add_mul (x k : Int) : int32 (x + 4294967296 * k) = int32 x := by
  unfold int32
  omega

theorem int32_eq_add (x : Int) : ∃ k, int32 x = x + 4294967296 * k := by
  refine ⟨-((x + 2147483648) / 4294967296), ?_⟩
  unfold int32
  omega

/-- `StepVal` is an `int` already, which makes no difference to the product. -/
theorem steps_eq_int32 (iv : IndVar) (n : Int) : iv.steps n = int32 (n * iv.step) := by
  obtain ⟨k, hk⟩ := int32_eq_add iv.step
  unfold IndVar.steps
  rw [hk, Int.mul_add, Int.mul_left_comm, int32_add_mul]

theorem const_steps_eq (iv : IndVar) (n : Int) :
    iv.const (iv.steps n) = iv.width.wrap (int32 (n * iv.step)) := by
  unfold IndVar.const
  rw [steps_eq_int32, int32_eq (int32_inInt _)]

/-- The threshold of a constant initial value is computed as an `int`. -/
theorem threshold_const {iv : IndVar} {c : Int} (h : iv.initial = some c) (n residual init : Int) :
    iv.threshold n false residual init = iv.width.wrap (int32 (c + n * iv.step)) := by
  unfold IndVar.threshold
  simp only [h, IndVar.const]
  rw [steps_eq_int32, int32_add, Int.add_comm c, int32_add, int32_eq (int32_inInt _),
    Int.add_comm c]

theorem threshold_computed {iv : IndVar} (h : iv.initial = none) (n residual init : Int) :
    iv.threshold n false residual init =
      iv.width.wrap (iv.init init + int32 (n * iv.step)) := by
  unfold IndVar.threshold
  simp only [h, const_steps_eq]
  rw [wrap_add_right]

/-! ## The rhythm of the check -/

/-- The distance `d` is one of the first `n` multiples of the step, modulo the width. -/
def Multiple (iv : IndVar) (n d : Int) : Prop :=
  ∃ j, 1 ≤ j ∧ j ≤ n ∧ iv.width.wrap (j * iv.step) = iv.width.wrap d

/-- Both the distance between thresholds and the distance to the first one are such multiples. -/
def Regular (n : Int) (iv : IndVar) : Prop :=
  Multiple iv n (int32 (n * iv.step)) ∧
    ∀ c, iv.initial = some c → Multiple iv n (int32 (c + n * iv.step) - c)

/-- The threshold is `d` ahead of the variable. -/
def Ahead (iv : IndVar) (s : Slots) (d : Int) : Prop :=
  s.loopThreshold = iv.width.wrap (s.indVar + d)

theorem wrap_add_cancel (w : Width) {x y z : Int} :
    w.wrap (x + y) = w.wrap (x + z) ↔ w.wrap y = w.wrap z := by
  cases w <;> simp only [Width.wrap, Width.half] <;> omega

section

variable {n : Int} {l : Loop} {iv : IndVar} {s : Slots}

theorem check_iff (hi : l.indVar = some iv) {d : Int} (h : Ahead iv s d) :
    (atBackEdge n l s).2 = true ↔ iv.width.wrap iv.step = iv.width.wrap d := by
  have hhit : iv.width.wrap (s.indVar + iv.step) = s.loopThreshold ↔
      iv.width.wrap iv.step = iv.width.wrap d := by
    rw [h, wrap_add_cancel]
  rw [← hhit]
  simp only [atBackEdge, hi]
  by_cases he : iv.width.wrap (s.indVar + iv.step) = s.loopThreshold
  · rw [if_pos he]
    exact iff_of_true rfl he
  · rw [if_neg he]
    exact iff_of_false (by simp) he

theorem ahead_missed (hi : l.indVar = some iv) {d : Int} (h : Ahead iv s d)
    (hmiss : (atBackEdge n l s).2 = false) : Ahead iv (atBackEdge n l s).1 (d - iv.step) := by
  have hne : iv.width.wrap (s.indVar + iv.step) ≠ s.loopThreshold := by
    intro he
    simp [atBackEdge, hi, he] at hmiss
  simp only [Ahead, atBackEdge, hi, if_neg hne, wrap_add_left]
  rw [h]
  congr 1
  omega

theorem ahead_hit (hi : l.indVar = some iv) (hhit : (atBackEdge n l s).2 = true) :
    Ahead iv (atBackEdge n l s).1 (int32 (n * iv.step)) := by
  have he : iv.width.wrap (s.indVar + iv.step) = s.loopThreshold := by
    by_contra hne
    simp [atBackEdge, hi, hne] at hhit
  simp only [Ahead, atBackEdge, hi, if_pos he, const_steps_eq]
  rw [he, wrap_add_right]

/-! ### A threshold that is met -/

/-- After a traversal that misses the threshold it is one step nearer, and was not the next step. -/
theorem ahead_pred (hi : l.indVar = some iv) {j : Nat} (h : Ahead iv s (j * iv.step)) (h₁ : 1 ≤ j)
    (hmiss : (atBackEdge n l s).2 = false) :
    1 ≤ j - 1 ∧ Ahead iv (atBackEdge n l s).1 ((j - 1 : Nat) * iv.step) := by
  have hne : j ≠ 1 := by
    rintro rfl
    have hone : iv.width.wrap iv.step = iv.width.wrap (((1 : Nat) : Int) * iv.step) := by simp
    rw [(check_iff hi h).mpr hone] at hmiss
    cases hmiss
  have hrest : ((j - 1 : Nat) : Int) * iv.step = (j : Int) * iv.step - iv.step := by
    rw [Int.natCast_sub h₁, Int.sub_mul]
    omega
  rw [hrest]
  exact ⟨by omega, ahead_missed hi h hmiss⟩

/-- A threshold `j` steps ahead is met in the next `j` traversals. -/
theorem check_of_ahead (hi : l.indVar = some iv) {j : Nat} (h : Ahead iv s (j * iv.step))
    (hj : 1 ≤ j) :
    ∃ k, k < j ∧ checkAt n l s k = true := by
  induction j generalizing s with
  | zero => exact absurd hj (by decide)
  | succ j ih =>
    cases hc : (atBackEdge n l s).2 with
    | true => exact ⟨0, Nat.succ_pos j, hc⟩
    | false =>
      obtain ⟨hpos, hnext⟩ := ahead_pred hi h hj hc
      obtain ⟨k, hk, hcheck⟩ := ih hnext hpos
      refine ⟨k + 1, Nat.succ_lt_succ hk, ?_⟩
      rw [Nat.add_comm, checkAt_add]
      exact hcheck

/-- The threshold is at most `n` steps ahead. -/
def Due (n : Int) (iv : IndVar) (s : Slots) : Prop :=
  ∃ j : Nat, 1 ≤ j ∧ (j : Int) ≤ n ∧ Ahead iv s (j * iv.step)

theorem due_iff {d : Int} (h : Ahead iv s d) : Due n iv s ↔ Multiple iv n d := by
  constructor
  · rintro ⟨j, h₁, hn, hj⟩
    refine ⟨j, by omega, hn, ?_⟩
    unfold Ahead at h hj
    rw [h, wrap_add_cancel] at hj
    exact hj.symm
  · rintro ⟨j, h₁, hn, hj⟩
    have hnat : ((j.toNat : Nat) : Int) = j := Int.toNat_of_nonneg (by omega)
    refine ⟨j.toNat, by omega, by omega, ?_⟩
    unfold Ahead at h ⊢
    rw [h, hnat, wrap_add_cancel]
    exact hj.symm

theorem Due.next (hi : l.indVar = some iv) (hd : Multiple iv n (int32 (n * iv.step)))
    (h : Due n iv s) : Due n iv (atBackEdge n l s).1 := by
  cases hc : (atBackEdge n l s).2 with
  | true => exact (due_iff (ahead_hit hi hc)).mpr hd
  | false =>
    obtain ⟨j, h₁, hn, hj⟩ := h
    obtain ⟨hpos, hnext⟩ := ahead_pred hi hj h₁ hc
    exact ⟨j - 1, hpos, by omega, hnext⟩

theorem due_slotsAt (hi : l.indVar = some iv) (hd : Multiple iv n (int32 (n * iv.step)))
    (h : Due n iv s) (k : Nat) : Due n iv (slotsAt n l s k) := by
  induction k with
  | zero => exact h
  | succ k ih => exact ih.next hi hd

/-! ### What the first check says about the threshold -/

theorem ahead_slotsAt (hi : l.indVar = some iv) {d : Int} (h : Ahead iv s d) (k : Nat)
    (hmiss : ∀ i, i < k → checkAt n l s i = false) :
    Ahead iv (slotsAt n l s k) (d - k * iv.step) := by
  induction k with
  | zero => simpa [slotsAt] using h
  | succ k ih =>
    have hk := ih fun i hik => hmiss i (Nat.lt_succ_of_lt hik)
    have hnext := ahead_missed (n := n) hi hk (hmiss k (Nat.lt_succ_self k))
    have hrest : d - ((k + 1 : Nat) : Int) * iv.step = d - k * iv.step - iv.step := by
      rw [Int.natCast_add, Int.add_mul]
      omega
    rw [hrest]
    exact hnext

/-- A check in the first `n` traversals: the threshold was due. -/
theorem multiple_of_check (hi : l.indVar = some iv) {d : Int} (h : Ahead iv s d)
    (hc : ∃ k, k < n.toNat ∧ checkAt n l s k = true) :
    Multiple iv n d ∧ ∃ k, checkAt n l s k = true := by
  have hex : ∃ k, checkAt n l s k = true := by
    obtain ⟨k, -, hk⟩ := hc
    exact ⟨k, hk⟩
  have hle : Nat.find hex < n.toNat := by
    obtain ⟨k, hlt, hk⟩ := hc
    exact Nat.lt_of_le_of_lt (Nat.find_min' hex hk) hlt
  have hfirst := Nat.find_spec hex
  have hahead := ahead_slotsAt (n := n) hi h (Nat.find hex) fun i hik => by
    simpa using Nat.find_min hex hik
  have hhit := (check_iff (n := n) hi hahead).mp hfirst
  refine ⟨⟨Nat.find hex + 1, by omega, by omega, ?_⟩, hex⟩
  have hsum : d = Nat.find hex * iv.step + (d - Nat.find hex * iv.step) := by omega
  rw [hsum, Int.add_mul, Int.one_mul, wrap_add_cancel]
  exact hhit

end

/-- The distance to the first threshold. -/
def firstDistance (n : Int) (iv : IndVar) : Int :=
  match iv.initial with
  | some c => int32 (c + n * iv.step) - c
  | none => int32 (n * iv.step)

theorem ahead_preheader {n : Int} {l : Loop} {iv : IndVar} (hi : l.indVar = some iv)
    (hd : l.depth = 1) (init final : Int) (s : Slots) :
    Ahead iv (atPreheader n l init final s) (firstDistance n iv) := by
  have hnested : l.isNested = false := by
    unfold Loop.isNested
    rw [hd]
    decide
  simp only [Ahead, atPreheader, hi, hnested, firstDistance]
  cases hc : iv.initial with
  | none => exact threshold_computed hc n _ init
  | some c =>
    rw [threshold_const hc, IndVar.init, hc, Option.getD_some, wrap_add_left]
    dsimp only
    congr 1
    omega

theorem regular_iff (n : Int) (iv : IndVar) : Regular n iv ↔
    Multiple iv n (int32 (n * iv.step)) ∧ Multiple iv n (firstDistance n iv) := by
  unfold Regular firstDistance
  cases iv.initial with
  | none => simp
  | some c => simp

/-- For an outermost loop, every `n` traversals in a row of one entry contain a check if and only
if the distances to the thresholds are among the first `n` multiples of the step. -/
theorem check_in_every_window_iff (n : Int) (l : Loop) (iv : IndVar)
    (hi : l.indVar = some iv) (hd : l.depth = 1) (init final : Int) (s : Slots) :
    (∀ m : Nat, ∃ k, m ≤ k ∧ k < m + n.toNat ∧
      checkAt n l (atPreheader n l init final s) k = true) ↔ Regular n iv := by
  have hahead := ahead_preheader (n := n) hi hd init final s
  generalize atPreheader n l init final s = s at hahead
  rw [regular_iff]
  constructor
  · intro h
    obtain ⟨hfirst, k, hk⟩ := multiple_of_check (n := n) hi hahead (by
      obtain ⟨k, -, hlt, hk⟩ := h 0
      exact ⟨k, by omega, hk⟩)
    -- the window that starts after this check
    obtain ⟨k', hle, hlt, hk'⟩ := h (k + 1)
    have hsplit : k' = k + 1 + (k' - (k + 1)) := by omega
    rw [hsplit, checkAt_add] at hk'
    have hnext : Ahead iv (slotsAt n l s (k + 1)) (int32 (n * iv.step)) := ahead_hit hi hk
    exact ⟨(multiple_of_check (n := n) hi hnext ⟨_, by omega, hk'⟩).1, hfirst⟩
  · rintro ⟨hperiod, hfirst⟩ m
    obtain ⟨j, h₁, hle, hj⟩ := due_slotsAt hi hperiod ((due_iff hahead).mpr hfirst) m
    obtain ⟨k, hk, hcheck⟩ := check_of_ahead (n := n) hi hj h₁
    refine ⟨m + k, Nat.le_add_right m k, by omega, ?_⟩
    rw [checkAt_add]
    exact hcheck

/-- Up to 32 bits nothing is lost in an `int`. -/
theorem wrap_int32 {w : Width} (hw : w ≠ .w64) (x : Int) : w.wrap (int32 x) = w.wrap x := by
  cases w with
  | w64 => exact absurd rfl hw
  | _ =>
    simp only [Width.wrap, Width.half, int32]
    omega

theorem regular_of_narrow {n : Int} {iv : IndVar} (hn : 1 ≤ n) (hw : iv.width ≠ .w64) :
    Regular n iv := by
  refine ⟨⟨n, hn, Int.le_refl n, (wrap_int32 hw _).symm⟩, fun c _ => ⟨n, hn, Int.le_refl n, ?_⟩⟩
  have hcut := wrap_add_left iv.width (int32 (c + n * iv.step)) (-c)
  rw [wrap_int32 hw, wrap_add_left] at hcut
  rw [Int.sub_eq_add_neg, ← hcut]
  congr 1
  omega

/-- For 64 bits the constants have to be ints. -/
theorem regular_of_inInt {n : Int} {iv : IndVar} (hn : 1 ≤ n) (hs : InInt (n * iv.step))
    (hc : ∀ c, iv.initial = some c → InInt (c + n * iv.step)) : Regular n iv := by
  refine ⟨⟨n, hn, Int.le_refl n, by rw [int32_eq hs]⟩, fun c h => ⟨n, hn, Int.le_refl n, ?_⟩⟩
  rw [int32_eq (hc c h)]
  congr 1
  omega

/-- A loop at depth 1 with this variable. -/
def outermost (iv : IndVar) : Loop := ⟨0, [1], 1, [2], some iv⟩

/-- `char i` from a computed value, `i += 7`. -/
def charLoop : Loop := outermost (below .w8 7 none true)

/-- With a check every 100 iterations the variable comes round several times between checks. -/
theorem check_in_every_window_iff_char :
    charLoop.depth = 1 ∧ ∀ m : Nat, ∃ k, m ≤ k ∧ k < m + 100 ∧
      checkAt 100 charLoop (atPreheader 100 charLoop 5 90 (atEntry 100 charLoop)) k = true :=
  ⟨rfl, (check_in_every_window_iff 100 charLoop _ rfl rfl 5 90 _).mpr
    (regular_of_narrow (by decide) (by decide))⟩

/-- A 64-bit variable that starts at `2 ^ 32`. -/
def largeStart : Loop := outermost (below .w64 1 (some 4294967296) true)

/-- The threshold is computed from an initial value of 0, and the variable does not meet it. -/
theorem large_start_unchecked :
    ¬ ∀ m : Nat, ∃ k, m ≤ k ∧ k < m + 2 ∧
      checkAt 2 largeStart (atPreheader 2 largeStart 0 5000000000 (atEntry 2 largeStart)) k =
        true := by
  intro h
  obtain ⟨k, -, hk, hc⟩ := h 0
  have hall : ∀ k, k < 2 → checkAt 2 largeStart
      (atPreheader 2 largeStart 0 5000000000 (atEntry 2 largeStart)) k = false := by decide
  rw [hall k (by omega)] at hc
  cases hc

end TinyQuanta.OuterThreshold
