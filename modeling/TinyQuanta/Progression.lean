import Mathlib.Algebra.Order.Ring.Int

/-!
# Progressions on a circle

Integers modulo `M` form a circle. A progression that starts at `a` and advances
by `s` meets the arc of the `L` positions from 0 on in the first round in which
the last multiple of `s` before the arc does not step over it.
-/
namespace TinyQuanta.Progression

/-- How far the arc `[0, L)` is ahead of the position `a`. -/
def ahead (M L a : Int) : Int := if a % M < L then 0 else M - a % M

/-- Some multiple of `s` up to `n * s` lies in `[d, d + L)` if and only if the first one from `d`
on does. -/
theorem multiple_between_iff {s d : Int} (hs : 0 < s) (hd : 0 ≤ d) (n L : Int) :
    (∃ i : Nat, (i : Int) ≤ n ∧ d ≤ i * s ∧ i * s < d + L) ↔ d ≤ n * s ∧ -d % s < L := by
  have hmod := Int.emod_nonneg (-d) (Int.ne_of_gt hs)
  have hlt := Int.emod_lt_of_pos (-d) hs
  have hdiv := Int.mul_ediv_add_emod (-d) s
  have hfirst : -(-d / s) * s = d + -d % s := by
    rw [Int.neg_mul, Int.mul_comm]
    omega
  generalize -(-d / s) = q at hfirst
  -- a multiple that is not below `d` is not below the first one
  have hleast : ∀ k : Int, d ≤ k * s → q ≤ k := by
    intro k hk
    by_contra hqk
    have hstep := Int.mul_le_mul_of_nonneg_right (show k + 1 ≤ q by omega) (Int.le_of_lt hs)
    rw [Int.add_mul, Int.one_mul] at hstep
    omega
  constructor
  · rintro ⟨i, hi, hle, hin⟩
    have hn := Int.mul_le_mul_of_nonneg_right hi (Int.le_of_lt hs)
    have hq := Int.mul_le_mul_of_nonneg_right (hleast i hle) (Int.le_of_lt hs)
    exact ⟨by omega, by omega⟩
  · rintro ⟨hn, hin⟩
    have hq : 0 ≤ q := by
      by_contra hneg
      have hmul := Int.mul_neg_of_neg_of_pos (show q < 0 by omega) hs
      omega
    refine ⟨q.toNat, ?_, ?_, ?_⟩
    · rw [Int.toNat_of_nonneg hq]
      exact hleast n hn
    · rw [Int.toNat_of_nonneg hq]
      omega
    · rw [Int.toNat_of_nonneg hq]
      omega

/-- A position in the arc, in the round `r` in which it is met. -/
theorem emod_lt_iff {M L : Int} (hM : 0 < M) (hL : L ≤ M) {x : Int} (hx : 0 ≤ x) :
    x % M < L ↔ ∃ r : Nat, r * M ≤ x ∧ x < r * M + L := by
  have hnn := Int.emod_nonneg x (Int.ne_of_gt hM)
  have hlt := Int.emod_lt_of_pos x hM
  have hdiv := Int.mul_ediv_add_emod x M
  have hq : 0 ≤ x / M := Int.ediv_nonneg hx (Int.le_of_lt hM)
  rw [Int.mul_comm] at hdiv
  constructor
  · intro h
    refine ⟨(x / M).toNat, ?_, ?_⟩
    · rw [Int.toNat_of_nonneg hq]
      omega
    · rw [Int.toNat_of_nonneg hq]
      omega
  · rintro ⟨r, hle, hin⟩
    have he : x / M = r := by
      apply Int.le_antisymm
      · apply Int.le_of_lt_add_one
        apply Int.ediv_lt_of_lt_mul hM
        rw [Int.add_mul]
        omega
      · exact (Int.le_ediv_iff_mul_le hM).mpr hle
    rw [he] at hdiv
    omega

/-- The first `n` steps of the progression meet the arc. -/
theorem hits_arc_iff {M L s : Int} (hM : 0 < M) (hL : L ≤ M) (hs : 0 < s) (a n : Int)
    (hn : 0 ≤ n) :
    (∃ i : Nat, (i : Int) ≤ n ∧ (a + i * s) % M < L) ↔
      ∃ r : Nat, ahead M L a + r * M ≤ n * s ∧ -(ahead M L a + r * M) % s < L := by
  have hnn := Int.emod_nonneg a (Int.ne_of_gt hM)
  have hlt := Int.emod_lt_of_pos a hM
  have hround : ∀ r : Nat, 0 ≤ (r : Int) * M := fun r => Int.mul_nonneg (by omega) (by omega)
  have hred : ∀ i : Nat, (a + i * s) % M = (a % M + i * s) % M := by
    intro i
    rw [Int.emod_add_emod]
  by_cases hin : a % M < L
  · refine iff_of_true ⟨0, hn, ?_⟩ ⟨0, ?_, ?_⟩
    · simpa using hin
    · have hmul := Int.mul_nonneg hn (Int.le_of_lt hs)
      simpa [ahead, hin] using hmul
    · simp [ahead, hin]
      omega
  · have hahead : ahead M L a = M - a % M := if_neg hin
    rw [hahead]
    simp only [hred]
    generalize a % M = b at hnn hlt hin
    constructor
    · rintro ⟨i, hi, hmod⟩
      have hpos : 0 ≤ (i : Int) * s := Int.mul_nonneg (by omega) (Int.le_of_lt hs)
      obtain ⟨r, hle, hr⟩ := (emod_lt_iff hM hL (show 0 ≤ b + i * s by omega)).mp hmod
      cases r with
      | zero => omega
      | succ r =>
        rw [Int.natCast_add, Int.add_mul] at hle hr
        have hr0 := hround r
        exact ⟨r, (multiple_between_iff hs (by omega) n L).mp ⟨i, hi, by omega, by omega⟩⟩
    · rintro ⟨r, hr⟩
      have hr0 := hround r
      obtain ⟨i, hi, hle, hin'⟩ := (multiple_between_iff hs (by omega) n L).mpr hr
      have hpos : 0 ≤ (i : Int) * s := Int.mul_nonneg (by omega) (Int.le_of_lt hs)
      refine ⟨i, hi, (emod_lt_iff hM hL (show 0 ≤ b + i * s by omega)).mpr ⟨r + 1, ?_, ?_⟩⟩
      · rw [Int.natCast_add, Int.add_mul]
        omega
      · rw [Int.natCast_add, Int.add_mul]
        omega

/-- Seen from its other end, an arc is the same arc. -/
theorem reflect_iff {M L : Int} (hM : 0 < M) (h₀ : 0 ≤ L) (hL : L ≤ M) (x : Int) :
    x % M < L ↔ (L - 1 - x) % M < L := by
  have hnn := Int.emod_nonneg x (Int.ne_of_gt hM)
  have hlt := Int.emod_lt_of_pos x hM
  have hdiv := Int.mul_ediv_add_emod x M
  have hred : (L - 1 - x) % M = (L - 1 - x % M) % M := by
    rw [Int.sub_emod, Int.sub_emod (L - 1) (x % M), Int.emod_emod]
  rw [hred]
  constructor
  · intro h
    rw [Int.emod_eq_of_lt (by omega) (by omega)]
    omega
  · intro h
    by_contra hge
    have hshift : (L - 1 - x % M) % M = L - 1 - x % M + M := by
      rw [← Int.add_emod_right, Int.emod_eq_of_lt (by omega) (by omega)]
    omega

end TinyQuanta.Progression
