/-
  Rounding of non-negative rationals, as far as a program that only COMPARES ratios needs it.

  A program computes `(float) a / b < 0.3` in binary floating point.  What its control flow
  relies on is never the last bit of the quotient but that rounding moves a number by a small
  fraction of itself: zero stays zero, a positive number stays positive, and a number that is
  clearly above another stays above it.  `Rounding` bundles such a function with that one fact,
  so a development can be done once for every arithmetic that has it:

  * `Rounding.exact`    — no rounding at all (the comparison taken over the rationals);
  * `Rounding.binary p` — round to nearest, ties to even, `p` significant bits and an unbounded
    exponent: `p = 24` and `p = 53` are the IEEE formats of `float` and `double` on numbers that
    neither overflow nor underflow.
-/
import Mathlib

/-- A rounding function on the rationals that moves a non-negative number by at most one
    thousandth of itself. -/
structure Rounding where
  /-- The value that is kept for `x`. -/
  round : ℚ → ℚ
  /-- The relative error bound. -/
  err : ∀ x, 0 ≤ x → |round x - x| ≤ x / 1000

namespace Rounding

/-- Exact arithmetic: nothing is rounded. -/
def exact : Rounding := ⟨fun x => x, fun x hx => by rw [sub_self, abs_zero]; positivity⟩

/-! ## What every rounding keeps

All that the proofs use of a rounding is that it moves a number by little; zero stays zero, and a
positive number stays positive. -/

/-- The bound from below. -/
theorem le_round (r : Rounding) {x : ℚ} (hx : 0 ≤ x) : x - x / 1000 ≤ r.round x := by
  have h := (abs_le.mp (r.err x hx)).1
  linarith

/-- The bound from above. -/
theorem round_le (r : Rounding) {x : ℚ} (hx : 0 ≤ x) : r.round x ≤ x + x / 1000 := by
  have h := (abs_le.mp (r.err x hx)).2
  linarith

/-- Zero is not moved. -/
@[simp] theorem round_zero (r : Rounding) : r.round 0 = 0 := by
  have h := r.err 0 (le_refl 0)
  rw [sub_zero, zero_div] at h
  exact abs_eq_zero.mp (le_antisymm h (abs_nonneg _))

/-- A positive number stays positive. -/
theorem round_pos (r : Rounding) {x : ℚ} (hx : 0 < x) : 0 < r.round x := by
  have h := r.le_round hx.le
  linarith

/-- A number that is not negative does not become negative. -/
theorem round_nonneg (r : Rounding) {x : ℚ} (hx : 0 ≤ x) : 0 ≤ r.round x := by
  have h := r.le_round hx
  linarith

/-! ## Rounding to `p` significant bits

The rounding of binary floating point without bounds on the exponent, and that it is one in the
sense above. -/

/-- Round to the nearest integer, a tie to the even one. -/
def halfEven (y : ℚ) : ℤ :=
  if y - ⌊y⌋ < 1 / 2 then ⌊y⌋
  else if 1 / 2 < y - ⌊y⌋ then ⌊y⌋ + 1
  else if ⌊y⌋ % 2 = 0 then ⌊y⌋ else ⌊y⌋ + 1

/-- By at most one half. -/
theorem abs_halfEven_sub_le (y : ℚ) : |(halfEven y : ℚ) - y| ≤ 1 / 2 := by
  have hlo := Int.floor_le y
  have hhi := Int.lt_floor_add_one y
  rw [abs_le]
  unfold halfEven
  split
  · constructor <;> linarith
  · split
    · push_cast
      constructor <;> linarith
    · -- a tie: both neighbours are half a unit away
      split
      · constructor <;> linarith
      · push_cast
        constructor <;> linarith

/-- The weight of the last of `p` significant bits of `x`. -/
def ulp (p : ℕ) (x : ℚ) : ℚ := 2 ^ (Int.log 2 |x| - (p - 1))

/-- `x` rounded to `p` significant bits. -/
def nearest (p : ℕ) (x : ℚ) : ℚ := halfEven (x / ulp p x) * ulp p x

/-- The weight of the last bit is positive. -/
theorem ulp_pos (p : ℕ) (x : ℚ) : 0 < ulp p x := zpow_pos (by norm_num) _

/-- The weight of the last bit is small against the number. -/
theorem ulp_le (p : ℕ) {x : ℚ} (hx : 0 < x) : ulp p x ≤ x * 2 ^ (1 - p : ℤ) := by
  have hlog : (2 : ℚ) ^ Int.log 2 |x| ≤ x := by
    have h := Int.zpow_log_le_self (R := ℚ) (b := 2) (by norm_num) (abs_pos.mpr hx.ne')
    rwa [abs_of_pos hx] at h ⊢
  have hsplit : ulp p x = 2 ^ Int.log 2 |x| * (2 : ℚ) ^ (1 - p : ℤ) := by
    rw [ulp, ← zpow_add₀ (by norm_num)]
    congr 1
    ring
  rw [hsplit]
  exact mul_le_mul_of_nonneg_right hlog (by positivity)

/-- The rounding moves a number by at most half of the weight of the last bit. -/
theorem abs_nearest_sub_le (p : ℕ) (x : ℚ) : |nearest p x - x| ≤ ulp p x / 2 := by
  have hu := ulp_pos p x
  have hx : x = x / ulp p x * ulp p x := (div_mul_cancel₀ x hu.ne').symm
  have hsub : nearest p x - x = ((halfEven (x / ulp p x) : ℚ) - x / ulp p x) * ulp p x := by
    rw [sub_mul, ← hx, nearest]
  rw [hsub, abs_mul, abs_of_pos hu]
  have h := abs_halfEven_sub_le (x / ulp p x)
  nlinarith

/-- Rounding to `p` significant bits adds at most `2^(-p)` of the number. -/
theorem nearest_le (p : ℕ) {x : ℚ} (hx : 0 < x) : nearest p x ≤ x * (1 + 2 ^ (-p : ℤ)) := by
  have herr := (abs_le.mp (abs_nearest_sub_le p x)).2
  have hulp := ulp_le p hx
  have hpow : (2 : ℚ) ^ (1 - p : ℤ) = 2 * 2 ^ (-p : ℤ) := by
    rw [sub_eq_add_neg, zpow_add₀ (by norm_num), zpow_one]
  rw [hpow] at hulp
  linarith

/-- Ten significant bits are enough for the error bound of a `Rounding`. -/
theorem nearest_err (p : ℕ) (hp : 10 ≤ p) (x : ℚ) (hx : 0 ≤ x) :
    |nearest p x - x| ≤ x / 1000 := by
  rcases hx.eq_or_lt with rfl | hpos
  · simp [nearest, halfEven]
  · have h1 := abs_nearest_sub_le p x
    have h2 := ulp_le p hpos
    have h3 : (2 : ℚ) ^ (1 - p : ℤ) ≤ 2 ^ (-9 : ℤ) :=
      zpow_le_zpow_right₀ (by norm_num) (by omega)
    have h4 : (2 : ℚ) ^ (-9 : ℤ) = 1 / 512 := by norm_num
    have h5 : x * 2 ^ (1 - p : ℤ) ≤ x * (1 / 512) := by
      rw [← h4]
      exact mul_le_mul_of_nonneg_left h3 hx
    linarith

/-- Round to nearest even with `p` significant bits. -/
def binary (p : ℕ) (hp : 10 ≤ p) : Rounding := ⟨nearest p, nearest_err p hp⟩

/- `0.3` in the two IEEE formats: the single is above three tenths, the double below. -/
example : nearest 24 (3 / 10) = 10066330 / 2 ^ 25 := by decide +kernel
example : nearest 53 (3 / 10) = 5404319552844595 / 2 ^ 54 := by decide +kernel

end Rounding
