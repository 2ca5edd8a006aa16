/-
  Linear congruential generators modulo a power of two: `x ↦ a * x + c`.

  If 4 divides `a - 1` and `c` is odd, the generator has the full period: from any seed it takes every
  value once before it comes back.

  1. **The iterates** — `a ^ n * x + c * S n`, with the geometric sum `S n` of the powers of `a`
     (`iterate_next`).  As `a ^ n - 1 = (a - 1) * S n`, it comes back after `n` steps exactly when the
     modulus divides `S n * ((a - 1) * x + c)`, whose second factor is odd.

  2. **The geometric sum** — `2 ^ k` divides `S n` exactly when it divides `n`: by induction on `k`, for
     `S (2 * m) = S m * (1 + a ^ m)`, and 2 divides the second factor once and not twice
     (`two_pow_dvd_geom_sum_iff`).

  3. **Full periods** — a function whose orbit is as long as its finite type is large: among that
     many successive values there are as many that meet a condition as there are in the type
     (`card_filter_iterate`).
-/
import Mathlib

namespace Lcg

open Finset Function

/-! ## The geometric sum

After `n` steps the seed was multiplied by `a ^ n`, and the increment by the sum of the powers below
it. How often 2 divides that sum decides when the generator comes back. -/

/-- The sum of the first `n` powers of `a`. -/
def geomSum (a : ℤ) (n : ℕ) : ℤ := ∑ i ∈ range n, a ^ i

/-- Twice as many powers. -/
theorem geomSum_double (a : ℤ) (m : ℕ) : geomSum a (2 * m) = geomSum a m * (1 + a ^ m) := by
  unfold geomSum
  rw [two_mul, sum_range_add, mul_add, mul_one, sum_mul]
  congr 1
  apply sum_congr rfl
  intro i _
  rw [pow_add, mul_comm]

/-- The powers of a number that is 1 modulo 4. -/
theorem pow_emod_four {a : ℤ} (ha : a % 4 = 1) (n : ℕ) : a ^ n % 4 = 1 := by
  have hmod : a ≡ 1 [ZMOD 4] := ha
  have hpow : a ^ n ≡ 1 ^ n [ZMOD 4] := hmod.pow n
  rwa [one_pow] at hpow

/-- The sum has the parity of its length, as the powers are odd. -/
theorem geomSum_emod_two {a : ℤ} (ha : a % 4 = 1) (n : ℕ) : geomSum a n % 2 = n % 2 := by
  induction n with
  | zero => rfl
  | succ n ih =>
    have hsucc : geomSum a (n + 1) = geomSum a n + a ^ n := sum_range_succ _ n
    have hpow := pow_emod_four ha n
    push_cast
    omega

/-- 2 divides the sum as often as it divides its length. By induction on the exponent: to double the
    length adds one factor 2. -/
theorem two_pow_dvd_geomSum_iff {a : ℤ} (ha : a % 4 = 1) :
    ∀ k n : ℕ, (2 : ℤ) ^ k ∣ geomSum a n ↔ 2 ^ k ∣ n := by
  intro k
  induction k with
  | zero =>
    intro n
    exact iff_of_true (one_dvd _) (one_dvd _)
  | succ k ih =>
    intro n
    have hparity := geomSum_emod_two ha n
    by_cases hn : n % 2 = 0
    · -- both sides are twice as large as for half of `n`, but for an odd factor
      obtain ⟨m, rfl⟩ : ∃ m, n = 2 * m := ⟨n / 2, by omega⟩
      have hpow := pow_emod_four ha m
      obtain ⟨q, hq⟩ : ∃ q, 1 + a ^ m = 2 * q := ⟨(1 + a ^ m) / 2, by omega⟩
      have hodd : q % 2 = 1 := by omega
      have hcop : IsCoprime ((2 : ℤ) ^ k) q := by
        refine IsCoprime.pow_left ⟨-(q / 2), 1, ?_⟩
        omega
      have hsum : geomSum a (2 * m) = 2 * (geomSum a m * q) := by
        rw [geomSum_double, hq]
        ring
      rw [hsum, pow_succ', pow_succ', mul_dvd_mul_iff_left two_ne_zero,
        Nat.mul_dvd_mul_iff_left two_pos, ← ih m]
      exact ⟨hcop.dvd_of_dvd_mul_right, fun hdvd => hdvd.mul_right q⟩
    · refine iff_of_false (fun hdvd => ?_) (fun hdvd => ?_)
      · have h2 : (2 : ℤ) ∣ geomSum a n := (dvd_pow_self 2 (Nat.succ_ne_zero k)).trans hdvd
        omega
      · have h2 : 2 ∣ n := (dvd_pow_self 2 (Nat.succ_ne_zero k)).trans hdvd
        omega

/-! ## The generator

Modulo a power of 2, with a multiplier that is 1 modulo 4 and an odd increment. -/

variable {k : ℕ}

/-- One step of the generator. -/
def next (a c : ℤ) (x : ZMod (2 ^ k)) : ZMod (2 ^ k) := a * x + c

/-- The state after `n` steps. -/
theorem iterate_next (a c : ℤ) (n : ℕ) (x : ZMod (2 ^ k)) :
    (next a c)^[n] x = a ^ n * x + c * geomSum a n := by
  induction n with
  | zero => simp [geomSum]
  | succ n ih =>
    have hsucc : geomSum a (n + 1) = a * geomSum a n + 1 := by
      unfold geomSum
      rw [sum_range_succ', mul_sum, pow_zero]
      congr 1
      apply sum_congr rfl
      intro i _
      rw [pow_succ']
    rw [iterate_succ_apply', ih, hsucc, next]
    push_cast
    ring

/-- `a ^ n - 1` as a multiple of the sum. -/
theorem geomSum_mul (a : ℤ) (n : ℕ) : geomSum a n * (a - 1) = a ^ n - 1 := geom_sum_mul a n

/-- **When the generator comes back.** -/
theorem isPeriodicPt_next_iff {a c : ℤ} (ha : a % 4 = 1) (hc : c % 2 = 1) (n : ℕ)
    (x : ZMod (2 ^ k)) : IsPeriodicPt (next a c) n x ↔ 2 ^ k ∣ n := by
  obtain ⟨y, rfl⟩ := ZMod.intCast_surjective x
  have hsub : a ^ n * y + c * geomSum a n - y = geomSum a n * ((a - 1) * y + c) := by
    have hmul := geomSum_mul a n
    linear_combination y * (-hmul)
  have hodd : ((a - 1) * y + c) % 2 = 1 := by
    have heven : (a - 1) * y % 2 = 0 := by
      rw [Int.mul_emod, show (a - 1) % 2 = 0 by omega, zero_mul, Int.zero_emod]
    omega
  have hcop : IsCoprime ((2 : ℤ) ^ k) ((a - 1) * y + c) := by
    refine IsCoprime.pow_left ⟨-(((a - 1) * y + c) / 2), 1, ?_⟩
    omega
  have hdvd : IsPeriodicPt (next a c) n (y : ZMod (2 ^ k)) ↔
      (2 : ℤ) ^ k ∣ geomSum a n * ((a - 1) * y + c) := by
    rw [← hsub, IsPeriodicPt, IsFixedPt, iterate_next]
    have hcast : ((2 : ℤ) ^ k) = ((2 ^ k : ℕ) : ℤ) := by push_cast; rfl
    rw [hcast, ← ZMod.intCast_zmod_eq_zero_iff_dvd]
    push_cast
    rw [sub_eq_zero]
  rw [hdvd, ← two_pow_dvd_geomSum_iff ha]
  exact ⟨hcop.dvd_of_dvd_mul_right, fun h => h.mul_right _⟩

/-- **The full period**, from any seed. -/
theorem minimalPeriod_next {a c : ℤ} (ha : a % 4 = 1) (hc : c % 2 = 1) (x : ZMod (2 ^ k)) :
    minimalPeriod (next a c) x = 2 ^ k := by
  apply Nat.dvd_antisymm
  · rw [← isPeriodicPt_iff_minimalPeriod_dvd, isPeriodicPt_next_iff ha hc]
  · rw [← isPeriodicPt_next_iff ha hc, isPeriodicPt_iff_minimalPeriod_dvd]

/-! ## Full periods

What a full period is good for: every value is taken, each of them once. -/

variable {α : Type*} [Fintype α] {f : α → α} {x : α}

/-- An orbit as long as the type is large goes through all of it. -/
theorem exists_iterate_eq [DecidableEq α] (h : minimalPeriod f x = Fintype.card α) (y : α) :
    ∃ n < Fintype.card α, f^[n] x = y := by
  have hinj : Set.InjOn (f^[·] x) (range (Fintype.card α) : Set ℕ) := by
    rw [coe_range, ← h]
    exact iterate_injOn_Iio_minimalPeriod
  have himage : (range (Fintype.card α)).image (f^[·] x) = univ := by
    apply eq_univ_of_card
    rw [card_image_of_injOn hinj, card_range]
  obtain ⟨n, hn, hy⟩ := mem_image.mp (himage ▸ mem_univ y)
  exact ⟨n, mem_range.mp hn, hy⟩

/-- **The frequency of a condition** among that many successive values is its frequency in the type. -/
theorem card_filter_iterate [DecidableEq α] (h : minimalPeriod f x = Fintype.card α) (p : α → Prop)
    [DecidablePred p] : #{n ∈ range (Fintype.card α) | p (f^[n] x)} = #{y | p y} := by
  apply card_bij fun n _ => f^[n] x
  · intro n hn
    rw [mem_filter] at hn ⊢
    exact ⟨mem_univ _, hn.2⟩
  · intro n hn m hm heq
    rw [mem_filter, mem_range, ← h] at hn hm
    exact iterate_injOn_Iio_minimalPeriod hn.1 hm.1 heq
  · intro y hy
    obtain ⟨n, hn, rfl⟩ := exists_iterate_eq h y
    rw [mem_filter] at hy
    exact ⟨n, mem_filter.mpr ⟨mem_range.mpr hn, hy.2⟩, rfl⟩

end Lcg
