import Hessian.Bytes
import Hessian.Proofs.Double.Whole
import Mathlib.Algebra.Order.Field.Power
import Mathlib.Data.Rat.Cast.Order
import Mathlib.Tactic.Ring

/-!
# The double nearest to a large integer

A finite double is a rational number, `Double.toRat`, and `Double.IsNearest` says that no other
finite double is nearer to a number, and that the significand is even where another one is as near.

An integer of 53 bits or more lies among the multiples of a power of two that are doubles.  It is
rounded to the nearest one of these, and all doubles that are no such multiples are smaller than the
first of them.

## Main statements

* `Double.isNearest_ofInt` : an integer of 53 to 1023 bits is rounded to the nearest double.
-/

namespace Hessian

/-! ## Multiples -/

/-- A rounded quotient is off by at most half a unit, and is even where it is off by half a unit. -/
theorem nearestEven_error (n : ℕ) {d : ℕ} (hd : 0 < d) :
    2 * |(nearestEven n d : ℤ) * d - n| ≤ d ∧
      (2 * |(nearestEven n d : ℤ) * d - n| = d → Even (nearestEven n d)) := by
  have hn : (n : ℤ) = (n / d : ℕ) * d + (n % d : ℕ) := by
    exact_mod_cast (Nat.div_add_mod' n d).symm
  have hr : n % d < d := Nat.mod_lt n hd
  unfold nearestEven
  simp only
  split
  · next hlow =>
    rw [hn, sub_add_cancel_left, abs_neg, abs_of_nonneg (Int.natCast_nonneg _)]
    omega
  split
  · next hhigh =>
    rw [hn, Nat.cast_add_one, add_one_mul, add_sub_add_left_eq_sub, abs_of_nonneg (by omega)]
    omega
  · next hlow hhigh =>
    have htie : 2 * (n % d) = d := by omega
    rcases Nat.mod_two_eq_zero_or_one (n / d) with hq | hq
    · rw [hq, Nat.add_zero, hn, sub_add_cancel_left, abs_neg,
        abs_of_nonneg (Int.natCast_nonneg _)]
      exact ⟨by omega, fun _ => Nat.even_iff.mpr hq⟩
    · rw [hq, hn, Nat.cast_add_one, add_one_mul, add_sub_add_left_eq_sub,
        abs_of_nonneg (by omega)]
      exact ⟨by omega, fun _ => Nat.even_iff.mpr (by omega)⟩

/-- No multiple is nearer than that of the rounded quotient, and if another one is as near the
quotient is even. -/
theorem nearestEven_nearest (n : ℕ) {d : ℕ} (hd : 0 < d) (z : ℤ) :
    |(nearestEven n d : ℤ) * d - n| ≤ |z * d - n| ∧
      (z ≠ nearestEven n d → |z * d - n| = |(nearestEven n d : ℤ) * d - n| →
        Even (nearestEven n d)) := by
  obtain ⟨herror, heven⟩ := nearestEven_error n hd
  by_cases hz : z = nearestEven n d
  · exact ⟨hz ▸ le_refl _, fun hne => absurd hz hne⟩
  have hapart : (d : ℤ) ≤ |z * d - nearestEven n d * d| := by
    rw [← sub_mul, abs_mul, Nat.abs_cast]
    exact le_mul_of_one_le_left (Int.natCast_nonneg d) (Int.one_le_abs (sub_ne_zero.mpr hz))
  have htriangle := abs_sub_le (z * d) (n : ℤ) (nearestEven n d * d)
  rw [abs_sub_comm (n : ℤ)] at htriangle
  exact ⟨by omega, fun _ heq => heven (by omega)⟩

/-- A quotient is rounded to one of the integers next to it. -/
theorem nearestEven_bounds (n d : ℕ) : n / d ≤ nearestEven n d ∧ nearestEven n d ≤ n / d + 1 := by
  unfold nearestEven
  simp only
  split_ifs <;> omega

namespace Double

open FloatFormat

/-! ## Doubles as rational numbers -/

/-- The number that a finite double is. -/
def toRat (d : Double) : ℚ :=
  (if d.negative then -1 else 1) * d.significand * 2 ^ d.exponent

/-- The double is finite, and no other finite double is nearer to the number.  If another one is as
near the significand is even. -/
structure IsNearest (d : Double) (x : ℚ) : Prop where
  isFinite : d.isFinite = true
  le : ∀ d' : Double, d'.isFinite = true → |d.toRat - x| ≤ |d'.toRat - x|
  even : ∀ d' : Double, d'.isFinite = true → d'.toRat ≠ d.toRat →
    |d'.toRat - x| = |d.toRat - x| → Even d.significand

theorem significand_lt (d : Double) : d.significand < 2 ^ 53 := by
  have hf := fraction_lt d
  rw [significand_eq]
  split <;> omega

/-- A double is a multiple of a power of two or smaller than all the multiples that are as large as
their place allows. -/
theorem exists_multiple_or_lt (d : Double) (k : ℕ) :
    (∃ z : ℤ, d.toRat = z * 2 ^ k) ∨ |d.toRat| < 2 ^ 52 * 2 ^ k := by
  have habs : |d.toRat| = d.significand * (2 : ℚ) ^ d.exponent := by
    have hpow : (0 : ℚ) < 2 ^ d.exponent := by positivity
    rw [toRat, abs_mul, abs_mul, Nat.abs_cast, abs_of_pos hpow]
    split <;> simp
  by_cases hk : (k : ℤ) ≤ d.exponent
  · left
    refine ⟨(if d.negative then -1 else 1) * d.significand * 2 ^ (d.exponent - k).toNat, ?_⟩
    have hpow : (2 : ℚ) ^ d.exponent = 2 ^ (d.exponent - k).toNat * 2 ^ k := by
      rw [← pow_add, ← zpow_natCast]
      congr 1
      omega
    rw [toRat, hpow]
    push_cast
    split <;> ring
  · right
    have hsig : (d.significand : ℚ) < 2 ^ 53 := by exact_mod_cast d.significand_lt
    calc |d.toRat| = d.significand * (2 : ℚ) ^ d.exponent := habs
      _ < 2 ^ 53 * (2 : ℚ) ^ d.exponent := by gcongr
      _ ≤ 2 ^ 53 * (2 : ℚ) ^ ((k : ℤ) - 1) := by
        gcongr
        · norm_num
        · omega
      _ = 2 ^ 52 * 2 ^ k := by
        rw [zpow_sub_one₀ (by norm_num), zpow_natCast]
        ring

/-! ## Rounding -/

/-- To divide by a power of two is to round to a multiple of it. -/
theorem nearestScaled_neg (n k : ℕ) : nearestScaled n (-(k : ℤ)) = nearestEven n (2 ^ k) := by
  unfold nearestScaled
  split
  · obtain rfl : k = 0 := by omega
    simp [nearestEven, Nat.mod_one]
  · rw [Int.neg_neg, Int.toNat_natCast]

theorem ne_zero_of_log2 {n k : ℕ} (hlog : n.log2 = 52 + k) : n ≠ 0 := by
  rintro rfl
  rw [Nat.log2_zero] at hlog
  omega

/-- The leading bits of an integer fill a significand, and may be rounded up to the next one. -/
theorem leading_bounds {n k : ℕ} (hlog : n.log2 = 52 + k) :
    2 ^ 52 ≤ nearestEven n (2 ^ k) ∧ nearestEven n (2 ^ k) ≤ 2 ^ 53 := by
  obtain ⟨hl, hu⟩ := (Nat.log2_eq_iff (ne_zero_of_log2 hlog)).mp hlog
  obtain ⟨hlow, hhigh⟩ := nearestEven_bounds n (2 ^ k)
  have hfirst : 2 ^ 52 ≤ n / 2 ^ k := by
    rw [Nat.le_div_iff_mul_le (Nat.two_pow_pos k), ← Nat.pow_add]
    exact hl
  have hlast : n / 2 ^ k < 2 ^ 53 := by
    rw [Nat.div_lt_iff_lt_mul (Nat.two_pow_pos k), ← Nat.pow_add, show 53 + k = 52 + k + 1 by omega]
    exact hu
  omega

/-- An integer that is as long as a significand or longer is rounded to its leading bits. -/
theorem round_of_long {n k : ℕ} (hlog : n.log2 = 52 + k) (hk : k ≤ 970) :
    binary64.round n 0 = (k + 1074) * 2 ^ 52 + nearestEven n (2 ^ k) := by
  have htop : max ((n.log2 : Int) + 0) (1 - (binary64.bias : Int)) = (52 + k : ℕ) := by
    rw [hlog, show (binary64.bias : Int) = 1023 by rfl]
    omega
  have hplaces : nearestScaled n (0 - (((52 + k : ℕ) : Int) - (52 : ℕ))) =
      nearestEven n (2 ^ k) := by
    rw [show (0 : Int) - (((52 + k : ℕ) : Int) - (52 : ℕ)) = -(k : ℤ) by omega, nearestScaled_neg]
  obtain ⟨-, hu⟩ := leading_bounds hlog
  unfold FloatFormat.round
  rw [if_neg (ne_zero_of_log2 hlog)]
  simp only [htop]
  rw [show binary64.fractionBits = 52 by rfl, hplaces,
    show (((52 + k : ℕ) : Int) + (binary64.bias : Int) - 1).toNat = k + 1074 by
      rw [show (binary64.bias : Int) = 1023 by rfl]
      omega]
  apply Nat.min_eq_left
  rw [show binary64.infinity = 2047 * 2 ^ 52 by rfl]
  omega

/-- A double whose bits are put together from an exponent and a significand that has its leading bit
is their number.  A significand that is one too large carries into the exponent. -/
theorem toRat_of_bits {d : Double} {k q : ℕ} (hk : k ≤ 970) (hl : 2 ^ 52 ≤ q) (hu : q ≤ 2 ^ 53)
    (h : d.bits.toNat = (k + 1074) * 2 ^ 52 + q) :
    d.isFinite = true ∧ d.toRat = q * 2 ^ k ∧ (Even q → Even d.significand) := by
  have hneg : d.negative = false := by
    change decide (2 ^ 63 ≤ d.bits.toNat) = false
    rw [decide_eq_false_iff_not]
    omega
  have hfinite (hf : binary64.field d.bits.toNat < 2047) : d.isFinite = true := decide_eq_true hf
  have hfield : binary64.field d.bits.toNat = d.bits.toNat / 2 ^ 52 % 2 ^ 11 := rfl
  have hfraction : binary64.fraction d.bits.toNat = d.bits.toNat % 2 ^ 52 := rfl
  rcases Nat.lt_or_eq_of_le hu with hlt | rfl
  · have hexp : d.exponent = (k : ℤ) := by
      rw [exponent_eq]
      omega
    have hsig : d.significand = q := by
      rw [significand_eq, if_neg (by omega)]
      omega
    refine ⟨hfinite (by omega), ?_, hsig ▸ id⟩
    rw [toRat, hneg, hexp, hsig, if_neg Bool.false_ne_true, one_mul, zpow_natCast]
  · have hexp : d.exponent = (k : ℤ) + 1 := by
      rw [exponent_eq]
      omega
    have hsig : d.significand = 2 ^ 52 := by
      rw [significand_eq, if_neg (by omega)]
      omega
    refine ⟨hfinite (by omega), ?_, fun _ => hsig ▸ by decide⟩
    rw [toRat, hneg, hexp, hsig, if_neg Bool.false_ne_true, zpow_add_one₀ two_ne_zero, zpow_natCast]
    push_cast
    ring

/-- An integer that is as long as a significand or longer becomes the multiple that its leading bits
are. -/
theorem toRat_ofInt {n k : ℕ} (hlog : n.log2 = 52 + k) (hk : k ≤ 970) :
    (ofInt n).isFinite = true ∧ (ofInt n).toRat = nearestEven n (2 ^ k) * 2 ^ k ∧
      (Even (nearestEven n (2 ^ k)) → Even (ofInt n).significand) := by
  obtain ⟨hl, hu⟩ := leading_bounds hlog
  refine toRat_of_bits hk hl hu ?_
  have hs : decide ((n : ℤ) < 0) = false := decide_eq_false (by omega)
  unfold ofInt roundSigned
  rw [Int.natAbs_natCast, round_of_long hlog hk, hs, if_neg Bool.false_ne_true, Nat.add_zero]
  exact UInt64.toNat_ofNat_of_lt' (Nat.lt_of_lt_of_eq (m := 2 ^ 64) (by omega) rfl)

/-- The double of such an integer is not a negative zero. -/
theorem norm_ofInt {n : ℕ} (hl : 52 ≤ n.log2) (hu : n.log2 ≤ 1022) :
    (ofInt n).norm = ofInt n := by
  obtain ⟨k, hlog⟩ := Nat.exists_eq_add_of_le hl
  have hk : k ≤ 970 := by omega
  refine if_neg fun hzero => ?_
  have hrat := (toRat_ofInt hlog hk).2.1
  have hpos : (0 : ℚ) < nearestEven n (2 ^ k) := by
    have := (leading_bounds hlog).1
    exact_mod_cast (by omega : 0 < nearestEven n (2 ^ k))
  have hsig : negZero.significand = 0 := rfl
  rw [hzero, toRat, hsig, Nat.cast_zero, mul_zero, zero_mul] at hrat
  exact (mul_pos hpos (pow_pos two_pos k)).ne hrat

/-- An integer that is as long as a significand or longer is rounded to the nearest double. -/
theorem isNearest_ofInt {n : ℕ} (hl : 52 ≤ n.log2) (hu : n.log2 ≤ 1022) :
    (ofInt n).IsNearest n := by
  obtain ⟨k, hlog⟩ := Nat.exists_eq_add_of_le hl
  have hk : k ≤ 970 := by omega
  obtain ⟨hfinite, hrat, heven⟩ := toRat_ofInt hlog hk
  -- the distances of multiples, as integers and as rational numbers
  have hdist (z : ℤ) : |(z : ℚ) * 2 ^ k - n| = (|z * (2 ^ k : ℕ) - n| : ℤ) := by
    push_cast
    rfl
  have hown : |(ofInt n).toRat - n| = (|(nearestEven n (2 ^ k) : ℤ) * (2 ^ k : ℕ) - n| : ℤ) := by
    rw [← hdist, hrat]
    push_cast
    rfl
  -- the other doubles are farther away than the first multiple of all
  have hfit : (2 : ℚ) ^ 52 * 2 ^ k ≤ n := by
    have := Nat.log2_self_le (ne_zero_of_log2 hlog)
    rw [hlog, Nat.pow_add] at this
    exact_mod_cast this
  have hsmall (d : Double) (hd : |d.toRat| < 2 ^ 52 * 2 ^ k) :
      |(ofInt n).toRat - n| < |d.toRat - n| := by
    have hle := (nearestEven_nearest n (Nat.two_pow_pos k) (2 ^ 52)).1
    calc |(ofInt n).toRat - n| ≤ |((2 ^ 52 : ℤ) : ℚ) * 2 ^ k - n| := by
          rw [hown, hdist]
          exact_mod_cast hle
      _ = n - 2 ^ 52 * 2 ^ k := by
          rw [Int.cast_pow, Int.cast_ofNat, abs_of_nonpos (sub_nonpos.mpr hfit), neg_sub]
      _ < n - d.toRat := sub_lt_sub_left (abs_lt.mp hd).2 _
      _ ≤ |d.toRat - n| := by
          rw [abs_sub_comm]
          exact le_abs_self _
  refine ⟨hfinite, ?_, ?_⟩
  · intro d _
    rcases d.exists_multiple_or_lt k with ⟨z, hz⟩ | hd
    · rw [hown, hz, hdist]
      exact_mod_cast (nearestEven_nearest n (Nat.two_pow_pos k) z).1
    · exact (hsmall d hd).le
  · intro d _ hne heq
    rcases d.exists_multiple_or_lt k with ⟨z, hz⟩ | hd
    · rw [hown, hz, hdist] at heq
      refine heven ((nearestEven_nearest n (Nat.two_pow_pos k) z).2 ?_ (by exact_mod_cast heq))
      rintro rfl
      exact hne (by rw [hz, hrat]; push_cast; rfl)
    · exact absurd heq (hsmall d hd).ne'

end Double

end Hessian
