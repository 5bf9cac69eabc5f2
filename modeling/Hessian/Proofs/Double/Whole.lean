import Hessian.Double.Rounding

/-!
# Doubles that are whole numbers

The double nearest to an integer of fewer than 53 bits is that integer, and no other double is,
except that both zeros are `0`.

The significand of a normal double holds the leading bit, so the size of the integer determines
the exponent field, and rounding arrives at the same one.
-/

namespace Hessian.Double

open FloatFormat

/-- The bits of a double are its exponent field, its fraction and its sign. -/
theorem bits_eq (d : Double) :
    d.bits.toNat = binary64.field d.bits.toNat * 2 ^ 52 + binary64.fraction d.bits.toNat +
      if d.negative then binary64.signBit else 0 := by
  have h := d.bits.toNat_lt
  have hs : d.negative = decide (2 ^ 63 ≤ d.bits.toNat) := rfl
  simp only [field, fraction, signBit, binary64, hs, decide_eq_true_eq]
  split <;> omega

/-- Two doubles of the same bits, as a number, are the same. -/
theorem ext_toNat {d e : Double} (h : d.bits.toNat = e.bits.toNat) : d = e := by
  cases d
  cases e
  exact congrArg Double.mk (UInt64.toNat_inj.mp h)

/-- The leading bit of a number that fills a significand once it is scaled up. -/
theorem log2_of_scaled {a k : Nat} (hl : 2 ^ 52 ≤ a * 2 ^ k) (hu : a * 2 ^ k < 2 ^ 53) :
    a ≠ 0 ∧ k ≤ 52 ∧ a.log2 = 52 - k := by
  have ha : a ≠ 0 := by
    rintro rfl
    omega
  have hk : k ≤ 52 := by
    apply Nat.le_of_lt_succ
    rw [← Nat.pow_lt_pow_iff_right (a := 2) (by decide)]
    exact Nat.lt_of_le_of_lt (Nat.le_mul_of_pos_left _ (Nat.pos_of_ne_zero ha)) hu
  refine ⟨ha, hk, (Nat.log2_eq_iff ha).mpr ⟨?_, ?_⟩⟩
  · apply Nat.le_of_mul_le_mul_right _ (Nat.two_pow_pos k)
    rwa [← Nat.pow_add, Nat.sub_add_cancel hk]
  · apply Nat.lt_of_mul_lt_mul_right (a := 2 ^ k)
    rwa [← Nat.pow_add, show 52 - k + 1 + k = 53 by omega]

/-- A number that fills a significand once it is scaled up rounds to that significand. -/
theorem round_of_scaled {a k : Nat} (hl : 2 ^ 52 ≤ a * 2 ^ k) (hu : a * 2 ^ k < 2 ^ 53) :
    binary64.round a 0 = (1074 - k) * 2 ^ 52 + a * 2 ^ k := by
  obtain ⟨ha, hk, hlog⟩ := log2_of_scaled hl hu
  have htop : max ((a.log2 : Int) + 0) (1 - (binary64.bias : Int)) = (52 - k : Nat) := by
    rw [hlog, show (binary64.bias : Int) = 1023 by rfl]
    omega
  have hplaces : nearestScaled a (0 - (((52 - k : Nat) : Int) - (52 : Nat))) = a * 2 ^ k := by
    rw [show (0 : Int) - (((52 - k : Nat) : Int) - (52 : Nat)) = (k : Nat) by omega, nearestScaled,
      if_pos (Int.natCast_nonneg k), Int.toNat_natCast]
  unfold FloatFormat.round
  rw [if_neg ha]
  simp only [htop]
  rw [show binary64.fractionBits = 52 by rfl, hplaces,
    show (((52 - k : Nat) : Int) + (binary64.bias : Int) - 1).toNat = 1074 - k by
      rw [show (binary64.bias : Int) = 1023 by rfl]
      omega]
  apply Nat.min_eq_left
  rw [show binary64.infinity = 2047 * 2 ^ 52 by rfl]
  omega

/-- The fraction field is shorter than the significand. -/
theorem fraction_lt (d : Double) : binary64.fraction d.bits.toNat < 2 ^ 52 :=
  Nat.mod_lt _ (by decide)

/-- The power of two of a double, from its exponent field. -/
theorem exponent_eq (d : Double) :
    d.exponent = (max (binary64.field d.bits.toNat) 1 : Nat) - (1075 : Nat) := rfl

/-- The significand of a double, from its fields. -/
theorem significand_eq (d : Double) :
    d.significand = if binary64.field d.bits.toNat = 0 then binary64.fraction d.bits.toNat
      else binary64.fraction d.bits.toNat + 2 ^ 52 := rfl

/-- The fields of a double that is a small whole number other than zero. -/
theorem fields_of_wholeSize {d : Double} {a : Nat} (h : d.wholeSize? = some a) (ha : a ≠ 0)
    (hu : a < 2 ^ 52) :
    ∃ k, binary64.field d.bits.toNat + k = 1075 ∧
      binary64.fraction d.bits.toNat + 2 ^ 52 = a * 2 ^ k := by
  have hf := fraction_lt d
  have he := exponent_eq d
  have hs := significand_eq d
  unfold wholeSize? at h
  split at h
  · -- a significand with its leading bit is too large already, and has to be scaled up
    next hp =>
    rw [if_neg (by omega)] at hs
    have hle := Nat.le_mul_of_pos_right d.significand (Nat.two_pow_pos d.exponent.toNat)
    obtain rfl := Option.some.inj h
    omega
  · next hp =>
    split at h
    · next hm =>
      have hsa : d.significand = a * 2 ^ (-d.exponent).toNat := by
        rw [← Option.some.inj h, Nat.div_mul_cancel (Nat.dvd_of_mod_eq_zero hm)]
      by_cases hz : binary64.field d.bits.toNat = 0
      · -- without its leading bit a significand is too small to be scaled down
        rw [if_pos hz] at hs
        have hk : 2 ^ 52 ≤ 2 ^ (-d.exponent).toNat :=
          Nat.pow_le_pow_right (by decide) (by omega)
        have := Nat.le_mul_of_pos_left (2 ^ (-d.exponent).toNat) (Nat.pos_of_ne_zero ha)
        omega
      · rw [if_neg hz] at hs
        exact ⟨(-d.exponent).toNat, by omega, by omega⟩
    · cases h

/-- A double that is a small whole number other than zero is the double nearest to it. -/
theorem ofInt_of_whole? {d : Double} {n : Int} (h : d.whole? = some n) (hn : n ≠ 0)
    (hu : n.natAbs < 2 ^ 52) : ofInt n = d := by
  unfold whole? at h
  split at h
  · obtain ⟨a, ha, rfl⟩ := Option.map_eq_some_iff.mp h
    have habs : (if d.negative then -(a : Int) else a).natAbs = a := by
      split <;> omega
    rw [habs] at hu
    have ha0 : a ≠ 0 := by
      rintro rfl
      exact hn (by split <;> rfl)
    have hsign : decide ((if d.negative then -(a : Int) else a) < 0) = d.negative := by
      cases d.negative with
      | false => simp
      | true => simpa using Nat.pos_of_ne_zero ha0
    obtain ⟨k, hk, hm⟩ := fields_of_wholeSize ha ha0 hu
    have hf := fraction_lt d
    obtain ⟨-, hk52, -⟩ := log2_of_scaled (a := a) (k := k) (by omega) (by omega)
    have hbits : (1074 - k) * 2 ^ 52 + a * 2 ^ k + (if d.negative then binary64.signBit else 0) =
        d.bits.toNat := by
      conv => rhs; rw [bits_eq d]
      omega
    apply ext_toNat
    unfold ofInt roundSigned
    rw [habs, hsign, round_of_scaled (k := k) (by omega) (by omega), hbits]
    exact UInt64.toNat_ofNat_of_lt' d.bits.toNat_lt
  · cases h

/-- The fields of a double whose bits are put together from an exponent, a significand that has
its leading bit, and a sign. -/
theorem fields_of_bits {d : Double} {k m : Nat} {negative : Bool} (hk : k ≤ 52) (hl : 2 ^ 52 ≤ m)
    (hu : m < 2 ^ 53)
    (h : d.bits.toNat = (1074 - k) * 2 ^ 52 + m + if negative then binary64.signBit else 0) :
    d.negative = negative ∧ binary64.field d.bits.toNat = 1075 - k ∧
      binary64.fraction d.bits.toNat + 2 ^ 52 = m := by
  have hs : d.negative = decide (2 ^ 63 ≤ d.bits.toNat) := rfl
  rw [hs, h]
  simp only [field, fraction, signBit, binary64]
  cases negative with
  | false =>
    simp only [Bool.false_eq_true, if_false, decide_eq_false_iff_not]
    omega
  | true =>
    simp only [if_true, decide_eq_true_eq]
    omega

/-- A small whole number that is scaled up to fill a significand can be scaled back. -/
theorem exists_scaled {a : Nat} (ha : a ≠ 0) (hu : a < 2 ^ 52) :
    ∃ k, 2 ^ 52 ≤ a * 2 ^ k ∧ a * 2 ^ k < 2 ^ 53 := by
  have hlog : a.log2 ≤ 52 := Nat.le_of_lt ((Nat.log2_lt ha).mpr hu)
  refine ⟨52 - a.log2, ?_, ?_⟩
  · calc 2 ^ 52 = 2 ^ a.log2 * 2 ^ (52 - a.log2) := by rw [← Nat.pow_add, Nat.add_sub_cancel' hlog]
      _ ≤ a * 2 ^ (52 - a.log2) := Nat.mul_le_mul_right _ (Nat.log2_self_le ha)
  · calc a * 2 ^ (52 - a.log2) < 2 ^ (a.log2 + 1) * 2 ^ (52 - a.log2) :=
          Nat.mul_lt_mul_of_pos_right Nat.lt_log2_self (Nat.two_pow_pos _)
      _ = 2 ^ 53 := by rw [← Nat.pow_add]; congr 1; omega

/-- A number that is scaled up by a power of two is a whole number when it is scaled back. -/
theorem wholeSize?_of_scaled {d : Double} {a k : Nat} (he : d.exponent = -(k : Int))
    (hs : d.significand = a * 2 ^ k) : d.wholeSize? = some a := by
  unfold wholeSize?
  rw [he, hs, Int.neg_neg, Int.toNat_natCast]
  split
  · next hp =>
    obtain rfl : k = 0 := by omega
    simp
  · rw [if_pos (Nat.mul_mod_left ..), Nat.mul_div_cancel _ (Nat.two_pow_pos k)]

/-- The double nearest to a small whole number is that number. -/
theorem whole?_ofInt {n : Int} (hu : n.natAbs < 2 ^ 52) : (ofInt n).whole? = some n := by
  by_cases hn : n = 0
  · subst hn
    decide +kernel
  obtain ⟨k, hl, hk⟩ := exists_scaled (Int.natAbs_ne_zero.mpr hn) hu
  obtain ⟨-, hk52, -⟩ := log2_of_scaled hl hk
  have hbits : (ofInt n).bits.toNat = (1074 - k) * 2 ^ 52 + n.natAbs * 2 ^ k +
      if decide (n < 0) then binary64.signBit else 0 := by
    unfold ofInt roundSigned
    rw [round_of_scaled hl hk]
    refine UInt64.toNat_ofNat_of_lt' (Nat.lt_of_lt_of_eq (m := 2 ^ 64) ?_ rfl)
    simp only [signBit, binary64]
    split <;> omega
  obtain ⟨hneg, hfield, hfraction⟩ := fields_of_bits hk52 hl hk hbits
  have he : (ofInt n).exponent = -(k : Int) := by
    rw [exponent_eq, hfield]
    omega
  have hs : (ofInt n).significand = n.natAbs * 2 ^ k := by
    rw [significand_eq, if_neg (by omega), hfraction]
  have hfinite : (ofInt n).isFinite = true := by
    unfold isFinite FloatFormat.isFinite
    rw [hfield, decide_eq_true_eq]
    exact Nat.lt_of_le_of_lt (Nat.sub_le _ _) (by decide)
  rw [whole?, if_pos hfinite, wholeSize?_of_scaled he hs, hneg, Option.map_some]
  simp only [decide_eq_true_eq, Option.some.injEq]
  split <;> omega

/-- Both zeros are `0`, and no other double is. -/
theorem eq_zero_of_whole? {d : Double} (h : d.whole? = some 0) : d = zero ∨ d = negZero := by
  have hf := fraction_lt d
  have he := exponent_eq d
  have hs := significand_eq d
  have hb := bits_eq d
  unfold whole? at h
  split at h
  · obtain ⟨a, ha, hn⟩ := Option.map_eq_some_iff.mp h
    obtain rfl : a = 0 := by
      split at hn <;> omega
    have hzero : d.significand = 0 := by
      unfold wholeSize? at ha
      split at ha
      · exact (Nat.mul_eq_zero.mp (Option.some.inj ha)).resolve_right
          (Nat.ne_of_gt (Nat.two_pow_pos _))
      · split at ha
        · next hm =>
          rw [← Nat.div_mul_cancel (Nat.dvd_of_mod_eq_zero hm), Option.some.inj ha, Nat.zero_mul]
        · cases ha
    have hz : binary64.field d.bits.toNat = 0 := by
      apply Classical.byContradiction
      intro hz
      rw [if_neg hz] at hs
      omega
    rw [if_pos hz] at hs
    rw [hz, ← hs, hzero] at hb
    cases hneg : d.negative with
    | false =>
      rw [hneg] at hb
      exact .inl (ext_toNat hb)
    | true =>
      rw [hneg] at hb
      exact .inr (ext_toNat hb)
  · cases h

/-- A double with the negative zero replaced by the positive one. -/
def norm (d : Double) : Double := if d = negZero then zero else d

/-- Doubles that equal no integer, or one other than `0`, are no zeros. -/
theorem norm_of_whole? {d : Double} (h : d.whole? ≠ some 0) : d.norm = d := by
  refine if_neg ?_
  rintro rfl
  exact h whole?_negZero

/-- Both zeros become the positive one. -/
theorem norm_of_whole?_zero {d : Double} (h : d.whole? = some 0) : d.norm = zero := by
  rcases eq_zero_of_whole? h with rfl | rfl
  · rfl
  · exact if_pos rfl

end Hessian.Double
