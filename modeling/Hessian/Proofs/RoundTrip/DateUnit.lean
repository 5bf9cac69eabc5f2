import Hessian.Proofs.RoundTrip.Datum
import Hessian.Proofs.RoundTrip.Instant
import Mathlib.Algebra.Order.Ring.Abs

/-!
# Dates in units

A date on the wire is a number of milliseconds, in whatever unit it has been counted.  A count of
units is written if its milliseconds fit a long, and a date is read in any unit as the whole units
between it and the epoch.  So a count comes back in its own unit, and what it becomes in another one
is what its milliseconds become (`Datum.date_units`).

Dates before the epoch are counted toward it as those after it are: the count has the sign of the
date, and the date is less than one unit further away (`DateUnit.Truncates`).
-/

namespace Hessian

open Grammar

/-! ## Longs -/

/-- The integer is that of a long. -/
def InLong (n : Int) : Prop := -2 ^ 63 ≤ n ∧ n < 2 ^ 63

instance (n : Int) : Decidable (InLong n) :=
  inferInstanceAs (Decidable (-2 ^ 63 ≤ n ∧ n < 2 ^ 63))

theorem fitsLong_iff {n : Int} : fitsLong n = true ↔ InLong n := by
  simp [fitsLong, InLong]

theorem inLong_toInt (n : Int64) : InLong n.toInt := ⟨n.le_toInt, n.toInt_lt⟩

theorem InLong.toInt_ofInt {n : Int} (h : InLong n) : (Int64.ofInt n).toInt = n :=
  Int64.toInt_ofInt_of_le h.1 h.2

/-- The first integer is on the way from zero to the second one. -/
def Toward (k m : Int) : Prop := 0 ≤ k ∧ k ≤ m ∨ m ≤ k ∧ k ≤ 0

/-- The two sides of zero are alike. -/
theorem toward_neg {k m : Int} : Toward (-k) (-m) ↔ Toward k m := by
  unfold Toward
  omega

/-- What is nearer to zero than a long is a long. -/
theorem Toward.inLong {k m : Int} (h : Toward k m) (hm : InLong m) : InLong k := by
  unfold InLong at hm ⊢
  unfold Toward at h
  omega

namespace DateUnit

theorem factor_pos (unit : DateUnit) : 0 < unit.factor := by
  cases unit <;> decide

variable (unit : DateUnit)

/-- The milliseconds of the whole units in a date are no further from the epoch than the date. -/
theorem toward_mul_factor (millis : Int) :
    Toward (millis.tdiv unit.factor * unit.factor) millis := by
  have hpos := unit.factor_pos
  wlog h : 0 ≤ millis generalizing millis
  · have hneg := this (-millis) (by omega)
    rwa [Int.neg_tdiv, Int.neg_mul, toward_neg] at hneg
  have hsum := Int.tmod_add_tdiv_mul millis unit.factor
  have hrest := Int.tmod_nonneg unit.factor h
  exact .inl ⟨Int.mul_nonneg (Int.tdiv_nonneg h hpos.le) hpos.le, by omega⟩

/-- The whole units themselves are nearer still. -/
theorem toward_tdiv_factor (millis : Int) : Toward (millis.tdiv unit.factor) millis := by
  wlog h : 0 ≤ millis generalizing millis
  · have hneg := this (-millis) (by omega)
    rwa [Int.neg_tdiv, toward_neg] at hneg
  exact .inl ⟨Int.tdiv_nonneg h unit.factor_pos.le, Int.tdiv_le_self _ h⟩

/-- The count is that of the whole units between a date and the epoch. -/
structure Truncates (millis count : Int) : Prop where
  quotient : count = millis.tdiv unit.factor
  /-- The count can be written again. -/
  inLong : InLong (count * unit.factor)
  /-- The count is on the same side of the epoch as the date. -/
  sign : count = 0 ∨ count.sign = millis.sign
  /-- What is lost is less than a unit. -/
  lost : |millis - count * unit.factor| < unit.factor

theorem toInt_ofMillis (millis : Int64) :
    (unit.ofMillis millis).toInt = millis.toInt.tdiv unit.factor :=
  ((unit.toward_tdiv_factor _).inLong (inLong_toInt millis)).toInt_ofInt

theorem truncates_ofMillis (millis : Int64) :
    unit.Truncates millis.toInt (unit.ofMillis millis).toInt where
  quotient := unit.toInt_ofMillis millis
  inLong := by
    rw [unit.toInt_ofMillis]
    exact (unit.toward_mul_factor _).inLong (inLong_toInt millis)
  sign := by
    rw [unit.toInt_ofMillis, ← Int.sign_eq_zero_iff_zero, Int.sign_tdiv,
      Int.sign_eq_one_of_pos unit.factor_pos, Int.mul_one]
    split
    · exact .inl rfl
    · exact .inr rfl
  lost := by
    have hsum := Int.tmod_add_tdiv_mul millis.toInt unit.factor
    have hlost : millis.toInt - millis.toInt.tdiv unit.factor * unit.factor =
        millis.toInt.tmod unit.factor := by omega
    rw [unit.toInt_ofMillis, hlost]
    exact abs_lt.mpr ⟨Int.lt_tmod_of_pos _ unit.factor_pos, Int.tmod_lt_of_pos _ unit.factor_pos⟩

/-- A later date has no smaller count. -/
theorem ofMillis_mono {m m' : Int64} (h : m.toInt ≤ m'.toInt) :
    (unit.ofMillis m).toInt ≤ (unit.ofMillis m').toInt := by
  rw [toInt_ofMillis, toInt_ofMillis]
  exact Int.tdiv_le_tdiv unit.factor_pos h

/-- A count has milliseconds if they fit a long. -/
theorem toMillis?_of_inLong {count : Int64} (h : InLong (count.toInt * unit.factor)) :
    ∃ millis, unit.toMillis? count = some millis ∧ millis.toInt = count.toInt * unit.factor :=
  ⟨_, if_pos (fitsLong_iff.mpr h), h.toInt_ofInt⟩

theorem toMillis?_of_not_inLong {count : Int64} (h : ¬ InLong (count.toInt * unit.factor)) :
    unit.toMillis? count = none :=
  if_neg fun hf => h (fitsLong_iff.mp hf)

end DateUnit

variable {ι : Type} (Γ : Schema ι)

/-- A date is read in any unit, in whatever form it is. -/
theorem Shape.reads_date {octets : Bytes} {millis : Int64} (form : DateForm octets millis)
    (unit : DateUnit) :
    ((Shape.date unit).read Γ).Reads octets (.date unit (unit.ofMillis millis)) := by
  rw [Shape.read_eq, Shape.readWith]
  exact (Decode.reads_date form).map _

/-- A count is refused exactly where its milliseconds do not fit a long, and then nothing is
written.  Otherwise it is written as a date that is read as the same count in the same unit, and in
another one as the whole units in those milliseconds.  Whatever the octets of a date are, it is read
in any unit as the whole units between it and the epoch, and a later date has no smaller count. -/
theorem Datum.date_units (unit : DateUnit) :
    (∀ count : Int64, ¬ InLong (count.toInt * unit.factor) → ∀ e : Encoder,
      (Datum.date unit count).write Γ e =
        .error (.encode (.dateOverflow unit count.toInt)) e) ∧
    (∀ count : Int64, InLong (count.toInt * unit.factor) → ∃ octets,
      (Datum.date unit count).write Γ = Encode.emit octets ∧
      ((Shape.date unit).read Γ).Reads octets (.date unit count) ∧
      ∀ other : DateUnit, ∃ k : Int64, ((Shape.date other).read Γ).Reads octets (.date other k) ∧
        other.Truncates (count.toInt * unit.factor) k.toInt) ∧
    (∀ octets millis, DateForm octets millis →
      ((Shape.date unit).read Γ).Reads octets (.date unit (unit.ofMillis millis))) ∧
    (∀ millis, unit.Truncates millis.toInt (unit.ofMillis millis).toInt) ∧
    ∀ millis millis' : Int64, millis.toInt ≤ millis'.toInt →
      (unit.ofMillis millis).toInt ≤ (unit.ofMillis millis').toInt := by
  refine ⟨fun count h e => ?_, fun count h => ?_, fun _ _ form => Shape.reads_date Γ form unit,
    unit.truncates_ofMillis, fun _ _ => unit.ofMillis_mono⟩
  · rw [write, Encode.dateIn, unit.toMillis?_of_not_inLong h]
    rfl
  · obtain ⟨millis, hmillis, hint⟩ := unit.toMillis?_of_inLong h
    obtain ⟨octets, hwrite, form⟩ := Encode.exists_dateForm millis
    refine ⟨octets, ?_, ?_, fun other => ⟨_, Shape.reads_date Γ form other, ?_⟩⟩
    · rw [write, Encode.dateIn, hmillis]
      exact hwrite
    · have hread := Shape.reads_date Γ form unit
      rwa [DateUnit.ofMillis_of_toMillis? hmillis] at hread
    · rw [← hint]
      exact other.truncates_ofMillis millis

/-- Five weeks before the epoch are a month and some days, and the milliseconds of so many years are
more than a long can hold. -/
theorem Datum.date_units_weeks :
    let octets : Bytes := [0x4b, 0xff, 0xff, 0x3b, 0x20]
    InLong (-5 * DateUnit.weeks.factor) ∧ ¬ InLong (292277025 * DateUnit.years.factor) ∧
      (Datum.date .weeks (-5)).write Catalog.schema = Encode.emit octets ∧
      ((Shape.date .weeks).read Catalog.schema).Reads octets (.date .weeks (-5)) ∧
      ((Shape.date .months).read Catalog.schema).Reads octets (.date .months (-1)) ∧
      ∀ e : Encoder, (Datum.date .years 292277025).write Catalog.schema e =
        .error (.encode (.dateOverflow .years 292277025)) e := by
  intro octets
  have hweeks : InLong (-5 * DateUnit.weeks.factor) := by decide
  have hyears : ¬ InLong (292277025 * DateUnit.years.factor) := by decide
  obtain ⟨written, hwrite, hread, hother⟩ := (date_units Catalog.schema .weeks).2.1 (-5) hweeks
  obtain rfl : written = octets := Encode.emit_injective (hwrite.symm.trans rfl)
  obtain ⟨k, hmonths, hk⟩ := hother .months
  obtain rfl : k = -1 := Int64.toInt_inj.mp hk.quotient
  exact ⟨hweeks, hyears, hwrite, hread, hmonths,
    (date_units Catalog.schema .years).1 292277025 hyears⟩

end Hessian
