import Hessian.Proofs.Grammar.Complete
import Hessian.Proofs.Grammar.Sound
import Hessian.Proofs.RoundTrip.Scalar
import Hessian.Schema.Reading
import Hessian.Schema.Writing

/-!
# Dates as instants of the system clock

The system clock has an instant for every date, and the date of an instant is written from its
distance to the epoch.  The distance has to fit a long before it gets its sign, so the instant of
the first of all dates is not written, although it is read: `Encode.instant_of_date`.
-/

namespace Hessian

open Grammar

/-- Of all longs only the first has no size that is a long. -/
theorem natAbs_toInt_lt_iff {n : Int64} : n.toInt.natAbs < 2 ^ 63 ↔ n ≠ Int64.minValue := by
  have hl := n.le_toInt
  have hu := n.toInt_lt
  rw [Ne, ← Int64.toInt_inj, Int64.toInt_minValue]
  omega

namespace Instant

/-- The instant of a date is that many milliseconds from the epoch. -/
@[simp] theorem truncatedMillis_ofMillis (millis : Int64) :
    (ofMillis millis).truncatedMillis = millis.toInt :=
  Int.mul_tdiv_cancel millis.toInt (by decide)

/-- The instant of a date has that date, if it is not the first of all. -/
theorem toMillis?_ofMillis {millis : Int64} (h : millis ≠ Int64.minValue) :
    (ofMillis millis).toMillis? .system = some millis := by
  rw [toMillis?, truncatedMillis_ofMillis, if_pos (natAbs_toInt_lt_iff.mpr h), Int64.ofInt_toInt]

theorem toMillis?_ofMillis_minValue : (ofMillis Int64.minValue).toMillis? .system = none := by
  rw [toMillis?, truncatedMillis_ofMillis, if_neg fun h => natAbs_toInt_lt_iff.mp h rfl]

end Instant

namespace Decode

/-- Every date is read as an instant of the system clock. -/
theorem reads_instant {octets : Bytes} {millis : Int64} (h : DateForm octets millis) :
    (instant .system).Reads octets (.ofMillis millis) :=
  (reads_date h).answer Instant.ofMillis

end Decode

namespace Encode

/-- Every date is written in one of its forms. -/
theorem exists_dateForm (millis : Int64) :
    ∃ octets, date millis = emit octets ∧ DateForm octets millis := by
  obtain ⟨octets, hwrite, hread⟩ := date_undone millis
  exact ⟨octets, hwrite, hread.form Decode.finds_date⟩

/-- An instant whose date does not fit is refused. -/
theorem instant_eq_refuse {clock : Clock} {t : Instant} (h : t.toMillis? clock = none) :
    instant clock t = refuse (.instantOverflow t) := by
  rw [instant, h]

/-- An instant is written as its date. -/
theorem instant_eq_date {clock : Clock} {t : Instant} {millis : Int64}
    (h : t.toMillis? clock = some millis) : instant clock t = date millis := by
  rw [instant, h]

/-- Whatever octets a date has on the wire, they are read as its instant of the system clock.  This
instant is written as a date that reads back as the same milliseconds, and as the same instant, but
for the first of all dates, whose instant is refused. -/
theorem instant_of_date {octets : Bytes} {millis : Int64} (h : DateForm octets millis) :
    (Decode.instant .system).Reads octets (.ofMillis millis) ∧
      (millis ≠ Int64.minValue → ∃ written, instant .system (.ofMillis millis) = emit written ∧
        DateForm written millis ∧ Decode.date.Reads written millis ∧
        (Decode.instant .system).Reads written (.ofMillis millis)) ∧
      (millis = Int64.minValue →
        instant .system (.ofMillis millis) = refuse (.instantOverflow (.ofMillis millis))) := by
  refine ⟨Decode.reads_instant h, fun hne => ?_, fun hmin => ?_⟩
  · obtain ⟨written, hwrite, hform⟩ := exists_dateForm millis
    refine ⟨written, ?_, hform, Decode.reads_date hform, Decode.reads_instant hform⟩
    exact (instant_eq_date (Instant.toMillis?_ofMillis hne)).trans hwrite
  · subst hmin
    exact instant_eq_refuse Instant.toMillis?_ofMillis_minValue

/-- The second of all dates, in its only form. -/
theorem instant_of_second_date :
    let octets : Bytes := [0x4a, 0x80, 0, 0, 0, 0, 0, 0, 1]
    let millis := Int64.minValue + 1
    (Decode.instant .system).Reads octets (.ofMillis millis) ∧
      ∃ written, instant .system (.ofMillis millis) = emit written ∧
        DateForm written millis ∧ Decode.date.Reads written millis ∧
        (Decode.instant .system).Reads written (.ofMillis millis) := by
  intro octets millis
  have hform : DateForm octets millis :=
    @DateForm.millis 0x4a [0x80, 0, 0, 0, 0, 0, 0, 1] rfl rfl
  have h := instant_of_date hform
  exact ⟨h.1, h.2.1 (by decide)⟩

/-- The first of all dates is read as an instant, and could be written, but the instant is
refused. -/
theorem instant_of_first_date :
    let octets : Bytes := [0x4a, 0x80, 0, 0, 0, 0, 0, 0, 0]
    let t := Instant.ofMillis Int64.minValue
    (Decode.instant .system).Reads octets t ∧ date Int64.minValue = emit octets ∧
      instant .system t = refuse (.instantOverflow t) := by
  intro octets t
  have hform : DateForm octets Int64.minValue :=
    @DateForm.millis 0x4a [0x80, 0, 0, 0, 0, 0, 0, 0] rfl rfl
  have hwrite : date Int64.minValue = emit octets := by
    rw [date, if_neg (by decide)]
    rfl
  exact ⟨Decode.reads_instant hform, hwrite, instant_eq_refuse Instant.toMillis?_ofMillis_minValue⟩

end Encode

end Hessian
