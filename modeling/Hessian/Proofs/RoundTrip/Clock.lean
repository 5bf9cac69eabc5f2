import Hessian.Proofs.RoundTrip.Instant
import Mathlib.Tactic.ByContra

/-!
# One instant on two clocks

An instant is finer than a date, and the two clocks lose what lies below a millisecond in different
ways: the system clock measures how far an instant is from the epoch and drops the rest of that
distance, the calendar takes the last date that is not behind the instant.  Both dates are the same
after the epoch, and before it where there is nothing to lose.  Everywhere else before the epoch the
system clock is one millisecond ahead, so that one instant is written in two ways:
`Encode.instant_on_both_clocks`.
-/

namespace Hessian

open Grammar

namespace Instant

/-- The calendar has the instant.  The system clock has it then as well. -/
def InCalendar (t : Instant) : Prop := calendarMin ≤ t.floorMillis ∧ t.floorMillis ≤ calendarMax

instance (t : Instant) : Decidable t.InCalendar :=
  inferInstanceAs (Decidable (calendarMin ≤ t.floorMillis ∧ t.floorMillis ≤ calendarMax))

/-- The instant has the same date whether it is rounded toward the epoch or toward the past. -/
def Steady (t : Instant) : Prop := 0 ≤ t.nanos ∨ nanosPerMilli ∣ t.nanos

instance (t : Instant) : Decidable t.Steady :=
  inferInstanceAs (Decidable (0 ≤ t.nanos ∨ nanosPerMilli ∣ t.nanos))

variable {t : Instant}

theorem floorMillis_eq (t : Instant) : t.floorMillis = t.nanos / nanosPerMilli :=
  Int.fdiv_eq_ediv_of_nonneg _ (by decide)

/-- The instant is in the millisecond that starts at its date in the calendar. -/
theorem floorMillis_bounds (t : Instant) :
    t.floorMillis * nanosPerMilli ≤ t.nanos ∧
      t.nanos < (t.floorMillis + 1) * nanosPerMilli := by
  rw [floorMillis_eq, nanosPerMilli]
  omega

/-- The clocks agree or are one millisecond apart. -/
theorem truncatedMillis_eq (t : Instant) :
    t.truncatedMillis = t.floorMillis + if t.Steady then 0 else 1 := by
  rw [truncatedMillis, floorMillis_eq, Int.tdiv_eq_ediv]
  rfl

/-- An instant of the calendar has a date in the calendar. -/
theorem toMillis?_calendar (h : t.InCalendar) :
    ∃ millis, t.toMillis? .calendar = some millis ∧ millis.toInt = t.floorMillis := by
  obtain ⟨hmin, hmax⟩ := h
  rw [calendarMin] at hmin
  rw [calendarMax] at hmax
  exact ⟨_, rfl, Int64.toInt_ofInt_of_le (by omega) (by omega)⟩

/-- An instant of the calendar has a date of the system clock. -/
theorem toMillis?_system (h : t.InCalendar) :
    ∃ millis, t.toMillis? .system = some millis ∧ millis.toInt = t.truncatedMillis := by
  obtain ⟨hmin, hmax⟩ := h
  rw [calendarMin] at hmin
  rw [calendarMax] at hmax
  have heq := t.truncatedMillis_eq
  have hsize : t.truncatedMillis.natAbs < 2 ^ 63 := by
    split at heq <;> omega
  exact ⟨_, if_pos hsize, Int64.toInt_ofInt_of_le (by omega) (by omega)⟩

end Instant

/-- The same octets are not read in two ways. -/
theorem Decode.Reads.unique {α : Type} {step : Decode α} {bytes : Bytes} {a b : α}
    (h : Reads step bytes a) (h' : Reads step bytes b) : a = b := by
  let s : Decoder := { input := bytes, maxDepth := 0 }
  have hs : s.input = bytes ++ [] := (List.append_nil _).symm
  exact (EStateM.Result.ok.inj ((h s [] hs).symm.trans (h' s [] hs))).1

namespace Encode

open Instant

/-- An instant that both clocks have is written by both.  The calendar writes the millisecond that
the instant is in.  The system clock writes the same octets exactly if the instant is not before the
epoch or is a whole number of milliseconds, and else those of the next millisecond. -/
theorem instant_on_both_clocks {t : Instant} (h : t.InCalendar) :
    ∃ (system calendar : Bytes) (millis : Int64),
      instant .system t = emit system ∧ instant .calendar t = emit calendar ∧
      DateForm calendar millis ∧ millis.toInt * nanosPerMilli ≤ t.nanos ∧
      t.nanos < (millis.toInt + 1) * nanosPerMilli ∧
      (system = calendar ↔ 0 ≤ t.nanos ∨ nanosPerMilli ∣ t.nanos) ∧
      (system ≠ calendar →
        ∃ next : Int64, DateForm system next ∧ next.toInt = millis.toInt + 1) := by
  obtain ⟨n, hn, htruncated⟩ := toMillis?_system h
  obtain ⟨m, hm, hfloor⟩ := toMillis?_calendar h
  obtain ⟨system, hsystem, hform⟩ := exists_dateForm n
  obtain ⟨calendar, hcalendar, hform'⟩ := exists_dateForm m
  obtain ⟨hle, hlt⟩ := t.floorMillis_bounds
  rw [← hfloor] at hle hlt
  have hdates : n.toInt = m.toInt + if t.Steady then 0 else 1 := by
    rw [htruncated, hfloor, truncatedMillis_eq]
  have hagree : system = calendar ↔ t.Steady := by
    constructor
    · rintro rfl
      obtain rfl : n = m := (Decode.reads_date hform).unique (Decode.reads_date hform')
      by_contra hs
      rw [if_neg hs] at hdates
      omega
    · intro hs
      rw [if_pos hs, Int.add_zero] at hdates
      obtain rfl := Int64.toInt_inj.mp hdates
      exact emit_injective (hsystem.symm.trans hcalendar)
  refine ⟨system, calendar, m, (instant_eq_date hn).trans hsystem,
    (instant_eq_date hm).trans hcalendar, hform', hle, hlt, hagree, fun hne => ⟨n, hform, ?_⟩⟩
  rw [hdates, if_neg (mt hagree.mpr hne)]

/-- A minute before the epoch both clocks write that minute.  A millisecond and a half before it,
they write the first and the second millisecond before the epoch. -/
theorem instant_on_both_clocks_before_epoch :
    let minute : Instant := ⟨-60000000000⟩
    let between : Instant := ⟨-1500000⟩
    minute.InCalendar ∧ between.InCalendar ∧
      instant .system minute = emit [0x4b, 0xff, 0xff, 0xff, 0xff] ∧
      instant .system minute = instant .calendar minute ∧
      ∃ system calendar, instant .system between = emit system ∧
        instant .calendar between = emit calendar ∧ DateForm system (-1) ∧
        DateForm calendar (-2) := by
  intro minute between
  have hminute : minute.InCalendar := by decide
  have hbetween : between.InCalendar := by decide
  refine ⟨hminute, hbetween, ?_, ?_, ?_⟩
  · have hmillis : minute.toMillis? .system = some (-60000) := rfl
    rw [instant_eq_date hmillis, date, if_pos (by decide)]
    rfl
  · obtain ⟨system, calendar, -, hs, hc, -, -, -, hagree, -⟩ := instant_on_both_clocks hminute
    rw [hs, hc, hagree.mpr (by decide)]
  · obtain ⟨system, calendar, m, hs, hc, hform, hle, hlt, hagree, hnext⟩ :=
      instant_on_both_clocks hbetween
    obtain ⟨n, hform', hn⟩ := hnext (mt hagree.mp (by decide))
    have hm : m.toInt = -2 := by
      change m.toInt * 1000000 ≤ -1500000 at hle
      change -1500000 < (m.toInt + 1) * 1000000 at hlt
      omega
    obtain rfl : m = -2 := Int64.toInt_inj.mp hm
    obtain rfl : n = -1 := Int64.toInt_inj.mp hn
    exact ⟨system, calendar, hs, hc, hform', hform⟩

/-- The last nanosecond before the epoch.  The system clock writes the epoch itself, and the
calendar the millisecond before it. -/
theorem instant_of_last_nanosecond :
    let t : Instant := ⟨-1⟩
    t.InCalendar ∧ instant .system t = emit [0x4b, 0, 0, 0, 0] ∧
      instant .calendar t = emit [0x4a, 0xff, 0xff, 0xff, 0xff, 0xff, 0xff, 0xff, 0xff] ∧
      instant .system t ≠ instant .calendar t := by
  intro t
  have hepoch : t.toMillis? .system = some 0 := rfl
  have hsystem : instant .system t = emit [0x4b, 0, 0, 0, 0] := by
    rw [instant_eq_date hepoch, date, if_pos (by decide)]
    rfl
  have hbefore : t.toMillis? .calendar = some (-1) := rfl
  have hcalendar : instant .calendar t =
      emit [0x4a, 0xff, 0xff, 0xff, 0xff, 0xff, 0xff, 0xff, 0xff] := by
    rw [instant_eq_date hbefore, date, if_neg (by decide)]
    rfl
  refine ⟨by decide, hsystem, hcalendar, fun h => ?_⟩
  cases emit_injective (hsystem.symm.trans (h.trans hcalendar))

end Encode

end Hessian
