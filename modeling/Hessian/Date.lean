/-!
# Dates

A date on the wire is a number of milliseconds since the epoch.  A `DateUnit` counts in
something coarser: its dates are multiplied up to milliseconds when they are written, and
divided down, toward zero, when they are read.

An `Instant` is finer than the wire.  The two clocks differ in how they get rid of what lies
below a millisecond: the system clock rounds toward the epoch, the calendar toward the past.
-/

namespace Hessian

/-- Whether an integer fits a signed word of 64 bits. -/
def fitsLong (n : Int) : Bool := -2 ^ 63 ≤ n && n < 2 ^ 63

/-- What a date is counted in. -/
inductive DateUnit where
  | millis | seconds | minutes | hours | days | weeks
  /-- An average Gregorian month, 30.436875 days. -/
  | months
  /-- An average Gregorian year, 365.2425 days. -/
  | years
deriving DecidableEq, Repr

namespace DateUnit

/-- How many milliseconds a unit has. -/
def factor : DateUnit → Int
  | .millis => 1
  | .seconds => 1000
  | .minutes => 60000
  | .hours => 3600000
  | .days => 86400000
  | .weeks => 604800000
  | .months => 2629746000
  | .years => 31556952000

/-- The name of a unit, as messages give it. -/
def name : DateUnit → String
  | .millis => "Millis"
  | .seconds => "Seconds"
  | .minutes => "Minutes"
  | .hours => "Hours"
  | .days => "Days"
  | .weeks => "Weeks"
  | .months => "Months"
  | .years => "Years"

/-- The whole units in a number of milliseconds, counted toward the epoch. -/
def ofMillis (unit : DateUnit) (millis : Int64) : Int64 :=
  Int64.ofInt (millis.toInt.tdiv unit.factor)

/-- The milliseconds of a number of units, if they fit a long. -/
def toMillis? (unit : DateUnit) (count : Int64) : Option Int64 :=
  let millis := count.toInt * unit.factor
  if fitsLong millis then some (Int64.ofInt millis) else none

end DateUnit

/-- A point in time, in nanoseconds since the epoch. -/
structure Instant where
  nanos : Int
deriving DecidableEq, Repr, Inhabited

/-- The clocks that an instant can be read from. -/
inductive Clock where
  | system
  | calendar
deriving DecidableEq, Repr

namespace Instant

/-- How many nanoseconds a millisecond has. -/
def nanosPerMilli : Int := 1000000

/-- How many nanoseconds a second has. -/
def nanosPerSecond : Int := 1000000000

/-- The instant of a date. -/
def ofMillis (millis : Int64) : Instant := ⟨millis.toInt * nanosPerMilli⟩

/-- The whole milliseconds before an instant. -/
def floorMillis (t : Instant) : Int := t.nanos.fdiv nanosPerMilli

/-- The whole milliseconds between an instant and the epoch, with the sign of the instant. -/
def truncatedMillis (t : Instant) : Int := t.nanos.tdiv nanosPerMilli

/-- The date that a clock writes for an instant.  The system clock only has dates whose
size fits a long. -/
def toMillis? (clock : Clock) (t : Instant) : Option Int64 :=
  match clock with
  | .system =>
    if t.truncatedMillis.natAbs < 2 ^ 63 then some (Int64.ofInt t.truncatedMillis) else none
  | .calendar => some (Int64.ofInt t.floorMillis)

/-- The first date that the calendar has. -/
def calendarMin : Int := -8334601228800000

/-- The last date that the calendar has. -/
def calendarMax : Int := 8210266876799999

/-- The instant that a clock has for a date.  The system clock has one for every date. -/
def ofMillis? (clock : Clock) (millis : Int64) : Option Instant :=
  match clock with
  | .system => some (ofMillis millis)
  | .calendar =>
    if calendarMin ≤ millis.toInt ∧ millis.toInt ≤ calendarMax then some (ofMillis millis)
    else none

/-- An instant of the system clock, as messages give it. -/
def describe (t : Instant) : String :=
  "SystemTime \x7b tv_sec: " ++ toString (t.nanos.fdiv nanosPerSecond)
    ++ ", tv_nsec: " ++ toString (t.nanos.fmod nanosPerSecond) ++ " \x7d"

end Instant

end Hessian
