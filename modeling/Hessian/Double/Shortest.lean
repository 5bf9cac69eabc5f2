import Hessian.Double.Basic
import Hessian.Positional

/-!
# The shortest decimal text of a double

A finite double is written with the fewest decimal digits that still read back as it.  The
reals that read back as a double form an interval around it, closed when the significand is
even.  Going down through the powers of ten, the first grid that has a point in the interval
gives the digits; of two points the nearer one is taken, and the upper one when both are equally
near.

The text is always positional: no exponent is ever written, and no fraction when there is
none.
-/

namespace Hessian

/-- An interval around a value, all three measured in the same unit `1 / scale`. -/
structure ReadingInterval where
  low : Nat
  value : Nat
  high : Nat
  scale : Nat
  closed : Bool
deriving Repr

namespace ReadingInterval

/-- Whether the number `c` in the given unit lies in the interval. -/
def contains (i : ReadingInterval) (c : Nat) : Bool :=
  if i.closed then i.low ≤ c && c ≤ i.high else i.low < c && c < i.high

/-- The interval in a unit that is `10 ^ n` times finer. -/
def refine (i : ReadingInterval) (n : Nat) : ReadingInterval :=
  let k := 10 ^ n
  { i with low := i.low * k, value := i.value * k, high := i.high * k }

/-- The multiple of `step` in the interval that is nearest to the value, as a factor; of two
that are equally near, the upper. -/
def gridPoint? (i : ReadingInterval) (step : Nat) : Option Nat :=
  let below := i.value / step
  let above := below + 1
  match i.contains (below * step), i.contains (above * step) with
  | true, true =>
    if i.value - below * step < above * step - i.value then some below else some above
  | true, false => some below
  | false, true => some above
  | false, false => none

/-- The first grid of powers of ten, from `10 ^ n` units down to one unit, that has a point
in the interval.  At one unit the value itself is on the grid. -/
def search (i : ReadingInterval) (scale : Nat) : (n : Nat) → Nat × Nat
  | 0 => ((i.gridPoint? scale).getD (i.value / scale), 0)
  | n + 1 =>
    match i.gridPoint? (scale * 10 ^ (n + 1)) with
    | some digits => (digits, n + 1)
    | none => search i scale n

end ReadingInterval

namespace Double

/-- The reals that read back as a positive finite double, in quarters of its last place.
Below a power of two the doubles lie twice as dense. -/
def readingInterval (d : Double) : ReadingInterval :=
  let m := d.significand
  let narrow := m = 2 ^ 52 ∧ -1074 < d.exponent
  let up := (d.exponent - 2).toNat
  let down := (2 - d.exponent).toNat
  let unit := 2 ^ up
  { low := (4 * m - if narrow then 1 else 2) * unit
    value := 4 * m * unit
    high := (4 * m + 2) * unit
    scale := 2 ^ down
    closed := m % 2 = 0 }

/-- The fewest digits that read back as a finite double of positive size. -/
def shortest (d : Double) : Positional :=
  -- A double with a negative exponent `e` has no digit below the place `e`.
  let places := (-d.exponent).toNat
  let fine := d.readingInterval.refine places
  -- The leading digit is at most this many places above the last one.
  let top := (fine.high / fine.scale + 1).log2 * 31 / 100 + 2
  let (digits, n) := fine.search fine.scale top
  ⟨digits, (n : Int) - places⟩

/-- The text of a double. -/
def render (d : Double) : String :=
  let sign := if d.negative then "-" else ""
  if d.isNaN then "NaN"
  else if !d.isFinite then sign ++ "inf"
  else if d.significand = 0 then sign ++ "0"
  else sign ++ d.shortest.render

end Double

end Hessian
