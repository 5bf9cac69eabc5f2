/-!
# Positional decimal text

A `Positional` is a number `digits * 10 ^ place`.  `render` writes it with all its digits
and without an exponent: a place at or above the units gives an integer, a place below them
gives exactly that many digits after the point.
-/

namespace Hessian

/-- The number `digits * 10 ^ place`. -/
structure Positional where
  digits : Nat
  place : Int
deriving DecidableEq, Repr

namespace Positional

/-- A string of `n` zeros. -/
def zeros (n : Nat) : String := String.ofList (List.replicate n '0')

/-- A number at or above the units. -/
def renderWhole (digits place : Nat) : String :=
  if digits = 0 then "0" else toString digits ++ zeros place

/-- A number with `places` digits after the point. -/
def renderFraction (digits places : Nat) : String :=
  let fraction := toString (digits % 10 ^ places)
  toString (digits / 10 ^ places) ++ "." ++ zeros (places - fraction.length) ++ fraction

/-- Positional text. -/
def render (d : Positional) : String :=
  if 0 ≤ d.place then renderWhole d.digits d.place.toNat
  else renderFraction d.digits (-d.place).toNat

end Positional

end Hessian
