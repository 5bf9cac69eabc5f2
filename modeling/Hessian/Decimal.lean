import Hessian.Positional

/-!
# Decimals

A `Decimal` is `mantissa / 10 ^ scale` with a mantissa below `2 ^ 96` in size and at most 28
digits after the point.  The scale is part of the text: `1.50` stays apart from `1.5`.

`Decimal.parse` reads text from left to right: a sign, then digits with at most one point
among them, where underscores after the first digit are skipped.  A digit that no longer
fits before the point is an error; one that no longer fits after the point ends the number,
which is then rounded by that digit.
-/

namespace Hessian

/-- The decimal number `mantissa / 10 ^ scale`. -/
structure Decimal where
  mantissa : Int
  scale : Nat
deriving DecidableEq, Repr, Inhabited

namespace Decimal

/-- Why text is no decimal. -/
inductive Fault where
  | empty
  | unknownCharacter
  | twoPoints
  | leadingUnderscore
  | noDigits
  | tooManyDigits
  | roundedOver
deriving DecidableEq, Repr

/-- A reason in words. -/
def Fault.message : Fault → String
  | .empty => "Invalid decimal: empty"
  | .unknownCharacter => "Invalid decimal: unknown character"
  | .twoPoints => "Invalid decimal: two decimal points"
  | .leadingUnderscore => "Invalid decimal: must start lead with a number"
  | .noDigits => "Invalid decimal: no digits found"
  | .tooManyDigits => "Invalid decimal: overflow from too many digits"
  | .roundedOver => "Invalid decimal: overflow from mantissa after rounding"

/-- The bound of mantissas. -/
def mantissaBound : Nat := 2 ^ 96

/-- The most digits that can stand after the point. -/
def maxScale : Nat := 28

/-- What has been read of a number. -/
structure Progress where
  negative : Bool
  /-- Whether the point has been read. -/
  point : Bool := false
  /-- Whether a digit has been read. -/
  started : Bool := false
  mantissa : Nat := 0
  scale : Nat := 0

/-- What is wrong with a character that is no part of a number at its place. -/
def faultOf : Char → Fault
  | '.' => .twoPoints
  | '_' => .leadingUnderscore
  | _ => .unknownCharacter

/-- The value of a decimal digit. -/
def digit? (c : Char) : Option Nat :=
  if '0' ≤ c ∧ c ≤ '9' then some (c.toNat - '0'.toNat) else none

/-- The number at the end of the text. -/
def Progress.finish (p : Progress) : Except Fault Decimal :=
  if p.started then
    .ok ⟨if p.negative then -(p.mantissa : Int) else p.mantissa, p.scale⟩
  else
    .error .noDigits

/-- The number when `next` no longer fits, rounded by that digit.  A mantissa that is rounded
over its bound gives up its last digit. -/
def Progress.round (p : Progress) (next : Char) : Except Fault Decimal :=
  let digit : Except Fault Nat :=
    match digit? next with
    | some d => .ok d
    | none => if next = '_' ∨ next = '.' then .ok 0 else .error (faultOf next)
  digit.bind fun d =>
    let mantissa := if 5 ≤ d then p.mantissa + 1 else p.mantissa
    if mantissa < mantissaBound then
      Progress.finish { p with mantissa := mantissa }
    else if p.scale = 0 then
      .error .roundedOver
    else
      Progress.finish { p with mantissa := (mantissa + 4) / 10, scale := p.scale - 1 }

/-- Goes on reading. -/
def Progress.read (p : Progress) : List Char → Except Fault Decimal
  | [] => p.finish
  | c :: rest =>
    if p.point ∧ maxScale ≤ p.scale then
      p.round c
    else
      match digit? c with
      | some d =>
        let mantissa := p.mantissa * 10 + d
        if mantissa < mantissaBound then
          Progress.read
            { p with
              started := true
              mantissa := mantissa
              scale := if p.point then p.scale + 1 else 0 }
            rest
        else if p.point then
          p.round c
        else
          .error .tooManyDigits
      | none =>
        if c = '.' ∧ !p.point then Progress.read { p with point := true } rest
        else if c = '_' ∧ p.started then Progress.read p rest
        else .error (faultOf c)

/-- The decimal that a text spells. -/
def parse (s : String) : Except Fault Decimal :=
  match s.toList with
  | [] => .error .empty
  | '-' :: rest => Progress.read { negative := true } rest
  | '+' :: rest => Progress.read { negative := false } rest
  | text => Progress.read { negative := false } text

/-- The text of a decimal, with all the digits of its scale. -/
def render (d : Decimal) : String :=
  (if d.mantissa < 0 then "-" else "") ++ Positional.render ⟨d.mantissa.natAbs, -(d.scale : Int)⟩

end Decimal

end Hessian
