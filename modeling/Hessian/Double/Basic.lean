/-!
# Doubles as bit patterns

A double is kept as the 64 bits of its binary64 form, so that a NaN keeps its payload and
the two zeros stay apart.  What has to be known of its value is computed exactly: a finite
double is `± significand * 2 ^ exponent`, and `Double.whole?` is the integer it equals,
if it equals one.

Singles are kept the same way, and `FloatFormat` holds what the two formats differ in.
-/

namespace Hessian

/-- A binary interchange format: one sign bit, an exponent field and a fraction field. -/
structure FloatFormat where
  exponentBits : Nat
  fractionBits : Nat
deriving DecidableEq, Repr

namespace FloatFormat

/-- The format of doubles. -/
def binary64 : FloatFormat := ⟨11, 52⟩

/-- The format of singles. -/
def binary32 : FloatFormat := ⟨8, 23⟩

variable (f : FloatFormat)

/-- The exponent field of infinities and NaNs, every bit of it set. -/
def fieldMax : Nat := 2 ^ f.exponentBits - 1

/-- What the exponent field of a number of unit size holds. -/
def bias : Nat := 2 ^ (f.exponentBits - 1) - 1

/-- The bits of positive infinity. -/
def infinity : Nat := f.fieldMax * 2 ^ f.fractionBits

/-- The sign bit on its own. -/
def signBit : Nat := 2 ^ (f.exponentBits + f.fractionBits)

/-- Whether the sign bit is set. -/
def negative (bits : Nat) : Bool := f.signBit ≤ bits

/-- The exponent field. -/
def field (bits : Nat) : Nat := bits / 2 ^ f.fractionBits % 2 ^ f.exponentBits

/-- The fraction field. -/
def fraction (bits : Nat) : Nat := bits % 2 ^ f.fractionBits

/-- Whether the pattern is a number and not an infinity or a NaN. -/
def isFinite (bits : Nat) : Bool := f.field bits < f.fieldMax

/-- Whether the pattern is a NaN. -/
def isNaN (bits : Nat) : Bool := f.field bits == f.fieldMax && f.fraction bits != 0

/-- The integer `m` for which a finite pattern stands for `± m * 2 ^ exponent`. -/
def significand (bits : Nat) : Nat :=
  if f.field bits = 0 then f.fraction bits else f.fraction bits + 2 ^ f.fractionBits

/-- The power of two that goes with the significand. -/
def exponent (bits : Nat) : Int :=
  (max (f.field bits) 1 : Nat) - (f.bias + f.fractionBits : Nat)

end FloatFormat

/-- A double, by the 64 bits of its binary64 form. -/
structure Double where
  bits : UInt64
deriving DecidableEq, Repr, Inhabited

/-- A single, by the 32 bits of its binary32 form. -/
structure Single where
  bits : UInt32
deriving DecidableEq, Repr, Inhabited

namespace Double

/-- Whether the sign bit is set, which it also is for negative zero. -/
def negative (d : Double) : Bool := FloatFormat.binary64.negative d.bits.toNat

/-- Whether the double is a number and not an infinity or a NaN. -/
def isFinite (d : Double) : Bool := FloatFormat.binary64.isFinite d.bits.toNat

/-- Whether the double is a NaN. -/
def isNaN (d : Double) : Bool := FloatFormat.binary64.isNaN d.bits.toNat

/-- The integer `m` for which a finite double is `± m * 2 ^ exponent`. -/
def significand (d : Double) : Nat := FloatFormat.binary64.significand d.bits.toNat

/-- The power of two that goes with the significand. -/
def exponent (d : Double) : Int := FloatFormat.binary64.exponent d.bits.toNat

/-- The size of a finite double as an integer, if it is a whole number. -/
def wholeSize? (d : Double) : Option Nat :=
  if 0 ≤ d.exponent then
    some (d.significand * 2 ^ d.exponent.toNat)
  else if d.significand % 2 ^ (-d.exponent).toNat = 0 then
    some (d.significand / 2 ^ (-d.exponent).toNat)
  else
    none

/-- The integer that a double equals, if it equals one.  Both zeros equal `0`. -/
def whole? (d : Double) : Option Int :=
  if d.isFinite then
    d.wholeSize?.map fun n : Nat => if d.negative then -(n : Int) else n
  else
    none

/-- Positive zero. -/
def zero : Double := ⟨0⟩

/-- Negative zero. -/
def negZero : Double := ⟨0x8000000000000000⟩

/-- The double `1`. -/
def one : Double := ⟨0x3ff0000000000000⟩

@[simp] theorem whole?_zero : zero.whole? = some 0 := by decide +kernel

@[simp] theorem whole?_negZero : negZero.whole? = some 0 := by decide +kernel

@[simp] theorem whole?_one : one.whole? = some 1 := by decide +kernel

end Double

end Hessian
