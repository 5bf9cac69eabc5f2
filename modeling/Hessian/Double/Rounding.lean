import Hessian.Double.Basic

/-!
# Rounding to the nearest double

`FloatFormat.round` gives the bits of the number of a format that is nearest to
`m * 2 ^ e`, ties going to the even significand, and infinity beyond the largest finite
number.  All arithmetic is on integers, so the result is exact.

From it come the double of an integer, the double of a number of thousandths, and the
single of a double.  A single is always a double, so the other way nothing is rounded.
-/

namespace Hessian

/-- The integer nearest to `n / d`, the even one of two that are equally near. -/
def nearestEven (n d : Nat) : Nat :=
  let q := n / d
  let r := n % d
  if 2 * r < d then q else if d < 2 * r then q + 1 else q + q % 2

namespace FloatFormat

variable (f : FloatFormat)

/-- The integer nearest to `m * 2 ^ e`. -/
def nearestScaled (m : Nat) (e : Int) : Nat :=
  if 0 ≤ e then m * 2 ^ e.toNat else nearestEven m (2 ^ (-e).toNat)

/-- The bits of the number of the format that is nearest to `m * 2 ^ e`.

The leading bit of the result stands for `2 ^ top`, and its last place for
`2 ^ (top - fractionBits)`.  A significand that is rounded up to the next power of two
carries into the exponent field, which is what the addition does. -/
def round (m : Nat) (e : Int) : Nat :=
  if m = 0 then 0 else
  let top := max (m.log2 + e) (1 - (f.bias : Int))
  let places := nearestScaled m (e - (top - f.fractionBits))
  min ((top + f.bias - 1).toNat * 2 ^ f.fractionBits + places) f.infinity

/-- The bits of the number nearest to `± m * 2 ^ e`. -/
def roundSigned (negative : Bool) (m : Nat) (e : Int) : Nat :=
  f.round m e + if negative then f.signBit else 0

end FloatFormat

namespace Double

/-- The double nearest to an integer. -/
def ofInt (n : Int) : Double :=
  ⟨UInt64.ofNat (FloatFormat.binary64.roundSigned (n < 0) n.natAbs 0)⟩

/-- The double nearest to one thousandth. -/
def thousandth : Double := ⟨0x3f50624dd2f1a9fc⟩

/-- The double nearest to `n` times the double `thousandth`. -/
def ofThousandths (n : Int) : Double :=
  ⟨UInt64.ofNat (FloatFormat.binary64.roundSigned (n < 0)
    (thousandth.significand * n.natAbs) thousandth.exponent)⟩

/-- The single nearest to a double.  A NaN stays a NaN and keeps the high part of its
payload. -/
def toSingle (d : Double) : Single :=
  let sign := if d.negative then FloatFormat.binary32.signBit else 0
  let fraction := FloatFormat.binary64.fraction d.bits.toNat
  if d.isNaN then
    ⟨UInt32.ofNat (sign + FloatFormat.binary32.infinity + 2 ^ 22 + fraction / 2 ^ 29 % 2 ^ 22)⟩
  else if d.isFinite then
    ⟨UInt32.ofNat (FloatFormat.binary32.roundSigned d.negative d.significand d.exponent)⟩
  else
    ⟨UInt32.ofNat (sign + FloatFormat.binary32.infinity)⟩

end Double

namespace Single

/-- Whether the single is a NaN. -/
def isNaN (s : Single) : Bool := FloatFormat.binary32.isNaN s.bits.toNat

/-- The double that a single is.  A NaN becomes a quiet one with the same payload. -/
def toDouble (s : Single) : Double :=
  let bits := s.bits.toNat
  let negative := FloatFormat.binary32.negative bits
  let sign := if negative then FloatFormat.binary64.signBit else 0
  let fraction := FloatFormat.binary32.fraction bits
  if s.isNaN then
    ⟨UInt64.ofNat (sign + FloatFormat.binary64.infinity + 2 ^ 51 + fraction % 2 ^ 22 * 2 ^ 29)⟩
  else if FloatFormat.binary32.isFinite bits then
    ⟨UInt64.ofNat (FloatFormat.binary64.roundSigned negative
      (FloatFormat.binary32.significand bits) (FloatFormat.binary32.exponent bits))⟩
  else
    ⟨UInt64.ofNat (sign + FloatFormat.binary64.infinity)⟩

end Single

end Hessian
