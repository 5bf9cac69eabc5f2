import Hessian.Decoder.State
import Hessian.Double.Rounding

/-!
# Reading scalars

One step for each kind of scalar.  A step takes every form that the grammar has for its kind
and refuses the lead byte of any other.
-/

namespace Hessian.Decode

/-- Reads a null. -/
def null : Decode Unit := do
  let code ← octet
  match Lead.ofByte code with
  | .null => return ()
  | _ => unexpected code

/-- Reads a boolean. -/
def boolean : Decode Bool := do
  let code ← octet
  match Lead.ofByte code with
  | .boolean b => return b
  | _ => unexpected code

/-- Reads an int. -/
def int : Decode Int32 := do
  let code ← octet
  match Lead.ofByte code with
  | .int tail high =>
    let low ← word tail
    return Int32.ofInt (high * 256 ^ tail + low)
  | .intWord => return Int32.ofNat (← word 4)
  | _ => unexpected code

/-- Reads a long. -/
def long : Decode Int64 := do
  let code ← octet
  match Lead.ofByte code with
  | .long tail high =>
    let low ← word tail
    return Int64.ofInt (high * 256 ^ tail + low)
  | .longInt => return (Int32.ofNat (← word 4)).toInt64
  | .longWord => return Int64.ofNat (← word 8)
  | _ => unexpected code

/-- Reads a double. -/
def double : Decode Double := do
  let code ← octet
  match Lead.ofByte code with
  | .doubleZero => return .zero
  | .doubleOne => return .one
  | .doubleByte => return .ofInt (Int8.ofNat (← word 1)).toInt
  | .doubleShort => return .ofInt (Int16.ofNat (← word 2)).toInt
  | .doubleMilli => return .ofThousandths (Int32.ofNat (← word 4)).toInt
  | .doubleWord => return ⟨UInt64.ofNat (← word 8)⟩
  | _ => unexpected code

/-- Reads a date, in milliseconds. -/
def date : Decode Int64 := do
  let code ← octet
  match Lead.ofByte code with
  | .dateMillis => return Int64.ofNat (← word 8)
  | .dateMinutes => return Int64.ofInt ((Int32.ofNat (← word 4)).toInt * DateUnit.minutes.factor)
  | _ => unexpected code

/-- Reads a chunk of binary data, and whether it is final. -/
def binaryChunk : Decode (Bool × Bytes) := do
  let code ← octet
  match Lead.ofByte code with
  | .binary isFinal tail high =>
    let low ← word tail
    let part ← octets (high * 256 ^ tail + low)
    return (isFinal, part)
  | _ => unexpected code

/-- Reads binary data: chunks that are not final, then one that is. -/
def binary : Decode Bytes := chunks binaryChunk

/-- Reads a reference to a container that has been started. -/
def ref : Decode UInt32 := do
  let start ← offset
  let code ← octet
  match Lead.ofByte code with
  | .ref =>
    let index := (← int).toInt
    let started ← started
    if 0 ≤ index ∧ index < started then
      return UInt32.ofNat index.toNat
    else
      throw (.invalidReference .value index start)
  | _ => unexpected code

end Hessian.Decode
