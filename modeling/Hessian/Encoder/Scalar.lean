import Hessian.Double.Rounding
import Hessian.Encoder.State

/-!
# Writing scalars

One step for each kind of scalar.  A number always takes the shortest form that can hold it,
and binary data is cut into as few chunks as possible.
-/

namespace Hessian.Encode

/-- Whether an integer lies between two others. -/
def between (low high n : Int) : Bool := low ≤ n && n ≤ high

/-- The lowest `width` octets of an integer in two's complement. -/
def lowOctets (width : Nat) (n : Int) : Bytes :=
  Bytes.ofNat width (n % (256 ^ width : Nat)).toNat

/-- A number in the form that carries its part above `tail` octets in the lead byte. -/
def split (lead : Nat → Int → Lead) (tail : Nat) (n : Int) : Encode Unit :=
  form (lead tail (n / (256 ^ tail : Nat))) (lowOctets tail n)

/-- Writes a null. -/
def null : Encode Unit := form .null []

/-- Writes a boolean. -/
def boolean (b : Bool) : Encode Unit := form (.boolean b) []

/-- Writes an int. -/
def int (n : Int32) : Encode Unit :=
  let n := n.toInt
  if between (-0x10) 0x2f n then split .int 0 n
  else if between (-0x800) 0x7ff n then split .int 1 n
  else if between (-0x40000) 0x3ffff n then split .int 2 n
  else form .intWord (lowOctets 4 n)

/-- Writes a long. -/
def long (n : Int64) : Encode Unit :=
  let n := n.toInt
  if between (-0x08) 0x0f n then split .long 0 n
  else if between (-0x800) 0x7ff n then split .long 1 n
  else if between (-0x40000) 0x3ffff n then split .long 2 n
  else if between (-0x80000000) 0x7fffffff n then form .longInt (lowOctets 4 n)
  else form .longWord (lowOctets 8 n)

/-- Writes a double.  Whole numbers of up to two octets are written as such, both zeros as
the same one. -/
def double (d : Double) : Encode Unit :=
  let full := form .doubleWord (Bytes.ofNat 8 d.bits.toNat)
  match d.whole? with
  | some n =>
    if n = 0 then form .doubleZero []
    else if n = 1 then form .doubleOne []
    else if between (-0x80) 0x7f n then form .doubleByte (lowOctets 1 n)
    else if between (-0x8000) 0x7fff n then form .doubleShort (lowOctets 2 n)
    else full
  | none => full

/-- Writes a date in milliseconds.  Whole minutes that fit an int are written as minutes. -/
def date (millis : Int64) : Encode Unit :=
  let n := millis.toInt
  let minutes := n / DateUnit.minutes.factor
  if n % DateUnit.minutes.factor = 0 ∧ between (-0x80000000) 0x7fffffff minutes then
    form .dateMinutes (lowOctets 4 minutes)
  else
    form .dateMillis (lowOctets 8 n)

/-- The most octets of binary data whose number fits the lead byte. -/
def binaryShortMax : Nat := 15

/-- The most octets of binary data whose number fits the lead byte and one octet. -/
def binaryMediumMax : Nat := 1023

/-- How many octets a chunk of binary data has that is not the last one. -/
def binaryChunk : Nat := 1024

/-- Writes `count` chunks that are not final, then the rest as the final one. -/
def binaryChunks : (count : Nat) → Bytes → Encode Unit
  | 0, rest => form (.binary true 2 0) (Bytes.ofNat 2 rest.length ++ rest)
  | count + 1, rest => do
    form (.binary false 2 0) (Bytes.ofNat 2 binaryChunk ++ rest.take binaryChunk)
    binaryChunks count (rest.drop binaryChunk)

/-- Writes binary data. -/
def binary (bytes : Bytes) : Encode Unit :=
  let n := bytes.length
  if n ≤ binaryShortMax then form (.binary true 0 n) bytes
  else if n ≤ binaryMediumMax then form (.binary true 1 (n / 256)) (Bytes.ofNat 1 n ++ bytes)
  else binaryChunks ((n - 1) / binaryChunk) bytes

/-- Writes a reference to a container that has been started. -/
def ref (index : UInt32) : Encode Unit := do
  let written ← started
  if index.toNat < written then
    form .ref []
    int (Int32.ofNat index.toNat)
  else
    refuse (.danglingReference index.toNat written)

end Hessian.Encode
