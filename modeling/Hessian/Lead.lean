import Hessian.Bytes

/-!
# Lead bytes

Every form of the wire grammar starts with one lead byte.  `Lead.ofByte` reads it and
`Lead.toByte` writes it.  Many lead bytes carry the high part of a number themselves:
such a form has a `tail`, the number of octets that follow, and a `high` part, and
stands for `high * 256 ^ tail` plus the tail read as a big-endian number.

| lead | form |
|---|---|
| `00`–`1f`, `30`–`33`, `52`, `53` | string chunks |
| `20`–`2f`, `34`–`37`, `41`, `42` | binary chunks |
| `80`–`d7`, `49` | ints |
| `d8`–`ff`, `38`–`3f`, `59`, `4c` | longs |
| `5b`–`5f`, `44` | doubles |
| `4a`, `4b` | dates |
| `55`–`58`, `70`–`7f` | lists |
| `4d`, `48`, closed by `5a` | maps |
| `43`, then `4f` or `60`–`6f` | class definitions and instances |
| `4e`, `54`, `46`, `51` | null, booleans, references |

The bytes `40`, `45`, `47` and `50` start nothing.
-/

namespace Hessian

/-- How the length of a list is given. -/
inductive ListLength where
  /-- Elements follow up to a terminator. -/
  | terminated
  /-- An int after the header gives the number of elements. -/
  | counted
  /-- The lead byte itself gives the number of elements. -/
  | short (length : Nat)
deriving DecidableEq, Repr

/-- The form that a lead byte announces. -/
inductive Lead where
  | null
  | boolean (b : Bool)
  /-- An int `high * 256 ^ tail` plus `tail` more octets. -/
  | int (tail : Nat) (high : Int)
  /-- An int in four octets. -/
  | intWord
  /-- A long `high * 256 ^ tail` plus `tail` more octets. -/
  | long (tail : Nat) (high : Int)
  /-- A long in four octets. -/
  | longInt
  /-- A long in eight octets. -/
  | longWord
  | doubleZero
  | doubleOne
  /-- A double that is a whole number in one octet. -/
  | doubleByte
  /-- A double that is a whole number in two octets. -/
  | doubleShort
  /-- A double that is a number of thousandths in four octets. -/
  | doubleMilli
  /-- A double in its eight octets. -/
  | doubleWord
  /-- A date in milliseconds, eight octets. -/
  | dateMillis
  /-- A date in minutes, four octets. -/
  | dateMinutes
  /-- A binary chunk of `high * 256 ^ tail` octets plus the number in `tail` octets. -/
  | binary (final : Bool) (tail high : Nat)
  /-- A string chunk, counted in characters as binary chunks are in octets. -/
  | string (final : Bool) (tail high : Nat)
  | list (typed : Bool) (length : ListLength)
  | map (typed : Bool)
  /-- A class definition, in front of an instance. -/
  | definition
  /-- A class instance whose definition is given by an int. -/
  | object
  /-- A class instance whose definition is given by the lead byte. -/
  | objectShort (index : Nat)
  | ref
  /-- The end of a map or of a terminated list. -/
  | terminator
  | unassigned
deriving DecidableEq, Repr

namespace Lead

/-- The single bytes between the short ranges below `60`. -/
def ofLetter : Nat → Lead
  | 0x41 => .binary false 2 0
  | 0x42 => .binary true 2 0
  | 0x43 => .definition
  | 0x44 => .doubleWord
  | 0x46 => .boolean false
  | 0x48 => .map false
  | 0x49 => .intWord
  | 0x4a => .dateMillis
  | 0x4b => .dateMinutes
  | 0x4c => .longWord
  | 0x4d => .map true
  | 0x4e => .null
  | 0x4f => .object
  | 0x51 => .ref
  | 0x52 => .string false 2 0
  | 0x53 => .string true 2 0
  | 0x54 => .boolean true
  | 0x55 => .list true .terminated
  | 0x56 => .list true .counted
  | 0x57 => .list false .terminated
  | 0x58 => .list false .counted
  | 0x59 => .longInt
  | 0x5a => .terminator
  | 0x5b => .doubleZero
  | 0x5c => .doubleOne
  | 0x5d => .doubleByte
  | 0x5e => .doubleShort
  | 0x5f => .doubleMilli
  | _ => .unassigned

/-- The form that a byte starts. -/
def ofByte (b : UInt8) : Lead :=
  let n := b.toNat
  if n < 0x20 then .string true 0 n
  else if n < 0x30 then .binary true 0 (n - 0x20)
  else if n < 0x34 then .string true 1 (n - 0x30)
  else if n < 0x38 then .binary true 1 (n - 0x34)
  else if n < 0x40 then .long 2 (n - 0x3c : Int)
  else if n < 0x60 then ofLetter n
  else if n < 0x70 then .objectShort (n - 0x60)
  else if n < 0x78 then .list true (.short (n - 0x70))
  else if n < 0x80 then .list false (.short (n - 0x78))
  else if n < 0xc0 then .int 0 (n - 0x90 : Int)
  else if n < 0xd0 then .int 1 (n - 0xc8 : Int)
  else if n < 0xd8 then .int 2 (n - 0xd4 : Int)
  else if n < 0xf0 then .long 0 (n - 0xe0 : Int)
  else .long 1 (n - 0xf8 : Int)

/-- The byte that stands for zero in a range of ints. -/
def intBase : (tail : Nat) → Int
  | 0 => 0x90
  | 1 => 0xc8
  | _ => 0xd4

/-- The byte that stands for zero in a range of longs. -/
def longBase : (tail : Nat) → Int
  | 0 => 0xe0
  | 1 => 0xf8
  | _ => 0x3c

/-- The first byte of a range of binary chunks. -/
def binaryBase (final : Bool) : (tail : Nat) → Nat
  | 0 => 0x20
  | 1 => 0x34
  | _ => if final then 0x42 else 0x41

/-- The first byte of a range of string chunks. -/
def stringBase (final : Bool) : (tail : Nat) → Nat
  | 0 => 0x00
  | 1 => 0x30
  | _ => if final then 0x53 else 0x52

/-- The byte that starts a list. -/
def listByte (typed : Bool) : ListLength → Nat
  | .terminated => if typed then 0x55 else 0x57
  | .counted => if typed then 0x56 else 0x58
  | .short n => if typed then 0x70 + n else 0x78 + n

/-- The byte that announces a form. -/
def toByte : Lead → UInt8
  | .null => 0x4e
  | .boolean b => if b then 0x54 else 0x46
  | .int tail high => UInt8.ofNat (intBase tail + high).toNat
  | .intWord => 0x49
  | .long tail high => UInt8.ofNat (longBase tail + high).toNat
  | .longInt => 0x59
  | .longWord => 0x4c
  | .doubleZero => 0x5b
  | .doubleOne => 0x5c
  | .doubleByte => 0x5d
  | .doubleShort => 0x5e
  | .doubleMilli => 0x5f
  | .doubleWord => 0x44
  | .dateMillis => 0x4a
  | .dateMinutes => 0x4b
  | .binary final tail high => UInt8.ofNat (binaryBase final tail + high)
  | .string final tail high => UInt8.ofNat (stringBase final tail + high)
  | .list typed length => UInt8.ofNat (listByte typed length)
  | .map typed => if typed then 0x4d else 0x48
  | .definition => 0x43
  | .object => 0x4f
  | .objectShort index => UInt8.ofNat (0x60 + index)
  | .ref => 0x51
  | .terminator => 0x5a
  | .unassigned => 0x40

/-- Whether a form is the start of a string chunk. -/
def isString : Lead → Bool
  | .string .. => true
  | _ => false

/-- Reading a lead byte loses nothing but which of the bytes that start nothing it was. -/
theorem toByte_ofByte (b : UInt8) (h : ofByte b ≠ .unassigned) : toByte (ofByte b) = b := by
  have all : ∀ n : Fin 256, ofByte (UInt8.ofNat n) ≠ .unassigned →
      toByte (ofByte (UInt8.ofNat n)) = UInt8.ofNat n := by decide +kernel
  have := all ⟨b.toNat, b.toNat_lt⟩
  simp only [UInt8.ofNat_toNat] at this
  exact this h

end Lead

end Hessian
