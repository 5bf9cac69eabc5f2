import Hessian.Bytes

/-!
# Wire characters

A string on the wire is a sequence of characters in the shape of UTF-8, told apart by
their lead bytes alone: `leadLength` gives how many octets a character has, and the octets
after the lead are never looked at when text is cut into characters.  So overlong forms,
wrong continuation octets and halves of surrogate pairs are all characters here.

`scan` cuts bytes into characters from the front and says where and why it stopped.
`payload` is the code point that the octets of a character spell.
-/

namespace Hessian.Text

/-- The octets of one character. -/
abbrev Character := Bytes

/-- How many octets the character has that starts with `lead`; `0` when none does. -/
def leadLength (lead : UInt8) : Nat :=
  let n := lead.toNat
  if n < 0x80 then 1
  else if n < 0xc0 then 0
  else if n < 0xe0 then 2
  else if n < 0xf0 then 3
  else if n < 0xf8 then 4
  else 0

/-- Why no further character was cut off. -/
inductive Stop where
  /-- As many characters as were asked for have been found. -/
  | reached
  /-- There are no more octets. -/
  | ended
  /-- The next octet starts no character. -/
  | badLead
  /-- The next character misses some of its octets. -/
  | truncated
deriving DecidableEq, Repr

/-- The characters at the front of a byte string. -/
structure Scan where
  characters : List Character
  /-- How many octets the characters have together. -/
  size : Nat
  rest : Bytes
  stop : Stop
deriving Repr

/-- Goes on with a scan that has found `found`, the last character first, in `size` octets. -/
def scanFrom (found : List Character) (size : Nat) : (limit : Nat) → Bytes → Scan
  | 0, rest => ⟨found.reverse, size, rest, .reached⟩
  | _ + 1, [] => ⟨found.reverse, size, [], .ended⟩
  | limit + 1, lead :: rest =>
    match leadLength lead with
    | 0 => ⟨found.reverse, size, lead :: rest, .badLead⟩
    | more + 1 =>
      if Bytes.hasAtLeast more rest then
        scanFrom ((lead :: rest.take more) :: found) (size + more + 1) limit (rest.drop more)
      else
        ⟨found.reverse, size, lead :: rest, .truncated⟩

/-- The first characters of a byte string, at most `limit` of them. -/
def scan (limit : Nat) (bytes : Bytes) : Scan := scanFrom [] 0 limit bytes

/-- The bits that a continuation octet adds. -/
def continuation (b : UInt8) : Nat := b.toNat % 0x40

/-- The number that the octets of a character spell. -/
def payload : Character → Nat
  | [a] => a.toNat
  | [a, b] => a.toNat % 0x20 * 0x40 + continuation b
  | [a, b, c] => (a.toNat % 0x10 * 0x40 + continuation b) * 0x40 + continuation c
  | [a, b, c, d] =>
    ((a.toNat % 0x08 * 0x40 + continuation b) * 0x40 + continuation c) * 0x40 + continuation d
  | _ => 0

/-- The character of three octets that spells a UTF-16 unit. -/
def ofUnit (unit : Nat) : Character :=
  [UInt8.ofNat (0xe0 + unit / 0x1000), UInt8.ofNat (0x80 + unit / 0x40 % 0x40),
    UInt8.ofNat (0x80 + unit % 0x40)]

end Hessian.Text
