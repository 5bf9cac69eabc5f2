import Hessian.Text.Character

/-!
# Unicode text and wire characters

A string of Unicode scalar values is written in UTF-8, except that a character beyond the
basic plane is written as its two UTF-16 surrogates, each in the three octets of its own
number: `surrogatePairs`.

The other way, characters that are strictly UTF-8 are the string they encode, `strict?`.
All others go through UTF-16: every character gives its units, pairs are joined, and what
is left unpaired becomes the replacement character: `lossy`.
-/

namespace Hessian.Text

/-- What stands for a character that cannot be decoded. -/
def replacement : Char := '\uFFFD'

/-- The UTF-8 form of a string. -/
def utf8 (s : String) : Bytes := s.toList.flatMap String.utf8EncodeChar

/-! ## UTF-16 -/

/-- Whether a unit is the first half of a surrogate pair. -/
def isHighSurrogate (unit : Nat) : Bool := 0xd800 ≤ unit && unit < 0xdc00

/-- Whether a unit is the second half of a surrogate pair. -/
def isLowSurrogate (unit : Nat) : Bool := 0xdc00 ≤ unit && unit < 0xe000

/-- The first half of the surrogate pair of a code point beyond the basic plane. -/
def highSurrogate (point : Nat) : Nat := 0xd800 + (point - 0x10000) / 0x400

/-- The second half of the surrogate pair of a code point beyond the basic plane. -/
def lowSurrogate (point : Nat) : Nat := 0xdc00 + (point - 0x10000) % 0x400

/-- The character of a unit on its own. -/
def ofLoneUnit (unit : Nat) : Char :=
  if h : unit.isValidChar then Char.ofNatAux unit h else replacement

/-- The character of a surrogate pair. -/
def ofPair (high low : Nat) : Char :=
  Char.ofNat (0x10000 + (high - 0xd800) * 0x400 + (low - 0xdc00))

/-- Goes on with decoding after `found`, the last character first. -/
def ofUnitsFrom (found : List Char) : List Nat → List Char
  | [] => found.reverse
  | [unit] => (ofLoneUnit unit :: found).reverse
  | unit :: next :: rest =>
    if isHighSurrogate unit && isLowSurrogate next then
      ofUnitsFrom (ofPair unit next :: found) rest
    else
      ofUnitsFrom (ofLoneUnit unit :: found) (next :: rest)

/-- The characters of UTF-16 units, unpaired surrogates becoming replacement characters. -/
def ofUnits (units : List Nat) : List Char := ofUnitsFrom [] units

/-- The UTF-16 units of a wire character.  A number that is no code point counts as a
replacement character. -/
def unitsOf (c : Character) : List Nat :=
  let point := payload c
  if point ≤ 0xffff then [point]
  else if point ≤ 0x10ffff then [highSurrogate point, lowSurrogate point]
  else [replacement.toNat]

/-! ## Reading wire characters -/

/-- The Unicode character of a wire character that is the UTF-8 form of one. -/
def strictChar? (c : Character) : Option Char :=
  if h : (payload c).isValidChar then
    let char := Char.ofNatAux (payload c) h
    if String.utf8EncodeChar char = c then some char else none
  else
    none

/-- Goes on with strict decoding after `found`, the last character first. -/
def strictFrom? (found : List Char) : List Character → Option (List Char)
  | [] => some found.reverse
  | c :: rest =>
    match strictChar? c with
    | some char => strictFrom? (char :: found) rest
    | none => none

/-- The string whose UTF-8 form consists of the given characters, if there is one. -/
def strict? (characters : List Character) : Option String :=
  (strictFrom? [] characters).map String.ofList

/-- The string of wire characters that are read by way of UTF-16. -/
def lossy (characters : List Character) : String :=
  String.ofList (ofUnits (characters.flatMap unitsOf))

/-- The string that wire characters stand for. -/
def ofCharacters (characters : List Character) : String :=
  (strict? characters).getD (lossy characters)

/-! ## Writing wire characters -/

/-- Goes on after `found`, the last character first, and `position` octets. -/
def surrogatePairsFrom (found : List Character) (position : Nat) :
    List Character → Except Nat (List Character)
  | [] => .ok found.reverse
  | c :: rest =>
    if c.length = 4 then
      let point := payload c
      if 0x10000 ≤ point && point ≤ 0x10ffff then
        surrogatePairsFrom (ofUnit (lowSurrogate point) :: ofUnit (highSurrogate point) :: found)
          (position + 4) rest
      else
        .error position
    else
      surrogatePairsFrom (c :: found) (position + c.length) rest

/-- Every character of four octets as two surrogates of three octets each.  A character of
four octets that spells no code point beyond the basic plane is an error at its position. -/
def surrogatePairs (characters : List Character) : Except Nat (List Character) :=
  surrogatePairsFrom [] 0 characters

end Hessian.Text
