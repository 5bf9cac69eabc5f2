/-!
# Literals and comments in source text

How far a literal or a comment reaches, and what text a string literal stands for.  All of
this goes by single characters; the pieces are put together in `Lexeme`.

## Main definitions

* `startsWord`, `isWordPart` : the characters of words.
* `unescape` : the text of a string literal, from what is between its quotation marks.
* `quotedBody?`, `rawBody?`, `numberTail`, `commentBody?` : a piece of source and its rest.
-/

namespace Hessian.Declaration

/-! ## Characters -/

/-- The characters that only keep tokens apart. -/
def isBlank (c : Char) : Bool :=
  let n := c.toNat
  (0x09 ≤ n && n ≤ 0x0d) || n == 0x20 || n == 0x85 || n == 0x200e || n == 0x200f || n == 0x2028
    || n == 0x2029 || n == 0xfeff

/-- The characters that start a word.  Outside of literals and comments, sources hold no
character beyond ASCII that is neither blank nor part of a word. -/
def startsWord (c : Char) : Bool :=
  c.isAlpha || c == '_' || (0x80 ≤ c.toNat && !isBlank c)

/-- The characters that go on with a word. -/
def isWordPart (c : Char) : Bool := startsWord c || c.isDigit

/-! ## String literals -/

/-- What has been read of an escape in a literal. -/
inductive Escape where
  /-- Nothing: no escape is open. -/
  | none
  /-- Its backslash. -/
  | backslash
  /-- The `x` and perhaps one hexadecimal digit. -/
  | octet (high : Option Nat)
  /-- The `u` and perhaps some hexadecimal digits in braces. -/
  | scalar (n : Nat)
  /-- The end of a line, after which blanks are left out. -/
  | line
deriving DecidableEq, Repr

/-- The value of a hexadecimal digit. -/
def hexDigitValue? (c : Char) : Option Nat :=
  if c.isDigit then some (c.toNat - '0'.toNat)
  else if 'a' ≤ c ∧ c ≤ 'f' then some (c.toNat - 'a'.toNat + 10)
  else if 'A' ≤ c ∧ c ≤ 'F' then some (c.toNat - 'A'.toNat + 10)
  else none

/-- What a backslash and a character stand for together. -/
def escaped (c : Char) : Char :=
  match c with
  | 'n' => '\n'
  | 'r' => '\r'
  | 't' => '\t'
  | '0' => '\x00'
  | c => c

/-- The text that the inside of a literal stands for, with an escape open. -/
def unescapeFrom : Escape → List Char → List Char
  | _, [] => []
  | .none, '\\' :: cs => unescapeFrom .backslash cs
  | .none, '\r' :: '\n' :: cs => '\n' :: unescapeFrom .none cs
  | .none, c :: cs => c :: unescapeFrom .none cs
  | .backslash, 'x' :: cs => unescapeFrom (.octet none) cs
  | .backslash, 'u' :: cs => unescapeFrom (.scalar 0) cs
  | .backslash, '\n' :: cs => unescapeFrom .line cs
  | .backslash, '\r' :: cs => unescapeFrom .line cs
  | .backslash, c :: cs => escaped c :: unescapeFrom .none cs
  | .octet none, c :: cs => unescapeFrom (.octet (some ((hexDigitValue? c).getD 0))) cs
  | .octet (some high), c :: cs =>
    Char.ofNat (high * 16 + (hexDigitValue? c).getD 0) :: unescapeFrom .none cs
  | .scalar n, c :: cs =>
    if c = '}' then Char.ofNat n :: unescapeFrom .none cs
    else match hexDigitValue? c with
      | some d => unescapeFrom (.scalar (n * 16 + d)) cs
      | none => unescapeFrom (.scalar n) cs
  | .line, c :: cs =>
    if c = ' ' ∨ c = '\t' ∨ c = '\n' ∨ c = '\r' then unescapeFrom .line cs
    else if c = '\\' then unescapeFrom .backslash cs
    else c :: unescapeFrom .none cs

/-- The text that the inside of a literal stands for. -/
def unescape (cs : List Char) : List Char := unescapeFrom .none cs

/-- Cuts off the inside of a literal at its closing quotation mark. -/
def quotedBody? (quote : Char) : List Char → Option (List Char × List Char)
  | [] => none
  | '\\' :: c :: cs => (quotedBody? quote cs).map fun (body, rest) => ('\\' :: c :: body, rest)
  | c :: cs =>
    if c = quote then some ([], cs)
    else (quotedBody? quote cs).map fun (body, rest) => (c :: body, rest)

/-- Cuts off the inside of a raw literal at a quotation mark with `hashes` after it. -/
def rawBody? (hashes : List Char) : List Char → Option (List Char × List Char)
  | [] => none
  | c :: cs =>
    if c = '"' ∧ hashes.isPrefixOf cs then some ([], cs.drop hashes.length)
    else (rawBody? hashes cs).map fun (body, rest) => (c :: body, rest)

/-! ## Numbers -/

/-- Whether a point goes on with a number when these characters are after it. -/
def pointBelongs : List Char → Bool
  | [] => true
  | c :: _ => c != '.' && !startsWord c

/-- Cuts off a number after its first digits.  `plain` says that it is decimal and without a
suffix so far, `point` that it has a point, and `exponent` that its exponent starts here. -/
def numberTail (plain point exponent : Bool) : List Char → List Char × List Char
  | [] => ([], [])
  | c :: cs =>
    let more (plain point exponent : Bool) :=
      let (digits, rest) := numberTail plain point exponent cs
      (c :: digits, rest)
    if c.isDigit || c == '_' then more plain point false
    else if plain && (c == 'e' || c == 'E') then more false true true
    else if isWordPart c then more false true false
    else if exponent && (c == '+' || c == '-') then more false true false
    else if plain && !point && c == '.' && pointBelongs cs then more true true false
    else ([], c :: cs)

/-! ## Comments -/

/-- Cuts off a comment at its last `*/`, when `depth` comments are open within it. -/
def commentBody? (depth : Nat) : List Char → Option (List Char × List Char)
  | [] => none
  | '*' :: '/' :: cs =>
    match depth with
    | 0 => some ([], cs)
    | depth + 1 => (commentBody? depth cs).map fun (body, rest) => ('*' :: '/' :: body, rest)
  | '/' :: '*' :: cs =>
    (commentBody? (depth + 1) cs).map fun (body, rest) => ('/' :: '*' :: body, rest)
  | c :: cs => (commentBody? depth cs).map fun (body, rest) => (c :: body, rest)

end Hessian.Declaration
