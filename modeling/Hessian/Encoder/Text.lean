import Hessian.Encoder.State
import Hessian.Text.Unicode

/-!
# Writing strings

A string is cut into chunks of characters; all but the last have `textChunk` characters.  The
header of a chunk counts its characters, which are UTF-16 units once every character of four
octets has been written as a surrogate pair.

The octets to write may also be given as they are.  They are only cut into characters, so the
octets after a lead byte can be anything.  Where no further character can be cut off, the
error names the position.  The full chunks before it have been written by then, unless
characters of four octets had to be looked for first.
-/

namespace Hessian.Encode

/-- How many characters a chunk of a string has that is not the last one. -/
def textChunk : Nat := 32768

/-- The most characters whose number fits the lead byte. -/
def textShortMax : Nat := 31

/-- The most characters whose number fits the lead byte and one octet. -/
def textMediumMax : Nat := 1023

/-- Writes the last chunk of a string. -/
def finalText (characters : List Text.Character) : Encode Unit :=
  let n := characters.length
  if n ≤ textShortMax then form (.string true 0 n) characters.flatten
  else if n ≤ textMediumMax then
    form (.string true 1 (n / 256)) (Bytes.ofNat 1 n ++ characters.flatten)
  else form (.string true 2 0) (Bytes.ofNat 2 n ++ characters.flatten)

/-- Writes `count` chunks that are not final and answers the characters after them. -/
def textChunks : (count : Nat) → List Text.Character → Encode (List Text.Character)
  | 0, rest => pure rest
  | count + 1, rest => do
    form (.string false 2 0) (Bytes.ofNat 2 textChunk ++ (rest.take textChunk).flatten)
    textChunks count (rest.drop textChunk)

/-- Writes the characters of a string. -/
def text (characters : List Text.Character) : Encode Unit := do
  let rest ← textChunks ((characters.length - 1) / textChunk) characters
  finalText rest

/-- Whether an octet can be the lead of a character of four octets. -/
def mayBeAstral (b : UInt8) : Bool := 0xf0 ≤ b

/-- Writes the octets of a string. -/
def rawString (bytes : Bytes) : Encode Unit := do
  let found := Text.scan bytes.length bytes
  if bytes.any mayBeAstral then
    match Text.surrogatePairs found.characters with
    | .error position => throw (.invalidUtf8 position)
    | .ok characters =>
      if found.rest.isEmpty then text characters else throw (.invalidUtf8 found.size)
  else if found.rest.isEmpty then
    text found.characters
  else
    let _ ← textChunks (found.characters.length / textChunk) found.characters
    throw (.invalidUtf8 found.size)

/-- Writes a string. -/
def string (s : String) : Encode Unit := rawString (Text.utf8 s)

end Hessian.Encode
