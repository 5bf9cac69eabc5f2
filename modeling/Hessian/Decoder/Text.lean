import Hessian.Decoder.State
import Hessian.Text.Unicode

/-!
# Reading strings

A string is a chain of chunks, the last one marked as final.  The header of a chunk counts
its characters.  A chunk whose characters do not all follow is refused as a whole: its header
has been read then and none of its characters.
-/

namespace Hessian.Decode

/-- Reads `count` characters, all of them or none. -/
def characters (count : Nat) : Decode (List Text.Character) := fun s =>
  let found := Text.scan count s.input
  match found.stop with
  | .reached => .ok found.characters { s with input := found.rest, offset := s.offset + found.size }
  | .ended | .truncated => .error (.notEnoughBuffer (s.offset + found.size)) s
  | .badLead => .error (.invalidUtf8 (s.offset + found.size)) s

/-- Reads a chunk of a string, and whether it is final. -/
def textChunk : Decode (Bool × List Text.Character) := do
  let code ← octet
  match Lead.ofByte code with
  | .string isFinal tail high =>
    let low ← word tail
    let part ← characters (high * 256 ^ tail + low)
    return (isFinal, part)
  | _ => unexpected code

/-- Reads the characters of a string: chunks that are not final, then one that is. -/
def text : Decode (List Text.Character) := chunks textChunk

/-- Reads a string as its octets, halves of surrogate pairs included. -/
def rawString : Decode Bytes := List.flatten <$> text

/-- Reads a string. -/
def string : Decode String := Text.ofCharacters <$> text

end Hessian.Decode
