import Hessian.Bytes
import Hessian.Error
import Hessian.Lead

/-!
# The state of a decoding session

A `Decoder` holds what is left of the input, three tables that only grow, and how deep the
nesting is at the moment.  `Decode α` is a step of a session.  A step that fails still leaves
a state behind: what it had read stays read, and what it had entered into a table stays
there.  The session can go on from it.

The value table is only a count, since a stream refers to containers by number.
-/

namespace Hessian

/-- A decoding session. -/
structure Decoder where
  /-- The octets that have not been read. -/
  input : Bytes
  /-- How many octets have been read. -/
  offset : Nat := 0
  /-- The type names read so far, by their index. -/
  types : List String := []
  /-- The class definitions read so far, by their index. -/
  definitions : List Definition := []
  /-- How many lists, maps and class instances have been started. -/
  containers : Nat := 0
  /-- How many containers the cursor is inside of. -/
  depth : Nat := 0
  /-- How deep the nesting may become. -/
  maxDepth : Nat
  /-- The first error that the session has recorded, and where. -/
  recorded : Option (Error × Nat) := none

/-- The nesting depth that a session allows unless told otherwise. -/
def defaultMaxDepth : Nat := 128

/-- A step of a decoding session. -/
abbrev Decode := EStateM Error Decoder

namespace Decode

/-! ## The cursor -/

/-- The offset of the cursor. -/
def offset : Decode Nat := fun s => .ok s.offset s

/-- The next octet, left where it is. -/
def peek : Decode UInt8 := fun s =>
  match s.input with
  | [] => .error (.notEnoughBuffer s.offset) s
  | b :: _ => .ok b s

/-- The next octet. -/
def octet : Decode UInt8 := fun s =>
  match s.input with
  | [] => .error (.notEnoughBuffer s.offset) s
  | b :: rest => .ok b { s with input := rest, offset := s.offset + 1 }

/-- The next `n` octets, all of them or none. -/
def octets (n : Nat) : Decode Bytes := fun s =>
  if Bytes.hasAtLeast n s.input then
    .ok (s.input.take n) { s with input := s.input.drop n, offset := s.offset + n }
  else
    .error (.notEnoughBuffer s.offset) s

/-- The big-endian number in the next `width` octets. -/
def word (width : Nat) : Decode Nat := Bytes.toNat <$> octets width

/-- Refuses the octet that has just been read. -/
def unexpected {α : Type} (code : UInt8) : Decode α := fun s =>
  .error (.unexpectedType code (s.offset - 1)) s

/-- Whether the next octet is the given one.  At the end of the input it is not. -/
def nextIs (b : UInt8) : Decode Bool := fun s => .ok (s.input.head? == some b) s

/-! ## Tables -/

/-- Enters a type name into the type table. -/
def addType (name : String) : Decode Unit := fun s =>
  .ok () { s with types := s.types ++ [name] }

/-- Enters a definition into the definition table. -/
def addDefinition (c : Definition) : Decode Unit := fun s =>
  .ok () { s with definitions := s.definitions ++ [c] }

/-- Counts a container that has been started. -/
def addContainer : Decode Unit := fun s => .ok () { s with containers := s.containers + 1 }

/-- How many containers have been started. -/
def started : Decode Nat := fun s => .ok s.containers s

/-- The entry of a table at an index that stands at an offset of the input. -/
def lookup {α : Type} (kind : RefKind) (table : Decoder → List α) (index : Int) (offset : Nat) :
    Decode α := fun s =>
  match (if 0 ≤ index then (table s)[index.toNat]? else none) with
  | some entry => .ok entry s
  | none => .error (.invalidReference kind index offset) s

/-! ## Nesting and repetition -/

/-- Runs a step one level deeper, if the session allows that. -/
def nested {α : Type} (step : Decode α) : Decode α := fun s =>
  if s.maxDepth ≤ s.depth then
    .error (.depthLimitExceeded s.maxDepth) s
  else
    match step { s with depth := s.depth + 1 } with
    | .ok a t => .ok a { t with depth := t.depth - 1 }
    | .error e t => .error e { t with depth := t.depth - 1 }

/-- Goes on with `count` runs of a step after the results `found`, the last one first. -/
def repeatFrom {α : Type} (step : Decode α) (found : List α) : (count : Nat) → Decode (List α)
  | 0 => pure found.reverse
  | count + 1 => do
    let a ← step
    repeatFrom step (a :: found) count

/-- The results of `count` runs of a step. -/
def times {α : Type} (count : Nat) (step : Decode α) : Decode (List α) :=
  repeatFrom step [] count

/-- Reads the terminator, if it is next. -/
def terminator : Decode Bool := do
  if Lead.ofByte (← peek) = .terminator then
    let _ ← octet
    return true
  else
    return false

/-- Goes on with rounds after the results `found`, the last one first, at most `fuel` of them.
A round either gives a result and lets another one follow, or it is the last one. -/
def roundsFrom {α β : Type} (round : Decode (α ⊕ β)) (found : List α) :
    (fuel : Nat) → Decode (List α × β)
  | 0 => do
    let code ← octet
    unexpected code
  | fuel + 1 => do
    match ← round with
    | .inl a => roundsFrom round (a :: found) fuel
    | .inr b => return (found.reverse, b)

/-- The results of rounds up to the last one, and what that one gives.  A round that lets another
one follow takes at least one octet, so there are no more of these than octets left, and after as
many of them none is left to look at. -/
def rounds {α β : Type} (round : Decode (α ⊕ β)) : Decode (List α × β) := fun s =>
  roundsFrom round [] s.input.length s

/-- A round that is the last one if the terminator is next, and a run of a step if not. -/
def unlessTerminator {α : Type} (step : Decode α) : Decode (α ⊕ Unit) := do
  if ← terminator then
    return .inr ()
  else
    let a ← step
    return .inl a

/-- The results of the runs of a step up to the terminator. -/
def untilTerminator {α : Type} (step : Decode α) : Decode (List α) :=
  Prod.fst <$> rounds (unlessTerminator step)

/-- A chunk that is the last one if it is final, and lets another one follow if not. -/
def chunkRound {α : Type} (chunk : Decode (Bool × List α)) : Decode (List α ⊕ List α) := do
  let (isFinal, part) ← chunk
  return if isFinal then .inr part else .inl part

/-- The parts of a chain of chunks, joined. -/
def chunks {α : Type} (chunk : Decode (Bool × List α)) : Decode (List α) := do
  let (parts, last) ← rounds (chunkRound chunk)
  return parts.flatten ++ last

end Decode

end Hessian
