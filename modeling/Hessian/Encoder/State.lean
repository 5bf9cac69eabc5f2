import Hessian.Bytes
import Hessian.Error
import Hessian.Lead

/-!
# The state of an encoding session

An `Encoder` holds the octets written so far and the tables that keep what has been written
once from being written again.  `Encode α` is a step of a session.  A step that fails leaves
behind what it has written and entered: nothing is taken back.

The value table is only a count, since a stream refers to containers by number.
-/

namespace Hessian

/-- An encoding session. -/
structure Encoder where
  output : Array UInt8 := #[]
  /-- The type names written so far, by their index. -/
  types : List String := []
  /-- The class definitions written so far, by their index. -/
  definitions : List Definition := []
  /-- How many lists, maps and class instances have been started. -/
  containers : Nat := 0
  /-- How many containers the output is inside of. -/
  depth : Nat := 0
  /-- How deep the nesting may become. -/
  maxDepth : Nat

/-- A step of an encoding session. -/
abbrev Encode := EStateM Error Encoder

namespace Encoder

/-- The index of a type name that has been written. -/
def typeIndex? (s : Encoder) (name : String) : Option Nat := s.types.idxOf? name

/-- The index of a definition that has been written. -/
def definitionIndex? (s : Encoder) (c : Definition) : Option Nat := s.definitions.idxOf? c

end Encoder

namespace Encode

/-- Writes octets. -/
def emit (bytes : Bytes) : Encode Unit := fun s => .ok () { s with output := s.output ++ bytes }

/-- Writes a lead byte and what follows it. -/
def form (lead : Lead) (tail : Bytes) : Encode Unit := emit (lead.toByte :: tail)

/-- The index of a type name, if it has been written. -/
def typeIndex? (name : String) : Encode (Option Nat) := fun s => .ok (s.typeIndex? name) s

/-- Enters a type name into the type table. -/
def addType (name : String) : Encode Unit := fun s =>
  .ok () { s with types := s.types ++ [name] }

/-- The index of a definition, if it has been written. -/
def definitionIndex? (c : Definition) : Encode (Option Nat) := fun s =>
  .ok (s.definitionIndex? c) s

/-- Enters a definition into the definition table and answers its index. -/
def addDefinition (c : Definition) : Encode Nat := fun s =>
  .ok s.definitions.length { s with definitions := s.definitions ++ [c] }

/-- How many containers have been started. -/
def started : Encode Nat := fun s => .ok s.containers s

/-- Counts a container that has been started. -/
def addContainer : Encode Unit := fun s => .ok () { s with containers := s.containers + 1 }

/-- Refuses a value. -/
def refuse {α : Type} (fault : EncodeFault) : Encode α := throw (.encode fault)

/-- Runs a step one level deeper, if the session allows that. -/
def nested {α : Type} (step : Encode α) : Encode α := fun s =>
  if s.maxDepth ≤ s.depth then
    .error (.depthLimitExceeded s.maxDepth) s
  else
    match step { s with depth := s.depth + 1 } with
    | .ok a t => .ok a { t with depth := t.depth - 1 }
    | .error e t => .error e { t with depth := t.depth - 1 }

end Encode

end Hessian
