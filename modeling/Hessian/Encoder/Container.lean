import Hessian.Encoder.Scalar
import Hessian.Encoder.Text

/-!
# Writing containers

The header of a list, map or class instance is written by a step of its own, which counts the
container.  An empty type name stands for an untyped list or map.

A type is written as a string the first time and as its index in the type table afterwards.
A class definition is written in front of the first instance that needs it.
-/

namespace Hessian.Encode

/-- Writes a type. -/
def typeName (name : String) : Encode Unit := do
  match ← typeIndex? name with
  | some index => int (Int32.ofNat index)
  | none =>
    addType name
    string name

/-- Writes a type unless it is empty. -/
def optionalType (name : String) : Encode Unit :=
  if name.isEmpty then pure () else typeName name

/-- Writes strings one after another. -/
def strings : List String → Encode Unit
  | [] => pure ()
  | s :: rest => do
    string s
    strings rest

/-- Writes a class definition unless the session has it, and answers its index. -/
def definition (c : Definition) : Encode Nat := do
  match ← definitionIndex? c with
  | some index => return index
  | none =>
    form .definition []
    string c.typeName
    int (Int32.ofNat c.fieldNames.length)
    strings c.fieldNames
    addDefinition c

/-- The highest index of a definition that fits the lead byte. -/
def objectShortMax : Nat := 15

/-- Writes the index of the definition of a class instance. -/
def objectIndex (index : Nat) : Encode Unit :=
  if index ≤ objectShortMax then
    form (.objectShort index) []
  else do
    form .object []
    int (Int32.ofNat index)

/-- Writes the header of a class instance. -/
def objectBegin (c : Definition) : Encode Unit := do
  let index ← definition c
  objectIndex index
  addContainer

/-- Writes the header of a list that is closed by a terminator. -/
def openListBegin (type : String) : Encode Unit := do
  form (.list (!type.isEmpty) .terminated) []
  optionalType type
  addContainer

/-- The greatest length of a list that fits the lead byte. -/
def listShortMax : Nat := 7

/-- Writes the header of a list of known length. -/
def listBegin (type : String) (length : Nat) : Encode Unit := do
  if 2 ^ 31 ≤ length then
    refuse (.listTooLong length)
  else if length ≤ listShortMax then
    form (.list (!type.isEmpty) (.short length)) []
    optionalType type
    addContainer
  else
    form (.list (!type.isEmpty) .counted) []
    optionalType type
    int (Int32.ofNat length)
    addContainer

/-- Writes the header of a map. -/
def mapBegin (type : String) : Encode Unit := do
  form (.map (!type.isEmpty)) []
  optionalType type
  addContainer

/-- Closes a map or a list that has no length. -/
def terminator : Encode Unit := form .terminator []

end Hessian.Encode
