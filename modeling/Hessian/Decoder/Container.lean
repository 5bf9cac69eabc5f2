import Hessian.Decoder.Scalar
import Hessian.Decoder.Text

/-!
# Reading containers

The header of a list, map or class instance is read by a step of its own, which counts the
container as soon as its header is complete.  The parts then follow one level deeper.

A type is a string when it is new and its index in the type table when it is not.  Class
definitions stand in front of the instance that needs them.
-/

namespace Hessian

/-- What the header of a list says. -/
structure ListHeader where
  type : Option String
  /-- The number of items, unless a terminator closes the list. -/
  length : Option Nat
deriving DecidableEq, Repr

namespace Decode

/-- Reads a type. -/
def typeName : Decode String := do
  let start ← offset
  if (Lead.ofByte (← peek)).isString then
    let name ← string
    addType name
    return name
  else
    let index ← int
    lookup .type Decoder.types index.toInt start

/-- Reads a type where the lead byte announces one. -/
def optionalType (typed : Bool) : Decode (Option String) :=
  if typed then some <$> typeName else pure none

/-- Reads the number of items of a list. -/
def listLength : Decode Nat := do
  let start ← offset
  let length := (← int).toInt
  if 0 ≤ length then
    return length.toNat
  else
    throw (.decode (.negativeLength length start))

/-- Reads the header of a list. -/
def listBegin : Decode ListHeader := do
  let code ← octet
  match Lead.ofByte code with
  | .list typed length =>
    let type ← optionalType typed
    let length ← match length with
      | .terminated => pure none
      | .counted => some <$> listLength
      | .short n => pure (some n)
    addContainer
    return ⟨type, length⟩
  | _ => unexpected code

/-- Reads a list whose items are read by `item`. -/
def listOf {α : Type} (item : Decode α) : Decode (Option String × List α) := do
  let header ← listBegin
  let items ← nested <| match header.length with
    | some length => times length item
    | none => untilTerminator item
  return (header.type, items)

/-- Reads the header of a map. -/
def mapBegin : Decode (Option String) := do
  let code ← octet
  match Lead.ofByte code with
  | .map typed =>
    let type ← optionalType typed
    addContainer
    return type
  | _ => unexpected code

/-- Reads a key and its value. -/
def pairOf {α β : Type} (key : Decode α) (value : Decode β) : Decode (α × β) := do
  let k ← key
  let v ← value
  return (k, v)

/-- Reads a map whose keys are read by `key` and whose values by `value`. -/
def mapOf {α β : Type} (key : Decode α) (value : Decode β) :
    Decode (Option String × List (α × β)) := do
  let type ← mapBegin
  let entries ← nested (untilTerminator (pairOf key value))
  return (type, entries)

/-- Reads what follows the lead byte of a class definition. -/
def definitionBody : Decode Definition := do
  let typeName ← string
  let start ← offset
  let count := (← int).toInt
  if count < 0 then
    throw (.unexpectedType Lead.definition.toByte start)
  else
    let fieldNames ← times count.toNat string
    let c : Definition := ⟨typeName, fieldNames⟩
    addDefinition c
    return c

/-- Reads a class definition on its own. -/
def definition : Decode Definition := do
  let code ← octet
  match Lead.ofByte code with
  | .definition => definitionBody
  | _ => unexpected code

/-- Reads a class definition in front of an instance, or the header of the instance itself. -/
def objectRound : Decode (Definition ⊕ Definition) := do
  let start ← offset
  let code ← octet
  match Lead.ofByte code with
  | .definition => Sum.inl <$> definitionBody
  | .object =>
    let index ← int
    let c ← lookup .definition Decoder.definitions index.toInt start
    addContainer
    return .inr c
  | .objectShort index =>
    let c ← lookup .definition Decoder.definitions index start
    addContainer
    return .inr c
  | _ => unexpected code

/-- Reads the header of a class instance, any number of definitions in front of it. -/
def objectBegin : Decode Definition := Prod.snd <$> rounds objectRound

end Decode

end Hessian
