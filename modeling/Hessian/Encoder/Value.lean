import Hessian.Encoder.Container

/-!
# Writing values

`Encode.value` writes a value of any kind.  What makes a container unfit to be written is
checked before anything of it is written: a type name that is there and empty, a class
instance that has not one value for every field, and a list that is too long.
-/

namespace Hessian.Encode

mutual

/-- Writes a value. -/
def value : Value → Encode Unit
  | .null => null
  | .boolean b => boolean b
  | .int n => int n
  | .long n => long n
  | .double d => double d
  | .binary bytes => binary bytes
  | .date millis => date millis
  | .string s => string s
  | .ref index => ref index
  | .list type items => do
    if type = some "" then
      refuse .untitledList
    else
      listBegin (type.getD "") items.length
      nested (values items)
  | .map type entries => do
    if type = some "" then
      refuse .untitledMap
    else
      mapBegin (type.getD "")
      nested (pairs entries)
      terminator
  | .object c fields => do
    if fields.length = c.fieldNames.length then
      objectBegin c
      nested (values fields)
    else
      refuse (.fieldCount c.typeName c.fieldNames.length fields.length)

/-- Writes values one after another. -/
def values : List Value → Encode Unit
  | [] => pure ()
  | v :: rest => do
    value v
    values rest

/-- Writes entries one after another, each key before its value. -/
def pairs : List (Value × Value) → Encode Unit
  | [] => pure ()
  | (key, v) :: rest => do
    value key
    value v
    pairs rest

end

end Hessian.Encode
