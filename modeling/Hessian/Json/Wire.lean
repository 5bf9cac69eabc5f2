import Hessian.Decoder.Value
import Hessian.Encoder.Value
import Hessian.Json.Conversion

/-!
# JSON values on the wire

A JSON value is written without going through the value that it is: numbers in the form of
their own kind, arrays as untyped lists, objects as untyped maps.  It is read as any value,
which then has to have a JSON form.
-/

namespace Hessian

namespace Encode

/-- Writes an integer as an int or a long, whichever is shorter. -/
def integer (n : Int64) : Encode Unit :=
  if -2 ^ 31 ≤ n.toInt ∧ n.toInt < 2 ^ 31 then int n.toInt32 else long n

mutual

/-- Writes a JSON value. -/
def json : Json → Encode Unit
  | .null => null
  | .boolean b => boolean b
  | .integer n => integer n
  | .natural n => double (Json.naturalDouble n)
  | .float d => double d
  | .string s => string s
  | .array items => do
    listBegin "" items.length
    nested (jsons items)
  | .object members => do
    mapBegin ""
    nested (jsonMembers members)
    terminator

/-- Writes JSON values one after another. -/
def jsons : List Json → Encode Unit
  | [] => pure ()
  | j :: rest => do
    json j
    jsons rest

/-- Writes members one after another, each key before its value. -/
def jsonMembers : List (String × Json) → Encode Unit
  | [] => pure ()
  | (key, j) :: rest => do
    string key
    json j
    jsonMembers rest

end

end Encode

namespace Decode

/-- Reads a JSON value. -/
def json : Decode Json := do
  match (← value).toJson with
  | .ok j => return j
  | .error fault => throw (.decode fault)

end Decode

end Hessian
