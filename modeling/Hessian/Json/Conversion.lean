import Hessian.Double.Rounding
import Hessian.Error
import Hessian.Json.Basic

/-!
# JSON values and values

Every JSON value is a value: `Json.toValue`.  Integers become ints when they fit one, longs
when they fit one, and else the nearest double.  Objects become untyped maps with strings for
keys.

The other way, `Value.toJson` gives dates as milliseconds, binary data as an array of
numbers, and class instances as objects.  References, doubles that are not finite and keys
that are no string, integer or boolean have no JSON form.
-/

namespace Hessian

namespace Json

/-- An integer as an int or a long, whichever is shorter. -/
def integerValue (n : Int64) : Value :=
  if -2 ^ 31 ≤ n.toInt ∧ n.toInt < 2 ^ 31 then .int n.toInt32 else .long n

/-- The double nearest to an integer above the longs. -/
def naturalDouble (n : UInt64) : Double := Double.ofInt n.toNat

mutual

/-- The value of a JSON value. -/
def toValue : Json → Value
  | .null => .null
  | .boolean b => .boolean b
  | .integer n => integerValue n
  | .natural n => .double (naturalDouble n)
  | .float d => .double d
  | .string s => .string s
  | .array items => .list none (toValues items)
  | .object members => .map none (toEntries members)

/-- The values of JSON values. -/
def toValues : List Json → List Value
  | [] => []
  | j :: rest => toValue j :: toValues rest

/-- The entries of members. -/
def toEntries : List (String × Json) → Entries
  | [] => []
  | (key, j) :: rest => (.string key, toValue j) :: toEntries rest

end

end Json

namespace Value

/-- The key that a value becomes in a JSON object. -/
def jsonKey : Value → Except DecodeFault String
  | .string s => .ok s
  | .int n => .ok (toString n.toInt)
  | .long n => .ok (toString n.toInt)
  | .boolean b => .ok (toString b)
  | v => .error (.jsonKey v.kind)

mutual

/-- The JSON form of a value. -/
def toJson : Value → Except DecodeFault Json
  | .null => .ok .null
  | .boolean b => .ok (.boolean b)
  | .int n => .ok (.integer n.toInt64)
  | .long n => .ok (.integer n)
  | .date millis => .ok (.integer millis)
  | .double d => if d.isFinite then .ok (.float d) else .error (.jsonDouble d)
  | .binary bytes => .ok (.array (bytes.map fun b => .integer (Int64.ofNat b.toNat)))
  | .string s => .ok (.string s)
  | .ref index => .error (.jsonReference index.toNat)
  | .list _ items => do return .array (← toJsonItems items)
  | .map _ entries => do return .object (← toMembers [] entries)
  | .object c fields => do return .object (← fieldsToMembers [] c.fieldNames fields)

/-- The JSON forms of values. -/
def toJsonItems : List Value → Except DecodeFault (List Json)
  | [] => .ok []
  | v :: rest => do
    let j ← toJson v
    return j :: (← toJsonItems rest)

/-- The members of entries after the members `found`. -/
def toMembers (found : Members) : List (Value × Value) → Except DecodeFault Members
  | [] => .ok found
  | (key, v) :: rest => do
    let k ← key.jsonKey
    let j ← toJson v
    toMembers (found.insert k j) rest

/-- The members of fields after the members `found`.  Names without a value and values without
a name are left out. -/
def fieldsToMembers (found : Members) : List String → List Value → Except DecodeFault Members
  | name :: names, v :: rest => do
    let j ← toJson v
    fieldsToMembers (found.insert name j) names rest
  | _, _ => .ok found

end

end Value

end Hessian
