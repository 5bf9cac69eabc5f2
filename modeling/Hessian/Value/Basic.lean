import Hessian.Bytes
import Hessian.Double.Basic
import Hessian.Pairs

/-!
# Values

`Value` holds anything that one stream can carry.  Maps keep the order in which their keys
were first inserted.  A reference names a list, map or class instance by its number in the
order in which these were started in the stream.

Equality of values, `Value.beq`, compares doubles by their bits and maps without regard to
order, and never mixes two kinds.  It is the equality under which the keys of a map are
distinct.
-/

namespace Hessian

/-- The named, ordered field layout that all instances of one class share. -/
structure Definition where
  typeName : String
  fieldNames : List String
deriving DecidableEq, Repr, Inhabited

/-- A value.  Lists and maps may carry a type name. -/
inductive Value where
  | null
  | boolean (b : Bool)
  | int (n : Int32)
  | long (n : Int64)
  | double (d : Double)
  | binary (bytes : Bytes)
  /-- A date in milliseconds since the epoch. -/
  | date (millis : Int64)
  | string (s : String)
  | ref (index : UInt32)
  | list (type : Option String) (items : List Value)
  | map (type : Option String) (entries : List (Value × Value))
  /-- A class instance, with one value for every field name of its definition. -/
  | object (definition : Definition) (fields : List Value)
deriving Inhabited

/-- The entries of a map. -/
abbrev Entries := List (Value × Value)

/-- The kinds of values. -/
inductive Kind where
  | binary | boolean | date | double | integer | long | null | ref | string
  | typedList | untypedList | typedMap | untypedMap | object
deriving DecidableEq, Repr

namespace Kind

/-- The name of a kind, as messages give it. -/
def name : Kind → String
  | .binary => "Binary"
  | .boolean => "Boolean"
  | .date => "Date"
  | .double => "Double"
  | .integer => "Integer"
  | .long => "Long"
  | .null => "Null"
  | .ref => "Ref"
  | .string => "String"
  | .typedList => "TypedList"
  | .untypedList => "UntypedList"
  | .typedMap => "TypedMap"
  | .untypedMap => "UntypedMap"
  | .object => "Class"

end Kind

namespace Value

/-- The kind of a value. -/
def kind : Value → Kind
  | .null => .null
  | .boolean _ => .boolean
  | .int _ => .integer
  | .long _ => .long
  | .double _ => .double
  | .binary _ => .binary
  | .date _ => .date
  | .string _ => .string
  | .ref _ => .ref
  | .list (some _) _ => .typedList
  | .list none _ => .untypedList
  | .map (some _) _ => .typedMap
  | .map none _ => .untypedMap
  | .object .. => .object

mutual

/-- Equality of values: doubles by their bits, maps without regard to order. -/
def beq : Value → Value → Bool
  | .null, .null => true
  | .boolean a, .boolean b => a == b
  | .int a, .int b => a == b
  | .long a, .long b => a == b
  | .double a, .double b => a.bits == b.bits
  | .binary a, .binary b => a == b
  | .date a, .date b => a == b
  | .string a, .string b => a == b
  | .ref a, .ref b => a == b
  | .list s xs, .list t ys => s == t && beqItems xs ys
  | .map s xs, .map t ys => s == t && xs.length == ys.length && within xs ys
  | .object c xs, .object d ys => c == d && beqItems xs ys
  | _, _ => false

/-- Equality of items one by one. -/
def beqItems : List Value → List Value → Bool
  | [], [] => true
  | x :: xs, y :: ys => beq x y && beqItems xs ys
  | _, _ => false

/-- Whether every entry has its key, with an equal value, among other entries. -/
def within : Entries → Entries → Bool
  | [], _ => true
  | (key, value) :: entries, others =>
    (match others.find? fun other => beq key other.1 with
      | some other => beq value other.2
      | none => false) && within entries others

end

instance : BEq Value := ⟨beq⟩

/-- The string of a value that is one. -/
def text? : Value → Option String
  | .string s => some s
  | _ => none

end Value

namespace Entries

/-- The value that entries hold for a key. -/
def get? (entries : Entries) (key : Value) : Option Value :=
  (entries.find? fun entry => key == entry.1).map (·.2)

/-- Entries with a value put in for a key. -/
def insert (entries : Entries) (key value : Value) : Entries :=
  Pairs.insert (· == ·) entries key value

/-- Entries inserted one after another. -/
def ofPairs (pairs : List (Value × Value)) : Entries := Pairs.collect (· == ·) pairs

end Entries

end Hessian
