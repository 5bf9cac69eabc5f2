import Hessian.Value.Basic

/-!
# What the hash of a value is made of

`Value.hashItems` lists what is fed to a hash function for a value: its kind, and for a
scalar the value itself.  Of a container only the type name and the number of elements go
in, so unequal containers of one shape collide and equality decides between them.
-/

namespace Hessian

/-- One item that is fed to a hash function. -/
inductive HashItem where
  | kind (k : Kind)
  | boolean (b : Bool)
  | int (n : Int32)
  | long (n : Int64)
  | bits (n : UInt64)
  | bytes (b : Bytes)
  | text (s : String)
  | index (n : UInt32)
  | size (n : Nat)
deriving DecidableEq

namespace Value

/-- The items that are fed to a hash function after the kind of a value. -/
def hashBody : Value → List HashItem
  | .null => []
  | .boolean b => [.boolean b]
  | .int n => [.int n]
  | .long n => [.long n]
  | .double d => [.bits d.bits]
  | .binary b => [.bytes b]
  | .date n => [.long n]
  | .string s => [.text s]
  | .ref i => [.index i]
  | .list (some type) items => [.text type, .size items.length]
  | .list none items => [.size items.length]
  | .map (some type) entries => [.text type, .size entries.length]
  | .map none entries => [.size entries.length]
  | .object c fields => [.text c.typeName, .size c.fieldNames.length, .size fields.length]

/-- The items that are fed to a hash function for a value. -/
def hashItems (v : Value) : List HashItem := .kind v.kind :: v.hashBody

end Value

end Hessian
