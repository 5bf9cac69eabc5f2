import Hessian.Value.Basic

/-!
# Looking into values and changing them

The parts of a value are reached by name (`get?`), by position (`getIndex?`), by key
(`lookup?`), and by reference number (`resolve?`).  A setter changes a value of its own kind
and answers `none` for every other.

Lists, maps and class instances are numbered in the order in which they start: a container
before its parts, a key before its value.  `containers` lists them in that order.
-/

namespace Hessian

namespace Value

/-! ## The single value of a scalar -/

def boolean? : Value → Option Bool
  | .boolean b => some b
  | _ => none

def int? : Value → Option Int32
  | .int n => some n
  | _ => none

def long? : Value → Option Int64
  | .long n => some n
  | _ => none

def double? : Value → Option Double
  | .double d => some d
  | _ => none

def date? : Value → Option Int64
  | .date n => some n
  | _ => none

def ref? : Value → Option UInt32
  | .ref i => some i
  | _ => none

def binary? : Value → Option Bytes
  | .binary b => some b
  | _ => none

/-! ## Parts -/

/-- The type name and the items of a typed list. -/
def typedList? : Value → Option (String × List Value)
  | .list (some type) items => some (type, items)
  | _ => none

/-- The items of an untyped list. -/
def untypedList? : Value → Option (List Value)
  | .list none items => some items
  | _ => none

/-- The type name and the entries of a typed map. -/
def typedMap? : Value → Option (String × Entries)
  | .map (some type) entries => some (type, entries)
  | _ => none

/-- The entries of an untyped map. -/
def untypedMap? : Value → Option Entries
  | .map none entries => some entries
  | _ => none

/-- The definition and the field values of a class instance. -/
def object? : Value → Option (Definition × List Value)
  | .object c fields => some (c, fields)
  | _ => none

/-- The value that a map of either kind holds for a key. -/
def lookup? (v key : Value) : Option Value :=
  match v with
  | .map _ entries => Entries.get? entries key
  | _ => none

/-- The value under a string key of a map, or of the first field of that name of a class
instance. -/
def get? (v : Value) (name : String) : Option Value :=
  match v with
  | .map _ entries => Entries.get? entries (.string name)
  | .object c fields => do fields[← c.fieldNames.idxOf? name]?
  | _ => none

/-- The item at a position of a list. -/
def getIndex? (v : Value) (index : Nat) : Option Value :=
  match v with
  | .list _ items => items[index]?
  | _ => none

/-! ## References -/

mutual

/-- The containers in a value, in the order in which they start. -/
def containers : Value → List Value
  | .list type items => .list type items :: containersOfItems items
  | .map type entries => .map type entries :: containersOfEntries entries
  | .object c fields => .object c fields :: containersOfItems fields
  | _ => []

/-- The containers in items, in the order in which they start. -/
def containersOfItems : List Value → List Value
  | [] => []
  | v :: vs => containers v ++ containersOfItems vs

/-- The containers in entries, those of a key before those of its value. -/
def containersOfEntries : Entries → List Value
  | [] => []
  | (key, value) :: entries => containers key ++ containers value ++ containersOfEntries entries

end

/-- The target of a reference in a value that was the first of its stream. -/
def resolve? (root : Value) (index : UInt32) : Option Value := root.containers[index.toNat]?

/-! ## Changes -/

def setBoolean? (v : Value) (b : Bool) : Option Value :=
  match v with
  | .boolean _ => some (.boolean b)
  | _ => none

def setInt? (v : Value) (n : Int32) : Option Value :=
  match v with
  | .int _ => some (.int n)
  | _ => none

def setLong? (v : Value) (n : Int64) : Option Value :=
  match v with
  | .long _ => some (.long n)
  | _ => none

def setDouble? (v : Value) (d : Double) : Option Value :=
  match v with
  | .double _ => some (.double d)
  | _ => none

def setDate? (v : Value) (n : Int64) : Option Value :=
  match v with
  | .date _ => some (.date n)
  | _ => none

def setRef? (v : Value) (i : UInt32) : Option Value :=
  match v with
  | .ref _ => some (.ref i)
  | _ => none

def setBinary? (v : Value) (b : Bytes) : Option Value :=
  match v with
  | .binary _ => some (.binary b)
  | _ => none

def setString? (v : Value) (s : String) : Option Value :=
  match v with
  | .string _ => some (.string s)
  | _ => none

/-- Gives another type name to a typed list or map. -/
def setTypeName? (v : Value) (type : String) : Option Value :=
  match v with
  | .list (some _) items => some (.list (some type) items)
  | .map (some _) entries => some (.map (some type) entries)
  | _ => none

/-- Puts a value at the end of a list or of the field values of a class instance. -/
def push? (v item : Value) : Option Value :=
  match v with
  | .list type items => some (.list type (items ++ [item]))
  | .object c fields => some (.object c (fields ++ [item]))
  | _ => none

/-- Puts an entry into a map. -/
def insert? (v key item : Value) : Option Value :=
  match v with
  | .map type entries => some (.map type (Entries.insert entries key item))
  | _ => none

end Value

end Hessian
