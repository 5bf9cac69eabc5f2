import Hessian.Json.Basic
import Hessian.Value.Basic
import Hessian.Date
import Hessian.Decimal

/-!
# Shapes, data and records

Where it is known beforehand what a stream holds, its values are read and written by their
`Shape`.  A `Datum` is what comes out of a shape; it says by itself how it is written.

Records are class instances of known fields.  Their names are a type `ι`, and a schema
gives the `Record` of every name, so a record may have fields of its own kind.

## Main definitions

* `Shape ι` : the shapes, over record names in `ι`.
* `Datum ι` : the data of these shapes.
* `Record ι`, `Schema ι` : the fields of a record, and of all records.
* `Mapping.ofPairs` : the entries of a keyed collection from pairs in any order.
-/

namespace Hessian

/-- The ranges of integers that are read from an int. -/
inductive IntRange where
  | int8 | int16 | uint8 | uint16 | int32
deriving DecidableEq, Repr

namespace IntRange

/-- The name of a range, as messages give it. -/
def name : IntRange → String
  | .int8 => "i8"
  | .int16 => "i16"
  | .uint8 => "u8"
  | .uint16 => "u16"
  | .int32 => "i32"

/-- The least integer of a range. -/
def least : IntRange → Int
  | .int8 => -0x80
  | .int16 => -0x8000
  | .uint8 => 0
  | .uint16 => 0
  | .int32 => -0x80000000

/-- The greatest integer of a range. -/
def greatest : IntRange → Int
  | .int8 => 0x7f
  | .int16 => 0x7fff
  | .uint8 => 0xff
  | .uint16 => 0xffff
  | .int32 => 0x7fffffff

end IntRange

/-- The ranges of integers that are read from a long. -/
inductive LongRange where
  | uint32 | int64
deriving DecidableEq, Repr

namespace LongRange

/-- The name of a range, as messages give it. -/
def name : LongRange → String
  | .uint32 => "u32"
  | .int64 => "i64"

/-- The least integer of a range. -/
def least : LongRange → Int
  | .uint32 => 0
  | .int64 => -2 ^ 63

/-- The greatest integer of a range. -/
def greatest : LongRange → Int
  | .uint32 => 0xffffffff
  | .int64 => 2 ^ 63 - 1

end LongRange

/-- The keyed collections: what their keys are, and whether the keys are sorted or stand in
the order in which they were first put in. -/
inductive Mapping where
  | sortedText
  | sortedLong
  | text
  | value
deriving DecidableEq, Repr

/-- The keys of a collection. -/
inductive Key where
  | text (s : String)
  | long (n : Int64)
  | value (v : Value)
deriving Inhabited

namespace Key

/-- Equality of keys. -/
def beq : Key → Key → Bool
  | .text a, .text b => a == b
  | .long a, .long b => a == b
  | .value a, .value b => a == b
  | _, _ => false

instance : BEq Key := ⟨beq⟩

/-- Whether a key comes before another in a sorted collection. -/
def before : Key → Key → Bool
  | .text a, .text b => a < b
  | .long a, .long b => a < b
  | _, _ => false

end Key

/-- What a stream is known to hold. -/
inductive Shape (ι : Type) where
  | boolean
  | int (range : IntRange)
  | long (range : LongRange)
  | double
  | single
  | text
  | bytes
  /-- Null or something. -/
  | option (some : Shape ι)
  | list (item : Shape ι)
  | map (mapping : Mapping) (item : Shape ι)
  | date (unit : DateUnit)
  | instant (clock : Clock)
  | decimal
  /-- Any value. -/
  | value
  /-- A class definition without an instance. -/
  | definition
  | json
  | record (name : ι)
deriving DecidableEq, Repr

/-- Something of a known shape. -/
inductive Datum (ι : Type) where
  | boolean (b : Bool)
  | int (n : Int32)
  | long (n : Int64)
  /-- An integer without sign, which is written as a long if it is one. -/
  | unsigned (n : UInt64)
  | double (d : Double)
  | single (s : Single)
  | text (s : String)
  | bytes (b : Bytes)
  /-- The nothing of an option. -/
  | absent
  /-- The something of an option. -/
  | present (d : Datum ι)
  | list (items : List (Datum ι))
  | map (entries : List (Key × Datum ι))
  | date (unit : DateUnit) (count : Int64)
  | instant (clock : Clock) (t : Instant)
  | decimal (d : Decimal)
  | value (v : Value)
  | definition (c : Definition)
  | json (j : Json)
  /-- A record, with something for each of its fields. -/
  | record (name : ι) (fields : List (Datum ι))
deriving Inhabited

/-- Whether a field is on the wire, and what it is when it does not come from there. -/
inductive Presence (ι : Type) where
  /-- The field has to be on the wire. -/
  | required
  /-- The field may be missing. -/
  | defaulted (default : Datum ι)
  /-- The field is neither written nor read. -/
  | skipped (default : Datum ι)

/-- A field of a record. -/
structure Field (ι : Type) where
  name : String
  /-- The name of the field on the wire. -/
  wireName : String
  shape : Shape ι
  presence : Presence ι

/-- Whether a field is on the wire. -/
def Field.onWire {ι : Type} (f : Field ι) : Bool :=
  match f.presence with
  | .skipped _ => false
  | _ => true

/-- The fields of a record and the class as which it is written. -/
structure Record (ι : Type) where
  name : String
  className : String
  fields : List (Field ι)

/-- The class definition of a record. -/
def Record.definition {ι : Type} (r : Record ι) : Definition :=
  ⟨r.className, (r.fields.filter Field.onWire).map Field.wireName⟩

/-- The records of all names. -/
abbrev Schema (ι : Type) := ι → Record ι

namespace Mapping

variable {α : Type}

/-- Whether the keys of a collection are sorted. -/
def isSorted : Mapping → Bool
  | .sortedText => true
  | .sortedLong => true
  | .text => false
  | .value => false

/-- Puts an entry where it belongs among entries sorted by key. -/
def insertSorted (key : Key) (item : α) : List (Key × α) → List (Key × α)
  | [] => [(key, item)]
  | (k, x) :: rest =>
    if key.before k then (key, item) :: (k, x) :: rest
    else if key == k then (k, item) :: rest
    else (k, x) :: insertSorted key item rest

/-- Puts an entry into a collection.  An equal key gets the new item and keeps its place. -/
def insert (m : Mapping) (key : Key) (item : α) (entries : List (Key × α)) : List (Key × α) :=
  if m.isSorted then insertSorted key item entries else Pairs.insert (· == ·) entries key item

/-- The entries of a collection into which pairs are put one after another. -/
def ofPairs (m : Mapping) (pairs : List (Key × α)) : List (Key × α) :=
  pairs.foldl (fun entries pair => m.insert pair.1 pair.2 entries) []

end Mapping

end Hessian
