import Hessian.Encoder.Value
import Hessian.Json.Wire
import Hessian.Schema.Basic

/-!
# Writing data of known shape

`Datum.write` writes a datum.  Lists become untyped lists of known length, keyed collections
untyped maps, records class instances.  A decimal is written as an instance of a class with
one field for its text.
-/

namespace Hessian

/-- The class as which decimals are written. -/
def Decimal.definition : Definition := ⟨"java.math.BigDecimal", ["value"]⟩

namespace Encode

/-- Writes an integer without sign. -/
def unsigned (n : UInt64) : Encode Unit :=
  if n.toNat < 2 ^ 63 then long (Int64.ofNat n.toNat) else refuse (.unsignedTooLarge n.toNat)

/-- Writes a number of units. -/
def dateIn (unit : DateUnit) (count : Int64) : Encode Unit :=
  match unit.toMillis? count with
  | some millis => date millis
  | none => refuse (.dateOverflow unit count.toInt)

/-- Writes an instant of a clock. -/
def instant (clock : Clock) (t : Instant) : Encode Unit :=
  match t.toMillis? clock with
  | some millis => date millis
  | none => refuse (.instantOverflow t)

/-- Writes a decimal. -/
def decimal (d : Decimal) : Encode Unit := do
  objectBegin Decimal.definition
  string d.render

/-- Writes the key of a collection. -/
def key : Key → Encode Unit
  | .text s => string s
  | .long n => long n
  | .value v => value v

end Encode

namespace Datum

variable {ι : Type} (Γ : Schema ι)

mutual

/-- Writes a datum. -/
def write : Datum ι → Encode Unit
  | .boolean b => Encode.boolean b
  | .int n => Encode.int n
  | .long n => Encode.long n
  | .unsigned n => Encode.unsigned n
  | .double d => Encode.double d
  | .single s => Encode.double s.toDouble
  | .text s => Encode.string s
  | .bytes b => Encode.binary b
  | .absent => Encode.null
  | .present d => write d
  | .list items => do
    Encode.listBegin "" items.length
    Encode.nested (writeItems items)
  | .map entries => do
    Encode.mapBegin ""
    Encode.nested (writeEntries entries)
    Encode.terminator
  | .date unit count => Encode.dateIn unit count
  | .instant clock t => Encode.instant clock t
  | .decimal d => Encode.decimal d
  | .value v => Encode.value v
  | .definition c => do
    let _ ← Encode.definition c
  | .json j => Encode.json j
  | .record name fields => do
    Encode.objectBegin (Γ name).definition
    Encode.nested (writeFields (Γ name).fields fields)

/-- Writes the items of a list one after another. -/
def writeItems : List (Datum ι) → Encode Unit
  | [] => pure ()
  | d :: rest => do
    write d
    writeItems rest

/-- Writes the entries of a collection one after another, each key before its item. -/
def writeEntries : List (Key × Datum ι) → Encode Unit
  | [] => pure ()
  | (k, d) :: rest => do
    Encode.key k
    write d
    writeEntries rest

/-- Writes the fields of a record that are on the wire. -/
def writeFields : List (Field ι) → List (Datum ι) → Encode Unit
  | f :: fields, d :: rest => do
    if f.onWire then write d
    writeFields fields rest
  | _, _ => pure ()

end

end Datum

end Hessian
