import Hessian.Decoder.Value
import Hessian.Json.Wire
import Hessian.Schema.Basic

/-!
# Reading data of known shape

`Shape.read` reads what a shape says.  Any form of list will do for a list and any form of map
for a keyed collection.  A record is read by the names of its fields, in whatever order the
class definition of the stream lists them; fields that the record does not know are read and
dropped, and of a field that is listed twice the last one counts.

As for values, `readWith inner` is one layer: it reads the parts one level down by `inner`.
-/

namespace Hessian

namespace Decode

/-- Reads an integer of a range from an int. -/
def intIn (range : IntRange) : Decode Int32 := do
  let n ← int
  if range.least ≤ n.toInt ∧ n.toInt ≤ range.greatest then
    return n
  else
    throw (.decode (.outOfRange n.toInt range.name))

/-- Reads an integer of a range from a long. -/
def longIn (range : LongRange) : Decode Int64 := do
  let n ← long
  if range.least ≤ n.toInt ∧ n.toInt ≤ range.greatest then
    return n
  else
    throw (.decode (.outOfRange n.toInt range.name))

/-- Reads an instant of a clock. -/
def instant (clock : Clock) : Decode Instant := do
  let millis ← date
  match Instant.ofMillis? clock millis with
  | some t => return t
  | none => throw (.decode (.dateOutOfRange millis.toInt))

/-- The name of the field that holds the text of a decimal. -/
def decimalField : String := "value"

/-- Reads the fields of a decimal, of which the first one of the right name is its text. -/
def decimalFields (found : Option String) : List String → Decode (Option String)
  | [] => pure found
  | name :: names =>
    if name = decimalField ∧ found.isNone then do
      let text ← string
      decimalFields (some text) names
    else do
      skip
      decimalFields found names

/-- Reads the text of a decimal: a string, or an instance of a class with a field for it. -/
def decimalText : Decode String := do
  if (Lead.ofByte (← peek)).isString then
    string
  else
    let c ← objectBegin
    match ← decimalFields none c.fieldNames with
    | some text => return text
    | none => throw (.decode (.decimalWithoutValue c.typeName))

/-- Reads a decimal. -/
def decimal : Decode Decimal := do
  let text ← decimalText
  match Decimal.parse text with
  | .ok d => return d
  | .error fault => throw (.decode (.invalidDecimal text fault))

/-- Reads the key of a collection. -/
def key : Mapping → Decode Key
  | .sortedText => Key.text <$> string
  | .sortedLong => Key.long <$> long
  | .text => Key.text <$> string
  | .value => Key.value <$> value

end Decode

namespace Record

variable {ι : Type}

/-- The field that a name on the wire stands for. -/
def field? (r : Record ι) (wireName : String) : Option (Field ι) :=
  r.fields.find? fun f => f.onWire && f.wireName == wireName

/-- Reads the fields that a class definition names, after those in `found`, the last one
first. -/
def readFields (r : Record ι) (read : Shape ι → Decode (Datum ι))
    (found : List (String × Datum ι)) : List String → Decode (List (String × Datum ι))
  | [] => pure found
  | name :: names =>
    match r.field? name with
    | some f => do
      let d ← read f.shape
      readFields r read ((name, d) :: found) names
    | none => do
      Decode.skip
      readFields r read found names

/-- What a field is after the fields on the wire have been read. -/
def settle (r : Record ι) (found : List (String × Datum ι)) (f : Field ι) :
    Except Error (Datum ι) :=
  match f.presence with
  | .skipped d => .ok d
  | .defaulted d => .ok ((found.lookup f.wireName).getD d)
  | .required =>
    match found.lookup f.wireName with
    | some d => .ok d
    | none => .error (.missingField f.wireName r.name)

/-- Reads the fields of a record, each by its shape. -/
def readWith (r : Record ι) (read : Shape ι → Decode (Datum ι)) : Decode (List (Datum ι)) := do
  let c ← Decode.objectBegin
  let found ← Decode.nested (r.readFields read [] c.fieldNames)
  match r.fields.mapM (r.settle found) with
  | .ok fields => return fields
  | .error e => throw e

end Record

namespace Shape

variable {ι : Type} (Γ : Schema ι)

/-- Reads what a shape says, its parts one level down being read by `inner`. -/
def readWith (inner : Shape ι → Decode (Datum ι)) : Shape ι → Decode (Datum ι)
  | .boolean => Datum.boolean <$> Decode.boolean
  | .int range => Datum.int <$> Decode.intIn range
  | .long range => Datum.long <$> Decode.longIn range
  | .double => Datum.double <$> Decode.double
  | .single => (fun d => Datum.single d.toSingle) <$> Decode.double
  | .text => Datum.text <$> Decode.string
  | .bytes => Datum.bytes <$> Decode.binary
  | .option shape => do
    if ← Decode.nextIs Lead.null.toByte then
      Decode.null
      return .absent
    else
      Datum.present <$> readWith inner shape
  | .list item => do
    let (_, items) ← Decode.listOf (inner item)
    return .list items
  | .map mapping item => do
    let (_, pairs) ← Decode.mapOf (Decode.key mapping) (inner item)
    return .map (mapping.ofPairs pairs)
  | .date unit => (fun millis => Datum.date unit (unit.ofMillis millis)) <$> Decode.date
  | .instant clock => Datum.instant clock <$> Decode.instant clock
  | .decimal => Datum.decimal <$> Decode.decimal
  | .value => Datum.value <$> Decode.value
  | .definition => Datum.definition <$> Decode.definition
  | .json => Datum.json <$> Decode.json
  | .record name => Datum.record name <$> (Γ name).readWith inner

/-- Reads what a shape says, with at most `levels` levels of containers below. -/
def readWithin : (levels : Nat) → Shape ι → Decode (Datum ι)
  | 0 => readWith Γ fun _ => Decode.tooDeep
  | levels + 1 => readWith Γ (readWithin levels)

/-- Reads what a shape says. -/
def read (shape : Shape ι) : Decode (Datum ι) := fun s =>
  readWithin Γ (s.maxDepth - s.depth) shape s

end Shape

end Hessian
