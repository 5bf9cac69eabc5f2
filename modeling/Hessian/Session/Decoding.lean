import Hessian.Schema.Reading
import Hessian.Session.Encoding

/-!
# Decoding sessions step by step

A session is a sequence of steps on one `Decoder`.  `Step.run` runs one step; `runAll` runs
many and reports on each.  A failing step ends neither the session nor a group of nested
steps: the next step goes on from wherever it left the cursor.

The first error of a step `datum` is recorded by the session and stays recorded.

`decode` reads one datum in a session of its own, and `recode` reads values and writes them
again until the input is used up.
-/

namespace Hessian

namespace Decoder

/-- A step of a session. -/
inductive Step (ι : Type) where
  | datum (shape : Shape ι)
  | null
  | boolean
  | int
  | long
  | double
  | binary
  | date
  | string
  | rawString
  | value
  | skip
  /-- What the session has recorded. -/
  | status
  | nextIsNull
  /-- Some octets at a distance from the cursor. -/
  | window (distance length : Nat)
  | listBegin
  | mapBegin
  | objectBegin
  | objectEnd
  /-- A list of items of one shape. -/
  | listOf (item : Shape ι)
  /-- A map with strings for keys. -/
  | mapOfText
  | definitions
  /-- Steps one level deeper. -/
  | nested (steps : List (Step ι))

/-- What is seen of a session after a step. -/
structure Report (α : Type) where
  result : Except Error α
  offset : Nat
  available : Nat
  types : Nat
  definitions : Nat
  containers : Nat
  recorded : Option (Error × Nat)

/-- What a step answers. -/
inductive Answer (ι : Type) where
  | done
  | datum (d : Datum ι)
  | boolean (b : Bool)
  | int (n : Int32)
  | long (n : Int64)
  | double (d : Double)
  | bytes (b : Bytes)
  | text (s : String)
  | value (v : Value)
  | status (recorded : Option (Error × Nat))
  | window (b : Option Bytes)
  | header (h : ListHeader)
  | type (name : Option String)
  | definition (c : Definition)
  | list (type : Option String) (items : List (Datum ι))
  | map (type : Option String) (entries : List (String × Value))
  | definitions (cs : List Definition)
  | reports (reports : List (Report (Answer ι)))

/-- A session at the start of its input. -/
def start (input : Bytes) (maxDepth : Nat) : Decoder :=
  { input := input, maxDepth := maxDepth }

/-- Records an error, unless one is recorded.  An error without an offset is recorded at the
cursor. -/
def record (s : Decoder) (e : Error) : Decoder :=
  match s.recorded with
  | some _ => s
  | none => { s with recorded := some (e, e.offset?.getD s.offset) }

/-- The octets from `distance` after the cursor on, if there are `length` of them. -/
def window? (s : Decoder) (distance length : Nat) : Option Bytes :=
  if distance + length ≤ s.input.length then some ((s.input.drop distance).take length) else none

/-- The report on a step that led to a state. -/
def report {α : Type} (after : Decoder) (result : Except Error α) : Report α where
  result := result
  offset := after.offset
  available := after.input.length
  types := after.types.length
  definitions := after.definitions.length
  containers := after.containers
  recorded := after.recorded

end Decoder

/-- Runs a step and records its error. -/
def Decode.recording {α : Type} (step : Decode α) : Decode α := fun s =>
  match step s with
  | .ok a t => .ok a t
  | .error e t => .error e (t.record e)

namespace Decoder.Step

variable {ι : Type} (Γ : Schema ι)

mutual

/-- Runs a step. -/
def run : Step ι → Decode (Answer ι)
  | .datum shape => Answer.datum <$> Decode.recording (shape.read Γ)
  | .null => do
    Decode.null
    return .done
  | .boolean => Answer.boolean <$> Decode.boolean
  | .int => Answer.int <$> Decode.int
  | .long => Answer.long <$> Decode.long
  | .double => Answer.double <$> Decode.double
  | .binary => Answer.bytes <$> Decode.binary
  | .date => Answer.long <$> Decode.date
  | .string => Answer.text <$> Decode.string
  | .rawString => Answer.bytes <$> Decode.rawString
  | .value => Answer.value <$> Decode.value
  | .skip => do
    Decode.skip
    return .done
  | .status => return .status (← get).recorded
  | .nextIsNull => Answer.boolean <$> Decode.nextIs Lead.null.toByte
  | .window distance length => return .window ((← get).window? distance length)
  | .listBegin => Answer.header <$> Decode.listBegin
  | .mapBegin => Answer.type <$> Decode.mapBegin
  | .objectBegin => Answer.definition <$> Decode.objectBegin
  | .objectEnd => return .done
  | .listOf item => do
    let (type, items) ← Decode.listOf (item.read Γ)
    return .list type items
  | .mapOfText => do
    let (type, entries) ← Decode.mapOf Decode.string Decode.value
    return .map type entries
  | .definitions => return .definitions (← get).definitions
  | .nested steps => Answer.reports <$> Decode.nested (runAll steps)

/-- Runs steps one after another, failing ones too. -/
def runAll : List (Step ι) → Decode (List (Report (Answer ι)))
  | [] => pure []
  | step :: rest => fun s =>
    match run step s with
    | .ok answer t => (do return report t (.ok answer) :: (← runAll rest)) t
    | .error e t => (do return report t (.error e) :: (← runAll rest)) t

end

end Decoder.Step

/-- One datum read in a session of its own.  Octets that follow it are ignored. -/
def decode {ι : Type} (Γ : Schema ι) (shape : Shape ι) (input : Bytes) : Except Error (Datum ι) :=
  match shape.read Γ (Decoder.start input defaultMaxDepth) with
  | .ok d _ => .ok d
  | .error e _ => .error e

/-- Reads values and writes them again, at most `fuel` of them, after `count` others. -/
def recodeFrom (count : Nat) (source : Decoder) (target : Encoder) :
    (fuel : Nat) → Except Error (Bytes × Nat)
  | 0 => .ok (target.bytes, count)
  | fuel + 1 =>
    if source.input.isEmpty then
      .ok (target.bytes, count)
    else
      match Decode.value source with
      | .error e _ => .error e
      | .ok v source =>
        match Encode.value v target with
        | .error e _ => .error e
        | .ok _ target => recodeFrom (count + 1) source target fuel

/-- The values of a stream written again, and how many there are.  Every value takes at least
one octet, so there are no more of them than octets. -/
def recode (input : Bytes) : Except Error (Bytes × Nat) :=
  recodeFrom 0 (Decoder.start input defaultMaxDepth) (Encoder.start [] defaultMaxDepth)
    input.length

end Hessian
