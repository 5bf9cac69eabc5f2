import Hessian.Schema.Writing

/-!
# Encoding sessions step by step

A session is a sequence of steps on one `Encoder`.  `Step.run` runs one step; `runAll` runs
many and reports on each.  A failing step ends neither the session nor a group of nested
steps: the next step goes on from the state that it left.

`encode` writes one datum in a session of its own.
-/

namespace Hessian

namespace Encoder

/-- A step of a session. -/
inductive Step (ι : Type) where
  | datum (d : Datum ι)
  | null
  | boolean (b : Bool)
  | int (n : Int32)
  | long (n : Int64)
  | double (d : Double)
  | binary (bytes : Bytes)
  | date (millis : Int64)
  | string (s : String)
  | rawString (bytes : Bytes)
  | ref (index : UInt32)
  | list (items : List Value)
  | map (pairs : List (Value × Value))
  | definition (c : Definition)
  | objectBegin (c : Definition)
  | objectEnd
  | openListBegin (type : String)
  | openListEnd
  | listBegin (type : String) (length : Nat)
  | listEnd
  | mapBegin (type : String)
  | mapEnd
  | typeIndex (name : String)
  | definitionIndex (c : Definition)
  | definitions
  /-- Steps one level deeper. -/
  | nested (steps : List (Step ι))

/-- What is seen of a session after a step. -/
structure Report (α : Type) where
  result : Except Error α
  /-- How many octets there were before the step. -/
  start : Nat
  /-- How many octets there are after the step. -/
  size : Nat
  types : Nat
  definitions : Nat
  containers : Nat

/-- What a step answers. -/
inductive Answer where
  | done
  | index (n : Nat)
  | index? (n : Option Nat)
  | definitions (cs : List Definition)
  | reports (reports : List (Report Answer))

/-- A session on a buffer that holds some octets already. -/
def start (buffer : Bytes) (maxDepth : Nat) : Encoder :=
  { output := buffer.toArray, maxDepth := maxDepth }

/-- The octets of a session. -/
def bytes (s : Encoder) : Bytes := s.output.toList

/-- The report on a step that led from one state to another. -/
def report {α : Type} (before after : Encoder) (result : Except Error α) : Report α where
  result := result
  start := before.output.size
  size := after.output.size
  types := after.types.length
  definitions := after.definitions.length
  containers := after.containers

namespace Step

variable {ι : Type} (Γ : Schema ι)

mutual

/-- Runs a step. -/
def run : Step ι → Encode Answer
  | .datum d => do
    d.write Γ
    return .done
  | .null => do
    Encode.null
    return .done
  | .boolean b => do
    Encode.boolean b
    return .done
  | .int n => do
    Encode.int n
    return .done
  | .long n => do
    Encode.long n
    return .done
  | .double d => do
    Encode.double d
    return .done
  | .binary bytes => do
    Encode.binary bytes
    return .done
  | .date millis => do
    Encode.date millis
    return .done
  | .string s => do
    Encode.string s
    return .done
  | .rawString bytes => do
    Encode.rawString bytes
    return .done
  | .ref index => do
    Encode.ref index
    return .done
  | .list items => do
    Encode.value (.list none items)
    return .done
  | .map pairs => do
    Encode.value (.map none pairs)
    return .done
  | .definition c => Answer.index <$> Encode.definition c
  | .objectBegin c => do
    Encode.objectBegin c
    return .done
  | .objectEnd => return .done
  | .openListBegin type => do
    Encode.openListBegin type
    return .done
  | .openListEnd => do
    Encode.terminator
    return .done
  | .listBegin type length => do
    Encode.listBegin type length
    return .done
  | .listEnd => return .done
  | .mapBegin type => do
    Encode.mapBegin type
    return .done
  | .mapEnd => do
    Encode.terminator
    return .done
  | .typeIndex name => return .index? ((← get).typeIndex? name)
  | .definitionIndex c => return .index? ((← get).definitionIndex? c)
  | .definitions => return .definitions (← get).definitions
  | .nested steps => Answer.reports <$> Encode.nested (runAll steps)

/-- Runs steps one after another, failing ones too. -/
def runAll : List (Step ι) → Encode (List (Report Answer))
  | [] => pure []
  | step :: rest => fun s =>
    match run step s with
    | .ok answer t => (do return report s t (.ok answer) :: (← runAll rest)) t
    | .error e t => (do return report s t (.error e) :: (← runAll rest)) t

end

end Step

end Encoder

/-- The octets of one datum in a session of its own. -/
def encode {ι : Type} (Γ : Schema ι) (d : Datum ι) : Except Error Bytes :=
  match d.write Γ (Encoder.start [] defaultMaxDepth) with
  | .ok _ s => .ok s.bytes
  | .error e _ => .error e

end Hessian
