import Hessian.Decoder.Container

/-!
# Reading values

`Decode.value` reads one value of any kind.  `valueWith inner` is one layer of it: it reads a
value whose parts, one level down, are read by `inner`.  What it does depends on the lead byte
only, `valueOf inner`.  `valueWithin levels` puts `levels` layers on top of each other, and a
session never needs more of them than it allows nesting.
-/

namespace Hessian.Decode

/-- Refuses to go deeper. -/
def tooDeep {α : Type} : Decode α := fun s => .error (.depthLimitExceeded s.maxDepth) s

/-- Reads one value of the form that a lead byte announces, its parts by `inner`. -/
def valueOf (inner : Decode Value) : Lead → Decode Value
  | .null => do
    null
    return .null
  | .boolean _ => Value.boolean <$> boolean
  | .int .. | .intWord => Value.int <$> int
  | .long .. | .longInt | .longWord => Value.long <$> long
  | .doubleZero | .doubleOne | .doubleByte | .doubleShort | .doubleMilli | .doubleWord =>
    Value.double <$> double
  | .dateMillis | .dateMinutes => Value.date <$> date
  | .binary .. => Value.binary <$> binary
  | .string .. => Value.string <$> string
  | .list .. => do
    let (type, items) ← listOf inner
    return .list type items
  | .map _ => do
    let (type, pairs) ← mapOf inner inner
    return .map type (Entries.ofPairs pairs)
  | .definition | .object | .objectShort _ => do
    let c ← objectBegin
    let fields ← nested (times c.fieldNames.length inner)
    return .object c fields
  | .ref => Value.ref <$> ref
  | .terminator | .unassigned => do
    let code ← octet
    unexpected code

/-- Reads one value whose parts are read by `inner`. -/
def valueWith (inner : Decode Value) : Decode Value := do
  let code ← peek
  valueOf inner (Lead.ofByte code)

/-- Reads one value with at most `levels` levels of containers below it. -/
def valueWithin : (levels : Nat) → Decode Value
  | 0 => valueWith tooDeep
  | levels + 1 => valueWith (valueWithin levels)

/-- Reads one value. -/
def value : Decode Value := fun s => valueWithin (s.maxDepth - s.depth) s

/-- Reads one value and drops it. -/
def skip : Decode Unit := do
  let _ ← value

end Hessian.Decode
