import Hessian.Proofs.Decoder.Reader
import Hessian.Proofs.Decoder.Yields
import Hessian.Proofs.Trace.Basic

/-!
# Reading what a stream says

`Decode.trace` reads a value as `Decode.value` does, step for step, and keeps all that the stream
says of it: it notes the number of a container as soon as its header has counted it, and it does not
insert the pairs of a map.  So a value is what is made of its trace, `Decode.value_eq_map_trace`.
-/

namespace Hessian

namespace Decode

/-- The number of the container that has been started last. -/
def latest : Decode Nat := (· - 1) <$> started

/-- Reads the trace of a value that is no container. -/
def scalar {α : Type} (step : Decode α) (f : α → Value) (plain : ∀ a, (f a).containers = []) :
    Decode Trace :=
  (fun a => .scalar (f a) (plain a)) <$> step

/-- Reads the trace of a value of the form that a lead byte announces. -/
def traceOf (inner : Decode Trace) : Lead → Decode Trace
  | .null => scalar null (fun _ => .null) fun _ => rfl
  | .boolean _ => scalar boolean .boolean fun _ => rfl
  | .int .. | .intWord => scalar int .int fun _ => rfl
  | .long .. | .longInt | .longWord => scalar long .long fun _ => rfl
  | .doubleZero | .doubleOne | .doubleByte | .doubleShort | .doubleMilli | .doubleWord =>
    scalar double .double fun _ => rfl
  | .dateMillis | .dateMinutes => scalar date .date fun _ => rfl
  | .binary .. => scalar binary .binary fun _ => rfl
  | .string .. => scalar string .string fun _ => rfl
  | .list .. => do
    let header ← listBegin
    let number ← latest
    let items ← nested <| match header.length with
      | some length => times length inner
      | none => untilTerminator inner
    return .list number header.type items
  | .map _ => do
    let type ← mapBegin
    let number ← latest
    let pairs ← nested (untilTerminator (pairOf inner inner))
    return .map number type pairs
  | .definition | .object | .objectShort _ => do
    let c ← objectBegin
    let number ← latest
    let fields ← nested (times c.fieldNames.length inner)
    return .object number c fields
  | .ref => scalar ref .ref fun _ => rfl
  | .terminator | .unassigned => do
    let code ← octet
    unexpected code

/-- Reads the trace of one value whose parts are read by `inner`. -/
def traceWith (inner : Decode Trace) : Decode Trace := do
  let code ← peek
  traceOf inner (Lead.ofByte code)

/-- Reads the trace of one value with at most `levels` levels of containers below it. -/
def traceWithin : (levels : Nat) → Decode Trace
  | 0 => traceWith tooDeep
  | levels + 1 => traceWith (traceWithin levels)

/-- Reads the trace of one value. -/
def trace : Decode Trace := fun s => traceWithin (s.maxDepth - s.depth) s

/-! ## Values are made of traces -/

/-- To note a number changes nothing. -/
theorem latest_bind {α : Type} (x : Decode α) : (latest >>= fun _ => x) = x := rfl

theorem map_scalar {α : Type} (step : Decode α) (f : α → Value)
    (plain : ∀ a, (f a).containers = []) : Trace.value <$> scalar step f plain = f <$> step := by
  rw [scalar, Functor.map_map]
  rfl

theorem pairOf_map {α β : Type} (f : α → β) (step : Decode α) :
    pairOf (f <$> step) (f <$> step) = Prod.map f f <$> pairOf step step := by
  simp [pairOf]

/-- A value of any form is made of a trace of that form. -/
theorem map_traceOf (inner : Decode Trace) (lead : Lead) :
    Trace.value <$> traceOf inner lead = valueOf (Trace.value <$> inner) lead := by
  have ho : Trace.value <$> traceOf inner .object = valueOf (Trace.value <$> inner) .object := by
    simp only [traceOf, valueOf, map_bind, map_pure, Trace.value_object, times_map, nested_map,
      bind_map_left, latest_bind]
  cases lead with
  | list typed length =>
    simp only [traceOf, valueOf, listOf, map_bind, map_pure, Trace.value_list, bind_assoc,
      pure_bind]
    apply bind_congr
    intro header
    rcases header with ⟨type, _ | length⟩
    · simp only [untilTerminator_map, nested_map, bind_map_left, latest_bind]
    · simp only [times_map, nested_map, bind_map_left, latest_bind]
  | map typed =>
    simp only [traceOf, valueOf, mapOf, map_bind, map_pure, Trace.value_map, bind_assoc, pure_bind,
      pairOf_map, untilTerminator_map, nested_map, bind_map_left, latest_bind]
  | definition => exact ho
  | object => exact ho
  | objectShort index => exact ho
  | null => exact map_scalar _ _ _
  | boolean b => exact map_scalar _ _ _
  | int tail high => exact map_scalar _ _ _
  | intWord => exact map_scalar _ _ _
  | long tail high => exact map_scalar _ _ _
  | longInt => exact map_scalar _ _ _
  | longWord => exact map_scalar _ _ _
  | doubleZero => exact map_scalar _ _ _
  | doubleOne => exact map_scalar _ _ _
  | doubleByte => exact map_scalar _ _ _
  | doubleShort => exact map_scalar _ _ _
  | doubleMilli => exact map_scalar _ _ _
  | doubleWord => exact map_scalar _ _ _
  | dateMillis => exact map_scalar _ _ _
  | dateMinutes => exact map_scalar _ _ _
  | binary isFinal tail high => exact map_scalar _ _ _
  | string isFinal tail high => exact map_scalar _ _ _
  | ref => exact map_scalar _ _ _
  | terminator => exact map_bind _ _ _
  | unassigned => exact map_bind _ _ _

theorem map_traceWith (inner : Decode Trace) :
    Trace.value <$> traceWith inner = valueWith (Trace.value <$> inner) := by
  rw [traceWith, map_bind]
  exact bind_congr fun code => map_traceOf inner _

theorem map_traceWithin (levels : Nat) :
    Trace.value <$> traceWithin levels = valueWithin levels := by
  induction levels with
  | zero => exact map_traceWith tooDeep
  | succ levels ih => rw [traceWithin, map_traceWith, ih, valueWithin]

/-- A value is what is made of its trace. -/
theorem value_eq_map_trace : value = Trace.value <$> trace := by
  funext s
  exact (congrFun (map_traceWithin (s.maxDepth - s.depth)) s).symm

end Decode

end Hessian
