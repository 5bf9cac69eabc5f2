import Hessian.Proofs.Decoder.Reader
import Hessian.Session.Decoding

/-!
# More input behind the input

What a shape says is read by a reader (`Shape.reader_read`), so reading it does not depend on the
octets behind the ones it needs.  A session that is fed piece by piece can therefore tell from the
error alone whether to wait: anything but a want of octets is final, and every cut inside a datum
is a want of octets (`Shape.recording_extend`).

## Main statements

* `Shape.reader_read` : every shape is read by a reader.
* `Shape.recording_extend` : how reading goes with more octets and with fewer.
-/

namespace Hessian

namespace Decode

variable {α : Type}

/-! ## Recording -/

/-- Recording an error is no step of its own. -/
theorem advance_record {s t : Decoder} (h : s.Advance t) (e : Error) : s.Advance (t.record e) := by
  unfold Decoder.record
  split
  · exact h
  · exact { h with }

/-- What is recorded does not depend on the input. -/
theorem record_extend (s : Decoder) (more : Bytes) (e : Error) :
    (s.extend more).record e = (s.record e).extend more := by
  unfold Decoder.record Decoder.extend
  dsimp only
  split <;> rfl

/-- Recording the error of a regular step is regular. -/
theorem Regular.recording {step : Decode α} (h : Regular step) : Regular (recording step) where
  advance s := by
    unfold Decode.recording
    cases hs : step s with
    | ok a t => exact h.advance_ok hs
    | error e t => exact advance_record (h.advance_error hs) e
  extend s more hst := by
    unfold Decode.recording at hst ⊢
    cases hs : step s with
    | ok a t => rw [h.extend_ok hs more]; rfl
    | error e t =>
      rw [hs] at hst
      rw [h.extend_error hs more hst]
      simp only [Outcome.extend, record_extend]

/-! ## The parts of shapes -/

theorem reader_intIn (range : IntRange) : Reader (intIn range) := by
  apply reader_int.bind
  intro n
  split
  · exact regular_pure n
  · exact regular_throw _

theorem reader_longIn (range : LongRange) : Reader (longIn range) := by
  apply reader_long.bind
  intro n
  split
  · exact regular_pure n
  · exact regular_throw _

theorem reader_instant (clock : Clock) : Reader (instant clock) := by
  apply reader_date.bind
  intro millis
  split
  · exact regular_pure _
  · exact regular_throw _

theorem regular_decimalFields (found : Option String) (names : List String) :
    Regular (decimalFields found names) := by
  induction names generalizing found with
  | nil => exact regular_pure found
  | cons name names ih =>
    unfold decimalFields
    split
    · exact reader_string.toRegular.bind fun text => ih (some text)
    · exact reader_skip.toRegular.bind fun _ => ih found

theorem reader_decimalText : Reader decimalText := by
  apply Reader.afterLook regular_peek hungry_peek
  intro code
  split
  · exact reader_string
  · refine reader_objectBegin.bind fun c => (regular_decimalFields _ _).bind fun text => ?_
    split
    · exact regular_pure _
    · exact regular_throw _

theorem reader_decimal : Reader decimal := by
  apply reader_decimalText.bind
  intro text
  split
  · exact regular_pure _
  · exact regular_throw _

theorem reader_key (mapping : Mapping) : Reader (key mapping) := by
  cases mapping with
  | sortedText => exact reader_string.map _
  | sortedLong => exact reader_long.map _
  | text => exact reader_string.map _
  | value => exact reader_value.map _

theorem reader_json : Reader json := by
  apply reader_value.bind
  intro v
  split
  · exact regular_pure _
  · exact regular_throw _

/-- Looking for an octet and not finding any input is no different from not finding that octet,
as long as both ways go on with a reader. -/
theorem reader_nextIs (b : UInt8) {f : Bool → Decode α} (hf : ∀ found, Reader (f found)) :
    Reader (nextIs b >>= f) :=
  .of_forall fun s more => by
    cases hi : s.input with
    | nil =>
      refine ⟨f ((s.extend more).input.head? == some b), hf _, ?_, rfl⟩
      change f (s.input.head? == some b) s = _
      rw [(hf _).hungry s hi, (hf _).hungry s hi]
    | cons c rest =>
      refine ⟨f (s.input.head? == some b), hf _, rfl, ?_⟩
      change f ((s.extend more).input.head? == some b) _ = _
      rw [Decoder.extend_input, hi]
      rfl

end Decode

namespace Record

open Decode

variable {ι : Type} {read : Shape ι → Decode (Datum ι)}

theorem regular_readFields (r : Record ι) (h : ∀ shape, Regular (read shape))
    (found : List (String × Datum ι)) (names : List String) :
    Regular (r.readFields read found names) := by
  induction names generalizing found with
  | nil => exact regular_pure found
  | cons name names ih =>
    unfold readFields
    split
    · exact (h _).bind fun d => ih _
    · exact reader_skip.toRegular.bind fun _ => ih found

theorem reader_readWith (r : Record ι) (h : ∀ shape, Regular (read shape)) :
    Reader (r.readWith read) := by
  refine reader_objectBegin.bind fun c =>
    (regular_readFields r h _ _).nested.bind fun found => ?_
  split
  · exact regular_pure _
  · exact regular_throw _

end Record

namespace Shape

open Decode

variable {ι : Type} (Γ : Schema ι)

/-! ## Shapes -/

/-- A layer of a shape is read by a reader whatever reads its parts. -/
theorem reader_readWith {inner : Shape ι → Decode (Datum ι)} (h : ∀ shape, Regular (inner shape))
    (hp : ∀ shape, Productive (inner shape)) (shape : Shape ι) :
    Reader (readWith Γ inner shape) := by
  induction shape with
  | boolean => exact reader_boolean.map _
  | int range => exact (reader_intIn range).map _
  | long range => exact (reader_longIn range).map _
  | double => exact reader_double.map _
  | single => exact reader_double.map _
  | text => exact reader_string.map _
  | bytes => exact reader_binary.map _
  | option shape ih =>
    apply reader_nextIs _
    intro isNull
    split
    · exact reader_null.bind fun _ => regular_pure _
    · exact ih.map _
  | list item => exact (reader_listOf (h item) (hp item)).bind fun _ => regular_pure _
  | map mapping item =>
    have hk := reader_key mapping
    exact (reader_mapOf hk.toRegular hk.productive (h item)).bind fun _ => regular_pure _
  | date unit => exact reader_date.map _
  | instant clock => exact (reader_instant clock).map _
  | decimal => exact reader_decimal.map _
  | value => exact reader_value.map _
  | definition => exact reader_definition.map _
  | json => exact reader_json.map _
  | record name => exact ((Γ name).reader_readWith h).map _

theorem reader_readWithin (levels : Nat) (shape : Shape ι) :
    Reader (readWithin Γ levels shape) := by
  induction levels generalizing shape with
  | zero =>
    exact reader_readWith Γ (fun _ => regular_tooDeep) (fun _ => productive_tooDeep) shape
  | succ levels ih =>
    exact reader_readWith Γ (fun shape => (ih shape).toRegular)
      (fun shape => (ih shape).productive) shape

/-- What a shape says is read by a reader. -/
theorem reader_read (shape : Shape ι) : Reader (shape.read Γ) :=
  .of_forall fun s _ =>
    ⟨readWithin Γ (s.maxDepth - s.depth) shape, reader_readWithin Γ _ shape, rfl, rfl⟩

/-! ## Input in pieces -/

/-- Reading a datum in a session comes to the same end whatever octets follow the ones that were
there, unless it ran out of them.  If it succeeds and the input is cut off anywhere in the octets
that it took, it runs out of octets and comes to no other end. -/
theorem recording_extend (shape : Shape ι) (s : Decoder) :
    (¬ Outcome.Starved (recording (shape.read Γ) s) → ∀ more,
      recording (shape.read Γ) (s.extend more) =
        Outcome.extend more (recording (shape.read Γ) s)) ∧
    (∀ d t k, recording (shape.read Γ) s = .ok d t → s.offset + k < t.offset →
      ∃ offset u, recording (shape.read Γ) (s.cut k) = .error (.notEnoughBuffer offset) u) := by
  have h : Regular (recording (shape.read Γ)) := (reader_read Γ shape).toRegular.recording
  exact ⟨fun hs more => h.extend s more hs, fun d t k hd hk => (h.cut_starved hd hk).exists_eq⟩

/-- An int in two octets, with a third octet behind it and with the second one gone. -/
theorem recording_extend_int (Γ : Schema Empty) :
    recording ((Shape.int .int32).read Γ) (.start [0xc8, 0x30, 0x4e] 1) =
      Outcome.extend [0x4e] (recording ((Shape.int .int32).read Γ) (.start [0xc8, 0x30] 1)) ∧
    ∃ offset u, recording ((Shape.int .int32).read Γ) ((Decoder.start [0xc8, 0x30] 1).cut 1) =
      .error (.notEnoughBuffer offset) u := by
  have h := recording_extend Γ (.int .int32) (.start [0xc8, 0x30] 1)
  exact ⟨h.1 (fun hs => nomatch hs) [0x4e], h.2 _ _ 1 rfl (by decide)⟩

end Shape

end Hessian
