import Hessian.Decoder.Value
import Hessian.Proofs.Decoder.Loop
import Hessian.Proofs.Text.Scan

/-!
# The readers are readers

Every step that reads something of the grammar is regular, and those that read something whole
take an octet or do nothing: they are readers in the sense of `Decode.Reader`.

The reader of the parts comes in as an argument where containers are read.  It has to be regular
for the reader of the container to be so, and productive where a terminator closes the container.
-/

namespace Hessian.Decode

variable {α β : Type}

/-! ## Scalars -/

theorem reader_null : Reader null := by
  apply reader_octet.bind
  intro code
  split
  · exact regular_pure _
  · exact regular_unexpected code

theorem reader_boolean : Reader boolean := by
  apply reader_octet.bind
  intro code
  split
  · exact regular_pure _
  · exact regular_unexpected code

theorem reader_int : Reader int := by
  apply reader_octet.bind
  intro code
  split
  · exact (regular_word _).bind fun _ => regular_pure _
  · exact (regular_word 4).bind fun _ => regular_pure _
  · exact regular_unexpected code

theorem reader_long : Reader long := by
  apply reader_octet.bind
  intro code
  split
  · exact (regular_word _).bind fun _ => regular_pure _
  · exact (regular_word 4).bind fun _ => regular_pure _
  · exact (regular_word 8).bind fun _ => regular_pure _
  · exact regular_unexpected code

theorem reader_double : Reader double := by
  apply reader_octet.bind
  intro code
  split
  · exact regular_pure _
  · exact regular_pure _
  · exact (regular_word 1).bind fun _ => regular_pure _
  · exact (regular_word 2).bind fun _ => regular_pure _
  · exact (regular_word 4).bind fun _ => regular_pure _
  · exact (regular_word 8).bind fun _ => regular_pure _
  · exact regular_unexpected code

theorem reader_date : Reader date := by
  apply reader_octet.bind
  intro code
  split
  · exact (regular_word 8).bind fun _ => regular_pure _
  · exact (regular_word 4).bind fun _ => regular_pure _
  · exact regular_unexpected code

theorem reader_binaryChunk : Reader binaryChunk := by
  apply reader_octet.bind
  intro code
  split
  · exact (regular_word _).bind fun _ => (regular_octets _).bind fun _ => regular_pure _
  · exact regular_unexpected code

theorem reader_binary : Reader binary := reader_binaryChunk.chunks

/-- A step that notes where it starts reads if the rest of it does. -/
theorem Reader.fromOffset {f : Nat → Decode α} (hf : ∀ start, Reader (f start)) :
    Reader (offset >>= f) :=
  .of_forall fun s _ => ⟨f s.offset, hf s.offset, rfl, rfl⟩

theorem reader_ref : Reader ref := by
  refine Reader.fromOffset fun start => reader_octet.bind fun code => ?_
  split
  · refine reader_int.toRegular.bind fun index => regular_started.bind fun started => ?_
    split
    · exact regular_pure _
    · exact regular_throw _
  · exact regular_unexpected code

/-! ## Strings -/

/-- More octets change nothing for a scan that does not stop for want of them. -/
theorem regular_characters (count : Nat) : Regular (characters count) where
  advance s := by
    have hs := Text.scan_spec count s.input
    unfold characters
    simp only
    split
    · exact { Decoder.Advance.refl s with
        read := ⟨_, hs.2.1.symm, congrArg (s.offset + ·) hs.2.2.1⟩ }
    · exact .refl s
    · exact .refl s
    · exact .refl s
  extend s more hst := by
    unfold characters at hst ⊢
    simp only [Decoder.extend_input, Decoder.extend_offset] at hst ⊢
    cases h : (Text.scan count s.input).stop with
    | reached =>
      rw [Text.scan_append more (.inl h), h]
      rfl
    | badLead =>
      rw [Text.scan_append more (.inr h), h]
      rfl
    | ended => simp [h, Outcome.Starved, Error.code] at hst
    | truncated => simp [h, Outcome.Starved, Error.code] at hst

theorem reader_textChunk : Reader textChunk := by
  apply reader_octet.bind
  intro code
  split
  · exact (regular_word _).bind fun _ => (regular_characters _).bind fun _ => regular_pure _
  · exact regular_unexpected code

theorem reader_text : Reader text := reader_textChunk.chunks

theorem reader_rawString : Reader rawString := reader_text.map _

theorem reader_string : Reader string := reader_text.map _

/-! ## Containers -/

theorem reader_typeName : Reader typeName := by
  refine Reader.fromOffset fun start => Reader.afterLook regular_peek hungry_peek fun code => ?_
  split
  · exact reader_string.bind fun name => (regular_addType name).bind fun _ => regular_pure _
  · exact reader_int.bind fun index => regular_lookup (fun _ _ => rfl) _ _ _

theorem regular_optionalType (typed : Bool) : Regular (optionalType typed) := by
  unfold optionalType
  split
  · exact reader_typeName.toRegular.map some
  · exact regular_pure none

theorem reader_listLength : Reader listLength := by
  refine Reader.fromOffset fun start => reader_int.bind fun length => ?_
  dsimp only
  split
  · exact regular_pure _
  · exact regular_throw _

theorem reader_listBegin : Reader listBegin := by
  apply reader_octet.bind
  intro code
  split
  · apply (regular_optionalType _).bind
    intro type
    split
    · exact (regular_pure none).bind fun _ => regular_addContainer.bind fun _ => regular_pure _
    · exact (reader_listLength.toRegular.map some).bind fun _ =>
        regular_addContainer.bind fun _ => regular_pure _
    · exact (regular_pure _).bind fun _ => regular_addContainer.bind fun _ => regular_pure _
  · exact regular_unexpected code

/-- A list is read by a reader whatever reads its items. -/
theorem reader_listOf {item : Decode α} (h : Regular item) (hp : Productive item) :
    Reader (listOf item) := by
  refine reader_listBegin.bind fun header => Regular.bind ?_ fun items => regular_pure _
  split
  · exact (h.times _).nested
  · exact (h.untilTerminator hp).nested

theorem reader_mapBegin : Reader mapBegin := by
  apply reader_octet.bind
  intro code
  split
  · exact (regular_optionalType _).bind fun type =>
      regular_addContainer.bind fun _ => regular_pure _
  · exact regular_unexpected code

section Pairs

variable {key : Decode α} {value : Decode β}

theorem Regular.pairOf (hk : Regular key) (hv : Regular value) : Regular (pairOf key value) :=
  hk.bind fun k => hv.bind fun v => regular_pure (k, v)

/-- A key takes at least one octet, and so a pair does. -/
theorem Productive.pairOf (hp : Productive key) (hv : Regular value) :
    Productive (pairOf key value) :=
  hp.bind fun k => hv.bind fun v => regular_pure (k, v)

/-- A map is read by a reader whatever reads its keys and values. -/
theorem reader_mapOf (hk : Regular key) (hp : Productive key) (hv : Regular value) :
    Reader (mapOf key value) := by
  refine reader_mapBegin.bind fun type => Regular.bind ?_ fun entries => regular_pure _
  exact ((hk.pairOf hv).untilTerminator (hp.pairOf hv)).nested

end Pairs

theorem reader_definitionBody : Reader definitionBody := by
  refine reader_string.bind fun typeName => regular_offset.bind fun start =>
    reader_int.toRegular.bind fun count => ?_
  dsimp only
  split
  · exact regular_throw _
  · exact (reader_string.toRegular.times _).bind fun fieldNames =>
      (regular_addDefinition _).bind fun _ => regular_pure _

theorem reader_definition : Reader definition := by
  apply reader_octet.bind
  intro code
  split
  · exact reader_definitionBody.toRegular
  · exact regular_unexpected code

theorem reader_objectRound : Reader objectRound := by
  refine Reader.fromOffset fun start => reader_octet.bind fun code => ?_
  have hl : ∀ index : Int, Regular (lookup .definition Decoder.definitions index start) :=
    fun index => regular_lookup (fun _ _ => rfl) _ _ _
  have hc : ∀ c : Definition,
      Regular (addContainer >>= fun _ => pure (.inr c : Definition ⊕ Definition)) :=
    fun c => regular_addContainer.bind fun _ => regular_pure _
  split
  · exact reader_definitionBody.toRegular.map _
  · exact reader_int.toRegular.bind fun index => (hl _).bind hc
  · exact (hl _).bind hc
  · exact regular_unexpected code

theorem reader_objectBegin : Reader objectBegin := reader_objectRound.rounds.map _

/-! ## Values -/

theorem regular_tooDeep : Regular (tooDeep : Decode α) where
  advance s := .refl s
  extend _ _ _ := rfl

theorem productive_tooDeep : Productive (tooDeep : Decode α) := by
  intro s a t h
  cases h

/-- A value is read by a reader whatever its form is and whatever reads its parts. -/
theorem reader_valueOf {inner : Decode Value} (h : Regular inner) (hp : Productive inner)
    (lead : Lead) : Reader (valueOf inner lead) := by
  have ho : Reader (objectBegin >>= fun c => do
      let fields ← nested (times c.fieldNames.length inner)
      return Value.object c fields) :=
    reader_objectBegin.bind fun c => (h.times _).nested.bind fun _ => regular_pure _
  cases lead with
  | null => exact reader_null.bind fun _ => regular_pure _
  | boolean b => exact reader_boolean.map _
  | int tail high => exact reader_int.map _
  | intWord => exact reader_int.map _
  | long tail high => exact reader_long.map _
  | longInt => exact reader_long.map _
  | longWord => exact reader_long.map _
  | doubleZero => exact reader_double.map _
  | doubleOne => exact reader_double.map _
  | doubleByte => exact reader_double.map _
  | doubleShort => exact reader_double.map _
  | doubleMilli => exact reader_double.map _
  | doubleWord => exact reader_double.map _
  | dateMillis => exact reader_date.map _
  | dateMinutes => exact reader_date.map _
  | binary isFinal tail high => exact reader_binary.map _
  | string isFinal tail high => exact reader_string.map _
  | list typed length => exact (reader_listOf h hp).bind fun _ => regular_pure _
  | map typed => exact (reader_mapOf h hp h).bind fun _ => regular_pure _
  | definition => exact ho
  | object => exact ho
  | objectShort index => exact ho
  | ref => exact reader_ref.map _
  | terminator => exact reader_octet.bind fun code => regular_unexpected code
  | unassigned => exact reader_octet.bind fun code => regular_unexpected code

/-- A layer of a value is read by a reader whatever reads its parts. -/
theorem reader_valueWith {inner : Decode Value} (h : Regular inner) (hp : Productive inner) :
    Reader (valueWith inner) :=
  Reader.afterLook regular_peek hungry_peek fun _ => reader_valueOf h hp _

theorem reader_valueWithin (levels : Nat) : Reader (valueWithin levels) := by
  induction levels with
  | zero => exact reader_valueWith regular_tooDeep productive_tooDeep
  | succ levels ih => exact reader_valueWith ih.toRegular ih.productive

/-- A value is read by a reader: how many layers a session may need is not in its input. -/
theorem reader_value : Reader value :=
  .of_forall fun s _ => ⟨valueWithin (s.maxDepth - s.depth), reader_valueWithin _, rfl, rfl⟩

theorem reader_skip : Reader skip := reader_value.bind fun _ => regular_pure _

end Hessian.Decode
