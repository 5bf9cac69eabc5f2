import Hessian.Proofs.Encoder.Lawful
import Hessian.Proofs.RoundTrip.Chunks

/-!
# Class definitions are read back

A class definition says how many names it has, as an int.  The writer takes their number modulo the
range of an int and refuses none, while the header of a list of that many items would be refused.
So a definition comes back exactly if it has fewer than `2 ^ 31` names.  The reader is told of fewer
names than follow, or of less than none, if there are more: `Encode.definition_reads_back`.
-/

namespace Hessian

open Grammar

/-- The upper half of the range of the number of names is negative. -/
theorem toInt_count (length : Nat) :
    (Int32.ofNat length).toInt =
      (length % 2 ^ 32 : Nat) - (if length % 2 ^ 32 < 2 ^ 31 then 0 else 2 ^ 32 : Int) := by
  rw [Int32.toInt_ofNat', Int.bmod_def, Int32.size]
  split <;> split <;> omega

namespace Grammar

variable {bytes title word names : Bytes} {typeName : String} {n : Int32}
  {fieldNames : List String}

theorem StringForm.ne_nil {s : String} (h : StringForm bytes s) : bytes ≠ [] := by
  obtain ⟨chain⟩ := h
  cases chain with
  | last final => cases final with | mk => exact List.cons_ne_nil _ _
  | more first _ => cases first with | mk => exact List.cons_ne_nil _ _

theorem StringsForm.eq_nil_iff (h : StringsForm bytes fieldNames) :
    bytes = [] ↔ fieldNames = [] := by
  cases h with
  | nil => exact iff_of_true rfl rfl
  | cons head _ =>
    exact iff_of_false (fun h => head.ne_nil (List.append_eq_nil_iff.mp h).1) (List.cons_ne_nil _ _)

/-- A row of strings can be cut wherever its names can. -/
theorem StringsForm.split (h : StringsForm bytes fieldNames) (k : Nat) :
    ∃ front back, bytes = front ++ back ∧ StringsForm front (fieldNames.take k) ∧
      StringsForm back (fieldNames.drop k) := by
  induction h generalizing k with
  | nil => exact ⟨[], [], rfl, by rw [List.take_nil]; exact .nil, by rw [List.drop_nil]; exact .nil⟩
  | @cons bytes more s rest head tail ih =>
    cases k with
    | zero => exact ⟨[], bytes ++ more, rfl, .nil, .cons head tail⟩
    | succ k =>
      obtain ⟨front, back, rfl, hfront, hback⟩ := ih k
      exact ⟨bytes ++ front, back, (List.append_assoc _ _ _).symm, .cons head hfront, hback⟩

/-- A definition that has more names than it says is one that has as many, with something behind
it. -/
theorem definitionForm_take (type : StringForm title typeName) (count : IntForm word n)
    (fields : StringsForm names fieldNames) {k : Nat} (hn : n.toInt = k)
    (hk : k ≤ fieldNames.length) :
    ∃ front back, title ++ (word ++ names) = front ++ back ∧
      DefinitionForm front ⟨typeName, fieldNames.take k⟩ ∧ (back = [] ↔ k = fieldNames.length) := by
  obtain ⟨front, back, rfl, hfront, hback⟩ := fields.split k
  refine ⟨title ++ (word ++ front), back, by simp only [List.append_assoc], ?_, ?_⟩
  · exact .mk type count (by rw [hn, List.length_take_of_le hk]) hfront
  · rw [hback.eq_nil_iff, List.drop_eq_nil_iff]
    exact ⟨fun h => Nat.le_antisymm hk h, fun h => Nat.le_of_eq h.symm⟩

end Grammar

/-! ## Reading -/

namespace Decode

variable {tb : Tables} {bytes title word rest : Bytes} {c : Definition} {s : Decoder}

theorem readsIn_definition (form : DefinitionForm bytes c) :
    ReadsIn 0 tb definition (Lead.definition.toByte :: bytes) c (tb.addDefinition c) := by
  refine .lead ?_
  simp only [Lead.ofByte_toByte .definition trivial]
  exact readsIn_definitionBody form

/-- The reader stops after as many names as it is told of. -/
theorem readsIn_definition_take {names : Bytes} {told : Nat} (type : StringForm title c.typeName)
    (count : IntForm word (Int32.ofNat c.fieldNames.length))
    (fields : StringsForm names c.fieldNames) (ht : c.fieldNames.length % 2 ^ 32 = told)
    (hk : told < 2 ^ 31) :
    ∃ front back, Lead.definition.toByte :: (title ++ (word ++ names)) = front ++ back ∧
      (back = [] ↔ told = c.fieldNames.length) ∧ ∀ tb : Tables,
        ReadsIn 0 tb definition front ⟨c.typeName, c.fieldNames.take told⟩
          (tb.addDefinition ⟨c.typeName, c.fieldNames.take told⟩) := by
  subst ht
  have hcount : (Int32.ofNat c.fieldNames.length).toInt = (c.fieldNames.length % 2 ^ 32 : Nat) := by
    rw [toInt_count, if_pos hk, Int.sub_zero]
  obtain ⟨front, back, heq, hform, hback⟩ :=
    definitionForm_take type count fields hcount (Nat.mod_le _ _)
  exact ⟨Lead.definition.toByte :: front, back, congrArg _ heq, hback, fun tb =>
    readsIn_definition hform⟩

/-- A definition with less than no names is refused at their number. -/
theorem definition_of_negative {typeName : String} {n : Int32} (type : StringForm title typeName)
    (count : IntForm word n) (negative : n.toInt < 0)
    (hi : s.input = Lead.definition.toByte :: (title ++ (word ++ rest))) :
    ∃ t, definition s =
      .error (.unexpectedType Lead.definition.toByte (s.offset + 1 + title.length)) t := by
  let u := s.past (title ++ (word ++ rest)) 1
  have hlead : octet s = .ok Lead.definition.toByte u := octet_of_input hi
  have htitle := reads_string type u (word ++ rest) rfl
  have hcount := reads_int count (u.past (word ++ rest) title.length) rest rfl
  refine ⟨(u.past (word ++ rest) title.length).past rest word.length, ?_⟩
  rw [definition, bind_ok hlead]
  simp only [Lead.ofByte_toByte .definition trivial]
  rw [definitionBody, bind_ok htitle]
  refine (bind_ok rfl).trans ((bind_ok hcount).trans ?_)
  rw [if_pos negative]
  rfl

end Decode

/-! ## Writing -/

namespace Encode

theorem exists_stringsForm (names : List String) :
    ∃ octets, strings names = emit octets ∧ StringsForm octets names := by
  induction names with
  | nil => exact ⟨[], emit_nil.symm, .nil⟩
  | cons name names ih =>
    obtain ⟨octets, hname, hread⟩ := string_undone name
    obtain ⟨more, hnames, tail⟩ := ih
    refine ⟨octets ++ more, ?_, .cons (hread.form Decode.finds_string) tail⟩
    rw [strings, hname, hnames, emit_bind_emit]

/-- The text of a definition: its lead byte, its type name, the number of its names as far as an int
can hold it, and the names. -/
theorem definitionText_layout (c : Definition) :
    ∃ title word names, definitionText c =
        emit (Lead.definition.toByte :: (title ++ (word ++ names))) ∧
      string c.typeName = emit title ∧ StringForm title c.typeName ∧
      IntForm word (Int32.ofNat c.fieldNames.length) ∧ StringsForm names c.fieldNames := by
  obtain ⟨title, htitle, htype⟩ := string_undone c.typeName
  obtain ⟨word, hword, hcount⟩ := int_undone (Int32.ofNat c.fieldNames.length)
  obtain ⟨names, hnames, hfields⟩ := exists_stringsForm c.fieldNames
  refine ⟨title, word, names, ?_, htitle, htype.form Decode.finds_string,
    hcount.form Decode.finds_int, hfields⟩
  rw [definitionText, htitle, hword, hnames, emit_bind_emit, emit_bind_emit, form, emit_bind_emit]
  rfl

/-- A new definition is never refused. -/
theorem definition_of_text {c : Definition} {octets : Bytes} (h : definitionText c = emit octets)
    {e : Encoder} (hnew : c ∉ e.definitions) :
    definition c e = .ok e.definitions.length
      { e with output := e.output ++ octets, definitions := e.definitions ++ [c] } := by
  rw [definition_of_new hnew, h]
  rfl

/-- The header of a list is written if its length is an int. -/
theorem listBegin_ok_iff {type : String} {length : Nat} {e : Encoder} :
    (∃ e', listBegin type length e = .ok () e') ↔ length < 2 ^ 31 := by
  constructor
  · rintro ⟨e', h⟩
    exact length_lt_of_listBegin h
  · intro h
    obtain ⟨⟨⟩, e', he, -⟩ := @always_listBegin 0 type length h e
    exact ⟨e', he⟩

/-- A new definition is written whatever number of names it has.  The octets are read back with
nothing left over if that number is less than `2 ^ 31`, which is when the header of a list of that
length would be written.  If it is not, the reader is told of that number modulo `2 ^ 32`.  It stops
after as many names, or takes the number for a negative one and refuses it where it stands. -/
theorem definition_reads_back (c : Definition) :
    let length := c.fieldNames.length
    ∃ octets : Bytes,
      (∀ e : Encoder, c ∉ e.definitions → definition c e = .ok e.definitions.length
        { e with output := e.output ++ octets, definitions := e.definitions ++ [c] }) ∧
      (∀ (type : String) (e : Encoder),
        (∃ e', listBegin type length e = .ok () e') ↔ length < 2 ^ 31) ∧
      (length < 2 ^ 31 → ∀ (s : Decoder) (rest : Bytes), s.input = octets ++ rest →
        Decode.definition s =
          .ok c (s.moved rest octets.length (s.tables.addDefinition c))) ∧
      (2 ^ 31 ≤ length → length % 2 ^ 32 < 2 ^ 31 →
        let told : Definition := ⟨c.typeName, c.fieldNames.take (length % 2 ^ 32)⟩
        told ≠ c ∧ ∃ front back, octets = front ++ back ∧ back ≠ [] ∧
          ∀ (s : Decoder) (rest : Bytes), s.input = octets ++ rest → Decode.definition s =
            .ok told (s.moved (back ++ rest) front.length (s.tables.addDefinition told))) ∧
      (2 ^ 31 ≤ length % 2 ^ 32 → ∃ title, string c.typeName = emit title ∧
        ∀ (s : Decoder) (rest : Bytes), s.input = octets ++ rest → ∃ t, Decode.definition s =
          .error (.unexpectedType Lead.definition.toByte (s.offset + 1 + title.length)) t) := by
  intro length
  obtain ⟨title, word, names, htext, htitle, type, count, fields⟩ := definitionText_layout c
  refine ⟨_, fun e hnew => definition_of_text htext hnew, fun _ _ => listBegin_ok_iff, ?_, ?_, ?_⟩
  · intro hlt s rest hi
    have hmod : length % 2 ^ 32 = length := Nat.mod_eq_of_lt (by omega)
    obtain ⟨front, back, heq, hback, hfront⟩ :=
      Decode.readsIn_definition_take type count fields hmod hlt
    -- all names are told of, so nothing is left over
    obtain rfl := hback.mpr rfl
    rw [List.append_nil] at heq
    have hok := (hfront s.tables).ok rfl (heq ▸ hi)
    rwa [← heq, List.take_length] at hok
  · intro hge hk told
    obtain ⟨front, back, heq, hback, hfront⟩ :=
      Decode.readsIn_definition_take type count fields rfl hk
    have hshort : length % 2 ^ 32 ≠ length := by omega
    have htold : told.fieldNames.length = length % 2 ^ 32 := List.length_take_of_le (Nat.mod_le _ _)
    refine ⟨fun h => ?_, front, back, heq, mt hback.mp hshort, fun s rest hi => ?_⟩
    · rw [h] at htold
      exact hshort htold.symm
    · exact (hfront s.tables).ok rfl (by rw [hi, heq, List.append_assoc])
  · intro hge
    have hneg : (Int32.ofNat length).toInt < 0 := by
      rw [toInt_count, if_neg (Nat.not_lt.mpr hge)]
      omega
    refine ⟨title, htitle, fun s rest hi => ?_⟩
    rw [List.cons_append, List.append_assoc, List.append_assoc] at hi
    exact Decode.definition_of_negative type count hneg hi

/-- A car in a session that has another definition. -/
theorem definition_reads_back_car :
    let c : Definition := ⟨"Car", ["color", "model"]⟩
    let e : Encoder := { definitions := [⟨"Wheel", []⟩], maxDepth := defaultMaxDepth }
    let octets : Bytes := [0x43, 0x03, 0x43, 0x61, 0x72, 0x92, 0x05, 0x63, 0x6f, 0x6c, 0x6f, 0x72,
      0x05, 0x6d, 0x6f, 0x64, 0x65, 0x6c]
    (∃ e', definition c e = .ok 1 e' ∧ e'.bytes = octets) ∧
      ∃ t, Decode.definition (.start octets defaultMaxDepth) = .ok c t ∧ t.input = [] := by
  intro c e octets
  obtain ⟨written, hwrite, -, hread, -⟩ := definition_reads_back c
  have hnew : c ∉ e.definitions := by decide
  have hrun : definition c e = .ok 1
      { e with output := octets.toArray, definitions := e.definitions ++ [c] } := by cbv
  obtain rfl : written = octets := by
    have houtput := congrArg Encoder.bytes
      (EStateM.Result.ok.inj ((hwrite e hnew).symm.trans hrun)).2
    exact Array.toList_appendList.symm.trans houtput
  exact ⟨⟨_, hwrite e hnew, Array.toList_appendList⟩,
    _, hread (by decide) (.start octets defaultMaxDepth) [] (List.append_nil _).symm, rfl⟩

theorem strings_replicate_empty (count : Nat) :
    strings (List.replicate count "") = emit (List.replicate count 0) := by
  have hempty : string "" = emit [0] := rfl
  induction count with
  | zero => exact emit_nil.symm
  | succ count ih =>
    rw [List.replicate_succ, strings, hempty, ih, emit_bind_emit]
    rfl

/-- A class of so many empty names that their number is taken for a negative one. -/
theorem definition_of_empty_names {length : Nat} {word : Bytes}
    (hword : int (Int32.ofNat length) = emit word) (hneg : (Int32.ofNat length).toInt < 0) :
    let octets : Bytes := 0x43 :: ([0x01, 0x41] ++ (word ++ List.replicate length 0))
    (∃ e, definition ⟨"A", List.replicate length ""⟩ (.start [] defaultMaxDepth) = .ok 0 e ∧
        e.bytes = octets) ∧
      ∃ t, Decode.definition (.start octets defaultMaxDepth) =
        .error (.unexpectedType 0x43 3) t := by
  intro octets
  have htitle : string "A" = emit [0x01, 0x41] := rfl
  have htext : definitionText ⟨"A", List.replicate length ""⟩ = emit octets := by
    rw [definitionText, htitle, List.length_replicate, hword, strings_replicate_empty,
      emit_bind_emit, emit_bind_emit, form, emit_bind_emit]
    rfl
  have type := ((string_undone "A").reads htitle).form Decode.finds_string
  have count := ((int_undone _).reads hword).form Decode.finds_int
  exact ⟨⟨_, definition_of_text htext List.not_mem_nil, Array.toList_appendList⟩,
    Decode.definition_of_negative type count hneg rfl⟩

/-- A class of `2 ^ 31` names, all of them empty.  It is written, and is not read back.  The header
of a list of that length is refused. -/
theorem definition_of_too_many_names :
    let length : Nat := 2 ^ 31
    let octets : Bytes :=
      [0x43, 0x01, 0x41, 0x49, 0x80, 0x00, 0x00, 0x00] ++ List.replicate length 0
    (∃ e, definition ⟨"A", List.replicate length ""⟩ (.start [] defaultMaxDepth) = .ok 0 e ∧
        e.bytes = octets) ∧
      (∃ t, Decode.definition (.start octets defaultMaxDepth) =
        .error (.unexpectedType 0x43 3) t) ∧
      ∀ (type : String) (e : Encoder),
        listBegin type length e = .error (.encode (.listTooLong length)) e := by
  intro length octets
  have hword : int (Int32.ofNat (2 ^ 31)) = emit [0x49, 0x80, 0x00, 0x00, 0x00] := by
    rw [int]
    rfl
  have hneg : (Int32.ofNat (2 ^ 31)).toInt < 0 := by decide
  obtain ⟨hwrite, hread⟩ := definition_of_empty_names hword hneg
  exact ⟨hwrite, hread, fun type e => congrFun (if_pos (Nat.le_refl length)) e⟩

end Encode

end Hessian
