import Hessian.Proofs.Decoder.Value
import Hessian.Proofs.Encoder.Step

/-!
# Two sessions in step

While an encoding session goes from `e` to `e'`, a decoding session that is level with `e` can read
what is written and is level with `e'` afterwards: `Echo`.  Being level means to have the same
tables and the same depth, so that what one session refers to is what the other one finds.

Echoes follow one another as steps do.  Those of scalars do not depend on the tables at all; those
of types and definitions are where the tables grow, on both sides alike.
-/

namespace Hessian

/-- The decoding session with the tables and the depth of an encoding session. -/
def Encoder.level (e : Encoder) (input : Bytes) (offset : Nat) (recorded : Option (Error × Nat)) :
    Decoder where
  input := input
  offset := offset
  types := e.types
  definitions := e.definitions
  containers := e.containers
  depth := e.depth
  maxDepth := e.maxDepth
  recorded := recorded

variable {α β : Type}

/-- What an encoding session writes on its way is read by the step, and sessions that were level
before are level afterwards. -/
def Echo (read : Decode α) (a : α) (e e' : Encoder) : Prop :=
  ∃ bytes, e'.bytes = e.bytes ++ bytes ∧ ∀ rest offset recorded,
    read (e.level (bytes ++ rest) offset recorded) =
      .ok a (e'.level rest (offset + bytes.length) recorded)

namespace Echo

variable {e e' e'' : Encoder}

/-- Nothing is written and nothing read. -/
theorem pure (a : α) (e : Encoder) : Echo (pure a) a e e :=
  ⟨[], (List.append_nil _).symm, fun _ _ _ => rfl⟩

theorem bind {x : Decode α} {f : α → Decode β} {a : α} {b : β} (hx : Echo x a e e')
    (hf : Echo (f a) b e' e'') : Echo (x >>= f) b e e'' := by
  obtain ⟨bytes, hb, hr⟩ := hx
  obtain ⟨more, hb', hr'⟩ := hf
  refine ⟨bytes ++ more, ?_, ?_⟩
  · rw [hb', hb, List.append_assoc]
  · intro rest offset recorded
    rw [List.append_assoc, Decode.bind_ok (hr _ _ _), hr', List.length_append, Nat.add_assoc]

theorem map {x : Decode α} {a : α} (hx : Echo x a e e') (f : α → β) :
    Echo (f <$> x) (f a) e e' := by
  rw [map_eq_pure_bind]
  exact hx.bind (.pure _ _)

/-- A step that succeeds where another one does, in the same way, has an echo where that one has. -/
theorem congr {x : Decode α} {y : Decode β} {a : α} {b : β} (hx : Echo x a e e')
    (h : ∀ s t, x s = .ok a t → y s = .ok b t) : Echo y b e e' := by
  obtain ⟨bytes, hb, hr⟩ := hx
  exact ⟨bytes, hb, fun rest offset recorded => h _ _ (hr rest offset recorded)⟩

/-- What is written is the same wherever the reader starts. -/
theorem fromOffset {f : Nat → Decode α} {a : α} (hf : ∀ start, Echo (f start) a e e') :
    Echo (Decode.offset >>= f) a e e' := by
  obtain ⟨bytes, hb, -⟩ := hf 0
  refine ⟨bytes, hb, ?_⟩
  intro rest offset recorded
  obtain ⟨bytes', hb', hr⟩ := hf offset
  obtain rfl := List.append_cancel_left (hb.symm.trans hb')
  exact hr rest offset recorded

/-- One level deeper an echo is an echo. -/
theorem nested {x : Decode α} {a : α} (hlt : e.depth < e.maxDepth) (hx : Echo x a e.enter e') :
    Echo (Decode.nested x) a e e'.leave := by
  obtain ⟨bytes, hb, hr⟩ := hx
  refine ⟨bytes, hb, ?_⟩
  intro rest offset recorded
  have h := hr rest offset recorded
  exact Decode.nested_ok (t := e'.level rest (offset + bytes.length) recorded) hlt h

/-- Octets that a step reads are its echo. -/
theorem of_reads {read : Decode α} {bytes : Bytes} {a : α} (hr : read.Reads bytes a)
    (h : Encode.emit bytes e = .ok () e') : Echo read a e e' := by
  obtain ⟨-, rfl⟩ := EStateM.Result.ok.inj h
  refine ⟨bytes, ?_, fun rest offset recorded => hr _ rest rfl⟩
  exact Array.toList_appendList

/-- What is written regardless of the session, and read back, is an echo. -/
theorem of_undone {write : Encode Unit} {read : Decode α} {a : α}
    (hw : Encode.Undone write read a) (h : write e = .ok () e') : Echo read a e e' := by
  obtain ⟨bytes, rfl, hr⟩ := hw
  exact .of_reads hr h

/-- A lead byte is the echo of its form, and the rest is read by what is left of the reader. -/
theorem form {lead : Lead} {f : UInt8 → Decode α} {a : α}
    (h : Encode.form lead [] e = .ok () e') (hf : Echo (f lead.toByte) a e' e'') :
    Echo (Decode.octet >>= f) a e e'' :=
  bind (.of_reads (Decode.reads_octet _) h) hf

theorem started (e : Encoder) : Echo Decode.started e.containers e e :=
  ⟨[], (List.append_nil _).symm, fun _ _ _ => rfl⟩

theorem addType {name : String} (h : Encode.addType name e = .ok () e') :
    Echo (Decode.addType name) () e e' := by
  obtain ⟨-, rfl⟩ := EStateM.Result.ok.inj h
  exact ⟨[], (List.append_nil _).symm, fun _ _ _ => rfl⟩

theorem addDefinition {c : Definition} {index : Nat}
    (h : Encode.addDefinition c e = .ok index e') :
    Echo (Decode.addDefinition c) () e e' := by
  obtain ⟨-, rfl⟩ := EStateM.Result.ok.inj h
  exact ⟨[], (List.append_nil _).symm, fun _ _ _ => rfl⟩

theorem addContainer (h : Encode.addContainer e = .ok () e') :
    Echo Decode.addContainer () e e' := by
  obtain ⟨-, rfl⟩ := EStateM.Result.ok.inj h
  exact ⟨[], (List.append_nil _).symm, fun _ _ _ => rfl⟩

end Echo

namespace Encode

variable {e e' : Encoder}

/-! ## References and types -/

/-- An index that fits an int comes back. -/
theorem toInt_ofNat_index {n m : Nat} (h : n < m) (hm : m < 2 ^ 31) :
    (Int32.ofNat n).toInt = n :=
  Int32.toInt_ofNat_of_lt (Nat.lt_trans h hm)

theorem ref_echo {index : UInt32} (h : ref index e = .ok () e') (hs : e'.Small) :
    Echo Decode.ref index e e' := by
  have hsmall := ((regular_ref index).advance_ok h).small hs
  obtain ⟨written, u, hw, h⟩ := ok_of_bind h
  obtain ⟨rfl, rfl⟩ := EStateM.Result.ok.inj hw
  split at h
  · next hlt =>
    obtain ⟨⟨⟩, u, hf, hi⟩ := ok_of_bind h
    have hn := toInt_ofNat_index hlt hsmall.containers
    have hc := (((regular_form _ _).advance_ok hf).trans
      ((regular_int _).advance_ok hi)).containers
    refine .fromOffset fun start => .form hf ?_
    simp only [Lead.ofByte_toByte .ref trivial]
    refine (Echo.of_undone (int_undone _) hi).bind (.bind (.started e') ?_)
    have hin : (0 : Int) ≤ index.toNat ∧ (index.toNat : Int) < e'.containers := by
      omega
    rw [hn, if_pos hin, Int.toNat_natCast, UInt32.ofNat_toNat]
    exact .pure index e'
  · cases h

/-- A new type is entered and then written, which might as well happen the other way around. -/
theorem addType_bind_emit (name : String) (bytes : Bytes) :
    (addType name >>= fun _ => emit bytes) = (emit bytes >>= fun _ => addType name) := rfl

/-- A type is read as it was written, by its name or by its index. -/
theorem typeName_echo {name : String} (h : typeName name e = .ok () e') (hs : e'.Small) :
    Echo Decode.typeName name e e' := by
  have hsmall := ((regular_typeName name).advance_ok h).small hs
  obtain ⟨index?, u, hf, h⟩ := ok_of_bind h
  obtain ⟨rfl, rfl⟩ := EStateM.Result.ok.inj hf
  cases hi : e.typeIndex? name with
  | some index =>
    rw [hi] at h
    obtain ⟨hlt, hget, -⟩ := List.idxOf?_eq_some_iff.mp hi
    have hn := toInt_ofNat_index hlt hsmall.types
    have ht : e'.types[index]? = some name := by
      obtain ⟨more, hm⟩ := ((regular_int _).advance_ok h).types
      rw [← hm, List.getElem?_append_left hlt, List.getElem?_eq_getElem hlt, hget]
    obtain ⟨bytes, hb, hr⟩ := Echo.of_undone (int_undone _) h
    refine ⟨bytes, hb, ?_⟩
    intro rest offset recorded
    rw [Decode.typeName_of_int (hr rest offset recorded), hn, Decode.lookup_of_getElem? ht]
  | none =>
    rw [hi] at h
    obtain ⟨bytes, hw, hr⟩ := string_undone name
    rw [hw] at h
    change (addType name >>= fun _ => emit bytes) e = _ at h
    rw [addType_bind_emit] at h
    obtain ⟨⟨⟩, u, he, ha⟩ := ok_of_bind h
    have hbind : Echo (do
        let name ← Decode.string
        Decode.addType name
        return name) name e e' :=
      (Echo.of_reads hr he).bind ((Echo.addType ha).bind (.pure name e'))
    apply hbind.congr
    intro s t hst
    obtain ⟨name', u, hn, ht⟩ := Decode.ok_of_bind hst
    rw [Decode.typeName_of_string hn, ht]

/-- A type is read where there is one. -/
theorem optionalType_echo {name : String} (h : optionalType name e = .ok () e')
    (hs : name.isEmpty = false → e'.Small) :
    Echo (Decode.optionalType (!name.isEmpty)) (if name.isEmpty then none else some name) e e' := by
  unfold optionalType at h
  unfold Decode.optionalType
  cases hn : name.isEmpty with
  | true =>
    rw [hn] at h
    obtain ⟨-, rfl⟩ := EStateM.Result.ok.inj h
    exact .pure none e
  | false =>
    rw [hn] at h
    exact (typeName_echo h (hs hn)).map some

/-! ## Definitions and instances -/

theorem strings_echo {names : List String} (h : strings names e = .ok () e') :
    Echo (Decode.times names.length Decode.string) names e e' := by
  induction names generalizing e with
  | nil =>
    obtain ⟨-, rfl⟩ := EStateM.Result.ok.inj h
    exact .pure [] e
  | cons name names ih =>
    obtain ⟨⟨⟩, u, hn, hr⟩ := ok_of_bind h
    rw [List.length_cons, Decode.times_succ]
    exact (Echo.of_undone (string_undone name) hn).bind ((ih hr).bind (.pure _ e'))

/-- A definition that has just been entered can be found by its index. -/
theorem getElem?_of_addDefinition {c : Definition} {index : Nat}
    (h : addDefinition c e = .ok index e') :
    c ∈ e'.definitions ∧ e'.definitions[index]? = some c := by
  obtain ⟨rfl, rfl⟩ := EStateM.Result.ok.inj h
  exact ⟨List.mem_append_right _ List.mem_cons_self, List.getElem?_concat_length⟩

/-- A definition has an index afterwards.  If it is new it is read as it was written. -/
theorem definition_echo {c : Definition} {index : Nat} (h : definition c e = .ok index e')
    (hs : e'.Small) :
    e'.definitions[index]? = some c ∧ (e' = e ∨ Echo Decode.objectRound (.inl c) e e') := by
  obtain ⟨index?, u, hf, h⟩ := ok_of_bind h
  obtain ⟨rfl, rfl⟩ := EStateM.Result.ok.inj hf
  cases hi : e.definitionIndex? c with
  | some index' =>
    rw [hi] at h
    obtain ⟨rfl, rfl⟩ := EStateM.Result.ok.inj h
    obtain ⟨hlt, hget, -⟩ := List.idxOf?_eq_some_iff.mp hi
    exact ⟨by rw [List.getElem?_eq_getElem hlt, hget], .inl rfl⟩
  | none =>
    rw [hi] at h
    obtain ⟨⟨⟩, u, hf, h⟩ := ok_of_bind h
    obtain ⟨⟨⟩, v, ht, h⟩ := ok_of_bind h
    obtain ⟨⟨⟩, w, hn, h⟩ := ok_of_bind h
    obtain ⟨⟨⟩, x, hfields, ha⟩ := ok_of_bind h
    obtain ⟨hm, hc⟩ := getElem?_of_addDefinition ha
    have hcount : (Int32.ofNat c.fieldNames.length).toInt = c.fieldNames.length :=
      Int32.toInt_ofNat_of_lt (hs.fields c hm)
    have hbody : Echo Decode.definitionBody c u e' := by
      refine (Echo.of_undone (string_undone _) ht).bind (.fromOffset fun start => ?_)
      refine (Echo.of_undone (int_undone _) hn).bind ?_
      simp only [hcount, Int.toNat_natCast, if_neg (Int.not_lt.mpr (Int.natCast_nonneg _))]
      exact (strings_echo hfields).bind ((Echo.addDefinition ha).bind (.pure _ _))
    refine ⟨hc, .inr (.fromOffset fun start => .form hf ?_)⟩
    simp only [Lead.ofByte_toByte .definition trivial]
    exact hbody.map _

/-- The header of an instance whose definition has an index. -/
theorem objectRound_echo {c : Definition} {index : Nat} (hc : e.definitions[index]? = some c)
    (h : (objectIndex index >>= fun _ => addContainer) e = .ok () e') (hs : e'.Small) :
    Echo Decode.objectRound (.inr c) e e' := by
  have hlt : index < e.definitions.length := (List.getElem?_eq_some_iff.mp hc).1
  obtain ⟨⟨⟩, v, hi, ha⟩ := ok_of_bind h
  have hprefix := ((regular_objectIndex index).advance_ok hi).definitions
  have hlookup (start : Nat) :
      Echo (Decode.lookup .definition Decoder.definitions index start) c v v := by
    refine ⟨[], (List.append_nil _).symm, fun _ _ _ => Decode.lookup_of_getElem? ?_ _⟩
    obtain ⟨more, hm⟩ := hprefix
    change v.definitions[index]? = some c
    rw [← hm, List.getElem?_append_left hlt, hc]
  unfold objectIndex at hi
  split at hi
  · next hm =>
    refine .fromOffset fun start => .form hi ?_
    simp only [Lead.ofByte_toByte (.objectShort index) hm]
    exact (hlookup start).bind ((Echo.addContainer ha).bind (.pure _ _))
  · obtain ⟨⟨⟩, u, hf, hi⟩ := ok_of_bind hi
    have hsmall := (regular_addContainer.advance_ok ha).small hs
    refine .fromOffset fun start => .form hf ?_
    simp only [Lead.ofByte_toByte .object trivial]
    refine (Echo.of_undone (int_undone _) hi).bind ?_
    rw [toInt_ofNat_index hlt (Nat.lt_of_le_of_lt hprefix.length_le hsmall.definitions)]
    exact (hlookup start).bind ((Echo.addContainer ha).bind (.pure _ _))

/-- The header of an instance is read as it was written, with or without a definition. -/
theorem objectBegin_echo {c : Definition} (h : objectBegin c e = .ok () e') (hs : e'.Small) :
    Echo Decode.objectBegin c e e' := by
  obtain ⟨index, u, hd, ho⟩ := ok_of_bind h
  have hregular := (regular_objectIndex index).bind fun _ => regular_addContainer
  have hsu := (hregular.advance_ok ho).small hs
  obtain ⟨hc, hdef⟩ := definition_echo hd hsu
  have hlast : Echo Decode.objectBegin c u e' := by
    rw [Decode.objectBegin_eq]
    exact (objectRound_echo hc ho hs).bind (.pure c e')
  rcases hdef with rfl | hdef
  · exact hlast
  · rw [Decode.objectBegin_eq]
    exact hdef.bind hlast

/-! ## Headers of lists and maps -/

/-- Only a list with a type needs a session that is small. -/
theorem listBegin_echo {type : String} {length : Nat} (h : listBegin type length e = .ok () e')
    (hs : type.isEmpty = false → e'.Small) :
    Echo Decode.listBegin ⟨if type.isEmpty then none else some type, some length⟩ e e' := by
  unfold listBegin at h
  split at h
  · cases h
  · next hl =>
    split at h
    · next hn =>
      obtain ⟨⟨⟩, u, hf, h⟩ := ok_of_bind h
      obtain ⟨⟨⟩, v, ht, hc⟩ := ok_of_bind h
      have hsv (hn : type.isEmpty = false) := (regular_addContainer.advance_ok hc).small (hs hn)
      refine .form hf ?_
      simp only [Lead.ofByte_toByte (.list (!type.isEmpty) (.short length)) hn]
      exact (optionalType_echo ht hsv).bind (.bind (.pure _ _) ((Echo.addContainer hc).bind
        (.pure _ _)))
    · obtain ⟨⟨⟩, u, hf, h⟩ := ok_of_bind h
      obtain ⟨⟨⟩, v, ht, h⟩ := ok_of_bind h
      obtain ⟨⟨⟩, w, hi, hc⟩ := ok_of_bind h
      have hadvance := ((regular_int _).advance_ok hi).trans (regular_addContainer.advance_ok hc)
      have hsv (hn : type.isEmpty = false) := hadvance.small (hs hn)
      have hlength : Echo Decode.listLength length v w := by
        refine .fromOffset fun start => (Echo.of_undone (int_undone _) hi).bind ?_
        simp only
        rw [Int32.toInt_ofNat_of_lt (Nat.not_le.mp hl), if_pos (Int.natCast_nonneg _),
          Int.toNat_natCast]
        exact .pure _ _
      refine .form hf ?_
      simp only [Lead.ofByte_toByte (.list (!type.isEmpty) .counted) trivial]
      exact (optionalType_echo ht hsv).bind ((hlength.map some).bind ((Echo.addContainer hc).bind
        (.pure _ _)))

/-- Only a map with a type needs a session that is small. -/
theorem mapBegin_echo {type : String} (h : mapBegin type e = .ok () e')
    (hs : type.isEmpty = false → e'.Small) :
    Echo Decode.mapBegin (if type.isEmpty then none else some type) e e' := by
  obtain ⟨⟨⟩, u, hf, h⟩ := ok_of_bind h
  obtain ⟨⟨⟩, v, ht, hc⟩ := ok_of_bind h
  have hsv (hn : type.isEmpty = false) := (regular_addContainer.advance_ok hc).small (hs hn)
  refine .form hf ?_
  simp only [Lead.ofByte_toByte (.map (!type.isEmpty)) trivial]
  exact (optionalType_echo ht hsv).bind ((Echo.addContainer hc).bind (.pure _ _))

end Encode

end Hessian
