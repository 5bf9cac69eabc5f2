import Hessian.Proofs.Decoder.Yields
import Hessian.Proofs.Grammar.Sound
import Hessian.Proofs.Schema.Extension

/-!
# What errors blame

An error names the octet or the offset that is to blame for it.  Some name the place where the step
stopped, and others go back to where it began: the octet that was refused, the reference that leads
nowhere, the text whose characters were counted, the definition whose fields were to be counted
(`Grammar.Miscounted`).  A predicate of errors is given for each place in the input, and a `Blame`
is one that holds of all these and goes over from later places to earlier ones.

`Decode.Blames` then says of a step that an error of it satisfies the predicate at a place from
which the step is ahead.  It is closed under all that steps are made of and holds of every reader.
-/

namespace Hessian

namespace Decoder

/-- The second session stands in the same input, at the same place or later. -/
def Ahead (s t : Decoder) : Prop :=
  ∃ octets, s.input = octets ++ t.input ∧ t.offset = s.offset + octets.length

theorem Ahead.refl (s : Decoder) : s.Ahead s := ⟨[], rfl, rfl⟩

theorem Ahead.trans {s t u : Decoder} (h : s.Ahead t) (h' : t.Ahead u) : s.Ahead u := by
  obtain ⟨first, hi, ho⟩ := h
  obtain ⟨second, hi', ho'⟩ := h'
  refine ⟨first ++ second, ?_, ?_⟩
  · rw [hi, hi', List.append_assoc]
  · rw [ho', ho, List.length_append, Nat.add_assoc]

end Decoder

namespace Grammar

/-- In the octets is a class definition whose number of fields is negative, and the number stands at
this offset. -/
inductive Miscounted : Bytes → Nat → Prop
  | mk {before title word rest : Bytes} {b : UInt8} {typeName : String} {n : Int32}
      (lead : Lead.definition.covers b) (type : StringForm title typeName)
      (count : IntForm word n) (negative : n.toInt < 0) :
      Miscounted (before ++ b :: (title ++ (word ++ rest))) (before.length + (1 + title.length))

/-- Octets in front put it further back. -/
theorem Miscounted.behind {bytes : Bytes} {k : Nat} (h : Miscounted bytes k) (before : Bytes) :
    Miscounted (before ++ bytes) (before.length + k) := by
  obtain @⟨first, title, word, rest, b, typeName, n, lead, type, count, negative⟩ := h
  rw [← List.append_assoc, ← Nat.add_assoc, ← List.length_append]
  exact .mk lead type count negative

/-- At the offset stands the first octet of an int, which starts no definition. -/
theorem Miscounted.exists_octet {bytes : Bytes} {k : Nat} (h : Miscounted bytes k) :
    ∃ b, bytes[k]? = some b ∧ b ≠ Lead.definition.toByte := by
  obtain @⟨before, title, word, rest, b, typeName, n, -, -, count, -⟩ := h
  have hcount : ∃ c more, word = c :: more ∧ Lead.ofByte c ≠ .definition := by
    cases count with
    | split lead width => exact ⟨_, _, rfl, Lead.ofByte_of_covers lead ▸ nofun⟩
    | word lead width => exact ⟨_, _, rfl, Lead.ofByte_of_covers lead ▸ nofun⟩
  obtain ⟨c, more, rfl, hc⟩ := hcount
  refine ⟨c, ?_, fun heq => hc (heq ▸ rfl)⟩
  have hbytes : before ++ b :: (title ++ (c :: more ++ rest)) =
      (before ++ b :: title) ++ c :: (more ++ rest) := by
    simp only [List.append_assoc, List.cons_append]
  have hk : before.length + (1 + title.length) = (before ++ b :: title).length := by
    rw [List.length_append, List.length_cons, Nat.add_comm 1]
  rw [hbytes, hk, List.getElem?_append_right (Nat.le_refl _), Nat.sub_self]
  rfl

end Grammar

open Grammar

/-- What is said of an error at a place in the input, wherever steps fail. -/
structure Blame (P : Decoder → Error → Prop) : Prop where
  /-- What is said at a later place is said at an earlier one. -/
  ahead : ∀ {s t e}, s.Ahead t → P t e → P s e
  placeless : ∀ {s e}, e.offset? = none → P s e
  notEnoughBuffer : ∀ {s : Decoder} {k}, k ≤ s.input.length → P s (.notEnoughBuffer (s.offset + k))
  invalidUtf8 : ∀ {s : Decoder} {k}, k ≤ s.input.length → P s (.invalidUtf8 (s.offset + k))
  unexpected : ∀ {s : Decoder} {code rest}, s.input = code :: rest →
    P s (.unexpectedType code s.offset)
  /-- A class definition with a negative number of fields is blamed at the number. -/
  fieldCount : ∀ {s : Decoder} {k}, Miscounted s.input k →
    P s (.unexpectedType Lead.definition.toByte (s.offset + k))
  reference : ∀ {s : Decoder} {kind index}, P s (.invalidReference kind index s.offset)

namespace Decode

variable {α β : Type} {P : Decoder → Error → Prop}

/-- Run at the place or ahead of it, the step stays ahead of it, and of an error is said there what
has to be. -/
structure Blames (P : Decoder → Error → Prop) (place : Decoder) (step : Decode α) : Prop where
  ok : ∀ {s a t}, place.Ahead s → step s = .ok a t → place.Ahead t
  error : ∀ {s e t}, place.Ahead s → step s = .error e t → P place e

namespace Blames

variable {place : Decoder} {step : Decode α}

/-- A run of the step from one session. -/
theorem run (h : Blames P place step) {s : Decoder} (hs : place.Ahead s) :
    (∀ a t, step s = .ok a t → place.Ahead t) ∧ ∀ e t, step s = .error e t → P place e :=
  ⟨fun _ _ hok => h.ok hs hok, fun _ _ herr => h.error hs herr⟩

/-! ## Steps one after another -/

protected theorem pure (a : α) : Blames P place (pure a : Decode α) where
  ok hs h := by
    cases h
    exact hs
  error _ h := nomatch h

protected theorem throw {e : Error} (he : P place e) : Blames P place (throw e : Decode α) where
  ok _ h := nomatch h
  error _ h := by
    cases h
    exact he

protected theorem bind {x : Decode α} {f : α → Decode β} (hx : Blames P place x)
    (hf : ∀ a, Blames P place (f a)) : Blames P place (x >>= f) where
  ok {s b u} hs h := by
    obtain ⟨a, t, ha, hb⟩ := ok_of_bind h
    exact (hf a).ok (hx.ok hs ha) hb
  error {s e u} hs h := by
    cases hxs : x s with
    | ok a t =>
      rw [bind_ok hxs] at h
      exact (hf a).error (hx.ok hs hxs) h
    | error e' t =>
      rw [bind_error hxs] at h
      cases h
      exact hx.error hs hxs

protected theorem map (f : α → β) (h : Blames P place step) : Blames P place (f <$> step) := by
  rw [map_eq_pure_bind]
  exact h.bind fun a => .pure (f a)

/-- A step is looked at from where it runs. -/
theorem of_forall (hP : Blame P) (h : ∀ s, ∃ r, Blames P s r ∧ step s = r s) :
    Blames P place step where
  ok {s a t} hs hok := by
    obtain ⟨r, hr, heq⟩ := h s
    exact hs.trans (hr.ok (.refl s) (heq ▸ hok))
  error {s e t} hs herr := by
    obtain ⟨r, hr, heq⟩ := h s
    exact hP.ahead hs (hr.error (.refl s) (heq ▸ herr))

/-- A regular step is ahead of where it began. -/
theorem of_regular (hP : Blame P) (h : Regular step) (he : ∀ s e t, step s = .error e t → P s e) :
    Blames P place step where
  ok hs hok := hs.trans (h.advance_ok hok).read
  error hs herr := hP.ahead hs (he _ _ _ herr)

end Blames

section Steps

variable (hP : Blame P) {place : Decoder}
include hP

/-! ## The cursor -/

/-- What is done with the offset is looked at from there. -/
theorem blames_fromOffset {f : Nat → Decode α} (h : ∀ s : Decoder, Blames P s (f s.offset)) :
    Blames P place (offset >>= f) :=
  .of_forall hP fun s => ⟨f s.offset, h s, rfl⟩

theorem blames_peek : Blames P place peek := by
  refine .of_regular hP regular_peek fun s e t h => ?_
  unfold peek at h
  split at h
  · cases h
    exact hP.notEnoughBuffer (Nat.zero_le _)
  · cases h

/-- An octet may be refused, or something else is done where it has been taken. -/
theorem blames_octet_of {f : UInt8 → Decode α}
    (h : ∀ {s u code}, place.Ahead s → octet s = .ok code u → f code = unexpected code ∨
      (∀ a t, f code u = .ok a t → place.Ahead t) ∧ ∀ e t, f code u = .error e t → P place e) :
    Blames P place (octet >>= f) where
  ok {s a t} hs hok := by
    obtain ⟨code, u, hu, hf⟩ := ok_of_bind hok
    rcases h hs hu with he | hb
    · rw [he] at hf
      cases hf
    · exact hb.1 a t hf
  error {s e t} hs herr := by
    cases hi : s.input with
    | nil =>
      rw [bind_error (hungry_octet s hi)] at herr
      cases herr
      exact hP.ahead hs (hP.notEnoughBuffer (Nat.zero_le _))
    | cons code rest =>
      have hu := octet_of_input hi
      rw [bind_ok hu] at herr
      rcases h hs hu with he | hb
      · rw [he] at herr
        cases herr
        exact hP.ahead hs (hP.unexpected hi)
      · exact hb.2 e t herr

/-- An octet may be refused, or something else is done after it. -/
theorem blames_octet {f : UInt8 → Decode α}
    (h : ∀ code, f code = unexpected code ∨ Blames P place (f code)) :
    Blames P place (octet >>= f) := by
  refine blames_octet_of hP fun {s u code} hs hu => (h code).imp_right fun hb => ?_
  exact hb.run (hs.trans (regular_octet.advance_ok hu).read)

theorem blames_octets (n : Nat) : Blames P place (octets n) := by
  refine .of_regular hP (regular_octets n) fun s e t h => ?_
  unfold octets at h
  split at h
  · cases h
  · cases h
    exact hP.notEnoughBuffer (Nat.zero_le _)

theorem blames_word (width : Nat) : Blames P place (word width) := (blames_octets hP width).map _

omit hP in
theorem blames_nextIs (b : UInt8) {f : Bool → Decode α} (h : ∀ found, Blames P place (f found)) :
    Blames P place (nextIs b >>= f) where
  ok {s _ _} hs hok := (h (s.input.head? == some b)).ok hs hok
  error {s _ _} hs herr := (h (s.input.head? == some b)).error hs herr

/-! ## Tables -/

theorem blames_addType (name : String) : Blames P place (addType name) :=
  .of_regular hP (regular_addType name) fun _ _ _ h => nomatch h

theorem blames_addDefinition (c : Definition) : Blames P place (addDefinition c) :=
  .of_regular hP (regular_addDefinition c) fun _ _ _ h => nomatch h

theorem blames_addContainer : Blames P place addContainer :=
  .of_regular hP regular_addContainer fun _ _ _ h => nomatch h

theorem blames_started : Blames P place started :=
  .of_regular hP regular_started fun _ _ _ h => nomatch h

/-- A reference that leads nowhere is blamed where it began. -/
theorem blames_lookup (kind : RefKind) (table : Decoder → List α) (index : Int) :
    Blames P place (lookup kind table index place.offset) where
  ok {s a t} hs h := by
    unfold lookup at h
    split at h
    · cases h
      exact hs
    · cases h
  error {s e t} _ h := by
    unfold lookup at h
    split at h
    · cases h
    · cases h
      exact hP.reference

/-! ## Nesting and repetition -/

theorem Blames.nested {step : Decode α} (h : Blames P place step) :
    Blames P place (nested step) where
  ok {s a t} hs hok := by
    obtain ⟨-, t, ht, rfl⟩ := ok_of_nested hok
    have ht : place.Ahead t := h.ok (s := s.enter) hs ht
    exact ht
  error {s e t} hs herr := by
    by_cases hle : s.maxDepth ≤ s.depth
    · rw [nested_of_le hle] at herr
      cases herr
      exact hP.placeless rfl
    · cases hstep : step s.enter with
      | ok a u =>
        rw [nested_ok (Nat.not_le.mp hle) hstep] at herr
        cases herr
      | error e' u =>
        rw [nested_error (Nat.not_le.mp hle) hstep] at herr
        cases herr
        exact h.error (s := s.enter) hs hstep

omit hP in
theorem Blames.times {step : Decode α} (h : Blames P place step) (count : Nat) :
    Blames P place (times count step) := by
  induction count with
  | zero => exact .pure []
  | succ count ih =>
    rw [times_succ]
    exact h.bind fun a => ih.bind fun rest => .pure _

theorem Blames.roundsFrom {round : Decode (α ⊕ β)} (h : Blames P place round) (found : List α)
    (fuel : Nat) : Blames P place (roundsFrom round found fuel) := by
  induction fuel generalizing found with
  | zero => exact blames_octet hP fun code => .inl rfl
  | succ fuel ih =>
    refine h.bind fun r => ?_
    cases r with
    | inl a => exact ih (a :: found)
    | inr b => exact .pure _

theorem Blames.rounds {round : Decode (α ⊕ β)} (h : ∀ s, Blames P s round) :
    Blames P place (rounds round) :=
  .of_forall hP fun s => ⟨_, (h s).roundsFrom hP [] s.input.length, rfl⟩

theorem blames_terminator : Blames P place terminator := by
  refine (blames_peek hP).bind fun code => ?_
  split
  · exact blames_octet hP fun _ => .inr (.pure true)
  · exact .pure false

theorem Blames.untilTerminator {step : Decode α} (h : ∀ s, Blames P s step) :
    Blames P place (untilTerminator step) := by
  refine .map _ (Blames.rounds hP fun s => (blames_terminator hP).bind fun done => ?_)
  split
  · exact .pure _
  · exact (h s).bind fun a => .pure _

theorem Blames.chunks {chunk : Decode (Bool × List α)} (h : ∀ s, Blames P s chunk) :
    Blames P place (chunks chunk) :=
  (Blames.rounds hP fun s => (h s).bind fun _ => .pure _).bind fun _ => .pure _

/-! ## Scalars and strings -/

theorem blames_null : Blames P place null := by
  refine blames_octet hP fun code => ?_
  split
  · exact .inr (.pure _)
  · exact .inl rfl

theorem blames_boolean : Blames P place boolean := by
  refine blames_octet hP fun code => ?_
  split
  · exact .inr (.pure _)
  · exact .inl rfl

theorem blames_int : Blames P place int := by
  refine blames_octet hP fun code => ?_
  split
  · exact .inr ((blames_word hP _).bind fun _ => .pure _)
  · exact .inr ((blames_word hP 4).bind fun _ => .pure _)
  · exact .inl rfl

theorem blames_long : Blames P place long := by
  refine blames_octet hP fun code => ?_
  split
  · exact .inr ((blames_word hP _).bind fun _ => .pure _)
  · exact .inr ((blames_word hP 4).bind fun _ => .pure _)
  · exact .inr ((blames_word hP 8).bind fun _ => .pure _)
  · exact .inl rfl

theorem blames_double : Blames P place double := by
  refine blames_octet hP fun code => ?_
  split
  · exact .inr (.pure _)
  · exact .inr (.pure _)
  · exact .inr ((blames_word hP 1).bind fun _ => .pure _)
  · exact .inr ((blames_word hP 2).bind fun _ => .pure _)
  · exact .inr ((blames_word hP 4).bind fun _ => .pure _)
  · exact .inr ((blames_word hP 8).bind fun _ => .pure _)
  · exact .inl rfl

theorem blames_date : Blames P place date := by
  refine blames_octet hP fun code => ?_
  split
  · exact .inr ((blames_word hP 8).bind fun _ => .pure _)
  · exact .inr ((blames_word hP 4).bind fun _ => .pure _)
  · exact .inl rfl

theorem blames_binaryChunk : Blames P place binaryChunk := by
  refine blames_octet hP fun code => ?_
  split
  · exact .inr ((blames_word hP _).bind fun _ => (blames_octets hP _).bind fun _ => .pure _)
  · exact .inl rfl

theorem blames_binary : Blames P place binary := .chunks hP fun _ => blames_binaryChunk hP

/-- The reference as a whole is blamed for its index. -/
theorem blames_ref : Blames P place ref := by
  refine blames_fromOffset hP fun s => blames_octet hP fun code => ?_
  split
  · refine .inr ((blames_int hP).bind fun index => (blames_started hP).bind fun started => ?_)
    split
    · exact .pure _
    · exact .throw hP.reference
  · exact .inl rfl

/-- Characters are counted, and blamed, from the first one of the chunk. -/
theorem blames_characters (count : Nat) : Blames P place (characters count) := by
  refine .of_regular hP (regular_characters count) fun s e t h => ?_
  obtain ⟨-, hrest, hsize, -⟩ := Text.scan_spec count s.input
  have hle : (Text.scan count s.input).size ≤ s.input.length := by
    have hlength := congrArg List.length hrest
    rw [List.length_append] at hlength
    omega
  unfold characters at h
  simp only at h
  split at h <;> cases h
  · exact hP.notEnoughBuffer hle
  · exact hP.notEnoughBuffer hle
  · exact hP.invalidUtf8 hle

theorem blames_textChunk : Blames P place textChunk := by
  refine blames_octet hP fun code => ?_
  split
  · exact .inr ((blames_word hP _).bind fun _ => (blames_characters hP _).bind fun _ => .pure _)
  · exact .inl rfl

theorem blames_text : Blames P place text := .chunks hP fun _ => blames_textChunk hP

theorem blames_rawString : Blames P place rawString := (blames_text hP).map _

theorem blames_string : Blames P place string := (blames_text hP).map _

/-! ## Containers -/

theorem blames_typeName : Blames P place typeName := by
  refine blames_fromOffset hP fun s => (blames_peek hP).bind fun code => ?_
  split
  · exact (blames_string hP).bind fun name => (blames_addType hP name).bind fun _ => .pure _
  · exact (blames_int hP).bind fun index => blames_lookup hP _ _ _

theorem blames_optionalType (typed : Bool) : Blames P place (optionalType typed) := by
  unfold optionalType
  split
  · exact (blames_typeName hP).map some
  · exact .pure none

theorem blames_listLength : Blames P place listLength := by
  refine blames_fromOffset hP fun s => (blames_int hP).bind fun length => ?_
  dsimp only
  split
  · exact .pure _
  · exact .throw (hP.placeless rfl)

theorem blames_listBegin : Blames P place listBegin := by
  refine blames_octet hP fun code => ?_
  split
  · refine .inr ((blames_optionalType hP _).bind fun type => ?_)
    have hend : ∀ length, Blames P place
        (addContainer >>= fun _ => pure (⟨type, length⟩ : ListHeader)) :=
      fun length => (blames_addContainer hP).bind fun _ => .pure _
    split
    · exact (Blames.pure none).bind hend
    · exact ((blames_listLength hP).map some).bind hend
    · exact (Blames.pure _).bind hend
  · exact .inl rfl

theorem Blames.listOf {item : Decode α} (h : ∀ s, Blames P s item) :
    Blames P place (listOf item) := by
  refine (blames_listBegin hP).bind fun header => Blames.bind (.nested hP ?_) fun _ => .pure _
  split
  · exact (h place).times _
  · exact .untilTerminator hP h

theorem blames_mapBegin : Blames P place mapBegin := by
  refine blames_octet hP fun code => ?_
  split
  · exact .inr ((blames_optionalType hP _).bind fun type =>
      (blames_addContainer hP).bind fun _ => .pure _)
  · exact .inl rfl

theorem Blames.mapOf {key : Decode α} {value : Decode β} (hk : ∀ s, Blames P s key)
    (hv : ∀ s, Blames P s value) : Blames P place (mapOf key value) :=
  (blames_mapBegin hP).bind fun _ => Blames.bind
    (.nested hP (.untilTerminator hP fun s => (hk s).bind fun _ => (hv s).bind fun _ => .pure _))
    fun _ => .pure _

/-- What is wrong with a class definition is blamed from its lead byte on. -/
theorem error_of_definitionBody {s u t : Decoder} {code : UInt8} {e : Error}
    (hs : octet s = .ok code u) (hl : Lead.ofByte code = .definition)
    (h : definitionBody u = .error e t) : P s e := by
  obtain ⟨_, hlead, rfl, -⟩ := finds_octet s code u hs rfl
  have hu : s.Ahead u := (regular_octet.advance_ok hs).read
  cases hname : string u with
  | error e' v =>
    rw [definitionBody, bind_error hname] at h
    cases h
    exact (blames_string hP).error hu hname
  | ok typeName v =>
    have hv : s.Ahead v := (blames_string hP).ok hu hname
    have hbody : definitionBody u = (int >>= fun count => if count.toInt < 0 then
        throw (.unexpectedType Lead.definition.toByte v.offset) else do
          let fieldNames ← times count.toInt.toNat string
          addDefinition ⟨typeName, fieldNames⟩
          return ⟨typeName, fieldNames⟩) v := by
      rw [definitionBody, bind_ok hname]
      rfl
    rw [hbody] at h
    cases hcount : int v with
    | error e' w =>
      rw [bind_error hcount] at h
      cases h
      exact (blames_int hP).error hv hcount
    | ok n w =>
      rw [bind_ok hcount] at h
      split at h
      · next hn =>
        cases h
        obtain ⟨title, htitle, type, -⟩ := finds_string u typeName v hname rfl
        obtain ⟨word, hword, count, -⟩ := finds_int v n t hcount rfl
        have hinput : s.input = [] ++ code :: (title ++ (word ++ t.input)) := by
          rw [← hword.input, ← htitle.input]
          exact hlead.input
        have hoffset : v.offset = s.offset + (0 + (1 + title.length)) := by
          rw [(hlead.trans htitle).moved, Nat.zero_add, Nat.add_comm 1]
          rfl
        rw [hoffset]
        exact hP.fieldCount (hinput ▸ .mk (Lead.covers_of_ofByte hl nofun) type count hn)
      · have hfields : Blames P s (do
            let fieldNames ← times n.toInt.toNat string
            addDefinition ⟨typeName, fieldNames⟩
            return (⟨typeName, fieldNames⟩ : Definition)) :=
          ((blames_string hP).times _).bind fun _ => (blames_addDefinition hP _).bind fun _ =>
            .pure _
        exact hfields.error ((blames_int hP).ok hv hcount) h

/-- Behind an octet there may be the rest of a class definition. -/
theorem blames_octet_definition {f : UInt8 → Decode α} (g : Definition → α)
    (hd : ∀ code, Lead.ofByte code = .definition → f code = g <$> definitionBody)
    (h : ∀ code, Lead.ofByte code ≠ .definition →
      f code = unexpected code ∨ Blames P place (f code)) :
    Blames P place (octet >>= f) := by
  refine blames_octet_of hP fun {s u code} hs hu => ?_
  have hahead := hs.trans (regular_octet.advance_ok hu).read
  by_cases hl : Lead.ofByte code = .definition
  · refine .inr ?_
    rw [hd code hl, map_eq_pure_bind]
    refine ⟨fun a t hok => ?_, fun e t herr => hP.ahead hs ?_⟩
    · have hbody := reader_definitionBody.toRegular.bind fun c => regular_pure (g c)
      exact hahead.trans (hbody.advance_ok hok).read
    · cases hbody : definitionBody u with
      | ok c v =>
        rw [bind_ok hbody] at herr
        cases herr
      | error e' v =>
        rw [bind_error hbody] at herr
        cases herr
        exact error_of_definitionBody hP hu hl hbody
  · exact (h code hl).imp_right fun hb => hb.run hahead

theorem blames_definition : Blames P place definition := by
  refine blames_octet_definition hP id (fun code hl => ?_) fun code hl => ?_
  · simp only [hl, id_map]
  · split
    · next h => exact absurd h hl
    · exact .inl rfl

theorem blames_objectRound : Blames P place objectRound := by
  refine blames_fromOffset hP fun s => blames_octet_definition hP Sum.inl (fun code hl => ?_)
    fun code hl => ?_
  · simp only [hl]
  have hinstance : ∀ index : Int, Blames P s (do
      let c ← lookup .definition Decoder.definitions index s.offset
      addContainer
      return (.inr c : Definition ⊕ Definition)) :=
    fun index => (blames_lookup hP _ _ _).bind fun _ => (blames_addContainer hP).bind fun _ =>
      .pure _
  split
  · next h => exact absurd h hl
  · exact .inr ((blames_int hP).bind fun index => hinstance _)
  · exact .inr (hinstance _)
  · exact .inl rfl

theorem blames_objectBegin : Blames P place objectBegin :=
  (Blames.rounds hP fun _ => blames_objectRound hP).map _

/-! ## Values -/

theorem blames_tooDeep : Blames P place (tooDeep : Decode α) :=
  .of_regular hP regular_tooDeep fun _ _ _ h => by
    cases h
    exact hP.placeless rfl

theorem blames_valueOf {inner : Decode Value} (h : ∀ s, Blames P s inner) (lead : Lead) :
    Blames P place (valueOf inner lead) := by
  have hobject : Blames P place (objectBegin >>= fun c => do
      let fields ← Decode.nested (Decode.times c.fieldNames.length inner)
      return Value.object c fields) :=
    (blames_objectBegin hP).bind fun c => Blames.bind (.nested hP ((h place).times _)) fun _ =>
      .pure _
  have hrefused : Blames P place (octet >>= fun code => (unexpected code : Decode Value)) :=
    blames_octet hP fun _ => .inl rfl
  cases lead with
  | null => exact (blames_null hP).bind fun _ => .pure _
  | boolean b => exact (blames_boolean hP).map _
  | int tail high => exact (blames_int hP).map _
  | intWord => exact (blames_int hP).map _
  | long tail high => exact (blames_long hP).map _
  | longInt => exact (blames_long hP).map _
  | longWord => exact (blames_long hP).map _
  | doubleZero => exact (blames_double hP).map _
  | doubleOne => exact (blames_double hP).map _
  | doubleByte => exact (blames_double hP).map _
  | doubleShort => exact (blames_double hP).map _
  | doubleMilli => exact (blames_double hP).map _
  | doubleWord => exact (blames_double hP).map _
  | dateMillis => exact (blames_date hP).map _
  | dateMinutes => exact (blames_date hP).map _
  | binary isFinal tail high => exact (blames_binary hP).map _
  | string isFinal tail high => exact (blames_string hP).map _
  | list typed length => exact (Blames.listOf hP h).bind fun _ => .pure _
  | map typed => exact (Blames.mapOf hP h h).bind fun _ => .pure _
  | definition => exact hobject
  | object => exact hobject
  | objectShort index => exact hobject
  | ref => exact (blames_ref hP).map _
  | terminator => exact hrefused
  | unassigned => exact hrefused

theorem blames_valueWithin (levels : Nat) : Blames P place (valueWithin levels) := by
  induction levels generalizing place with
  | zero =>
    exact (blames_peek hP).bind fun _ => blames_valueOf hP (fun _ => blames_tooDeep hP) _
  | succ levels ih => exact (blames_peek hP).bind fun _ => blames_valueOf hP (fun _ => ih) _

theorem blames_value : Blames P place value :=
  .of_forall hP fun _ => ⟨_, blames_valueWithin hP _, rfl⟩

theorem blames_skip : Blames P place skip := (blames_value hP).bind fun _ => .pure _

/-! ## The parts of shapes -/

theorem blames_intIn (range : IntRange) : Blames P place (intIn range) := by
  refine (blames_int hP).bind fun n => ?_
  split
  · exact .pure n
  · exact .throw (hP.placeless rfl)

theorem blames_longIn (range : LongRange) : Blames P place (longIn range) := by
  refine (blames_long hP).bind fun n => ?_
  split
  · exact .pure n
  · exact .throw (hP.placeless rfl)

theorem blames_instant (clock : Clock) : Blames P place (instant clock) := by
  refine (blames_date hP).bind fun millis => ?_
  split
  · exact .pure _
  · exact .throw (hP.placeless rfl)

theorem blames_decimalFields (found : Option String) (names : List String) :
    Blames P place (decimalFields found names) := by
  induction names generalizing found with
  | nil => exact .pure found
  | cons name names ih =>
    unfold decimalFields
    split
    · exact (blames_string hP).bind fun text => ih (some text)
    · exact (blames_skip hP).bind fun _ => ih found

theorem blames_decimal : Blames P place decimal := by
  refine Blames.bind ((blames_peek hP).bind fun code => ?_) fun text => ?_
  · split
    · exact blames_string hP
    · refine (blames_objectBegin hP).bind fun c => (blames_decimalFields hP _ _).bind fun text => ?_
      split
      · exact .pure _
      · exact .throw (hP.placeless rfl)
  · split
    · exact .pure _
    · exact .throw (hP.placeless rfl)

theorem blames_key (mapping : Mapping) : Blames P place (key mapping) := by
  cases mapping with
  | sortedText => exact (blames_string hP).map _
  | sortedLong => exact (blames_long hP).map _
  | text => exact (blames_string hP).map _
  | value => exact (blames_value hP).map _

theorem blames_json : Blames P place json := by
  refine (blames_value hP).bind fun v => ?_
  split
  · exact .pure _
  · exact .throw (hP.placeless rfl)

omit hP in
/-- Recording an error does not change it. -/
theorem Blames.recording {step : Decode α} (h : Blames P place step) :
    Blames P place (recording step) where
  ok {s a t} hs hok := by
    unfold Decode.recording at hok
    cases hstep : step s with
    | ok b u =>
      rw [hstep] at hok
      cases hok
      exact h.ok hs hstep
    | error e u =>
      rw [hstep] at hok
      cases hok
  error {s e t} hs herr := by
    unfold Decode.recording at herr
    cases hstep : step s with
    | ok b u =>
      rw [hstep] at herr
      cases herr
    | error e u =>
      rw [hstep] at herr
      cases herr
      exact h.error hs hstep

end Steps

end Decode

/-! ## Shapes -/

section Shapes

open Decode

variable {ι : Type} {P : Decoder → Error → Prop} (hP : Blame P) {place : Decoder}
include hP

theorem Record.blames_readFields (r : Record ι) {read : Shape ι → Decode (Datum ι)}
    (h : ∀ shape, Blames P place (read shape)) (found : List (String × Datum ι))
    (names : List String) : Blames P place (r.readFields read found names) := by
  induction names generalizing found with
  | nil => exact .pure found
  | cons name names ih =>
    unfold readFields
    split
    · exact (h _).bind fun d => ih _
    · exact (blames_skip hP).bind fun _ => ih found

omit hP in
/-- A field that is missing is not blamed on any place. -/
theorem Record.offset?_of_settle (r : Record ι) {found : List (String × Datum ι)}
    {fields : List (Field ι)} {e : Error} (h : fields.mapM (r.settle found) = .error e) :
    e.offset? = none := by
  induction fields with
  | nil => cases h
  | cons f fields ih =>
    rw [List.mapM_cons] at h
    cases hf : r.settle found f with
    | error e' =>
      rw [hf] at h
      cases h
      unfold settle at hf
      split at hf
      · cases hf
      · cases hf
      · split at hf <;> cases hf
        rfl
    | ok d =>
      rw [hf] at h
      cases hfs : fields.mapM (r.settle found) with
      | error e' =>
        rw [hfs] at h
        cases h
        exact ih hfs
      | ok ds =>
        rw [hfs] at h
        cases h

theorem Record.blames_readWith (r : Record ι) {read : Shape ι → Decode (Datum ι)}
    (h : ∀ shape, Blames P place (read shape)) : Blames P place (r.readWith read) := by
  refine (blames_objectBegin hP).bind fun c =>
    Blames.bind (.nested hP (r.blames_readFields hP h _ _)) fun found => ?_
  split
  · exact .pure _
  · next e he => exact .throw (hP.placeless (r.offset?_of_settle he))

namespace Shape

variable (Γ : Schema ι)

theorem blames_readWith {inner : Shape ι → Decode (Datum ι)}
    (h : ∀ shape s, Blames P s (inner shape)) (shape : Shape ι) :
    Blames P place (readWith Γ inner shape) := by
  induction shape with
  | boolean => exact (blames_boolean hP).map _
  | int range => exact (blames_intIn hP range).map _
  | long range => exact (blames_longIn hP range).map _
  | double => exact (blames_double hP).map _
  | single => exact (blames_double hP).map _
  | text => exact (blames_string hP).map _
  | bytes => exact (blames_binary hP).map _
  | option shape ih =>
    refine blames_nextIs _ fun isNull => ?_
    split
    · exact (blames_null hP).bind fun _ => .pure _
    · exact ih.map _
  | list item => exact (Blames.listOf hP (h item)).bind fun _ => .pure _
  | map mapping item =>
    exact (Blames.mapOf hP (fun _ => blames_key hP mapping) (h item)).bind fun _ => .pure _
  | date unit => exact (blames_date hP).map _
  | instant clock => exact (blames_instant hP clock).map _
  | decimal => exact (blames_decimal hP).map _
  | value => exact (blames_value hP).map _
  | definition => exact (blames_definition hP).map _
  | json => exact (blames_json hP).map _
  | record name => exact ((Γ name).blames_readWith hP fun shape => h shape place).map _

theorem blames_readWithin (levels : Nat) (shape : Shape ι) :
    Blames P place (readWithin Γ levels shape) := by
  induction levels generalizing shape place with
  | zero => exact blames_readWith hP Γ (fun _ _ => blames_tooDeep hP) shape
  | succ levels ih => exact blames_readWith hP Γ (fun shape _ => ih shape) shape

/-- Whatever a shape says, what goes wrong is blamed as it should be. -/
theorem blames_read (shape : Shape ι) : Blames P place (shape.read Γ) :=
  .of_forall hP fun _ => ⟨_, blames_readWithin hP Γ _ shape, rfl⟩

end Shape

end Shapes

end Hessian
