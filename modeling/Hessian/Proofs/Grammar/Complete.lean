import Hessian.Proofs.Decoder.Reads
import Hessian.Proofs.Grammar.Sound

/-!
# The grammar is read

`Decode.ReadsIn n tb step bytes a tb'` says what the step does with the octets, whatever follows
them, in every session whose tables are `tb`.  If `n` more levels are allowed, it takes exactly
these octets, gives `a`, and leaves the tables `tb'`.  If they are not, it fails for that reason and
no other.

A derivation of the grammar is read so, with its own levels (`Decode.readsPhrase_of_derives`, by
induction on the derivation).  Together with what is found by a success this makes the grammar the
language of the reader (`Decode.value_ok_iff_derives`), and the same octets are never derived in two
ways (`Grammar.Derives.unique`).
-/

namespace Hessian

open Grammar

namespace Decode

variable {α β : Type} {n m : Nat} {tb tb' tb'' : Tables} {bytes more : Bytes} {a : α} {b : β}

/-- The step takes exactly these octets where so many levels are allowed, and fails where they are
not. -/
def ReadsIn (n : Nat) (tb : Tables) (step : Decode α) (bytes : Bytes) (a : α) (tb' : Tables) :
    Prop :=
  ∀ (s : Decoder) (rest : Bytes), s.tables = tb → s.input = bytes ++ rest →
    (n ≤ s.levels → step s = .ok a (s.moved rest bytes.length tb')) ∧
      (s.levels < n → ∃ t, step s = .error (.depthLimitExceeded s.maxDepth) t)

section Closure

variable {x : Decode α} {f : α → Decode β}

/-- A step that needs no levels. -/
theorem ReadsIn.of_ok (h : ∀ (s : Decoder) (rest : Bytes), s.tables = tb → s.input = bytes ++ rest →
    x s = .ok a (s.moved rest bytes.length tb')) : ReadsIn 0 tb x bytes a tb' :=
  fun s rest ht hi => ⟨fun _ => h s rest ht hi, fun hl => absurd hl (Nat.not_lt_zero _)⟩

/-- A step that needs no levels succeeds. -/
theorem ReadsIn.ok (h : ReadsIn 0 tb x bytes a tb') {s : Decoder} {rest : Bytes}
    (ht : s.tables = tb) (hi : s.input = bytes ++ rest) :
    x s = .ok a (s.moved rest bytes.length tb') :=
  (h s rest ht hi).1 (Nat.zero_le _)

/-- A step that takes octets and does nothing else leaves the tables as they are. -/
theorem Reads.readsIn (h : Reads x bytes a) : ReadsIn 0 tb x bytes a tb :=
  .of_ok fun s rest ht hi => by
    subst ht
    exact h s rest hi

/-- What is read wherever it stands has the form that the reader finds. -/
theorem Reads.form {F : Bytes → α → Prop} (h : Reads x bytes a) (hf : Finds 0 (Keeping F) x) :
    F bytes a := by
  let s : Decoder := { input := bytes, maxDepth := 0 }
  have hread : x s = .ok a (s.past [] bytes.length) := h s [] (List.append_nil _).symm
  obtain ⟨taken, hpasses, hform, -⟩ := hf s a _ hread rfl
  have htaken : bytes = taken := hpasses.input.trans (List.append_nil taken)
  rwa [htaken]

/-- The octets of two steps stand one after another. -/
theorem ReadsIn.bind (hx : ReadsIn n tb x bytes a tb') (hf : ReadsIn m tb' (f a) more b tb'') :
    ReadsIn (max n m) tb (x >>= f) (bytes ++ more) b tb'' := by
  intro s rest ht hi
  rw [List.append_assoc] at hi
  obtain ⟨hok, herror⟩ := hx s _ ht hi
  obtain ⟨hok', herror'⟩ := hf (s.moved (more ++ rest) bytes.length tb') rest rfl rfl
  constructor
  · intro hl
    obtain ⟨hn, hm⟩ := Nat.max_le.mp hl
    rw [bind_ok (hok hn), hok' hm, Decoder.moved_moved, List.length_append]
  · intro hl
    by_cases hn : n ≤ s.levels
    · rw [bind_ok (hok hn)]
      exact herror' (by rw [Decoder.levels_moved]; omega)
    · obtain ⟨t, hs⟩ := herror (Nat.not_le.mp hn)
      exact ⟨t, bind_error hs⟩

/-- What follows a step that needs no levels. -/
theorem ReadsIn.andThen (hx : ReadsIn 0 tb x bytes a tb') (hf : ReadsIn n tb' (f a) more b tb'') :
    ReadsIn n tb (x >>= f) (bytes ++ more) b tb'' :=
  Nat.zero_max n ▸ hx.bind hf

/-- What follows may take no octets. -/
theorem ReadsIn.andThen_nil (hx : ReadsIn 0 tb x bytes a tb') (hf : ReadsIn n tb' (f a) [] b tb'') :
    ReadsIn n tb (x >>= f) bytes b tb'' :=
  List.append_nil bytes ▸ hx.andThen hf

/-- Octets after which a step only answers. -/
theorem ReadsIn.answer (hx : ReadsIn n tb x bytes a tb') (g : α → β) :
    ReadsIn n tb (x >>= fun a => pure (g a)) bytes (g a) tb' := by
  have h : ReadsIn (max n 0) tb (x >>= fun a => pure (g a)) (bytes ++ []) (g a) tb' :=
    hx.bind (reads_pure (g a)).readsIn
  rwa [Nat.max_zero, List.append_nil] at h

theorem ReadsIn.map (hx : ReadsIn n tb x bytes a tb') (g : α → β) :
    ReadsIn n tb (g <$> x) bytes (g a) tb' := by
  rw [map_eq_pure_bind]
  exact hx.answer g

/-- To look at the cursor takes nothing. -/
theorem ReadsIn.fromOffset {f : Nat → Decode β} (h : ∀ start, ReadsIn n tb (f start) bytes b tb') :
    ReadsIn n tb (offset >>= f) bytes b tb' :=
  fun s => h s.offset s

/-- After its lead byte a form is read by what is left of the step. -/
theorem ReadsIn.lead {f : UInt8 → Decode β} {code : UInt8} (h : ReadsIn n tb (f code) bytes b tb') :
    ReadsIn n tb (octet >>= f) (code :: bytes) b tb' :=
  (reads_octet code).readsIn.andThen h

/-- What runs one level deeper needs one level more. -/
theorem ReadsIn.nested (hx : ReadsIn n tb x bytes a tb') :
    ReadsIn (n + 1) tb (nested x) bytes a tb' := by
  intro s rest ht hi
  have hlevels : s.enter.levels = s.levels - 1 := Nat.sub_succ _ _
  obtain ⟨hok, herror⟩ := hx s.enter rest ht hi
  by_cases hd : s.maxDepth ≤ s.depth
  · have hl : s.levels = 0 := Nat.sub_eq_zero_of_le hd
    exact ⟨fun hle => by omega, fun _ => ⟨s, nested_of_le hd⟩⟩
  · have hd := Nat.not_le.mp hd
    have hl : 0 < s.levels := Nat.sub_pos_of_lt hd
    constructor
    · intro hle
      rw [nested_ok hd (hok (by omega))]
      rfl
    · intro hlt
      obtain ⟨t, hs⟩ := herror (by omega)
      exact ⟨t.leave, nested_error hd hs⟩

/-- A step opens with the first of the octets that it takes. -/
theorem ReadsIn.opens {P : Lead → Prop} (ho : Opens P x) (hx : ReadsIn n tb x bytes a tb') :
    ∃ code rest, bytes = code :: rest ∧ P (Lead.ofByte code) := by
  let s : Decoder := Decoder.moved { input := [], maxDepth := n } bytes 0 tb
  exact ho s a _ ((hx s [] rfl (List.append_nil _).symm).1 (Nat.le_refl n))

end Closure

/-! ## Scalars -/

theorem reads_bytes {word : Bytes} {width : Nat} (h : word.length = width) :
    Reads (Decode.word width) word word.toNat := by
  subst h
  exact (reads_octets word).map Bytes.toNat

theorem reads_null {b : UInt8} (h : Lead.null.covers b) : Reads null [b] () := by
  have hl := Lead.ofByte_of_covers h
  refine .lead ?_
  simp only [hl]
  exact reads_pure ()

theorem reads_boolean {b : UInt8} {x : Bool} (h : (Lead.boolean x).covers b) :
    Reads boolean [b] x := by
  have hl := Lead.ofByte_of_covers h
  refine .lead ?_
  simp only [hl]
  exact reads_pure x

theorem reads_int {n : Int32} (form : IntForm bytes n) : Reads int bytes n := by
  cases form with
  | split lead width =>
    refine .lead ?_
    simp only [Lead.ofByte_of_covers lead]
    exact (reads_bytes width).answer _
  | word lead width =>
    refine .lead ?_
    simp only [Lead.ofByte_of_covers lead]
    exact (reads_bytes width).answer _

theorem reads_long {n : Int64} (form : LongForm bytes n) : Reads long bytes n := by
  cases form with
  | split lead width =>
    refine .lead ?_
    simp only [Lead.ofByte_of_covers lead]
    exact (reads_bytes width).answer _
  | int lead width =>
    refine .lead ?_
    simp only [Lead.ofByte_of_covers lead]
    exact (reads_bytes width).answer _
  | word lead width =>
    refine .lead ?_
    simp only [Lead.ofByte_of_covers lead]
    exact (reads_bytes width).answer _

theorem reads_double {d : Double} (form : DoubleForm bytes d) : Reads double bytes d := by
  cases form with
  | zero lead =>
    refine .lead ?_
    simp only [Lead.ofByte_of_covers lead]
    exact reads_pure _
  | one lead =>
    refine .lead ?_
    simp only [Lead.ofByte_of_covers lead]
    exact reads_pure _
  | byte lead width =>
    refine .lead ?_
    simp only [Lead.ofByte_of_covers lead]
    exact (reads_bytes width).answer _
  | short lead width =>
    refine .lead ?_
    simp only [Lead.ofByte_of_covers lead]
    exact (reads_bytes width).answer _
  | milli lead width =>
    refine .lead ?_
    simp only [Lead.ofByte_of_covers lead]
    exact (reads_bytes width).answer _
  | word lead width =>
    refine .lead ?_
    simp only [Lead.ofByte_of_covers lead]
    exact (reads_bytes width).answer _

theorem reads_date {millis : Int64} (form : DateForm bytes millis) : Reads date bytes millis := by
  cases form with
  | millis lead width =>
    refine .lead ?_
    simp only [Lead.ofByte_of_covers lead]
    exact (reads_bytes width).answer _
  | minutes lead width =>
    refine .lead ?_
    simp only [Lead.ofByte_of_covers lead]
    exact (reads_bytes width).answer _

/-- A chain is read if its chunks are. -/
theorem reads_chunks {chunk : Decode (Bool × List α)} {form : Bool → Bytes → List α → Prop}
    (hr : Reader chunk)
    (h : ∀ {isFinal bytes part}, form isFinal bytes part → Reads chunk bytes (isFinal, part))
    {parts : List α} (chain : Grammar.Chain form bytes parts) :
    Reads (chunks chunk) bytes parts := by
  induction chain with
  | last final => exact .finalChunk hr (h final)
  | more first _ ih => exact .openChunk hr (h first) ih

theorem reads_binaryChunk {isFinal : Bool} {part : Bytes} (form : BinaryChunk isFinal bytes part) :
    Reads binaryChunk bytes (isFinal, part) := by
  cases form with
  | mk lead width length =>
    refine .lead ?_
    simp only [Lead.ofByte_of_covers lead]
    exact (reads_bytes width).bind (length ▸ (reads_octets part).answer _)

theorem reads_textChunk {isFinal : Bool} {part : List Text.Character}
    (form : TextChunk isFinal bytes part) : Reads textChunk bytes (isFinal, part) := by
  cases form with
  | mk lead width length complete =>
    refine .lead ?_
    simp only [Lead.ofByte_of_covers lead]
    exact (reads_bytes width).bind (length ▸ (reads_characters complete).answer _)

theorem reads_binary {data : Bytes} (form : Grammar.Chain BinaryChunk bytes data) :
    Reads binary bytes data :=
  reads_chunks reader_binaryChunk reads_binaryChunk form

theorem reads_string {s : String} (form : StringForm bytes s) : Reads string bytes s := by
  cases form with
  | mk chain => exact (reads_chunks reader_textChunk reads_textChunk chain).map Text.ofCharacters

theorem reads_strings {found : List String} (forms : StringsForm bytes found) :
    Reads (times found.length string) bytes found := by
  induction forms with
  | nil => exact reads_pure []
  | cons head _ ih =>
    rw [List.length_cons, times_succ]
    exact (reads_string head).bind (ih.answer _)

theorem readsIn_ref {i : UInt32} (form : RefForm tb bytes i) : ReadsIn 0 tb ref bytes i tb := by
  cases form with
  | @mk b word n index lead form nonneg started =>
    refine .fromOffset fun start => .lead ?_
    simp only [Lead.ofByte_of_covers lead]
    refine (reads_int form).readsIn.andThen_nil (.of_ok fun s rest ht hi => ?_)
    subst ht
    obtain rfl : s.input = rest := hi
    change (if 0 ≤ n.toInt ∧ n.toInt < s.containers then _ else _ : Decode UInt32) s = _
    rw [nonneg, if_pos ⟨Int.natCast_nonneg index, Int.ofNat_lt.mpr started⟩, Int.toNat_natCast]
    rfl

/-! ## Headers -/

theorem readsIn_addDefinition (c : Definition) :
    ReadsIn 0 tb (addDefinition c >>= fun _ => pure c) [] c (tb.addDefinition c) :=
  .of_ok fun s rest ht hi => by
    subst ht
    obtain rfl : s.input = rest := hi
    rfl

theorem readsIn_addContainer (a : α) :
    ReadsIn 0 tb (addContainer >>= fun _ => pure a) [] a tb.addContainer :=
  .of_ok fun s rest ht hi => by
    subst ht
    obtain rfl : s.input = rest := hi
    rfl

/-- What stands in a table is found there. -/
theorem readsIn_lookup {kind : RefKind} {table : Decoder → List α} (entries : Tables → List α)
    (ht : ∀ s, entries s.tables = table s) {index : Nat} (h : (entries tb)[index]? = some a)
    (offset : Nat) : ReadsIn 0 tb (lookup kind table index offset) [] a tb :=
  .of_ok fun s rest hs hi => by
    subst hs
    obtain rfl : s.input = rest := hi
    exact lookup_of_getElem? (ht s ▸ h) offset

theorem readsIn_typeName {name : String} (form : TypeForm tb bytes name tb') :
    ReadsIn 0 tb typeName bytes name tb' := by
  refine .of_ok fun s rest ht hi => ?_
  subst ht
  cases form with
  | name form =>
    rw [typeName_of_string (reads_string form s rest hi)]
    rfl
  | index form nonneg found =>
    rw [typeName_of_int (reads_int form s rest hi), nonneg]
    exact lookup_of_getElem? found _

theorem readsIn_optionalType {typed : Bool} {type : Option String}
    (form : TitleForm typed tb bytes type tb') :
    ReadsIn 0 tb (optionalType typed) bytes type tb' := by
  cases form with
  | typed form => exact (readsIn_typeName form).map some
  | untyped => exact (reads_pure none).readsIn

theorem reads_listLength {n : Int32} {length : Nat} (form : IntForm bytes n)
    (nonneg : n.toInt = length) : ReadsIn 0 tb listLength bytes length tb := by
  refine .fromOffset fun start => (reads_int form).readsIn.andThen_nil ?_
  rw [nonneg, if_pos (Int.natCast_nonneg length), Int.toNat_natCast]
  exact (reads_pure length).readsIn

theorem readsIn_listBegin {type : Option String} {length : Option Nat}
    (header : ListHead tb bytes type length tb') :
    ReadsIn 0 tb listBegin bytes ⟨type, length⟩ tb' := by
  cases header with
  | terminated lead form =>
    refine .lead ?_
    simp only [Lead.ofByte_of_covers lead]
    exact (readsIn_optionalType form).andThen_nil (readsIn_addContainer _)
  | counted lead form count nonneg =>
    refine .lead ?_
    simp only [Lead.ofByte_of_covers lead]
    exact (readsIn_optionalType form).andThen
      (((reads_listLength count nonneg).map some).andThen_nil (readsIn_addContainer _))
  | short lead form =>
    refine .lead ?_
    simp only [Lead.ofByte_of_covers lead]
    exact (readsIn_optionalType form).andThen_nil (readsIn_addContainer _)

theorem readsIn_mapBegin {type : Option String} (header : MapHead tb bytes type tb') :
    ReadsIn 0 tb mapBegin bytes type tb' := by
  cases header with
  | mk lead form =>
    refine .lead ?_
    simp only [Lead.ofByte_of_covers lead]
    exact (readsIn_optionalType form).andThen_nil (readsIn_addContainer _)

theorem readsIn_definitionBody {c : Definition} (form : DefinitionForm bytes c) :
    ReadsIn 0 tb definitionBody bytes c (tb.addDefinition c) := by
  cases form with
  | @mk title word names typeName n fieldNames type count length fields =>
    refine (reads_string type).readsIn.andThen (.fromOffset fun start =>
      (reads_int count).readsIn.andThen ?_)
    rw [length, if_neg (Int.not_lt.mpr (Int.natCast_nonneg _)), Int.toNat_natCast]
    exact (reads_strings fields).readsIn.andThen_nil (readsIn_addDefinition _)

/-- The header of an instance is read, any number of definitions in front of it. -/
theorem readsIn_objectBegin {c : Definition} (header : ObjectHead tb bytes c tb') :
    ReadsIn 0 tb objectBegin bytes c tb' := by
  induction header with
  | @define tb tb' b bytes more c d lead form _ ih =>
    have hround : ReadsIn 0 tb objectRound (b :: bytes) (.inl c) (tb.addDefinition c) := by
      refine .fromOffset fun start => .lead ?_
      simp only [Lead.ofByte_of_covers lead]
      exact (readsIn_definitionBody form).map Sum.inl
    rw [objectBegin_eq]
    exact hround.andThen ih
  | @index tb b word n index c lead form nonneg found =>
    have hround : ReadsIn 0 tb objectRound (b :: word) (.inr c) tb.addContainer := by
      refine .fromOffset fun start => .lead ?_
      simp only [Lead.ofByte_of_covers lead]
      refine (reads_int form).readsIn.andThen_nil ?_
      rw [nonneg]
      exact (readsIn_lookup Tables.definitions (fun _ => rfl) found start).andThen_nil
        (readsIn_addContainer _)
    rw [objectBegin_eq]
    exact hround.andThen_nil (reads_pure c).readsIn
  | @short tb b index c lead found =>
    have hround : ReadsIn 0 tb objectRound [b] (.inr c) tb.addContainer := by
      refine .fromOffset fun start => .lead ?_
      simp only [Lead.ofByte_of_covers lead]
      exact (readsIn_lookup Tables.definitions (fun _ => rfl) found start).andThen_nil
        (readsIn_addContainer _)
    rw [objectBegin_eq]
    exact hround.andThen_nil (reads_pure c).readsIn

/-! ## Rows -/

section Rows

variable {step : Decode α} {found : List α}

/-- The terminator ends a row. -/
theorem readsIn_untilTerminator_nil (hp : Productive step) {z : UInt8}
    (lead : Lead.terminator.covers z) : ReadsIn 0 tb (untilTerminator step) [z] [] tb := by
  obtain rfl : z = Lead.terminator.toByte := eq_of_beq lead
  rw [untilTerminator_eq hp]
  exact reads_terminator.readsIn.andThen_nil (reads_pure []).readsIn

/-- What does not open with a terminator comes before the rest of a row. -/
theorem readsIn_untilTerminator_cons (hp : Productive step) (ho : Opens (· ≠ .terminator) step)
    (hx : ReadsIn n tb step bytes a tb')
    (hr : ReadsIn m tb' (untilTerminator step) more found tb'') :
    ReadsIn (max n m) tb (untilTerminator step) (bytes ++ more) (a :: found) tb'' := by
  intro s rest ht hi
  obtain ⟨code, tail, rfl, hl⟩ := hx.opens ho
  have hterminator : terminator s = .ok false s := by
    unfold terminator
    rw [bind_ok (peek_of_input hi), if_neg hl]
    rfl
  rw [untilTerminator_eq hp, bind_ok hterminator]
  exact hx.bind (hr.answer _) s rest ht hi

theorem readsIn_times_cons (hx : ReadsIn n tb step bytes a tb')
    (hr : ReadsIn m tb' (times found.length step) more found tb'') :
    ReadsIn (max n m) tb (times (a :: found).length step) (bytes ++ more) (a :: found) tb'' := by
  rw [List.length_cons, times_succ]
  exact hx.bind (hr.answer _)

end Rows

/-! ## Values -/

/-- Octets of a scalar that the step for its kind reads. -/
theorem ReadsIn.scalar {step : Decode α} {answer : α → Value} (h : ReadsIn 0 tb step bytes a tb')
    (ho : Opens (ReadBy value step fun a => pure (answer a)) step) :
    ReadsIn 0 tb value bytes (answer a) tb' := by
  refine .of_ok fun s rest ht hi => ?_
  rw [value_eq, valueWith_of_opens ho (h.ok ht hi)]
  rfl

/-- Octets of a container that the step for its kind reads, after its header. -/
theorem ReadsIn.value {head : Decode β} {step : Decode α} {answer : α → Decode Value} {v : Value}
    (hh : ReadsIn 0 tb head bytes b tb') (ho : Opens (ReadBy value step answer) head)
    (h : ReadsIn n tb (step >>= answer) (bytes ++ more) v tb'') :
    ReadsIn n tb value (bytes ++ more) v tb'' := by
  intro s rest ht hi
  have hs := hh.ok ht (hi.trans (List.append_assoc _ _ _))
  rw [value_eq, valueWith_eq_of_opens ho hs]
  exact h s rest ht hi

/-- How a phrase is read. -/
def ReadsPhrase (n : Nat) (tb : Tables) (bytes : Bytes) (tb' : Tables) : Phrase → Prop
  | .value v => ReadsIn n tb value bytes v tb'
  | .items vs => ReadsIn n tb (times vs.length value) bytes vs tb' ∧
      ∀ z, Lead.terminator.covers z →
        ReadsIn n tb (untilTerminator value) (bytes ++ [z]) vs tb'
  | .pairs pairs => ∀ z, Lead.terminator.covers z →
      ReadsIn n tb (untilTerminator (pairOf value value)) (bytes ++ [z]) pairs tb'

/-- What is derived is read, with the levels of the derivation. -/
theorem readsPhrase_of_derives {phrase : Phrase} (h : Derives n tb bytes phrase tb') :
    ReadsPhrase n tb bytes tb' phrase := by
  have hpair : Productive (pairOf value value) :=
    reader_value.productive.pairOf reader_value.toRegular
  induction h with
  | null lead => exact (reads_null lead).readsIn.scalar (opens_null value)
  | boolean lead => exact (reads_boolean lead).readsIn.scalar (opens_boolean value)
  | int form => exact (reads_int form).readsIn.scalar (opens_int value)
  | long form => exact (reads_long form).readsIn.scalar (opens_long value)
  | double form => exact (reads_double form).readsIn.scalar (opens_double value)
  | date form => exact (reads_date form).readsIn.scalar (opens_date value)
  | binary form => exact (reads_binary form).readsIn.scalar (opens_binary value)
  | string form => exact (reads_string form).readsIn.scalar (opens_string value)
  | ref form => exact (readsIn_ref form).scalar (opens_ref value)
  | @counted n tb _ tb'' head body type items header _ ih =>
    have hhead := readsIn_listBegin header
    have hlist : ReadsIn (n + 1) tb (listOf value) (head ++ body) (type, items) tb'' :=
      hhead.andThen (ih.1.nested.answer _)
    exact hhead.value (opens_listBegin value) (hlist.answer _)
  | @terminated n tb _ tb'' head body z type items header _ lead ih =>
    have hhead := readsIn_listBegin header
    have hlist : ReadsIn (n + 1) tb (listOf value) (head ++ (body ++ [z])) (type, items) tb'' :=
      hhead.andThen ((ih.2 z lead).nested.answer _)
    exact hhead.value (opens_listBegin value) (hlist.answer _)
  | @map n tb _ tb'' head body z type pairs header _ lead ih =>
    have hhead := readsIn_mapBegin header
    have hmap : ReadsIn (n + 1) tb (mapOf value value) (head ++ (body ++ [z])) (type, pairs) tb'' :=
      hhead.andThen ((ih z lead).nested.answer _)
    exact hhead.value (opens_mapBegin value) (hmap.answer _)
  | object header length _ ih =>
    have hhead := readsIn_objectBegin header
    exact hhead.value (opens_objectBegin value)
      (hhead.andThen ((length ▸ ih.1.nested).answer _))
  | noItems =>
    exact ⟨(reads_pure []).readsIn, fun z lead =>
      readsIn_untilTerminator_nil reader_value.productive lead⟩
  | item _ _ ih ih' =>
    refine ⟨readsIn_times_cons ih ih'.1, fun z lead => ?_⟩
    rw [List.append_assoc]
    exact readsIn_untilTerminator_cons reader_value.productive opens_value ih (ih'.2 z lead)
  | noPairs =>
    intro z lead
    exact readsIn_untilTerminator_nil hpair lead
  | pair _ _ _ ih ih' ih'' =>
    intro z lead
    rw [List.append_assoc]
    exact readsIn_untilTerminator_cons hpair (opens_value.bind _) (ih.bind (ih'.answer _))
      (ih'' z lead)

/-- A value that is read is derived from the octets that were taken. -/
theorem derives_of_value {s t : Decoder} {v : Value} (h : value s = .ok v t) :
    ∃ n ≤ s.levels, ∃ bytes, s.Passes bytes t ∧ Derives n s.tables bytes (.value v) t.tables := by
  obtain ⟨bytes, hp, n, hn, hd⟩ := finds_value s.levels s v t h rfl
  exact ⟨n, hn, bytes, hp, hd⟩

/-- A value of the grammar is read where its levels are allowed, and runs into the limit where they
are not. -/
theorem readsIn_value {v : Value} (h : Derives n tb bytes (.value v) tb') :
    ReadsIn n tb value bytes v tb' :=
  readsPhrase_of_derives h

/-- The values that a session reads are those of the grammar that do not go deeper than it allows.
It reads them from their octets and comes to their tables, and the limit is all that can keep it
from doing so. -/
theorem value_ok_iff_derives (s : Decoder) :
    (∀ (v : Value) (t : Decoder), value s = .ok v t ↔
      ∃ n ≤ s.levels, ∃ bytes, s.Passes bytes t ∧ Derives n s.tables bytes (.value v) t.tables) ∧
    (∀ (n : Nat) (bytes rest : Bytes) (v : Value) (tb : Tables), s.input = bytes ++ rest →
      Derives n s.tables bytes (.value v) tb → s.levels < n →
        ∃ t, value s = .error (.depthLimitExceeded s.maxDepth) t) := by
  refine ⟨fun v t => ⟨derives_of_value, ?_⟩, ?_⟩
  · rintro ⟨n, hn, bytes, hp, hd⟩
    rw [(readsIn_value hd s t.input rfl hp.input).1 hn, ← hp.moved]
  · intro n bytes rest v tb hi hd hl
    exact (readsIn_value hd s rest rfl hi).2 hl

/-- A list of one int is read where one level is allowed and runs into the limit where none is. -/
theorem value_ok_iff_derives_list :
    (∃ t, value { input := [0x79, 0x91], maxDepth := 1 } = .ok (.list none [.int 1]) t) ∧
      ∃ t, value { input := [0x79, 0x91], maxDepth := 0 } = .error (.depthLimitExceeded 0) t := by
  have hint : IntForm [0x91] 1 := @IntForm.split 0x91 0 1 [] rfl rfl
  have hhead : ListHead ⟨[], [], 0⟩ [0x79] none (some 1) ⟨[], [], 1⟩ :=
    @ListHead.short _ _ 0x79 false _ _ 1 (by decide) .untyped
  have hitems : Derives 0 ⟨[], [], 1⟩ ([0x91] ++ []) (.items [.int 1]) ⟨[], [], 1⟩ :=
    .item (.int hint) .noItems
  have hlist : Derives 1 ⟨[], [], 0⟩ ([0x79] ++ [0x91]) (.value (.list none [.int 1]))
      ⟨[], [], 1⟩ := .counted hhead hitems
  constructor
  · exact ⟨_, ((value_ok_iff_derives _).1 _ _).mpr
      ⟨1, Nat.le_refl 1, [0x79, 0x91], Decoder.passes_moved rfl ⟨[], [], 1⟩, hlist⟩⟩
  · exact (value_ok_iff_derives _).2 1 [0x79, 0x91] [] _ _ rfl hlist Nat.zero_lt_one

end Decode

namespace Grammar

open Decode

variable {n m : Nat} {tb tb' tb'' : Tables} {bytes bytes' rest rest' : Bytes} {v v' : Value}

/-- Octets that are derived in two ways go no deeper the second time. -/
theorem Derives.levels_le (h : Derives n tb bytes (.value v) tb')
    (h' : Derives m tb bytes' (.value v') tb'') (he : bytes ++ rest = bytes' ++ rest') : m ≤ n := by
  let s : Decoder := Decoder.moved { input := [], maxDepth := n } (bytes ++ rest) 0 tb
  refine Nat.not_lt.mp fun hlt => ?_
  obtain ⟨t, ht⟩ := (readsIn_value h' s rest' rfl he).2 hlt
  rw [(readsIn_value h s rest rfl rfl).1 (Nat.le_refl n)] at ht
  cases ht

/-- The same octets are not derived in two ways: they say where the value ends, what it is, how deep
it goes, and what it announces. -/
theorem Derives.unique (h : Derives n tb bytes (.value v) tb')
    (h' : Derives m tb bytes' (.value v') tb'') (he : bytes ++ rest = bytes' ++ rest') :
    n = m ∧ bytes = bytes' ∧ v = v' ∧ tb' = tb'' := by
  have hmn : m ≤ n := h.levels_le h' he
  have hnm : n ≤ m := h'.levels_le h he.symm
  let s : Decoder := Decoder.moved { input := [], maxDepth := n } (bytes ++ rest) 0 tb
  have hok := (readsIn_value h s rest rfl rfl).1 (Nat.le_refl n)
  rw [(readsIn_value h' s rest' rfl he).1 hmn] at hok
  obtain ⟨rfl, hs⟩ := EStateM.Result.ok.inj hok
  obtain rfl : rest' = rest := congrArg Decoder.input hs
  exact ⟨Nat.le_antisymm hnm hmn, List.append_cancel_right he, rfl,
    (congrArg Decoder.tables hs).symm⟩

end Grammar

end Hessian
