import Hessian.Proofs.Grammar.Complete
import Hessian.Proofs.Trace.Reference

/-!
# Reading is bounded by the input

A few octets can declare two thousand million items, a chain of chunks and a row of definitions have
no length at all, and containers may stand inside one another as deep as the session allows.  None
of this costs more than the input has: whatever is run again has taken an octet.

So reading comes to an end.  It goes neither more rounds nor more levels than there are octets left,
and what would be done after them is never done (`Halts`).  Where a number is declared beyond the
octets that are left, it makes no difference how far beyond (`Exhausting`): the value is not
read (`error_of_overdrawn`).  And what has been read has paid for each of its values with an octet,
those included that a later entry of a map has replaced (`value_bounded`).
-/

namespace Hessian

open Grammar

namespace Decode

variable {α β : Type}

/-! ## Rounds -/

/-- At most `bound` rounds, and `stop` in place of one more. -/
def roundsUpTo (stop : Decode (List α × β)) (round : Decode (α ⊕ β)) :
    (bound : Nat) → Decode (List α × β)
  | 0 => stop
  | bound + 1 => do
    match ← round with
    | .inl a =>
      let (rest, b) ← roundsUpTo stop round bound
      return (a :: rest, b)
    | .inr b => return ([], b)

/-- The rounds end before there are more of them than octets, whatever would be done then. -/
def Halting (round : Decode (α ⊕ β)) : Prop :=
  ∀ (stop : Decode (List α × β)) (bound : Nat) (s : Decoder), s.input.length < bound →
    roundsUpTo stop round bound s = rounds round s

/-- Rounds end that take an octet each time they let another one follow. -/
theorem Paced.halting {round : Decode (α ⊕ β)} (hp : Paced round) (hh : Hungry round) :
    Halting round := by
  intro stop bound
  induction bound with
  | zero => exact fun s hs => absurd hs (Nat.not_lt_zero _)
  | succ bound ih =>
    intro s hs
    rw [rounds_eq hp hh, roundsUpTo]
    refine bind_congr_ok fun r t ht => ?_
    cases r with
    | inl a => exact bind_congr_left (ih t (by have := hp s a t ht; omega)) _
    | inr b => rfl

theorem Reader.halting {round : Decode (α ⊕ β)} (h : Reader round) : Halting round :=
  h.paced.halting h.hungry

/-- Before the terminator, anything may be repeated that takes an octet. -/
theorem Productive.halting {step : Decode α} (hp : Productive step) :
    Halting (unlessTerminator step) :=
  (paced_unlessTerminator hp).halting (hungry_unlessTerminator step)

/-- More runs of the step than there are octets fail, and how many more they are to be makes no
difference. -/
def Exhausting (step : Decode α) : Prop :=
  ∀ s : Decoder, ∃ e t, ∀ count, s.input.length < count → times count step s = .error e t

/-- A step cannot be run more often than there are octets if it takes one each time. -/
theorem Productive.exhausting {step : Decode α} (hp : Productive step) : Exhausting step := by
  intro s
  induction hn : s.input.length using Nat.strongRecOn generalizing s with
  | ind n ih =>
    subst hn
    suffices h : ∃ e t, ∀ below, s.input.length ≤ below → times (below + 1) step s = .error e t by
      obtain ⟨e, t, h⟩ := h
      refine ⟨e, t, fun count hc => ?_⟩
      obtain ⟨below, rfl⟩ := Nat.exists_eq_add_one_of_ne_zero (Nat.ne_zero_of_lt hc)
      exact h below (Nat.le_of_lt_succ hc)
    cases hs : step s with
    | error e t =>
      refine ⟨e, t, fun below _ => ?_⟩
      rw [times_succ, bind_error hs]
    | ok a t =>
      have hlt := hp s a t hs
      obtain ⟨e, u, hrest⟩ := ih t.input.length hlt t rfl
      refine ⟨e, u, fun below hle => ?_⟩
      rw [times_succ, bind_ok hs, bind_error (hrest below (Nat.lt_of_lt_of_le hlt hle))]

/-! ## Levels -/

/-- Reads a value with at most `bound` layers, and by `stop` what would be one layer more. -/
def valueUpTo (stop : Decode Value) : (bound : Nat) → Decode Value
  | 0 => stop
  | bound + 1 => valueWith (valueUpTo stop bound)

/-- There are fewer octets left than this. -/
def Fewer (n : Nat) (s : Decoder) : Prop := s.input.length < n

theorem lasting_fewer (n : Nat) : Lasting (Fewer n) :=
  fun _ _ h hs => Nat.lt_of_le_of_lt h.length_le hs

/-- The header of a container has taken one. -/
theorem enters_fewer (n : Nat) : Enters (Fewer (n + 1)) (Fewer n) :=
  fun _ _ _ hlt _ hs => Nat.lt_of_lt_of_le hlt (Nat.le_of_lt_succ hs)

/-- Values do not go through more levels than there are octets, whatever would be done then and
however many the session allows. -/
theorem valueUpTo_eq (stop : Decode Value) (bound : Nat) {s : Decoder}
    (hs : s.input.length < bound) : valueUpTo stop bound s = value s := by
  have hagree : AgreeOn (Fewer bound) value (valueUpTo stop bound) := by
    clear hs
    induction bound with
    | zero => exact fun s hs => absurd hs (Nat.not_lt_zero _)
    | succ bound ih =>
      rw [value_eq]
      exact .valueWith (lasting_fewer bound) (enters_fewer bound) (lasting_fewer _)
        reader_value.toRegular ih
  exact (hagree s hs).symm

end Decode

/-! ## Declared numbers -/

namespace Grammar

/-- The octets begin with definitions, and one of them declares more fields than there are octets
left for their names. -/
inductive LacksNames : Bytes → Prop
  | names {b : UInt8} {title word rest : Bytes} {typeName : String} {n : Int32}
      (lead : Lead.definition.covers b) (type : StringForm title typeName) (count : IntForm word n)
      (short : (rest.length : Int) < n.toInt) : LacksNames (b :: (title ++ (word ++ rest)))
  | behind {b : UInt8} {bytes more : Bytes} {c : Definition} (lead : Lead.definition.covers b)
      (form : DefinitionForm bytes c) (rest : LacksNames more) : LacksNames (b :: (bytes ++ more))

theorem LacksNames.exists_lead {bytes : Bytes} (h : LacksNames bytes) :
    ∃ b rest, bytes = b :: rest ∧ Lead.definition.covers b := by
  cases h with
  | names lead => exact ⟨_, _, rfl, lead⟩
  | behind lead => exact ⟨_, _, rfl, lead⟩

/-- The octets begin with a list or a class instance that declares more than there are octets left
for it: more items, more fields of the instance, or more names in one of its definitions. -/
inductive Overdrawn (tb : Tables) : Bytes → Prop
  | items {tb' : Tables} {head rest : Bytes} {type : Option String} {length : Nat}
      (header : ListHead tb head type (some length) tb') (short : rest.length < length) :
      Overdrawn tb (head ++ rest)
  | fields {tb' : Tables} {head rest : Bytes} {c : Definition} (header : ObjectHead tb head c tb')
      (short : rest.length < c.fieldNames.length) : Overdrawn tb (head ++ rest)
  | names {bytes : Bytes} (lacks : LacksNames bytes) : Overdrawn tb bytes

end Grammar

namespace Decode

variable {α β : Type}

/-- What fails is not followed by anything. -/
theorem exists_error_bind {x : Decode α} {s : Decoder} (h : ∃ e t, x s = .error e t)
    (f : α → Decode β) : ∃ e t, (x >>= f) s = .error e t := by
  obtain ⟨e, t, hs⟩ := h
  exact ⟨e, t, bind_error hs⟩

/-- More parts than there are octets cannot be read. -/
theorem Exhausting.nested {step : Decode α} (h : Exhausting step) {s : Decoder} {count : Nat}
    (hs : s.input.length < count) : ∃ e t, Decode.nested (times count step) s = .error e t := by
  by_cases hle : s.maxDepth ≤ s.depth
  · exact ⟨_, _, nested_of_le hle⟩
  · obtain ⟨e, t, ht⟩ := h s.enter
    exact ⟨e, t.leave, nested_error (Nat.not_le.mp hle) (ht count hs)⟩

/-- Nor can more names be than there are octets, which is why a definition fails that declares so
many fields. -/
theorem definitionBody_of_short {title word rest : Bytes} {typeName : String} {n : Int32}
    (type : StringForm title typeName) (count : IntForm word n)
    (short : (rest.length : Int) < n.toInt) {s : Decoder}
    (hs : s.input = title ++ (word ++ rest)) : ∃ e t, definitionBody s = .error e t := by
  let u := (s.past (word ++ rest) title.length).past rest word.length
  obtain ⟨e, t, ht⟩ := reader_string.productive.exhausting u
  have hn : u.input.length < n.toInt.toNat := by
    change rest.length < n.toInt.toNat
    omega
  refine ⟨e, t, ?_⟩
  unfold definitionBody
  rw [bind_ok (reads_string type s _ hs)]
  change (int >>= _) _ = _
  rw [bind_ok (reads_int count _ rest rfl)]
  dsimp only
  rw [if_neg (by omega), bind_error (ht _ hn)]

/-- After the lead byte of a definition the round reads the definition. -/
theorem objectRound_of_definition {b : UInt8} {rest : Bytes} (lead : Lead.definition.covers b)
    {s : Decoder} (hs : s.input = b :: rest) :
    objectRound s = (Sum.inl <$> definitionBody) (s.past rest 1) := by
  change (octet >>= _) s = _
  rw [bind_ok (reads_octet b s rest hs)]
  simp only [Lead.ofByte_of_covers lead]
  rfl

theorem objectBegin_of_lacksNames {bytes : Bytes} (h : LacksNames bytes) {s : Decoder}
    (hs : s.input = bytes) : ∃ e t, objectBegin s = .error e t := by
  induction h generalizing s with
  | names lead type count short =>
    obtain ⟨e, t, ht⟩ := definitionBody_of_short type count short (s := s.past _ 1) rfl
    have hround : objectRound s = .error e t := by
      rw [objectRound_of_definition lead hs, map_eq_pure_bind, bind_error ht]
    rw [objectBegin_eq]
    exact ⟨e, t, bind_error hround⟩
  | @behind b bytes more c lead form rest ih =>
    have hround : objectRound s = .ok (.inl c)
        ((s.past (bytes ++ more) 1).moved more bytes.length (s.tables.addDefinition c)) := by
      rw [objectRound_of_definition lead hs]
      exact ((readsIn_definitionBody form).map Sum.inl).ok rfl rfl
    rw [objectBegin_eq, bind_ok hround]
    exact ih rfl

/-- The number that a container declares is not believed. -/
theorem error_of_overdrawn {s : Decoder} (h : Overdrawn s.tables s.input) :
    ∃ e t, value s = .error e t := by
  rw [value_eq]
  generalize hi : s.input = bytes at h
  cases h with
  | @items tb' head rest type length header short =>
    have hbegin := (readsIn_listBegin header).ok rfl hi
    rw [valueWith_eq_of_opens (opens_listBegin value) hbegin]
    refine exists_error_bind ?_ _
    unfold listOf
    rw [bind_ok hbegin]
    exact exists_error_bind (reader_value.productive.exhausting.nested short) _
  | @fields tb' head rest c header short =>
    have hbegin := (readsIn_objectBegin header).ok rfl hi
    rw [valueWith_eq_of_opens (opens_objectBegin value) hbegin, bind_ok hbegin]
    exact exists_error_bind (reader_value.productive.exhausting.nested short) _
  | names lacks =>
    obtain ⟨b, rest, rfl, lead⟩ := lacks.exists_lead
    unfold valueWith
    rw [bind_ok (peek_of_input hi), Lead.ofByte_of_covers lead]
    exact exists_error_bind (objectBegin_of_lacksNames lacks hi) _

/-! ## The bound -/

/-- Whatever is run again while a value is read comes to an end, and does so for want of octets at
the latest. -/
structure Halts : Prop where
  /-- The chunks of a string. -/
  text : Halting (chunkRound textChunk)
  /-- The chunks of binary data. -/
  binary : Halting (chunkRound binaryChunk)
  /-- The definitions in front of a class instance. -/
  definitions : Halting objectRound
  /-- The items up to a terminator. -/
  items : Halting (unlessTerminator value)
  /-- The pairs up to a terminator. -/
  pairs : Halting (unlessTerminator (pairOf value value))
  /-- The containers inside one another. -/
  levels (stop : Decode Value) (bound : Nat) (s : Decoder) (hs : s.input.length < bound) :
    valueUpTo stop bound s = value s
  /-- The items and fields whose number is declared. -/
  counted : Exhausting value
  /-- The names of fields, whose number is declared, too. -/
  names : Exhausting string

theorem halts : Halts where
  text := (reader_chunkRound reader_textChunk).halting
  binary := (reader_chunkRound reader_binaryChunk).halting
  definitions := reader_objectRound.halting
  items := reader_value.productive.halting
  pairs := (reader_value.productive.pairOf reader_value.toRegular).halting
  levels stop bound _ hs := valueUpTo_eq stop bound hs
  counted := reader_value.productive.exhausting
  names := reader_string.productive.exhausting

/-- Reading a value comes to an end.  If it succeeds, there have been at least as many octets as
values, all those counted that the stream gives.  If a list or a class instance declares more than
there are octets left, it fails. -/
theorem value_bounded (s : Decoder) :
    Halts ∧
    (∀ v t, value s = .ok v t → ∃ (T : Trace) (octets : Bytes), trace s = .ok T t ∧ v = T.value ∧
      s.input = octets ++ t.input ∧ t.offset = s.offset + octets.length ∧
      1 ≤ T.erase.size ∧ T.erase.size ≤ octets.length) ∧
    (Overdrawn s.tables s.input → ∃ e t, value s = .error e t) := by
  refine ⟨halts, fun v t h => ?_, error_of_overdrawn⟩
  obtain ⟨T, hT, rfl⟩ := trace_of_value h
  obtain ⟨hsound, hadvance⟩ := sound_trace s T t hT
  obtain ⟨octets, hinput, hoffset⟩ := hadvance.read
  refine ⟨T, octets, hT, rfl, hinput, hoffset, T.erase.one_le_size, ?_⟩
  have hread := hsound.read
  rw [hinput, List.length_append] at hread
  exact Nat.le_of_add_le_add_right hread

/-- A list declares two thousand million items and has one.  A map has two entries of the same key,
and the value that is replaced has been paid for. -/
theorem value_bounded_list :
    let s : Decoder := { input := [0x58, 0x49, 0x7f, 0xff, 0xff, 0xff, 0x4e], maxDepth := 1 }
    let r : Decoder := { input := [0x48, 0x91, 0x4e, 0x91, 0x54, 0x5a], maxDepth := 1 }
    Overdrawn s.tables s.input ∧ (∃ e t, value s = .error e t) ∧
      ∃ t T, value r = .ok (.map none [(.int 1, .boolean true)]) t ∧ trace r = .ok T t ∧
        T.erase = .map none [(.int 1, .null), (.int 1, .boolean true)] ∧
        T.erase.size ≤ r.input.length := by
  intro s r
  have hheader : ListHead s.tables ([0x58] ++ ([] ++ [0x49, 0x7f, 0xff, 0xff, 0xff])) none
      (some 0x7fffffff) s.tables.addContainer :=
    .counted (by decide) .untyped (.word (by decide) rfl) (by decide)
  have hshort : ([0x4e] : Bytes).length < 0x7fffffff := by decide
  have hs : Overdrawn s.tables s.input := .items hheader hshort
  let t : Decoder := { input := [], offset := 6, containers := 1, maxDepth := 1 }
  have hr : value r = .ok (.map none [(.int 1, .boolean true)]) t := by cbv
  obtain ⟨T, octets, hT, -, hinput, -, -, hsize⟩ := (value_bounded r).2.1 _ t hr
  obtain rfl : octets = r.input := (hinput.trans (List.append_nil octets)).symm
  have hpairs : trace r = .ok (.map 0 none [(.scalar (.int 1) rfl, .scalar .null rfl),
      (.scalar (.int 1) rfl, .scalar (.boolean true) rfl)]) t := by cbv
  obtain ⟨rfl, -⟩ := EStateM.Result.ok.inj (hT.symm.trans hpairs)
  exact ⟨hs, (value_bounded s).2.2 hs, t, _, hr, hT, rfl, hsize⟩

end Decode

end Hessian
