import Hessian.Proofs.Schema.Depth
import Hessian.Proofs.Trace.Reference

/-!
# The limit only cuts

How deep a session may go is looked at in one place only, where a container is entered: the layers
that a value is given for it make no difference (`Decode.value_eq`).  So a session that may go
deeper does the same, as long as the first one has not run into its limit: `Decode.Lifts`.  The
levels are those that the first session has left.  With none left nothing is entered, and whatever
is entered has one level less.

Conversely the limit is all that keeps a value from being read.  Whatever can be read at all is read
by a session that allows the levels of containers in its octets.

## Main statements

* `Decode.lifts_value` : a value is read in the same way where more is allowed.
* `Decode.value_allow` : what the limit makes of a value.
-/

namespace Hessian

variable {α β : Type}

/-! ## Another limit -/

namespace Decoder

/-- The same session where so many levels are allowed. -/
def allow (s : Decoder) (limit : Nat) : Decoder := { s with maxDepth := limit }

/-- Where something is entered, one level less is left. -/
theorem levels_enter (s : Decoder) (h : s.depth < s.maxDepth) : s.levels = s.enter.levels + 1 := by
  unfold levels enter
  dsimp only
  omega

/-- What passes does so where something else is allowed. -/
theorem Passes.allow {s t : Decoder} {bytes : Bytes} (h : s.Passes bytes t) (limit : Nat) :
    (s.allow limit).Passes bytes (t.allow limit) where
  input := h.input
  moved := by
    rw [h.moved]
    rfl

end Decoder

namespace Outcome

/-- The same end where so many levels are allowed. -/
def allow (limit : Nat) : Outcome α → Outcome α
  | .ok a t => .ok a (t.allow limit)
  | .error e t => .error e (t.allow limit)

theorem not_tooDeep_ok (a : α) (t : Decoder) : ¬ TooDeep (.ok a t) := by
  rintro ⟨limit, u, h⟩
  cases h

/-- Whether an error is the limit does not depend on where it is come to. -/
theorem TooDeep.of_error {e : Error} {t : Decoder} (h : TooDeep (.error e t : Outcome α))
    (u : Decoder) : TooDeep (.error e u : Outcome β) := by
  obtain ⟨limit, t', h⟩ := h
  obtain ⟨rfl, -⟩ := EStateM.Result.error.inj h
  exact ⟨limit, u, rfl⟩

end Outcome

open Grammar

namespace Decode

variable {levels : Nat} {step : Decode α}

/-- With so many levels left, a success of the step comes back to where it began, and unless the
step runs into the limit it does the same where more is allowed. -/
structure Lifts (levels : Nat) (step : Decode α) : Prop where
  steady : ∀ {s a t}, s.levels = levels → step s = .ok a t →
    t.depth = s.depth ∧ t.maxDepth = s.maxDepth
  lift : ∀ {s limit}, s.levels = levels → s.maxDepth ≤ limit → ¬ Outcome.TooDeep (step s) →
    step (s.allow limit) = Outcome.allow limit (step s)

namespace Lifts

/-- What follows a success has as many levels left. -/
theorem levels_ok (h : Lifts levels step) {s t : Decoder} {a : α} (hl : s.levels = levels)
    (hs : step s = .ok a t) : t.levels = levels := by
  obtain ⟨hd, hm⟩ := h.steady hl hs
  rw [← hl, Decoder.levels, hd, hm, Decoder.levels]

/-! ## Steps one after another -/

/-- A regular step lifts if it does not look at the limit. -/
theorem of_regular (hr : Regular step)
    (h : ∀ s limit, step (s.allow limit) = Outcome.allow limit (step s)) : Lifts levels step where
  steady _ hs := ⟨(hr.advance_ok hs).depth, (hr.advance_ok hs).maxDepth⟩
  lift _ _ _ := h _ _

protected theorem pure (a : α) : Lifts levels (pure a : Decode α) :=
  .of_regular (regular_pure a) fun _ _ => rfl

protected theorem throw (e : Error) : Lifts levels (throw e : Decode α) :=
  .of_regular (regular_throw e) fun _ _ => rfl

protected theorem bind {x : Decode α} {f : α → Decode β} (hx : Lifts levels x)
    (hf : ∀ a, Lifts levels (f a)) : Lifts levels (x >>= f) where
  steady {s b u} hl h := by
    obtain ⟨a, t, ha, hb⟩ := ok_of_bind h
    obtain ⟨hd, hm⟩ := hx.steady hl ha
    obtain ⟨hd', hm'⟩ := (hf a).steady (hx.levels_ok hl ha) hb
    exact ⟨hd'.trans hd, hm'.trans hm⟩
  lift {s limit} hl hle hn := by
    cases hs : x s with
    | ok a t =>
      have hlift := hx.lift hl hle (hs ▸ Outcome.not_tooDeep_ok a t)
      rw [hs] at hlift
      rw [bind_ok hs] at hn ⊢
      rw [bind_ok hlift]
      exact (hf a).lift (hx.levels_ok hl hs) ((hx.steady hl hs).2 ▸ hle) hn
    | error e t =>
      rw [bind_error hs] at hn ⊢
      have hlift := hx.lift hl hle (hs ▸ fun h => hn (h.of_error t))
      rw [hs] at hlift
      rw [bind_error hlift]
      rfl

protected theorem map (f : α → β) (h : Lifts levels step) : Lifts levels (f <$> step) := by
  rw [map_eq_pure_bind]
  exact h.bind fun a => .pure (f a)

/-- A step is looked at from where it runs, apart from the limit. -/
theorem of_forall (h : ∀ s : Decoder, ∃ r, Lifts levels r ∧
    ∀ limit, step (s.allow limit) = r (s.allow limit)) : Lifts levels step where
  steady {s a t} hl hs := by
    obtain ⟨r, hr, he⟩ := h s
    exact hr.steady hl ((he s.maxDepth).symm.trans hs)
  lift {s limit} hl hle hn := by
    obtain ⟨r, hr, he⟩ := h s
    have hs : step s = r s := he s.maxDepth
    rw [hs] at hn ⊢
    rw [he limit]
    exact hr.lift hl hle hn

end Lifts

/-! ## The cursor -/

theorem lifts_offset : Lifts levels offset := .of_regular regular_offset fun _ _ => rfl

theorem lifts_peek : Lifts levels peek := by
  refine .of_regular regular_peek fun s limit => ?_
  rcases s with ⟨_ | ⟨code, rest⟩⟩ <;> rfl

theorem lifts_octet : Lifts levels octet := by
  refine .of_regular regular_octet fun s limit => ?_
  rcases s with ⟨_ | ⟨code, rest⟩⟩ <;> rfl

theorem lifts_octets (n : Nat) : Lifts levels (octets n) := by
  refine .of_regular (regular_octets n) fun s limit => ?_
  by_cases h : Bytes.hasAtLeast n s.input
  · rw [octets, octets, if_pos h, if_pos (show Bytes.hasAtLeast n (s.allow limit).input from h)]
    rfl
  · rw [octets, octets, if_neg h, if_neg (show ¬ Bytes.hasAtLeast n (s.allow limit).input from h)]
    rfl

theorem lifts_word (width : Nat) : Lifts levels (word width) := (lifts_octets width).map _

theorem lifts_unexpected (code : UInt8) : Lifts levels (unexpected code : Decode α) :=
  .of_regular (regular_unexpected code) fun _ _ => rfl

/-! ## Tables -/

theorem lifts_addType (name : String) : Lifts levels (addType name) :=
  .of_regular (regular_addType name) fun _ _ => rfl

theorem lifts_addDefinition (c : Definition) : Lifts levels (addDefinition c) :=
  .of_regular (regular_addDefinition c) fun _ _ => rfl

theorem lifts_addContainer : Lifts levels addContainer :=
  .of_regular regular_addContainer fun _ _ => rfl

theorem lifts_started : Lifts levels started := .of_regular regular_started fun _ _ => rfl

/-- A table is looked into regardless of the limit if it does not depend on the limit. -/
theorem lifts_lookup {table : Decoder → List α} (hx : ∀ s more, table (s.extend more) = table s)
    (ha : ∀ s limit, table (s.allow limit) = table s) (kind : RefKind) (index : Int)
    (offset : Nat) : Lifts levels (lookup kind table index offset) := by
  refine .of_regular (regular_lookup hx kind index offset) fun s limit => ?_
  unfold lookup
  rw [ha]
  split <;> rfl

/-! ## Nesting and repetition -/

/-- Nothing is entered where no levels are left, and with one less anything else. -/
theorem Lifts.nested (h : ∀ below, levels = below + 1 → Lifts below step) :
    Lifts levels (nested step) where
  steady {s a t} hl hs := by
    obtain ⟨hlt, u, hu, rfl⟩ := ok_of_nested hs
    obtain ⟨hd, hm⟩ := (h _ (hl.symm.trans (s.levels_enter hlt))).steady rfl hu
    exact ⟨congrArg (· - 1) hd, hm⟩
  lift {s limit} hl hle hn := by
    by_cases hlimit : s.maxDepth ≤ s.depth
    -- the first session would have run into its limit here
    · rw [nested_of_le hlimit] at hn
      exact absurd ⟨_, _, rfl⟩ hn
    · have hlt := Nat.not_le.mp hlimit
      have hlt' : (s.allow limit).depth < (s.allow limit).maxDepth := Nat.lt_of_lt_of_le hlt hle
      have hstep := h _ (hl.symm.trans (s.levels_enter hlt))
      cases hs : step s.enter with
      | ok a t =>
        have hlift := hstep.lift rfl hle (hs ▸ Outcome.not_tooDeep_ok a t)
        rw [hs] at hlift
        rw [nested_ok hlt hs, nested_ok hlt' hlift]
        rfl
      | error e t =>
        rw [nested_error hlt hs] at hn ⊢
        have hlift := hstep.lift rfl hle (hs ▸ fun h => hn (h.of_error t.leave))
        rw [hs] at hlift
        rw [nested_error hlt' hlift]
        rfl

theorem Lifts.times (h : Lifts levels step) (count : Nat) : Lifts levels (times count step) := by
  induction count with
  | zero => exact .pure []
  | succ count ih =>
    rw [times_succ]
    exact h.bind fun a => ih.bind fun rest => .pure _

theorem Lifts.roundsFrom {round : Decode (α ⊕ β)} (h : Lifts levels round) (found : List α)
    (fuel : Nat) : Lifts levels (roundsFrom round found fuel) := by
  induction fuel generalizing found with
  | zero => exact lifts_octet.bind fun code => lifts_unexpected code
  | succ fuel ih =>
    refine h.bind fun r => ?_
    cases r with
    | inl a => exact ih (a :: found)
    | inr b => exact .pure _

theorem Lifts.rounds {round : Decode (α ⊕ β)} (h : Lifts levels round) :
    Lifts levels (rounds round) :=
  .of_forall fun s => ⟨_, h.roundsFrom [] s.input.length, fun _ => rfl⟩

theorem lifts_terminator : Lifts levels terminator := by
  refine lifts_peek.bind fun code => ?_
  split
  · exact lifts_octet.bind fun _ => .pure true
  · exact .pure false

theorem Lifts.untilTerminator (h : Lifts levels step) : Lifts levels (untilTerminator step) := by
  refine .map _ (Lifts.rounds (lifts_terminator.bind fun done => ?_))
  split
  · exact .pure _
  · exact h.bind fun _ => .pure _

theorem Lifts.chunks {chunk : Decode (Bool × List α)} (h : Lifts levels chunk) :
    Lifts levels (chunks chunk) :=
  (h.bind fun _ => .pure _).rounds.bind fun _ => .pure _

/-! ## Scalars -/

theorem lifts_null : Lifts levels null := by
  refine lifts_octet.bind fun code => ?_
  split
  · exact .pure _
  · exact lifts_unexpected code

theorem lifts_boolean : Lifts levels boolean := by
  refine lifts_octet.bind fun code => ?_
  split
  · exact .pure _
  · exact lifts_unexpected code

theorem lifts_int : Lifts levels int := by
  refine lifts_octet.bind fun code => ?_
  split
  · exact (lifts_word _).bind fun _ => .pure _
  · exact (lifts_word 4).bind fun _ => .pure _
  · exact lifts_unexpected code

theorem lifts_long : Lifts levels long := by
  refine lifts_octet.bind fun code => ?_
  split
  · exact (lifts_word _).bind fun _ => .pure _
  · exact (lifts_word 4).bind fun _ => .pure _
  · exact (lifts_word 8).bind fun _ => .pure _
  · exact lifts_unexpected code

theorem lifts_double : Lifts levels double := by
  refine lifts_octet.bind fun code => ?_
  split
  · exact .pure _
  · exact .pure _
  · exact (lifts_word 1).bind fun _ => .pure _
  · exact (lifts_word 2).bind fun _ => .pure _
  · exact (lifts_word 4).bind fun _ => .pure _
  · exact (lifts_word 8).bind fun _ => .pure _
  · exact lifts_unexpected code

theorem lifts_date : Lifts levels date := by
  refine lifts_octet.bind fun code => ?_
  split
  · exact (lifts_word 8).bind fun _ => .pure _
  · exact (lifts_word 4).bind fun _ => .pure _
  · exact lifts_unexpected code

theorem lifts_binaryChunk : Lifts levels binaryChunk := by
  refine lifts_octet.bind fun code => ?_
  split
  · exact (lifts_word _).bind fun _ => (lifts_octets _).bind fun _ => .pure _
  · exact lifts_unexpected code

theorem lifts_binary : Lifts levels binary := lifts_binaryChunk.chunks

theorem lifts_ref : Lifts levels ref := by
  refine lifts_offset.bind fun start => lifts_octet.bind fun code => ?_
  split
  · refine lifts_int.bind fun index => lifts_started.bind fun started => ?_
    split
    · exact .pure _
    · exact .throw _
  · exact lifts_unexpected code

theorem lifts_characters (count : Nat) : Lifts levels (characters count) := by
  refine .of_regular (regular_characters count) fun s limit => ?_
  unfold characters Decoder.allow
  dsimp only
  cases (Text.scan count s.input).stop <;> rfl

theorem lifts_textChunk : Lifts levels textChunk := by
  refine lifts_octet.bind fun code => ?_
  split
  · exact (lifts_word _).bind fun _ => (lifts_characters _).bind fun _ => .pure _
  · exact lifts_unexpected code

theorem lifts_string : Lifts levels string := lifts_textChunk.chunks.map _

/-! ## Containers -/

theorem lifts_typeName : Lifts levels typeName := by
  refine lifts_offset.bind fun start => lifts_peek.bind fun code => ?_
  split
  · exact lifts_string.bind fun name => (lifts_addType name).bind fun _ => .pure _
  · exact lifts_int.bind fun index => lifts_lookup (fun _ _ => rfl) (fun _ _ => rfl) _ _ _

theorem lifts_optionalType (typed : Bool) : Lifts levels (optionalType typed) := by
  unfold optionalType
  split
  · exact lifts_typeName.map some
  · exact .pure none

theorem lifts_listLength : Lifts levels listLength := by
  refine lifts_offset.bind fun start => lifts_int.bind fun length => ?_
  dsimp only
  split
  · exact .pure _
  · exact .throw _

theorem lifts_listBegin : Lifts levels listBegin := by
  refine lifts_octet.bind fun code => ?_
  split
  · refine (lifts_optionalType _).bind fun type => ?_
    have hend (length : Option Nat) : Lifts levels
        (addContainer >>= fun _ => pure (⟨type, length⟩ : ListHeader)) :=
      lifts_addContainer.bind fun _ => .pure _
    split
    · exact (Lifts.pure none).bind hend
    · exact (lifts_listLength.map some).bind hend
    · exact (Lifts.pure _).bind hend
  · exact lifts_unexpected code

theorem lifts_mapBegin : Lifts levels mapBegin := by
  refine lifts_octet.bind fun code => ?_
  split
  · exact (lifts_optionalType _).bind fun type => lifts_addContainer.bind fun _ => .pure _
  · exact lifts_unexpected code

theorem lifts_definitionBody : Lifts levels definitionBody := by
  refine lifts_string.bind fun typeName => lifts_offset.bind fun start =>
    lifts_int.bind fun count => ?_
  dsimp only
  split
  · exact .throw _
  · exact (lifts_string.times _).bind fun _ => (lifts_addDefinition _).bind fun _ => .pure _

theorem lifts_objectRound : Lifts levels objectRound := by
  refine lifts_offset.bind fun start => lifts_octet.bind fun code => ?_
  have hinstance (index : Int) : Lifts levels (do
      let c ← lookup .definition Decoder.definitions index start
      addContainer
      return (.inr c : Definition ⊕ Definition)) :=
    (lifts_lookup (fun _ _ => rfl) (fun _ _ => rfl) _ _ _).bind fun _ =>
      lifts_addContainer.bind fun _ => .pure _
  split
  · exact lifts_definitionBody.map _
  · exact lifts_int.bind fun index => hinstance _
  · exact hinstance _
  · exact lifts_unexpected code

theorem lifts_objectBegin : Lifts levels objectBegin := lifts_objectRound.rounds.map _

section Parts

variable {inner : Decode Value}

theorem lifts_listOf (h : ∀ below, levels = below + 1 → Lifts below inner) :
    Lifts levels (listOf inner) := by
  refine lifts_listBegin.bind fun header => Lifts.bind (.nested fun below hb => ?_) fun _ => .pure _
  split
  · exact (h below hb).times _
  · exact (h below hb).untilTerminator

theorem lifts_mapOf (h : ∀ below, levels = below + 1 → Lifts below inner) :
    Lifts levels (mapOf inner inner) := by
  refine lifts_mapBegin.bind fun type => Lifts.bind (.nested fun below hb => ?_) fun _ => .pure _
  exact .untilTerminator ((h below hb).bind fun _ => (h below hb).bind fun _ => .pure _)

theorem lifts_valueOf (h : ∀ below, levels = below + 1 → Lifts below inner) (lead : Lead) :
    Lifts levels (valueOf inner lead) := by
  have hobject : Lifts levels (objectBegin >>= fun c => do
      let fields ← Decode.nested (Decode.times c.fieldNames.length inner)
      return Value.object c fields) :=
    lifts_objectBegin.bind fun c =>
      Lifts.bind (.nested fun below hb => (h below hb).times _) fun _ => .pure _
  have hrefused : Lifts levels (octet >>= fun code => (unexpected code : Decode Value)) :=
    lifts_octet.bind fun code => lifts_unexpected code
  cases lead with
  | null => exact lifts_null.bind fun _ => .pure _
  | boolean b => exact lifts_boolean.map _
  | int | intWord => exact lifts_int.map _
  | long | longInt | longWord => exact lifts_long.map _
  | doubleZero | doubleOne | doubleByte | doubleShort | doubleMilli | doubleWord =>
    exact lifts_double.map _
  | dateMillis | dateMinutes => exact lifts_date.map _
  | binary => exact lifts_binary.map _
  | string => exact lifts_string.map _
  | list => exact (lifts_listOf h).bind fun _ => .pure _
  | map => exact (lifts_mapOf h).bind fun _ => .pure _
  | definition | object | objectShort => exact hobject
  | ref => exact lifts_ref.map _
  | terminator | unassigned => exact hrefused

end Parts

/-- A value is read in the same way where more is allowed. -/
theorem lifts_value (levels : Nat) : Lifts levels value := by
  induction levels with
  | zero =>
    rw [value_eq]
    refine lifts_peek.bind fun _ => lifts_valueOf (fun below hb => ?_) _
    cases hb
  | succ levels ih =>
    rw [value_eq]
    refine lifts_peek.bind fun _ => lifts_valueOf (fun below hb => ?_) _
    obtain rfl := Nat.succ.inj hb
    exact ih

/-- A value is read exactly where so many levels are allowed as it has been derived with. -/
theorem value_allow_iff {s t : Decoder} {n : Nat} {bytes : Bytes} {v : Value}
    (hp : s.Passes bytes t) (hd : Derives n s.tables bytes (.value v) t.tables) (limit : Nat) :
    value (s.allow limit) = .ok v (t.allow limit) ↔ n ≤ limit - s.depth := by
  have hpasses := hp.allow limit
  constructor
  · intro h
    obtain ⟨n', hn, bytes', hp', hd'⟩ := derives_of_value h
    obtain ⟨rfl, -⟩ := hd.unique hd' (hpasses.input.symm.trans hp'.input)
    exact hn
  · intro hn
    rw [(readsIn_value hd (s.allow limit) t.input rfl hpasses.input).1 hn]
    exact congrArg _ hpasses.moved.symm

/-- What the limit makes of a value.  A session that may go deeper does the same, unless the first
one has run into its limit.  A value that is read nests no deeper than the session may go from where
it is.  And a value that is read at all is read exactly where so many levels of containers are
allowed as its octets have, whether or not the value has kept these containers. -/
theorem value_allow (s : Decoder) {limit limit' : Nat} (h : limit ≤ limit') :
    (¬ Outcome.TooDeep (value (s.allow limit)) →
      value (s.allow limit') = Outcome.allow limit' (value (s.allow limit))) ∧
    (∀ v t, value (s.allow limit) = .ok v t → v.height ≤ limit - s.depth) ∧
    ∀ v t, value (s.allow limit') = .ok v t → ∃ n bytes, (s.allow limit').Passes bytes t ∧
      Derives n s.tables bytes (.value v) t.tables ∧
        (value (s.allow limit) = .ok v (t.allow limit) ↔ n ≤ limit - s.depth) := by
  refine ⟨(lifts_value _).lift rfl h, fun v t hv => ?_, fun v t hv => ?_⟩
  · obtain ⟨T, hT, rfl⟩ := trace_of_value hv
    exact (sound_trace _ T t hT).1.height
  · obtain ⟨n, -, bytes, hp, hd⟩ := derives_of_value hv
    exact ⟨n, bytes, hp, hd, value_allow_iff hp hd limit⟩

/-- A list of one int is read in the same way where two levels are allowed as where one is. -/
theorem value_allow_list :
    let s : Decoder := { input := [0x79, 0x91], maxDepth := 0 }
    ∃ t, value (s.allow 1) = .ok (.list none [.int 1]) t ∧
      value (s.allow 2) = .ok (.list none [.int 1]) (t.allow 2) ∧
      (Value.list none [.int 1]).height ≤ 1 := by
  intro s
  let t : Decoder := { input := [], offset := 2, containers := 1, maxDepth := 1 }
  have hread : value (s.allow 1) = .ok (.list none [.int 1]) t := by cbv
  obtain ⟨hlift, hheight, -⟩ := value_allow s (show 1 ≤ 2 by decide)
  refine ⟨t, hread, ?_, hheight _ t hread⟩
  rw [hlift (hread ▸ Outcome.not_tooDeep_ok _ t), hread]
  rfl

end Decode

end Hessian
