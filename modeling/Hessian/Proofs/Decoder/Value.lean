import Hessian.Proofs.Decoder.Reader

/-!
# Reading values layer by layer

`Decode.value` is given a layer for every level of nesting that the session allows.  Nothing is
ever run deeper than that, so it satisfies the equation one would write without a bound:
`Decode.value_eq`, a value is a layer whose parts are values.

A layer reads a value by the step for its kind.  The other way around, the step for a kind takes
only octets that open the values of that kind (`opens_int` and its like), so that where it succeeds
the layer reads by it (`valueWith_of_opens`).
-/

namespace Hessian.Decode

variable {α β : Type}

/-! ## Steps that agree -/

/-- The two steps do the same in every session of a kind. -/
def AgreeOn (P : Decoder → Prop) (x y : Decode α) : Prop := ∀ s, P s → x s = y s

/-- A session stays of a kind when it moves on. -/
def Lasting (P : Decoder → Prop) : Prop := ∀ s t : Decoder, s.Advance t → P s → P t

/-- A session of the first kind becomes one of the second kind where it takes the header of a
container and goes one level deeper. -/
def Enters (P Q : Decoder → Prop) : Prop :=
  ∀ s t : Decoder, s.Advance t → t.input.length < s.input.length → t.depth < t.maxDepth →
    P s → Q t.enter

/-- The same may follow steps that do the same. -/
theorem bind_congr_left {x y : Decode α} {s : Decoder} (h : x s = y s) (f : α → Decode β) :
    (x >>= f) s = (y >>= f) s := by
  change EStateM.bind x f s = EStateM.bind y f s
  unfold EStateM.bind
  rw [h]

/-- Steps need to do the same one level deeper only if the session may go there. -/
theorem nested_congr {x y : Decode α} {s : Decoder}
    (h : s.depth < s.maxDepth → x s.enter = y s.enter) : nested x s = nested y s := by
  by_cases hle : s.maxDepth ≤ s.depth
  · rw [nested_of_le hle, nested_of_le hle]
  · have hlt := Nat.not_le.mp hle
    cases hs : x s.enter with
    | ok a t => rw [nested_ok hlt hs, nested_ok hlt ((h hlt).symm.trans hs)]
    | error e t => rw [nested_error hlt hs, nested_error hlt ((h hlt).symm.trans hs)]

section AgreeOn

variable {P Q : Decoder → Prop}

theorem AgreeOn.refl (x : Decode α) : AgreeOn P x x := fun _ _ => rfl

/-- The same may follow steps that agree. -/
theorem AgreeOn.andThen {x y : Decode α} (h : AgreeOn P x y) (f : α → Decode β) :
    AgreeOn P (x >>= f) (y >>= f) :=
  fun s hs => bind_congr_left (h s hs) f

/-- What agrees may follow a regular step if the kind of the session lasts. -/
theorem AgreeOn.bind {x y : Decode α} {f g : α → Decode β} (hP : Lasting P) (hx : Regular x)
    (h : AgreeOn P x y) (hf : ∀ a, AgreeOn P (f a) (g a)) : AgreeOn P (x >>= f) (y >>= g) := by
  intro s hs
  rw [← bind_congr_left (h s hs) g]
  exact bind_congr_ok fun a t ht => hf a t (hP s t (hx.advance_ok ht) hs)

theorem AgreeOn.times {x y : Decode α} (hP : Lasting P) (hx : Regular x) (h : AgreeOn P x y)
    (count : Nat) : AgreeOn P (times count x) (times count y) := by
  induction count with
  | zero => exact .refl _
  | succ count ih =>
    rw [times_succ, times_succ]
    exact h.bind hP hx fun a => ih.andThen _

theorem AgreeOn.roundsFrom {x y : Decode (α ⊕ β)} (hP : Lasting P) (hx : Regular x)
    (h : AgreeOn P x y) (found : List α) (fuel : Nat) :
    AgreeOn P (roundsFrom x found fuel) (roundsFrom y found fuel) := by
  induction fuel generalizing found with
  | zero => exact .refl _
  | succ fuel ih =>
    apply h.bind hP hx
    intro r
    cases r with
    | inl a => exact ih (a :: found)
    | inr b => exact .refl _

theorem AgreeOn.untilTerminator {x y : Decode α} (hP : Lasting P) (hx : Regular x)
    (h : AgreeOn P x y) : AgreeOn P (untilTerminator x) (untilTerminator y) := by
  have hr : AgreeOn P (unlessTerminator x) (unlessTerminator y) := by
    apply AgreeOn.bind hP regular_terminator (.refl _)
    intro done
    split
    · exact .refl _
    · exact h.andThen _
  intro s hs
  change EStateM.map _ (rounds (unlessTerminator x)) s =
    EStateM.map _ (rounds (unlessTerminator y)) s
  unfold EStateM.map rounds
  rw [AgreeOn.roundsFrom hP (regular_unlessTerminator hx) hr [] _ s hs]

/-- Containers agree if their parts do one level deeper. -/
theorem AgreeOn.container {γ : Type} {header : Decode α} {x y : α → Decode β} (hPQ : Enters P Q)
    (hh : Reader header) (h : ∀ a, AgreeOn Q (x a) (y a)) (f : α → β → Decode γ) :
    AgreeOn P (header >>= fun a => nested (x a) >>= f a)
      (header >>= fun a => nested (y a) >>= f a) := by
  intro s hs
  refine bind_congr_ok fun a t ht => bind_congr_left (nested_congr fun hlt => h a t.enter ?_) _
  exact hPQ s t (hh.toRegular.advance_ok ht) (hh.productive s a t ht) hlt hs

section Containers

variable (hQ : Lasting Q) (hPQ : Enters P Q)

include hQ hPQ

theorem AgreeOn.listOf {x y : Decode α} (hx : Regular x) (h : AgreeOn Q x y) :
    AgreeOn P (listOf x) (listOf y) := by
  refine AgreeOn.container hPQ reader_listBegin (fun header => ?_) _
  split
  · exact h.times hQ hx _
  · exact h.untilTerminator hQ hx

theorem AgreeOn.mapOf {k l : Decode α} {x y : Decode β} (hk : Regular k) (hx : Regular x)
    (hkey : AgreeOn Q k l) (h : AgreeOn Q x y) : AgreeOn P (mapOf k x) (mapOf l y) := by
  refine AgreeOn.container hPQ reader_mapBegin (fun type => ?_) _
  refine AgreeOn.untilTerminator hQ (hk.pairOf hx) ?_
  exact hkey.bind hQ hk fun a => h.andThen _

/-- Values of any form agree if what reads their parts agrees one level deeper. -/
theorem AgreeOn.valueOf {x y : Decode Value} (hx : Regular x) (h : AgreeOn Q x y) (lead : Lead) :
    AgreeOn P (valueOf x lead) (valueOf y lead) := by
  have ho : AgreeOn P (Decode.valueOf x .object) (Decode.valueOf y .object) :=
    AgreeOn.container hPQ reader_objectBegin (fun c => h.times hQ hx _) _
  cases lead with
  | list typed length => exact (AgreeOn.listOf hQ hPQ hx h).andThen _
  | map typed => exact (AgreeOn.mapOf hQ hPQ hx hx h h).andThen _
  | definition => exact ho
  | object => exact ho
  | objectShort index => exact ho
  | _ => exact .refl _

/-- Layers agree if what reads their parts agrees one level deeper. -/
theorem AgreeOn.valueWith {x y : Decode Value} (hP : Lasting P) (hx : Regular x)
    (h : AgreeOn Q x y) : AgreeOn P (valueWith x) (valueWith y) :=
  AgreeOn.bind hP regular_peek (.refl _) fun _ => .valueOf hQ hPQ hx h _

end Containers

end AgreeOn

/-! ## Steps that agree at a depth -/

/-- The two steps do the same in every session that is at this depth and may go so deep. -/
def AgreeAt (maxDepth depth : Nat) (x y : Decode α) : Prop :=
  ∀ s : Decoder, s.maxDepth = maxDepth → s.depth = depth → x s = y s

/-- The session is at this depth and may go so deep. -/
def At (maxDepth depth : Nat) (s : Decoder) : Prop := s.maxDepth = maxDepth ∧ s.depth = depth

section AgreeAt

variable {maxDepth depth : Nat}

theorem lasting_at : Lasting (At maxDepth depth) :=
  fun _ _ h hs => ⟨h.maxDepth.trans hs.1, h.depth.trans hs.2⟩

theorem agreeAt_iff {x y : Decode α} :
    AgreeAt maxDepth depth x y ↔ AgreeOn (At maxDepth depth) x y :=
  ⟨fun h s hs => h s hs.1 hs.2, fun h s hm hd => h s ⟨hm, hd⟩⟩

/-- The session is one level deeper than this depth, as it may be. -/
def Below (maxDepth depth : Nat) (s : Decoder) : Prop :=
  depth < maxDepth ∧ At maxDepth (depth + 1) s

theorem lasting_below : Lasting (Below maxDepth depth) :=
  fun s t h hs => ⟨hs.1, lasting_at s t h hs.2⟩

theorem enters_below : Enters (At maxDepth depth) (Below maxDepth depth) := by
  intro s t h _ hlt hs
  obtain ⟨hm, hd⟩ := lasting_at s t h hs
  exact ⟨hm ▸ hd ▸ hlt, hm, congrArg (· + 1) hd⟩

theorem agreeOn_below {x y : Decode α}
    (h : depth < maxDepth → AgreeAt maxDepth (depth + 1) x y) :
    AgreeOn (Below maxDepth depth) x y :=
  fun s hs => h hs.1 s hs.2.1 hs.2.2

theorem AgreeAt.refl (x : Decode α) : AgreeAt maxDepth depth x x := fun _ _ _ => rfl

/-- A regular step comes back to its depth, so what agrees there may follow it. -/
theorem AgreeAt.bind {x y : Decode α} {f g : α → Decode β} (hx : Regular x)
    (h : AgreeAt maxDepth depth x y) (hf : ∀ a, AgreeAt maxDepth depth (f a) (g a)) :
    AgreeAt maxDepth depth (x >>= f) (y >>= g) :=
  agreeAt_iff.mpr ((agreeAt_iff.mp h).bind lasting_at hx fun a => agreeAt_iff.mp (hf a))

/-- The same may follow steps that agree. -/
theorem AgreeAt.andThen {x y : Decode α} (h : AgreeAt maxDepth depth x y) (f : α → Decode β) :
    AgreeAt maxDepth depth (x >>= f) (y >>= f) :=
  agreeAt_iff.mpr ((agreeAt_iff.mp h).andThen f)

/-- Steps need to agree one level deeper only if the session may go there. -/
theorem AgreeAt.nested {x y : Decode α}
    (h : depth < maxDepth → AgreeAt maxDepth (depth + 1) x y) :
    AgreeAt maxDepth depth (nested x) (nested y) := by
  rintro s rfl rfl
  exact nested_congr fun hlt => h hlt s.enter rfl rfl

theorem AgreeAt.listOf {x y : Decode α} (hx : Regular x)
    (h : depth < maxDepth → AgreeAt maxDepth (depth + 1) x y) :
    AgreeAt maxDepth depth (listOf x) (listOf y) :=
  agreeAt_iff.mpr (.listOf lasting_below enters_below hx (agreeOn_below h))

theorem AgreeAt.mapOf {k l : Decode α} {x y : Decode β} (hk : Regular k) (hx : Regular x)
    (hkey : depth < maxDepth → AgreeAt maxDepth (depth + 1) k l)
    (h : depth < maxDepth → AgreeAt maxDepth (depth + 1) x y) :
    AgreeAt maxDepth depth (mapOf k x) (mapOf l y) :=
  agreeAt_iff.mpr
    (.mapOf lasting_below enters_below hk hx (agreeOn_below hkey) (agreeOn_below h))

/-- Layers agree if what reads their parts agrees one level deeper. -/
theorem AgreeAt.valueWith {x y : Decode Value} (hx : Regular x)
    (h : depth < maxDepth → AgreeAt maxDepth (depth + 1) x y) :
    AgreeAt maxDepth depth (valueWith x) (valueWith y) :=
  agreeAt_iff.mpr (.valueWith lasting_below enters_below lasting_at hx (agreeOn_below h))

end AgreeAt

/-- A value is a layer whose parts are values. -/
theorem value_eq : value = valueWith value := by
  funext s
  unfold value
  cases hl : s.maxDepth - s.depth with
  | zero =>
    refine AgreeAt.valueWith regular_tooDeep (fun hlt => ?_) s rfl rfl
    omega
  | succ levels =>
    refine AgreeAt.valueWith (reader_valueWithin levels).toRegular (fun _ t hm hd => ?_) s rfl rfl
    rw [show t.maxDepth - t.depth = levels by omega]

/-! ## What a step opens with -/

/-- The step succeeds only if the next octet is the lead byte of such a form. -/
def Opens (P : Lead → Prop) (step : Decode α) : Prop :=
  ∀ s a t, step s = .ok a t → ∃ code rest, s.input = code :: rest ∧ P (Lead.ofByte code)

/-- Where a step succeeds that does not open with a terminator, there is none. -/
theorem terminator_of_opens {step : Decode α} (ho : Opens (· ≠ .terminator) step) {s t : Decoder}
    {a : α} (hs : step s = .ok a t) : terminator s = .ok false s := by
  obtain ⟨code, rest, hi, hl⟩ := ho s a t hs
  unfold terminator
  rw [bind_ok (peek_of_input hi), if_neg hl]
  rfl

/-- Steps up to a terminator can be repeated until there is a terminator. -/
theorem untilTerminator_of_times {step : Decode α} (hp : Productive step)
    (ho : Opens (· ≠ .terminator) step) {count : Nat} {as : List α} {s t u : Decoder}
    (ht : times count step s = .ok as t) (hu : terminator t = .ok true u) :
    untilTerminator step s = .ok as u := by
  induction count generalizing s as with
  | zero =>
    obtain ⟨rfl, rfl⟩ := EStateM.Result.ok.inj ht
    rw [untilTerminator_eq hp, bind_ok hu]
    rfl
  | succ count ih =>
    rw [times_succ] at ht
    obtain ⟨a, v, ha, ht⟩ := ok_of_bind ht
    obtain ⟨rest, w, hrest, ht⟩ := ok_of_bind ht
    obtain ⟨rfl, rfl⟩ := EStateM.Result.ok.inj ht
    rw [untilTerminator_eq hp, bind_ok (terminator_of_opens ho ha)]
    change (step >>= _) s = _
    rw [bind_ok ha, bind_ok (ih hrest)]
    rfl

section Opens

variable {P : Lead → Prop}

theorem Opens.bind {x : Decode α} (h : Opens P x) (f : α → Decode β) : Opens P (x >>= f) := by
  intro s b u hb
  cases hs : x s with
  | ok a t => exact h s a t hs
  | error e t =>
    rw [bind_error hs] at hb
    cases hb

theorem Opens.map {x : Decode α} (h : Opens P x) (f : α → β) : Opens P (f <$> x) := by
  rw [map_eq_pure_bind]
  exact h.bind _

theorem Opens.fromOffset {f : Nat → Decode α} (h : ∀ start, Opens P (f start)) :
    Opens P (offset >>= f) :=
  fun s => h s.offset s

/-- A step that takes an octet opens with those that it can go on from. -/
theorem opens_octet {f : UInt8 → Decode α}
    (h : ∀ code s a t, f code s = .ok a t → P (Lead.ofByte code)) : Opens P (octet >>= f) := by
  intro s a t hs
  cases hi : s.input with
  | nil =>
    rw [bind_error (hungry_octet s hi)] at hs
    cases hs
  | cons code rest =>
    rw [bind_ok (octet_of_input hi)] at hs
    exact ⟨code, rest, rfl, h code _ a t hs⟩

theorem Opens.rounds {round : Decode (α ⊕ β)} (h : Opens P round) : Opens P (rounds round) := by
  intro s r t hr
  unfold Decode.rounds at hr
  cases hn : s.input.length with
  | zero =>
    rw [hn, roundsFrom, bind_error (hungry_octet s (List.length_eq_zero_iff.mp hn))] at hr
    cases hr
  | succ n =>
    rw [hn, roundsFrom] at hr
    exact h.bind _ s r t hr

theorem Opens.chunks {chunk : Decode (Bool × List α)} (h : Opens P chunk) :
    Opens P (chunks chunk) :=
  (h.bind _ : Opens P (chunkRound chunk)).rounds.bind _

end Opens

/-! ## The steps for the kinds of values -/

/-- The forms whose values are read by a step, which answers in some way. -/
def ReadBy (inner : Decode Value) (step : Decode α) (answer : α → Decode Value) (lead : Lead) :
    Prop :=
  valueOf inner lead = step >>= answer

/-- Where a step succeeds that opens as those of a kind do, the value is of that kind. -/
theorem valueWith_eq_of_opens {γ : Type} {inner : Decode Value} {head : Decode γ} {step : Decode α}
    {answer : α → Decode Value} {s t : Decoder} {c : γ} (ho : Opens (ReadBy inner step answer) head)
    (hs : head s = .ok c t) : valueWith inner s = (step >>= answer) s := by
  obtain ⟨code, rest, hi, hl⟩ := ho s c t hs
  unfold valueWith
  have hl : valueOf inner (Lead.ofByte code) = step >>= answer := hl
  rw [bind_ok (peek_of_input hi), hl]

/-- Where the step for a kind succeeds, the value is of that kind. -/
theorem valueWith_of_opens {inner : Decode Value} {step : Decode α} {answer : α → Decode Value}
    {s t : Decoder} {a : α} (ho : Opens (ReadBy inner step answer) step) (hs : step s = .ok a t) :
    valueWith inner s = answer a t := by
  rw [valueWith_eq_of_opens ho hs, bind_ok hs]

section Kinds

variable (inner : Decode Value)

theorem opens_null : Opens (ReadBy inner null fun _ => pure .null) null := by
  apply opens_octet
  intro code s a t h
  cases hl : Lead.ofByte code with
  | null => rfl
  | _ =>
    rw [hl] at h
    cases h

theorem opens_boolean : Opens (ReadBy inner boolean fun b => pure (.boolean b)) boolean := by
  apply opens_octet
  intro code s a t h
  cases hl : Lead.ofByte code with
  | boolean b => exact map_eq_pure_bind _ _
  | _ =>
    rw [hl] at h
    cases h

theorem opens_int : Opens (ReadBy inner int fun n => pure (.int n)) int := by
  apply opens_octet
  intro code s a t h
  cases hl : Lead.ofByte code with
  | int tail high => exact map_eq_pure_bind _ _
  | intWord => exact map_eq_pure_bind _ _
  | _ =>
    rw [hl] at h
    cases h

theorem opens_long : Opens (ReadBy inner long fun n => pure (.long n)) long := by
  apply opens_octet
  intro code s a t h
  cases hl : Lead.ofByte code with
  | long tail high => exact map_eq_pure_bind _ _
  | longInt => exact map_eq_pure_bind _ _
  | longWord => exact map_eq_pure_bind _ _
  | _ =>
    rw [hl] at h
    cases h

theorem opens_double : Opens (ReadBy inner double fun d => pure (.double d)) double := by
  apply opens_octet
  intro code s a t h
  cases hl : Lead.ofByte code with
  | doubleZero => exact map_eq_pure_bind _ _
  | doubleOne => exact map_eq_pure_bind _ _
  | doubleByte => exact map_eq_pure_bind _ _
  | doubleShort => exact map_eq_pure_bind _ _
  | doubleMilli => exact map_eq_pure_bind _ _
  | doubleWord => exact map_eq_pure_bind _ _
  | _ =>
    rw [hl] at h
    cases h

theorem opens_date : Opens (ReadBy inner date fun n => pure (.date n)) date := by
  apply opens_octet
  intro code s a t h
  cases hl : Lead.ofByte code with
  | dateMillis => exact map_eq_pure_bind _ _
  | dateMinutes => exact map_eq_pure_bind _ _
  | _ =>
    rw [hl] at h
    cases h

theorem opens_binary : Opens (ReadBy inner binary fun b => pure (.binary b)) binary := by
  refine Opens.chunks (opens_octet fun code s a t h => ?_)
  cases hl : Lead.ofByte code with
  | binary isFinal tail high => exact map_eq_pure_bind _ _
  | _ =>
    rw [hl] at h
    cases h

theorem opens_textChunk : Opens (fun lead => ∃ isFinal tail high, lead = .string isFinal tail high)
    textChunk := by
  apply opens_octet
  intro code s a t h
  cases hl : Lead.ofByte code with
  | string isFinal tail high => exact ⟨isFinal, tail, high, rfl⟩
  | _ =>
    rw [hl] at h
    cases h

theorem opens_string : Opens (ReadBy inner string fun b => pure (.string b)) string := by
  intro s a t h
  obtain ⟨code, rest, hi, isFinal, tail, high, hl⟩ := opens_textChunk.chunks.map _ s a t h
  refine ⟨code, rest, hi, ?_⟩
  rw [hl]
  exact map_eq_pure_bind _ _

theorem opens_ref : Opens (ReadBy inner ref fun i => pure (.ref i)) ref := by
  refine Opens.fromOffset fun start => opens_octet fun code s a t h => ?_
  cases hl : Lead.ofByte code with
  | ref => exact map_eq_pure_bind _ _
  | _ =>
    rw [hl] at h
    cases h

theorem opens_listBegin : Opens (ReadBy inner (listOf inner) fun r => pure (.list r.1 r.2))
    listBegin := by
  apply opens_octet
  intro code s a t h
  cases hl : Lead.ofByte code with
  | list typed length => rfl
  | _ =>
    rw [hl] at h
    cases h

theorem opens_listOf : Opens (ReadBy inner (listOf inner) fun r => pure (.list r.1 r.2))
    (listOf inner) :=
  (opens_listBegin inner).bind _

theorem opens_mapBegin : Opens (ReadBy inner (mapOf inner inner)
    fun r => pure (.map r.1 (Entries.ofPairs r.2))) mapBegin := by
  apply opens_octet
  intro code s a t h
  cases hl : Lead.ofByte code with
  | map typed => rfl
  | _ =>
    rw [hl] at h
    cases h

theorem opens_mapOf : Opens (ReadBy inner (mapOf inner inner)
    fun r => pure (.map r.1 (Entries.ofPairs r.2))) (mapOf inner inner) :=
  (opens_mapBegin inner).bind _

theorem opens_objectRound : Opens (ReadBy inner objectBegin fun c => do
    let fields ← nested (times c.fieldNames.length inner)
    return .object c fields) objectRound := by
  refine Opens.fromOffset fun start => opens_octet fun code s a t h => ?_
  cases hl : Lead.ofByte code with
  | definition => rfl
  | object => rfl
  | objectShort index => rfl
  | _ =>
    rw [hl] at h
    cases h

theorem opens_objectBegin : Opens (ReadBy inner objectBegin fun c => do
    let fields ← nested (times c.fieldNames.length inner)
    return .object c fields) objectBegin :=
  (opens_objectRound inner).rounds.map _

/-- A value does not open with a terminator. -/
theorem opens_valueWith : Opens (· ≠ .terminator) (valueWith inner) := by
  intro s a t h
  cases hi : s.input with
  | nil =>
    rw [valueWith, bind_error (hungry_peek s hi)] at h
    cases h
  | cons code rest =>
    refine ⟨code, rest, rfl, ?_⟩
    intro hl
    rw [valueWith, bind_ok (peek_of_input hi), hl, valueOf, bind_ok (octet_of_input hi)] at h
    cases h

end Kinds

theorem opens_value : Opens (· ≠ .terminator) value := by
  rw [value_eq]
  exact opens_valueWith value

/-- An int does not open as a string does. -/
theorem opens_int_isString : Opens (·.isString = false) int := by
  apply opens_octet
  intro code s a t h
  cases hl : Lead.ofByte code with
  | string isFinal tail high =>
    rw [hl] at h
    cases h
  | _ => rfl

/-- A string opens as strings do. -/
theorem opens_string_isString : Opens (·.isString = true) string := by
  intro s a t h
  obtain ⟨code, rest, hi, isFinal, tail, high, hl⟩ := opens_textChunk.chunks.map _ s a t h
  refine ⟨code, rest, hi, ?_⟩
  rw [hl]
  rfl

/-! ## Types and tables -/

/-- What is in a table is found. -/
theorem lookup_of_getElem? {kind : RefKind} {table : Decoder → List α} {index : Nat} {s : Decoder}
    {a : α} (h : (table s)[index]? = some a) (offset : Nat) :
    lookup kind table index offset s = .ok a s := by
  unfold lookup
  rw [if_pos (Int.natCast_nonneg index), Int.toNat_natCast, h]

/-- Where a string can be read, the type is new. -/
theorem typeName_of_string {s t : Decoder} {name : String} (h : string s = .ok name t) :
    typeName s = (addType name >>= fun _ => pure name) t := by
  obtain ⟨code, rest, hi, hl⟩ := opens_string_isString s name t h
  change (peek >>= fun code => _) s = _
  rw [bind_ok (peek_of_input hi), if_pos hl, bind_ok h]

/-- Where an int can be read, it is the index of the type. -/
theorem typeName_of_int {s t : Decoder} {index : Int32} (h : int s = .ok index t) :
    typeName s = lookup .type Decoder.types index.toInt s.offset t := by
  obtain ⟨code, rest, hi, hl⟩ := opens_int_isString s index t h
  change (peek >>= fun code => _) s = _
  rw [bind_ok (peek_of_input hi), if_neg (by rw [hl]; exact Bool.false_ne_true), bind_ok h]

/-- The header of an instance is the last round, or a definition comes before it. -/
theorem objectBegin_eq : objectBegin = (do
    match ← objectRound with
    | .inl _ => objectBegin
    | .inr c => return c) := by
  unfold objectBegin
  conv =>
    lhs
    rw [rounds_eq reader_objectRound.paced reader_objectRound.hungry, map_bind]
  apply bind_congr
  intro r
  cases r with
  | inl c => simp
  | inr c => simp

end Hessian.Decode
