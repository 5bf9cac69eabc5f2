import Hessian.Proofs.Decoder.Value
import Hessian.Proofs.Decoder.Yields
import Hessian.Proofs.Grammar.Basic

/-!
# What is read is in the grammar

`Decode.Finds levels F step` says that every success of the step, in a session that allows so many
more levels, has taken octets of the form `F` and has changed nothing but the tables.  It goes
through the steps as they are put together, each reader with the form it reads.

A value that is read is therefore a value of the grammar: `Decode.finds_value`.  Its levels of
containers are at most those that the session allowed.
-/

namespace Hessian

namespace Decoder

/-- What the session has been told so far. -/
def tables (s : Decoder) : Tables := ⟨s.types, s.definitions, s.containers⟩

/-- How many more levels the session allows. -/
def levels (s : Decoder) : Nat := s.maxDepth - s.depth

/-- A session after `count` octets, with `rest` still to come and with these tables. -/
def moved (s : Decoder) (rest : Bytes) (count : Nat) (tb : Tables) : Decoder :=
  { s with
    input := rest
    offset := s.offset + count
    types := tb.types
    definitions := tb.definitions
    containers := tb.containers }

/-- The first session becomes the second one by taking octets and changing its tables. -/
structure Passes (s : Decoder) (bytes : Bytes) (t : Decoder) : Prop where
  input : s.input = bytes ++ t.input
  moved : t = s.moved t.input bytes.length t.tables

variable {s t u : Decoder} {bytes more : Bytes}

theorem moved_moved (rest rest' : Bytes) (count count' : Nat) (tb tb' : Tables) :
    (s.moved rest count tb).moved rest' count' tb' = s.moved rest' (count + count') tb' := by
  simp only [moved, Nat.add_assoc]

@[simp] theorem tables_moved (rest : Bytes) (count : Nat) (tb : Tables) :
    (s.moved rest count tb).tables = tb := rfl

@[simp] theorem levels_moved (rest : Bytes) (count : Nat) (tb : Tables) :
    (s.moved rest count tb).levels = s.levels := rfl

theorem passes_moved {rest : Bytes} (h : s.input = bytes ++ rest) (tb : Tables) :
    s.Passes bytes (s.moved rest bytes.length tb) := ⟨h, rfl⟩

namespace Passes

theorem refl (s : Decoder) : s.Passes [] s := ⟨rfl, rfl⟩

/-- The octets of two passes stand one after another. -/
theorem trans (h : s.Passes bytes t) (h' : t.Passes more u) : s.Passes (bytes ++ more) u where
  input := by rw [h.input, h'.input, List.append_assoc]
  moved := by rw [h'.moved, h.moved, moved_moved, List.length_append]; rfl

/-- A pass does not change how deep the session may go. -/
theorem levels (h : s.Passes bytes t) : t.levels = s.levels := by
  rw [h.moved, levels_moved]

/-- What passes one level deeper passes. -/
theorem leave (h : s.enter.Passes bytes t) : s.Passes bytes t.leave where
  input := h.input
  moved := by rw [h.moved]; rfl

end Passes

end Decoder

open Grammar

namespace Decode

variable {α β : Type} {levels : Nat}

/-- A success of the step has taken octets of the form, and has changed nothing but the tables. -/
def Finds (levels : Nat) (F : Tables → Bytes → α → Tables → Prop) (step : Decode α) : Prop :=
  Yields (fun s a t => s.levels = levels → ∃ bytes, s.Passes bytes t ∧ F s.tables bytes a t.tables)
    step

/-- A form that leaves the tables as they are. -/
def Keeping (form : Bytes → α → Prop) : Tables → Bytes → α → Tables → Prop :=
  fun tb bytes a tb' => form bytes a ∧ tb' = tb

section Closure

variable {F : Tables → Bytes → α → Tables → Prop} {G : α → Tables → Bytes → β → Tables → Prop}
  {H : Tables → Bytes → β → Tables → Prop} {x : Decode α} {f : α → Decode β}

theorem finds_pure {a : α} (h : ∀ tb, F tb [] a tb) : Finds levels F (pure a) := by
  intro s b t hs _
  obtain ⟨rfl, rfl⟩ := EStateM.Result.ok.inj hs
  exact ⟨[], .refl s, h _⟩

/-- What never succeeds has found whatever one likes. -/
theorem finds_of_error (h : ∀ s, ∃ e t, x s = .error e t) : Finds levels F x := by
  intro s a t hs
  obtain ⟨e, u, he⟩ := h s
  rw [he] at hs
  cases hs

theorem finds_unexpected (code : UInt8) : Finds levels F (unexpected code) :=
  finds_of_error fun _ => ⟨_, _, rfl⟩

theorem finds_throw (e : Error) : Finds levels F (throw e : Decode α) :=
  finds_of_error fun s => ⟨e, s, rfl⟩

/-- The octets of two steps stand one after another. -/
theorem Finds.bind (hx : Finds levels F x) (hf : ∀ a, Finds levels (G a) (f a))
    (h : ∀ {tb tb' tb'' bytes more a b}, F tb bytes a tb' → G a tb' more b tb'' →
      H tb (bytes ++ more) b tb'') :
    Finds levels H (x >>= f) := by
  intro s b u hs hl
  obtain ⟨a, t, ha, hb⟩ := ok_of_bind hs
  obtain ⟨bytes, hp, hF⟩ := hx s a t ha hl
  obtain ⟨more, hp', hG⟩ := hf a t b u hb (hp.levels.trans hl)
  exact ⟨bytes ++ more, hp.trans hp', h hF hG⟩

/-- What follows may take no octets. -/
theorem Finds.andThen_nil {G : α → Tables → β → Tables → Prop} (hx : Finds levels F x)
    (hf : ∀ a, Finds levels (fun tb bytes b tb' => bytes = [] ∧ G a tb b tb') (f a))
    (h : ∀ {tb tb' tb'' bytes a b}, F tb bytes a tb' → G a tb' b tb'' → H tb bytes b tb'') :
    Finds levels H (x >>= f) :=
  hx.bind hf fun {_ _ _ bytes _ _ _} hF ⟨he, hG⟩ => by
    subst he
    exact (List.append_nil bytes).symm ▸ h hF hG

/-- Octets after which a step only answers. -/
theorem Finds.answer {g : α → β} (hx : Finds levels F x)
    (h : ∀ {tb bytes a tb'}, F tb bytes a tb' → H tb bytes (g a) tb') :
    Finds levels H (x >>= fun a => pure (g a)) := by
  intro s b u hs hl
  obtain ⟨a, t, ha, hb⟩ := ok_of_bind hs
  obtain ⟨rfl, rfl⟩ := EStateM.Result.ok.inj hb
  obtain ⟨bytes, hp, hF⟩ := hx s a t ha hl
  exact ⟨bytes, hp, h hF⟩

theorem Finds.map {g : α → β} (hx : Finds levels F x)
    (h : ∀ {tb bytes a tb'}, F tb bytes a tb' → H tb bytes (g a) tb') :
    Finds levels H (g <$> x) := by
  rw [map_eq_pure_bind]
  exact hx.answer h

theorem Finds.mono {F' : Tables → Bytes → α → Tables → Prop} (hx : Finds levels F x)
    (h : ∀ {tb bytes a tb'}, F tb bytes a tb' → F' tb bytes a tb') : Finds levels F' x := by
  intro s a t hs hl
  obtain ⟨bytes, hp, hF⟩ := hx s a t hs hl
  exact ⟨bytes, hp, h hF⟩

/-- To look at the session takes nothing. -/
theorem Finds.afterLook (hx : ∀ s a t, x s = .ok a t → t = s) (hf : ∀ a, Finds levels H (f a)) :
    Finds levels H (x >>= f) := by
  intro s b u hs hl
  obtain ⟨a, t, ha, hb⟩ := ok_of_bind hs
  obtain rfl := hx s a t ha
  exact hf a t b u hb hl

/-- What runs one level deeper runs with one level less, or not at all. -/
theorem Finds.nested {F : Nat → Tables → Bytes → α → Tables → Prop}
    {H : Tables → Bytes → α → Tables → Prop}
    (hx : ∀ below, below + 1 = levels → Finds below (F below) x)
    (h : ∀ {below tb bytes a tb'}, below + 1 = levels → F below tb bytes a tb' →
      H tb bytes a tb') :
    Finds levels H (nested x) := by
  intro s a t hs hl
  obtain ⟨hlt, u, hu, rfl⟩ := ok_of_nested hs
  have hbelow : s.enter.levels + 1 = levels := by
    rw [← hl]
    change s.maxDepth - (s.depth + 1) + 1 = s.maxDepth - s.depth
    omega
  obtain ⟨bytes, hp, hF⟩ := hx _ hbelow s.enter a u hu rfl
  exact ⟨bytes, hp.leave, h hbelow hF⟩

end Closure

/-! ## Octets and tables -/

theorem eq_of_offset (s : Decoder) (a : Nat) (t : Decoder) (h : offset s = .ok a t) : t = s :=
  (EStateM.Result.ok.inj h).2.symm

theorem finds_octet : Finds levels (Keeping fun bytes code => bytes = [code]) octet := by
  intro s code t hs _
  unfold octet at hs
  split at hs
  · cases hs
  · next b rest hi =>
    obtain ⟨rfl, rfl⟩ := EStateM.Result.ok.inj hs
    exact ⟨[b], ⟨hi, rfl⟩, rfl, rfl⟩

/-- After its lead byte a form is read by what is left of the step. -/
theorem Finds.lead {F : Tables → Bytes → α → Tables → Prop} {f : UInt8 → Decode α}
    (h : ∀ code, Finds levels (fun tb bytes a tb' => F tb (code :: bytes) a tb') (f code)) :
    Finds levels F (octet >>= f) :=
  finds_octet.bind h fun {_ _ _ _ _ _ _} ⟨hb, ht⟩ hF => by
    subst hb ht
    exact hF

theorem finds_octets (n : Nat) :
    Finds levels (Keeping fun bytes part => bytes.length = n ∧ part = bytes) (octets n) := by
  intro s part t hs _
  unfold octets at hs
  split at hs
  · next hn =>
    obtain ⟨rfl, rfl⟩ := EStateM.Result.ok.inj hs
    have hl : (s.input.take n).length = n := List.length_take_of_le (Bytes.hasAtLeast_iff.mp hn)
    refine ⟨s.input.take n, ⟨(List.take_append_drop _ _).symm, ?_⟩, ⟨hl, rfl⟩, rfl⟩
    rw [hl]
    rfl
  · cases hs

theorem finds_word (width : Nat) :
    Finds levels (Keeping fun bytes n => bytes.length = width ∧ n = bytes.toNat) (word width) :=
  (finds_octets width).map fun ⟨⟨hl, hp⟩, ht⟩ => ⟨⟨hl, congrArg Bytes.toNat hp⟩, ht⟩

theorem finds_characters (count : Nat) :
    Finds levels (Keeping fun bytes part => bytes = part.flatten ∧ part.length = count ∧
      ∀ c ∈ part, c.Complete) (characters count) := by
  intro s part t hs _
  obtain ⟨hc, hb, hn, hl⟩ := Text.scan_spec count s.input
  unfold characters at hs
  simp only at hs
  split at hs
  · next hst =>
    obtain ⟨rfl, rfl⟩ := EStateM.Result.ok.inj hs
    refine ⟨_, ⟨hb.symm, ?_⟩, ⟨rfl, hl hst, hc⟩, rfl⟩
    rw [hn]
    rfl
  · cases hs
  · cases hs
  · cases hs

/-- What is found in a table stands there. -/
theorem finds_lookup {kind : RefKind} {table : Decoder → List α} (entries : Tables → List α)
    (ht : ∀ s, entries s.tables = table s) (index : Int) (offset : Nat) :
    Finds levels (fun tb bytes a tb' => bytes = [] ∧
      (∃ n : Nat, index = n ∧ (entries tb)[n]? = some a) ∧ tb' = tb)
      (lookup kind table index offset) := by
  intro s a t hs _
  unfold lookup at hs
  split at hs
  · next entry he =>
    obtain ⟨rfl, rfl⟩ := EStateM.Result.ok.inj hs
    split at he
    · next hn => exact ⟨[], .refl s, rfl, ⟨_, (Int.toNat_of_nonneg hn).symm, ht s ▸ he⟩, rfl⟩
    · cases he
  · cases hs

theorem finds_addType (name : String) :
    Finds levels (fun tb bytes a tb' => bytes = [] ∧ a = name ∧ tb' = tb.addType name)
      (addType name >>= fun _ => pure name) := by
  intro s a t hs _
  obtain ⟨rfl, rfl⟩ := EStateM.Result.ok.inj hs
  exact ⟨[], ⟨rfl, rfl⟩, rfl, rfl, rfl⟩

theorem finds_addDefinition (c : Definition) :
    Finds levels (fun tb bytes a tb' => bytes = [] ∧ a = c ∧ tb' = tb.addDefinition c)
      (addDefinition c >>= fun _ => pure c) := by
  intro s a t hs _
  obtain ⟨rfl, rfl⟩ := EStateM.Result.ok.inj hs
  exact ⟨[], ⟨rfl, rfl⟩, rfl, rfl, rfl⟩

theorem finds_addContainer (a : α) :
    Finds levels (fun tb bytes b tb' => bytes = [] ∧ b = a ∧ tb' = tb.addContainer)
      (addContainer >>= fun _ => pure a) := by
  intro s b t hs _
  obtain ⟨rfl, rfl⟩ := EStateM.Result.ok.inj hs
  exact ⟨[], ⟨rfl, rfl⟩, rfl, rfl, rfl⟩

theorem finds_terminator {s t : Decoder} (h : terminator s = .ok true t) :
    ∃ z, s.Passes [z] t ∧ t.tables = s.tables ∧ Lead.terminator.covers z := by
  obtain ⟨code, u, hp, hrest⟩ := ok_of_bind h
  cases hi : s.input with
  | nil =>
    rw [hungry_peek s hi] at hp
    cases hp
  | cons z rest =>
    rw [peek_of_input hi] at hp
    obtain ⟨rfl, rfl⟩ := EStateM.Result.ok.inj hp
    split at hrest
    · next hl =>
      obtain ⟨b, w, hb, hrest⟩ := ok_of_bind hrest
      rw [octet_of_input hi] at hb
      obtain ⟨rfl, rfl⟩ := EStateM.Result.ok.inj hb
      obtain ⟨-, rfl⟩ := EStateM.Result.ok.inj hrest
      exact ⟨z, ⟨hi, rfl⟩, rfl, Lead.covers_of_ofByte hl nofun⟩
    · cases hrest

/-! ## Repetition -/

section Repetition

variable {F : Tables → Bytes → α → Tables → Prop} {x : Decode α}

/-- A number of runs has taken a row of their forms. -/
theorem Finds.times {H : Tables → Bytes → List α → Tables → Prop} (h : Finds levels F x)
    (none : ∀ tb, H tb [] [] tb)
    (more : ∀ {tb tb' tb'' bytes more a found}, F tb bytes a tb' → H tb' more found tb'' →
      H tb (bytes ++ more) (a :: found) tb'') (count : Nat) :
    Finds levels (fun tb bytes found tb' => found.length = count ∧ H tb bytes found tb')
      (times count x) := by
  induction count with
  | zero => exact finds_pure fun tb => ⟨rfl, none tb⟩
  | succ count ih =>
    rw [times_succ]
    have hrest (a : α) : Finds levels (fun tb bytes found tb' => ∃ rest, found = a :: rest ∧
        rest.length = count ∧ H tb bytes rest tb')
        (Decode.times count x >>= fun rest => pure (a :: rest)) :=
      ih.answer fun ⟨hl, hH⟩ => ⟨_, rfl, hl, hH⟩
    refine h.bind hrest ?_
    rintro tb tb' tb'' bytes rest a _ hF ⟨found, rfl, rfl, hH⟩
    exact ⟨rfl, more hF hH⟩

/-- Rounds have taken the form of the last one, with the forms of the others in front. -/
theorem Finds.rounds {round : Decode (α ⊕ β)} {F : Tables → Bytes → α ⊕ β → Tables → Prop}
    {H : Tables → Bytes → List α × β → Tables → Prop} (h : Finds levels F round)
    (last : ∀ {tb bytes b tb'}, F tb bytes (.inr b) tb' → H tb bytes ([], b) tb')
    (more : ∀ {tb tb' tb'' bytes more a found b}, F tb bytes (.inl a) tb' →
      H tb' more (found, b) tb'' → H tb (bytes ++ more) (a :: found, b) tb'') :
    Finds levels H (rounds round) := by
  rintro s ⟨found, b⟩ t hs hl
  obtain ⟨u, hc, hlast⟩ := Yields.rounds h s _ t hs
  clear hs
  induction found generalizing s with
  | nil =>
    obtain rfl : u = s := hc
    obtain ⟨bytes, hp, hF⟩ := hlast hl
    exact ⟨bytes, hp, last hF⟩
  | cons a found ih =>
    obtain ⟨w, hw, hc⟩ := hc
    obtain ⟨bytes, hp, hF⟩ := hw hl
    obtain ⟨rest, hp', hH⟩ := ih w (hp.levels.trans hl) hc hlast
    exact ⟨bytes ++ rest, hp.trans hp', more hF hH⟩

/-- Runs up to the terminator have taken a row of their forms and the terminator. -/
theorem Finds.untilTerminator {H : Tables → Bytes → List α → Tables → Prop} (h : Finds levels F x)
    (none : ∀ tb, H tb [] [] tb)
    (more : ∀ {tb tb' tb'' bytes more a found}, F tb bytes a tb' → H tb' more found tb'' →
      H tb (bytes ++ more) (a :: found) tb'') :
    Finds levels (fun tb bytes found tb' => ∃ body z, bytes = body ++ [z] ∧
      H tb body found tb' ∧ Lead.terminator.covers z) (untilTerminator x) := by
  let G (tb : Tables) (bytes : Bytes) (r : α ⊕ Unit) (tb' : Tables) : Prop :=
    Sum.elim (fun a => F tb bytes a tb')
      (fun _ => ∃ z, bytes = [z] ∧ tb' = tb ∧ Lead.terminator.covers z) r
  have hround : Finds levels G (unlessTerminator x) := by
    intro s r t hs hl
    obtain ⟨done, u, hd, hrest⟩ := ok_of_bind hs
    cases done with
    | true =>
      obtain ⟨rfl, rfl⟩ := EStateM.Result.ok.inj hrest
      obtain ⟨z, hp, ht, hz⟩ := finds_terminator hd
      exact ⟨[z], hp, z, rfl, ht, hz⟩
    | false =>
      obtain rfl := eq_of_terminator hd
      obtain ⟨a, w, ha, hrest⟩ := ok_of_bind hrest
      obtain ⟨rfl, rfl⟩ := EStateM.Result.ok.inj hrest
      exact h u a w ha hl
  refine Finds.map (hround.rounds (H := fun tb bytes r tb' => ∃ body z, bytes = body ++ [z] ∧
    H tb body r.1 tb' ∧ Lead.terminator.covers z) ?_ ?_) id
  · rintro tb _ _ _ ⟨z, rfl, rfl, hz⟩
    exact ⟨[], z, rfl, none _, hz⟩
  · rintro tb tb' tb'' bytes _ a found _ hF ⟨body, z, rfl, hH, hz⟩
    exact ⟨bytes ++ body, z, (List.append_assoc _ _ _).symm, more hF hH, hz⟩

/-- Chunks have taken a chain of their forms. -/
theorem Finds.chunks {chunk : Decode (Bool × List α)} {form : Bool → Bytes → List α → Prop}
    (h : Finds levels (Keeping fun bytes r => form r.1 bytes r.2) chunk) :
    Finds levels (Keeping (Grammar.Chain form)) (chunks chunk) := by
  have hround : Finds levels
      (Keeping fun bytes r => Sum.elim (form false bytes) (form true bytes) r)
      (chunkRound chunk) := by
    refine h.answer ?_
    rintro tb bytes ⟨isFinal, part⟩ tb' ⟨hf, ht⟩
    cases isFinal with
    | true => exact ⟨hf, ht⟩
    | false => exact ⟨hf, ht⟩
  refine (hround.rounds (H := fun tb bytes r tb' =>
    Keeping (Grammar.Chain form) tb bytes (r.1.flatten ++ r.2) tb') ?_ ?_).answer id
  · rintro tb bytes part tb' ⟨hf, ht⟩
    exact ⟨.last hf, ht⟩
  · rintro tb tb' tb'' bytes more part found last ⟨hf, rfl⟩ ⟨hc, ht⟩
    rw [List.flatten_cons, List.append_assoc]
    exact ⟨.more hf hc, ht⟩

end Repetition

/-! ## Scalars -/

theorem finds_null : Finds levels (Keeping fun bytes _ => ∃ b, bytes = [b] ∧ Lead.null.covers b)
    null := by
  apply Finds.lead
  intro code
  cases hl : Lead.ofByte code with
  | null => exact finds_pure fun tb => ⟨⟨code, rfl, Lead.covers_of_ofByte hl nofun⟩, rfl⟩
  | _ => exact finds_unexpected code

theorem finds_boolean :
    Finds levels (Keeping fun bytes x => ∃ b, bytes = [b] ∧ (Lead.boolean x).covers b) boolean := by
  apply Finds.lead
  intro code
  cases hl : Lead.ofByte code with
  | boolean x => exact finds_pure fun tb => ⟨⟨code, rfl, Lead.covers_of_ofByte hl nofun⟩, rfl⟩
  | _ => exact finds_unexpected code

theorem finds_int : Finds levels (Keeping IntForm) int := by
  apply Finds.lead
  intro code
  cases hl : Lead.ofByte code with
  | int tail high =>
    exact (finds_word tail).answer fun ⟨⟨hw, hn⟩, ht⟩ =>
      ⟨hn ▸ .split (Lead.covers_of_ofByte hl nofun) hw, ht⟩
  | intWord =>
    exact (finds_word 4).answer fun ⟨⟨hw, hn⟩, ht⟩ =>
      ⟨hn ▸ .word (Lead.covers_of_ofByte hl nofun) hw, ht⟩
  | _ => exact finds_unexpected code

theorem finds_long : Finds levels (Keeping LongForm) long := by
  apply Finds.lead
  intro code
  cases hl : Lead.ofByte code with
  | long tail high =>
    exact (finds_word tail).answer fun ⟨⟨hw, hn⟩, ht⟩ =>
      ⟨hn ▸ .split (Lead.covers_of_ofByte hl nofun) hw, ht⟩
  | longInt =>
    exact (finds_word 4).answer fun ⟨⟨hw, hn⟩, ht⟩ =>
      ⟨hn ▸ .int (Lead.covers_of_ofByte hl nofun) hw, ht⟩
  | longWord =>
    exact (finds_word 8).answer fun ⟨⟨hw, hn⟩, ht⟩ =>
      ⟨hn ▸ .word (Lead.covers_of_ofByte hl nofun) hw, ht⟩
  | _ => exact finds_unexpected code

theorem finds_double : Finds levels (Keeping DoubleForm) double := by
  apply Finds.lead
  intro code
  cases hl : Lead.ofByte code with
  | doubleZero => exact finds_pure fun tb => ⟨.zero (Lead.covers_of_ofByte hl nofun), rfl⟩
  | doubleOne => exact finds_pure fun tb => ⟨.one (Lead.covers_of_ofByte hl nofun), rfl⟩
  | doubleByte =>
    exact (finds_word 1).answer fun ⟨⟨hw, hn⟩, ht⟩ =>
      ⟨hn ▸ .byte (Lead.covers_of_ofByte hl nofun) hw, ht⟩
  | doubleShort =>
    exact (finds_word 2).answer fun ⟨⟨hw, hn⟩, ht⟩ =>
      ⟨hn ▸ .short (Lead.covers_of_ofByte hl nofun) hw, ht⟩
  | doubleMilli =>
    exact (finds_word 4).answer fun ⟨⟨hw, hn⟩, ht⟩ =>
      ⟨hn ▸ .milli (Lead.covers_of_ofByte hl nofun) hw, ht⟩
  | doubleWord =>
    exact (finds_word 8).answer fun ⟨⟨hw, hn⟩, ht⟩ =>
      ⟨hn ▸ .word (Lead.covers_of_ofByte hl nofun) hw, ht⟩
  | _ => exact finds_unexpected code

theorem finds_date : Finds levels (Keeping DateForm) date := by
  apply Finds.lead
  intro code
  cases hl : Lead.ofByte code with
  | dateMillis =>
    exact (finds_word 8).answer fun ⟨⟨hw, hn⟩, ht⟩ =>
      ⟨hn ▸ .millis (Lead.covers_of_ofByte hl nofun) hw, ht⟩
  | dateMinutes =>
    exact (finds_word 4).answer fun ⟨⟨hw, hn⟩, ht⟩ =>
      ⟨hn ▸ .minutes (Lead.covers_of_ofByte hl nofun) hw, ht⟩
  | _ => exact finds_unexpected code

theorem finds_binaryChunk :
    Finds levels (Keeping fun bytes r => BinaryChunk r.1 bytes r.2) binaryChunk := by
  apply Finds.lead
  intro code
  cases hl : Lead.ofByte code with
  | binary isFinal tail high =>
    have hc := Lead.covers_of_ofByte hl nofun
    have hpart (low : Nat) : Finds levels (Keeping fun bytes r => r.1 = isFinal ∧
        bytes = r.2 ∧ bytes.length = high * 256 ^ tail + low)
        (octets (high * 256 ^ tail + low) >>= fun part => pure (isFinal, part)) :=
      (finds_octets _).answer fun ⟨⟨hn, hp⟩, ht⟩ => ⟨⟨rfl, hp.symm, hn⟩, ht⟩
    refine (finds_word tail).bind hpart ?_
    rintro tb _ _ word _ _ ⟨_, part⟩ ⟨⟨hw, rfl⟩, rfl⟩ ⟨⟨rfl, rfl, hn⟩, rfl⟩
    exact ⟨.mk hc hw hn, rfl⟩
  | _ => exact finds_unexpected code

theorem finds_binary : Finds levels (Keeping (Grammar.Chain BinaryChunk)) binary :=
  finds_binaryChunk.chunks

theorem finds_textChunk :
    Finds levels (Keeping fun bytes r => TextChunk r.1 bytes r.2) textChunk := by
  apply Finds.lead
  intro code
  cases hl : Lead.ofByte code with
  | string isFinal tail high =>
    have hc := Lead.covers_of_ofByte hl nofun
    have hpart (low : Nat) : Finds levels (Keeping fun bytes r => r.1 = isFinal ∧
        bytes = r.2.flatten ∧ r.2.length = high * 256 ^ tail + low ∧ ∀ c ∈ r.2, c.Complete)
        (characters (high * 256 ^ tail + low) >>= fun part => pure (isFinal, part)) :=
      (finds_characters _).answer fun ⟨⟨hb, hn, hp⟩, ht⟩ => ⟨⟨rfl, hb, hn, hp⟩, ht⟩
    refine (finds_word tail).bind hpart ?_
    rintro tb _ _ word _ _ ⟨_, part⟩ ⟨⟨hw, rfl⟩, rfl⟩ ⟨⟨rfl, rfl, hn, hp⟩, rfl⟩
    exact ⟨.mk hc hw hn hp, rfl⟩
  | _ => exact finds_unexpected code

theorem finds_string : Finds levels (Keeping StringForm) string :=
  finds_textChunk.chunks.map fun ⟨hc, ht⟩ => ⟨.mk hc, ht⟩

theorem finds_ref : Finds levels (fun tb bytes i tb' => RefForm tb bytes i ∧ tb' = tb) ref := by
  refine .afterLook eq_of_offset fun start => .lead fun code => ?_
  cases hl : Lead.ofByte code with
  | ref =>
    have hc := Lead.covers_of_ofByte hl nofun
    have hrest (n : Int32) : Finds levels (fun tb bytes i tb' => bytes = [] ∧ tb' = tb ∧
        ∃ index : Nat, n.toInt = index ∧ index < tb.containers ∧ i = .ofNat index)
        (started >>= fun started => if 0 ≤ n.toInt ∧ n.toInt < started then
          pure (UInt32.ofNat n.toInt.toNat) else
            throw (.invalidReference .value n.toInt start)) := by
      intro s i t hs hlev
      obtain ⟨count, u, hcount, hs⟩ := ok_of_bind hs
      obtain ⟨rfl, rfl⟩ := EStateM.Result.ok.inj hcount
      split at hs
      · next hn =>
        obtain ⟨rfl, rfl⟩ := EStateM.Result.ok.inj hs
        have hi := (Int.toNat_of_nonneg hn.1).symm
        exact ⟨[], .refl s, rfl, rfl, _, hi, Int.ofNat_lt.mp (hi ▸ hn.2), rfl⟩
      · cases hs
    refine finds_int.andThen_nil hrest ?_
    rintro tb _ _ word n i ⟨form, rfl⟩ ⟨rfl, index, hn, hlt, rfl⟩
    exact ⟨.mk hc form hn hlt, rfl⟩
  | _ => exact finds_unexpected code

/-! ## Headers -/

theorem finds_typeName : Finds levels TypeForm typeName := by
  refine .afterLook eq_of_offset fun start => .afterLook (fun _ _ _ => eq_of_peek) fun code => ?_
  split
  · refine finds_string.andThen_nil (fun name => finds_addType name) ?_
    rintro tb _ _ bytes name _ ⟨form, rfl⟩ ⟨rfl, rfl⟩
    exact .name form
  · refine finds_int.andThen_nil (fun index => finds_lookup Tables.types (fun _ => rfl) _ _) ?_
    rintro tb _ _ bytes n name ⟨form, rfl⟩ ⟨⟨index, hn, hf⟩, rfl⟩
    exact .index form hn hf

theorem finds_optionalType (typed : Bool) :
    Finds levels (TitleForm typed) (optionalType typed) := by
  cases typed with
  | true => exact finds_typeName.map .typed
  | false => exact finds_pure fun tb => .untyped

theorem finds_listLength :
    Finds levels (Keeping fun bytes length => ∃ n, IntForm bytes n ∧ n.toInt = (length : Nat))
      listLength := by
  refine .afterLook eq_of_offset fun start => ?_
  have hrest (n : Int32) : Finds levels (fun tb bytes length tb' => bytes = [] ∧
      n.toInt = (length : Nat) ∧ tb' = tb) (if 0 ≤ n.toInt then pure n.toInt.toNat else
        throw (.decode (.negativeLength n.toInt start))) := by
    split
    · next hn => exact finds_pure fun tb => ⟨rfl, (Int.toNat_of_nonneg hn).symm, rfl⟩
    · exact finds_throw _
  refine finds_int.andThen_nil hrest ?_
  rintro tb _ _ bytes n length ⟨form, rfl⟩ ⟨hn, rfl⟩
  exact ⟨⟨n, form, hn⟩, rfl⟩

theorem finds_listBegin :
    Finds levels (fun tb bytes h tb' => ListHead tb bytes h.type h.length tb') listBegin := by
  apply Finds.lead
  intro code
  cases hl : Lead.ofByte code with
  | list typed length =>
    have hc := Lead.covers_of_ofByte hl nofun
    cases length with
    | terminated =>
      refine (finds_optionalType typed).andThen_nil (fun type => finds_addContainer _) ?_
      rintro tb tb' _ bytes type _ form ⟨rfl, rfl⟩
      exact .terminated hc form
    | counted =>
      have hrest (type : Option String) : Finds levels (fun tb bytes h tb' => ∃ length n,
          h = ⟨type, some length⟩ ∧ IntForm bytes n ∧ n.toInt = (length : Nat) ∧
            tb' = tb.addContainer)
          (some <$> listLength >>= fun length => addContainer >>= fun _ =>
            pure (⟨type, length⟩ : ListHeader)) := by
        rw [bind_map_left]
        refine finds_listLength.andThen_nil (fun length => finds_addContainer _) ?_
        rintro tb _ _ bytes length _ ⟨⟨n, form, hn⟩, rfl⟩ ⟨rfl, rfl⟩
        exact ⟨length, n, rfl, form, hn, rfl⟩
      refine (finds_optionalType typed).bind hrest ?_
      rintro tb tb' _ title word type _ form ⟨length, n, rfl, count, hn, rfl⟩
      exact .counted hc form count hn
    | short n =>
      refine (finds_optionalType typed).andThen_nil (fun type => finds_addContainer _) ?_
      rintro tb tb' _ bytes type _ form ⟨rfl, rfl⟩
      exact .short hc form
  | _ => exact finds_unexpected code

theorem finds_mapBegin : Finds levels MapHead mapBegin := by
  apply Finds.lead
  intro code
  cases hl : Lead.ofByte code with
  | map typed =>
    refine (finds_optionalType typed).andThen_nil (fun type => finds_addContainer _) ?_
    rintro tb tb' _ bytes type _ form ⟨rfl, rfl⟩
    exact .mk (Lead.covers_of_ofByte hl nofun) form
  | _ => exact finds_unexpected code

theorem finds_strings (count : Nat) :
    Finds levels (Keeping fun bytes found => found.length = count ∧ StringsForm bytes found)
      (times count string) := by
  refine (finds_string.times (H := Keeping StringsForm) ?_ ?_ count).mono ?_
  · exact fun tb => ⟨.nil, rfl⟩
  · rintro tb _ _ bytes more s found ⟨form, rfl⟩ ⟨forms, rfl⟩
    exact ⟨.cons form forms, rfl⟩
  · rintro tb bytes found _ ⟨hn, forms, rfl⟩
    exact ⟨⟨hn, forms⟩, rfl⟩

/-- The fields of a definition, once its name and their number are known. -/
theorem finds_fields (name : String) (start : Nat) (n : Int32) :
    Finds levels (fun tb bytes c tb' => c.typeName = name ∧ n.toInt = c.fieldNames.length ∧
      StringsForm bytes c.fieldNames ∧ tb' = tb.addDefinition c)
      (if n.toInt < 0 then throw (.unexpectedType Lead.definition.toByte start) else
        times n.toInt.toNat string >>= fun fieldNames =>
          addDefinition ⟨name, fieldNames⟩ >>= fun _ => pure ⟨name, fieldNames⟩) := by
  split
  · exact finds_throw _
  · next hn =>
    refine (finds_strings _).andThen_nil (fun fieldNames => finds_addDefinition _) ?_
    rintro tb _ _ bytes fieldNames _ ⟨⟨hlen, forms⟩, rfl⟩ ⟨rfl, rfl⟩
    refine ⟨rfl, ?_, forms, rfl⟩
    rw [hlen, Int.toNat_of_nonneg (Int.not_lt.mp hn)]

theorem finds_definitionBody :
    Finds levels (fun tb bytes c tb' => DefinitionForm bytes c ∧ tb' = tb.addDefinition c)
      definitionBody := by
  have hrest (name : String) (start : Nat) : Finds levels (fun tb bytes c tb' =>
      ∃ word names n, bytes = word ++ names ∧ IntForm word n ∧ c.typeName = name ∧
        n.toInt = c.fieldNames.length ∧ StringsForm names c.fieldNames ∧
          tb' = tb.addDefinition c) _ :=
    finds_int.bind (finds_fields name start)
      fun {_ _ _ word names n _} ⟨form, ht⟩ ⟨hname, hn, forms, hc⟩ =>
        ⟨word, names, n, rfl, form, hname, hn, forms, ht ▸ hc⟩
  refine finds_string.bind (fun name => .afterLook eq_of_offset fun start => hrest name start) ?_
  rintro tb _ _ title _ name ⟨_, fieldNames⟩ ⟨type, rfl⟩
    ⟨word, names, n, rfl, count, rfl, hn, forms, rfl⟩
  exact ⟨.mk type count hn forms, rfl⟩

theorem finds_objectBegin : Finds levels ObjectHead objectBegin := by
  -- a definition stands in front of a header, which then knows it
  let F (tb : Tables) (bytes : Bytes) (r : Definition ⊕ Definition) (tb' : Tables) : Prop :=
    Sum.elim (fun _ => ∀ more d tb'', ObjectHead tb' more d tb'' →
      ObjectHead tb (bytes ++ more) d tb'') (fun c => ObjectHead tb bytes c tb') r
  have hround : Finds levels F objectRound := by
    refine .afterLook eq_of_offset fun start => .lead fun code => ?_
    have hfound (index : Int) : Finds levels (fun tb bytes r tb' => bytes = [] ∧ ∃ (n : Nat)
        (c : Definition), r = .inr c ∧ index = n ∧ tb.definitions[n]? = some c ∧
          tb' = tb.addContainer)
        (lookup .definition Decoder.definitions index start >>= fun c =>
          addContainer >>= fun _ => pure (.inr c : Definition ⊕ Definition)) := by
      refine (finds_lookup Tables.definitions (fun _ => rfl) _ _).andThen_nil
        (fun c => finds_addContainer _) ?_
      rintro tb _ _ _ c _ ⟨rfl, ⟨n, hn, hc⟩, rfl⟩ ⟨rfl, rfl⟩
      exact ⟨rfl, n, c, rfl, hn, hc, rfl⟩
    cases hl : Lead.ofByte code with
    | definition =>
      refine finds_definitionBody.map ?_
      rintro tb bytes c _ ⟨form, rfl⟩ more d tb'' rest
      exact .define (Lead.covers_of_ofByte hl nofun) form rest
    | object =>
      refine finds_int.andThen_nil (fun index => hfound index.toInt) ?_
      rintro tb _ _ word index _ ⟨form, rfl⟩ ⟨n, c, rfl, hn, hc, rfl⟩
      exact .index (Lead.covers_of_ofByte hl nofun) form hn hc
    | objectShort index =>
      refine (hfound index).mono ?_
      rintro tb _ _ _ ⟨rfl, n, c, rfl, hn, hc, rfl⟩
      obtain rfl := Int.ofNat_inj.mp hn
      exact .short (Lead.covers_of_ofByte hl nofun) hc
    | _ => exact finds_unexpected code
  refine Finds.map (hround.rounds (H := fun tb bytes r tb' => ObjectHead tb bytes r.2 tb') ?_ ?_) id
  · exact id
  · exact fun hF hH => hF _ _ _ hH

/-! ## Values -/

/-- A phrase with at most so many levels of containers. -/
def Within (levels : Nat) (tb : Tables) (bytes : Bytes) (phrase : Phrase) (tb' : Tables) : Prop :=
  ∃ n ≤ levels, Derives n tb bytes phrase tb'

/-- A scalar has no levels of containers. -/
theorem Within.scalar {tb tb' : Tables} {bytes : Bytes} {phrase : Phrase}
    (h : Derives 0 tb bytes phrase tb') : Within levels tb bytes phrase tb' :=
  ⟨0, Nat.zero_le _, h⟩

section Within

variable {tb tb' tb'' tb₁ : Tables} {bytes bytes' more : Bytes} {v k : Value}

/-- An item goes in front of others. -/
theorem Within.item {vs : List Value} (h : Within levels tb bytes (.value v) tb')
    (h' : Within levels tb' more (.items vs) tb'') :
    Within levels tb (bytes ++ more) (.items (v :: vs)) tb'' := by
  obtain ⟨n, hn, head⟩ := h
  obtain ⟨m, hm, tail⟩ := h'
  exact ⟨max n m, Nat.max_le.mpr ⟨hn, hm⟩, .item head tail⟩

/-- A key and its value go in front of other pairs. -/
theorem Within.pair {pairs : List (Value × Value)} (hk : Within levels tb bytes (.value k) tb₁)
    (hv : Within levels tb₁ bytes' (.value v) tb')
    (h : Within levels tb' more (.pairs pairs) tb'') :
    Within levels tb (bytes ++ bytes' ++ more) (.pairs ((k, v) :: pairs)) tb'' := by
  obtain ⟨n, hn, first⟩ := hk
  obtain ⟨m, hm, second⟩ := hv
  obtain ⟨l, hl, tail⟩ := h
  exact ⟨max (max n m) l, Nat.max_le.mpr ⟨Nat.max_le.mpr ⟨hn, hm⟩, hl⟩, .pair first second tail⟩

end Within

/-- The step finds values. -/
abbrev FindsValue (levels : Nat) (step : Decode Value) : Prop :=
  Finds levels (fun tb bytes v tb' => Within levels tb bytes (.value v) tb') step

section Rows

variable {inner : Decode Value} (h : FindsValue levels inner)

include h

theorem finds_items (count : Nat) :
    Finds levels (fun tb bytes vs tb' => vs.length = count ∧ Within levels tb bytes (.items vs) tb')
      (times count inner) :=
  h.times (fun _ => .scalar .noItems) .item count

theorem finds_itemsUntil :
    Finds levels (fun tb bytes vs tb' => ∃ body z, bytes = body ++ [z] ∧
      Within levels tb body (.items vs) tb' ∧ Lead.terminator.covers z)
      (untilTerminator inner) :=
  h.untilTerminator (fun _ => .scalar .noItems) .item

theorem finds_pairsUntil :
    Finds levels (fun tb bytes pairs tb' => ∃ body z, bytes = body ++ [z] ∧
      Within levels tb body (.pairs pairs) tb' ∧ Lead.terminator.covers z)
      (untilTerminator (pairOf inner inner)) := by
  have hpair : Finds levels (fun tb bytes pair tb'' => ∃ first second tb', bytes = first ++ second ∧
      Within levels tb first (.value pair.1) tb' ∧ Within levels tb' second (.value pair.2) tb'')
      (pairOf inner inner) := by
    have hsecond (k : Value) : Finds levels (fun tb bytes pair tb' => pair.1 = k ∧
        Within levels tb bytes (.value pair.2) tb') (inner >>= fun v => pure (k, v)) :=
      h.answer fun hv => ⟨rfl, hv⟩
    refine h.bind hsecond ?_
    rintro tb tb' tb'' bytes more k _ hk ⟨rfl, hv⟩
    exact ⟨bytes, more, tb', rfl, hk, hv⟩
  refine hpair.untilTerminator (H := fun tb bytes pairs tb' =>
    Within levels tb bytes (.pairs pairs) tb') (fun tb => .scalar .noPairs) ?_
  rintro tb tb' tb'' _ more ⟨k, v⟩ pairs ⟨bytes, bytes', tb₁, rfl, hk, hv⟩ hrest
  exact hk.pair hv hrest

end Rows

section Layer

variable {inner : Decode Value} (h : ∀ below, below + 1 = levels → FindsValue below inner)

include h

theorem finds_listOf : Finds levels (fun tb bytes r tb' =>
    Within levels tb bytes (.value (.list r.1 r.2)) tb') (listOf inner) := by
  have hcounted (type : Option String) (length : Nat) : Finds levels
      (fun tb' body items tb'' => ∀ {tb head}, ListHead tb head type (some length) tb' →
        Within levels tb (head ++ body) (.value (.list type items)) tb'')
      (nested (times length inner)) := by
    refine Finds.nested (fun below hb => finds_items (h below hb) length) ?_
    rintro below tb' body items tb'' hb ⟨rfl, n, hn, parts⟩ tb head header
    exact ⟨n + 1, by omega, .counted header parts⟩
  have huntil (type : Option String) : Finds levels
      (fun tb' body items tb'' => ∀ {tb head}, ListHead tb head type none tb' →
        Within levels tb (head ++ body) (.value (.list type items)) tb'')
      (nested (untilTerminator inner)) := by
    refine Finds.nested (fun below hb => finds_itemsUntil (h below hb)) ?_
    rintro below tb' _ items tb'' hb ⟨body, z, rfl, ⟨n, hn, parts⟩, hz⟩ tb head header
    exact ⟨n + 1, by omega, .terminated header parts hz⟩
  refine finds_listBegin.bind
    (G := fun header tb' body r tb'' => ∀ {tb head},
      ListHead tb head header.type header.length tb' →
        Within levels tb (head ++ body) (.value (.list r.1 r.2)) tb'')
    ?_ fun header hv => hv header
  rintro ⟨type, _ | length⟩
  · exact (huntil type).answer id
  · exact (hcounted type length).answer id

theorem finds_mapOf : Finds levels (fun tb bytes r tb' =>
    Within levels tb bytes (.value (.map r.1 (Entries.ofPairs r.2))) tb') (mapOf inner inner) := by
  have hpairs (type : Option String) : Finds levels (fun tb' body pairs tb'' => ∀ {tb head},
      MapHead tb head type tb' →
        Within levels tb (head ++ body) (.value (.map type (Entries.ofPairs pairs))) tb'')
      (nested (untilTerminator (pairOf inner inner))) := by
    refine Finds.nested (fun below hb => finds_pairsUntil (h below hb)) ?_
    rintro below tb' _ pairs tb'' hb ⟨body, z, rfl, ⟨n, hn, parts⟩, hz⟩ tb head header
    exact ⟨n + 1, by omega, .map header parts hz⟩
  have hrest (type : Option String) : Finds levels
      (fun tb' body (r : Option String × List (Value × Value)) tb'' => ∀ {tb head},
      MapHead tb head type tb' →
        Within levels tb (head ++ body) (.value (.map r.1 (Entries.ofPairs r.2))) tb'') _ :=
    (hpairs type).answer (g := fun pairs => (type, pairs)) id
  exact finds_mapBegin.bind hrest fun header hv => hv header

theorem finds_object : FindsValue levels (objectBegin >>= fun c => do
    let fields ← nested (times c.fieldNames.length inner)
    return .object c fields) := by
  have hfields (c : Definition) : Finds levels (fun tb' body fields tb'' => ∀ {tb head},
      ObjectHead tb head c tb' → Within levels tb (head ++ body) (.value (.object c fields)) tb'')
      (nested (times c.fieldNames.length inner)) := by
    refine Finds.nested (fun below hb => finds_items (h below hb) _) ?_
    rintro below tb' body fields tb'' hb ⟨hlen, n, hn, parts⟩ tb head header
    exact ⟨n + 1, by omega, .object header hlen parts⟩
  have hrest (c : Definition) : Finds levels (fun tb' body v tb'' => ∀ {tb head},
      ObjectHead tb head c tb' → Within levels tb (head ++ body) (.value v) tb'') _ :=
    (hfields c).answer (g := fun fields => .object c fields) id
  exact finds_objectBegin.bind hrest fun header hv => hv header

/-- Whatever the lead byte announces, a layer finds values if its parts are found. -/
theorem finds_valueOf (lead : Lead) : FindsValue levels (valueOf inner lead) := by
  cases lead with
  | null =>
    refine finds_null.answer ?_
    rintro tb _ _ _ ⟨⟨b, rfl, hb⟩, rfl⟩
    exact .scalar (.null hb)
  | boolean _ =>
    refine finds_boolean.map ?_
    rintro tb _ x _ ⟨⟨b, rfl, hb⟩, rfl⟩
    exact .scalar (.boolean hb)
  | int | intWord => exact finds_int.map fun ⟨form, ht⟩ => ht ▸ .scalar (.int form)
  | long | longInt | longWord => exact finds_long.map fun ⟨form, ht⟩ => ht ▸ .scalar (.long form)
  | doubleZero | doubleOne | doubleByte | doubleShort | doubleMilli | doubleWord =>
    exact finds_double.map fun ⟨form, ht⟩ => ht ▸ .scalar (.double form)
  | dateMillis | dateMinutes => exact finds_date.map fun ⟨form, ht⟩ => ht ▸ .scalar (.date form)
  | binary => exact finds_binary.map fun ⟨form, ht⟩ => ht ▸ .scalar (.binary form)
  | string => exact finds_string.map fun ⟨form, ht⟩ => ht ▸ .scalar (.string form)
  | list => exact (finds_listOf h).answer id
  | map => exact (finds_mapOf h).answer id
  | definition | object | objectShort => exact finds_object h
  | ref =>
    refine finds_ref.map ?_
    rintro tb bytes i _ ⟨form, rfl⟩
    exact .scalar (.ref form)
  | terminator | unassigned => exact .lead fun code => finds_unexpected code

theorem finds_valueWith : FindsValue levels (valueWith inner) :=
  .afterLook (fun _ _ _ => eq_of_peek) fun _ => finds_valueOf h _

end Layer

/-- A value that is read is one of the grammar. -/
theorem finds_value (levels : Nat) : FindsValue levels value := by
  induction levels with
  | zero =>
    rw [value_eq]
    refine finds_valueWith fun below hb => ?_
    cases hb
  | succ levels ih =>
    rw [value_eq]
    refine finds_valueWith fun below hb => ?_
    obtain rfl := Nat.succ.inj hb
    exact ih

end Decode

end Hessian
