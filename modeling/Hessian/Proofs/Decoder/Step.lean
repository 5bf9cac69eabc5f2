import Hessian.Decoder.State

/-!
# What a decoding step may do

A step of a decoding session takes octets off the front of the input, adds entries to the ends
of the tables, counts containers up, and comes back to the nesting depth at which it started:
`Decoder.Advance`.  It does so whether it succeeds or fails.

A step also looks at no more input than it needs.  If it comes to any other end than running out
of octets, it comes to the same end with more octets behind the ones it was given.

`Decode.Regular` is both of these together.  It is closed under everything that steps are made
of, with one lemma for each way of putting steps together.  `Decode.Productive` is what a step
needs in order to be repeated without a bound: a success takes an octet.  `Decode.Reader` is a
regular step that cannot do anything without an octet, as all readers of whole values are.
-/

namespace Hessian

namespace Decoder

/-- The second session has come from the first by steps that are complete. -/
structure Advance (s t : Decoder) : Prop where
  /-- The cursor has moved over octets that are now gone from the input. -/
  read : ∃ octets, s.input = octets ++ t.input ∧ t.offset = s.offset + octets.length
  types : s.types <+: t.types
  definitions : s.definitions <+: t.definitions
  containers : s.containers ≤ t.containers
  depth : t.depth = s.depth
  maxDepth : t.maxDepth = s.maxDepth

namespace Advance

variable {s t u : Decoder}

/-- A session comes from itself by no step at all. -/
theorem refl (s : Decoder) : Advance s s :=
  ⟨⟨[], rfl, rfl⟩, List.prefix_refl _, List.prefix_refl _, Nat.le_refl _, rfl, rfl⟩

/-- Steps can follow one another. -/
theorem trans (h : Advance s t) (h' : Advance t u) : Advance s u where
  read := by
    obtain ⟨first, hi, ho⟩ := h.read
    obtain ⟨second, hi', ho'⟩ := h'.read
    refine ⟨first ++ second, ?_, ?_⟩
    · rw [hi, hi', List.append_assoc]
    · rw [ho', ho, List.length_append, Nat.add_assoc]
  types := h.types.trans h'.types
  definitions := h.definitions.trans h'.definitions
  containers := Nat.le_trans h.containers h'.containers
  depth := h'.depth.trans h.depth
  maxDepth := h'.maxDepth.trans h.maxDepth

/-- The input never gets longer. -/
theorem length_le (h : Advance s t) : t.input.length ≤ s.input.length := by
  obtain ⟨octets, hi, -⟩ := h.read
  rw [hi, List.length_append]
  exact Nat.le_add_left _ _

end Advance

/-- A session one level deeper. -/
def enter (s : Decoder) : Decoder := { s with depth := s.depth + 1 }

/-- A session one level up. -/
def leave (s : Decoder) : Decoder := { s with depth := s.depth - 1 }

/-- What has happened one level deeper has happened. -/
theorem Advance.leave {s t : Decoder} (h : Advance s.enter t) : Advance s t.leave where
  read := h.read
  types := h.types
  definitions := h.definitions
  containers := h.containers
  depth := by
    rw [Decoder.leave, h.depth]
    rfl
  maxDepth := h.maxDepth

/-- A session with more octets at the end of its input. -/
def extend (s : Decoder) (more : Bytes) : Decoder := { s with input := s.input ++ more }

/-- A session with nothing but the first octets of its input. -/
def cut (s : Decoder) (k : Nat) : Decoder := { s with input := s.input.take k }

/-- What was cut off can be put back. -/
theorem extend_cut (s : Decoder) (k : Nat) : (s.cut k).extend (s.input.drop k) = s := by
  unfold extend cut
  rw [List.take_append_drop]

@[simp] theorem extend_input (s : Decoder) (more : Bytes) :
    (s.extend more).input = s.input ++ more := rfl

@[simp] theorem extend_offset (s : Decoder) (more : Bytes) :
    (s.extend more).offset = s.offset := rfl

@[simp] theorem extend_types (s : Decoder) (more : Bytes) :
    (s.extend more).types = s.types := rfl

@[simp] theorem extend_definitions (s : Decoder) (more : Bytes) :
    (s.extend more).definitions = s.definitions := rfl

@[simp] theorem extend_containers (s : Decoder) (more : Bytes) :
    (s.extend more).containers = s.containers := rfl

@[simp] theorem extend_depth (s : Decoder) (more : Bytes) :
    (s.extend more).depth = s.depth := rfl

@[simp] theorem extend_maxDepth (s : Decoder) (more : Bytes) :
    (s.extend more).maxDepth = s.maxDepth := rfl

end Decoder

/-- What a step comes to: a result or an error, and the session that it leaves behind. -/
abbrev Outcome (α : Type) := EStateM.Result Error Decoder α

namespace Outcome

variable {α : Type}

/-- The session that a step leaves behind. -/
def state : Outcome α → Decoder
  | .ok _ t => t
  | .error _ t => t

/-- The same end with more octets behind the input. -/
def extend (more : Bytes) : Outcome α → Outcome α
  | .ok a t => .ok a (t.extend more)
  | .error e t => .error e (t.extend more)

/-- The input ran out. -/
def Starved : Outcome α → Prop
  | .ok _ _ => False
  | .error e _ => e.code = .notEnoughBuffer

/-- The error of an outcome that ran out of input says so. -/
theorem Starved.exists_eq {o : Outcome α} (h : o.Starved) :
    ∃ offset t, o = .error (.notEnoughBuffer offset) t := by
  cases o with
  | ok a t => exact h.elim
  | error e t =>
    cases e with
    | notEnoughBuffer offset => exact ⟨offset, t, rfl⟩
    | _ => cases h

end Outcome

namespace Decode

variable {α β : Type}

/-- A step that moves the session on and looks at no more input than it needs. -/
structure Regular (step : Decode α) : Prop where
  advance : ∀ s : Decoder, s.Advance (Outcome.state (step s))
  extend : ∀ (s : Decoder) (more : Bytes), ¬ Outcome.Starved (step s) →
    step (s.extend more) = Outcome.extend more (step s)

/-- A step that takes at least one octet whenever it succeeds. -/
def Productive (step : Decode α) : Prop :=
  ∀ s a t, step s = .ok a t → t.input.length < s.input.length

/-- A step that needs an octet before anything else. -/
def Hungry (step : Decode α) : Prop :=
  ∀ s : Decoder, s.input = [] → step s = .error (.notEnoughBuffer s.offset) s

/-- A regular step that takes an octet or does nothing. -/
structure Reader (step : Decode α) : Prop extends Regular step where
  productive : Productive step
  hungry : Hungry step

namespace Regular

variable {step : Decode α} {s t : Decoder} {a : α} {e : Error}

/-- A success moves the session on. -/
theorem advance_ok (h : Regular step) (hs : step s = .ok a t) : s.Advance t := by
  have := h.advance s
  rwa [hs] at this

/-- A failure moves the session on as well. -/
theorem advance_error (h : Regular step) (hs : step s = .error e t) : s.Advance t := by
  have := h.advance s
  rwa [hs] at this

/-- A success does not depend on what comes after it. -/
theorem extend_ok (h : Regular step) (hs : step s = .ok a t) (more : Bytes) :
    step (s.extend more) = .ok a (t.extend more) := by
  rw [h.extend s more (by rw [hs]; exact id), hs]
  rfl

/-- Nor does a failure that is not for want of octets. -/
theorem extend_error (h : Regular step) (hs : step s = .error e t) (more : Bytes)
    (he : e.code ≠ .notEnoughBuffer) :
    step (s.extend more) = .error e (t.extend more) := by
  rw [h.extend s more (by rw [hs]; exact he), hs]
  rfl

/-- Where the input is cut off inside the octets that a success took, there is none. -/
theorem cut_starved (h : Regular step) (hs : step s = .ok a t) {k : Nat}
    (hk : s.offset + k < t.offset) : Outcome.Starved (step (s.cut k)) := by
  apply Classical.byContradiction
  intro hn
  have he := h.extend (s.cut k) (s.input.drop k) hn
  rw [Decoder.extend_cut, hs] at he
  cases hc : step (s.cut k) with
  | ok b u =>
    rw [hc] at he
    obtain ⟨octets, hi, ho⟩ := (h.advance_ok hc).read
    have hl : octets.length ≤ k := by
      have hi : octets.length ≤ (s.input.take k).length := by
        rw [show s.input.take k = octets ++ u.input from hi, List.length_append]
        exact Nat.le_add_right _ _
      exact Nat.le_trans hi (List.length_take_le _ _)
    have ht : t = u.extend (s.input.drop k) := (EStateM.Result.ok.inj he).2
    have ho : t.offset = s.offset + octets.length := ht ▸ ho
    omega
  | error e u =>
    rw [hc] at he
    cases he

/-- A step is regular if on any two inputs of which one begins with the other it does what a
regular step does. -/
theorem of_forall (h : ∀ (s : Decoder) (more : Bytes), ∃ r : Decode α, Regular r ∧
    step s = r s ∧ step (s.extend more) = r (s.extend more)) : Regular step where
  advance s := by
    obtain ⟨r, hr, hs, -⟩ := h s []
    exact hs ▸ hr.advance s
  extend s more hst := by
    obtain ⟨r, hr, hs, hm⟩ := h s more
    rw [hm, hs, hr.extend s more (hs ▸ hst)]

end Regular

/-! ## Steps one after another -/

/-- Doing nothing is regular. -/
theorem regular_pure (a : α) : Regular (pure a : Decode α) where
  advance s := .refl s
  extend _ _ _ := rfl

/-- Failing outright is regular. -/
theorem regular_throw (e : Error) : Regular (throw e : Decode α) where
  advance s := .refl s
  extend _ _ _ := rfl

theorem bind_ok {x : Decode α} {f : α → Decode β} {s t : Decoder} {a : α}
    (h : x s = .ok a t) : (x >>= f) s = f a t := by
  change EStateM.bind x f s = _
  rw [EStateM.bind, h]

theorem bind_error {x : Decode α} {f : α → Decode β} {s t : Decoder} {e : Error}
    (h : x s = .error e t) : (x >>= f) s = .error e t := by
  change EStateM.bind x f s = _
  rw [EStateM.bind, h]

/-- If steps succeed together, each of them does. -/
theorem ok_of_bind {x : Decode α} {f : α → Decode β} {s u : Decoder} {b : β}
    (h : (x >>= f) s = .ok b u) : ∃ a t, x s = .ok a t ∧ f a t = .ok b u := by
  cases hx : x s with
  | ok a t =>
    rw [bind_ok hx] at h
    exact ⟨a, t, rfl, h⟩
  | error e t =>
    rw [bind_error hx] at h
    cases h

/-- Two continuations may be exchanged if they agree on every success of the first step. -/
theorem bind_congr_ok {x : Decode α} {f g : α → Decode β} {s : Decoder}
    (h : ∀ a t, x s = .ok a t → f a t = g a t) : (x >>= f) s = (x >>= g) s := by
  cases hs : x s with
  | ok a t => rw [bind_ok hs, bind_ok hs, h a t hs]
  | error e t => rw [bind_error hs, bind_error hs]

/-- One regular step after another is regular. -/
theorem Regular.bind {x : Decode α} {f : α → Decode β} (hx : Regular x)
    (hf : ∀ a, Regular (f a)) : Regular (x >>= f) where
  advance s := by
    cases h : x s with
    | ok a t =>
      rw [bind_ok h]
      exact (hx.advance_ok h).trans ((hf a).advance t)
    | error e t =>
      rw [bind_error h]
      exact hx.advance_error h
  extend s more hst := by
    cases h : x s with
    | ok a t =>
      rw [bind_ok h] at hst ⊢
      rw [bind_ok (hx.extend_ok h more)]
      exact (hf a).extend t more hst
    | error e t =>
      rw [bind_error h] at hst ⊢
      rw [bind_error (hx.extend_error h more hst)]
      rfl

/-- Changing the result of a regular step is regular. -/
theorem Regular.map {x : Decode α} (f : α → β) (hx : Regular x) : Regular (f <$> x) := by
  rw [map_eq_pure_bind]
  exact hx.bind fun a => regular_pure (f a)

/-- A productive step stays so when regular ones follow. -/
theorem Productive.bind {x : Decode α} {f : α → Decode β} (hx : Productive x)
    (hf : ∀ a, Regular (f a)) : Productive (x >>= f) := by
  intro s b u h
  cases hs : x s with
  | ok a t =>
    rw [bind_ok hs] at h
    exact Nat.lt_of_le_of_lt ((hf a).advance_ok h).length_le (hx s a t hs)
  | error e t =>
    rw [bind_error hs] at h
    cases h

/-- Changing the result of a productive step leaves it productive. -/
theorem Productive.map {x : Decode α} (f : α → β) (hx : Productive x) : Productive (f <$> x) := by
  rw [map_eq_pure_bind]
  exact hx.bind fun a => regular_pure (f a)

/-- What begins with a hungry step is hungry. -/
theorem Hungry.bind {x : Decode α} (hx : Hungry x) (f : α → Decode β) : Hungry (x >>= f) :=
  fun s hs => bind_error (hx s hs)

/-- Changing the result of a hungry step leaves it hungry. -/
theorem Hungry.map {x : Decode α} (hx : Hungry x) (f : α → β) : Hungry (f <$> x) := by
  rw [map_eq_pure_bind]
  exact hx.bind _

/-- A regular continuation makes a reader of a reader. -/
theorem Reader.bind {x : Decode α} {f : α → Decode β} (hx : Reader x)
    (hf : ∀ a, Regular (f a)) : Reader (x >>= f) :=
  ⟨hx.toRegular.bind hf, hx.productive.bind hf, hx.hungry.bind f⟩

/-- Changing the result of a reader leaves it a reader. -/
theorem Reader.map {x : Decode α} (f : α → β) (hx : Reader x) : Reader (f <$> x) :=
  ⟨hx.toRegular.map f, hx.productive.map f, hx.hungry.map f⟩

/-- A reader in every case, after a look at the input, is a reader. -/
theorem Reader.afterLook {x : Decode α} {f : α → Decode β} (hx : Regular x) (hh : Hungry x)
    (hf : ∀ a, Reader (f a)) : Reader (x >>= f) where
  toRegular := hx.bind fun a => (hf a).toRegular
  productive := by
    intro s b u h
    cases hs : x s with
    | ok a t =>
      rw [bind_ok hs] at h
      exact Nat.lt_of_lt_of_le ((hf a).productive t b u h) (hx.advance_ok hs).length_le
    | error e t =>
      rw [bind_error hs] at h
      cases h
  hungry := hh.bind f

/-- A step is a reader if on any two inputs of which one begins with the other it does what a
reader does. -/
theorem Reader.of_forall {step : Decode α} (h : ∀ (s : Decoder) (more : Bytes),
    ∃ r : Decode α, Reader r ∧ step s = r s ∧ step (s.extend more) = r (s.extend more)) :
    Reader step where
  toRegular := .of_forall fun s more => by
    obtain ⟨r, hr, hs, hm⟩ := h s more
    exact ⟨r, hr.toRegular, hs, hm⟩
  productive s a t hst := by
    obtain ⟨r, hr, hs, -⟩ := h s []
    exact hr.productive s a t (hs ▸ hst)
  hungry s hi := by
    obtain ⟨r, hr, hs, -⟩ := h s []
    exact hs ▸ hr.hungry s hi

/-! ## The cursor -/

/-- The next octet is looked at. -/
theorem peek_of_input {s : Decoder} {code : UInt8} {rest : Bytes} (h : s.input = code :: rest) :
    peek s = .ok code s := by
  unfold peek
  rw [h]

/-- Whether an octet is next is seen from the input. -/
theorem nextIs_ok (b : UInt8) (s : Decoder) : nextIs b s = .ok (s.input.head? == some b) s := rfl

/-- The next octet is taken. -/
theorem octet_of_input {s : Decoder} {code : UInt8} {rest : Bytes} (h : s.input = code :: rest) :
    octet s = .ok code { s with input := rest, offset := s.offset + 1 } := by
  unfold octet
  rw [h]

theorem regular_offset : Regular offset where
  advance s := .refl s
  extend _ _ _ := rfl

theorem regular_peek : Regular peek where
  advance s := by
    unfold peek
    split <;> exact .refl s
  extend s more hst := by
    unfold peek at hst ⊢
    cases hi : s.input with
    | nil => simp [hi, Outcome.Starved, Error.code] at hst
    | cons b rest => simp [hi, Outcome.extend]

theorem regular_octet : Regular octet where
  advance s := by
    unfold octet
    cases hi : s.input with
    | nil => exact .refl s
    | cons b rest => exact { Decoder.Advance.refl s with read := ⟨[b], hi, rfl⟩ }
  extend s more hst := by
    unfold octet at hst ⊢
    cases hi : s.input with
    | nil => simp [hi, Outcome.Starved, Error.code] at hst
    | cons b rest => simp [hi, Outcome.extend, Decoder.extend]

theorem productive_octet : Productive octet := by
  intro s b t h
  unfold octet at h
  cases hi : s.input with
  | nil => simp [hi] at h
  | cons c rest =>
    simp only [hi, EStateM.Result.ok.injEq] at h
    rw [← h.2]
    exact Nat.lt_succ_self _

theorem hungry_peek : Hungry peek := by
  intro s hs
  simp only [peek, hs]

theorem hungry_octet : Hungry octet := by
  intro s hs
  simp only [octet, hs]

/-- Taking an octet is what a reader begins with. -/
theorem reader_octet : Reader octet := ⟨regular_octet, productive_octet, hungry_octet⟩

theorem regular_octets (n : Nat) : Regular (octets n) where
  advance s := by
    unfold octets
    split
    · next h =>
      have hn : (s.input.take n).length = n :=
        List.length_take_of_le (Bytes.hasAtLeast_iff.mp h)
      refine { Decoder.Advance.refl s with read := ⟨s.input.take n, ?_, ?_⟩ }
      · exact (List.take_append_drop n s.input).symm
      · rw [hn]
        rfl
    · exact .refl s
  extend s more hst := by
    unfold octets at hst ⊢
    split at hst
    · next h =>
      have hn : n ≤ s.input.length := Bytes.hasAtLeast_iff.mp h
      have hm : Bytes.hasAtLeast n (s.extend more).input = true :=
        Bytes.hasAtLeast_iff.mpr (by simp only [Decoder.extend_input, List.length_append]; omega)
      rw [if_pos h, if_pos hm]
      simp [Outcome.extend, Decoder.extend, List.take_append_of_le_length hn,
        List.drop_append_of_le_length hn]
    · simp [Outcome.Starved, Error.code] at hst

theorem regular_word (width : Nat) : Regular (word width) := (regular_octets width).map _

theorem regular_unexpected (code : UInt8) : Regular (unexpected code : Decode α) where
  advance s := .refl s
  extend _ _ _ := rfl

/-! ## Tables -/

theorem regular_addType (name : String) : Regular (addType name) where
  advance s := { Decoder.Advance.refl s with types := List.prefix_append _ _ }
  extend _ _ _ := rfl

theorem regular_addDefinition (c : Definition) : Regular (addDefinition c) where
  advance s := { Decoder.Advance.refl s with definitions := List.prefix_append _ _ }
  extend _ _ _ := rfl

theorem regular_addContainer : Regular addContainer where
  advance s := { Decoder.Advance.refl s with containers := Nat.le_succ _ }
  extend _ _ _ := rfl

/-- Looking into a table is regular if the table is not made from the input. -/
theorem regular_lookup {table : Decoder → List α}
    (ht : ∀ s more, table (s.extend more) = table s) (kind : RefKind) (index : Int)
    (offset : Nat) : Regular (lookup kind table index offset) where
  advance s := by
    unfold lookup
    split <;> exact .refl s
  extend s more _ := by
    unfold lookup
    rw [ht s more]
    split <;> rfl

theorem regular_started : Regular started where
  advance s := .refl s
  extend _ _ _ := rfl

/-! ## Nesting -/

section Nesting

variable {step : Decode α} {s t : Decoder} {a : α} {e : Error}

/-- At the limit nothing is run. -/
theorem nested_of_le (h : s.maxDepth ≤ s.depth) :
    nested step s = .error (.depthLimitExceeded s.maxDepth) s := by
  unfold nested
  rw [if_pos h]

/-- Below the limit a success inside is a success. -/
theorem nested_ok (h : s.depth < s.maxDepth) (hs : step s.enter = .ok a t) :
    nested step s = .ok a t.leave := by
  unfold nested
  rw [if_neg (Nat.not_le.mpr h)]
  unfold Decoder.enter at hs
  rw [hs]
  rfl

/-- Below the limit a failure inside is a failure. -/
theorem nested_error (h : s.depth < s.maxDepth) (hs : step s.enter = .error e t) :
    nested step s = .error e t.leave := by
  unfold nested
  rw [if_neg (Nat.not_le.mpr h)]
  unfold Decoder.enter at hs
  rw [hs]
  rfl

/-- A result may as well be changed one level deeper. -/
theorem nested_map (f : α → β) (step : Decode α) : nested (f <$> step) = f <$> nested step := by
  funext s
  simp only [map_eq_pure_bind]
  by_cases hle : s.maxDepth ≤ s.depth
  · rw [nested_of_le hle, bind_error (nested_of_le hle)]
  · have hlt := Nat.not_le.mp hle
    cases hs : step s.enter with
    | ok a t =>
      have hf : (step >>= fun a => pure (f a)) s.enter = .ok (f a) t := bind_ok hs
      rw [bind_ok (nested_ok hlt hs), nested_ok hlt hf]
      rfl
    | error e t => rw [bind_error (nested_error hlt hs), nested_error hlt (bind_error hs)]

/-- A regular step is regular one level deeper. -/
theorem Regular.nested (h : Regular step) : Regular (nested step) where
  advance s := by
    by_cases hd : s.maxDepth ≤ s.depth
    · rw [nested_of_le hd]
      exact .refl s
    · cases hs : step s.enter with
      | ok a t =>
        rw [nested_ok (Nat.not_le.mp hd) hs]
        exact (h.advance_ok hs).leave
      | error e t =>
        rw [nested_error (Nat.not_le.mp hd) hs]
        exact (h.advance_error hs).leave
  extend s more hst := by
    by_cases hd : s.maxDepth ≤ s.depth
    · rw [nested_of_le hd, nested_of_le (s := s.extend more) hd]
      rfl
    · have hd := Nat.not_le.mp hd
      cases hs : step s.enter with
      | ok a t =>
        rw [nested_ok hd hs, nested_ok (s := s.extend more) hd (h.extend_ok hs more)]
        rfl
      | error e t =>
        rw [nested_error hd hs] at hst ⊢
        rw [nested_error (s := s.extend more) hd (h.extend_error hs more hst)]
        rfl

end Nesting

end Decode

end Hessian
