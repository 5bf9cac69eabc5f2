import Hessian.Proofs.RoundTrip.Text
import Hessian.Session.Encoding

/-!
# What an encoding step may do

A step of an encoding session writes octets behind the ones that are there, adds entries to the
ends of the tables, counts containers up, and comes back to the nesting depth at which it started:
`Encoder.Advance`.  It does so whether it succeeds or fails.

Indices are written as ints.  A session is small, `Encoder.Small`, as long as all of its indices are
ints, and since nothing is ever taken out of a table, a session that is small has always been.
-/

namespace Hessian

namespace Encoder

/-- The second session has come from the first by steps that are complete. -/
structure Advance (e e' : Encoder) : Prop where
  bytes : e.bytes <+: e'.bytes
  types : e.types <+: e'.types
  definitions : e.definitions <+: e'.definitions
  containers : e.containers ≤ e'.containers
  depth : e'.depth = e.depth
  maxDepth : e'.maxDepth = e.maxDepth

/-- Whatever is counted in a session, or refers to its tables, fits an int. -/
structure Small (e : Encoder) : Prop where
  types : e.types.length < 2 ^ 31
  definitions : e.definitions.length < 2 ^ 31
  containers : e.containers < 2 ^ 31
  fields : ∀ c ∈ e.definitions, c.fieldNames.length < 2 ^ 31

section Advance

variable {e e' e'' : Encoder}

theorem Advance.refl (e : Encoder) : Advance e e :=
  ⟨List.prefix_refl _, List.prefix_refl _, List.prefix_refl _, Nat.le_refl _, rfl, rfl⟩

theorem Advance.trans (h : Advance e e') (h' : Advance e' e'') : Advance e e'' where
  bytes := h.bytes.trans h'.bytes
  types := h.types.trans h'.types
  definitions := h.definitions.trans h'.definitions
  containers := Nat.le_trans h.containers h'.containers
  depth := h'.depth.trans h.depth
  maxDepth := h'.maxDepth.trans h.maxDepth

/-- A session that ends up small has been small. -/
theorem Advance.small (h : Advance e e') (hs : e'.Small) : e.Small where
  types := Nat.lt_of_le_of_lt h.types.length_le hs.types
  definitions := Nat.lt_of_le_of_lt h.definitions.length_le hs.definitions
  containers := Nat.lt_of_le_of_lt h.containers hs.containers
  fields c hc := hs.fields c (h.definitions.subset hc)

end Advance

/-- A session one level deeper. -/
def enter (e : Encoder) : Encoder := { e with depth := e.depth + 1 }

/-- A session one level up. -/
def leave (e : Encoder) : Encoder := { e with depth := e.depth - 1 }

/-- What has happened one level deeper has happened. -/
theorem Advance.leave {e e' : Encoder} (h : Advance e.enter e') : Advance e e'.leave where
  bytes := h.bytes
  types := h.types
  definitions := h.definitions
  containers := h.containers
  depth := by
    rw [Encoder.leave, h.depth]
    rfl
  maxDepth := h.maxDepth

/-- Leaving a container does not make a session small. -/
theorem Small.of_leave {e : Encoder} (h : e.leave.Small) : e.Small :=
  ⟨h.types, h.definitions, h.containers, h.fields⟩

end Encoder

namespace Encode

variable {α β : Type}

/-! ## Steps one after another -/

theorem bind_ok {x : Encode α} {f : α → Encode β} {e e' : Encoder} {a : α}
    (h : x e = .ok a e') : (x >>= f) e = f a e' := by
  change EStateM.bind x f e = _
  rw [EStateM.bind, h]

theorem bind_error {x : Encode α} {f : α → Encode β} {e e' : Encoder} {err : Error}
    (h : x e = .error err e') : (x >>= f) e = .error err e' := by
  change EStateM.bind x f e = _
  rw [EStateM.bind, h]

/-- If steps succeed together, each of them does. -/
theorem ok_of_bind {x : Encode α} {f : α → Encode β} {e e' : Encoder} {b : β}
    (h : (x >>= f) e = .ok b e') : ∃ a u, x e = .ok a u ∧ f a u = .ok b e' := by
  cases hx : x e with
  | ok a u =>
    rw [bind_ok hx] at h
    exact ⟨a, u, rfl, h⟩
  | error err u =>
    rw [bind_error hx] at h
    cases h

/-- The session that a step leaves behind. -/
def after (write : Encode α) (e : Encoder) : Encoder :=
  match write e with
  | .ok _ e' => e'
  | .error _ e' => e'

/-- A step that moves the session on. -/
def Regular (write : Encode α) : Prop := ∀ e : Encoder, e.Advance (after write e)

section Regular

variable {write : Encode α} {e e' : Encoder}

theorem Regular.advance_ok {a : α} (h : Regular write) (he : write e = .ok a e') :
    e.Advance e' := by
  have := h e
  rwa [after, he] at this

theorem Regular.advance_error {err : Error} (h : Regular write) (he : write e = .error err e') :
    e.Advance e' := by
  have := h e
  rwa [after, he] at this

theorem regular_pure (a : α) : Regular (pure a : Encode α) := fun e => .refl e

theorem regular_throw (err : Error) : Regular (throw err : Encode α) := fun e => .refl e

theorem Regular.bind {x : Encode α} {f : α → Encode β} (hx : Regular x)
    (hf : ∀ a, Regular (f a)) : Regular (x >>= f) := by
  intro e
  unfold after
  cases h : x e with
  | ok a u =>
    rw [bind_ok h]
    exact (hx.advance_ok h).trans (hf a u)
  | error err u =>
    rw [bind_error h]
    exact hx.advance_error h

theorem regular_emit (bytes : Bytes) : Regular (emit bytes) := fun e =>
  { Encoder.Advance.refl e with
    bytes := by
      change e.output.toList <+: (e.output ++ bytes).toList
      rw [Array.toList_appendList]
      exact List.prefix_append _ _ }

theorem regular_typeIndex? (name : String) : Regular (typeIndex? name) := fun e => .refl e

theorem regular_definitionIndex? (c : Definition) : Regular (definitionIndex? c) :=
  fun e => .refl e

theorem regular_started : Regular started := fun e => .refl e

theorem regular_addType (name : String) : Regular (addType name) := fun e =>
  { Encoder.Advance.refl e with types := List.prefix_append _ _ }

theorem regular_addDefinition (c : Definition) : Regular (addDefinition c) := fun e =>
  { Encoder.Advance.refl e with definitions := List.prefix_append _ _ }

theorem regular_addContainer : Regular addContainer := fun e =>
  { Encoder.Advance.refl e with containers := Nat.le_succ _ }

/-- What writes the same octets in every session is regular. -/
theorem Undone.regular {write : Encode Unit} {read : Decode α} {a : α}
    (h : Undone write read a) : Regular write := by
  obtain ⟨bytes, rfl, -⟩ := h
  exact regular_emit bytes

end Regular

/-! ## Nesting -/

section Nesting

variable {write : Encode α} {e e' : Encoder} {a : α} {err : Error}

theorem nested_of_le (h : e.maxDepth ≤ e.depth) :
    nested write e = .error (.depthLimitExceeded e.maxDepth) e := by
  unfold nested
  rw [if_pos h]

theorem nested_ok (h : e.depth < e.maxDepth) (hw : write e.enter = .ok a e') :
    nested write e = .ok a e'.leave := by
  unfold nested
  rw [if_neg (Nat.not_le.mpr h)]
  unfold Encoder.enter at hw
  rw [hw]
  rfl

theorem nested_error (h : e.depth < e.maxDepth) (hw : write e.enter = .error err e') :
    nested write e = .error err e'.leave := by
  unfold nested
  rw [if_neg (Nat.not_le.mpr h)]
  unfold Encoder.enter at hw
  rw [hw]
  rfl

/-- A success one level deeper was one there, below the limit. -/
theorem ok_of_nested (h : nested write e = .ok a e') :
    e.depth < e.maxDepth ∧ ∃ u, write e.enter = .ok a u ∧ e' = u.leave := by
  by_cases hle : e.maxDepth ≤ e.depth
  · rw [nested_of_le hle] at h
    cases h
  · have hlt := Nat.not_le.mp hle
    cases hw : write e.enter with
    | ok b u =>
      rw [nested_ok hlt hw] at h
      obtain ⟨rfl, rfl⟩ := EStateM.Result.ok.inj h
      exact ⟨hlt, u, rfl, rfl⟩
    | error err u =>
      rw [nested_error hlt hw] at h
      cases h

theorem Regular.nested (h : Regular write) : Regular (nested write) := by
  intro e
  unfold after
  by_cases hle : e.maxDepth ≤ e.depth
  · rw [nested_of_le hle]
    exact .refl e
  · have hlt := Nat.not_le.mp hle
    cases hw : write e.enter with
    | ok a u =>
      rw [nested_ok hlt hw]
      exact (h.advance_ok hw).leave
    | error err u =>
      rw [nested_error hlt hw]
      exact (h.advance_error hw).leave

end Nesting

/-! ## Containers and values -/

theorem regular_form (lead : Lead) (tail : Bytes) : Regular (form lead tail) := regular_emit _

theorem regular_refuse (fault : EncodeFault) : Regular (refuse fault : Encode α) :=
  regular_throw _

theorem regular_int (n : Int32) : Regular (int n) := (int_undone n).regular

theorem regular_string (s : String) : Regular (string s) := (string_undone s).regular

theorem regular_ref (index : UInt32) : Regular (ref index) := by
  apply regular_started.bind
  intro written
  split
  · exact (regular_form _ _).bind fun _ => regular_int _
  · exact regular_refuse _

theorem regular_typeName (name : String) : Regular (typeName name) := by
  apply (regular_typeIndex? name).bind
  intro index
  split
  · exact regular_int _
  · exact (regular_addType name).bind fun _ => regular_string name

theorem regular_optionalType (name : String) : Regular (optionalType name) := by
  unfold optionalType
  split
  · exact regular_pure ()
  · exact regular_typeName name

theorem regular_strings (names : List String) : Regular (strings names) := by
  induction names with
  | nil => exact regular_pure ()
  | cons name names ih => exact (regular_string name).bind fun _ => ih

theorem regular_definition (c : Definition) : Regular (definition c) := by
  apply (regular_definitionIndex? c).bind
  intro index
  split
  · exact regular_pure _
  · exact (regular_form _ _).bind fun _ => (regular_string _).bind fun _ =>
      (regular_int _).bind fun _ => (regular_strings _).bind fun _ => regular_addDefinition c

theorem regular_objectIndex (index : Nat) : Regular (objectIndex index) := by
  unfold objectIndex
  split
  · exact regular_form _ _
  · exact (regular_form _ _).bind fun _ => regular_int _

theorem regular_objectBegin (c : Definition) : Regular (objectBegin c) :=
  (regular_definition c).bind fun index => (regular_objectIndex index).bind fun _ =>
    regular_addContainer

theorem regular_listBegin (type : String) (length : Nat) : Regular (listBegin type length) := by
  unfold listBegin
  split
  · exact regular_refuse _
  split
  · exact (regular_form _ _).bind fun _ => (regular_optionalType type).bind fun _ =>
      regular_addContainer
  · exact (regular_form _ _).bind fun _ => (regular_optionalType type).bind fun _ =>
      (regular_int _).bind fun _ => regular_addContainer

theorem regular_mapBegin (type : String) : Regular (mapBegin type) :=
  (regular_form _ _).bind fun _ => (regular_optionalType type).bind fun _ => regular_addContainer

mutual

theorem regular_value : (v : Value) → Regular (value v)
  | .null => null_undone.regular
  | .boolean b => (boolean_undone b).regular
  | .int n => regular_int n
  | .long n => (long_undone n).regular
  | .double d => (double_undone d).regular
  | .binary bytes => (binary_undone bytes).regular
  | .date millis => (date_undone millis).regular
  | .string s => regular_string s
  | .ref index => regular_ref index
  | .list type items => by
    unfold value
    split
    · exact regular_refuse _
    · exact (regular_listBegin _ _).bind fun _ => (regular_values items).nested
  | .map type entries => by
    unfold value
    split
    · exact regular_refuse _
    · exact (regular_mapBegin _).bind fun _ => (regular_pairs entries).nested.bind fun _ =>
        regular_form _ _
  | .object c fields => by
    unfold value
    split
    · exact (regular_objectBegin c).bind fun _ => (regular_values fields).nested
    · exact regular_refuse _

theorem regular_values : (vs : List Value) → Regular (values vs)
  | [] => regular_pure ()
  | v :: vs => (regular_value v).bind fun _ => regular_values vs

theorem regular_pairs : (pairs : List (Value × Value)) → Regular (Encode.pairs pairs)
  | [] => regular_pure ()
  | (key, v) :: rest =>
    (regular_value key).bind fun _ => (regular_value v).bind fun _ => regular_pairs rest

end

end Encode

end Hessian
