import Hessian.Proofs.Schema.Depth

/-!
# What holds of every encoding step

Besides moving the session on (`Encode.Regular`), a step keeps the tables of the session free of
repetitions, counts as many containers as it begins headers, and does the same whatever octets are
in front of its own.  The steps that are made of others have these laws from them, `Encode.Lawful`,
and so all writers have them.

How many headers a step begins is not read off the count.  `Encode.Begins` follows the run of the
step: `Encode.Header` are the steps that begin a container, each of which counts if it succeeds, and
the remaining ones are `Encode.Plain`.

## Main definitions

* `Encoder.Consistent` : what the tables and the count of a session are at any time.
* `Encode.Begins` : how many headers a run of a step begins.
* `Encode.Lawful` : the laws together.

## Main statements

* `Encode.Begins.containers` : as many containers are counted as headers are begun.
* `Datum.lawful_write` : every datum is written lawfully.
-/

namespace Hessian

namespace Encoder

/-- No entry stands twice in a table. -/
structure Tabled (e : Encoder) : Prop where
  types : e.types.Nodup
  definitions : e.definitions.Nodup

/-- In each table an entry has one index and an index one entry, and the containers are those whose
headers have been begun. -/
structure Consistent (begun : Nat) (e : Encoder) : Prop extends Tabled e where
  typeIndex : ∀ name i, e.typeIndex? name = some i ↔ e.types[i]? = some name
  definitionIndex : ∀ c i, e.definitionIndex? c = some i ↔ e.definitions[i]? = some c
  containers : e.containers = begun

/-- Where nothing stands twice, the index of an entry is the place where it stands. -/
theorem idxOf?_eq_some_iff {α : Type} [BEq α] [LawfulBEq α] {l : List α} (h : l.Nodup) (a : α)
    (i : Nat) : l.idxOf? a = some i ↔ l[i]? = some a := by
  rw [List.idxOf?_eq_some_iff, List.getElem?_eq_some_iff]
  constructor
  · rintro ⟨hi, ha, -⟩
    exact ⟨hi, ha⟩
  · rintro ⟨hi, rfl⟩
    exact ⟨hi, rfl, fun j hj hji => (Nat.ne_of_lt hj) (h.getElem_inj_iff.mp hji)⟩

theorem Tabled.consistent {e : Encoder} (h : e.Tabled) : e.Consistent e.containers where
  toTabled := h
  typeIndex := idxOf?_eq_some_iff h.types
  definitionIndex := idxOf?_eq_some_iff h.definitions
  containers := rfl

/-- The session with other octets in front of its own. -/
def onto (e : Encoder) (buffer : Bytes) : Encoder := { e with output := buffer.toArray ++ e.output }

/-- A session on a buffer is one on no octets with the buffer put in front. -/
theorem start_onto (buffer : Bytes) (maxDepth : Nat) :
    (start [] maxDepth).onto buffer = start buffer maxDepth := by
  simp [start, onto]

end Encoder

namespace Encode

variable {α β : Type}

theorem after_of_ok {write : Encode α} {e e' : Encoder} {a : α} (h : write e = .ok a e') :
    after write e = e' := by
  rw [after, h]

theorem after_of_error {write : Encode α} {e e' : Encoder} {err : Error}
    (h : write e = .error err e') : after write e = e' := by
  rw [after, h]

/-! ## Headers -/

/-- A header of a list, map or class instance. -/
inductive Header where
  | openList (type : String)
  | list (type : String) (length : Nat)
  | map (type : String)
  | object (c : Definition)

/-- Writes a header. -/
def Header.write : Header → Encode Unit
  | .openList type => openListBegin type
  | .list type length => listBegin type length
  | .map type => mapBegin type
  | .object c => objectBegin c

/-- The steps of which others are made and which begin no container. -/
inductive Plain : {α : Type} → Encode α → Prop
  /-- A look at the session, but not at the octets it has written. -/
  | look {α : Type} {f : Encoder → α} (hf : ∀ e buffer, f (e.onto buffer) = f e) :
    Plain (fun e => .ok (f e) e : Encode α)
  | throw {α : Type} (err : Error) : Plain (throw err : Encode α)
  | emit (bytes : Bytes) : Plain (emit bytes)
  | typeName (name : String) : Plain (typeName name)
  | definition (c : Definition) : Plain (definition c)

/-- Run from a session, the step begins so many headers of containers: those that are written
without an error.  A run goes on with another step from where a first one ended, whether that one
succeeded or not. -/
inductive Begins : {α : Type} → Encode α → Encoder → Nat → Prop
  | header {h : Header} {e e' : Encoder} (hok : h.write e = .ok () e') : Begins h.write e 1
  | refused {h : Header} {e e' : Encoder} {err : Error} (herr : h.write e = .error err e') :
    Begins h.write e 0
  | plain {α : Type} {write : Encode α} (h : Plain write) (e : Encoder) : Begins write e 0
  | nested {α : Type} {write : Encode α} {e : Encoder} {n : Nat} (hd : e.depth < e.maxDepth)
    (h : Begins write e.enter n) : Begins (nested write) e n
  | tooDeep {α : Type} {write : Encode α} {e : Encoder} (hd : e.maxDepth ≤ e.depth) :
    Begins (Encode.nested write) e 0
  | next {α β : Type} {first : Encode α} {second write : Encode β} {e : Encoder} {n m : Nat}
    (hn : Begins first e n) (hm : Begins second (after first e) m)
    (h : write e = second (after first e)) : Begins write e (n + m)

/-! ## The laws -/

/-- The end of a step with other octets in front, where the result depends on how many these are as
`move` says. -/
def moved (move : Nat → α → α) (buffer : Bytes) :
    EStateM.Result Error Encoder α → EStateM.Result Error Encoder α
  | .ok a e => .ok (move buffer.length a) (e.onto buffer)
  | .error err e => .error err (e.onto buffer)

/-- A result that does not depend on the octets in front. -/
def fixed : Nat → α → α := fun _ a => a

/-- The step keeps its tables free of repetitions. -/
def Keeps (write : Encode α) : Prop := ∀ e : Encoder, e.Tabled → (after write e).Tabled

/-- The step does the same whatever octets are in front. -/
def Uniform (move : Nat → α → α) (write : Encode α) : Prop :=
  ∀ (e : Encoder) (buffer : Bytes), write (e.onto buffer) = moved move buffer (write e)

/-- Every run of the step begins some number of headers. -/
def Counted (write : Encode α) : Prop := ∀ e, ∃ n, Begins write e n

/-- What holds of every step of an encoding session. -/
structure Lawful (move : Nat → α → α) (write : Encode α) : Prop where
  regular : Regular write
  keeps : Keeps write
  uniform : Uniform move write
  counted : Counted write

section Closure

variable {x write : Encode α} {f : α → Encode β} {move : Nat → α → α}

theorem Keeps.bind (hx : Keeps x) (hf : ∀ a, Keeps (f a)) : Keeps (x >>= f) := by
  intro e he
  have h := hx e he
  cases hs : x e with
  | ok a u =>
    rw [after_of_ok hs] at h
    rw [after, bind_ok hs]
    exact hf a u h
  | error err u =>
    rw [after_of_error hs] at h
    rw [after_of_error (bind_error hs)]
    exact h

theorem Uniform.bind {move : Nat → β → β} (hx : Uniform fixed x) (hf : ∀ a, Uniform move (f a)) :
    Uniform move (x >>= f) := by
  intro e buffer
  have h := hx e buffer
  cases hs : x e with
  | ok a u =>
    rw [hs] at h
    rw [bind_ok h, bind_ok hs]
    exact hf a u buffer
  | error err u =>
    rw [hs] at h
    rw [bind_error h, bind_error hs]
    rfl

theorem Counted.bind (hx : Counted x) (hf : ∀ a, Counted (f a)) : Counted (x >>= f) := by
  intro e
  obtain ⟨n, hn⟩ := hx e
  cases hs : x e with
  | ok a u =>
    obtain ⟨m, hm⟩ := hf a u
    rw [← after_of_ok hs] at hm
    exact ⟨n + m, hn.next hm (by rw [bind_ok hs, after_of_ok hs])⟩
  | error err u =>
    -- the second step is not run, which is as if it were to fail at once
    refine ⟨n + 0, hn.next (.plain (.throw err) _) ?_⟩
    rw [bind_error hs, after_of_error hs]
    rfl

theorem Lawful.bind {move : Nat → β → β} (hx : Lawful fixed x) (hf : ∀ a, Lawful move (f a)) :
    Lawful move (x >>= f) where
  regular := hx.regular.bind fun a => (hf a).regular
  keeps := hx.keeps.bind fun a => (hf a).keeps
  uniform := hx.uniform.bind fun a => (hf a).uniform
  counted := hx.counted.bind fun a => (hf a).counted

/-- A result may be changed if that commutes with putting octets in front. -/
theorem Lawful.map {move' : Nat → β → β} (g : α → β) (h : Lawful move x)
    (hg : ∀ k a, move' k (g a) = g (move k a)) : Lawful move' (g <$> x) where
  regular := by
    rw [map_eq_pure_bind]
    exact h.regular.bind fun a => regular_pure (g a)
  keeps := by
    rw [map_eq_pure_bind]
    exact h.keeps.bind fun a _ he => he
  uniform e buffer := by
    have hu := h.uniform e buffer
    rw [map_eq_pure_bind]
    cases hs : x e with
    | ok a u =>
      rw [hs] at hu
      rw [bind_ok hu, bind_ok hs]
      exact congrArg (EStateM.Result.ok · (u.onto buffer)) (hg _ a).symm
    | error err u =>
      rw [hs] at hu
      rw [bind_error hu, bind_error hs]
      rfl
  counted := by
    rw [map_eq_pure_bind]
    exact h.counted.bind fun a e => ⟨0, .plain (.look (f := fun _ => g a) fun _ _ => rfl) e⟩

theorem Lawful.nested (h : Lawful move write) : Lawful move (nested write) where
  regular := h.regular.nested
  keeps e he := by
    by_cases hle : e.maxDepth ≤ e.depth
    · rw [after_of_error (nested_of_le hle)]
      exact he
    · have hk := h.keeps e.enter ⟨he.types, he.definitions⟩
      cases hs : write e.enter with
      | ok a u =>
        rw [after_of_ok hs] at hk
        rw [after_of_ok (nested_ok (Nat.not_le.mp hle) hs)]
        exact ⟨hk.types, hk.definitions⟩
      | error err u =>
        rw [after_of_error hs] at hk
        rw [after_of_error (nested_error (Nat.not_le.mp hle) hs)]
        exact ⟨hk.types, hk.definitions⟩
  uniform e buffer := by
    by_cases hle : e.maxDepth ≤ e.depth
    · rw [nested_of_le hle, nested_of_le (e := e.onto buffer) hle]
      rfl
    · have hu : write (e.onto buffer).enter = moved move buffer (write e.enter) :=
        h.uniform e.enter buffer
      cases hs : write e.enter with
      | ok a u =>
        rw [hs] at hu
        rw [nested_ok (Nat.not_le.mp hle) hs,
          nested_ok (e := e.onto buffer) (Nat.not_le.mp hle) hu]
        rfl
      | error err u =>
        rw [hs] at hu
        rw [nested_error (Nat.not_le.mp hle) hs,
          nested_error (e := e.onto buffer) (Nat.not_le.mp hle) hu]
        rfl
  counted e := by
    by_cases hle : e.maxDepth ≤ e.depth
    · exact ⟨0, .tooDeep hle⟩
    · obtain ⟨n, hn⟩ := h.counted e.enter
      exact ⟨n, hn.nested (Nat.not_le.mp hle)⟩

end Closure

/-! ## Plain steps -/

/-- What is seen of a session may not depend on the octets in front. -/
theorem lawful_look {move : Nat → α → α} {f : Encoder → α}
    (hf : ∀ e buffer, f (e.onto buffer) = f e) (hm : ∀ k e, move k (f e) = f e) :
    Lawful move (fun e => .ok (f e) e : Encode α) where
  regular e := .refl e
  keeps _ he := he
  uniform e buffer :=
    congrArg (EStateM.Result.ok · (e.onto buffer)) ((hf e buffer).trans (hm _ e).symm)
  counted e := ⟨0, .plain (.look hf) e⟩

theorem lawful_pure (a : α) : Lawful fixed (pure a : Encode α) :=
  lawful_look (fun _ _ => rfl) fun _ _ => rfl

theorem lawful_typeIndex? (name : String) : Lawful fixed (typeIndex? name) :=
  lawful_look (f := fun e => e.typeIndex? name) (fun _ _ => rfl) fun _ _ => rfl

theorem lawful_definitionIndex? (c : Definition) : Lawful fixed (definitionIndex? c) :=
  lawful_look (f := fun e => e.definitionIndex? c) (fun _ _ => rfl) fun _ _ => rfl

theorem lawful_started : Lawful fixed started :=
  lawful_look (f := fun e => e.containers) (fun _ _ => rfl) fun _ _ => rfl

theorem lawful_throw {move : Nat → α → α} (err : Error) : Lawful move (throw err : Encode α) where
  regular := regular_throw err
  keeps _ he := he
  uniform _ _ := rfl
  counted e := ⟨0, .plain (.throw err) e⟩

theorem lawful_refuse {move : Nat → α → α} (fault : EncodeFault) :
    Lawful move (refuse fault : Encode α) :=
  lawful_throw _

theorem lawful_emit (bytes : Bytes) : Lawful fixed (emit bytes) where
  regular := regular_emit bytes
  keeps _ he := ⟨he.types, he.definitions⟩
  uniform e buffer := by
    have hassoc : buffer.toArray ++ e.output ++ bytes = buffer.toArray ++ (e.output ++ bytes) := by
      apply Array.toList_inj.mp
      rw [Array.toList_appendList, Array.toList_append, Array.toList_append,
        Array.toList_appendList, List.append_assoc]
    exact congrArg (fun output => EStateM.Result.ok () { e with output := output }) hassoc
  counted e := ⟨0, .plain (.emit bytes) e⟩

/-- What writes the same octets in every session is lawful. -/
theorem Undone.lawful {write : Encode Unit} {read : Decode α} {a : α} (h : Undone write read a) :
    Lawful fixed write := by
  obtain ⟨bytes, rfl, -⟩ := h
  exact lawful_emit bytes

theorem lawful_form (lead : Lead) (tail : Bytes) : Lawful fixed (form lead tail) := lawful_emit _

theorem lawful_int (n : Int32) : Lawful fixed (int n) := (int_undone n).lawful

theorem lawful_string (s : String) : Lawful fixed (string s) := (string_undone s).lawful

theorem lawful_strings (names : List String) : Lawful fixed (strings names) := by
  induction names with
  | nil => exact lawful_pure ()
  | cons name names ih => exact (lawful_string name).bind fun _ => ih

/-! ## Tables -/

/-- A type name is entered only if it is not in the table. -/
theorem keeps_typeName (name : String) : Keeps (typeName name) := by
  intro e he
  cases hi : e.typeIndex? name with
  | some index =>
    have hlook : typeIndex? name e = .ok (some index) e := congrArg (EStateM.Result.ok · e) hi
    have hwritten : typeName name e = int (Int32.ofNat index) e := bind_ok hlook
    rw [after, hwritten]
    exact (lawful_int _).keeps e he
  | none =>
    have hnew : name ∉ e.types := List.idxOf?_eq_none_iff.mp hi
    have hlook : typeIndex? name e = .ok none e := congrArg (EStateM.Result.ok · e) hi
    have hwritten : typeName name e = string name { e with types := e.types ++ [name] } :=
      bind_ok hlook
    rw [after, hwritten]
    refine (lawful_string name).keeps _ ⟨?_, he.definitions⟩
    exact List.concat_eq_append ▸ he.types.concat hnew

theorem lawful_typeName (name : String) : Lawful fixed (typeName name) where
  regular := regular_typeName name
  keeps := keeps_typeName name
  uniform := by
    refine (lawful_typeIndex? name).uniform.bind fun index => ?_
    cases index with
    | some index => exact (lawful_int _).uniform
    | none => exact Uniform.bind (fun _ _ => rfl) fun _ => (lawful_string name).uniform
  counted e := ⟨0, .plain (.typeName name) e⟩

/-- Writes what stands in a class definition. -/
def definitionText (c : Definition) : Encode Unit := do
  form .definition []
  string c.typeName
  int (Int32.ofNat c.fieldNames.length)
  strings c.fieldNames

theorem lawful_definitionText (c : Definition) : Lawful fixed (definitionText c) :=
  (lawful_form _ _).bind fun _ => (lawful_string _).bind fun _ => (lawful_int _).bind fun _ =>
    lawful_strings _

/-- A definition that is not in the table is entered behind its text. -/
theorem definition_of_new {c : Definition} {e : Encoder} (h : c ∉ e.definitions) :
    definition c e = (definitionText c >>= fun _ => addDefinition c) e := by
  have hlook : definitionIndex? c e = .ok none e :=
    congrArg (EStateM.Result.ok · e) (List.idxOf?_eq_none_iff.mpr h)
  simp only [definitionText, bind_assoc]
  exact bind_ok hlook

/-- A definition is entered only if it is not in the table. -/
theorem keeps_definition (c : Definition) : Keeps (definition c) := by
  intro e he
  cases hi : e.definitionIndex? c with
  | some index =>
    have hlook : definitionIndex? c e = .ok (some index) e := congrArg (EStateM.Result.ok · e) hi
    have hwritten : definition c e = .ok index e := bind_ok hlook
    rw [after_of_ok hwritten]
    exact he
  | none =>
    have hnew : c ∉ e.definitions := List.idxOf?_eq_none_iff.mp hi
    -- writing the text enters nothing
    obtain ⟨⟨⟩, u, hu, hg⟩ : ∃ a u, definitionText c e = .ok a u ∧ e.Grown 0 0 0 0 u :=
      ((always_form _ _).andThen fun _ => (always_string _).andThen fun _ =>
        (always_int _).andThen fun _ => always_strings _) e
    have hsame : e.definitions = u.definitions :=
      ((lawful_definitionText c).regular.advance_ok hu).definitions.eq_of_length_le hg.definitions
    have hk := (lawful_definitionText c).keeps e he
    rw [after_of_ok hu] at hk
    rw [after, definition_of_new hnew, bind_ok hu]
    have hnodup := hk.definitions.concat (hsame ▸ hnew)
    rw [List.concat_eq_append] at hnodup
    exact ⟨hk.types, hnodup⟩

theorem lawful_definition (c : Definition) : Lawful fixed (definition c) where
  regular := regular_definition c
  keeps := keeps_definition c
  uniform := by
    refine (lawful_definitionIndex? c).uniform.bind fun index => ?_
    cases index with
    | some index => exact (lawful_pure index).uniform
    | none =>
      exact (lawful_form _ _).uniform.bind fun _ => (lawful_string _).uniform.bind fun _ =>
        (lawful_int _).uniform.bind fun _ => (lawful_strings _).uniform.bind fun _ =>
          fun _ _ => rfl
  counted e := ⟨0, .plain (.definition c) e⟩

/-! ## Headers are lawful -/

/-- A header counts its container when everything else of it is written. -/
theorem lawful_header_of {h : Header} {body : Encode Unit} (hb : Lawful fixed body)
    (heq : h.write = body >>= fun _ => addContainer) : Lawful fixed h.write where
  regular := heq ▸ hb.regular.bind fun _ => regular_addContainer
  keeps := heq ▸ hb.keeps.bind fun _ _ he => ⟨he.types, he.definitions⟩
  uniform := heq ▸ hb.uniform.bind fun _ _ _ => rfl
  counted e := by
    cases hs : h.write e with
    | ok a u => exact ⟨1, .header hs⟩
    | error err u => exact ⟨0, .refused hs⟩

theorem lawful_optionalType (name : String) : Lawful fixed (optionalType name) := by
  unfold optionalType
  split
  · exact lawful_pure ()
  · exact lawful_typeName name

theorem lawful_objectIndex (index : Nat) : Lawful fixed (objectIndex index) := by
  unfold objectIndex
  split
  · exact lawful_form _ _
  · exact (lawful_form _ _).bind fun _ => lawful_int _

theorem lawful_header (h : Header) : Lawful fixed h.write := by
  cases h with
  | openList type =>
    exact lawful_header_of ((lawful_form _ _).bind fun _ => lawful_optionalType type)
      (bind_assoc _ _ _).symm
  | list type length =>
    by_cases hl : 2 ^ 31 ≤ length
    · have heq : (Header.list type length).write = refuse (.listTooLong length) := if_pos hl
      exact heq ▸ lawful_refuse _
    · by_cases hs : length ≤ listShortMax
      · refine lawful_header_of ((lawful_form (.list (!type.isEmpty) (.short length)) []).bind
          fun _ => lawful_optionalType type) ?_
        rw [bind_assoc]
        exact (if_neg hl).trans (if_pos hs)
      · refine lawful_header_of ((lawful_form (.list (!type.isEmpty) .counted) []).bind fun _ =>
          (lawful_optionalType type).bind fun _ => lawful_int (Int32.ofNat length)) ?_
        simp only [bind_assoc]
        exact (if_neg hl).trans (if_neg hs)
  | map type =>
    exact lawful_header_of ((lawful_form _ _).bind fun _ => lawful_optionalType type)
      (bind_assoc _ _ _).symm
  | object c =>
    exact lawful_header_of ((lawful_definition c).bind fun index => lawful_objectIndex index)
      (bind_assoc _ _ _).symm

theorem lawful_listBegin (type : String) (length : Nat) : Lawful fixed (listBegin type length) :=
  lawful_header (.list type length)

theorem lawful_mapBegin (type : String) : Lawful fixed (mapBegin type) := lawful_header (.map type)

theorem lawful_objectBegin (c : Definition) : Lawful fixed (objectBegin c) :=
  lawful_header (.object c)

/-! ## Values and strings -/

theorem lawful_ref (index : UInt32) : Lawful fixed (ref index) := by
  refine lawful_started.bind fun written => ?_
  split
  · exact (lawful_form _ _).bind fun _ => lawful_int _
  · exact lawful_refuse _

theorem lawful_textChunks (count : Nat) (characters : List Text.Character) :
    Lawful fixed (textChunks count characters) := by
  induction count generalizing characters with
  | zero => exact lawful_pure characters
  | succ count ih => exact (lawful_form _ _).bind fun _ => ih _

theorem lawful_text (characters : List Text.Character) : Lawful fixed (text characters) := by
  refine (lawful_textChunks _ _).bind fun rest => ?_
  unfold finalText
  dsimp only
  split
  · exact lawful_form _ _
  split
  · exact lawful_form _ _
  · exact lawful_form _ _

/-- Full chunks in front of a fault are written, which takes nothing from the laws. -/
theorem lawful_rawString (bytes : Bytes) : Lawful fixed (rawString bytes) := by
  unfold rawString
  dsimp only
  split
  · split
    · exact lawful_throw _
    split
    · exact lawful_text _
    · exact lawful_throw _
  split
  · exact lawful_text _
  · exact (lawful_textChunks _ _).bind fun _ => lawful_throw _

mutual

theorem lawful_value : (v : Value) → Lawful fixed (value v)
  | .null => null_undone.lawful
  | .boolean b => (boolean_undone b).lawful
  | .int n => lawful_int n
  | .long n => (long_undone n).lawful
  | .double d => (double_undone d).lawful
  | .binary bytes => (binary_undone bytes).lawful
  | .date millis => (date_undone millis).lawful
  | .string s => lawful_string s
  | .ref index => lawful_ref index
  | .list type items => by
    unfold value
    split
    · exact lawful_refuse _
    · exact (lawful_listBegin _ _).bind fun _ => (lawful_values items).nested
  | .map type entries => by
    unfold value
    split
    · exact lawful_refuse _
    · exact (lawful_mapBegin _).bind fun _ => (lawful_pairs entries).nested.bind fun _ =>
        lawful_form _ _
  | .object c fields => by
    unfold value
    split
    · exact (lawful_objectBegin c).bind fun _ => (lawful_values fields).nested
    · exact lawful_refuse _

theorem lawful_values : (vs : List Value) → Lawful fixed (values vs)
  | [] => lawful_pure ()
  | v :: vs => (lawful_value v).bind fun _ => lawful_values vs

theorem lawful_pairs : (pairs : List (Value × Value)) → Lawful fixed (Encode.pairs pairs)
  | [] => lawful_pure ()
  | (key, v) :: rest =>
    (lawful_value key).bind fun _ => (lawful_value v).bind fun _ => lawful_pairs rest

end

/-! ## The count -/

/-- A header that is written counts one container, and a header that is not counts none. -/
theorem Header.containers (h : Header) {e : Encoder} :
    (∀ e', h.write e = .ok () e' → e'.containers = e.containers + 1) ∧
      ∀ err e', h.write e = .error err e' → e'.containers = e.containers := by
  by_cases hl : ∃ type length, h = .list type length ∧ 2 ^ 31 ≤ length
  · obtain ⟨type, length, rfl, hl⟩ := hl
    have heq : (Header.list type length).write e = .error (.encode (.listTooLong length)) e :=
      congrFun (if_pos hl) e
    rw [heq]
    refine ⟨fun _ h => (nomatch h), fun err e' h => ?_⟩
    cases h
    rfl
  · obtain ⟨bound, hw⟩ : ∃ bound, Always bound 1 1 1 h.write := by
      cases h with
      | openList type =>
        exact ⟨0, Always.mono ((always_form _ _).andThen fun _ => (always_optionalType type).bind
          fun _ => always_addContainer) (Nat.le_refl 1) (Nat.zero_le 1)⟩
      | list type length =>
        exact ⟨0, always_listBegin type (Nat.lt_of_not_le fun hle => hl ⟨type, length, rfl, hle⟩)⟩
      | map type => exact ⟨0, always_mapBegin type⟩
      | object c => exact ⟨_, always_objectBegin (Nat.lt_succ_self c.fieldNames.length)⟩
    refine ⟨fun e' he => (hw.grown he).containers, fun err e' he => ?_⟩
    obtain ⟨a, u, hu, -⟩ := hw e
    rw [hu] at he
    cases he

/-- A plain step counts none. -/
theorem Plain.containers {write : Encode α} (h : Plain write) (e : Encoder) :
    (after write e).containers = e.containers := by
  cases h with
  | look _ => rfl
  | throw _ => rfl
  | emit _ => rfl
  | typeName name =>
    obtain ⟨a, u, hu, hg⟩ := @always_typeName 0 name e
    rw [after_of_ok hu, hg.containers, Nat.add_zero]
  | definition c =>
    obtain ⟨a, u, hu, hg⟩ := always_definition (Nat.lt_succ_self c.fieldNames.length) e
    rw [after_of_ok hu, hg.containers, Nat.add_zero]

/-- As many containers are counted as headers are begun. -/
theorem Begins.containers {write : Encode α} {e : Encoder} {n : Nat} (h : Begins write e n) :
    (after write e).containers = e.containers + n := by
  induction h with
  | @header h e e' hok => rw [after_of_ok hok, h.containers.1 e' hok]
  | @refused h e e' err herr => rw [after_of_error herr, h.containers.2 err e' herr, Nat.add_zero]
  | plain h e => rw [h.containers, Nat.add_zero]
  | @nested α write e n hd _ ih =>
    cases hs : write e.enter with
    | ok a u =>
      rw [after_of_ok hs] at ih
      rw [after_of_ok (nested_ok hd hs)]
      exact ih
    | error err u =>
      rw [after_of_error hs] at ih
      rw [after_of_error (nested_error hd hs)]
      exact ih
  | tooDeep hd => rw [after_of_error (nested_of_le hd), Nat.add_zero]
  | @next α β first second write e n m _ _ h ihn ihm =>
    have hafter : after write e = after second (after first e) := by
      unfold after at h ⊢
      rw [h]
    rw [hafter, ihm, ihn, Nat.add_assoc]

end Encode

/-! ## Data -/

namespace Datum

open Encode

variable {ι : Type} (Γ : Schema ι)

mutual

/-- Every datum is written lawfully. -/
theorem lawful_write : (d : Datum ι) → Lawful fixed (d.write Γ)
  | .boolean b => (boolean_undone b).lawful
  | .int n => lawful_int n
  | .long n => (long_undone n).lawful
  | .unsigned n => by
    rw [write, Encode.unsigned]
    split
    · exact (long_undone _).lawful
    · exact lawful_refuse _
  | .double d => (double_undone d).lawful
  | .single s => (double_undone s.toDouble).lawful
  | .text s => lawful_string s
  | .bytes b => (binary_undone b).lawful
  | .absent => null_undone.lawful
  | .present d => lawful_write d
  | .list items => (lawful_listBegin _ _).bind fun _ => (lawful_writeItems items).nested
  | .map entries => (lawful_mapBegin _).bind fun _ =>
      (lawful_writeEntries entries).nested.bind fun _ => lawful_form _ _
  | .date unit count => by
    rw [write, Encode.dateIn]
    split
    · exact (date_undone _).lawful
    · exact lawful_refuse _
  | .instant clock t => by
    rw [write, Encode.instant]
    split
    · exact (date_undone _).lawful
    · exact lawful_refuse _
  | .decimal _ => (lawful_objectBegin _).bind fun _ => lawful_string _
  | .value v => lawful_value v
  | .definition c => (lawful_definition c).bind fun _ => lawful_pure ()
  | .json j => by
    rw [write, json_eq_value]
    exact lawful_value _
  | .record name fields => (lawful_objectBegin _).bind fun _ =>
      (lawful_writeFields (Γ name).fields fields).nested

theorem lawful_writeItems : (items : List (Datum ι)) → Lawful fixed (writeItems Γ items)
  | [] => lawful_pure ()
  | d :: rest => (lawful_write d).bind fun _ => lawful_writeItems rest

theorem lawful_writeEntries : (entries : List (Key × Datum ι)) →
    Lawful fixed (writeEntries Γ entries)
  | [] => lawful_pure ()
  | (k, d) :: rest => by
    rw [writeEntries, key_eq_value]
    exact (lawful_value _).bind fun _ => (lawful_write d).bind fun _ => lawful_writeEntries rest

theorem lawful_writeFields : (fields : List (Field ι)) → (data : List (Datum ι)) →
    Lawful fixed (writeFields Γ fields data)
  | [], [] => lawful_pure ()
  | [], _ :: _ => lawful_pure ()
  | _ :: _, [] => lawful_pure ()
  | f :: fields, d :: rest => by
    rw [writeFields]
    by_cases hw : f.onWire
    · rw [if_pos hw]
      exact (lawful_write d).bind fun _ => lawful_writeFields fields rest
    · rw [if_neg hw]
      exact lawful_writeFields fields rest

end

end Datum

end Hessian
