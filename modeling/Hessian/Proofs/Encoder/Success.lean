import Hessian.Proofs.Encoder.Step
import Hessian.Proofs.Value.Measure

/-!
# When a value can be written

A value can be written in a session exactly if each of its containers can be written by itself
(`Value.Writable`), it nests no deeper than the session allows, and its references go back
(`Encode.value_ok_iff`).

Nothing else fails: `Encode.Always` says of a step that it succeeds in every session, and how much
it adds to the tables.  A session that has written a value has as many more containers as the value
has, and at most as many more types and definitions (`Encode.grown_value`).  So it is small if the
value is, `Encoder.Grown.small`.
-/

namespace Hessian

/-- A session has come to another by at most `t` more types, at most `d` more definitions, and `k`
more containers.  The new definitions have fewer fields than the bound. -/
structure Encoder.Grown (bound t d k : Nat) (e e' : Encoder) : Prop where
  types : e'.types.length ≤ e.types.length + t
  definitions : e'.definitions.length ≤ e.definitions.length + d
  containers : e'.containers = e.containers + k
  fields : ∀ c ∈ e'.definitions, c ∈ e.definitions ∨ c.fieldNames.length < bound

namespace Encoder.Grown

variable {bound t d k t' d' k' : Nat} {e e' e'' : Encoder}

theorem refl (bound : Nat) (e : Encoder) : Grown bound 0 0 0 e e :=
  ⟨Nat.le_refl _, Nat.le_refl _, rfl, fun _ h => .inl h⟩

theorem trans (h : Grown bound t d k e e') (h' : Grown bound t' d' k' e' e'') :
    Grown bound (t + t') (d + d') (k + k') e e'' where
  types := by
    have ht := h.types
    have ht' := h'.types
    omega
  definitions := by
    have hd := h.definitions
    have hd' := h'.definitions
    omega
  containers := by rw [h'.containers, h.containers, Nat.add_assoc]
  fields c hc := (h'.fields c hc).elim (h.fields c) .inr

theorem mono (h : Grown bound t d k e e') (ht : t ≤ t') (hd : d ≤ d') :
    Grown bound t' d' k e e' where
  types := Nat.le_trans h.types (Nat.add_le_add_left ht _)
  definitions := Nat.le_trans h.definitions (Nat.add_le_add_left hd _)
  containers := h.containers
  fields := h.fields

/-- What has grown one level deeper has grown. -/
theorem leave (h : Grown bound t d k e.enter e') : Grown bound t d k e e'.leave :=
  ⟨h.types, h.definitions, h.containers, h.fields⟩

/-- A session that has grown little from its start is small. -/
theorem small {bytes : Bytes} {maxDepth : Nat}
    (h : Grown (2 ^ 31) k k k (.start bytes maxDepth) e') (hk : k < 2 ^ 31) : e'.Small where
  types := by
    have ht := h.types
    rw [show (Encoder.start bytes maxDepth).types.length = 0 from rfl] at ht
    omega
  definitions := by
    have hd := h.definitions
    rw [show (Encoder.start bytes maxDepth).definitions.length = 0 from rfl] at hd
    omega
  containers := by
    have hc := h.containers
    rw [show (Encoder.start bytes maxDepth).containers = 0 from rfl] at hc
    omega
  fields c hc := (h.fields c hc).resolve_left fun hm => nomatch hm

end Encoder.Grown

namespace Encode

variable {α β : Type} {bound t d k t' d' k' : Nat} {e e' : Encoder}

/-! ## Steps that always succeed -/

/-- The step succeeds in every session and adds so much to it. -/
def Always (bound t d k : Nat) (write : Encode α) : Prop :=
  ∀ e, ∃ a e', write e = .ok a e' ∧ e.Grown bound t d k e'

section Always

variable {write : Encode α}

/-- A success is the one that there always is. -/
theorem Always.grown (h : Always bound t d k write) {a : α} (he : write e = .ok a e') :
    e.Grown bound t d k e' := by
  obtain ⟨b, u, hu, hg⟩ := h e
  obtain ⟨-, rfl⟩ := EStateM.Result.ok.inj (hu.symm.trans he)
  exact hg

theorem Always.mono (h : Always bound t d k write) (ht : t ≤ t') (hd : d ≤ d') :
    Always bound t' d' k write := by
  intro e
  obtain ⟨a, u, hu, hg⟩ := h e
  exact ⟨a, u, hu, hg.mono ht hd⟩

theorem always_pure (a : α) : Always bound 0 0 0 (pure a : Encode α) :=
  fun e => ⟨a, e, rfl, .refl bound e⟩

theorem Always.bind {x : Encode α} {f : α → Encode β} (hx : Always bound t d k x)
    (hf : ∀ a, Always bound t' d' k' (f a)) :
    Always bound (t + t') (d + d') (k + k') (x >>= f) := by
  intro e
  obtain ⟨a, u, hu, hg⟩ := hx e
  obtain ⟨b, w, hw, hg'⟩ := hf a u
  exact ⟨b, w, (bind_ok hu).trans hw, hg.trans hg'⟩

/-- What comes first may add nothing. -/
theorem Always.andThen {x : Encode α} {f : α → Encode β} (hx : Always bound 0 0 0 x)
    (hf : ∀ a, Always bound t d k (f a)) : Always bound t d k (x >>= f) := by
  have h := hx.bind hf
  rwa [Nat.zero_add, Nat.zero_add, Nat.zero_add] at h

theorem always_emit (bytes : Bytes) : Always bound 0 0 0 (emit bytes) :=
  fun _ => ⟨(), _, rfl, Nat.le_refl _, Nat.le_refl _, rfl, fun _ h => .inl h⟩

theorem always_form (lead : Lead) (tail : Bytes) : Always bound 0 0 0 (form lead tail) :=
  always_emit _

/-- What writes the same octets in every session always succeeds. -/
theorem Undone.always {write : Encode Unit} {read : Decode α} {a : α}
    (h : Undone write read a) : Always bound 0 0 0 write := by
  obtain ⟨bytes, rfl, -⟩ := h
  exact always_emit bytes

theorem always_typeIndex? (name : String) : Always bound 0 0 0 (typeIndex? name) :=
  fun e => ⟨_, e, rfl, .refl bound e⟩

theorem always_definitionIndex? (c : Definition) : Always bound 0 0 0 (definitionIndex? c) :=
  fun e => ⟨_, e, rfl, .refl bound e⟩

theorem always_addType (name : String) : Always bound 1 0 0 (addType name) := by
  refine fun e => ⟨(), _, rfl, ?_, Nat.le_refl _, rfl, fun _ h => .inl h⟩
  rw [List.length_append]
  exact Nat.le_refl _

theorem always_addDefinition {c : Definition} (hc : c.fieldNames.length < bound) :
    Always bound 0 1 0 (addDefinition c) := by
  refine fun e => ⟨_, _, rfl, Nat.le_refl _, ?_, rfl, fun c' hm => ?_⟩
  · rw [List.length_append]
    exact Nat.le_refl _
  · rcases List.mem_append.mp hm with hm | hm
    · exact .inl hm
    · obtain rfl := List.mem_singleton.mp hm
      exact .inr hc

theorem always_addContainer : Always bound 0 0 1 addContainer :=
  fun _ => ⟨(), _, rfl, Nat.le_refl _, Nat.le_refl _, rfl, fun _ h => .inl h⟩

end Always

/-! ## Headers -/

theorem always_int (n : Int32) : Always bound 0 0 0 (int n) := (int_undone n).always

theorem always_string (s : String) : Always bound 0 0 0 (string s) := (string_undone s).always

theorem always_typeName (name : String) : Always bound 1 0 0 (typeName name) := by
  apply (always_typeIndex? name).andThen
  intro index
  split
  · exact (always_int _).mono (Nat.zero_le _) (Nat.le_refl _)
  · exact (always_addType name).bind fun _ => always_string name

theorem always_optionalType (name : String) : Always bound 1 0 0 (optionalType name) := by
  unfold optionalType
  split
  · exact (always_pure ()).mono (Nat.zero_le _) (Nat.le_refl _)
  · exact always_typeName name

theorem always_strings (names : List String) : Always bound 0 0 0 (strings names) := by
  induction names with
  | nil => exact always_pure ()
  | cons name names ih => exact (always_string name).andThen fun _ => ih

theorem always_definition {c : Definition} (hc : c.fieldNames.length < bound) :
    Always bound 0 1 0 (definition c) := by
  apply (always_definitionIndex? c).andThen
  intro index
  split
  · exact (always_pure _).mono (Nat.le_refl _) (Nat.zero_le _)
  · exact (always_form _ _).andThen fun _ => (always_string _).andThen fun _ =>
      (always_int _).andThen fun _ => (always_strings _).andThen fun _ => always_addDefinition hc

theorem always_objectIndex (index : Nat) : Always bound 0 0 0 (objectIndex index) := by
  unfold objectIndex
  split
  · exact always_form _ _
  · exact (always_form _ _).andThen fun _ => always_int _

theorem always_objectBegin {c : Definition} (hc : c.fieldNames.length < bound) :
    Always bound 1 1 1 (objectBegin c) :=
  Always.mono ((always_definition hc).bind fun index =>
    (always_objectIndex index).andThen fun _ => always_addContainer) (Nat.zero_le 1) (Nat.le_refl 1)

theorem always_listBegin (type : String) {length : Nat} (hl : length < 2 ^ 31) :
    Always bound 1 1 1 (listBegin type length) := by
  unfold listBegin
  rw [if_neg (Nat.not_le.mpr hl)]
  split
  · exact Always.mono ((always_form _ _).andThen fun _ => (always_optionalType type).bind fun _ =>
      always_addContainer) (Nat.le_refl 1) (Nat.zero_le 1)
  · exact Always.mono ((always_form _ _).andThen fun _ => (always_optionalType type).bind fun _ =>
      (always_int _).andThen fun _ => always_addContainer) (Nat.le_refl 1) (Nat.zero_le 1)

theorem always_mapBegin (type : String) : Always bound 1 1 1 (mapBegin type) :=
  Always.mono ((always_form _ _).andThen fun _ => (always_optionalType type).bind fun _ =>
    always_addContainer) (Nat.le_refl 1) (Nat.zero_le 1)

/-- A list that is too long has no header. -/
theorem length_lt_of_listBegin {type : String} {length : Nat}
    (h : listBegin type length e = .ok () e') : length < 2 ^ 31 := by
  unfold listBegin at h
  split at h
  · cases h
  · next hl => exact Nat.not_le.mp hl

/-! ## Where success is decided -/

theorem Always.exists_ok {write : Encode Unit} (h : Always bound t d k write) (e : Encoder) :
    ∃ e', write e = .ok () e' := by
  obtain ⟨⟨⟩, e', he, -⟩ := h e
  exact ⟨e', he⟩

/-- Where the first step succeeds, the second one decides. -/
theorem exists_ok_bind {x : Encode α} {f : α → Encode β} {b : β} {a : α} {u : Encoder}
    (h : x e = .ok a u) : (∃ e', (x >>= f) e = .ok b e') ↔ ∃ e', f a u = .ok b e' := by
  rw [bind_ok h]

/-- Where the second step always succeeds, the first one decides. -/
theorem exists_ok_andThen {x y : Encode Unit} (h : Always bound t d k y) (e : Encoder) :
    (∃ e', (x >>= fun _ => y) e = .ok () e') ↔ ∃ e', x e = .ok () e' := by
  constructor
  · rintro ⟨e', he⟩
    obtain ⟨⟨⟩, u, hu, -⟩ := ok_of_bind he
    exact ⟨u, hu⟩
  · rintro ⟨u, hu⟩
    rw [exists_ok_bind hu]
    exact h.exists_ok u

theorem exists_ok_nested {write : Encode α} {a : α} (e : Encoder) :
    (∃ e', nested write e = .ok a e') ↔ e.depth < e.maxDepth ∧ ∃ u, write e.enter = .ok a u := by
  constructor
  · rintro ⟨e', h⟩
    obtain ⟨hlt, u, hu, -⟩ := ok_of_nested h
    exact ⟨hlt, u, hu⟩
  · rintro ⟨hlt, u, hu⟩
    exact ⟨u.leave, nested_ok hlt hu⟩

/-- A container is written if its parts are, one level deeper and with one more container before
them. -/
theorem container_ok_iff {header body : Encode Unit} {P : Prop} {G : Nat → Prop} {n : Nat}
    (hh : Always bound t d 1 header) (hr : Regular header)
    (hb : ∀ u : Encoder, (∃ e', body u = .ok () e') ↔ P ∧ n ≤ u.maxDepth - u.depth ∧ G u.containers)
    (e : Encoder) : (∃ e', (header >>= fun _ => nested body) e = .ok () e') ↔
      P ∧ n + 1 ≤ e.maxDepth - e.depth ∧ G (e.containers + 1) := by
  obtain ⟨⟨⟩, u, hu, hg⟩ := hh e
  have ha := hr.advance_ok hu
  have hheight : u.depth < u.maxDepth ∧ n ≤ u.enter.maxDepth - u.enter.depth ↔
      n + 1 ≤ e.maxDepth - e.depth := by
    rw [show u.enter.maxDepth = u.maxDepth from rfl, show u.enter.depth = u.depth + 1 from rfl,
      ha.maxDepth, ha.depth]
    omega
  rw [exists_ok_bind hu, exists_ok_nested, hb, ← hheight, ← hg.containers]
  exact ⟨fun ⟨hlt, hp, hn, hc⟩ => ⟨hp, ⟨hlt, hn⟩, hc⟩,
    fun ⟨hp, ⟨hlt, hn⟩, hc⟩ => ⟨hlt, hp, hn, hc⟩⟩

/-- What is written one after another is written if each of it is, with the containers of the first
before the second. -/
theorem sequence_ok_iff {x y : Encode Unit} {A B G : Prop} {H : Nat → Prop} {n m : Nat}
    {e : Encoder} (hr : Regular x)
    (hx : (∃ u, x e = .ok () u) ↔ A ∧ n ≤ e.maxDepth - e.depth ∧ G)
    (hk : ∀ u, x e = .ok () u → u.containers = e.containers + k)
    (hy : ∀ u : Encoder, (∃ e', y u = .ok () e') ↔ B ∧ m ≤ u.maxDepth - u.depth ∧ H u.containers) :
    (∃ e', (x >>= fun _ => y) e = .ok () e') ↔
      (A ∧ B) ∧ max n m ≤ e.maxDepth - e.depth ∧ G ∧ H (e.containers + k) := by
  by_cases hs : ∃ u, x e = .ok () u
  · obtain ⟨ha, hn, hg⟩ := hx.mp hs
    obtain ⟨u, hu⟩ := hs
    have hadvance := hr.advance_ok hu
    rw [exists_ok_bind hu, hy u, hk u hu, hadvance.maxDepth, hadvance.depth, Nat.max_le]
    exact ⟨fun ⟨hb, hm, hh⟩ => ⟨⟨ha, hb⟩, ⟨hn, hm⟩, hg, hh⟩,
      fun ⟨⟨_, hb⟩, ⟨_, hm⟩, _, hh⟩ => ⟨hb, hm, hh⟩⟩
  · refine iff_of_false (fun ⟨e', h⟩ => ?_) fun ⟨⟨ha, _⟩, hm, hg, _⟩ => ?_
    · obtain ⟨⟨⟩, u, hu, -⟩ := ok_of_bind h
      exact hs ⟨u, hu⟩
    · exact hs (hx.mpr ⟨ha, (Nat.max_le.mp hm).1, hg⟩)

/-! ## Values -/

/-- A scalar other than a reference can always be written. -/
theorem scalar_ok_iff {read : Decode α} {a : α} (v : Value) (hv : v.containers = [])
    (hr : v.ref? = none) (hw : Undone (value v) read a) (e : Encoder) :
    (∃ e', value v e = .ok () e') ↔
      v.Everywhere Value.Writable ∧ v.height ≤ e.maxDepth - e.depth ∧ v.Grounded e.containers := by
  refine iff_of_true ((@Undone.always _ 0 _ _ _ hw).exists_ok e)
    ⟨Value.writable_of_plain hv, ?_, Value.grounded_of_plain hv hr _⟩
  rw [Value.height_of_plain hv]
  exact Nat.zero_le _

/-- A reference is written exactly if it is to a container that has been started. -/
theorem ref_ok_iff (index : UInt32) (e : Encoder) :
    (∃ e', ref index e = .ok () e') ↔ index.toNat < e.containers := by
  have hwritten : ref index e = (if index.toNat < e.containers then
      form .ref [] >>= fun _ => int (Int32.ofNat index.toNat)
    else
      refuse (.danglingReference index.toNat e.containers)) e := rfl
  rw [hwritten]
  split
  · next hlt =>
    have hw := (@always_form 0 .ref []).andThen fun _ => always_int (Int32.ofNat index.toNat)
    exact iff_of_true (hw.exists_ok e) hlt
  · next hlt => exact iff_of_false (fun ⟨_, h⟩ => nomatch h) hlt

theorem grown_ref {index : UInt32} (h : ref index e = .ok () e') :
    e.Grown bound 0 0 0 e' := by
  obtain ⟨written, u, hw, h⟩ := ok_of_bind h
  obtain ⟨rfl, rfl⟩ := EStateM.Result.ok.inj hw
  split at h
  · exact ((always_form _ _).andThen fun _ => always_int _).grown h
  · cases h

mutual

/-- Writing a value starts its containers, and adds no more types and definitions than these. -/
theorem grown_value : (v : Value) → (e e' : Encoder) → value v e = .ok () e' → v.size ≤ bound →
    e.Grown bound v.containers.length v.containers.length v.containers.length e'
  | .null, _, _, h, _ => null_undone.always.grown h
  | .boolean b, _, _, h, _ => (boolean_undone b).always.grown h
  | .int n, _, _, h, _ => (int_undone n).always.grown h
  | .long n, _, _, h, _ => (long_undone n).always.grown h
  | .double d, _, _, h, _ => (double_undone d).always.grown h
  | .binary bytes, _, _, h, _ => (binary_undone bytes).always.grown h
  | .date millis, _, _, h, _ => (date_undone millis).always.grown h
  | .string s, _, _, h, _ => (string_undone s).always.grown h
  | .ref index, _, _, h, _ => grown_ref h
  | .list type items, e, e', h, hb => by
    unfold value at h
    split at h
    · cases h
    · obtain ⟨⟨⟩, u, hu, hn⟩ := ok_of_bind h
      obtain ⟨-, w, hw, rfl⟩ := ok_of_nested hn
      have hheader := (@always_listBegin bound _ _ (length_lt_of_listBegin hu)).grown hu
      have hitems := grown_values items u.enter w hw (Nat.le_of_succ_le hb)
      rw [Value.containers, List.length_cons, Nat.add_comm]
      exact hheader.trans hitems.leave
  | .map type entries, e, e', h, hb => by
    unfold value at h
    split at h
    · cases h
    · obtain ⟨⟨⟩, u, hu, h⟩ := ok_of_bind h
      obtain ⟨⟨⟩, w, hn, ht⟩ := ok_of_bind h
      obtain ⟨-, x, hx, rfl⟩ := ok_of_nested hn
      have hheader := (@always_mapBegin bound _).grown hu
      have hentries := grown_pairs entries u.enter x hx (Nat.le_of_succ_le hb)
      rw [Value.containers, List.length_cons, Nat.add_comm]
      exact hheader.trans (hentries.leave.trans ((always_form _ _).grown ht))
  | .object c fields, e, e', h, hb => by
    unfold value at h
    split at h
    · next hl =>
      obtain ⟨⟨⟩, u, hu, hn⟩ := ok_of_bind h
      obtain ⟨-, w, hw, rfl⟩ := ok_of_nested hn
      have hc : c.fieldNames.length < bound :=
        Nat.lt_of_lt_of_le (Nat.lt_succ_of_le (hl ▸ Value.length_le_sizeOfItems fields)) hb
      have hfields := grown_values fields u.enter w hw (Nat.le_of_succ_le hb)
      rw [Value.containers, List.length_cons, Nat.add_comm]
      exact ((always_objectBegin hc).grown hu).trans hfields.leave
    · cases h

theorem grown_values : (vs : List Value) → (e e' : Encoder) → values vs e = .ok () e' →
    Value.sizeOfItems vs ≤ bound → e.Grown bound (Value.containersOfItems vs).length
      (Value.containersOfItems vs).length (Value.containersOfItems vs).length e'
  | [], _, _, h, _ => (always_pure ()).grown h
  | v :: vs, e, e', h, hb => by
    obtain ⟨⟨⟩, u, hv, hr⟩ := ok_of_bind h
    rw [Value.sizeOfItems] at hb
    rw [Value.containersOfItems, List.length_append]
    exact (grown_value v e u hv (Nat.le_of_add_right_le hb)).trans
      (grown_values vs u e' hr (Nat.le_of_add_left_le hb))

theorem grown_pairs : (pairs : Entries) → (e e' : Encoder) → Encode.pairs pairs e = .ok () e' →
    Value.sizeOfEntries pairs ≤ bound → e.Grown bound (Value.containersOfEntries pairs).length
      (Value.containersOfEntries pairs).length (Value.containersOfEntries pairs).length e'
  | [], _, _, h, _ => (always_pure ()).grown h
  | (key, v) :: rest, e, e', h, hb => by
    obtain ⟨⟨⟩, u, hk, h⟩ := ok_of_bind h
    obtain ⟨⟨⟩, w, hv, hr⟩ := ok_of_bind h
    rw [Value.sizeOfEntries] at hb
    rw [Value.containersOfEntries, List.length_append, List.length_append]
    have hkey := grown_value key e u hk (by omega)
    have hvalue := grown_value v u w hv (by omega)
    exact (hkey.trans hvalue).trans (grown_pairs rest w e' hr (by omega))

end

mutual

/-- When a value can be written. -/
theorem value_ok_iff : (v : Value) → (e : Encoder) → ((∃ e', value v e = .ok () e') ↔
    v.Everywhere Value.Writable ∧ v.height ≤ e.maxDepth - e.depth ∧ v.Grounded e.containers)
  | .null, e => scalar_ok_iff .null rfl rfl null_undone e
  | .boolean b, e => scalar_ok_iff (.boolean b) rfl rfl (boolean_undone b) e
  | .int n, e => scalar_ok_iff (.int n) rfl rfl (int_undone n) e
  | .long n, e => scalar_ok_iff (.long n) rfl rfl (long_undone n) e
  | .double d, e => scalar_ok_iff (.double d) rfl rfl (double_undone d) e
  | .binary bytes, e => scalar_ok_iff (.binary bytes) rfl rfl (binary_undone bytes) e
  | .date millis, e => scalar_ok_iff (.date millis) rfl rfl (date_undone millis) e
  | .string s, e => scalar_ok_iff (.string s) rfl rfl (string_undone s) e
  | .ref index, e => by
    refine (ref_ok_iff index e).trans ⟨fun h => ⟨⟨trivial, trivial, trivial⟩, Nat.zero_le _, h⟩, ?_⟩
    rintro ⟨-, -, h⟩
    exact h
  | .list type items, e => by
    unfold value
    split
    · next ht => exact iff_of_false (fun ⟨_, h⟩ => nomatch h) fun h => h.1.1.1 ht
    · next ht =>
      by_cases hl : items.length < 2 ^ 31
      · refine (container_ok_iff (G := fun n => Value.GroundedItems n items)
          (@always_listBegin 0 _ _ hl) (regular_listBegin _ _) (values_ok_iff items) e).trans ?_
        exact and_congr_left' ⟨fun h => ⟨⟨ht, trivial, hl⟩, h⟩, fun h => h.2⟩
      · refine iff_of_false (fun ⟨e', h⟩ => ?_) fun h => hl h.1.1.2.2
        obtain ⟨⟨⟩, u, hu, -⟩ := ok_of_bind h
        exact hl (length_lt_of_listBegin hu)
  | .map type entries, e => by
    unfold value
    split
    · next ht => exact iff_of_false (fun ⟨_, h⟩ => nomatch h) fun h => h.1.1.1 ht
    · next ht =>
      have hcontainer := container_ok_iff (G := fun n => Value.GroundedEntries n entries)
        (@always_mapBegin 0 _) (regular_mapBegin (type.getD "")) (pairs_ok_iff entries) e
      have hterminator := @exists_ok_andThen 0 0 0 0 (mapBegin (type.getD "") >>= fun _ =>
        nested (pairs entries)) terminator (always_form _ _) e
      rw [bind_assoc] at hterminator
      refine (hterminator.trans hcontainer).trans ?_
      exact and_congr_left' ⟨fun h => ⟨⟨ht, trivial, trivial⟩, h⟩, fun h => h.2⟩
  | .object c fields, e => by
    unfold value
    split
    · next hl =>
      refine (container_ok_iff (G := fun n => Value.GroundedItems n fields)
        (@always_objectBegin (c.fieldNames.length + 1) _ (Nat.lt_succ_self _))
        (regular_objectBegin c) (values_ok_iff fields) e).trans ?_
      exact and_congr_left' ⟨fun h => ⟨⟨trivial, hl, trivial⟩, h⟩, fun h => h.2⟩
    · next hl => exact iff_of_false (fun ⟨_, h⟩ => nomatch h) fun h => hl h.1.1.2.1

theorem values_ok_iff : (vs : List Value) → (e : Encoder) → ((∃ e', values vs e = .ok () e') ↔
    Value.EverywhereItems Value.Writable vs ∧ Value.heightOfItems vs ≤ e.maxDepth - e.depth ∧
      Value.GroundedItems e.containers vs)
  | [], e => iff_of_true ⟨e, rfl⟩ ⟨trivial, Nat.zero_le _, trivial⟩
  | v :: vs, e =>
    sequence_ok_iff (H := fun n => Value.GroundedItems n vs) (regular_value v) (value_ok_iff v e)
      (fun u hu => (grown_value v e u hu (Nat.le_refl _)).containers) (values_ok_iff vs)

theorem pairs_ok_iff : (pairs : Entries) → (e : Encoder) →
    ((∃ e', Encode.pairs pairs e = .ok () e') ↔ Value.EverywhereEntries Value.Writable pairs ∧
      Value.heightOfEntries pairs ≤ e.maxDepth - e.depth ∧ Value.GroundedEntries e.containers pairs)
  | [], e => iff_of_true ⟨e, rfl⟩ ⟨trivial, Nat.zero_le _, trivial⟩
  | (key, v) :: rest, e =>
    sequence_ok_iff (H := fun n => v.Grounded n ∧
        Value.GroundedEntries (n + v.containers.length) rest)
      (regular_value key) (value_ok_iff key e)
      (fun u hu => (grown_value key e u hu (Nat.le_refl _)).containers) fun u =>
        sequence_ok_iff (H := fun n => Value.GroundedEntries n rest) (regular_value v)
          (value_ok_iff v u) (fun w hw => (grown_value v u w hw (Nat.le_refl _)).containers)
          (pairs_ok_iff rest)

end

end Encode

end Hessian
