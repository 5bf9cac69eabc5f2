import Hessian.Proofs.Json.Basic
import Hessian.Proofs.Pairs
import Hessian.Value.Access
import Mathlib

/-!
# What maps and class instances become in JSON

A map and a class instance become objects.  Their values are put in one after another, each under a
name: the text of its key, or the name of its field (`Value.named`).  Of the values under one name
the last one is found in the end (`Members.lookup_ofPairs`), so there are as many members as there
were values exactly where no name was given twice (`Members.length_ofPairs_eq_iff`).

The text of a key does not tell its kind.  Two keys of one kind have different texts
(`Value.eq_of_jsonKey`), but the int 1, the long 1 and the string "1" have the same one.  That an
integer can be told from its text is known to the library as a whole and to no part of it that could
be imported alone.
-/

namespace Hessian

namespace Members

variable {pairs : List (String × Json)} {name : String}

/-- What is found is the first pair of the name. -/
theorem lookup_cons (pair : String × Json) (members : Members) (name : String) :
    List.lookup name (pair :: members) =
      if name = pair.1 then some pair.2 else members.lookup name := by
  rw [List.lookup_cons]
  split
  · next h => rw [if_pos (eq_of_beq h)]
  · next h => rw [if_neg (ne_of_beq_false h)]

/-- An insertion changes what is found under its key and nothing else. -/
theorem lookup_insert (key : String) (j : Json) (members : Members) (name : String) :
    (insert key j members).lookup name = if name = key then some j else members.lookup name := by
  induction members with
  | nil => rw [insert, lookup_cons]
  | cons first members ih =>
    obtain ⟨k, x⟩ := first
    rw [insert]
    split
    · rw [lookup_cons]
    split
    · next heq =>
      subst heq
      simp only [lookup_cons]
      split <;> rfl
    · next hne =>
      simp only [lookup_cons, ih]
      -- the names `key` and `k` are different, so it does not matter which one is looked at first
      split
      · next hk => rw [if_neg (hk ▸ Ne.symm hne)]
      · rfl

/-- The last pair is put in last. -/
theorem ofPairs_concat (pairs : List (String × Json)) (pair : String × Json) :
    ofPairs (pairs ++ [pair]) = insert pair.1 pair.2 (ofPairs pairs) :=
  List.foldl_concat _ _ _ _

theorem sorted_ofPairs (pairs : List (String × Json)) : (ofPairs pairs).Sorted := by
  induction pairs using List.reverseRecOn with
  | nil => exact .nil
  | append_singleton pairs pair ih =>
    rw [ofPairs_concat]
    exact ih.insert pair.1 pair.2

/-- Of the pairs with one name the last one is found. -/
theorem lookup_ofPairs (pairs : List (String × Json)) (name : String) :
    (ofPairs pairs).lookup name = pairs.reverse.lookup name := by
  induction pairs using List.reverseRecOn with
  | nil => rfl
  | append_singleton pairs pair ih =>
    rw [ofPairs_concat, lookup_insert, ih, List.reverse_concat, lookup_cons]

/-- The names of the members are those of the pairs. -/
theorem mem_names_ofPairs : name ∈ (ofPairs pairs).map Prod.fst ↔ name ∈ pairs.map Prod.fst := by
  have h : ((ofPairs pairs).lookup name).isSome ↔ (pairs.reverse.lookup name).isSome := by
    rw [lookup_ofPairs]
  simpa only [List.lookup_isSome_iff, beq_iff_eq, List.mem_reverse, List.mem_map,
    eq_comm (a := name)] using h

/-- The members are as many as there are different names. -/
theorem length_ofPairs (pairs : List (String × Json)) :
    (ofPairs pairs).length = (pairs.map Prod.fst).dedup.length := by
  have hnodup : ((ofPairs pairs).map Prod.fst).Nodup :=
    (sorted_iff.mp (sorted_ofPairs pairs)).imp ne_of_lt
  have hperm : ((ofPairs pairs).map Prod.fst).Perm (pairs.map Prod.fst).dedup := by
    refine (List.perm_ext_iff_of_nodup hnodup (List.nodup_dedup _)).mpr fun name => ?_
    rw [mem_names_ofPairs, List.mem_dedup]
  rw [← List.length_map Prod.fst, hperm.length_eq]

/-- No pair is lost exactly where no name stands twice. -/
theorem length_ofPairs_eq_iff :
    (ofPairs pairs).length = pairs.length ↔ (pairs.map Prod.fst).Nodup := by
  have hlength : pairs.length = (pairs.map Prod.fst).length := (List.length_map Prod.fst).symm
  rw [length_ofPairs, hlength, ← List.dedup_eq_self]
  constructor
  · exact (List.dedup_sublist _).eq_of_length
  · exact congrArg List.length

end Members

namespace Value

/-! ## Keys -/

/-- What has a text is a string, an integer or a boolean. -/
theorem jsonKey_cases {k : Value} {name : String} (h : k.jsonKey = .ok name) :
    k = .string name ∨ (∃ n, k = .int n ∧ n.toInt.repr = name) ∨
      (∃ n, k = .long n ∧ n.toInt.repr = name) ∨ ∃ b, k = .boolean b ∧ toString b = name := by
  cases k with
  | string s =>
    cases h
    exact .inl rfl
  | int n => exact .inr (.inl ⟨n, rfl, Except.ok.inj h⟩)
  | long n => exact .inr (.inr (.inl ⟨n, rfl, Except.ok.inj h⟩))
  | boolean b => exact .inr (.inr (.inr ⟨b, rfl, Except.ok.inj h⟩))
  | null | double | binary | date | ref | list | map | object => cases h

/-- What has a text is no container. -/
theorem containers_of_jsonKey {k : Value} {name : String} (h : k.jsonKey = .ok name) :
    k.containers = [] := by
  rcases jsonKey_cases h with rfl | ⟨_, rfl, _⟩ | ⟨_, rfl, _⟩ | ⟨_, rfl, _⟩ <;> rfl

/-- Two keys of one kind that have the same text are the same. -/
theorem eq_of_jsonKey {k k' : Value} {name : String} (hkind : k.kind = k'.kind)
    (h : k.jsonKey = .ok name) (h' : k'.jsonKey = .ok name) : k = k' := by
  rcases jsonKey_cases h with rfl | ⟨n, rfl, hn⟩ | ⟨n, rfl, hn⟩ | ⟨b, rfl, hb⟩ <;>
    rcases jsonKey_cases h' with rfl | ⟨n', rfl, hn'⟩ | ⟨n', rfl, hn'⟩ | ⟨b', rfl, hb'⟩ <;>
    try cases hkind
  · rfl
  · rw [Int32.toInt.inj (Int.repr_injective (hn.trans hn'.symm))]
  · rw [Int64.toInt.inj (Int.repr_injective (hn.trans hn'.symm))]
  · have htext : toString b = toString b' := hb.trans hb'.symm
    cases b <;> cases b' <;> first | rfl | exact absurd htext (by decide)

/-! ## Values under names -/

/-- The values of a map or of a class instance, each under the name that it gets in JSON. -/
def named : Value → List (String × Value)
  | .map _ entries => entries.filterMap fun entry =>
      entry.1.jsonKey.toOption.map fun name => (name, entry.2)
  | .object c fields => c.fieldNames.zip fields
  | _ => []

/-- The values become JSON values under the same names. -/
def Becomes (named : List (String × Value)) (pairs : List (String × Json)) : Prop :=
  List.Forall₂ (fun before after => before.1 = after.1 ∧ before.2.toJson = .ok after.2) named pairs

section Becomes

variable {values : List (String × Value)} {pairs : List (String × Json)}

/-- The names are the same. -/
theorem Becomes.names (h : Becomes values pairs) : values.map Prod.fst = pairs.map Prod.fst := by
  induction h with
  | nil => rfl
  | cons hpair hrest ih => rw [List.map_cons, List.map_cons, hpair.1, ih]

/-- What is found under a name is the JSON form of what was there. -/
theorem Becomes.lookup (h : Becomes values pairs) {name : String} {v : Value}
    (hv : values.lookup name = some v) : ∃ j, pairs.lookup name = some j ∧ v.toJson = .ok j := by
  induction h with
  | nil => cases hv
  | @cons before after values pairs hpair hrest ih =>
    rw [List.lookup_cons, hpair.1] at hv
    rw [List.lookup_cons]
    split at hv
    · exact ⟨after.2, rfl, Option.some.inj hv ▸ hpair.2⟩
    · exact ih hv

theorem Becomes.reverse (h : Becomes values pairs) : Becomes values.reverse pairs.reverse :=
  List.forall₂_reverse_iff.mpr h

end Becomes

/-- Entries become members one after another, and each of their keys has a text. -/
theorem becomes_of_toMembers (type : Option String) {entries : Entries} {found members : Members}
    (h : toMembers found entries = .ok members) :
    ∃ pairs, Becomes (map type entries).named pairs ∧
      members = pairs.foldl (fun members pair => members.insert pair.1 pair.2) found ∧
      entries.map (fun entry => entry.1.jsonKey) = pairs.map fun pair => .ok pair.1 := by
  induction entries generalizing found with
  | nil =>
    cases h
    exact ⟨[], .nil, rfl, rfl⟩
  | cons entry entries ih =>
    obtain ⟨key, v⟩ := entry
    obtain ⟨name, hname, h⟩ := ok_of_bind h
    obtain ⟨j, hj, h⟩ := ok_of_bind h
    obtain ⟨pairs, hpairs, hmembers, hnames⟩ := ih h
    refine ⟨(name, j) :: pairs, ?_, hmembers, by rw [List.map_cons, hname, hnames]; rfl⟩
    rw [named, List.filterMap_cons_some (b := (name, v)) (by rw [hname]; rfl)]
    exact .cons ⟨rfl, hj⟩ hpairs

/-- Fields become members one after another, as far as there are names and values. -/
theorem becomes_of_fieldsToMembers {names : List String} {fields : List Value}
    {found members : Members} (h : fieldsToMembers found names fields = .ok members) :
    ∃ pairs, Becomes (names.zip fields) pairs ∧
      members = pairs.foldl (fun members pair => members.insert pair.1 pair.2) found := by
  induction names generalizing found fields with
  | nil =>
    cases fields <;> cases h <;> exact ⟨[], .nil, rfl⟩
  | cons name names ih =>
    cases fields with
    | nil =>
      cases h
      exact ⟨[], .nil, rfl⟩
    | cons v fields =>
      obtain ⟨j, hj, h⟩ := ok_of_bind h
      obtain ⟨pairs, hpairs, hmembers⟩ := ih h
      exact ⟨(name, j) :: pairs, .cons ⟨rfl, hj⟩ hpairs, hmembers⟩

/-- What a map becomes. -/
theorem becomes_of_map {type : Option String} {entries : Entries} {j : Json}
    (h : (map type entries).toJson = .ok j) :
    ∃ pairs, Becomes (map type entries).named pairs ∧ j = .object (Members.ofPairs pairs) ∧
      entries.map (fun entry => entry.1.jsonKey) = pairs.map fun pair => .ok pair.1 := by
  obtain ⟨members, hmembers, h⟩ := ok_of_bind h
  obtain ⟨pairs, hpairs, rfl, hnames⟩ := becomes_of_toMembers type hmembers
  cases h
  exact ⟨pairs, hpairs, rfl, hnames⟩

/-- The keys of a map that has a JSON form have texts. -/
theorem exists_text {type : Option String} {entries : Entries} {j : Json}
    (h : (map type entries).toJson = .ok j) {entry : Value × Value} (hm : entry ∈ entries) :
    ∃ name, entry.1.jsonKey = .ok name := by
  obtain ⟨pairs, -, -, hnames⟩ := becomes_of_map h
  have hkey : entry.1.jsonKey ∈ entries.map fun entry => entry.1.jsonKey :=
    List.mem_map_of_mem hm
  rw [hnames] at hkey
  obtain ⟨pair, -, hpair⟩ := List.mem_map.mp hkey
  exact ⟨pair.1, hpair.symm⟩

/-- The value of an entry stands under the text of its key. -/
theorem mem_named_map (type : Option String) {entries : Entries} {entry : Value × Value}
    (hm : entry ∈ entries) {name : String} (hname : entry.1.jsonKey = .ok name) :
    (name, entry.2) ∈ (map type entries).named :=
  List.mem_filterMap.mpr ⟨entry, hm, by rw [hname]; rfl⟩

/-- What a class instance becomes. -/
theorem becomes_of_object {c : Definition} {fields : List Value} {j : Json}
    (h : (object c fields).toJson = .ok j) :
    ∃ pairs, Becomes (object c fields).named pairs ∧ j = .object (Members.ofPairs pairs) := by
  obtain ⟨members, hmembers, h⟩ := ok_of_bind h
  obtain ⟨pairs, hpairs, rfl⟩ := becomes_of_fieldsToMembers hmembers
  cases h
  exact ⟨pairs, hpairs, rfl⟩

end Value

end Hessian
