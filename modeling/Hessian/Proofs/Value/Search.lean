import Hessian.Value.Access

/-!
# Looking for a container by its number

`Value.resolve?` takes the containers of a value as one list and picks the one at the place of the
number.  `Value.search` is a walk that makes no such list: it counts the containers as it passes
them, in a word of 32 bits, and stops at the one that it looks for.

The two find the same (`Value.resolve?_eq_search`), whatever the size of the value: before the count
could wrap around it has come to the number, which is itself a word.
-/

namespace Hessian.Value

mutual

/-- Looks for the container of a number where `passed` others have been passed.  Either it is found,
or it is the number of those that have been passed by then. -/
def search (index passed : UInt32) : Value → Value ⊕ UInt32
  | .list type items =>
    if passed = index then .inl (.list type items) else searchItems index (passed + 1) items
  | .map type entries =>
    if passed = index then .inl (.map type entries) else searchEntries index (passed + 1) entries
  | .object c fields =>
    if passed = index then .inl (.object c fields) else searchItems index (passed + 1) fields
  | _ => .inr passed

/-- Looks into items one after another. -/
def searchItems (index passed : UInt32) : List Value → Value ⊕ UInt32
  | [] => .inr passed
  | v :: vs => (search index passed v).elim .inl fun passed => searchItems index passed vs

/-- Looks into entries one after another, into each key before its value. -/
def searchEntries (index passed : UInt32) : Entries → Value ⊕ UInt32
  | [] => .inr passed
  | (key, v) :: rest =>
    (search index passed key).elim .inl fun passed =>
      (search index passed v).elim .inl fun passed => searchEntries index passed rest

end

/-- What comes of a search among containers, where some have been passed before. -/
def Searched (index passed : UInt32) (cs : List Value) : Value ⊕ UInt32 → Prop
  | .inl found => cs[index.toNat - passed.toNat]? = some found
  | .inr passed' => passed'.toNat = passed.toNat + cs.length ∧ passed'.toNat ≤ index.toNat

section Searched

variable {index passed : UInt32} {cs ds : List Value}

/-- Among no containers nothing is found. -/
theorem searched_nil (h : passed.toNat ≤ index.toNat) : Searched index passed [] (.inr passed) :=
  ⟨rfl, h⟩

/-- The first container is the one, or else it is passed. -/
theorem searched_cons {c : Value} {next : Value ⊕ UInt32} (h : passed.toNat ≤ index.toNat)
    (hnext : (passed + 1).toNat ≤ index.toNat → Searched index (passed + 1) cs next) :
    Searched index passed (c :: cs) (if passed = index then .inl c else next) := by
  split
  · next he =>
    subst he
    rw [Searched, Nat.sub_self]
    rfl
  · next hne =>
    have hlt : passed.toNat < index.toNat :=
      Nat.lt_of_le_of_ne h fun he => hne (UInt32.toNat_inj.mp he)
    -- the count is below a word, so that one more still is one
    have hadd : (passed + 1).toNat = passed.toNat + 1 := by
      have hword := index.toNat_lt
      rw [UInt32.toNat_add, UInt32.toNat_one, Nat.mod_eq_of_lt (by omega)]
    have hs := hnext (by omega)
    cases next with
    | inl found =>
      have hsucc : index.toNat - passed.toNat = index.toNat - (passed.toNat + 1) + 1 := by omega
      rw [Searched, hadd] at hs
      rwa [Searched, hsucc]
    | inr passed' =>
      obtain ⟨hcount, hle⟩ := hs
      refine ⟨?_, hle⟩
      rw [hcount, hadd, List.length_cons]
      omega

/-- What is not found among the first containers is looked for among the others. -/
theorem Searched.append {first : Value ⊕ UInt32} {next : UInt32 → Value ⊕ UInt32}
    (h : passed.toNat ≤ index.toNat) (hfirst : Searched index passed cs first)
    (hnext : ∀ passed' : UInt32, passed'.toNat ≤ index.toNat →
      Searched index passed' ds (next passed')) :
    Searched index passed (cs ++ ds) (first.elim .inl next) := by
  cases first with
  | inl found =>
    obtain ⟨hlt, -⟩ := List.getElem?_eq_some_iff.mp hfirst
    change (cs ++ ds)[_]? = _
    rwa [List.getElem?_append_left hlt]
  | inr passed' =>
    obtain ⟨hcount, hle⟩ := hfirst
    have hs := hnext passed' hle
    change Searched index passed (cs ++ ds) (next passed')
    cases hn : next passed' with
    | inl found =>
      rw [hn, Searched] at hs
      rw [Searched, List.getElem?_append_right (by omega), Nat.sub_sub, ← hcount]
      exact hs
    | inr passed'' =>
      rw [hn] at hs
      obtain ⟨hcount', hle'⟩ := hs
      refine ⟨?_, hle'⟩
      rw [hcount', hcount, List.length_append, Nat.add_assoc]

end Searched

mutual

/-- A value is searched as its containers are. -/
theorem searched_search (index : UInt32) : (v : Value) → (passed : UInt32) →
    passed.toNat ≤ index.toNat → Searched index passed v.containers (search index passed v)
  | .list _ items, _, h => searched_cons h (searched_searchItems index items _)
  | .map _ entries, _, h => searched_cons h (searched_searchEntries index entries _)
  | .object _ fields, _, h => searched_cons h (searched_searchItems index fields _)
  | .null, _, h => searched_nil h
  | .boolean _, _, h => searched_nil h
  | .int _, _, h => searched_nil h
  | .long _, _, h => searched_nil h
  | .double _, _, h => searched_nil h
  | .binary _, _, h => searched_nil h
  | .date _, _, h => searched_nil h
  | .string _, _, h => searched_nil h
  | .ref _, _, h => searched_nil h

theorem searched_searchItems (index : UInt32) : (vs : List Value) → (passed : UInt32) →
    passed.toNat ≤ index.toNat →
    Searched index passed (containersOfItems vs) (searchItems index passed vs)
  | [], _, h => searched_nil h
  | v :: vs, passed, h => by
    rw [containersOfItems, searchItems]
    exact (searched_search index v passed h).append h (searched_searchItems index vs)

theorem searched_searchEntries (index : UInt32) : (entries : Entries) → (passed : UInt32) →
    passed.toNat ≤ index.toNat →
    Searched index passed (containersOfEntries entries) (searchEntries index passed entries)
  | [], _, h => searched_nil h
  | (key, v) :: rest, passed, h => by
    rw [containersOfEntries, List.append_assoc, searchEntries]
    exact (searched_search index key passed h).append h fun passed' h' =>
      (searched_search index v passed' h').append h' (searched_searchEntries index rest)

end

/-- The search from the start finds what a reference resolves to, and nothing if it resolves to
nothing. -/
theorem resolve?_eq_search (root : Value) (index : UInt32) :
    root.resolve? index = (root.search index 0).getLeft? := by
  have hs := searched_search index root 0 (Nat.zero_le _)
  rw [resolve?]
  cases hr : root.search index 0 with
  | inl found =>
    rw [hr] at hs
    exact hs
  | inr passed =>
    rw [hr] at hs
    obtain ⟨hcount, hle⟩ := hs
    rw [UInt32.toNat_zero, Nat.zero_add] at hcount
    exact List.getElem?_eq_none (hcount ▸ hle)

end Hessian.Value
