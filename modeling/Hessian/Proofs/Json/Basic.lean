import Hessian.Json.Conversion
import Hessian.Proofs.Double.Nearest
import Hessian.Proofs.Value.Norm
import Mathlib.Data.String.Basic

/-!
# JSON values as values

A JSON value that has become a value can become a JSON value again, and it is the same one but for
two kinds of numbers: an integer above the longs has become a double, and a negative zero a positive
one (`Json.norm`).  Integers and doubles do not become each other otherwise.

This is about the JSON values that there are, `Json.Canonical`: those whose numbers are of their
kinds and whose members stand in the order of their keys.  Whatever becomes a JSON value is one of
them (`Value.canonical_toJson`).

## Main statements

* `Json.proper_toValue` : no key stands twice in the maps of the value of a JSON value.
* `Json.toJson_toValue` : what comes back of the value of a JSON value is a JSON value.
-/

namespace Hessian

namespace Members

/-- The members stand in the order of their keys, each key once. -/
def Sorted (members : Members) : Prop := members.Pairwise fun earlier later => earlier.1 < later.1

instance (members : Members) : Decidable members.Sorted :=
  inferInstanceAs (Decidable (List.Pairwise _ members))

/-- The order is one of the keys alone. -/
theorem sorted_iff {members : Members} :
    members.Sorted ↔ (members.map Prod.fst).Pairwise (· < ·) := List.pairwise_map.symm

/-- A key behind all others goes to the end. -/
theorem insert_last {members : Members} {key : String}
    (h : ∀ member ∈ members, member.1 < key) (j : Json) :
    insert key j members = members ++ [(key, j)] := by
  induction members with
  | nil => rfl
  | cons member members ih =>
    have hlt : member.1 < key := h member List.mem_cons_self
    rw [insert, if_neg (lt_asymm hlt), if_neg (ne_of_gt hlt),
      ih fun later hm => h later (List.mem_cons_of_mem _ hm)]
    rfl

/-- What is in the members after an insertion has been there before or is new. -/
theorem mem_insert {members : Members} {key : String} {j : Json} {member : String × Json}
    (h : member ∈ insert key j members) : member = (key, j) ∨ member ∈ members := by
  induction members with
  | nil => exact .inl (List.mem_singleton.mp h)
  | cons first members ih =>
    rw [insert] at h
    split at h
    · exact List.mem_cons.mp h
    split at h
    · exact (List.mem_cons.mp h).imp_right (List.mem_cons_of_mem _)
    · rcases List.mem_cons.mp h with rfl | h
      · exact .inr List.mem_cons_self
      · exact (ih h).imp_right (List.mem_cons_of_mem _)

/-- An insertion keeps the order. -/
theorem Sorted.insert {members : Members} (h : members.Sorted) (key : String) (j : Json) :
    (Members.insert key j members).Sorted := by
  induction members with
  | nil => exact List.pairwise_singleton _ _
  | cons first members ih =>
    obtain ⟨hfirst, hrest⟩ := List.pairwise_cons.mp h
    rw [Members.insert]
    split
    · next hlt =>
      refine List.pairwise_cons.mpr ⟨?_, h⟩
      intro member hm
      rcases List.mem_cons.mp hm with rfl | hm
      · exact hlt
      · exact lt_trans hlt (hfirst member hm)
    split
    · next heq => exact List.pairwise_cons.mpr ⟨heq ▸ hfirst, hrest⟩
    · next hlt hne =>
      refine List.pairwise_cons.mpr ⟨?_, ih hrest⟩
      intro member hm
      rcases mem_insert hm with rfl | hm
      · exact lt_of_le_of_ne (not_lt.mp hlt) (Ne.symm hne)
      · exact hfirst member hm

end Members

namespace Json

mutual

/-- Integers without sign are above the longs, floats are finite, and members are in order. -/
def Canonical : Json → Prop
  | .natural n => 2 ^ 63 ≤ n.toNat
  | .float d => d.isFinite = true
  | .array items => CanonicalItems items
  | .object members => Members.Sorted members ∧ CanonicalMembers members
  | .null => True
  | .boolean _ => True
  | .integer _ => True
  | .string _ => True

/-- All items are canonical. -/
def CanonicalItems : List Json → Prop
  | [] => True
  | j :: rest => Canonical j ∧ CanonicalItems rest

/-- The values of all members are canonical. -/
def CanonicalMembers : Members → Prop
  | [] => True
  | (_, j) :: rest => Canonical j ∧ CanonicalMembers rest

end

mutual

/-- The JSON value that comes back. -/
def norm : Json → Json
  | .natural n => .float (naturalDouble n)
  | .float d => .float d.norm
  | .array items => .array (normItems items)
  | .object members => .object (normMembers members)
  | .null => .null
  | .boolean b => .boolean b
  | .integer n => .integer n
  | .string s => .string s

/-- The items that come back. -/
def normItems : List Json → List Json
  | [] => []
  | j :: rest => norm j :: normItems rest

/-- The members that come back, with their keys. -/
def normMembers : Members → Members
  | [] => []
  | (key, j) :: rest => (key, norm j) :: normMembers rest

end

/-! ## Numbers -/

/-- An integer above the longs has all of its bits. -/
theorem log2_natural {n : UInt64} (h : 2 ^ 63 ≤ n.toNat) : n.toNat.log2 = 63 :=
  (Nat.log2_eq_iff (by omega)).mpr ⟨h, n.toNat_lt⟩

/-- An integer above the longs becomes the double nearest to it. -/
theorem isNearest_naturalDouble {n : UInt64} (h : 2 ^ 63 ≤ n.toNat) :
    (naturalDouble n).IsNearest n.toNat :=
  Double.isNearest_ofInt (by rw [log2_natural h]; decide) (by rw [log2_natural h]; decide)

theorem norm_naturalDouble {n : UInt64} (h : 2 ^ 63 ≤ n.toNat) :
    (naturalDouble n).norm = naturalDouble n :=
  Double.norm_ofInt (by rw [log2_natural h]; decide) (by rw [log2_natural h]; decide)

/-- A double that is finite stays so when it is a negative zero. -/
theorem isFinite_norm {d : Double} (h : d.isFinite = true) : d.norm.isFinite = true := by
  unfold Double.norm
  split
  · rfl
  · exact h

/-- An integer that has become an int is the same as a long. -/
theorem toJson_integerValue (n : Int64) : (integerValue n).norm.toJson = .ok (.integer n) := by
  unfold integerValue
  split
  · next h =>
    have hback : n.toInt32.toInt64 = n := by
      rw [← Int64.toInt_inj, Int32.toInt_toInt64, Int64.toInt_toInt32]
      exact Int.bmod_eq_of_le h.1 h.2
    rw [Value.norm, Value.toJson, hback]
  · rfl

/-! ## Keys -/

theorem toEntries_eq_map (members : Members) :
    toEntries members = members.map fun member => (.string member.1, member.2.toValue) := by
  induction members with
  | nil => rfl
  | cons member members ih => rw [toEntries, ih, List.map_cons]

theorem normEntries_toEntries (members : Members) :
    Value.normEntries (toEntries members) =
      members.map fun member => (.string member.1, member.2.toValue.norm) := by
  induction members with
  | nil => rfl
  | cons member members ih => rw [toEntries, Value.normEntries, ih, List.map_cons, Value.norm]

/-- The entries for members that are in order have distinct keys. -/
theorem distinct_of_sorted {members : Members} (h : members.Sorted) (f : Json → Value) :
    Entries.Distinct (members.map fun member => (.string member.1, f member.2)) := by
  refine List.pairwise_map.mpr (h.imp fun {earlier later} hlt => ?_)
  change (later.1 == earlier.1) = false
  exact beq_false_of_ne (ne_of_gt hlt)

mutual

/-- The value of a JSON value is a proper one: its maps are the same if their entries are put in one
after another, as no key stands twice. -/
theorem proper_toValue : (j : Json) → j.Canonical → j.toValue.Proper
  | .array items, h => ⟨trivial, proper_toValues items h⟩
  | .object members, h => 
    ⟨toEntries_eq_map members ▸ distinct_of_sorted h.1 toValue, proper_toEntries members h.2⟩
  | .integer n, _ => by
    unfold toValue integerValue
    split <;> trivial
  | .null, _ => trivial
  | .boolean _, _ => trivial
  | .natural _, _ => trivial
  | .float _, _ => trivial
  | .string _, _ => trivial

theorem proper_toValues : (items : List Json) → CanonicalItems items →
    Value.EverywhereItems Value.DistinctKeys (toValues items)
  | [], _ => trivial
  | j :: rest, h => ⟨proper_toValue j h.1, proper_toValues rest h.2⟩

theorem proper_toEntries : (members : Members) → CanonicalMembers members →
    Value.EverywhereEntries Value.DistinctKeys (toEntries members)
  | [], _ => trivial
  | (_, j) :: rest, h => ⟨trivial, proper_toValue j h.1, proper_toEntries rest h.2⟩

end

/-! ## Back and forth -/

mutual

/-- What comes back of the value of a JSON value becomes what comes back of that. -/
theorem toJson_toValue : (j : Json) → j.Canonical → j.toValue.norm.toJson = .ok j.norm
  | .null, _ => rfl
  | .boolean _, _ => rfl
  | .string _, _ => rfl
  | .integer n, _ => toJson_integerValue n
  | .natural n, h => by
    rw [toValue, Value.norm, Value.toJson, norm_naturalDouble h,
      if_pos (isNearest_naturalDouble h).isFinite, norm]
  | .float d, h => by
    rw [toValue, Value.norm, Value.toJson, if_pos (isFinite_norm h), norm]
  | .array items, h => by
    rw [toValue, Value.norm, Value.toJson, toJson_toValues items h, norm]
    rfl
  | .object members, h => by
    have hmembers := toJson_toEntries [] members h.1 h.2
    have hdistinct := normEntries_toEntries members ▸ distinct_of_sorted h.1 fun j => j.toValue.norm
    rw [toValue, Value.norm, Value.toJson, Entries.ofPairs, Pairs.collect_of_distinct hdistinct,
      hmembers, norm]
    rfl

theorem toJson_toValues : (items : List Json) → CanonicalItems items →
    Value.toJsonItems (Value.normItems (toValues items)) = .ok (normItems items)
  | [], _ => rfl
  | j :: rest, h => by
    rw [toValues, Value.normItems, Value.toJsonItems, toJson_toValue j h.1,
      toJson_toValues rest h.2, normItems]
    rfl

/-- Members in order are put behind those that have been found. -/
theorem toJson_toEntries (found : Members) : (members : Members) →
    Members.Sorted (found ++ members) → CanonicalMembers members →
    Value.toMembers found (Value.normEntries (toEntries members)) =
      .ok (found ++ normMembers members)
  | [], _, _ => by rw [normMembers, List.append_nil]; rfl
  | (key, j) :: rest, hs, h => by
    have hlast : ∀ member ∈ found, member.1 < key := fun member hm =>
      (List.pairwise_append.mp hs).2.2 member hm (key, j) List.mem_cons_self
    have hsorted : Members.Sorted (found ++ [(key, norm j)] ++ rest) := by
      rw [Members.sorted_iff, List.map_append, List.map_cons] at hs
      rwa [Members.sorted_iff, List.append_assoc, List.map_append, List.singleton_append,
        List.map_cons]
    have hrest := toJson_toEntries (found ++ [(key, norm j)]) rest hsorted h.2
    rw [toEntries, Value.normEntries, Value.toMembers, toJson_toValue j h.1]
    change Value.toMembers (Members.insert key j.norm found) _ = _
    rw [Members.insert_last hlast, hrest, normMembers, List.append_assoc, List.singleton_append]

end

/-! ## What becomes a JSON value -/

theorem canonicalMembers_iff {members : Members} :
    CanonicalMembers members ↔ ∀ member ∈ members, member.2.Canonical := by
  induction members with
  | nil => exact ⟨fun _ _ hm => absurd hm List.not_mem_nil, fun _ => trivial⟩
  | cons member members ih =>
    rw [List.forall_mem_cons, ← ih]
    rfl

/-- A canonical value may be inserted. -/
theorem CanonicalMembers.insert {members : Members} {j : Json} (h : CanonicalMembers members)
    (key : String) (hj : j.Canonical) : CanonicalMembers (members.insert key j) := by
  rw [canonicalMembers_iff] at h ⊢
  intro member hm
  rcases Members.mem_insert hm with rfl | hm
  · exact hj
  · exact h member hm

end Json

namespace Value

/-- If conversions succeed together, each of them does. -/
theorem ok_of_bind {ε α β : Type} {x : Except ε α} {f : α → Except ε β} {b : β}
    (h : (x >>= f) = .ok b) : ∃ a, x = .ok a ∧ f a = .ok b := by
  cases x with
  | ok a => exact ⟨a, rfl, h⟩
  | error err => cases h

mutual

/-- What a value becomes is a canonical JSON value. -/
theorem canonical_toJson : (v : Value) → (j : Json) → v.toJson = .ok j → j.Canonical
  | .null, _, h => by cases h; trivial
  | .boolean _, _, h => by cases h; trivial
  | .int _, _, h => by cases h; trivial
  | .long _, _, h => by cases h; trivial
  | .date _, _, h => by cases h; trivial
  | .string _, _, h => by cases h; trivial
  | .ref _, _, h => nomatch h
  | .double d, _, h => by
    rw [toJson] at h
    split at h
    · next hd =>
      cases h
      exact hd
    · cases h
  | .binary bytes, _, h => by
    cases h
    induction bytes with
    | nil => trivial
    | cons b bytes ih => exact ⟨trivial, ih⟩
  | .list _ items, _, h => by
    obtain ⟨js, hjs, h⟩ := ok_of_bind h
    cases h
    exact canonical_toJsonItems items js hjs
  | .map _ entries, _, h => by
    obtain ⟨members, hmembers, h⟩ := ok_of_bind h
    cases h
    exact canonical_toMembers [] entries members .nil trivial hmembers
  | .object c fields, _, h => by
    obtain ⟨members, hmembers, h⟩ := ok_of_bind h
    cases h
    exact canonical_fieldsToMembers [] c.fieldNames fields members .nil trivial hmembers

theorem canonical_toJsonItems : (vs : List Value) → (js : List Json) →
    toJsonItems vs = .ok js → Json.CanonicalItems js
  | [], _, h => by cases h; trivial
  | v :: rest, _, h => by
    obtain ⟨j, hj, h⟩ := ok_of_bind h
    obtain ⟨js, hjs, h⟩ := ok_of_bind h
    cases h
    exact ⟨canonical_toJson v j hj, canonical_toJsonItems rest js hjs⟩

/-- Entries are put into members that are canonical and in order. -/
theorem canonical_toMembers (found : Members) : (entries : Entries) → (members : Members) →
    found.Sorted → Json.CanonicalMembers found → toMembers found entries = .ok members →
    members.Sorted ∧ Json.CanonicalMembers members
  | [], _, hs, hf, h => by
    cases h
    exact ⟨hs, hf⟩
  | (key, v) :: rest, members, hs, hf, h => by
    obtain ⟨k, -, h⟩ := ok_of_bind h
    obtain ⟨j, hj, h⟩ := ok_of_bind h
    exact canonical_toMembers _ rest members (hs.insert k j)
      (hf.insert k (canonical_toJson v j hj)) h

/-- Fields are put into members that are canonical and in order. -/
theorem canonical_fieldsToMembers (found : Members) : (names : List String) →
    (fields : List Value) → (members : Members) → found.Sorted → Json.CanonicalMembers found →
    fieldsToMembers found names fields = .ok members →
    members.Sorted ∧ Json.CanonicalMembers members
  | name :: names, v :: rest, members, hs, hf, h => by
    obtain ⟨j, hj, h⟩ := ok_of_bind h
    exact canonical_fieldsToMembers _ names rest members (hs.insert name j)
      (hf.insert name (canonical_toJson v j hj)) h
  | [], [], _, hs, hf, h => by
    cases h
    exact ⟨hs, hf⟩
  | [], _ :: _, _, hs, hf, h => by
    cases h
    exact ⟨hs, hf⟩
  | _ :: _, [], _, hs, hf, h => by
    cases h
    exact ⟨hs, hf⟩

end

end Value

end Hessian
