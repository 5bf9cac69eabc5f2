import Hessian.Proofs.Value.Measure
import Hessian.Value.Hash
import Mathlib.Data.List.Perm.Basic

/-!
# Equality of values

Two maps are compared by looking the keys of one up in the other, which by itself is neither
symmetric nor transitive.  It is both where no key stands twice: then the entries of one map are
those of the other in another order (`Entries.found_iff_reordered`).  But this needs equality of
keys to be an equivalence already, and keys hold maps themselves.  So both are proved together along
the height of a value (`equivOn_height`), where one level is compared by `Alike`.

A hash is made of the kind of a value and of the sizes of its parts, which no two equal values
differ in.

## Main definitions

- `Entries.Reordered`: two maps have the same entries up to their order and equality.
- `Value.Alike`: two values are equal if their parts are.
- `EquivOn`: a relation is an equivalence on the elements with a property.

## Main statements

- `Value.equivOn_proper`: equality is an equivalence on the values with distinct keys.
- `Value.equality_equivalence`: so it is, and it keeps to the kind, to what is hashed and to the
  entries of a map.
-/

namespace Hessian

/-! ## Equivalences on some elements -/

section EquivOn

variable {α : Type} {K : α → Prop} {E : α → α → Prop}

/-- The relation is an equivalence on the elements with the property. -/
structure EquivOn (K : α → Prop) (E : α → α → Prop) : Prop where
  refl : ∀ {x}, K x → E x x
  symm : ∀ {x y}, K x → K y → E x y → E y x
  trans : ∀ {x y z}, K x → K y → K z → E x y → E y z → E x z

namespace EquivOn

/-- Lists are compared item by item. -/
theorem forall₂ (h : EquivOn K E) :
    EquivOn (fun xs : List α => ∀ x ∈ xs, K x) (List.Forall₂ E) where
  refl hx := List.forall₂_same.mpr fun x hm => h.refl (hx x hm)
  symm := by
    intro xs ys hx hy hE
    induction hE with
    | nil => exact .nil
    | cons hxy _ ih =>
      obtain ⟨hx, hxs⟩ := List.forall_mem_cons.mp hx
      obtain ⟨hy, hys⟩ := List.forall_mem_cons.mp hy
      exact .cons (h.symm hx hy hxy) (ih hxs hys)
  trans := by
    intro xs ys zs hx hy hz hE hE'
    induction hE generalizing zs with
    | nil => exact hE'
    | cons hxy _ ih =>
      cases hE' with
      | cons hyz hE' =>
        obtain ⟨hx, hxs⟩ := List.forall_mem_cons.mp hx
        obtain ⟨hy, hys⟩ := List.forall_mem_cons.mp hy
        obtain ⟨hz, hzs⟩ := List.forall_mem_cons.mp hz
        exact .cons (h.trans hx hy hz hxy hyz) (ih hxs hys hzs hE')

/-- Lists are compared without regard to order. -/
theorem reordered (h : EquivOn K E) :
    EquivOn (fun xs : List α => ∀ x ∈ xs, K x)
      (fun xs ys => ∃ zs, List.Forall₂ E xs zs ∧ zs.Perm ys) where
  refl hx := ⟨_, h.forall₂.refl hx, .refl _⟩
  symm := by
    rintro xs ys hx hy ⟨zs, hE, hp⟩
    have hz : ∀ z ∈ zs, K z := fun z hm => hy z (hp.subset hm)
    exact List.perm_comp_forall₂ hp.symm (h.forall₂.symm hx hz hE)
  trans := by
    rintro xs ys zs hx hy hz ⟨us, hxu, huy⟩ ⟨vs, hyv, hvz⟩
    -- the reordering of the middle list moves behind its comparison with the last one
    obtain ⟨ws, huw, hwv⟩ := List.perm_comp_forall₂ huy hyv
    have hu : ∀ u ∈ us, K u := fun u hm => hy u (huy.subset hm)
    have hw : ∀ w ∈ ws, K w := fun w hm => hz w (hvz.subset (hwv.subset hm))
    exact ⟨ws, h.forall₂.trans hx hu hw hxu huw, hwv.trans hvz⟩

/-- Pairs are compared in both components. -/
theorem prod (h : EquivOn K E) :
    EquivOn (fun p : α × α => K p.1 ∧ K p.2) (fun p q => E p.1 q.1 ∧ E p.2 q.2) where
  refl hp := ⟨h.refl hp.1, h.refl hp.2⟩
  symm hp hq hE := ⟨h.symm hp.1 hq.1 hE.1, h.symm hp.2 hq.2 hE.2⟩
  trans hp hq hr hE hE' := ⟨h.trans hp.1 hq.1 hr.1 hE.1 hE'.1, h.trans hp.2 hq.2 hr.2 hE.2 hE'.2⟩

/-- A relation that agrees with an equivalence on fewer elements is one there. -/
theorem of_iff {L : α → Prop} {F : α → α → Prop} (h : EquivOn K E) (hL : ∀ {x}, L x → K x)
    (hF : ∀ {x y}, L x → L y → (F x y ↔ E x y)) : EquivOn L F where
  refl hx := (hF hx hx).mpr (h.refl (hL hx))
  symm hx hy hE := (hF hy hx).mpr (h.symm (hL hx) (hL hy) ((hF hx hy).mp hE))
  trans hx hy hz hE hE' :=
    (hF hx hz).mpr (h.trans (hL hx) (hL hy) (hL hz) ((hF hx hy).mp hE) ((hF hy hz).mp hE'))

end EquivOn

/-- Each element of a list has a partner in a list it is compared with. -/
theorem exists_of_mem_of_forall₂ {β : Type} {R : α → β → Prop} {xs : List α} {ys : List β}
    (h : List.Forall₂ R xs ys) {x : α} (hm : x ∈ xs) : ∃ y ∈ ys, R x y := by
  induction h with
  | nil => cases hm
  | @cons x' y' xs ys hxy _ ih =>
    rcases List.mem_cons.mp hm with rfl | hm
    · exact ⟨y', List.mem_cons_self, hxy⟩
    · obtain ⟨y, hy, hE⟩ := ih hm
      exact ⟨y, List.mem_cons_of_mem _ hy, hE⟩

/-- If each element has a partner in a list of the same length, and no two have the same partner,
then the partners are the list in another order. -/
theorem exists_perm_forall₂ {xs ys : List α} (hl : xs.length = ys.length)
    (hp : ∀ x ∈ xs, ∃ y ∈ ys, E x y) (hd : xs.Pairwise fun x x' => ∀ y ∈ ys, E x y → ¬ E x' y) :
    ∃ zs, List.Forall₂ E xs zs ∧ zs.Perm ys := by
  induction xs generalizing ys with
  | nil =>
    obtain rfl : ys = [] := List.length_eq_zero_iff.mp hl.symm
    exact ⟨[], .nil, .refl _⟩
  | cons x xs ih =>
    obtain ⟨⟨y, hy, hxy⟩, hp⟩ := List.forall_mem_cons.mp hp
    obtain ⟨hx, hd⟩ := List.pairwise_cons.mp hd
    obtain ⟨before, later, rfl⟩ := List.append_of_mem hy
    have hrest : ∀ y' ∈ before ++ later, y' ∈ before ++ y :: later :=
      fun y' hm => List.perm_middle.symm.subset (List.mem_cons_of_mem _ hm)
    have hlength : xs.length = (before ++ later).length := by
      simpa [← Nat.add_assoc] using hl
    have hpartner : ∀ x' ∈ xs, ∃ y' ∈ before ++ later, E x' y' := by
      -- the partner of a later element is not `y`, which belongs to `x`
      intro x' hx'
      obtain ⟨y', hy', hxy'⟩ := hp x' hx'
      rcases List.mem_cons.mp (List.perm_middle.subset hy') with rfl | hy''
      · exact absurd hxy' (hx x' hx' _ hy' hxy)
      · exact ⟨y', hy'', hxy'⟩
    obtain ⟨zs, hE, hperm⟩ := ih hlength hpartner
      (hd.imp fun h y' hy' => h y' (hrest y' hy'))
    exact ⟨y :: zs, .cons hxy hE, (hperm.cons y).trans List.perm_middle.symm⟩

end EquivOn

namespace Entries

/-- Two maps have the same entries, up to their order and equality of keys and values. -/
def Reordered (xs ys : Entries) : Prop :=
  ∃ zs, List.Forall₂ (fun p q : Value × Value => (p.1 == q.1) = true ∧ (p.2 == q.2) = true) xs zs ∧
    zs.Perm ys

/-- As many entries as there are others, each of which has its key with an equal value among the
others. -/
def Found (xs ys : Entries) : Prop :=
  xs.length = ys.length ∧
    ∀ x ∈ xs, ∃ y, ys.find? (fun other : Value × Value => x.1 == other.1) = some y ∧
      (x.2 == y.2) = true

/-- Where no key stands twice, the first entry found for a key is the one that has it. -/
theorem find?_of_distinct {entries : Entries} (hd : entries.Distinct) {key : Value}
    {entry : Value × Value} (hm : entry ∈ entries) (hk : (key == entry.1) = true)
    (h : ∀ other ∈ entries, (key == other.1) = true → (entry.1 == other.1) = true) :
    entries.find? (fun other => key == other.1) = some entry := by
  induction entries with
  | nil => cases hm
  | cons first rest ih =>
    obtain ⟨hfirst, hd⟩ := List.pairwise_cons.mp hd
    obtain ⟨hf, hr⟩ := List.forall_mem_cons.mp h
    rcases List.mem_cons.mp hm with rfl | hm
    · exact List.find?_cons_of_pos hk
    · have hne : ¬ (key == first.1) = true := fun hkf =>
        absurd (hf hkf) (Bool.eq_false_iff.mp (hfirst entry hm))
      exact (List.find?_cons_of_neg (p := fun other : Value × Value => key == other.1) hne).trans
        (ih hd hm hr)

/-- Where no key stands twice, the entries found are those of the others in another order. -/
theorem found_iff_reordered {K : Value → Prop} (h : EquivOn K fun v w => (v == w) = true)
    {xs ys : Entries} (hx : xs.Distinct) (hy : ys.Distinct) (hxK : ∀ x ∈ xs, K x.1)
    (hyK : ∀ y ∈ ys, K y.1) : Found xs ys ↔ Reordered xs ys := by
  constructor
  · rintro ⟨hl, hf⟩
    refine exists_perm_forall₂ hl (fun x hm => ?_) ?_
    · obtain ⟨y, hy, hv⟩ := hf x hm
      have hkey := List.find?_some hy
      exact ⟨y, List.mem_of_find?_eq_some hy, hkey, hv⟩
    · -- two keys that are equal to the same one are equal
      refine List.Pairwise.imp_of_mem (fun {x x'} hm hm' hne y hmy hE hE' => ?_) hx
      have hx' : (x'.1 == x.1) = true :=
        h.trans (hxK x' hm') (hyK y hmy) (hxK x hm) hE'.1 (h.symm (hxK x hm) (hyK y hmy) hE.1)
      exact absurd hx' (Bool.eq_false_iff.mp hne)
  · rintro ⟨zs, hE, hp⟩
    refine ⟨hE.length_eq.trans hp.length_eq, fun x hm => ?_⟩
    obtain ⟨z, hz, hkey, hv⟩ := exists_of_mem_of_forall₂ hE hm
    have hzy : z ∈ ys := hp.subset hz
    refine ⟨z, find?_of_distinct hy hzy hkey fun y hmy hxy => ?_, hv⟩
    exact h.trans (hyK z hzy) (hxK x hm) (hyK y hmy) (h.symm (hxK x hm) (hyK z hzy) hkey) hxy

end Entries

namespace Value

/-! ## Equality of one level -/

theorem beqItems_iff {xs ys : List Value} :
    beqItems xs ys = true ↔ List.Forall₂ (fun x y => (x == y) = true) xs ys := by
  induction xs generalizing ys with
  | nil => cases ys <;> simp [beqItems]
  | cons x xs ih =>
    cases ys with
    | nil => simp [beqItems]
    | cons y ys =>
      rw [beqItems, Bool.and_eq_true, ih, List.forall₂_cons]
      rfl

theorem within_iff {xs ys : Entries} :
    within xs ys = true ↔ ∀ x ∈ xs, ∃ y, ys.find? (fun other => x.1 == other.1) = some y ∧
      (x.2 == y.2) = true := by
  induction xs with
  | nil => simp [within]
  | cons x xs ih =>
    obtain ⟨key, v⟩ := x
    rw [within, Bool.and_eq_true, ih, List.forall_mem_cons]
    refine and_congr_left fun _ => ?_
    simp only [BEq.beq]
    cases ys.find? fun other => beq key other.1 <;> simp

/-- Two values are equal if their parts are, where the relation compares the entries of maps. -/
inductive Alike (R : Entries → Entries → Prop) : Value → Value → Prop
  | plain {v : Value} (h : v.containers = []) : Alike R v v
  | list (type : Option String) {xs ys : List Value}
      (h : List.Forall₂ (fun x y => (x == y) = true) xs ys) :
      Alike R (.list type xs) (.list type ys)
  | map (type : Option String) {xs ys : Entries} (h : R xs ys) :
      Alike R (.map type xs) (.map type ys)
  | object (c : Definition) {xs ys : List Value}
      (h : List.Forall₂ (fun x y => (x == y) = true) xs ys) : Alike R (.object c xs) (.object c ys)

theorem alike_map_iff {R : Entries → Entries → Prop} {s t : Option String} {xs ys : Entries} :
    Alike R (.map s xs) (.map t ys) ↔ s = t ∧ R xs ys := by
  constructor
  · intro h
    cases h with
    | plain h => cases h
    | map _ h => exact ⟨rfl, h⟩
  · rintro ⟨rfl, h⟩
    exact .map s h

/-- A value without parts is compared with itself at once. -/
theorem beq_self_of_plain {v : Value} (hv : v.containers = []) : beq v v = true := by
  cases v with
  | list _ _ => cases hv
  | map _ _ => cases hv
  | object _ _ => cases hv
  | _ => simp [beq]

/-- Equality as it is decided. -/
theorem beq_iff_alike (v w : Value) : (v == w) = true ↔ Alike Entries.Found v w := by
  change beq v w = true ↔ _
  constructor
  · intro h
    fun_cases beq v w
    case case10 s xs t ys =>
      rw [beq, Bool.and_eq_true, beq_iff_eq, beqItems_iff] at h
      obtain ⟨rfl, h⟩ := h
      exact .list s h
    case case11 s xs t ys =>
      rw [beq, Bool.and_eq_true, Bool.and_eq_true, beq_iff_eq, beq_iff_eq, within_iff,
        and_assoc] at h
      obtain ⟨rfl, h⟩ := h
      exact .map s h
    case case12 c xs d ys =>
      rw [beq, Bool.and_eq_true, beq_iff_eq, beqItems_iff] at h
      obtain ⟨rfl, h⟩ := h
      exact .object c h
    case case5 a b =>
      obtain rfl : a = b := congrArg Double.mk (eq_of_beq h)
      exact .plain rfl
    case case13 => simp_all [beq]
    case case1 => exact .plain rfl
    all_goals
      obtain rfl := eq_of_beq h
      exact .plain rfl
  · intro h
    cases h with
    | plain h => exact beq_self_of_plain h
    | list type h =>
      rw [beq, Bool.and_eq_true, beq_iff_eq, beqItems_iff]
      exact ⟨rfl, h⟩
    | map type h =>
      rw [beq, Bool.and_eq_true, Bool.and_eq_true, beq_iff_eq, beq_iff_eq, within_iff]
      exact ⟨⟨rfl, h.1⟩, h.2⟩
    | object c h =>
      rw [beq, Bool.and_eq_true, beq_iff_eq, beqItems_iff]
      exact ⟨rfl, h⟩

/-! ## Equality at every level -/

/-- The property holds of the items, keys, values and fields that a value is made of. -/
def Parts (K : Value → Prop) : Value → Prop
  | .list _ items => ∀ v ∈ items, K v
  | .map _ entries => ∀ entry ∈ entries, K entry.1 ∧ K entry.2
  | .object _ fields => ∀ v ∈ fields, K v
  | _ => True

/-- One level is compared by an equivalence if the parts are. -/
theorem equivOn_alike {K : Value → Prop} (h : EquivOn K fun v w => (v == w) = true) :
    EquivOn (Parts K) (Alike Entries.Reordered) where
  refl := by
    intro v hv
    cases v with
    | list type items => exact .list type (h.forall₂.refl hv)
    | map type entries => exact .map type (h.prod.reordered.refl hv)
    | object c fields => exact .object c (h.forall₂.refl hv)
    | _ => exact .plain rfl
  symm := by
    intro v w hv hw hE
    cases hE with
    | plain hp => exact .plain hp
    | list type hE => exact .list type (h.forall₂.symm hv hw hE)
    | map type hE => exact .map type (h.prod.reordered.symm hv hw hE)
    | object c hE => exact .object c (h.forall₂.symm hv hw hE)
  trans := by
    intro u v w hu hv hw hE hE'
    cases hE with
    | plain _ => exact hE'
    | list type hE =>
      cases hE' with
      | plain hp => cases hp
      | list _ hE' => exact .list type (h.forall₂.trans hu hv hw hE hE')
    | map type hE =>
      cases hE' with
      | plain hp => cases hp
      | map _ hE' => exact .map type (h.prod.reordered.trans hu hv hw hE hE')
    | object c hE =>
      cases hE' with
      | plain hp => cases hp
      | object _ hE' => exact .object c (h.forall₂.trans hu hv hw hE hE')

/-- Where no key stands twice, the order of entries does not matter. -/
theorem beq_iff_alike_reordered {K : Value → Prop} (h : EquivOn K fun v w => (v == w) = true)
    {v w : Value} (hv : v.DistinctKeys) (hw : w.DistinctKeys) (hvK : Parts K v) (hwK : Parts K w) :
    (v == w) = true ↔ Alike Entries.Reordered v w := by
  have hfound : ∀ {s t xs ys}, v = .map s xs → w = .map t ys →
      (Entries.Found xs ys ↔ Entries.Reordered xs ys) := by
    rintro s t xs ys rfl rfl
    exact Entries.found_iff_reordered h hv hw (fun x hm => (hvK x hm).1) fun y hm => (hwK y hm).1
  rw [beq_iff_alike]
  constructor
  · intro hE
    cases hE with
    | plain hp => exact .plain hp
    | list type hE => exact .list type hE
    | map type hE => exact .map type ((hfound rfl rfl).mp hE)
    | object c hE => exact .object c hE
  · intro hE
    cases hE with
    | plain hp => exact .plain hp
    | list type hE => exact .list type hE
    | map type hE => exact .map type ((hfound rfl rfl).mpr hE)
    | object c hE => exact .object c hE

/-- The parts of a proper value are proper values of less height. -/
theorem Proper.parts {v : Value} (hv : v.Proper) {n : Nat} (hn : v.height ≤ n) :
    v.DistinctKeys ∧ Parts (fun w => w.Proper ∧ w.height < n) v := by
  cases v with
  | list type items =>
    have hh := heightOfItems_le.mp (Nat.le_refl (heightOfItems items))
    rw [height] at hn
    exact ⟨hv.1, fun w hm => ⟨everywhereItems_iff.mp hv.2 w hm, Nat.lt_of_le_of_lt (hh w hm) hn⟩⟩
  | map type entries =>
    have hh := heightOfEntries_le.mp (Nat.le_refl (heightOfEntries entries))
    rw [height] at hn
    refine ⟨hv.1, fun entry hm => ?_⟩
    obtain ⟨hkey, hvalue⟩ := everywhereEntries_iff.mp hv.2 entry hm
    obtain ⟨hk, hw⟩ := hh entry hm
    exact ⟨⟨hkey, Nat.lt_of_le_of_lt hk hn⟩, hvalue, Nat.lt_of_le_of_lt hw hn⟩
  | object c fields =>
    have hh := heightOfItems_le.mp (Nat.le_refl (heightOfItems fields))
    rw [height] at hn
    exact ⟨hv.1, fun w hm => ⟨everywhereItems_iff.mp hv.2 w hm, Nat.lt_of_le_of_lt (hh w hm) hn⟩⟩
  | _ => exact ⟨trivial, trivial⟩

theorem equivOn_height (n : Nat) :
    EquivOn (fun v : Value => v.Proper ∧ v.height < n) fun v w => (v == w) = true := by
  induction n with
  | zero =>
    exact ⟨fun h => absurd h.2 (Nat.not_lt_zero _), fun h => absurd h.2 (Nat.not_lt_zero _),
      fun h => absurd h.2 (Nat.not_lt_zero _)⟩
  | succ n ih =>
    have hparts : ∀ {v : Value}, v.Proper ∧ v.height < n + 1 → v.DistinctKeys ∧
        Parts (fun w => w.Proper ∧ w.height < n) v := fun h => h.1.parts (Nat.le_of_lt_succ h.2)
    exact (equivOn_alike ih).of_iff (fun h => (hparts h).2) fun hv hw =>
      beq_iff_alike_reordered ih (hparts hv).1 (hparts hw).1 (hparts hv).2 (hparts hw).2

/-- Equality is an equivalence on the values in which no key stands twice. -/
theorem equivOn_proper : EquivOn Proper fun v w => (v == w) = true where
  refl {v} hv := (equivOn_height (v.height + 1)).refl ⟨hv, Nat.lt_succ_self _⟩
  symm {v w} hv hw := (equivOn_height (max v.height w.height + 1)).symm
    ⟨hv, by omega⟩ ⟨hw, by omega⟩
  trans {u v w} hu hv hw := (equivOn_height (max u.height (max v.height w.height) + 1)).trans
    ⟨hu, by omega⟩ ⟨hv, by omega⟩ ⟨hw, by omega⟩

/-! ## What equal values have in common -/

/-- Equal values are of one kind and are hashed alike, whatever is in them. -/
theorem Alike.hashItems_eq {R : Entries → Entries → Prop}
    (hR : ∀ xs ys, R xs ys → xs.length = ys.length) {v w : Value} (h : Alike R v w) :
    v.kind = w.kind ∧ v.hashItems = w.hashItems := by
  cases h with
  | plain _ => exact ⟨rfl, rfl⟩
  | list type h => cases type <;> simp [kind, hashItems, hashBody, h.length_eq]
  | map type h => cases type <;> simp [kind, hashItems, hashBody, hR _ _ h]
  | object c h => simp [kind, hashItems, hashBody, h.length_eq]

/-- Equality is an equivalence on the values whose maps hold no key twice.  Equal values are of one
kind and feed the same items to a hash function, and two maps are equal exactly if one has the
entries of the other in another order. -/
theorem equality_equivalence :
    Equivalence (fun v w : {v : Value // v.Proper} => (v.1 == w.1) = true) ∧
    (∀ v w : Value, (v == w) = true → v.kind = w.kind ∧ v.hashItems = w.hashItems) ∧
    ∀ (s t : Option String) (xs ys : Entries), Proper (.map s xs) → Proper (.map t ys) →
      ((Value.map s xs == .map t ys) = true ↔ s = t ∧ xs.Reordered ys) := by
  refine ⟨⟨?_, ?_, ?_⟩, ?_, ?_⟩
  · exact fun v => equivOn_proper.refl v.2
  · exact fun {v w} h => equivOn_proper.symm v.2 w.2 h
  · exact fun {u v w} h h' => equivOn_proper.trans u.2 v.2 w.2 h h'
  · intro v w h
    exact ((beq_iff_alike v w).mp h).hashItems_eq fun _ _ h => h.1
  · intro s t xs ys hx hy
    have hxK := everywhereEntries_iff.mp hx.2
    have hyK := everywhereEntries_iff.mp hy.2
    rw [beq_iff_alike, alike_map_iff, Entries.found_iff_reordered equivOn_proper hx.1 hy.1
      (fun x hm => (hxK x hm).1) fun y hm => (hyK y hm).1]

/-- Two maps that hold a map as a key, in either order. -/
theorem equality_equivalence_swapped :
    let key := Value.map none [(.null, .int 2)]
    let xs : Entries := [(.int 1, .string "one"), (key, .null)]
    let ys : Entries := [(key, .null), (.int 1, .string "one")]
    Proper (.map none xs) ∧ Proper (.map none ys) ∧ (Value.map none xs == .map none ys) = true ∧
      xs.Reordered ys := by
  intro key xs ys
  have hkey : key.Proper := ⟨List.pairwise_singleton _ _, trivial, trivial, trivial⟩
  have hx : Proper (.map none xs) := by
    refine ⟨?_, trivial, trivial, hkey, trivial, trivial⟩
    exact List.pairwise_pair.mpr (by decide)
  have hy : Proper (.map none ys) := by
    refine ⟨?_, hkey, trivial, trivial, trivial, trivial⟩
    exact List.pairwise_pair.mpr (by decide)
  have hE : (Value.map none xs == .map none ys) = true := by decide
  exact ⟨hx, hy, hE, ((equality_equivalence.2.2 none none xs ys hx hy).mp hE).2⟩

end Value

end Hessian
