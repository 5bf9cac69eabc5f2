import Hessian.Pairs
import Mathlib.Algebra.GroupWithZero.Nat
import Mathlib.Data.List.Induction
import Mathlib.Data.List.Nodup

/-!
# Inserting keyed pairs

What `Pairs.insert` does is shown of one insertion first and then, along the list, of all those that
make up `Pairs.collect`.  Where no key stands twice nothing is lost (`collect_of_distinct`).  Where
one does, there is less than before: whatever is measured of keys and values, its sum does not grow
(`sum_collect_le`).  In the end none does (`distinct_collect`).

At the end pairs are looked up from the back, where the last one of a name is found first.
-/

namespace Hessian.Pairs

variable {κ κ' α α' : Type} {same : κ → κ → Bool} {same' : κ' → κ' → Bool}

/-- No key stands twice. -/
def Distinct (same : κ → κ → Bool) (pairs : List (κ × α)) : Prop :=
  pairs.Pairwise fun earlier later => same later.1 earlier.1 = false

/-! ## Distinct keys -/

/-- A new key goes to the end. -/
theorem insert_of_new {pairs : List (κ × α)} {key : κ} {v : α}
    (h : ∀ pair ∈ pairs, same key pair.1 = false) :
    insert same pairs key v = pairs ++ [(key, v)] := by
  induction pairs with
  | nil => rfl
  | cons pair pairs ih =>
    obtain ⟨k, x⟩ := pair
    have hk : same key k = false := h (k, x) List.mem_cons_self
    rw [insert, hk, ih fun pair hm => h pair (List.mem_cons_of_mem _ hm)]
    rfl

/-- Distinct pairs that are inserted after others, which have none of their keys, follow them. -/
theorem foldl_insert_of_distinct {found pairs : List (κ × α)}
    (h : Distinct same (found ++ pairs)) :
    pairs.foldl (fun found pair => insert same found pair.1 pair.2) found = found ++ pairs := by
  induction pairs generalizing found with
  | nil => exact (List.append_nil found).symm
  | cons pair pairs ih =>
    have hnew : ∀ earlier ∈ found, same pair.1 earlier.1 = false := by
      intro earlier hm
      exact (List.pairwise_append.mp h).2.2 earlier hm pair List.mem_cons_self
    rw [List.foldl_cons, insert_of_new hnew, ih, List.append_assoc, List.singleton_append]
    rwa [List.append_assoc, List.singleton_append]

/-- Pairs of distinct keys stay as they are. -/
theorem collect_of_distinct {pairs : List (κ × α)} (h : Distinct same pairs) :
    collect same pairs = pairs :=
  @foldl_insert_of_distinct κ α same [] pairs h

/-! ## Changing keys and values -/

section Related

variable {K : κ → κ' → Prop} {R : α → α' → Prop}
  (hK : ∀ k k' l l', K k l → K k' l' → same k k' = same' l l')

include hK

/-- Related pairs stay related when a related one is inserted, as long as the relation keeps the
same keys the same. -/
theorem forall₂_insert {pairs : List (κ × α)} {pairs' : List (κ' × α')}
    (h : List.Forall₂ (fun p q => K p.1 q.1 ∧ R p.2 q.2) pairs pairs') {key : κ} {key' : κ'}
    {v : α} {v' : α'} (hkey : K key key') (hv : R v v') :
    List.Forall₂ (fun p q => K p.1 q.1 ∧ R p.2 q.2) (insert same pairs key v)
      (insert same' pairs' key' v') := by
  induction h with
  | nil => exact .cons ⟨hkey, hv⟩ .nil
  | @cons p q pairs pairs' hpq hrest ih =>
    unfold insert
    rw [hK key p.1 key' q.1 hkey hpq.1]
    split
    · exact .cons ⟨hpq.1, hv⟩ hrest
    · exact .cons hpq ih

theorem forall₂_collect {pairs : List (κ × α)} {pairs' : List (κ' × α')}
    (h : List.Forall₂ (fun p q => K p.1 q.1 ∧ R p.2 q.2) pairs pairs') :
    List.Forall₂ (fun p q => K p.1 q.1 ∧ R p.2 q.2) (collect same pairs)
      (collect same' pairs') := by
  have hfold {found : List (κ × α)} {found' : List (κ' × α')}
      (hfound : List.Forall₂ (fun p q => K p.1 q.1 ∧ R p.2 q.2) found found') :
      List.Forall₂ (fun p q => K p.1 q.1 ∧ R p.2 q.2)
        (pairs.foldl (fun found pair => insert same found pair.1 pair.2) found)
        (pairs'.foldl (fun found pair => insert same' found pair.1 pair.2) found') := by
    induction h generalizing found found' with
    | nil => exact hfound
    | cons hpq hrest ih => exact ih (forall₂_insert hK hfound hpq.1 hpq.2)
  exact hfold .nil

end Related

section Map

variable {f : κ → κ'} (g : α → α') (hf : ∀ k k', same' (f k) (f k') = same k k')

include hf

/-- Keys may be changed as long as the same ones stay the same. -/
theorem map_insert (pairs : List (κ × α)) (key : κ) (v : α) :
    (insert same pairs key v).map (Prod.map f g) =
      insert same' (pairs.map (Prod.map f g)) (f key) (g v) := by
  induction pairs with
  | nil => rfl
  | cons pair pairs ih =>
    obtain ⟨k, x⟩ := pair
    simp only [insert, List.map_cons, Prod.map_apply, hf]
    split
    · rfl
    · rw [List.map_cons, ih, Prod.map_apply]

theorem map_collect (pairs : List (κ × α)) :
    (collect same pairs).map (Prod.map f g) = collect same' (pairs.map (Prod.map f g)) := by
  have h (found : List (κ × α)) :
      (pairs.foldl (fun found pair => insert same found pair.1 pair.2) found).map (Prod.map f g) =
        (pairs.map (Prod.map f g)).foldl (fun found pair => insert same' found pair.1 pair.2)
          (found.map (Prod.map f g)) := by
    induction pairs generalizing found with
    | nil => rfl
    | cons pair pairs ih =>
      rw [List.foldl_cons, ih, map_insert g hf, List.map_cons, List.foldl_cons]
      rfl
  exact h []

end Map

/-! ## Keys and values that remain -/

section Remain

variable {P : κ → Prop} {Q : α → Prop}

/-- There are no other keys and values than those before and the new ones. -/
theorem forall_insert {pairs : List (κ × α)} {key : κ} {v : α}
    (h : ∀ pair ∈ pairs, P pair.1 ∧ Q pair.2) (hk : P key) (hv : Q v) :
    ∀ pair ∈ insert same pairs key v, P pair.1 ∧ Q pair.2 := by
  induction pairs with
  | nil => exact List.forall_mem_singleton.mpr ⟨hk, hv⟩
  | cons first pairs ih =>
    obtain ⟨hfirst, hrest⟩ := List.forall_mem_cons.mp h
    unfold insert
    split
    · exact List.forall_mem_cons.mpr ⟨⟨hfirst.1, hv⟩, hrest⟩
    · exact List.forall_mem_cons.mpr ⟨hfirst, ih hrest⟩

theorem forall_collect {pairs : List (κ × α)} (h : ∀ pair ∈ pairs, P pair.1 ∧ Q pair.2) :
    ∀ pair ∈ collect same pairs, P pair.1 ∧ Q pair.2 := by
  have hfold (found : List (κ × α)) (hfound : ∀ pair ∈ found, P pair.1 ∧ Q pair.2) :
      ∀ pair ∈ pairs.foldl (fun found pair => insert same found pair.1 pair.2) found,
        P pair.1 ∧ Q pair.2 := by
    induction pairs generalizing found with
    | nil => exact hfound
    | cons pair pairs ih =>
      obtain ⟨hpair, hrest⟩ := List.forall_mem_cons.mp h
      exact ih hrest _ (forall_insert hfound hpair.1 hpair.2)
  exact hfold [] fun _ hm => nomatch hm

end Remain

/-! ## Distinct keys at the end -/

/-- An insertion puts no key in twice. -/
theorem Distinct.insert {pairs : List (κ × α)} (h : Distinct same pairs) (key : κ) (v : α) :
    Distinct same (insert same pairs key v) := by
  induction pairs with
  | nil => exact List.pairwise_singleton _ _
  | cons first pairs ih =>
    obtain ⟨hfirst, hrest⟩ := List.pairwise_cons.mp h
    unfold Pairs.insert
    split
    · exact List.pairwise_cons.mpr ⟨hfirst, hrest⟩
    · next hne =>
      refine List.pairwise_cons.mpr ⟨fun pair hm => ?_, ih hrest⟩
      have hkeys : ∀ pair ∈ Pairs.insert same pairs key v, same pair.1 first.1 = false ∧ True :=
        forall_insert (P := fun k => same k first.1 = false) (Q := fun _ => True)
          (fun pair hm => ⟨hfirst pair hm, trivial⟩) (Bool.eq_false_iff.mpr hne) trivial
      exact (hkeys pair hm).1

/-- Pairs that are inserted one after another end up with distinct keys. -/
theorem distinct_collect (pairs : List (κ × α)) : Distinct same (collect same pairs) := by
  induction pairs using List.reverseRecOn with
  | nil => exact List.Pairwise.nil
  | append_singleton pairs pair ih =>
    rw [collect, List.foldl_concat]
    exact ih.insert pair.1 pair.2

/-! ## Sums -/

section Sum

variable (f : κ → Nat) (g : α → Nat)

/-- What is measured of keys and values grows at most by what the new ones measure. -/
theorem sum_insert_le (pairs : List (κ × α)) (key : κ) (v : α) :
    ((insert same pairs key v).map fun pair => f pair.1 + g pair.2).sum ≤
      (pairs.map fun pair => f pair.1 + g pair.2).sum + (f key + g v) := by
  induction pairs with
  | nil => exact Nat.le_of_eq (Nat.add_comm _ _)
  | cons first pairs ih =>
    unfold insert
    split
    · simp only [List.map_cons, List.sum_cons]
      omega
    · simp only [List.map_cons, List.sum_cons]
      omega

theorem sum_collect_le (pairs : List (κ × α)) :
    ((collect same pairs).map fun pair => f pair.1 + g pair.2).sum ≤
      (pairs.map fun pair => f pair.1 + g pair.2).sum := by
  have h (found : List (κ × α)) :
      ((pairs.foldl (fun found pair => insert same found pair.1 pair.2) found).map
        fun pair => f pair.1 + g pair.2).sum ≤
        (found.map fun pair => f pair.1 + g pair.2).sum +
          (pairs.map fun pair => f pair.1 + g pair.2).sum := by
    induction pairs generalizing found with
    | nil => exact Nat.le_add_right _ _
    | cons pair pairs ih =>
      have hinsert := @sum_insert_le κ α same f g found pair.1 pair.2
      rw [List.foldl_cons, List.map_cons, List.sum_cons]
      have hrest := ih (insert same found pair.1 pair.2)
      omega
  exact Nat.le_trans (h []) (Nat.le_of_eq (Nat.zero_add _))

end Sum

/-! ## Looking up -/

section Lookup

variable {α : Type} {pairs before after : List (String × α)} {name : String} {a : α}

/-- From the end of a list the last pair of a name is found first. -/
theorem lookup_reverse_last (h : name ∉ after.map Prod.fst) :
    (before ++ (name, a) :: after).reverse.lookup name = some a := by
  refine List.lookup_eq_some_iff.mpr ⟨after.reverse, before.reverse, ?_, fun pair hp => ?_⟩
  · rw [List.reverse_append, List.reverse_cons, List.append_assoc, List.singleton_append]
  · refine bne_iff_ne.mpr fun heq => h ?_
    exact heq ▸ List.mem_map_of_mem (List.mem_reverse.mp hp)

theorem lookup_reverse_none (h : name ∉ pairs.map Prod.fst) :
    pairs.reverse.lookup name = none := by
  refine List.lookup_eq_none_iff.mpr fun pair hp => bne_iff_ne.mpr fun heq => h ?_
  exact heq ▸ List.mem_map_of_mem (List.mem_reverse.mp hp)

/-- Where names are given once, each pair is found. -/
theorem lookup_of_nodup (hn : (pairs.map Prod.fst).Nodup) (hm : (name, a) ∈ pairs) :
    pairs.lookup name = some a := by
  obtain ⟨before, after, rfl⟩ := List.append_of_mem hm
  refine List.lookup_eq_some_iff.mpr ⟨before, after, rfl, fun pair hp => bne_iff_ne.mpr ?_⟩
  rintro rfl
  rw [List.map_append, List.map_cons] at hn
  exact List.disjoint_of_nodup_append hn (List.mem_map_of_mem hp) List.mem_cons_self

/-- Where there is a pair of a name, there is a last one. -/
theorem exists_last (h : name ∈ pairs.map Prod.fst) :
    ∃ before a after, pairs = before ++ (name, a) :: after ∧ name ∉ after.map Prod.fst := by
  induction pairs with
  | nil => cases h
  | cons pair rest ih =>
    by_cases hr : name ∈ rest.map Prod.fst
    · obtain ⟨before, a, after, rfl, hn⟩ := ih hr
      exact ⟨pair :: before, a, after, rfl, hn⟩
    · obtain rfl := (List.mem_cons.mp h).resolve_right hr
      exact ⟨[], pair.2, rest, rfl, hr⟩

/-- A name that is given once is found from both ends. -/
theorem lookup_reverse_of_count (h : (pairs.map Prod.fst).count name = 1) :
    pairs.reverse.lookup name = pairs.lookup name := by
  have hm : name ∈ pairs.map Prod.fst := List.count_pos_iff.mp (h ▸ Nat.one_pos)
  obtain ⟨before, a, after, rfl, hafter⟩ := exists_last hm
  have hbefore : name ∉ before.map Prod.fst := by
    rw [List.map_append, List.map_cons, List.count_append, List.count_cons_self,
      List.count_eq_zero_of_not_mem hafter] at h
    exact List.count_eq_zero.mp (Nat.succ.inj h)
  rw [lookup_reverse_last hafter, List.lookup_eq_some_iff.mpr]
  refine ⟨before, after, rfl, fun pair hp => bne_iff_ne.mpr ?_⟩
  rintro rfl
  exact hbefore (List.mem_map_of_mem hp)

end Lookup

end Hessian.Pairs
