import Hessian.Proofs.Pairs
import Hessian.Schema.Basic
import Mathlib.Data.String.Basic

/-!
# Keyed collections

A collection into which pairs are put one after another comes out the same if pairs of equal keys
have been put together before, the first giving the place and the last the value
(`Mapping.ofPairs_collect`).  Where keys stand in the order in which they were first put in, there
is nothing left to do for such pairs.  Where keys are sorted, an insertion can be exchanged with
that of another key (`Mapping.insertSorted_comm`), so that the insertions of one key can be brought
together.
-/

namespace Hessian

/-! ## The order of keys -/

namespace Key

variable {a b c : Key}

/-- What is before a key is before all that the key is before. -/
theorem before_trans (h : a.before b = true) (h' : b.before c = true) : a.before c = true := by
  cases a with
  | text s =>
    cases b with
    | text t =>
      cases c with
      | text u => exact decide_eq_true (lt_trans (of_decide_eq_true h) (of_decide_eq_true h'))
      | _ => cases h'
    | _ => cases h
  | long n =>
    cases b with
    | long m =>
      cases c with
      | long k =>
        exact decide_eq_true (Int64.lt_trans (of_decide_eq_true h) (of_decide_eq_true h'))
      | _ => cases h'
    | _ => cases h
  | value v => cases h

/-- A key is not before those that are before it. -/
theorem before_asymm (h : a.before b = true) : b.before a = false := by
  cases a with
  | text s =>
    cases b with
    | text t => exact decide_eq_false (lt_asymm (of_decide_eq_true h))
    | _ => rfl
  | long n =>
    cases b with
    | long m => exact decide_eq_false (Int64.lt_asymm (of_decide_eq_true h))
    | _ => rfl
  | value v => cases h

/-- A key is not equal to those that are before it. -/
theorem beq_of_before (h : a.before b = true) : (b == a) = false ∧ (a == b) = false := by
  cases a with
  | text s =>
    cases b with
    | text t =>
      have hne : s ≠ t := ne_of_lt (of_decide_eq_true h)
      have hts : (t == s) = false := beq_false_of_ne hne.symm
      have hst : (s == t) = false := beq_false_of_ne hne
      exact ⟨hts, hst⟩
    | _ => cases h
  | long n =>
    cases b with
    | long m =>
      have hne : n ≠ m := Int64.ne_of_lt (of_decide_eq_true h)
      have hmn : (m == n) = false := beq_false_of_ne hne.symm
      have hnm : (n == m) = false := beq_false_of_ne hne
      exact ⟨hmn, hnm⟩
    | _ => cases h
  | value v => cases h

/-- Equal keys are before the same keys and have the same keys before them. -/
theorem before_congr (h : (a == b) = true) (c : Key) :
    a.before c = b.before c ∧ c.before a = c.before b := by
  cases a with
  | text s =>
    cases b with
    | text t =>
      obtain rfl : s = t := eq_of_beq h
      exact ⟨rfl, rfl⟩
    | _ => cases h
  | long n =>
    cases b with
    | long m =>
      obtain rfl : n = m := eq_of_beq h
      exact ⟨rfl, rfl⟩
    | _ => cases h
  | value v =>
    cases b with
    | value w => cases c <;> exact ⟨rfl, rfl⟩
    | _ => cases h

end Key

namespace Mapping

variable {α : Type}

/-! ## Sorted keys -/

/-- Items of different keys may be inserted in any order. -/
theorem insertSorted_comm {k l : Key} (h : k.before l = true) (x y : α)
    (entries : List (Key × α)) :
    insertSorted k x (insertSorted l y entries) = insertSorted l y (insertSorted k x entries) := by
  have hlk : l.before k = false := Key.before_asymm h
  obtain ⟨hne, -⟩ := Key.beq_of_before h
  induction entries with
  | nil => simp only [insertSorted, h, hlk, hne, if_true, Bool.false_eq_true, if_false]
  | cons entry rest ih =>
    obtain ⟨m, z⟩ := entry
    by_cases hl : l.before m = true
    · have hk : k.before m = true := Key.before_trans h hl
      simp only [insertSorted, hl, hk, h, hlk, hne, if_true, Bool.false_eq_true, if_false]
    · by_cases hlm : (l == m) = true
      · have hk : k.before m = true := (Key.before_congr hlm k).2 ▸ h
        simp only [insertSorted, hl, hlm, hk, hlk, hne, if_true, Bool.false_eq_true, if_false]
      · by_cases hk : k.before m = true
        · simp only [insertSorted, hl, hlm, hk, hlk, hne, if_true, Bool.false_eq_true, if_false]
        · by_cases hkm : (k == m) = true
          · simp only [insertSorted, hl, hlm, hk, hkm, if_true, Bool.false_eq_true, if_false]
          · simp only [insertSorted, hl, hlm, hk, hkm, ih, Bool.false_eq_true, if_false]

/-- Of two items for one key the second one stays. -/
theorem insertSorted_insertSorted {k : Key} (hk : (k == k) = true) (x y : α)
    (entries : List (Key × α)) :
    insertSorted k x (insertSorted k y entries) = insertSorted k x entries := by
  have hirrefl : k.before k = false := by
    cases hb : k.before k with
    | true => exact hb.symm.trans (Key.before_asymm hb)
    | false => rfl
  induction entries with
  | nil => simp only [insertSorted, hirrefl, hk, if_true, Bool.false_eq_true, if_false]
  | cons entry rest ih =>
    obtain ⟨m, z⟩ := entry
    by_cases hb : k.before m = true
    · simp only [insertSorted, hb, hirrefl, hk, if_true, Bool.false_eq_true, if_false]
    · by_cases hm : (k == m) = true
      · simp only [insertSorted, hb, hm, if_true, Bool.false_eq_true, if_false]
      · simp only [insertSorted, hb, hm, ih, Bool.false_eq_true, if_false]

/-- An item whose key comes after all the others goes to the end. -/
theorem insertSorted_of_last {k : Key} {entries : List (Key × α)}
    (h : ∀ entry ∈ entries, entry.1.before k = true) (x : α) :
    insertSorted k x entries = entries ++ [(k, x)] := by
  induction entries with
  | nil => rfl
  | cons entry rest ih =>
    obtain ⟨hfirst, hrest⟩ := List.forall_mem_cons.mp h
    rw [insertSorted, Key.before_asymm hfirst, (Key.beq_of_before hfirst).1, ih hrest]
    rfl

/-- Pairs in the order of their keys follow those that are before them. -/
theorem foldl_insertSorted_of_pairwise {found pairs : List (Key × α)}
    (h : (found ++ pairs).Pairwise fun earlier later => earlier.1.before later.1 = true) :
    pairs.foldl (fun entries pair => insertSorted pair.1 pair.2 entries) found =
      found ++ pairs := by
  induction pairs generalizing found with
  | nil => exact (List.append_nil found).symm
  | cons pair pairs ih =>
    have hlast : ∀ earlier ∈ found, earlier.1.before pair.1 = true := by
      intro earlier hm
      exact (List.pairwise_append.mp h).2.2 earlier hm pair List.mem_cons_self
    rw [List.foldl_cons, insertSorted_of_last hlast, ih, List.append_assoc, List.singleton_append]
    rwa [List.append_assoc, List.singleton_append]

/-- One of the keys is before the other. -/
def Apart (k l : Key) : Prop := k.before l = true ∨ l.before k = true

/-- An item may as well be inserted before those of other keys. -/
theorem insertSorted_foldl {k : Key} {x : α} {pairs entries : List (Key × α)}
    (h : ∀ pair ∈ pairs, Apart k pair.1) :
    insertSorted k x
        (pairs.foldl (fun entries pair => insertSorted pair.1 pair.2 entries) entries) =
      pairs.foldl (fun entries pair => insertSorted pair.1 pair.2 entries)
        (insertSorted k x entries) := by
  induction pairs generalizing entries with
  | nil => rfl
  | cons pair pairs ih =>
    obtain ⟨hpair, hrest⟩ := List.forall_mem_cons.mp h
    rw [List.foldl_cons, List.foldl_cons, ih hrest]
    rcases hpair with hlt | hlt
    · rw [insertSorted_comm hlt]
    · rw [insertSorted_comm hlt]

/-- To put an item in among distinct pairs, which are then inserted, is to insert it after them. -/
theorem foldl_insertSorted_insert {k : Key} (hk : (k == k) = true) {x : α}
    {pairs : List (Key × α)} (hd : Pairs.Distinct (· == ·) pairs)
    (h : ∀ pair ∈ pairs, k = pair.1 ∨ Apart k pair.1) (entries : List (Key × α)) :
    (Pairs.insert (· == ·) pairs k x).foldl
        (fun entries pair => insertSorted pair.1 pair.2 entries) entries =
      insertSorted k x
        (pairs.foldl (fun entries pair => insertSorted pair.1 pair.2 entries) entries) := by
  induction pairs generalizing entries with
  | nil => rfl
  | cons pair pairs ih =>
    obtain ⟨l, y⟩ := pair
    obtain ⟨hpair, hrest⟩ := List.forall_mem_cons.mp h
    obtain ⟨hfirst, hd⟩ := List.pairwise_cons.mp hd
    rcases hpair with rfl | hapart
    · have hothers (pair : Key × α) (hm : pair ∈ pairs) : Apart k pair.1 := by
        refine (hrest pair hm).resolve_left fun he => ?_
        have hne : (pair.1 == k) = false := hfirst pair hm
        rw [← he, hk] at hne
        cases hne
      simp only [Pairs.insert, hk, if_true, List.foldl_cons]
      rw [insertSorted_foldl hothers, insertSorted_insertSorted hk]
    · have hne : (k == l) = false := by
        rcases hapart with hlt | hlt
        · exact (Key.beq_of_before hlt).2
        · exact (Key.beq_of_before hlt).1
      simp only [Pairs.insert, hne, Bool.false_eq_true, if_false, List.foldl_cons]
      exact ih hd hrest _

/-! ## Collections -/

/-- The keys that a collection can have. -/
def Owns : Mapping → Key → Prop
  | .sortedText, .text _ => True
  | .sortedLong, .long _ => True
  | .text, .text _ => True
  | .value, .value _ => True
  | _, _ => False

/-- Of two keys of a sorted collection one is before the other if they are not the same. -/
theorem Owns.eq_or_apart {m : Mapping} (hm : m.isSorted = true) {k l : Key} (hk : m.Owns k)
    (hl : m.Owns l) : k = l ∨ Apart k l := by
  cases m with
  | sortedText =>
    cases k with
    | text s =>
      cases l with
      | text t =>
        rcases lt_trichotomy s t with hlt | rfl | hlt
        · exact .inr (.inl (decide_eq_true hlt))
        · exact .inl rfl
        · exact .inr (.inr (decide_eq_true hlt))
      | _ => cases hl
    | _ => cases hk
  | sortedLong =>
    cases k with
    | long n =>
      cases l with
      | long m =>
        rcases lt_trichotomy n.toInt m.toInt with hlt | heq | hlt
        · exact .inr (.inl (decide_eq_true (Int64.lt_iff_toInt_lt.mpr hlt)))
        · exact .inl (congrArg Key.long (Int64.toInt_inj.mp heq))
        · exact .inr (.inr (decide_eq_true (Int64.lt_iff_toInt_lt.mpr hlt)))
      | _ => cases hl
    | _ => cases hk
  | text => cases hm
  | value => cases hm

/-- A key of a sorted collection is equal to itself. -/
theorem Owns.beq_self {m : Mapping} (hm : m.isSorted = true) {k : Key} (hk : m.Owns k) :
    (k == k) = true := by
  cases k with
  | text s => exact beq_self_eq_true s
  | long n => exact beq_self_eq_true n
  | value v =>
    cases m with
    | value => cases hm
    | _ => cases hk

/-- A collection without order is what is collected of its pairs. -/
theorem ofPairs_of_unsorted {m : Mapping} (hm : m.isSorted = false) (pairs : List (Key × α)) :
    m.ofPairs pairs = Pairs.collect (· == ·) pairs := by
  unfold ofPairs insert
  rw [hm]
  rfl

/-- What is inserted into a sorted collection. -/
theorem ofPairs_of_sorted {m : Mapping} (hm : m.isSorted = true) (pairs : List (Key × α)) :
    m.ofPairs pairs =
      pairs.foldl (fun entries pair => insertSorted pair.1 pair.2 entries) [] := by
  unfold ofPairs insert
  rw [hm]
  rfl

/-- The pairs are in the order that a collection has its keys in, if it has one. -/
def InOrder (m : Mapping) (pairs : List (Key × α)) : Prop :=
  m.isSorted = true → pairs.Pairwise fun earlier later => earlier.1.before later.1 = true

/-- A collection of pairs that are in order is what is collected of them. -/
theorem ofPairs_of_inOrder {m : Mapping} {pairs : List (Key × α)} (h : m.InOrder pairs) :
    m.ofPairs pairs = Pairs.collect (· == ·) pairs := by
  cases hm : m.isSorted with
  | false => exact ofPairs_of_unsorted hm pairs
  | true =>
    have hpairwise := h hm
    have hdistinct : Pairs.Distinct (· == ·) pairs :=
      hpairwise.imp fun hlt => (Key.beq_of_before hlt).1
    rw [Pairs.collect_of_distinct hdistinct, ofPairs_of_sorted hm]
    exact foldl_insertSorted_of_pairwise hpairwise

/-- A collection is the same whether or not pairs of equal keys were put together before. -/
theorem ofPairs_collect (m : Mapping) {pairs : List (Key × α)}
    (h : ∀ pair ∈ pairs, m.Owns pair.1) :
    m.ofPairs (Pairs.collect (· == ·) pairs) = m.ofPairs pairs := by
  cases hm : m.isSorted with
  | false =>
    rw [ofPairs_of_unsorted hm, ofPairs_of_unsorted hm,
      Pairs.collect_of_distinct (Pairs.distinct_collect pairs)]
  | true =>
    rw [ofPairs_of_sorted hm, ofPairs_of_sorted hm]
    induction pairs using List.reverseRecOn with
    | nil => rfl
    | append_singleton pairs pair ih =>
      have hpair : m.Owns pair.1 :=
        h pair (List.mem_append_right pairs List.mem_cons_self)
      have hpairs (old : Key × α) (ho : old ∈ pairs) : m.Owns old.1 :=
        h old (List.mem_append_left [pair] ho)
      have hfound : ∀ old ∈ Pairs.collect (· == ·) pairs, m.Owns old.1 ∧ True :=
        Pairs.forall_collect (P := m.Owns) (Q := fun _ => True) fun old ho =>
          ⟨hpairs old ho, trivial⟩
      rw [List.foldl_concat, ← ih hpairs, Pairs.collect, List.foldl_concat]
      refine foldl_insertSorted_insert (hpair.beq_self hm) (Pairs.distinct_collect pairs)
        (fun old ho => ?_) []
      exact hpair.eq_or_apart hm (hfound old ho).1

end Mapping

end Hessian
