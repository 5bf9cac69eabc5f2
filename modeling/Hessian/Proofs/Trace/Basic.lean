import Hessian.Proofs.Value.Norm
import Hessian.Value.Access

/-!
# What a stream says

A `Trace` is a value as the stream gives it: the lists, maps and class instances carry the numbers
under which the stream has started them, and a map has all of its pairs, also those whose key has
been there before.  `settle` makes of it what is kept, `erase` forgets the numbers.

A container of the stream can be told from an equal one by its number.  What becomes of it can
therefore be followed: `settle` never makes a container stand twice (`countNumber_settle_le`), and
where no map repeats a key it changes nothing (`settle_eq`).
-/

namespace Hessian

/-- A value as the stream gives it. -/
inductive Trace where
  /-- A value that is no container. -/
  | scalar (value : Value) (plain : value.containers = [])
  | list (number : Nat) (type : Option String) (items : List Trace)
  | map (number : Nat) (type : Option String) (pairs : List (Trace × Trace))
  | object (number : Nat) (definition : Definition) (fields : List Trace)

namespace Trace

/-- The number of a container. -/
def number : Trace → Nat
  | .scalar .. => 0
  | .list n .. => n
  | .map n .. => n
  | .object n .. => n

mutual

/-- The value without the numbers. -/
def erase : Trace → Value
  | .scalar v _ => v
  | .list _ type items => .list type (eraseItems items)
  | .map _ type pairs => .map type (erasePairs pairs)
  | .object _ c fields => .object c (eraseItems fields)

def eraseItems : List Trace → List Value
  | [] => []
  | t :: ts => erase t :: eraseItems ts

def erasePairs : List (Trace × Trace) → Entries
  | [] => []
  | (key, t) :: rest => (erase key, erase t) :: erasePairs rest

end

/-- Whether two traces are keys of the same entry. -/
def same (a b : Trace) : Bool := a.erase == b.erase

mutual

/-- What is kept: the pairs of maps inserted one after another. -/
def settle : Trace → Trace
  | .scalar v plain => .scalar v plain
  | .list n type items => .list n type (settleItems items)
  | .map n type pairs => .map n type (Pairs.collect same (settlePairs pairs))
  | .object n c fields => .object n c (settleItems fields)

def settleItems : List Trace → List Trace
  | [] => []
  | t :: ts => settle t :: settleItems ts

def settlePairs : List (Trace × Trace) → List (Trace × Trace)
  | [] => []
  | (key, t) :: rest => (settle key, settle t) :: settlePairs rest

end

mutual

/-- The containers, in the order in which they stand. -/
def nodes : Trace → List Trace
  | .scalar .. => []
  | .list n type items => .list n type items :: nodesOfItems items
  | .map n type pairs => .map n type pairs :: nodesOfPairs pairs
  | .object n c fields => .object n c fields :: nodesOfItems fields

def nodesOfItems : List Trace → List Trace
  | [] => []
  | t :: ts => nodes t ++ nodesOfItems ts

/-- The containers of a key stand before those of its value. -/
def nodesOfPairs : List (Trace × Trace) → List Trace
  | [] => []
  | (key, t) :: rest => nodes key ++ nodes t ++ nodesOfPairs rest

end

theorem eraseItems_eq_map (ts : List Trace) : eraseItems ts = ts.map erase := by
  induction ts with
  | nil => rfl
  | cons t ts ih => rw [eraseItems, ih, List.map_cons]

theorem erasePairs_eq_map (pairs : List (Trace × Trace)) :
    erasePairs pairs = pairs.map (Prod.map erase erase) := by
  induction pairs with
  | nil => rfl
  | cons pair pairs ih => rw [erasePairs, ih, List.map_cons, Prod.map]

theorem settleItems_eq_map (ts : List Trace) : settleItems ts = ts.map settle := by
  induction ts with
  | nil => rfl
  | cons t ts ih => rw [settleItems, ih, List.map_cons]

theorem settlePairs_eq_map (pairs : List (Trace × Trace)) :
    settlePairs pairs = pairs.map (Prod.map settle settle) := by
  induction pairs with
  | nil => rfl
  | cons pair pairs ih => rw [settlePairs, ih, List.map_cons, Prod.map]

/-- Pairs are inserted by what their keys are without the numbers. -/
theorem erasePairs_collect (pairs : List (Trace × Trace)) :
    erasePairs (Pairs.collect same pairs) = Entries.ofPairs (erasePairs pairs) := by
  rw [erasePairs_eq_map, erasePairs_eq_map, Entries.ofPairs]
  exact Pairs.map_collect erase (fun _ _ => rfl) pairs

/-! ## The value that is made of a trace -/

/-- The value of what is kept. -/
def value (t : Trace) : Value := t.settle.erase

/-- What is made of a list is a list. -/
theorem value_list (number : Nat) (type : Option String) (items : List Trace) :
    (list number type items).value = .list type (items.map value) := by
  rw [value, settle, erase, eraseItems_eq_map, settleItems_eq_map,
    List.map_map]
  rfl

theorem value_map (number : Nat) (type : Option String) (pairs : List (Trace × Trace)) :
    (map number type pairs).value =
      .map type (Entries.ofPairs (pairs.map (Prod.map value value))) := by
  rw [value, settle, erase, erasePairs_collect, erasePairs_eq_map,
    settlePairs_eq_map, List.map_map]
  rfl

theorem value_object (number : Nat) (c : Definition) (fields : List Trace) :
    (object number c fields).value = .object c (fields.map value) := by
  rw [value, settle, erase, eraseItems_eq_map, settleItems_eq_map,
    List.map_map]
  rfl

/-! ## Containers -/

mutual

/-- The containers of the value are those of the trace. -/
theorem containers_erase : (t : Trace) → t.erase.containers = t.nodes.map erase
  | .scalar v plain => plain
  | .list n type items => by
    rw [nodes, List.map_cons, ← containersOfItems_erase items]
    rfl
  | .map n type pairs => by
    rw [nodes, List.map_cons, ← containersOfEntries_erase pairs]
    rfl
  | .object n c fields => by
    rw [nodes, List.map_cons, ← containersOfItems_erase fields]
    rfl

theorem containersOfItems_erase : (ts : List Trace) →
    Value.containersOfItems (eraseItems ts) = (nodesOfItems ts).map erase
  | [] => rfl
  | t :: ts => by
    rw [eraseItems, Value.containersOfItems, containers_erase t, containersOfItems_erase ts,
      nodesOfItems, List.map_append]

theorem containersOfEntries_erase : (pairs : List (Trace × Trace)) →
    Value.containersOfEntries (erasePairs pairs) = (nodesOfPairs pairs).map erase
  | [] => rfl
  | (key, t) :: rest => by
    rw [erasePairs, Value.containersOfEntries, containers_erase key, containers_erase t,
      containersOfEntries_erase rest, nodesOfPairs, List.map_append, List.map_append]

end

/-! ## Numbers -/

/-- How many containers have a number. -/
def countNumber (n : Nat) (t : Trace) : Nat := (t.nodes.map number).count n

theorem count_nodesOfPairs (n : Nat) (pairs : List (Trace × Trace)) :
    ((nodesOfPairs pairs).map number).count n =
      (pairs.map fun pair => pair.1.countNumber n + pair.2.countNumber n).sum := by
  induction pairs with
  | nil => rfl
  | cons pair pairs ih =>
    rw [nodesOfPairs, List.map_append, List.map_append, List.count_append, List.count_append, ih]
    rfl

mutual

/-- A container that is kept is one of those that were there. -/
theorem countNumber_settle_le (n : Nat) : (t : Trace) → t.settle.countNumber n ≤ t.countNumber n
  | .scalar .. => Nat.le_refl _
  | .list m type items => by
    have h := count_settleItems_le n items
    simp only [countNumber, settle, nodes, List.map_cons, List.count_cons, number]
    omega
  | .map m type pairs => by
    have h := count_settlePairs_le n pairs
    have hc := @Pairs.sum_collect_le _ _ same (countNumber n) (countNumber n) (settlePairs pairs)
    rw [← count_nodesOfPairs, ← count_nodesOfPairs] at hc
    simp only [countNumber, settle, nodes, List.map_cons, List.count_cons, number]
    omega
  | .object m c fields => by
    have h := count_settleItems_le n fields
    simp only [countNumber, settle, nodes, List.map_cons, List.count_cons, number]
    omega

theorem count_settleItems_le (n : Nat) : (ts : List Trace) →
    ((nodesOfItems (settleItems ts)).map number).count n ≤ ((nodesOfItems ts).map number).count n
  | [] => Nat.le_refl _
  | t :: ts => by
    have ht := countNumber_settle_le n t
    have hts := count_settleItems_le n ts
    simp only [settleItems, nodesOfItems, List.map_append, List.count_append]
    exact Nat.add_le_add ht hts

theorem count_settlePairs_le (n : Nat) : (pairs : List (Trace × Trace)) →
    ((nodesOfPairs (settlePairs pairs)).map number).count n ≤
      ((nodesOfPairs pairs).map number).count n
  | [] => Nat.le_refl _
  | (key, t) :: rest => by
    have hkey := countNumber_settle_le n key
    have ht := countNumber_settle_le n t
    have hrest := count_settlePairs_le n rest
    simp only [settlePairs, nodesOfPairs, List.map_append, List.count_append]
    exact Nat.add_le_add (Nat.add_le_add hkey ht) hrest

end

/-- Numbers that were different stay so. -/
theorem nodup_settle {t : Trace} (h : (t.nodes.map number).Nodup) :
    (t.settle.nodes.map number).Nodup := by
  rw [List.nodup_iff_count] at h ⊢
  intro n
  exact Nat.le_trans (countNumber_settle_le n t) (h n)

/-! ## Distinct keys -/

mutual

/-- Where no map repeats a key, all is kept as it was. -/
theorem settle_eq : (t : Trace) → t.erase.Proper → t.settle = t
  | .scalar .., _ => rfl
  | .list n type items, h => by
    rw [settle, settleItems_eq items h.2]
  | .map n type pairs, h => by
    have hd : Pairs.Distinct same pairs := by
      have h := h.1
      rw [Value.DistinctKeys, Entries.Distinct, erasePairs_eq_map, Pairs.Distinct,
        List.pairwise_map] at h
      exact h
    rw [settle, settlePairs_eq pairs h.2, Pairs.collect_of_distinct hd]
  | .object n c fields, h => by
    rw [settle, settleItems_eq fields h.2]

theorem settleItems_eq : (ts : List Trace) →
    Value.EverywhereItems Value.DistinctKeys (eraseItems ts) → settleItems ts = ts
  | [], _ => rfl
  | t :: ts, h => by
    rw [settleItems, settle_eq t h.1, settleItems_eq ts h.2]

theorem settlePairs_eq : (pairs : List (Trace × Trace)) →
    Value.EverywhereEntries Value.DistinctKeys (erasePairs pairs) → settlePairs pairs = pairs
  | [], _ => rfl
  | (key, t) :: rest, h => by
    rw [settlePairs, settle_eq key h.1, settle_eq t h.2.1, settlePairs_eq rest h.2.2]

end

end Trace

end Hessian
