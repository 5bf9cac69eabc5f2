import Hessian.Proofs.Value.Norm
import Hessian.Value.Access

/-!
# What limits a value

The sessions limit how deep a value may be nested (`Value.height`) and what its references refer to
(`Value.Grounded`), and they ask of each of its containers by itself that it can be written
(`Value.Titled`, `Value.Filled`, `Value.Short`).  `Value.size` counts all the values in a value and
is a bound of everything else that can be counted in it.
-/

namespace Hessian.Value

/-! ## Height and size -/

mutual

/-- How many levels of containers there are in a value. -/
def height : Value → Nat
  | .list _ items => heightOfItems items + 1
  | .map _ entries => heightOfEntries entries + 1
  | .object _ fields => heightOfItems fields + 1
  | _ => 0

def heightOfItems : List Value → Nat
  | [] => 0
  | v :: vs => max (height v) (heightOfItems vs)

def heightOfEntries : Entries → Nat
  | [] => 0
  | (key, v) :: rest => max (height key) (max (height v) (heightOfEntries rest))

end

mutual

/-- How many values there are in a value, itself included. -/
def size : Value → Nat
  | .list _ items => sizeOfItems items + 1
  | .map _ entries => sizeOfEntries entries + 1
  | .object _ fields => sizeOfItems fields + 1
  | _ => 1

def sizeOfItems : List Value → Nat
  | [] => 0
  | v :: vs => size v + sizeOfItems vs

def sizeOfEntries : Entries → Nat
  | [] => 0
  | (key, v) :: rest => size key + size v + sizeOfEntries rest

end

theorem heightOfItems_le {vs : List Value} {n : Nat} :
    heightOfItems vs ≤ n ↔ ∀ v ∈ vs, v.height ≤ n := by
  induction vs with
  | nil => simp [heightOfItems]
  | cons v vs ih => rw [heightOfItems, Nat.max_le, ih, List.forall_mem_cons]

theorem heightOfEntries_le {entries : Entries} {n : Nat} :
    heightOfEntries entries ≤ n ↔ ∀ entry ∈ entries, entry.1.height ≤ n ∧ entry.2.height ≤ n := by
  induction entries with
  | nil => simp [heightOfEntries]
  | cons entry entries ih =>
    rw [heightOfEntries, Nat.max_le, Nat.max_le, ih, List.forall_mem_cons, and_assoc]

theorem sizeOfEntries_eq_sum (entries : Entries) :
    sizeOfEntries entries = (entries.map fun entry => entry.1.size + entry.2.size).sum := by
  induction entries with
  | nil => rfl
  | cons entry entries ih => rw [sizeOfEntries, ih, List.map_cons, List.sum_cons]

theorem one_le_size (v : Value) : 1 ≤ v.size := by
  cases v <;> unfold size <;> omega

/-- Each item counts at least once. -/
theorem length_le_sizeOfItems (vs : List Value) : vs.length ≤ sizeOfItems vs := by
  induction vs with
  | nil => exact Nat.le_refl 0
  | cons v vs ih =>
    have hv := one_le_size v
    rw [sizeOfItems, List.length_cons]
    omega

mutual

/-- Containers are values. -/
theorem length_containers_le : (v : Value) → v.containers.length ≤ v.size
  | .list _ items => Nat.succ_le_succ (length_containersOfItems_le items)
  | .map _ entries => Nat.succ_le_succ (length_containersOfEntries_le entries)
  | .object _ fields => Nat.succ_le_succ (length_containersOfItems_le fields)
  | .null => Nat.zero_le _
  | .boolean _ => Nat.zero_le _
  | .int _ => Nat.zero_le _
  | .long _ => Nat.zero_le _
  | .double _ => Nat.zero_le _
  | .binary _ => Nat.zero_le _
  | .date _ => Nat.zero_le _
  | .string _ => Nat.zero_le _
  | .ref _ => Nat.zero_le _

theorem length_containersOfItems_le : (vs : List Value) →
    (containersOfItems vs).length ≤ sizeOfItems vs
  | [] => Nat.le_refl 0
  | v :: vs => by
    rw [containersOfItems, List.length_append, sizeOfItems]
    exact Nat.add_le_add (length_containers_le v) (length_containersOfItems_le vs)

theorem length_containersOfEntries_le : (entries : Entries) →
    (containersOfEntries entries).length ≤ sizeOfEntries entries
  | [] => Nat.le_refl 0
  | (key, v) :: rest => by
    rw [containersOfEntries, List.length_append, List.length_append, sizeOfEntries]
    exact Nat.add_le_add (Nat.add_le_add (length_containers_le key) (length_containers_le v))
      (length_containersOfEntries_le rest)

end

/-! ## Values without parts -/

/-- A value in which there is no container is none. -/
theorem height_of_plain {v : Value} (h : v.containers = []) : v.height = 0 := by
  cases v <;> first | rfl | cases h

theorem size_of_plain {v : Value} (h : v.containers = []) : v.size = 1 := by
  cases v <;> first | rfl | cases h

/-! ## References -/

mutual

/-- Every reference is to a container that starts before it, where `n` of them start before the
value itself. -/
def Grounded (n : Nat) : Value → Prop
  | .ref index => index.toNat < n
  | .list _ items => GroundedItems (n + 1) items
  | .map _ entries => GroundedEntries (n + 1) entries
  | .object _ fields => GroundedItems (n + 1) fields
  | _ => True

def GroundedItems (n : Nat) : List Value → Prop
  | [] => True
  | v :: vs => Grounded n v ∧ GroundedItems (n + v.containers.length) vs

def GroundedEntries (n : Nat) : Entries → Prop
  | [] => True
  | (key, v) :: rest => Grounded n key ∧ Grounded (n + key.containers.length) v ∧
    GroundedEntries (n + key.containers.length + v.containers.length) rest

end

/-- A value that neither has containers nor refers to one is grounded anywhere. -/
theorem grounded_of_plain {v : Value} (h : v.containers = []) (hr : v.ref? = none) (n : Nat) :
    v.Grounded n := by
  cases v <;> trivial

/-! ## Containers that can be written -/

/-- A type that is there is not empty. -/
def Titled : Value → Prop
  | .list type _ => type ≠ some ""
  | .map type _ => type ≠ some ""
  | _ => True

/-- A class instance has a value for every field. -/
def Filled : Value → Prop
  | .object c fields => fields.length = c.fieldNames.length
  | _ => True

theorem filled_of_plain {v : Value} (h : v.containers = []) : v.Everywhere Filled := by
  cases v <;> trivial

/-- The length of a list fits an int. -/
def Short : Value → Prop
  | .list _ items => items.length < 2 ^ 31
  | _ => True

/-- A container can be written by itself. -/
def Writable (v : Value) : Prop := v.Titled ∧ v.Filled ∧ v.Short

theorem writable_of_plain {v : Value} (h : v.containers = []) : v.Everywhere Writable := by
  cases v <;> first | exact ⟨trivial, trivial, trivial⟩ | cases h

/-! ## Properties of all parts -/

section Everywhere

variable {P Q : Value → Prop}

theorem everywhereItems_iff {vs : List Value} :
    EverywhereItems P vs ↔ ∀ v ∈ vs, v.Everywhere P := by
  induction vs with
  | nil => simp [EverywhereItems]
  | cons v vs ih => rw [EverywhereItems, ih, List.forall_mem_cons]

theorem everywhereEntries_iff {entries : Entries} :
    EverywhereEntries P entries ↔
      ∀ entry ∈ entries, entry.1.Everywhere P ∧ entry.2.Everywhere P := by
  induction entries with
  | nil => simp [EverywhereEntries]
  | cons entry entries ih =>
    rw [EverywhereEntries, ih, List.forall_mem_cons, and_assoc]

mutual

/-- Two properties hold everywhere if each of them does. -/
theorem everywhere_and : (v : Value) →
    (v.Everywhere (fun w => P w ∧ Q w) ↔ v.Everywhere P ∧ v.Everywhere Q)
  | .list type items => by
    rw [Everywhere, Everywhere, Everywhere, everywhereItems_and items]
    exact and_and_and_comm
  | .map type entries => by
    rw [Everywhere, Everywhere, Everywhere, everywhereEntries_and entries]
    exact and_and_and_comm
  | .object c fields => by
    rw [Everywhere, Everywhere, Everywhere, everywhereItems_and fields]
    exact and_and_and_comm
  | .null => Iff.rfl
  | .boolean _ => Iff.rfl
  | .int _ => Iff.rfl
  | .long _ => Iff.rfl
  | .double _ => Iff.rfl
  | .binary _ => Iff.rfl
  | .date _ => Iff.rfl
  | .string _ => Iff.rfl
  | .ref _ => Iff.rfl

theorem everywhereItems_and : (vs : List Value) →
    (EverywhereItems (fun w => P w ∧ Q w) vs ↔ EverywhereItems P vs ∧ EverywhereItems Q vs)
  | [] => Iff.symm (and_self_iff)
  | v :: vs => by
    rw [EverywhereItems, EverywhereItems, EverywhereItems, everywhere_and v,
      everywhereItems_and vs]
    exact and_and_and_comm

theorem everywhereEntries_and : (entries : Entries) →
    (EverywhereEntries (fun w => P w ∧ Q w) entries ↔
      EverywhereEntries P entries ∧ EverywhereEntries Q entries)
  | [] => Iff.symm (and_self_iff)
  | (key, v) :: rest => by
    rw [EverywhereEntries, EverywhereEntries, EverywhereEntries, everywhere_and key,
      everywhere_and v, everywhereEntries_and rest, and_and_and_comm (b := v.Everywhere Q)]
    exact and_and_and_comm

end

end Everywhere

theorem everywhere_writable {v : Value} : v.Everywhere Writable ↔
    v.Everywhere Titled ∧ v.Everywhere Filled ∧ v.Everywhere Short :=
  (everywhere_and v).trans (and_congr_right' (everywhere_and v))

mutual

/-- A list in a value is not longer than the value is large. -/
theorem everywhere_short : (v : Value) → v.size ≤ 2 ^ 31 → v.Everywhere Short
  | .list type items, h => by
    have hl := length_le_sizeOfItems items
    rw [size] at h
    exact ⟨Nat.lt_of_le_of_lt hl h, everywhereItems_short items (Nat.le_of_succ_le h)⟩
  | .map type entries, h => by
    rw [size] at h
    exact ⟨trivial, everywhereEntries_short entries (Nat.le_of_succ_le h)⟩
  | .object c fields, h => by
    rw [size] at h
    exact ⟨trivial, everywhereItems_short fields (Nat.le_of_succ_le h)⟩
  | .null, _ => trivial
  | .boolean _, _ => trivial
  | .int _, _ => trivial
  | .long _, _ => trivial
  | .double _, _ => trivial
  | .binary _, _ => trivial
  | .date _, _ => trivial
  | .string _, _ => trivial
  | .ref _, _ => trivial

theorem everywhereItems_short : (vs : List Value) → sizeOfItems vs ≤ 2 ^ 31 →
    EverywhereItems Short vs
  | [], _ => trivial
  | v :: vs, h => by
    rw [sizeOfItems] at h
    exact ⟨everywhere_short v (by omega), everywhereItems_short vs (by omega)⟩

theorem everywhereEntries_short : (entries : Entries) → sizeOfEntries entries ≤ 2 ^ 31 →
    EverywhereEntries Short entries
  | [], _ => trivial
  | (key, v) :: rest, h => by
    rw [sizeOfEntries] at h
    exact ⟨everywhere_short key (by omega), everywhere_short v (by omega),
      everywhereEntries_short rest (by omega)⟩

end

end Hessian.Value
