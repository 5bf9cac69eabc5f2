import Hessian.Proofs.Value.Measure

/-!
# The parts of a value

The parts of a container are what stands in it one level down.  A container in a value is the value
or is in one of its parts, so what is shown of a value from its parts is shown of a container along
the way to it: `Value.containers_induction`.
-/

namespace Hessian.Value

/-- The items of a list, the keys and values of a map, the fields of a class instance. -/
def parts : Value → List Value
  | .list _ items => items
  | .map _ entries => entries.flatMap fun entry => [entry.1, entry.2]
  | .object _ fields => fields
  | _ => []

theorem mem_parts_map {type : Option String} {entries : Entries} {u : Value} :
    u ∈ (map type entries).parts ↔ ∃ entry ∈ entries, u = entry.1 ∨ u = entry.2 := by
  simp [parts]

theorem containersOfItems_eq_flatMap (vs : List Value) :
    containersOfItems vs = vs.flatMap containers := by
  induction vs with
  | nil => rfl
  | cons v vs ih => rw [containersOfItems, ih, List.flatMap_cons]

theorem containersOfEntries_eq_flatMap (type : Option String) (entries : Entries) :
    containersOfEntries entries = (map type entries).parts.flatMap containers := by
  induction entries with
  | nil => rfl
  | cons entry entries ih =>
    rw [containersOfEntries, ih, List.append_assoc]
    rfl

/-- A container in a value is the value or is in one of its parts. -/
theorem eq_or_exists_of_mem_containers {v w : Value} (h : w ∈ v.containers) :
    w = v ∨ ∃ u ∈ v.parts, w ∈ u.containers := by
  cases v with
  | list type items =>
    rw [containers, containersOfItems_eq_flatMap] at h
    exact (List.mem_cons.mp h).imp_right List.mem_flatMap.mp
  | map type entries =>
    rw [containers, containersOfEntries_eq_flatMap type] at h
    exact (List.mem_cons.mp h).imp_right List.mem_flatMap.mp
  | object c fields =>
    rw [containers, containersOfItems_eq_flatMap] at h
    exact (List.mem_cons.mp h).imp_right List.mem_flatMap.mp
  | null | boolean | int | long | double | binary | date | string | ref => cases h

theorem size_le_sizeOfItems {vs : List Value} {u : Value} (h : u ∈ vs) :
    u.size ≤ sizeOfItems vs := by
  induction vs with
  | nil => cases h
  | cons v vs ih =>
    rw [sizeOfItems]
    rcases List.mem_cons.mp h with rfl | h
    · exact Nat.le_add_right _ _
    · exact Nat.le_add_left_of_le (ih h)

theorem size_le_sizeOfEntries {entries : Entries} {entry : Value × Value} (h : entry ∈ entries) :
    entry.1.size + entry.2.size ≤ sizeOfEntries entries := by
  induction entries with
  | nil => cases h
  | cons entry entries ih =>
    rw [sizeOfEntries]
    rcases List.mem_cons.mp h with rfl | h
    · exact Nat.le_add_right _ _
    · exact Nat.le_add_left_of_le (ih h)

/-- A part is smaller than the value. -/
theorem size_lt_of_mem_parts {u v : Value} (h : u ∈ v.parts) : u.size < v.size := by
  cases v with
  | list type items => exact Nat.lt_succ_of_le (size_le_sizeOfItems h)
  | map type entries =>
    obtain ⟨entry, hentry, h⟩ := mem_parts_map.mp h
    have hle := size_le_sizeOfEntries hentry
    rw [size]
    rcases h with rfl | rfl <;> omega
  | object c fields => exact Nat.lt_succ_of_le (size_le_sizeOfItems h)
  | null | boolean | int | long | double | binary | date | string | ref => cases h

/-- The induction on the way from a value down to a container in it. -/
theorem containers_induction {w : Value} {P : Value → Prop} (self : P w)
    (part : ∀ v, ∀ u ∈ v.parts, w ∈ u.containers → P u → P v) (v : Value)
    (h : w ∈ v.containers) : P v := by
  induction hn : v.size using Nat.strongRecOn generalizing v with
  | ind n ih =>
    rcases eq_or_exists_of_mem_containers h with rfl | ⟨u, hu, hw⟩
    · exact self
    · exact part v u hu hw (ih u.size (hn ▸ size_lt_of_mem_parts hu) u hw rfl)

section Everywhere

variable {P : Value → Prop}

/-- What holds everywhere in a value holds everywhere in its parts. -/
theorem Everywhere.parts {v : Value} (h : v.Everywhere P) : ∀ u ∈ v.parts, u.Everywhere P := by
  cases v with
  | list type items => exact everywhereItems_iff.mp h.2
  | map type entries =>
    intro u hu
    obtain ⟨entry, hentry, rfl | rfl⟩ := mem_parts_map.mp hu
    · exact (everywhereEntries_iff.mp h.2 entry hentry).1
    · exact (everywhereEntries_iff.mp h.2 entry hentry).2
  | object c fields => exact everywhereItems_iff.mp h.2
  | null | boolean | int | long | double | binary | date | string | ref => intro _ hu; cases hu

/-- What holds everywhere in a value holds of the value. -/
theorem Everywhere.self {v : Value} (h : v.Everywhere P) : P v := by
  cases v with
  | list | map | object => exact h.1
  | null | boolean | int | long | double | binary | date | string | ref => exact h

/-- What holds everywhere in a value holds of its containers. -/
theorem Everywhere.containers {v w : Value} (h : v.Everywhere P) (hw : w ∈ v.containers) : P w := by
  refine containers_induction (P := fun v => v.Everywhere P → P w) (fun h => h.self) ?_ v hw h
  intro v u hu _ ih h
  exact ih (h.parts u hu)

end Everywhere

end Hessian.Value
