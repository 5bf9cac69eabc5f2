import Hessian.Proofs.Double.Whole
import Hessian.Proofs.Pairs
import Hessian.Value.Basic

/-!
# What comes back of a value

`Value.norm` is the value that is read where a value has been written: negative zeros have become
positive ones, and the entries of maps have been inserted one after another.  There is nothing to
change in a value that holds no negative zero and in whose maps no key stands twice (`norm_eq`).
-/

namespace Hessian

namespace Value

mutual

/-- The value that comes back. -/
def norm : Value → Value
  | .double d => .double d.norm
  | .list type items => .list type (normItems items)
  | .map type entries => .map type (Entries.ofPairs (normEntries entries))
  | .object c fields => .object c (normItems fields)
  | .null => .null
  | .boolean b => .boolean b
  | .int n => .int n
  | .long n => .long n
  | .binary bytes => .binary bytes
  | .date millis => .date millis
  | .string s => .string s
  | .ref index => .ref index

/-- The items that come back. -/
def normItems : List Value → List Value
  | [] => []
  | v :: vs => norm v :: normItems vs

/-- The pairs that come back, before they are inserted. -/
def normEntries : Entries → Entries
  | [] => []
  | (key, v) :: rest => (norm key, norm v) :: normEntries rest

end

mutual

/-- The property holds of the value and of all its parts at every depth. -/
def Everywhere (P : Value → Prop) : Value → Prop
  | .list type items => P (.list type items) ∧ EverywhereItems P items
  | .map type entries => P (.map type entries) ∧ EverywhereEntries P entries
  | .object c fields => P (.object c fields) ∧ EverywhereItems P fields
  | v => P v

/-- The property holds everywhere in the items. -/
def EverywhereItems (P : Value → Prop) : List Value → Prop
  | [] => True
  | v :: vs => Everywhere P v ∧ EverywhereItems P vs

/-- The property holds everywhere in the keys and values of the entries. -/
def EverywhereEntries (P : Value → Prop) : Entries → Prop
  | [] => True
  | (key, v) :: rest => Everywhere P key ∧ Everywhere P v ∧ EverywhereEntries P rest

end

end Value

/-- No key stands twice. -/
def Entries.Distinct (entries : Entries) : Prop := Pairs.Distinct (· == ·) entries

namespace Value

/-- A map has no key twice. -/
def DistinctKeys : Value → Prop
  | .map _ entries => Entries.Distinct entries
  | _ => True

/-- There is no negative zero in the value. -/
def NoNegZero (v : Value) : Prop := v.Everywhere (· ≠ .double .negZero)

/-- The keys of each map in the value are distinct. -/
def Proper (v : Value) : Prop := v.Everywhere DistinctKeys

mutual

/-- A value in which there is nothing to change comes back as it is. -/
theorem norm_eq : (v : Value) → v.NoNegZero → v.Proper → v.norm = v
  | .double d, hz, _ => by
    have hd : d ≠ .negZero := fun h => hz (congrArg Value.double h)
    rw [norm, Double.norm, if_neg hd]
  | .list type items, hz, hp => by
    rw [norm, normItems_eq items hz.2 hp.2]
  | .map type entries, hz, hp => by
    rw [norm, normEntries_eq entries hz.2 hp.2, Entries.ofPairs, Pairs.collect_of_distinct hp.1]
  | .object c fields, hz, hp => by
    rw [norm, normItems_eq fields hz.2 hp.2]
  | .null, _, _ => rfl
  | .boolean _, _, _ => rfl
  | .int _, _, _ => rfl
  | .long _, _, _ => rfl
  | .binary _, _, _ => rfl
  | .date _, _, _ => rfl
  | .string _, _, _ => rfl
  | .ref _, _, _ => rfl

theorem normItems_eq : (vs : List Value) → EverywhereItems (· ≠ .double .negZero) vs →
    EverywhereItems DistinctKeys vs → normItems vs = vs
  | [], _, _ => rfl
  | v :: vs, hz, hp => by
    rw [normItems, norm_eq v hz.1 hp.1, normItems_eq vs hz.2 hp.2]

theorem normEntries_eq : (entries : Entries) →
    EverywhereEntries (· ≠ .double .negZero) entries → EverywhereEntries DistinctKeys entries →
    normEntries entries = entries
  | [], _, _ => rfl
  | (key, v) :: rest, hz, hp => by
    rw [normEntries, norm_eq key hz.1 hp.1, norm_eq v hz.2.1 hp.2.1,
      normEntries_eq rest hz.2.2 hp.2.2]

end

theorem normItems_eq_map (vs : List Value) : normItems vs = vs.map norm := by
  induction vs with
  | nil => rfl
  | cons v vs ih => rw [normItems, ih, List.map_cons]

theorem length_normItems (vs : List Value) : (normItems vs).length = vs.length := by
  rw [normItems_eq_map, List.length_map]

end Value

end Hessian
