import Hessian.Proofs.Schema.Collection
import Hessian.Proofs.Value.Measure
import Hessian.Schema.Reading

/-!
# Values of known shape

A value that was read by someone who did not know its shape can be given that shape afterwards,
`Shape.convert`: integers have to be in range, any form of list is a list and any form of map a
keyed collection, null is the nothing of an option, and a class instance is taken apart by the names
of its fields, of which those that the record does not know are ignored and the last of each name
counts.

As for reading, `convertWith convert` is one layer: it converts the parts one level down by
`convert`.

## Main definitions

* `Shape.convert` : the datum that a value is, in a shape.

## Main statements

* `Shape.convert_eq` : a conversion is a layer whose parts are conversions.
* `Shape.convertWith_list_of_forall₂`, `Shape.convertWith_map_of_forall₂`,
  `Shape.convertWith_option` : conversion of what has parts.
-/

namespace Hessian

/-- The key that a value is in a collection. -/
def Mapping.key? : Mapping → Value → Option Key
  | .sortedText, .string s => some (.text s)
  | .sortedLong, .long n => some (.long n)
  | .text, .string s => some (.text s)
  | .value, v => some (.value v)
  | _, _ => none

section Convert

variable {ι : Type}

/-- What a field of a record is where a class instance holds the values `found`. -/
def Field.convertWith (convert : Shape ι → Value → Option (Datum ι))
    (found : List (String × Value)) (f : Field ι) : Option (Datum ι) :=
  match f.presence with
  | .skipped d => some d
  | .defaulted d =>
    match found.lookup f.wireName with
    | some v => convert f.shape v
    | none => some d
  | .required =>
    match found.lookup f.wireName with
    | some v => convert f.shape v
    | none => none

/-- The fields of a record from the values of a class instance, of which the last of a name
counts. -/
def Record.convertWith (r : Record ι) (convert : Shape ι → Value → Option (Datum ι))
    (c : Definition) (values : List Value) : Option (List (Datum ι)) :=
  r.fields.mapM (Field.convertWith convert (c.fieldNames.zip values).reverse)

namespace Shape

variable (Γ : Schema ι)

/-- The datum that a value is in a shape, its parts one level down being converted by `convert`. -/
def convertWith (convert : Shape ι → Value → Option (Datum ι)) :
    Shape ι → Value → Option (Datum ι)
  | .boolean, .boolean b => some (.boolean b)
  | .int range, .int n =>
    if range.least ≤ n.toInt ∧ n.toInt ≤ range.greatest then some (.int n) else none
  | .long range, .long n =>
    if range.least ≤ n.toInt ∧ n.toInt ≤ range.greatest then some (.long n) else none
  | .double, .double d => some (.double d)
  | .single, .double d => some (.single d.toSingle)
  | .text, .string s => some (.text s)
  | .bytes, .binary b => some (.bytes b)
  | .option _, .null => some .absent
  | .option shape, v => do
    let d ← convertWith convert shape v
    return .present d
  | .list item, .list _ items => do
    let data ← items.mapM (convert item)
    return .list data
  | .map mapping item, .map _ entries => do
    let pairs ← entries.mapM fun entry => do
      let k ← mapping.key? entry.1
      let d ← convert item entry.2
      return (k, d)
    return .map (mapping.ofPairs pairs)
  | .date unit, .date millis => some (.date unit (unit.ofMillis millis))
  | .instant clock, .date millis => do
    let t ← Instant.ofMillis? clock millis
    return .instant clock t
  | .value, v => some (.value v)
  | .json, v =>
    match v.toJson with
    | .ok j => some (.json j)
    | .error _ => none
  | .record name, .object c values => do
    let fields ← (Γ name).convertWith convert c values
    return .record name fields
  | _, _ => none

/-- The datum that a value of at most so many levels is in a shape. -/
def convertWithin : (levels : Nat) → Shape ι → Value → Option (Datum ι)
  | 0 => convertWith Γ fun _ _ => none
  | levels + 1 => convertWith Γ (convertWithin levels)

/-- The datum that a value is in a shape. -/
def convert (shape : Shape ι) (v : Value) : Option (Datum ι) := convertWithin Γ v.height shape v

end Shape

end Convert

/-! ## Lists that are mapped one by one -/

/-- Elements that are mapped to the same are mapped to the same together. -/
theorem mapM_congr_of_mem {α β : Type} {f g : α → Option β} {l : List α}
    (h : ∀ a ∈ l, f a = g a) : l.mapM f = l.mapM g := by
  induction l with
  | nil => rfl
  | cons a l ih =>
    obtain ⟨ha, hl⟩ := List.forall_mem_cons.mp h
    rw [List.mapM_cons, List.mapM_cons, ha, ih hl]

/-- Elements that are mapped to others one by one. -/
theorem mapM_of_forall₂ {α β : Type} {f : α → Option β} {l : List α} {results : List β}
    (h : List.Forall₂ (fun b a => f a = some b) results l) : l.mapM f = some results := by
  induction h with
  | nil => rfl
  | cons hb hrest ih =>
    rw [List.mapM_cons, hb, ih]
    rfl

/-- Results of one kind of failure are results of another. -/
theorem mapM_of_mapM_ok {α β ε : Type} {f : α → Except ε β} {g : α → Option β} {l : List α}
    {results : List β} (h : l.mapM f = .ok results)
    (hg : ∀ a ∈ l, ∀ b, f a = .ok b → g a = some b) : l.mapM g = some results := by
  induction l generalizing results with
  | nil =>
    obtain rfl := Except.ok.inj h
    rfl
  | cons a l ih =>
    rw [List.mapM_cons] at h
    cases ha : f a with
    | error e =>
      rw [ha] at h
      cases h
    | ok b =>
      cases hl : l.mapM f with
      | error e =>
        rw [ha, hl] at h
        cases h
      | ok rest =>
        rw [ha, hl] at h
        obtain rfl := Except.ok.inj h
        rw [List.mapM_cons, hg a List.mem_cons_self b ha,
          ih hl fun a hm => hg a (List.mem_cons_of_mem _ hm)]
        rfl

/-! ## Layers of conversion -/

section Layers

variable {ι : Type} {f g : Shape ι → Value → Option (Datum ι)}

/-- What a field is depends on how the values that are there are converted. -/
theorem Field.convertWith_congr {found : List (String × Value)} (field : Field ι)
    (h : ∀ shape, ∀ pair ∈ found, f shape pair.2 = g shape pair.2) :
    field.convertWith f found = field.convertWith g found := by
  have hlookup (v : Value) (hv : found.lookup field.wireName = some v) :
      f field.shape v = g field.shape v := by
    obtain ⟨front, back, rfl, -⟩ := List.lookup_eq_some_iff.mp hv
    exact h field.shape (field.wireName, v) (List.mem_append_right front List.mem_cons_self)
  unfold Field.convertWith
  cases hl : found.lookup field.wireName with
  | none => rfl
  | some v => simp only [hlookup v hl]

namespace Shape

variable (Γ : Schema ι)

/-- A layer depends on how the values one level down are converted. -/
theorem convertWith_congr {v : Value}
    (h : ∀ shape (part : Value), part.height < v.height → f shape part = g shape part)
    (shape : Shape ι) : convertWith Γ f shape v = convertWith Γ g shape v := by
  induction shape with
  | option shape ih =>
    cases v with
    | null => rfl
    | _ => exact congrArg (· >>= fun d => some (Datum.present d)) ih
  | list item =>
    cases v with
    | list type items =>
      have hitems (part : Value) (hm : part ∈ items) : f item part = g item part := by
        have hle : part.height ≤ Value.heightOfItems items :=
          Value.heightOfItems_le.mp (Nat.le_refl _) part hm
        exact h item part (Nat.lt_succ_of_le hle)
      rw [convertWith, convertWith, mapM_congr_of_mem hitems]
    | _ => rfl
  | map mapping item =>
    cases v with
    | map type entries =>
      have hentries (entry : Value × Value) (hm : entry ∈ entries) :
          f item entry.2 = g item entry.2 := by
        have hle : entry.2.height ≤ Value.heightOfEntries entries :=
          (Value.heightOfEntries_le.mp (Nat.le_refl _) entry hm).2
        exact h item entry.2 (Nat.lt_succ_of_le hle)
      rw [convertWith, convertWith]
      rw [mapM_congr_of_mem fun entry hm => by rw [hentries entry hm]]
    | _ => rfl
  | record name =>
    cases v with
    | object c values =>
      have hvalues (shape : Shape ι) (pair : String × Value)
          (hm : pair ∈ (c.fieldNames.zip values).reverse) : f shape pair.2 = g shape pair.2 := by
        have hin : pair.2 ∈ values := (List.of_mem_zip (List.mem_reverse.mp hm)).2
        have hle : pair.2.height ≤ Value.heightOfItems values :=
          Value.heightOfItems_le.mp (Nat.le_refl _) pair.2 hin
        exact h shape pair.2 (Nat.lt_succ_of_le hle)
      rw [convertWith, convertWith, Record.convertWith, Record.convertWith,
        mapM_congr_of_mem fun field _ => Field.convertWith_congr field hvalues]
    | _ => rfl
  | _ => cases v <;> rfl

/-- Any number of levels will do that is at least those of the value. -/
theorem convertWithin_eq {n m : Nat} {v : Value} (hn : v.height ≤ n) (hm : v.height ≤ m)
    (shape : Shape ι) : convertWithin Γ n shape v = convertWithin Γ m shape v := by
  induction n generalizing m v shape with
  | zero =>
    cases m with
    | zero => rfl
    | succ m => exact convertWith_congr Γ (fun _ part hlt => by omega) shape
  | succ n ih =>
    cases m with
    | zero => exact convertWith_congr Γ (fun _ part hlt => by omega) shape
    | succ m =>
      refine convertWith_congr Γ (fun shape part hlt => ?_) shape
      exact ih (by omega) (by omega) shape

/-- A conversion is a layer whose parts are conversions. -/
theorem convert_eq (shape : Shape ι) (v : Value) :
    shape.convert Γ v = convertWith Γ (convert Γ) shape v := by
  calc shape.convert Γ v
    _ = convertWithin Γ (v.height + 1) shape v :=
      convertWithin_eq Γ (Nat.le_refl _) (Nat.le_succ _) shape
    _ = convertWith Γ (convert Γ) shape v := by
      refine convertWith_congr Γ (fun shape part hlt => ?_) shape
      exact convertWithin_eq Γ (Nat.le_of_lt hlt) (Nat.le_refl _) shape

end Shape

end Layers

/-! ## Parts that are converted -/

namespace Mapping

variable {m : Mapping} {k l : Key} {v w : Value}

/-- A collection has the keys that it makes of values. -/
theorem owns_of_key? (h : m.key? v = some k) : m.Owns k := by
  cases m <;> cases v <;> cases h <;> exact trivial

/-- Keys are equal if the values that they are made of are. -/
theorem beq_of_key? (hk : m.key? v = some k) (hl : m.key? w = some l) : (k == l) = (v == w) := by
  cases m <;> cases v <;> cases hk <;> cases w <;> cases hl <;> rfl

end Mapping

namespace Shape

variable {ι : Type} (Γ : Schema ι) {convert : Shape ι → Value → Option (Datum ι)}

/-- What is not null is the something of an option. -/
theorem convertWith_option {shape : Shape ι} {v : Value} {d : Datum ι} (hv : v ≠ .null)
    (h : convertWith Γ convert shape v = some d) :
    convertWith Γ convert (.option shape) v = some (.present d) := by
  have hlayer : convertWith Γ convert (.option shape) v =
      convertWith Γ convert shape v >>= fun d => some (.present d) := by
    cases v <;> first | rfl | exact absurd rfl hv
  rw [hlayer, h]
  rfl

theorem convertWith_list_of_forall₂ {item : Shape ι} {type : Option String} {items : List Value}
    {data : List (Datum ι)} (h : List.Forall₂ (fun d v => convert item v = some d) data items) :
    convertWith Γ convert (.list item) (.list type items) = some (.list data) := by
  rw [convertWith, mapM_of_forall₂ h]
  rfl

/-- Pairs may be converted before or after those of equal keys are put together. -/
theorem convertWith_map_of_forall₂ {mapping : Mapping} {item : Shape ι} {type : Option String}
    {pairs : List (Value × Value)} {data : List (Key × Datum ι)}
    (h : List.Forall₂ (fun p q => mapping.key? q.1 = some p.1 ∧ convert item q.2 = some p.2)
      data pairs) :
    convertWith Γ convert (.map mapping item) (.map type (Entries.ofPairs pairs)) =
      some (.map (mapping.ofPairs data)) := by
  have howns : ∀ pair ∈ data, mapping.Owns pair.1 := by
    intro pair hm
    obtain ⟨i, hi, rfl⟩ := List.getElem_of_mem hm
    exact Mapping.owns_of_key? (h.get hi (h.length_eq ▸ hi)).1
  have hcollected : List.Forall₂ (fun p q => mapping.key? q.1 = some p.1 ∧
      convert item q.2 = some p.2) (Pairs.collect (· == ·) data) (Entries.ofPairs pairs) :=
    Pairs.forall₂_collect (K := fun k v => mapping.key? v = some k)
      (R := fun d v => convert item v = some d)
      (fun k l v w hk hl => Mapping.beq_of_key? hk hl) h
  have hentry : List.Forall₂ (fun (p : Key × Datum ι) (q : Value × Value) =>
      (do
        let k ← mapping.key? q.1
        let d ← convert item q.2
        return (k, d)) = some p) (Pairs.collect (· == ·) data) (Entries.ofPairs pairs) := by
    refine hcollected.imp fun p q hpq => ?_
    rw [hpq.1, hpq.2]
    rfl
  rw [convertWith, mapM_of_forall₂ hentry, ← mapping.ofPairs_collect howns]
  rfl

end Shape

end Hessian
