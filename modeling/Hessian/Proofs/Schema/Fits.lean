import Hessian.Proofs.Schema.Collection
import Hessian.Proofs.Schema.Image
import Hessian.Proofs.Value.Norm

/-!
# Data of a shape, and what comes back of them

A shape says what its data look like, `Datum.Fits`.  What is read where such a datum has been
written does not depend on the shape.  Two things happen to it.

An option is written as what it has, and nothing as null.  So an option of null is read as nothing,
`Datum.flat`.  This takes an option of something that may itself be null; in the shapes without one
it makes no difference (`Datum.Fits.norm_flat`).

What is left after that is `Datum.norm`: negative zeros have become positive ones, as in values, and
fields that are not on the wire are their default.  There is nothing to change in a datum that holds
none of these (`Datum.norm_eq`).

## Main definitions

* `Datum.Fits` : the data of a shape that can be read back.
* `Shape.tellsNull` : the shapes in which null is nothing but the nothing of an option.
* `Datum.flat`, `Datum.norm` : what comes back of a datum.
* `Datum.Settled` : the data in which there is nothing to change.
-/

namespace Hessian

namespace Key

/-- The key that comes back. -/
def norm : Key → Key
  | .value v => .value v.norm
  | k => k

/-- There is nothing to change in a key. -/
def Settled : Key → Prop
  | .value v => v.NoNegZero ∧ v.Proper
  | _ => True

theorem norm_eq {k : Key} (h : k.Settled) : k.norm = k := by
  cases k with
  | value v => exact congrArg Key.value (v.norm_eq h.1 h.2)
  | _ => rfl

/-- The order of keys is that of what comes back of them. -/
theorem before_norm (k l : Key) : k.norm.before l.norm = k.before l := by
  cases k <;> cases l <;> rfl

end Key

variable {ι : Type}

namespace Field

/-- What comes back of a field, where the datum would come back of what it is. -/
def returned (f : Field ι) (d : Datum ι) : Datum ι :=
  match f.presence with
  | .skipped default => default
  | _ => d

/-- What comes back of a field that is not on the wire does not depend on what it was. -/
theorem returned_congr {f : Field ι} (h : f.onWire = false) (d d' : Datum ι) :
    f.returned d = f.returned d' := by
  unfold onWire at h
  unfold returned
  cases hp : f.presence with
  | skipped default => rfl
  | _ =>
    rw [hp] at h
    cases h

end Field

namespace Shape

/-- Whether something of the shape can be null by itself. -/
def nullable : Shape ι → Bool
  | .option _ | .value | .json => true
  | _ => false

/-- Whether no option in the shape is one of something that can be null by itself. -/
def tellsNull : Shape ι → Bool
  | .option shape => !shape.nullable && shape.tellsNull
  | .list item => item.tellsNull
  | .map _ item => item.tellsNull
  | _ => true

end Shape

/-- The fields on the wire are of such shapes. -/
def Record.TellsNull (r : Record ι) : Prop :=
  ∀ f ∈ r.fields, f.onWire = true → f.shape.tellsNull = true

/-- In the records of the catalog every option is one of something that is not null. -/
theorem Catalog.tellsNull (name : Catalog) : (schema name).TellsNull := by
  unfold Record.TellsNull
  cases name <;> decide

namespace Datum

variable (Γ : Schema ι)

/-! ## Data of a shape -/

/-- The datum is one of the shape.  Of fields that are not on the wire nothing is asked. -/
inductive Fits : Datum ι → Shape ι → Prop
  | boolean (b : Bool) : Fits (.boolean b) .boolean
  | int {range : IntRange} {n : Int32} (least : range.least ≤ n.toInt)
      (greatest : n.toInt ≤ range.greatest) : Fits (.int n) (.int range)
  | long {range : LongRange} {n : Int64} (least : range.least ≤ n.toInt)
      (greatest : n.toInt ≤ range.greatest) : Fits (.long n) (.long range)
  | double (d : Double) : Fits (.double d) .double
  | text (s : String) : Fits (.text s) .text
  | bytes (b : Bytes) : Fits (.bytes b) .bytes
  | absent (shape : Shape ι) : Fits .absent (.option shape)
  | present {d : Datum ι} {shape : Shape ι} (some : Fits d shape) :
      Fits (.present d) (.option shape)
  | list {items : List (Datum ι)} {item : Shape ι} (all : ∀ d ∈ items, Fits d item) :
      Fits (.list items) (.list item)
  | map {mapping : Mapping} {entries : List (Key × Datum ι)} {item : Shape ι}
      (order : mapping.InOrder entries) (keys : ∀ entry ∈ entries, mapping.Owns entry.1)
      (all : ∀ entry ∈ entries, Fits entry.2 item) : Fits (.map entries) (.map mapping item)
  | date (unit : DateUnit) (count : Int64) : Fits (.date unit count) (.date unit)
  | value (v : Value) : Fits (.value v) .value
  | record {name : ι} {fields : List (Datum ι)} (length : fields.length = (Γ name).fields.length)
      (all : ∀ field ∈ (Γ name).fields.zip fields, field.1.onWire = true →
        Fits field.2 field.1.shape) : Fits (.record name fields) (.record name)

/-! ## Null -/

/-- Whether a datum is written as null. -/
def isNull : Datum ι → Bool
  | .absent => true
  | .present d => isNull d
  | .value .null => true
  | .json .null => true
  | _ => false

/-- What is written as null. -/
theorem write_of_isNull : (d : Datum ι) → d.isNull = true → d.write Γ = Encode.null
  | .absent, _ => rfl
  | .present d, h => write_of_isNull d h
  | .value .null, _ => rfl
  | .json .null, _ => rfl

theorem Fits.isNull_eq_false {Γ : Schema ι} {d : Datum ι} {shape : Shape ι} (h : d.Fits Γ shape)
    (hs : shape.nullable = false) : d.isNull = false := by
  cases h with
  | absent _ => cases hs
  | present _ => cases hs
  | value _ => cases hs
  | _ => rfl

/-! ## Options of null -/

mutual

/-- The datum in which an option of null is nothing. -/
def flat : Datum ι → Datum ι
  | .present d => if d.isNull then .absent else .present (flat d)
  | .list items => .list (flatItems items)
  | .map entries => .map (flatEntries entries)
  | .record name fields => .record name (flatItems fields)
  | d => d

/-- The items in which an option of null is nothing. -/
def flatItems : List (Datum ι) → List (Datum ι)
  | [] => []
  | d :: rest => flat d :: flatItems rest

/-- The entries in whose items an option of null is nothing. -/
def flatEntries : List (Key × Datum ι) → List (Key × Datum ι)
  | [] => []
  | (k, d) :: rest => (k, flat d) :: flatEntries rest

end

/-- Nothing but null is null if options of it are nothing. -/
theorem isNull_flat (d : Datum ι) : d.flat.isNull = d.isNull := by
  cases d with
  | present d =>
    rw [flat, isNull]
    cases hd : d.isNull with
    | true => rfl
    | false => exact (isNull_flat d).trans hd
  | _ => rfl

theorem flatEntries_eq_map (entries : List (Key × Datum ι)) :
    flatEntries entries = entries.map fun entry => (entry.1, entry.2.flat) := by
  induction entries with
  | nil => rfl
  | cons entry rest ih => rw [flatEntries, ih, List.map_cons]

/-- What is in order stays so, as the keys are the same. -/
theorem inOrder_flatEntries {mapping : Mapping} {entries : List (Key × Datum ι)}
    (h : mapping.InOrder entries) : mapping.InOrder (flatEntries entries) := by
  intro hm
  rw [flatEntries_eq_map, List.pairwise_map]
  exact h hm

/-! ## What comes back -/

mutual

/-- The datum that comes back, where options of null are nothing. -/
def norm : Datum ι → Datum ι
  | .double d => .double d.norm
  | .present d => .present (norm d)
  | .list items => .list (normItems items)
  | .map entries => .map (Pairs.collect (· == ·) (normEntries entries))
  | .value v => .value v.norm
  | .record name fields => .record name (normFields (Γ name).fields fields)
  | d => d

/-- The items that come back. -/
def normItems : List (Datum ι) → List (Datum ι)
  | [] => []
  | d :: rest => norm d :: normItems rest

/-- The entries that come back, before they are inserted. -/
def normEntries : List (Key × Datum ι) → List (Key × Datum ι)
  | [] => []
  | (k, d) :: rest => (k.norm, norm d) :: normEntries rest

/-- The fields that come back, on the wire or not. -/
def normFields : List (Field ι) → List (Datum ι) → List (Datum ι)
  | f :: fields, d :: rest => f.returned (norm d) :: normFields fields rest
  | _, _ => []

end

/-- What comes back is null if it was before. -/
theorem isNull_norm (d : Datum ι) : (d.norm Γ).isNull = d.isNull := by
  cases d with
  | present d => exact isNull_norm d
  | value v => cases v <;> rfl
  | _ => rfl

theorem normEntries_eq_map (entries : List (Key × Datum ι)) :
    normEntries Γ entries = entries.map fun entry => (entry.1.norm, entry.2.norm Γ) := by
  induction entries with
  | nil => rfl
  | cons entry rest ih => rw [normEntries, ih, List.map_cons]

/-- Entries in order come back in order. -/
theorem inOrder_normEntries {mapping : Mapping} {entries : List (Key × Datum ι)}
    (h : mapping.InOrder entries) : mapping.InOrder (normEntries Γ entries) := by
  intro hm
  rw [normEntries_eq_map, List.pairwise_map]
  exact (h hm).imp fun hlt => (Key.before_norm _ _).trans hlt

/-! ## Shapes that tell null -/

variable {Γ}

theorem normItems_flatItems {items : List (Datum ι)}
    (h : ∀ d ∈ items, d.flat.norm Γ = d.norm Γ) :
    normItems Γ (flatItems items) = normItems Γ items := by
  induction items with
  | nil => rfl
  | cons d rest ih =>
    obtain ⟨hd, hrest⟩ := List.forall_mem_cons.mp h
    rw [flatItems, normItems, normItems, hd, ih hrest]

theorem normEntries_flatEntries {entries : List (Key × Datum ι)}
    (h : ∀ entry ∈ entries, entry.2.flat.norm Γ = entry.2.norm Γ) :
    normEntries Γ (flatEntries entries) = normEntries Γ entries := by
  rw [normEntries_eq_map, normEntries_eq_map, flatEntries_eq_map, List.map_map]
  exact List.map_congr_left fun entry hm => congrArg (entry.1.norm, ·) (h entry hm)

/-- Fields that are not on the wire are their default, whatever becomes of them. -/
theorem normFields_flatItems {fields : List (Field ι)} {data : List (Datum ι)}
    (h : ∀ field ∈ fields.zip data, field.1.onWire = true →
      field.2.flat.norm Γ = field.2.norm Γ) :
    normFields Γ fields (flatItems data) = normFields Γ fields data := by
  induction fields generalizing data with
  | nil => cases data <;> rfl
  | cons f fields ih =>
    cases data with
    | nil => rfl
    | cons d rest =>
      obtain ⟨hd, hrest⟩ := List.forall_mem_cons.mp h
      have hf : f.returned (d.flat.norm Γ) = f.returned (d.norm Γ) := by
        cases hw : f.onWire with
        | true => rw [hd hw]
        | false => exact Field.returned_congr hw _ _
      rw [flatItems, normFields, normFields, hf, ih hrest]

/-- What fits a shape that tells null holds no option of null, except in fields that are not on the
wire. -/
theorem Fits.norm_flat (hΓ : ∀ name, (Γ name).TellsNull) {d : Datum ι} {shape : Shape ι}
    (h : d.Fits Γ shape) (hs : shape.tellsNull = true) : d.flat.norm Γ = d.norm Γ := by
  induction h with
  | @present d shape some ih =>
    obtain ⟨hnull, hs⟩ := (Bool.and_eq_true _ _).mp hs
    have hd : d.isNull = false := some.isNull_eq_false ((Bool.not_eq_true' _).mp hnull)
    rw [flat, hd, if_neg Bool.false_ne_true, norm, norm, ih hs]
  | list _ ih => rw [flat, norm, norm, normItems_flatItems fun d hm => ih d hm hs]
  | map _ _ _ ih =>
    rw [flat, norm, norm, normEntries_flatEntries fun entry hm => ih entry hm hs]
  | @record name fields _ _ ih =>
    have hfields : normFields Γ (Γ name).fields (flatItems fields) = _ :=
      normFields_flatItems fun field hm hw =>
        ih field hm hw (hΓ name field.1 (List.of_mem_zip hm).1 hw)
    rw [flat, norm, norm, hfields]
  | _ => rfl

variable (Γ)

/-! ## Nothing to change -/

mutual

/-- There is nothing in a datum that changes. -/
def Settled : Datum ι → Prop
  | .double d => d ≠ .negZero
  | .present d => Settled d
  | .list items => SettledItems items
  | .map entries => Pairs.Distinct (· == ·) entries ∧ SettledEntries entries
  | .value v => v.NoNegZero ∧ v.Proper
  | .record name fields => SettledFields (Γ name).fields fields
  | _ => True

/-- There is nothing in the items that changes. -/
def SettledItems : List (Datum ι) → Prop
  | [] => True
  | d :: rest => Settled d ∧ SettledItems rest

/-- There is nothing in the keys and items of the entries that changes. -/
def SettledEntries : List (Key × Datum ι) → Prop
  | [] => True
  | (k, d) :: rest => k.Settled ∧ Settled d ∧ SettledEntries rest

/-- There is nothing in the fields that changes, and those that are not on the wire are what they
are by default. -/
def SettledFields : List (Field ι) → List (Datum ι) → Prop
  | [], [] => True
  | f :: fields, d :: rest => (f.onWire = true → Settled d) ∧ f.returned d = d ∧
      SettledFields fields rest
  | _, _ => False

end

mutual

/-- A datum in which there is nothing to change comes back as it is. -/
theorem norm_eq : (d : Datum ι) → d.Settled Γ → d.norm Γ = d
  | .double d, h => by rw [norm, Double.norm, if_neg h]
  | .present d, h => by rw [norm, norm_eq d h]
  | .list items, h => by rw [norm, normItems_eq items h]
  | .map entries, h => by rw [norm, normEntries_eq entries h.2, Pairs.collect_of_distinct h.1]
  | .value v, h => by rw [norm, v.norm_eq h.1 h.2]
  | .record name fields, h => by rw [norm, normFields_eq (Γ name).fields fields h]
  | .boolean _, _ => rfl
  | .int _, _ => rfl
  | .long _, _ => rfl
  | .unsigned _, _ => rfl
  | .single _, _ => rfl
  | .text _, _ => rfl
  | .bytes _, _ => rfl
  | .absent, _ => rfl
  | .date _ _, _ => rfl
  | .instant _ _, _ => rfl
  | .decimal _, _ => rfl
  | .definition _, _ => rfl
  | .json _, _ => rfl

theorem normItems_eq : (items : List (Datum ι)) → SettledItems Γ items →
    normItems Γ items = items
  | [], _ => rfl
  | d :: rest, h => by rw [normItems, norm_eq d h.1, normItems_eq rest h.2]

theorem normEntries_eq : (entries : List (Key × Datum ι)) → SettledEntries Γ entries →
    normEntries Γ entries = entries
  | [], _ => rfl
  | (k, d) :: rest, h => by
    rw [normEntries, Key.norm_eq h.1, norm_eq d h.2.1, normEntries_eq rest h.2.2]

theorem normFields_eq : (fields : List (Field ι)) → (data : List (Datum ι)) →
    SettledFields Γ fields data → normFields Γ fields data = data
  | [], [], _ => rfl
  | [], _ :: _, h => h.elim
  | _ :: _, [], h => h.elim
  | f :: fields, d :: rest, h => by
    have hf : f.returned (norm Γ d) = d := by
      cases hw : f.onWire with
      | true => rw [norm_eq d (h.1 hw), h.2.1]
      | false => rw [Field.returned_congr hw _ d, h.2.1]
    rw [normFields, hf, normFields_eq fields rest h.2.2]

end

end Datum

end Hessian
