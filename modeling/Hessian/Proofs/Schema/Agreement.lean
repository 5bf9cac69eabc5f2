import Hessian.Proofs.Decoder.Mirrors
import Hessian.Proofs.Grammar.Complete
import Hessian.Proofs.Schema.Conversion
import Hessian.Schema.Catalog
import Mathlib

/-!
# Data are values of known shape

Where a datum can be read, whoever does not know its shape reads a value from the same octets and
leaves the same session behind, and the datum is what that value is in the shape
(`Shape.value_of_read`).  So a field that is dropped and one that is kept move the cursor and the
tables alike.

There are two shapes of which this is not so.  A bare class definition is no value.  The fields of a
decimal are read without going one level deeper, so a decimal may succeed where a value has reached
its limit.  `Shape.Plain` leaves them out.

The instance at the end is read by evaluation.  That takes equations from all over the library,
which is why it is imported as a whole.

## Main definitions

* `Shape.Mentions` : the shapes in a shape, also those of the fields of its records.
* `Record.Agrees` : what has been found of the fields of a record, and the values of an instance.

## Main statements

* `Shape.mirrors_readWith` : one layer of reading is mirrored by a value.
* `Shape.value_of_read` : reading a datum is reading a value and converting it.
-/

namespace Hessian

open Decode

variable {ι : Type}

/-! ## The shapes in a shape -/

/-- The shapes of the parts one level down, for a record those of its fields on the wire. -/
def Shape.parts (Γ : Schema ι) : Shape ι → List (Shape ι)
  | .option shape => [shape]
  | .list item => [item]
  | .map _ item => [item]
  | .record name => ((Γ name).fields.filter Field.onWire).map Field.shape
  | _ => []

/-- The second shape stands somewhere in the first one, at any depth. -/
def Shape.Mentions (Γ : Schema ι) : Shape ι → Shape ι → Prop :=
  Relation.ReflTransGen fun shape part => part ∈ shape.parts Γ

/-- There is no decimal and no bare class definition in a shape. -/
def Shape.Plain (Γ : Schema ι) (shape : Shape ι) : Prop :=
  ¬ shape.Mentions Γ .decimal ∧ ¬ shape.Mentions Γ .definition

/-- The parts of a plain shape are plain. -/
theorem Shape.Plain.of_mem_parts {Γ : Schema ι} {shape part : Shape ι} (h : shape.Plain Γ)
    (hm : part ∈ shape.parts Γ) : part.Plain Γ :=
  ⟨fun hd => h.1 (.head hm hd), fun hd => h.2 (.head hm hd)⟩

/-- A shape is plain if it is one of some that have all their parts among them, and no decimal and
no bare class definition. -/
theorem Shape.plain_of_closed {Γ : Schema ι} {shapes : List (Shape ι)}
    (hclosed : ∀ shape ∈ shapes, ∀ part ∈ shape.parts Γ, part ∈ shapes)
    (hdecimal : .decimal ∉ shapes) (hdefinition : .definition ∉ shapes) {shape : Shape ι}
    (hs : shape ∈ shapes) : shape.Plain Γ := by
  have hmentions (part : Shape ι) (h : shape.Mentions Γ part) : part ∈ shapes := by
    induction h with
    | refl => exact hs
    | tail _ hpart ih => exact hclosed _ ih _ hpart
  exact ⟨fun h => hdecimal (hmentions _ h), fun h => hdefinition (hmentions _ h)⟩

/-- No two fields of a record have the same name on the wire, as it is with every record that can
be declared. -/
def Record.DistinctNames (r : Record ι) : Prop := r.definition.fieldNames.Nodup

/-- So it is with those of the catalog. -/
theorem Catalog.distinctNames (name : Catalog) : (Catalog.schema name).DistinctNames := by
  cases name <;> unfold Record.DistinctNames <;> decide

/-! ## Scalars -/

namespace Decode

theorem mirrors_intIn (range : IntRange) :
    Mirrors (fun n v => v = .int n ∧ range.least ≤ n.toInt ∧ n.toInt ≤ range.greatest)
      (intIn range) value := by
  refine Mirrors.value ((opens_int value).bind _) (.after int fun n => ?_)
  split
  · next h => exact mirrors_pure ⟨rfl, h⟩
  · exact mirrors_throw _ _

theorem mirrors_longIn (range : LongRange) :
    Mirrors (fun n v => v = .long n ∧ range.least ≤ n.toInt ∧ n.toInt ≤ range.greatest)
      (longIn range) value := by
  refine Mirrors.value ((opens_long value).bind _) (.after long fun n => ?_)
  split
  · next h => exact mirrors_pure ⟨rfl, h⟩
  · exact mirrors_throw _ _

theorem mirrors_instant (clock : Clock) :
    Mirrors (fun t v => ∃ millis, v = .date millis ∧ Instant.ofMillis? clock millis = some t)
      (instant clock) value := by
  refine Mirrors.value ((opens_date value).bind _) (.after date fun millis => ?_)
  split
  · next t h => exact mirrors_pure ⟨millis, rfl, h⟩
  · exact mirrors_throw _ _

theorem mirrors_json : Mirrors (fun j v => v.toJson = .ok j) json value := by
  have h : Mirrors (fun j v => v.toJson = .ok j) json (value >>= pure) := by
    refine .after value fun v => ?_
    split
    · next j h => exact mirrors_pure h
    · exact mirrors_throw _ _
  rwa [bind_pure] at h

theorem mirrors_key (mapping : Mapping) :
    Mirrors (fun k v => mapping.key? v = some k) (key mapping) value := by
  cases mapping with
  | sortedText => exact (mirrors_scalar (opens_string value)).map_left fun s v hv => hv ▸ rfl
  | sortedLong => exact (mirrors_scalar (opens_long value)).map_left fun n v hv => hv ▸ rfl
  | text => exact (mirrors_scalar (opens_string value)).map_left fun s v hv => hv ▸ rfl
  | value => exact (Mirrors.refl value).map_left fun v w hv => hv ▸ rfl

/-- Reading and dropping a value is reading it. -/
theorem mirrors_skip : Mirrors (fun _ _ => True) skip value :=
  (Mirrors.refl value).map_left fun _ _ _ => trivial

/-- What is refused is mirrored by anything. -/
theorem mirrors_tooDeep {α β : Type} {R : α → β → Prop} (y : Decode β) :
    Mirrors R (tooDeep : Decode α) y := by
  intro s a t hs
  cases hs

/-- Null has one form. -/
theorem head_of_value_null {s t : Decoder} (h : value s = .ok .null t) :
    s.input.head? = some Lead.null.toByte := by
  obtain ⟨n, -, bytes, hp, hd⟩ := derives_of_value h
  rw [hp.input]
  generalize s.tables = tb, t.tables = tb' at hd
  cases hd with
  | @null _ b lead =>
    obtain rfl : b = 0x4e := eq_of_beq lead
    rfl

end Decode

/-! ## Records -/

namespace Record

variable {r : Record ι} {convert : Shape ι → Value → Option (Datum ι)}

/-- For each field on the wire, something has been found if there is a value for its name, and it is
the conversion of that value. -/
def Agrees (r : Record ι) (convert : Shape ι → Value → Option (Datum ι))
    (found : List (String × Datum ι)) (values : List (String × Value)) : Prop :=
  ∀ f ∈ r.fields, f.onWire = true →
    Option.Rel (fun d v => convert f.shape v = some d) (found.lookup f.wireName)
      (values.lookup f.wireName)

section Agrees

variable {found : List (String × Datum ι)} {values : List (String × Value)} {name : String}

/-- A field that a name stands for is on the wire, under that name. -/
theorem mem_of_field? {f : Field ι} (h : r.field? name = some f) :
    f ∈ r.fields ∧ f.onWire = true ∧ f.wireName = name := by
  have hp := List.find?_some h
  rw [Bool.and_eq_true] at hp
  exact ⟨List.mem_of_find?_eq_some h, hp.1, eq_of_beq hp.2⟩

/-- A name that stands for no field is not that of a field on the wire. -/
theorem ne_of_field? (h : r.field? name = none) {f : Field ι} (hf : f ∈ r.fields)
    (hw : f.onWire = true) : f.wireName ≠ name := by
  rintro rfl
  have hnone := List.find?_eq_none.mp h f hf
  rw [hw, Bool.true_and, beq_self_eq_true] at hnone
  exact hnone rfl

/-- The field that a name stands for is the only one of that name. -/
theorem DistinctNames.eq_of_field? (hr : r.DistinctNames) {f g : Field ι}
    (hf : r.field? name = some f) (hg : g ∈ r.fields) (hw : g.onWire = true)
    (hn : g.wireName = name) : g = f := by
  obtain ⟨hmem, hwire, hname⟩ := mem_of_field? hf
  exact List.inj_on_of_nodup_map hr (List.mem_filter.mpr ⟨hg, hw⟩)
    (List.mem_filter.mpr ⟨hmem, hwire⟩) (hn.trans hname.symm)

/-- The name of a field on the wire stands for that field. -/
theorem DistinctNames.field?_eq (hr : r.DistinctNames) {f : Field ι} (hf : f ∈ r.fields)
    (hw : f.onWire = true) : r.field? f.wireName = some f := by
  cases hg : r.field? f.wireName with
  | some g => rw [hr.eq_of_field? hg hf hw rfl]
  | none => exact absurd rfl (ne_of_field? hg hf hw)

/-- Nothing has been read. -/
theorem agrees_nil (r : Record ι) (convert : Shape ι → Value → Option (Datum ι)) :
    r.Agrees convert [] [] :=
  fun _ _ _ => .none

/-- One more field has been read. -/
theorem Agrees.cons (h : r.Agrees convert found values) (hr : r.DistinctNames) {f : Field ι}
    (hf : r.field? name = some f) {d : Datum ι} {v : Value} (hd : convert f.shape v = some d) :
    r.Agrees convert ((name, d) :: found) ((name, v) :: values) := by
  intro g hg hw
  by_cases hn : g.wireName = name
  · obtain rfl := hr.eq_of_field? hf hg hw hn
    rw [hn, List.lookup_cons_self, List.lookup_cons_self]
    exact .some hd
  · rw [List.lookup_cons, List.lookup_cons, beq_false_of_ne hn]
    exact h g hg hw

/-- One more field has been dropped. -/
theorem Agrees.skip (h : r.Agrees convert found values) (hf : r.field? name = none) (v : Value) :
    r.Agrees convert found ((name, v) :: values) := by
  intro g hg hw
  rw [List.lookup_cons, beq_false_of_ne (ne_of_field? hf hg hw)]
  exact h g hg hw

/-- What becomes of a field is the same for what has been found and for the values. -/
theorem Agrees.convertWith (h : r.Agrees convert found values) {f : Field ι} (hf : f ∈ r.fields)
    {d : Datum ι} (hd : r.settle found f = .ok d) : f.convertWith convert values = some d := by
  have hrel := h f hf
  unfold settle at hd
  unfold Field.convertWith
  unfold Field.onWire at hrel
  generalize found.lookup f.wireName = x, values.lookup f.wireName = y at hd hrel ⊢
  cases hp : f.presence with
  | skipped default =>
    rw [hp] at hd
    exact congrArg some (Except.ok.inj hd)
  | defaulted default =>
    rw [hp] at hd hrel
    cases hrel rfl with
    | none => exact congrArg some (Except.ok.inj hd)
    | some hv => exact hv.trans (congrArg some (Except.ok.inj hd))
  | required =>
    rw [hp] at hd hrel
    cases hrel rfl with
    | none => cases hd
    | some hv => exact hv.trans (congrArg some (Except.ok.inj hd))

end Agrees

section Reading

variable {read : Shape ι → Decode (Datum ι)}

/-- The fields of a record are read as the values of an instance are, whatever the class definition
of the stream lists. -/
theorem mirrors_readFields (hr : r.DistinctNames)
    (h : ∀ f ∈ r.fields, f.onWire = true →
      Mirrors (fun d v => convert f.shape v = some d) (read f.shape) value)
    {found : List (String × Datum ι)} {values : List (String × Value)}
    (ha : r.Agrees convert found values) (names : List String) :
    Mirrors (fun found' vs => r.Agrees convert found' ((names.zip vs).reverse ++ values))
      (r.readFields read found names) (times names.length value) := by
  induction names generalizing found values with
  | nil => exact mirrors_pure ha
  | cons name names ih =>
    have hzip (v : Value) (vs : List Value) :
        ((name :: names).zip (v :: vs)).reverse ++ values =
          (names.zip vs).reverse ++ (name, v) :: values := by
      rw [List.zip_cons_cons, List.reverse_cons, List.append_assoc, List.singleton_append]
    unfold readFields
    rw [List.length_cons, times_succ]
    split
    · next f hf =>
      obtain ⟨hmem, hw, -⟩ := mem_of_field? hf
      refine (h f hmem hw).bind fun d v hd => ?_
      rw [← map_eq_pure_bind]
      exact (ih (ha.cons hr hf hd)).map_right fun found' vs hvs => (hzip v vs).symm ▸ hvs
    · next hf =>
      refine mirrors_skip.bind fun _ v _ => ?_
      rw [← map_eq_pure_bind]
      exact (ih (ha.skip hf v)).map_right fun found' vs hvs => (hzip v vs).symm ▸ hvs

/-- A record is read as an instance is. -/
theorem mirrors_readWith (hr : r.DistinctNames)
    (h : ∀ f ∈ r.fields, f.onWire = true →
      Mirrors (fun d v => convert f.shape v = some d) (read f.shape) value) :
    Mirrors (fun fields v => ∃ c values, v = .object c values ∧
      r.convertWith convert c values = some fields) (r.readWith read) value := by
  refine Mirrors.value ((opens_objectBegin value).bind _) (.after objectBegin fun c => ?_)
  have hfields := mirrors_readFields hr h (r.agrees_nil convert) c.fieldNames
  refine hfields.nested.bind fun found values ha => ?_
  rw [List.append_nil] at ha
  split
  · next fields hf =>
    exact mirrors_pure ⟨c, values, rfl, mapM_of_mapM_ok hf fun f hm d hd => ha.convertWith hm hd⟩
  · exact mirrors_throw _ _

end Reading

end Record

/-! ## Shapes -/

namespace Shape

variable {Γ : Schema ι}

section Layer

variable {inner : Shape ι → Decode (Datum ι)} {convert : Shape ι → Value → Option (Datum ι)}

/-- One layer of reading is mirrored by a value if reading the parts is. -/
theorem mirrors_readWith (hΓ : ∀ name, (Γ name).DistinctNames)
    (h : ∀ shape : Shape ι, shape.Plain Γ →
      Mirrors (fun d v => convert shape v = some d) (inner shape) Decode.value)
    (shape : Shape ι) (hp : shape.Plain Γ) :
    Mirrors (fun d v => convertWith Γ convert shape v = some d) (readWith Γ inner shape)
      Decode.value := by
  induction shape with
  | boolean => exact (mirrors_scalar (opens_boolean Decode.value)).map_left fun b v hv => hv ▸ rfl
  | int range =>
    refine (mirrors_intIn range).map_left ?_
    rintro n v ⟨rfl, hn⟩
    exact if_pos hn
  | long range =>
    refine (mirrors_longIn range).map_left ?_
    rintro n v ⟨rfl, hn⟩
    exact if_pos hn
  | double => exact (mirrors_scalar (opens_double Decode.value)).map_left fun d v hv => hv ▸ rfl
  | single => exact (mirrors_scalar (opens_double Decode.value)).map_left fun d v hv => hv ▸ rfl
  | text => exact (mirrors_scalar (opens_string Decode.value)).map_left fun s v hv => hv ▸ rfl
  | bytes => exact (mirrors_scalar (opens_binary Decode.value)).map_left fun b v hv => hv ▸ rfl
  | option shape ih =>
    have hshape := ih (hp.of_mem_parts (List.mem_singleton_self shape))
    intro s d t hs
    rw [readWith, bind_ok (nextIs_ok _ s)] at hs
    split at hs
    · obtain ⟨u, w, hn, hs⟩ := ok_of_bind hs
      obtain ⟨rfl, rfl⟩ := EStateM.Result.ok.inj hs
      obtain ⟨v, hv, rfl⟩ := mirrors_scalar (opens_null Decode.value) s u w hn
      exact ⟨.null, hv, rfl⟩
    · next hne =>
      rw [map_eq_pure_bind] at hs
      obtain ⟨d', w, hd, hs⟩ := ok_of_bind hs
      obtain ⟨rfl, rfl⟩ := EStateM.Result.ok.inj hs
      obtain ⟨v, hv, hc⟩ := hshape s d' w hd
      refine ⟨v, hv, convertWith_option Γ ?_ hc⟩
      rintro rfl
      exact hne (beq_iff_eq.mpr (head_of_value_null hv))
  | list item ih =>
    have hitem := h item (hp.of_mem_parts (List.mem_singleton_self item))
    refine Mirrors.value (((opens_listBegin Decode.value).bind _).bind _) ?_
    refine hitem.listOf.bind fun r r' hr => mirrors_pure ?_
    exact convertWith_list_of_forall₂ Γ hr
  | map mapping item ih =>
    have hitem := h item (hp.of_mem_parts (List.mem_singleton_self item))
    refine Mirrors.value (((opens_mapBegin Decode.value).bind _).bind _) ?_
    refine ((mirrors_key mapping).mapOf hitem).bind fun r r' hr => mirrors_pure ?_
    exact convertWith_map_of_forall₂ Γ hr
  | date unit => exact (mirrors_scalar (opens_date Decode.value)).map_left fun n v hv => hv ▸ rfl
  | instant clock =>
    refine (mirrors_instant clock).map_left ?_
    rintro t v ⟨millis, rfl, ht⟩
    rw [convertWith, ht]
    rfl
  | decimal => exact absurd .refl hp.1
  | value => exact (Mirrors.refl Decode.value).map_left fun v w hv => hv ▸ rfl
  | definition => exact absurd .refl hp.2
  | json =>
    refine mirrors_json.map_left fun j v hj => ?_
    rw [convertWith, hj]
  | record name =>
    have hfields (f : Field ι) (hf : f ∈ (Γ name).fields) (hw : f.onWire = true) :
        Mirrors (fun d v => convert f.shape v = some d) (inner f.shape) Decode.value :=
      h f.shape (hp.of_mem_parts (List.mem_map_of_mem (List.mem_filter.mpr ⟨hf, hw⟩)))
    refine ((Γ name).mirrors_readWith (hΓ name) hfields).map_left ?_
    rintro fields v ⟨c, values, rfl, hc⟩
    rw [convertWith, hc]
    rfl

end Layer

/-- One layer more is mirrored if the others are. -/
theorem mirrors_layer (hΓ : ∀ name, (Γ name).DistinctNames) {inner : Shape ι → Decode (Datum ι)}
    (h : ∀ shape : Shape ι, shape.Plain Γ →
      Mirrors (fun d v => shape.convert Γ v = some d) (inner shape) Decode.value)
    (shape : Shape ι) (hp : shape.Plain Γ) :
    Mirrors (fun d v => shape.convert Γ v = some d) (readWith Γ inner shape) Decode.value :=
  (mirrors_readWith hΓ h shape hp).mono fun _ v hd => (convert_eq Γ shape v).trans hd

/-- Reading is mirrored by a value, whatever number of levels it is given. -/
theorem mirrors_readWithin (hΓ : ∀ name, (Γ name).DistinctNames) (levels : Nat)
    (shape : Shape ι) (hp : shape.Plain Γ) :
    Mirrors (fun d v => shape.convert Γ v = some d) (readWithin Γ levels shape) Decode.value := by
  induction levels generalizing shape with
  | zero => exact mirrors_layer hΓ (fun _ _ => mirrors_tooDeep Decode.value) shape hp
  | succ levels ih => exact mirrors_layer hΓ ih shape hp

/-- Where a datum without decimals and bare class definitions is read, a value is read from the same
octets in the same session, which comes to the same cursor, tables and count of containers, and the
datum is what that value is in the shape. -/
theorem value_of_read (hΓ : ∀ name, (Γ name).DistinctNames) {shape : Shape ι} (hp : shape.Plain Γ)
    {s t : Decoder} {d : Datum ι} (h : shape.read Γ s = .ok d t) :
    ∃ v, Decode.value s = .ok v t ∧ shape.convert Γ v = some d :=
  mirrors_readWithin hΓ (s.maxDepth - s.depth) shape hp s d t h

/-- A node whose class definition names the next node first and then something unknown, which is
dropped, and no children.  The last octet is left over. -/
theorem value_of_read_node :
    let shape : Shape Catalog := .record .node
    let s : Decoder :=
      { input := [0x43, 0x01, 0x4e, 0x93, 0x04, 0x6e, 0x65, 0x78, 0x74, 0x05, 0x76, 0x61, 0x6c,
          0x75, 0x65, 0x01, 0x78, 0x60, 0x60, 0x4e, 0xe1, 0x91, 0xe2, 0x57, 0x4e, 0x5a, 0x4e]
        maxDepth := 2 }
    let t : Decoder :=
      { input := [0x4e]
        offset := 26
        definitions := [⟨"N", ["next", "value", "x"]⟩]
        containers := 3
        maxDepth := 2 }
    let d : Datum Catalog :=
      .record .node [.long 2, .present (.record .node [.long 1, .absent, .list []]), .list []]
    shape.read Catalog.schema s = .ok d t ∧
      ∃ v, Decode.value s = .ok v t ∧ shape.convert Catalog.schema v = some d := by
  have hnames (name : Catalog) : (Catalog.schema name).DistinctNames := by
    cases name <;> unfold Record.DistinctNames <;> decide
  have hplain : (Shape.record Catalog.node).Plain Catalog.schema :=
    @plain_of_closed _ _ [.record .node, .long .int64, .option (.record .node),
      .list (.record .node)] (by decide) (by decide) (by decide) _ List.mem_cons_self
  refine ⟨?read, value_of_read hnames hplain ?read⟩
  cbv

end Shape

end Hessian
