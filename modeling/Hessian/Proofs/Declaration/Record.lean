import Hessian.Declaration.Reading
import Hessian.Proofs.Declaration.Derived
import Hessian.Proofs.Schema.Agreement

/-!
# Records of declarations

A schema says of a record which class it is on the wire, which fields are written and read, and
which of them may be missing.  A declaration says all of this too, but for what its types are taken
for.  With that, `Declaration.record` is the record of a declaration, and the code made of the
declaration does what the record says (`Declaration.record_cases`).  So what holds of all records
whose names on the wire are distinct holds of derived code.

A field of an optional type may be missing.  The type has to be seen for that, and it is not where
the declaration is made by a macro to which its types are handed: they are passed on in groups.  The
record of such a declaration is the same but that all fields are required that are not set to be
otherwise (`Declaration.record_passOn`).  The records of the catalog are of this kind
(`Catalog.schema_eq_record`), which is why they miss optional fields.

## Main definitions

* `Declaration.record` : the record of a declaration.
* `Declaration.passOn` : a declaration whose types are passed on.
* `Catalog.source` : the declarations of the records in the catalog.

## Main statements

* `Declaration.record_cases` : derived code does what the record of the declaration says.
* `Declaration.record_passOn` : what becomes of the record if types are passed on.
* `Catalog.schema_eq_record` : the catalog is made of declarations whose types are passed on.
-/

namespace Hessian

variable {ι : Type}

namespace Field

/-- Where the code that reads a record takes the value of the field from. -/
def source (f : Field ι) : Declaration.Source :=
  match f.presence with
  | .required => .required (Declaration.slotName f.name) f.wireName
  | .defaulted _ => .optional (Declaration.slotName f.name)
  | .skipped _ => .default

/-- The field, if it may be missing where it is an option. -/
def lenient (f : Field ι) : Field ι :=
  match f.shape, f.presence with
  | .option _, .required => { f with presence := .defaulted .absent }
  | _, _ => f

end Field

/-- The record, if its options may be missing. -/
def Record.lenient (r : Record ι) : Record ι := { r with fields := r.fields.map Field.lenient }

namespace Declaration

/-- What types are taken for. -/
structure Typing (ι : Type) where
  shape : List Token → Shape ι
  /-- What a field of the type is by default. -/
  default : List Token → Datum ι

variable (Θ : Typing ι)

namespace Binding

/-- Whether a field is on the wire, and what it is when it does not come from there. -/
def presence (b : Binding) : Presence ι :=
  if b.onWire then
    if b.isOptional then .defaulted (Θ.default b.type) else .required
  else .skipped (Θ.default b.type)

/-- The field of the record. -/
def field (b : Binding) : Hessian.Field ι := ⟨b.name, b.wireName, Θ.shape b.type, b.presence Θ⟩

theorem onWire_field (b : Binding) : (b.field Θ).onWire = b.onWire := by
  unfold Hessian.Field.onWire field presence
  cases b.onWire <;> cases b.isOptional <;> rfl

theorem source_field (b : Binding) : (b.field Θ).source = b.source := by
  unfold Hessian.Field.source source field presence
  cases b.onWire <;> cases b.isOptional <;> rfl

end Binding

/-- The record of a declaration. -/
def record (d : Declaration) : Except Fault (Record ι) := do
  let className ← d.className
  let bindings ← d.bindings
  return ⟨d.name, className, bindings.map (Binding.field Θ)⟩

/-! ## Derived code -/

/-- The code does what the record says. -/
structure Follows (r : Record ι) (writer : Writer) (reader : Reader) : Prop where
  /-- The class is written with the definition of the record. -/
  definition : r.definition = ⟨writer.className, writer.wireNames⟩
  /-- There is one arm for each field on the wire, which reads its shape. -/
  arms : reader.arms.map (fun a => (a.wireName, Θ.shape a.type)) =
    (r.fields.filter Field.onWire).map fun f => (f.wireName, f.shape)
  /-- Every field of the record gets its value as its presence says. -/
  sources : reader.sources = r.fields.map fun f => (f.name, f.source)
  distinct : r.DistinctNames

/-- The fields on the wire are those of the bindings on the wire. -/
theorem filter_field (bs : List Binding) :
    (bs.map (Binding.field Θ)).filter Field.onWire =
      (bs.filter Binding.onWire).map (Binding.field Θ) := by
  rw [List.filter_map]
  exact congrArg _ (List.filter_congr fun b _ => b.onWire_field Θ)

theorem follows_of_bindings {d : Declaration} {bs : List Binding} (h : d.bindings = .ok bs)
    (className : String) :
    Follows Θ ⟨d.name, className, bs.map (Binding.field Θ)⟩ ⟨className, bs.filter Binding.onWire⟩
      ⟨(bs.filter Binding.onWire).map Binding.arm, bs.map fun b => (b.name, b.source)⟩ := by
  have hdefinition : (Record.mk d.name className (bs.map (Binding.field Θ))).definition =
      ⟨className, (bs.filter Binding.onWire).map Binding.wireName⟩ := by
    rw [Record.definition, filter_field, List.map_map]
    rfl
  refine ⟨hdefinition, ?_, ?_, ?_⟩
  · rw [filter_field, List.map_map, List.map_map]
    rfl
  · rw [List.map_map]
    exact List.map_congr_left fun b _ => congrArg (b.name, ·) (b.source_field Θ).symm
  · obtain ⟨all, hall⟩ := exists_describes h
    obtain ⟨hnodup, hbs⟩ | ⟨-, name, hname⟩ := bindings_of_describes hall
    · obtain rfl := Except.ok.inj (h.symm.trans hbs)
      rw [Record.DistinctNames, hdefinition, filter_binding, List.map_map]
      exact hnodup
    · cases h.symm.trans hname

/-- A declaration has a record and code on both sides, which does what the record says.  Or it has a
fault, which is the same for all of them. -/
theorem record_cases (d : Declaration) :
    (∃ fault, d.record Θ = .error fault ∧ d.writer = .error fault ∧ d.reader = .error fault) ∨
      ∃ r w R, d.record Θ = .ok r ∧ d.writer = .ok w ∧ d.reader = .ok R ∧
        r.name = d.name ∧ Follows Θ r w R := by
  unfold record writer reader
  cases d.className with
  | error fault => exact .inl ⟨fault, rfl, rfl, rfl⟩
  | ok className =>
    cases hb : d.bindings with
    | error fault => exact .inl ⟨fault, rfl, rfl, rfl⟩
    | ok bs =>
      exact .inr ⟨_, _, _, rfl, rfl, rfl, rfl, follows_of_bindings Θ hb className⟩

/-! ## Types that are passed on -/

/-- The field, with its type passed on. -/
def Field.passOn (f : Field) : Field := { f with passedOn := true }

/-- The declaration, with the types of its fields passed on. -/
def passOn (d : Declaration) : Declaration :=
  { d with
    body := match d.body with
      | .fields fields => .fields (fields.map Field.passOn)
      | .other => .other }

namespace Binding

/-- The binding of a field whose type is passed on. -/
def passOn (b : Binding) : Binding := { b with passedOn := true }

/-- The field of the record, which is required unless the settings say otherwise. -/
def strictField (b : Binding) : Hessian.Field ι :=
  if b.onWire && !b.options.default then { b.field Θ with presence := .required } else b.field Θ

/-- A type that is passed on does not show that it is optional. -/
theorem isOptional_passOn (b : Binding) : b.passOn.isOptional = b.options.default :=
  Bool.or_false _

theorem field_passOn (b : Binding) : b.passOn.field Θ = b.strictField Θ := by
  unfold strictField field presence
  rw [isOptional_passOn, show b.passOn.onWire = b.onWire from rfl]
  unfold isOptional
  cases b.onWire <;> cases b.options.default <;> rfl

end Binding

/-- Settings and names are what they were. -/
theorem bindingsFrom_passOn (owner : String) (taken : List String) (fields : List Field) :
    bindingsFrom owner taken (fields.map Field.passOn) =
      (bindingsFrom owner taken fields).map (List.map Binding.passOn) := by
  have hmap (x : Except Fault (List Binding)) (b : Binding) :
      (x.map (List.map Binding.passOn)).map (b.passOn :: ·) =
        (x.map (b :: ·)).map (List.map Binding.passOn) := by
    cases x <;> rfl
  -- a type is looked at by nothing that decides on a fault, so both sides branch alike
  induction fields generalizing taken with
  | nil => rfl
  | cons field fields ih =>
    rw [List.map_cons]
    cases ho : field.options with
    | error fault =>
      rw [bindingsFrom, bindingsFrom, ho, show field.passOn.options = field.options from rfl, ho]
      rfl
    | ok options =>
      let f : Described := ⟨field, options⟩
      rw [@bindingsFrom_cons f owner taken ho,
        @bindingsFrom_cons ⟨field.passOn, options⟩ owner taken ho]
      change (if f.options.skip = true then _ else if f.wireName ∈ taken then _ else _) = _
      rw [ih, ih, show Described.binding ⟨field.passOn, options⟩ = f.binding.passOn from rfl, hmap,
        hmap]
      split
      · rfl
      split <;> rfl

/-- A declaration with its types passed on has the same class and the same fields on the wire, or
the same fault.  But all fields on the wire are required that are not set to have a default, those
of optional types too. -/
theorem record_passOn (d : Declaration) :
    d.passOn.record Θ = (do
      let className ← d.className
      let bindings ← d.bindings
      return ⟨d.name, className, bindings.map (Binding.strictField Θ)⟩) := by
  have hbindings : d.passOn.bindings = d.bindings.map (List.map Binding.passOn) := by
    unfold bindings passOn
    cases d.body with
    | fields fields => exact bindingsFrom_passOn d.name [] fields
    | other => rfl
  unfold record
  rw [hbindings]
  change d.className.bind _ = _
  cases d.className with
  | error fault => rfl
  | ok className =>
    cases d.bindings with
    | error fault => rfl
    | ok bs =>
      have hfields : (bs.map Binding.passOn).map (Binding.field Θ) =
          bs.map (Binding.strictField Θ) := by
        rw [List.map_map]
        exact List.map_congr_left fun b _ => b.field_passOn Θ
      exact congrArg (fun fields => Except.ok (Record.mk d.name className fields)) hfields

end Declaration

/-! ## The catalog -/

namespace Catalog

open Declaration

/-- A field with these settings. -/
def field (settings : List Setting) (name : String) (type : List Token) : Declaration.Field :=
  let tokens := [Token.mark ','].intercalate (settings.map Setting.tokens)
  ⟨if settings.isEmpty then [] else [⟨[.word "hessian"], .listed tokens⟩], name, type, false⟩

/-- A declaration of these fields. -/
def declare (className : Option String) (name : String) (fields : List Declaration.Field) :
    Declaration :=
  let tokens (className : String) : List Token := [.word "class", .mark '=', .text className]
  ⟨className.toList.map fun className => ⟨[.word "hessian"], .listed (tokens className)⟩, name,
    [], [], .fields fields⟩

/-- A type that is applied to others. -/
def applied (name : String) (arguments : List Token) : List Token :=
  [.word name, .group .angle arguments]

/-- The declarations of the records.  The pairs have one declaration in common. -/
def declaration : Catalog → Declaration
  | .car =>
    declare none "Car" [field [] "color" [.word "String"], field [] "model" [.word "String"]]
  | .user =>
    declare (some "com.example.User") "User"
      [field [.rename "userName"] "user_name" [.word "String"],
        field [] "age" [.word "i32"],
        field [.skip] "cache" (applied "Vec" [.word "u8"])]
  | .settings =>
    declare none "Settings"
      [field [] "name" [.word "String"],
        field [.default] "retries" [.word "i32"],
        field [] "nickname" (applied "Option" [.word "String"])]
  | .garage =>
    declare (some "com.example.Garage") "Garage"
      [field [] "owner" [.word "String"],
        field [] "cars" (applied "Vec" [.word "Car"]),
        field [] "favourite" (applied "Option" [.word "Car"]),
        field [] "photo" (applied "Vec" [.word "u8"]),
        field [] "mileage" (applied "BTreeMap" [.word "String", .mark ',', .word "i64"]),
        field [] "rating" [.word "f64"],
        field [] "open" [.word "bool"]]
  | .node =>
    declare (some "demo.Node") "Node"
      [field [] "value" [.word "i64"],
        field [] "next" (applied "Option" (applied "Box" [.word "Node"])),
        field [.default] "children" (applied "Vec" [.word "Node"])]
  | .empty => declare none "Empty" []
  | .odd =>
    declare (some "") "Odd"
      [field [.rename "é😀"] "uni" [.word "u8"],
        field [] "r#type" [.word "i16"],
        field [.rename "x", .default] "any" [.word "Object"],
        field [.skip] "hidden" [.word "i32"],
        field [.default] "when" [.word "Millis"]]
  | .pairOfIntText | .pairOfCarPair | .pairOfValueDecimal =>
    { declare none "Pair" [field [] "first" [.word "A"], field [] "second" [.word "B"]] with
      parameters := [⟨[], .type, "A", [], true⟩, ⟨[], .type, "B", [], false⟩] }

/-- What the parameters of a declaration are taken for. -/
def parameters : Catalog → List (String × Shape Catalog)
  | .pairOfIntText => [("A", .int .int32), ("B", .text)]
  | .pairOfCarPair => [("A", .record .car), ("B", .record .pairOfValueDecimal)]
  | .pairOfValueDecimal => [("A", .value), ("B", .decimal)]
  | _ => []

/-- What types that are a single name are taken for. -/
def named : List (String × Shape Catalog) :=
  [("bool", .boolean), ("u8", .int .uint8), ("i16", .int .int16), ("i32", .int .int32),
    ("i64", .long .int64), ("f64", .double), ("String", .text), ("Millis", .date .millis),
    ("Object", .value), ("Car", .record .car), ("Node", .record .node)]

/-- What a type is taken for.  A box holds what it is made for, and a list of octets is binary. -/
def shapeOf (parameters : List (String × Shape Catalog)) : List Token → Shape Catalog
  | [.word name] => ((parameters ++ named).lookup name).getD .value
  | [.word "BTreeMap", .group .angle (.word "String" :: .mark ',' :: content)] =>
    .map .sortedText (shapeOf parameters content)
  | [.word name, .group .angle content] =>
    if name = "Option" then .option (shapeOf parameters content)
    else if name = "Box" then shapeOf parameters content
    else match shapeOf parameters content with
      | .int .uint8 => .bytes
      | shape => .list shape
  | _ => .value

/-- What fields of a shape are by default. -/
def defaultOf : Shape Catalog → Datum Catalog
  | .boolean => .boolean false
  | .int _ => .int 0
  | .long _ => .long 0
  | .double => .double .zero
  | .text => .text ""
  | .bytes => .bytes []
  | .option _ => .absent
  | .list _ => .list []
  | .map _ _ => .map []
  | .date unit => .date unit 0
  | _ => .value .null

/-- What types are taken for in the declaration of a record. -/
def typing (name : Catalog) : Typing Catalog :=
  ⟨shapeOf name.parameters, fun type => defaultOf (shapeOf name.parameters type)⟩

/-- The records of the catalog are those of declarations whose types are passed on.  The same
declarations with their types in plain sight have records in which options may be missing. -/
theorem schema_eq_record (name : Catalog) :
    name.declaration.passOn.record name.typing = .ok (schema name) ∧
      name.declaration.record name.typing = .ok (schema name).lenient := by
  cases name <;> exact ⟨by cbv, by cbv⟩

/-- Settings of which the class definition names nothing but the name, as in
`Shape.read_settings_missing`.  With the types in plain sight the nickname is not missed. -/
example :
    let definition : Definition := ⟨"S", ["name"]⟩
    (Shape.record settings).read (fun name => (schema name).lenient)
        { input := [0x43, 0x01, 0x53, 0x91, 0x04, 0x6e, 0x61, 0x6d, 0x65, 0x60, 0x03, 0x73, 0x76,
            0x63]
          maxDepth := 128 } =
      .ok (.record settings [.text "svc", .int 0, .absent])
        { input := [], offset := 14, definitions := [definition], containers := 1,
          maxDepth := 128 } := by
  cbv

end Catalog

end Hessian
