import Hessian.Schema.Basic

/-!
# A catalog of records

A few records that show everything a declaration can say: fields under another name on the
wire, fields that may be missing, fields that are never written, records inside records and
inside themselves, and pairs over different shapes.

The declarations are made by a macro, to which the types of the fields are handed.  So a field that
is null or something has to be on the wire like any other, unless it is declared with a default.
-/

namespace Hessian

/-- The names of the records in the catalog. -/
inductive Catalog where
  | car | user | settings | garage | node | empty | odd
  | pairOfIntText | pairOfCarPair | pairOfValueDecimal
deriving DecidableEq, Repr

namespace Catalog

/-- A field that has to be on the wire, under its own name. -/
def required (name : String) (shape : Shape Catalog) : Field Catalog :=
  ⟨name, name, shape, .required⟩

/-- A field that may be missing, under its own name. -/
def defaulted (name : String) (shape : Shape Catalog) (default : Datum Catalog) :
    Field Catalog :=
  ⟨name, name, shape, .defaulted default⟩

/-- A field that is never written. -/
def skipped (name : String) (shape : Shape Catalog) (default : Datum Catalog) :
    Field Catalog :=
  ⟨name, name, shape, .skipped default⟩

/-- A field that has to be on the wire, as null or as something.  That it may be null does not show
in a type that is passed on. -/
def optional (name : String) (shape : Shape Catalog) : Field Catalog :=
  required name (.option shape)

/-- A pair of two shapes. -/
def pair (first second : Shape Catalog) : Record Catalog :=
  ⟨"Pair", "Pair", [required "first" first, required "second" second]⟩

/-- The records of the catalog. -/
def schema : Schema Catalog
  | .car => ⟨"Car", "Car", [required "color" .text, required "model" .text]⟩
  | .user =>
    ⟨"User", "com.example.User",
      [⟨"user_name", "userName", .text, .required⟩,
        required "age" (.int .int32),
        skipped "cache" .bytes (.bytes [])]⟩
  | .settings =>
    ⟨"Settings", "Settings",
      [required "name" .text,
        defaulted "retries" (.int .int32) (.int 0),
        optional "nickname" .text]⟩
  | .garage =>
    ⟨"Garage", "com.example.Garage",
      [required "owner" .text,
        required "cars" (.list (.record .car)),
        optional "favourite" (.record .car),
        required "photo" .bytes,
        required "mileage" (.map .sortedText (.long .int64)),
        required "rating" .double,
        required "open" .boolean]⟩
  | .node =>
    ⟨"Node", "demo.Node",
      [required "value" (.long .int64),
        optional "next" (.record .node),
        defaulted "children" (.list (.record .node)) (.list [])]⟩
  | .empty => ⟨"Empty", "Empty", []⟩
  | .odd =>
    ⟨"Odd", "",
      [⟨"uni", "é😀", .int .uint8, .required⟩,
        required "r#type" (.int .int16),
        ⟨"any", "x", .value, .defaulted (.value .null)⟩,
        skipped "hidden" (.int .int32) (.int 0),
        defaulted "when" (.date .millis) (.date .millis 0)]⟩
  | .pairOfIntText => pair (.int .int32) .text
  | .pairOfCarPair => pair (.record .car) (.record .pairOfValueDecimal)
  | .pairOfValueDecimal => pair .value .decimal

end Catalog

end Hessian
