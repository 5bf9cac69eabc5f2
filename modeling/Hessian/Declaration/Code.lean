import Hessian.Declaration.Binding
import Hessian.Declaration.Lexeme

/-!
# Derived code

The code that writes and reads a declared record.  What the code does is fixed first, as a
`Writer` or a `Reader`; their `tokens` are the code itself.

## Main definitions

* `Writer`, `writer` : how a record is written.
* `Reader`, `reader` : how a record is read.
* `Writer.tokens`, `Reader.tokens` : the code for it.
-/

namespace Hessian.Declaration

/-- How a record is written: as an instance of a class with these fields. -/
structure Writer where
  className : String
  /-- The fields that are written, in order. -/
  fields : List Binding

/-- The names of the fields in the class definition. -/
def Writer.wireNames (w : Writer) : List String := w.fields.map Binding.wireName

/-- How a record is written. -/
def writer (d : Declaration) : Except Fault Writer := do
  let className ← d.className
  let bindings ← d.bindings
  return ⟨className, bindings.filter Binding.onWire⟩

/-- The name of the slot that holds a field until all are read.  A raw identifier is part of it
without its `r#`. -/
def slotName (name : String) : String :=
  match name.toList with
  | 'r' :: '#' :: cs => "value_" ++ String.ofList cs
  | _ => "value_" ++ name

/-- What is done with a field of this name on the wire. -/
structure Arm where
  wireName : String
  slot : String
  type : List Token

/-- Where the value of a field comes from in the end. -/
inductive Source where
  /-- The default of its type. -/
  | default
  /-- The wire if the field was there, else the default of its type. -/
  | optional (slot : String)
  /-- The wire, where the field has to be. -/
  | required (slot wireName : String)

/-- How a record is read: an arm for every name that is known, and a source for every
field. -/
structure Reader where
  arms : List Arm
  sources : List (String × Source)

namespace Binding

/-- The arm of a field. -/
def arm (b : Binding) : Arm := ⟨b.wireName, slotName b.name, b.type⟩

/-- Where the value of a field comes from. -/
def source (b : Binding) : Source :=
  if b.onWire then
    if b.isOptional then .optional (slotName b.name)
    else .required (slotName b.name) b.wireName
  else .default

end Binding

/-- How a record is read.  The class name is of no use here, but has to be without fault. -/
def reader (d : Declaration) : Except Fault Reader := do
  let _ ← d.className
  let bindings ← d.bindings
  return ⟨(bindings.filter Binding.onWire).map Binding.arm,
    bindings.map fun b => (b.name, b.source)⟩

/-! ## Tokens of derived code -/

/-- The tokens of a piece of code in which brackets match. -/
def code (source : String) : List Token := (tokens? source).getD []

/-- Tokens in parentheses. -/
def parentheses (content : List Token) : List Token := [.group .round content]

/-- Tokens in square brackets. -/
def squares (content : List Token) : List Token := [.group .square content]

/-- Tokens in braces. -/
def braces (content : List Token) : List Token := [.group .brace content]

/-- An implementation of a trait for a declared type. -/
def implementation (d : Declaration) (traitName : String) (content : List Token) : List Token :=
  .word "impl" :: d.introduction ++ code ("hessian2_codec::" ++ traitName ++ " for")
    ++ d.typeTokens ++ d.constraints ++ braces content

/-- Tokens with a comma between any two. -/
def commaSeparated (items : List (List Token)) : List Token :=
  [Token.mark ','].intercalate items

/-- The code that writes a field. -/
def Binding.writing (b : Binding) : List Token :=
  code "hessian2_codec::ToHessian::to_hessian"
    ++ parentheses (code "&self." ++ .word b.name :: code ", encoder") ++ code "?;"

/-- The code that writes a declared record. -/
def Writer.tokens (w : Writer) (d : Declaration) : List Token :=
  let names := w.wireNames.map fun name => .text name :: code ".to_string()"
  let definition :=
    code "hessian2_codec::Definition::new"
      ++ parentheses (.text w.className :: code ", vec!" ++ squares (commaSeparated names)
        ++ code ",")
  implementation d "ToHessian" <|
    code "fn to_hessian(&self, encoder: &mut hessian2_codec::Encoder) -> hessian2_codec::Result<()>"
      ++ braces (
        code "static DEFINITION: std::sync::OnceLock<hessian2_codec::Definition> ="
        ++ code "std::sync::OnceLock::new();"
        ++ code "let definition = DEFINITION.get_or_init"
          ++ parentheses (code "||" ++ braces definition) ++ code ";"
        ++ code "encoder.encode_class_instance_begin(definition)?;"
        ++ code "encoder.nested"
          ++ parentheses (code "|encoder|"
            ++ braces (w.fields.flatMap Binding.writing ++ code "Ok(())"))
          ++ code "?;"
        ++ code "encoder.encode_class_instance_end()")

/-- The code that introduces the slot of an arm. -/
def Arm.introduction (a : Arm) : List Token :=
  code "let mut" ++ .word a.slot :: code ": Option <" ++ a.type ++ code "> = None;"

/-- The code of an arm. -/
def Arm.tokens (a : Arm) : List Token :=
  .text a.wireName :: code "=>"
    ++ braces (.word a.slot :: code "= Some"
      ++ parentheses (code "<" ++ a.type
        ++ code "as hessian2_codec::FromHessian>::from_hessian(decoder)?")
      ++ code ";")

/-- The code for the value of a field of the record `owner`. -/
def Source.tokens (owner : String) : Source → List Token
  | .default => code "Default::default()"
  | .optional slot => .word slot :: code ".unwrap_or_default()"
  | .required slot wireName =>
    .word slot :: code ".ok_or"
      ++ parentheses (code "hessian2_codec::StructDecodeError::MissingRequiredField"
        ++ braces (code "field:" ++ .text wireName :: code ", struct_name: stringify!"
          ++ parentheses [.word owner] ++ code ","))
      ++ code "?"

/-- The code that reads a declared record. -/
def Reader.tokens (r : Reader) (d : Declaration) : List Token :=
  let matching :=
    code "match wire_field.as_str()"
      ++ braces (r.arms.flatMap Arm.tokens ++ code "_ => decoder.skip_value()?,")
  let fields := r.sources.flatMap fun (name, source) =>
    .word name :: code ":" ++ source.tokens d.name ++ code ","
  implementation d "FromHessian" <|
    code "fn from_hessian(decoder: &mut hessian2_codec::Decoder) -> hessian2_codec::Result<Self>"
      ++ braces (
        code "let definition = decoder.decode_class_instance_begin()?;"
        ++ r.arms.flatMap Arm.introduction
        ++ code "decoder.nested"
          ++ parentheses (code "|decoder|"
            ++ braces (code "for wire_field in definition.field_names.iter()"
              ++ braces matching ++ code "Ok(())"))
          ++ code "?;"
        ++ code "decoder.decode_class_instance_end()?;"
        ++ code "Ok" ++ parentheses (.word d.name :: braces fields))

/-- The code that writes a declared record, as text. -/
def writingCode (d : Declaration) : Except Fault String :=
  (writer d).map fun w => render (w.tokens d)

/-- The code that reads a declared record, as text. -/
def readingCode (d : Declaration) : Except Fault String :=
  (reader d).map fun r => render (r.tokens d)

end Hessian.Declaration
