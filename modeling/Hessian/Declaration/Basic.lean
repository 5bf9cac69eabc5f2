import Hessian.Declaration.Part

/-!
# Record declarations

A declaration introduces a type by its name.  If the type is a record with named fields, it
can be a class on the wire, and attributes of the declaration and of its fields say how.

## Main definitions

* `Attribute` : the attributes, each with its path and arguments.
* `Parameter` : the generic parameters of a declaration.
* `Field` : the named fields.
* `Declaration` : the declarations.
-/

namespace Hessian

namespace Declaration

/-- What is said after the path of an attribute. -/
inductive Arguments where
  /-- The path is all. -/
  | none
  /-- A value after `=`. -/
  | assigned
  /-- Tokens between brackets of any kind. -/
  | listed (tokens : List Token)

/-- An attribute. -/
structure Attribute where
  path : List Token
  arguments : Arguments

/-- Whether an attribute says how something is on the wire: those with the path `hessian`
do. -/
def Attribute.isWire (a : Attribute) : Bool :=
  match a.path with
  | [.word name] => name == "hessian"
  | _ => false

/-- What a generic parameter stands for. -/
inductive ParameterKind where
  | lifetime
  | type
  | constant
deriving DecidableEq, Repr

/-- A generic parameter. -/
structure Parameter where
  /-- The attributes, as they stand before it. -/
  attributes : List Token
  kind : ParameterKind
  name : String
  /-- What is said after a colon: bounds, or the type of a constant. -/
  bound : List Token
  /-- Whether a comma comes next. -/
  comma : Bool

/-- A named field. -/
structure Field where
  attributes : List Attribute
  name : String
  type : List Token
  /-- Whether the type was handed to a macro, which made the declaration and passes the type on.
  Then it stands in a group of its own that has no brackets and is not written. -/
  passedOn : Bool

/-- What a declared type is made of. -/
inductive Body where
  | fields (fields : List Field)
  /-- Anything but named fields: fields without names, none at all, or alternatives. -/
  | other

end Declaration

open Declaration in
/-- A declaration of a type. -/
structure Declaration where
  attributes : List Attribute
  name : String
  parameters : List Parameter
  /-- The clause that constrains the parameters, with its leading word. -/
  constraints : List Token
  body : Body

namespace Declaration

namespace Parameter

/-- The tokens of a name, a lifetime with its mark. -/
def nameTokens (p : Parameter) : List Token :=
  match p.kind with
  | .lifetime => [.mark '\'', .word p.name]
  | .type => [.word p.name]
  | .constant => [.word p.name]

/-- A parameter as it is introduced, without a default. -/
def introduction (p : Parameter) : List Token :=
  let bound := if p.bound.isEmpty then [] else .mark ':' :: p.bound
  match p.kind with
  | .constant => p.attributes ++ .word "const" :: (p.nameTokens ++ bound)
  | _ => p.attributes ++ p.nameTokens ++ bound

/-- Parameters in angle brackets, lifetimes first; nothing when there are none. -/
def bracketed (write : Parameter → List Token) (ps : List Parameter) : List Token :=
  if ps.isEmpty then []
  else
    let part (p : Parameter) : Part := ⟨write p, p.comma⟩
    let (lifetimes, others) := ps.partition (·.kind = .lifetime)
    [.group .angle (lifetimesFirst (lifetimes.map part) (others.map part))]

end Parameter

/-- The generic parameters as they are introduced. -/
def introduction (d : Declaration) : List Token :=
  Parameter.bracketed Parameter.introduction d.parameters

/-- The declared type, applied to its own parameters. -/
def typeTokens (d : Declaration) : List Token :=
  .word d.name :: Parameter.bracketed Parameter.nameTokens d.parameters

end Declaration

end Hessian
