import Hessian.Declaration.Setting

/-!
# Bindings of fields

A binding ties a declared field to its name on the wire.  No two fields that are on the wire
have one name there; a skipped field is not on the wire and takes no name.

## Main definitions

* `Binding` : the bindings.
* `bindings` : the bindings of a declaration.
* `isOption` : whether a type is the optional form of another.
-/

namespace Hessian.Declaration

/-- The keywords that start a type other than a path. -/
def typeKeywords : List String := ["dyn", "extern", "fn", "for", "impl", "unsafe"]

/-- Whether tokens go on with another bound, so that they belong to no path. -/
def hasSum (ts : List Token) : Bool :=
  ts.any fun
    | .mark c => c == '+'
    | _ => false

/-- The last name of a path that goes on after `name`.  Arguments in parentheses may give a
type, and the path goes on after that only if it stands in parentheses too. -/
def lastNameFrom? (name : String) : List Token → Option String
  | [] => some name
  | .mark ':' :: .mark ':' :: .group .angle _ :: ts => lastNameFrom? name ts
  | .mark ':' :: .mark ':' :: .word next :: ts => lastNameFrom? next ts
  | .group .round _ :: .mark '-' :: .mark '>' :: .group .round _ :: ts => lastNameFrom? name ts
  | .group .round _ :: .mark '-' :: .mark '>' :: ts => if hasSum ts then none else some name
  | .group .round _ :: ts => lastNameFrom? name ts
  | .group .angle _ :: ts => lastNameFrom? name ts
  | _ => none

/-- The last name of a type that is a path. -/
def lastName? : (type : List Token) → Option String
  | .word name :: ts => if typeKeywords.contains name then none else lastNameFrom? name ts
  | .mark ':' :: .mark ':' :: .word name :: ts => lastNameFrom? name ts
  | .group .angle _ :: .mark ':' :: .mark ':' :: .word name :: ts => lastNameFrom? name ts
  | _ => none

/-- Whether a type is the optional form of another, so that it has a value when the field is
missing. -/
def isOption (type : List Token) : Bool := lastName? type == some "Option"

/-- A field and its name on the wire. -/
structure Binding where
  name : String
  type : List Token
  passedOn : Bool
  wireName : String
  options : FieldOptions

namespace Binding

/-- The binding of a field that has these options. -/
def ofField (f : Field) (options : FieldOptions) : Binding :=
  ⟨f.name, f.type, f.passedOn, options.rename.getD f.name, options⟩

/-- Whether a binding is on the wire. -/
def onWire (b : Binding) : Bool := !b.options.skip

/-- Whether a field may be missing on the wire.  Only a type that is a path by itself is seen to be
the optional form of another, and one that is passed on is a group. -/
def isOptional (b : Binding) : Bool := b.options.default || (!b.passedOn && isOption b.type)

end Binding

/-- The bindings of fields, when the names in `taken` are on the wire before them. -/
def bindingsFrom (owner : String) (taken : List String) :
    List Field → Except Fault (List Binding)
  | [] => .ok []
  | f :: fs => do
    let b := Binding.ofField f (← f.options)
    if b.onWire then
      if taken.contains b.wireName then throw (.duplicateName b.wireName owner)
      return b :: (← bindingsFrom owner (b.wireName :: taken) fs)
    else
      return b :: (← bindingsFrom owner taken fs)

/-- The bindings of a declaration. -/
def bindings (d : Declaration) : Except Fault (List Binding) :=
  match d.body with
  | .fields fields => bindingsFrom d.name [] fields
  | .other => .error .withoutNamedFields

end Hessian.Declaration
