import Hessian.Declaration.Basic
import Hessian.Declaration.Lexeme
import Hessian.Declaration.Plain

/-!
# Reading declarations

A declaration is read from its tokens: attributes, perhaps how far it is visible, the word
that says what kind of type it introduces, its name, generic parameters, constraints and
fields.  Types and constraints are kept as the tokens that they consist of, in plain form.

All functions on tokens here expect angle brackets in groups.

## Main definitions

* `Field.ofTokens?` : a field from its tokens.
* `ofTokens?` : a declaration from its tokens.
* `read?` : a declaration from source text.
-/

namespace Hessian.Declaration

/-- An attribute from the tokens between its square brackets. -/
def Attribute.ofTokens : List Token → Attribute
  | [] => ⟨[], .none⟩
  | .group _ content :: _ => ⟨[], .listed content⟩
  | .mark '=' :: _ => ⟨[], .assigned⟩
  | t :: ts => { ofTokens ts with path := t :: (ofTokens ts).path }

/-- Cuts off the attributes that some tokens start with, each as what is between its square
brackets. -/
def cutAttributes : List Token → List (List Token) × List Token
  | .mark '#' :: .group .square content :: ts =>
    let (attributes, rest) := cutAttributes ts
    (content :: attributes, rest)
  | ts => ([], ts)

/-- The tokens of an attribute. -/
def attributeTokens (content : List Token) : List Token := [.mark '#', .group .square content]

/-- Drops how far something is visible. -/
def dropVisibility : List Token → List Token
  | .word "pub" :: .group .round _ :: ts => ts
  | .word "pub" :: ts => ts
  | ts => ts

/-- A field from its tokens.  In source text no type is passed on. -/
def Field.ofTokens? (tokens : List Token) : Option Field :=
  let (attributes, rest) := cutAttributes tokens
  match dropVisibility rest with
  | .word name :: .mark ':' :: type => some ⟨attributes.map .ofTokens, name, plainOf type, false⟩
  | _ => none

/-- The fields from the tokens between the braces. -/
def fieldsOfTokens? (tokens : List Token) : Option (List Field) :=
  (parts tokens).mapM fun part => Field.ofTokens? part.tokens

/-- What is said after the colon of a parameter, up to its default. -/
def boundOfTokens (tokens : List Token) : List Token :=
  plainOf (tokens.takeWhile fun t => !t.isMark '=')

/-- A parameter from the part that introduces it. -/
def Parameter.ofPart? (part : Part) : Option Parameter :=
  let (attributes, rest) := cutAttributes part.tokens
  let make (kind : ParameterKind) (name : String) (rest : List Token) : Parameter :=
    let bound := match rest with
      | .mark ':' :: bound => boundOfTokens bound
      | _ => []
    ⟨attributes.flatMap attributeTokens, kind, name, bound, part.comma⟩
  match rest with
  | .mark '\'' :: .word name :: rest => some (make .lifetime name rest)
  | .word "const" :: .word name :: rest => some (make .constant name rest)
  | .word name :: rest => some (make .type name rest)
  | _ => none

/-- Cuts off the generic parameters that some tokens start with. -/
def cutParameters? : List Token → Option (List Parameter × List Token)
  | .group .angle content :: ts =>
    ((parts content).mapM Parameter.ofPart?).map fun parameters => (parameters, ts)
  | ts => some ([], ts)

/-- The constraints that are between the parameters and the fields.  Without any, their
leading word says nothing and is left out. -/
def constraintsOfTokens : List Token → List Token
  | [.word "where"] => []
  | tokens => plainOf tokens

/-- A declaration of a record from what is after its attributes and its keyword.  Named fields
stand between braces, and nothing stands after them. -/
def ofRecordTokens? (attributes : List Attribute) (name : String) (tokens : List Token) :
    Option Declaration := do
  let (parameters, rest) ← cutParameters? tokens
  match rest.getLast? with
  | some (.group .brace content) =>
    return ⟨attributes, name, parameters, constraintsOfTokens rest.dropLast,
      .fields (← fieldsOfTokens? content)⟩
  | _ => return ⟨attributes, name, parameters, [], .other⟩

/-- A declaration from its tokens. -/
def ofTokens? (tokens : List Token) : Option Declaration :=
  let (contents, rest) := cutAttributes tokens
  let attributes := contents.map Attribute.ofTokens
  match dropVisibility rest with
  | .word "struct" :: .word name :: rest => ofRecordTokens? attributes name rest
  | .word "enum" :: .word name :: _ => some ⟨attributes, name, [], [], .other⟩
  | .word "union" :: .word name :: _ => some ⟨attributes, name, [], [], .other⟩
  | _ => none

/-- A declaration from source text. -/
def read? (source : String) : Option Declaration :=
  (tokens? source).bind fun tokens => ofTokens? (angled tokens)

end Hessian.Declaration
