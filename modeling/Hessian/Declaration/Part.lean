import Hessian.Declaration.Token

/-!
# Parts between commas

Fields, parameters and arguments are parts of a group.  Commas keep them apart, and the last
one may have a comma after it or not.

## Main definitions

* `Part` : a part and whether it has its comma.
* `parts`, `joinParts` : the parts of tokens, and tokens from parts.
* `lifetimesFirst` : parts in the order that generic parameters and arguments have.
-/

namespace Hessian.Declaration

/-- A part of some tokens. -/
structure Part where
  tokens : List Token
  /-- Whether a comma comes next. -/
  comma : Bool

namespace Part

/-- A part and the comma after it. -/
def withComma (p : Part) : List Token := p.tokens ++ if p.comma then [.mark ','] else []

/-- Whether a part is a lifetime and nothing else. -/
def isLifetime (p : Part) : Bool :=
  match p.tokens with
  | [.mark '\'', .word _] => true
  | _ => false

end Part

/-- The parts of tokens when `current`, in reverse, is what the first one has already. -/
def partsFrom (current : List Token) : List Token → List Part
  | [] => if current.isEmpty then [] else [⟨current.reverse, false⟩]
  | t :: ts =>
    if t.isMark ',' then ⟨current.reverse, true⟩ :: partsFrom [] ts
    else partsFrom (t :: current) ts

/-- The parts of tokens.  Nothing after a last comma is no part. -/
def parts (tokens : List Token) : List Part := partsFrom [] tokens

/-- Parts one after another, each with its comma. -/
def joinParts (ps : List Part) : List Token := ps.flatMap Part.withComma

/-- Lifetimes and after them the other parts.  If the last of the lifetimes has no comma, one is
put in between. -/
def lifetimesFirst (lifetimes others : List Part) : List Token :=
  let unended := lifetimes.getLast?.any fun p => !p.comma
  let gap : List Token := if unended && !others.isEmpty then [.mark ','] else []
  joinParts lifetimes ++ gap ++ joinParts others

end Hessian.Declaration
