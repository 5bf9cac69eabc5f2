import Hessian.Declaration.Angle
import Hessian.Declaration.Part

/-!
# Plain form of types

A type can be spelled in several ways that say the same.  Types and constraints are kept in a
plain form, in which

* the arguments of a path are not set off by `::` when they stand in parentheses,
* lifetimes come first among the arguments between angle brackets,
* a parameter that `for` introduces has no colon without a bound after it, and
* the position of a part of a tuple is a number of its own, also right before another one.

What is handed to an attribute or to a macro is no type yet, and is kept as it is.

## Main definitions

* `plainOf` : the plain form of tokens with angle brackets in groups.
-/

namespace Hessian.Declaration

/-- The positions that a number after a point stands for: two, if it has a point. -/
def positions (number : String) : List Token :=
  let digits := number.toList.takeWhile (· != '.')
  match number.toList.dropWhile (· != '.') with
  | [] => [.literal number]
  | [_] => [.literal (String.ofList digits), .mark '.']
  | _ :: next =>
    [.literal (String.ofList digits), .mark '.', .literal (String.ofList next)]

/-- A part without a colon at its end. -/
def Part.withoutEmptyBound (p : Part) : Part :=
  if p.tokens.getLast?.any (·.isMark ':') then { p with tokens := p.tokens.dropLast } else p

/-- Parameters without colons that have no bound after them. -/
def withoutEmptyBounds (content : List Token) : List Token :=
  joinParts ((parts content).map Part.withoutEmptyBound)

/-- Arguments with the lifetimes first. -/
def argumentsInOrder (content : List Token) : List Token :=
  let (lifetimes, others) := (parts content).partition Part.isLifetime
  lifetimesFirst lifetimes others

mutual

/-- A token in plain form. -/
def Token.plain : Token → Token
  | .group .angle content => .group .angle (argumentsInOrder (plainOf content))
  | .group bracket content => .group bracket (plainOf content)
  | t => t

/-- Tokens in plain form.  A `!` after a name hands what comes next to a macro; after a keyword
it is an operator. -/
def plainOf : List Token → List Token
  | [] => []
  | .word "for" :: .group .angle content :: ts =>
    .word "for" :: .group .angle (withoutEmptyBounds (plainOf content)) :: plainOf ts
  | .word name :: .mark '!' :: .group bracket content :: ts =>
    let content := if keywords.contains name then plainOf content else content
    .word name :: .mark '!' :: .group bracket content :: plainOf ts
  | .mark '#' :: .group .square content :: ts =>
    .mark '#' :: .group .square content :: plainOf ts
  | .mark '#' :: .mark '!' :: .group .square content :: ts =>
    .mark '#' :: .mark '!' :: .group .square content :: plainOf ts
  | .mark ':' :: .mark ':' :: .group .round content :: ts =>
    .group .round (plainOf content) :: plainOf ts
  | .mark '.' :: .mark '.' :: ts => .mark '.' :: .mark '.' :: plainOf ts
  | .mark '.' :: .literal number :: ts => .mark '.' :: (positions number ++ plainOf ts)
  | t :: ts => t.plain :: plainOf ts

end

end Hessian.Declaration
