import Hessian.Declaration.Token

/-!
# Angle brackets

The characters `<` and `>` are brackets in types, where they come in pairs.  Elsewhere they are
operators or, as in `->`, parts of one.  Which they are shows only from what is around them,
so they are read as marks first, and `angled` groups those that pair off.  A mark that finds
no partner is left as it is.

Grouping says nothing new about the text: by `spellingsOf_angled` the tokens are written as
before.

## Main definitions

* `angled` : tokens with angle brackets in groups.
-/

namespace Hessian.Declaration

/-- The tokens before some place, when the angle brackets before it are open.  `outer` has what
stands before each of them, the innermost first, and `current` what stands after all of them.
Both are in reverse. -/
def opened : (outer : List (List Token)) → (current : List Token) → List Token
  | [], current => current.reverse
  | before :: outer, current => opened outer before ++ .mark '<' :: current.reverse

/-- Groups the angle brackets of tokens, at every level, after what `opened` tells of the tokens
before them.  `arrow` says that a `-` comes just before, so that a `>` is no bracket. -/
def angledFrom (outer : List (List Token)) (current : List Token) (arrow : Bool) :
    List Token → List Token
  | [] => opened outer current
  | .mark '<' :: ts => angledFrom (current :: outer) [] false ts
  | .mark '>' :: ts =>
    match arrow, outer with
    | false, before :: outer =>
      angledFrom outer (.group .angle current.reverse :: before) false ts
    | _, _ => angledFrom outer (.mark '>' :: current) false ts
  | .group bracket content :: ts =>
    angledFrom outer (.group bracket (angledFrom [] [] false content) :: current) false ts
  | t :: ts => angledFrom outer (t :: current) (t.isMark '-') ts

/-- Tokens with angle brackets in groups. -/
def angled (tokens : List Token) : List Token := angledFrom [] [] false tokens

theorem opened_cons (outer : List (List Token)) (current : List Token) (t : Token) :
    opened outer (t :: current) = opened outer current ++ [t] := by
  cases outer <;> simp [opened]

theorem spellingsOf_angledFrom (outer : List (List Token)) (current : List Token) (arrow : Bool)
    (tokens : List Token) :
    spellingsOf (angledFrom outer current arrow tokens)
      = spellingsOf (opened outer current) ++ spellingsOf tokens := by
  fun_induction angledFrom outer current arrow tokens <;>
    simp_all [opened, opened_cons, spellingsOf, spellingsOf_append, Token.spellings,
      Bracket.opening, Bracket.closing]

/-- Grouped tokens are written as they were. -/
theorem spellingsOf_angled (tokens : List Token) :
    spellingsOf (angled tokens) = spellingsOf tokens := by
  simp [angled, spellingsOf_angledFrom, opened, spellingsOf]

end Hessian.Declaration
