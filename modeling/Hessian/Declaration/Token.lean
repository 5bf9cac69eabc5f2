import Hessian.Text.Quoted

/-!
# Tokens of source text

Record declarations are read from source text, and the code derived from them is source text
again.  Both are seen here as tokens, where brackets come in pairs: a `Token.group` is a pair
of brackets with all that stands between them.

`render` writes tokens with one space between any two.  Every punctuation character is a
token of its own, so `::` has two of them.  An angle bracket is a mark when it stands alone and
belongs to a group when it is paired, and is written alike.

## Main definitions

* `Token` : the tokens.
* `Token.spellings`, `render` : tokens as text.
* `keywords` : the words that cannot be names.
-/

namespace Hessian.Declaration

/-- The brackets that come in pairs. -/
inductive Bracket where
  | round
  | square
  | brace
  | angle
deriving DecidableEq, Repr

namespace Bracket

/-- The bracket that starts a group. -/
def opening : Bracket → Char
  | .round => '('
  | .square => '['
  | .brace => '{'
  | .angle => '<'

/-- The bracket that ends a group. -/
def closing : Bracket → Char
  | .round => ')'
  | .square => ']'
  | .brace => '}'
  | .angle => '>'

/-- The brackets that a character always starts. -/
def ofOpening? : Char → Option Bracket
  | '(' => some .round
  | '[' => some .square
  | '{' => some .brace
  | _ => none

/-- The brackets that a character always ends. -/
def ofClosing? : Char → Option Bracket
  | ')' => some .round
  | ']' => some .square
  | '}' => some .brace
  | _ => none

end Bracket

/-- The tokens of source text. -/
inductive Token where
  /-- An identifier or a keyword.  A raw identifier has its `r#`. -/
  | word (name : String)
  /-- A string literal, by the text it stands for. -/
  | text (value : String)
  /-- Any other literal, by its spelling. -/
  | literal (spelling : String)
  /-- A punctuation character. -/
  | mark (c : Char)
  /-- A pair of brackets and what stands between them. -/
  | group (bracket : Bracket) (content : List Token)
deriving Inhabited, Repr

/-- Whether a token is a given punctuation character. -/
def Token.isMark (c : Char) : Token → Bool
  | .mark d => d == c
  | _ => false

mutual

/-- The pieces of text that a token is written as. -/
def Token.spellings : Token → List String
  | .word name => [name]
  | .text value => [Text.literalQuoted value]
  | .literal spelling => [spelling]
  | .mark c => [c.toString]
  | .group bracket content =>
    bracket.opening.toString :: (spellingsOf content ++ [bracket.closing.toString])

/-- The pieces of text that some tokens are written as. -/
def spellingsOf : List Token → List String
  | [] => []
  | t :: ts => t.spellings ++ spellingsOf ts

end

/-- Tokens as text. -/
def render (tokens : List Token) : String := " ".intercalate (spellingsOf tokens)

theorem spellingsOf_append (ts us : List Token) :
    spellingsOf (ts ++ us) = spellingsOf ts ++ spellingsOf us := by
  induction ts with
  | nil => rfl
  | cons t ts ih => simp [spellingsOf, ih]

/-- The words that cannot be names. -/
def keywords : List String :=
  ["_", "abstract", "as", "async", "await", "become", "box", "break", "const", "continue",
    "crate", "do", "dyn", "else", "enum", "extern", "false", "final", "fn", "for", "if", "impl",
    "in", "let", "loop", "macro", "match", "mod", "move", "mut", "override", "priv", "pub",
    "ref", "return", "Self", "self", "static", "struct", "super", "trait", "true", "try", "type",
    "typeof", "unsafe", "unsized", "use", "virtual", "where", "while", "yield"]

end Hessian.Declaration
