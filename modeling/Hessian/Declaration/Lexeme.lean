import Hessian.Declaration.Literal
import Hessian.Declaration.Token

/-!
# Reading tokens

Source text is cut into lexemes, and lexemes are grouped by their brackets into tokens.

Blanks and comments have no lexemes.  A documentation comment stands for an attribute with
its text, and is read as that attribute.  Angle brackets are single marks here.

## Main definitions

* `Lexeme.scan?` : the lexemes of source text.
* `groupLexemes?` : the tokens of lexemes whose brackets match.
* `tokens?` : the tokens of source text.
-/

namespace Hessian.Declaration

/-- The pieces that source text is cut into. -/
inductive Lexeme where
  | token (t : Token)
  | opening (bracket : Bracket)
  | closing (bracket : Bracket)

namespace Lexeme

/-- A lexeme and what is after it. -/
def before (t : Token) (rest : List Char) : List Lexeme × List Char := ([.token t], rest)

/-- A documentation comment as an attribute, of what it stands in if it is `inner` and else of
what comes next. -/
def documentation (inner : Bool) (body : List Char) : List Lexeme :=
  .token (.mark '#') :: (if inner then [.token (.mark '!')] else []) ++
    [.opening .square, .token (.word "doc"), .token (.mark '='),
      .token (.text (String.ofList body)), .closing .square]

/-- A line that starts with `//`, by what is after that. -/
def ofLine (cs : List Char) : List Lexeme × List Char :=
  let line := cs.takeWhile (· != '\n')
  let rest := cs.dropWhile (· != '\n')
  let withoutReturn (body : List Char) :=
    if body.getLast? = some '\r' then body.dropLast else body
  match line with
  | '/' :: '/' :: _ => ([], rest)
  | '/' :: body => (documentation false (withoutReturn body), rest)
  | '!' :: body => (documentation true (withoutReturn body), rest)
  | _ => ([], rest)

/-- A comment that starts with `/*`, by what is after that. -/
def ofComment? (cs : List Char) : Option (List Lexeme × List Char) :=
  (commentBody? 0 cs).map fun (body, rest) =>
    match body with
    | '*' :: '*' :: _ => ([], rest)
    | '*' :: d :: body => (documentation false (d :: body), rest)
    | '!' :: body => (documentation true body, rest)
    | _ => ([], rest)

/-- A literal between quotation marks that stands for itself, after its first letters. -/
def ofQuoted? (letters : List Char) (quote : Char) (cs : List Char) :
    Option (List Lexeme × List Char) :=
  (quotedBody? quote cs).map fun (body, rest) =>
    let spelling := letters ++ quote :: (body ++ quote :: rest.takeWhile isWordPart)
    before (.literal (String.ofList spelling)) (rest.dropWhile isWordPart)

/-- A string literal, after its quotation mark. -/
def ofText? (cs : List Char) : Option (List Lexeme × List Char) :=
  (quotedBody? '"' cs).map fun (body, rest) =>
    before (.text (String.ofList (unescape body))) (rest.dropWhile isWordPart)

/-- A raw literal whose first letters, as in `br`, are before a number of hashes. -/
def ofRaw? (letters : List Char) (cs : List Char) : Option (List Lexeme × List Char) :=
  let hashes := cs.takeWhile (· == '#')
  match cs.dropWhile (· == '#') with
  | '"' :: cs =>
    (rawBody? hashes cs).map fun (body, rest) =>
      let spelling :=
        letters ++ hashes ++ '"' :: (body ++ '"' :: (hashes ++ rest.takeWhile isWordPart))
      let token : Token :=
        if letters = ['r'] then .text (String.ofList body) else .literal (String.ofList spelling)
      before token (rest.dropWhile isWordPart)
  | _ => none

/-- A word. -/
def ofWord (c : Char) (cs : List Char) : List Lexeme × List Char :=
  before (.word (String.ofList (c :: cs.takeWhile isWordPart))) (cs.dropWhile isWordPart)

/-- A word, or a literal that starts with letters. -/
def ofLetter? (c : Char) (cs : List Char) : Option (List Lexeme × List Char) :=
  match c, cs with
  | 'r', '#' :: d :: ds =>
    if startsWord d then
      some (before (.word (String.ofList ('r' :: '#' :: d :: ds.takeWhile isWordPart)))
        (ds.dropWhile isWordPart))
    else ofRaw? ['r'] cs
  | 'r', '"' :: _ => ofRaw? ['r'] cs
  | 'b', '"' :: ds => ofQuoted? ['b'] '"' ds
  | 'b', '\'' :: ds => ofQuoted? ['b'] '\'' ds
  | 'c', '"' :: ds => ofQuoted? ['c'] '"' ds
  | 'b', 'r' :: '"' :: ds => ofRaw? ['b', 'r'] ('"' :: ds)
  | 'b', 'r' :: '#' :: ds => ofRaw? ['b', 'r'] ('#' :: ds)
  | 'c', 'r' :: '"' :: ds => ofRaw? ['c', 'r'] ('"' :: ds)
  | 'c', 'r' :: '#' :: ds => ofRaw? ['c', 'r'] ('#' :: ds)
  | c, cs => some (ofWord c cs)

/-- A character literal, or the mark of a lifetime. -/
def ofApostrophe? (cs : List Char) : Option (List Lexeme × List Char) :=
  match cs with
  | '\\' :: _ => ofQuoted? [] '\'' cs
  | _ :: '\'' :: _ => ofQuoted? [] '\'' cs
  | _ => some (before (.mark '\'') cs)

/-- What the source starts with, and what is after it. -/
def next? (c : Char) (cs : List Char) : Option (List Lexeme × List Char) :=
  if isBlank c then some ([], cs)
  else if startsWord c then ofLetter? c cs
  else if c.isDigit then
    let (digits, rest) := numberTail true false false cs
    some (before (.literal (String.ofList (c :: digits))) rest)
  else match c, cs with
    | '"', cs => ofText? cs
    | '\'', cs => ofApostrophe? cs
    | '/', '/' :: cs => some (ofLine cs)
    | '/', '*' :: cs => ofComment? cs
    | c, cs =>
      match Bracket.ofOpening? c, Bracket.ofClosing? c with
      | some bracket, _ => some ([.opening bracket], cs)
      | _, some bracket => some ([.closing bracket], cs)
      | _, _ => some (before (.mark c) cs)

/-- The lexemes of source text, in at most `fuel` pieces. -/
def scanWith? : (fuel : Nat) → List Char → Option (List Lexeme)
  | _, [] => some []
  | 0, _ :: _ => none
  | fuel + 1, c :: cs => do
    let (front, rest) ← next? c cs
    return front ++ (← scanWith? fuel rest)

/-- The lexemes of source text.  No piece is empty, so there are at most as many as there are
characters. -/
def scan? (source : String) : Option (List Lexeme) :=
  scanWith? source.toList.length source.toList

end Lexeme

/-! ## Groups -/

/-- Groups lexemes.  `current` are the tokens before them in the same group, the last one
first, and `outer` the groups around that, each with its bracket and the tokens before. -/
def groupFrom? (outer : List (Bracket × List Token)) (current : List Token) :
    List Lexeme → Option (List Token)
  | [] => if outer.isEmpty then some current.reverse else none
  | .token t :: ls => groupFrom? outer (t :: current) ls
  | .opening bracket :: ls => groupFrom? ((bracket, current) :: outer) [] ls
  | .closing bracket :: ls =>
    match outer with
    | [] => none
    | (opened, before) :: outer =>
      if opened = bracket then groupFrom? outer (.group bracket current.reverse :: before) ls
      else none

/-- The tokens of lexemes whose brackets match. -/
def groupLexemes? (lexemes : List Lexeme) : Option (List Token) := groupFrom? [] [] lexemes

/-- The tokens of source text. -/
def tokens? (source : String) : Option (List Token) := Lexeme.scan? source >>= groupLexemes?

end Hessian.Declaration
