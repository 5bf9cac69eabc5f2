import Hessian.Text.Unmarked

/-!
# Quoted text

Two ways of putting text between quotation marks.  `debugQuoted` is for messages: besides the
quotation mark and the backslash it escapes line ends, tabs and all other characters without a
mark of their own.  `literalQuoted` is for string literals in generated code, where only the
quotation mark, the backslash and the line feed are escaped.
-/

namespace Hessian.Text

/-- A number in lower-case hexadecimal digits. -/
def hexadecimal (n : Nat) : String := String.ofList (Nat.toDigits 16 n)

/-- A character as it stands in quoted text of a message. -/
def debugEscape (c : Char) : String :=
  match c with
  | '"' => "\\\""
  | '\\' => "\\\\"
  | '\n' => "\\n"
  | '\t' => "\\t"
  | '\r' => "\\r"
  | '\x00' => "\\0"
  | c => if isUnmarked c then "\\u\x7b" ++ hexadecimal c.toNat ++ "\x7d" else c.toString

/-- Text between quotation marks in a message. -/
def debugQuoted (s : String) : String :=
  "\"" ++ String.join (s.toList.map debugEscape) ++ "\""

/-- A character as it stands in a string literal. -/
def literalEscape (c : Char) : String :=
  match c with
  | '"' => "\\\""
  | '\\' => "\\\\"
  | '\n' => "\\n"
  | c => c.toString

/-- Text as a string literal. -/
def literalQuoted (s : String) : String :=
  "\"" ++ String.join (s.toList.map literalEscape) ++ "\""

end Hessian.Text
