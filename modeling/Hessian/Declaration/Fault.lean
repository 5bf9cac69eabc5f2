/-!
# Faults of declarations

Why a declaration cannot be made a class on the wire, in the constructors of `Fault`, and the
words for it.
-/

namespace Hessian.Declaration

/-- What is wrong with a declaration. -/
inductive Fault where
  /-- A wire attribute that has nothing after its path. -/
  | withoutArguments
  /-- A wire attribute with `=` after its path. -/
  | assignedArguments
  | expectedWord
  | endedBeforeWord
  /-- A keyword of the language in place of a word. -/
  | keyword (word : String)
  | expectedEquals
  | expectedText
  | endedBeforeText
  /-- More tokens than there should be. -/
  | unexpectedToken
  /-- A word that names no setting. -/
  | unknownSetting (word : String)
  /-- A type that is no record with named fields. -/
  | withoutNamedFields
  /-- Two fields with one name on the wire. -/
  | duplicateName (wireName owner : String)
deriving DecidableEq, Repr

/-- What is wrong, in words. -/
def Fault.message : Fault → String
  | .withoutArguments => "expected attribute arguments in parentheses: #[hessian(...)]"
  | .assignedArguments => "expected parentheses: #[hessian(...)]"
  | .expectedWord => "expected identifier"
  | .endedBeforeWord => "unexpected end of input, expected identifier"
  | .keyword word => "expected identifier, found keyword `" ++ word ++ "`"
  | .expectedEquals => "expected `=`"
  | .expectedText => "expected string literal"
  | .endedBeforeText => "unexpected end of input, expected string literal"
  | .unexpectedToken => "unexpected token"
  | .unknownSetting word => "Unknown attribute: " ++ word
  | .withoutNamedFields => "Only structs with named fields map onto Hessian2 class instances"
  | .duplicateName wireName owner =>
    "Field name '" ++ wireName ++ "' is duplicated for struct '" ++ owner
      ++ "'. Use #[hessian(rename = \"...\")] to pick another."

end Hessian.Declaration
