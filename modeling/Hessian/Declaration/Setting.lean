import Hessian.Declaration.Basic
import Hessian.Declaration.Fault

/-!
# Settings in attributes

A wire attribute of a field holds settings, each with at most one comma after it.  A wire
attribute of a declaration holds the name of its class and nothing else.

An attribute may occur several times.  Then its settings come one after another, and where
two of them disagree the later one counts.

## Main definitions

* `Setting`, `settings` : the settings, and how they are read from tokens.
* `FieldOptions` : what the settings of a field amount to.
* `Field.options`, `className` : what the attributes of a field and of a declaration say.
-/

namespace Hessian.Declaration

/-- The fault of a word that names no setting. -/
def unknownWord (word : String) : Fault :=
  if keywords.contains word then .keyword word else .unknownSetting word

/-- A setting of a field. -/
inductive Setting where
  /-- The name of the field on the wire. -/
  | rename (wireName : String)
  /-- The field may be missing on the wire. -/
  | default
  /-- The field is never on the wire. -/
  | skip
deriving DecidableEq, Repr

/-- The settings that tokens stand for.  `separable` says that a setting comes just before,
so that a comma may be next. -/
def settingsFrom (separable : Bool) : List Token → Except Fault (List Setting)
  | [] => .ok []
  | .mark c :: rest =>
    if separable && c == ',' then settingsFrom false rest else .error .expectedWord
  | .word name :: rest =>
    if name = "rename" then
      match rest with
      | .mark '=' :: .text wireName :: rest =>
        (settingsFrom true rest).map (.rename wireName :: ·)
      | [.mark '='] => .error .endedBeforeText
      | .mark '=' :: _ => .error .expectedText
      | _ => .error .expectedEquals
    else if name = "default" then (settingsFrom true rest).map (.default :: ·)
    else if name = "skip" then (settingsFrom true rest).map (.skip :: ·)
    else .error (unknownWord name)
  | _ => .error .expectedWord

/-- The settings that the tokens of an attribute stand for. -/
def settings (tokens : List Token) : Except Fault (List Setting) := settingsFrom false tokens

/-- The name of a class, from the tokens of an attribute. -/
def classNameOfTokens : List Token → Except Fault String
  | [] => .error .endedBeforeWord
  | .word name :: rest =>
    if name = "class" then
      match rest with
      | [.mark '=', .text className] => .ok className
      | .mark '=' :: .text _ :: _ => .error .unexpectedToken
      | [.mark '='] => .error .endedBeforeText
      | .mark '=' :: _ => .error .expectedText
      | _ => .error .expectedEquals
    else .error (unknownWord name)
  | _ => .error .expectedWord

/-- Reads the arguments of an attribute. -/
def Attribute.read {α : Type} (read : List Token → Except Fault α) (a : Attribute) :
    Except Fault α :=
  match a.arguments with
  | .none => .error .withoutArguments
  | .assigned => .error .assignedArguments
  | .listed tokens => read tokens

/-- Reads the arguments of all wire attributes, one attribute after another. -/
def readWire {α : Type} (read : List Token → Except Fault α) (attributes : List Attribute) :
    Except Fault (List α) :=
  (attributes.filter Attribute.isWire).mapM (Attribute.read read)

/-- What the settings of a field amount to. -/
structure FieldOptions where
  rename : Option String
  default : Bool
  skip : Bool
deriving DecidableEq, Repr

namespace FieldOptions

/-- The options of a field without settings. -/
def none : FieldOptions := ⟨.none, false, false⟩

/-- The options after one more setting. -/
def set (options : FieldOptions) : Setting → FieldOptions
  | .rename wireName => { options with rename := some wireName }
  | .default => { options with default := true }
  | .skip => { options with skip := true }

/-- The options after all of some settings. -/
def ofSettings (settings : List Setting) : FieldOptions := settings.foldl set none

end FieldOptions

/-- The options that attributes give to a field. -/
def optionsOf (attributes : List Attribute) : Except Fault FieldOptions :=
  (readWire settings attributes).map fun settings => .ofSettings settings.flatten

/-- The options of a field. -/
def Field.options (f : Field) : Except Fault FieldOptions := optionsOf f.attributes

/-- The class name that attributes give to a type of this name. -/
def classNameOf (attributes : List Attribute) (name : String) : Except Fault String :=
  (readWire classNameOfTokens attributes).map fun names => names.getLast?.getD name

/-- The name of the class that a declaration is on the wire. -/
def className (d : Declaration) : Except Fault String := classNameOf d.attributes d.name

end Hessian.Declaration
