import Hessian.Value.Basic
import Hessian.Double.Shortest
import Hessian.Text.Quoted

/-!
# Descriptions of values

`Value.describe` gives a value as text for a person to read.  Of binary data only the first
sixteen octets are shown, each in hexadecimal without leading zeros.
-/

namespace Hessian

/-- A definition as text. -/
def Definition.describe (c : Definition) : String :=
  "type: " ++ c.typeName ++ " , field_list: " ++ " ".intercalate c.fieldNames

namespace Value

/-- How many octets of binary data a description shows. -/
def shownOctets : Nat := 16

/-- The first octets of binary data as text, a space after each. -/
def describeBytes (bytes : Bytes) : String :=
  String.join ((bytes.take shownOctets).map fun b => Text.hexadecimal b.toNat ++ " ")

mutual

/-- A value as text. -/
def describe : Value → String
  | .null => "Type: Null"
  | .boolean b => "Type: boolean, value[" ++ toString b ++ "]"
  | .int n => "Type: integer, value[" ++ toString n.toInt ++ "]"
  | .long n => "Type: long, value[" ++ toString n.toInt ++ "]"
  | .double d => "Type: double, value[" ++ d.render ++ "]"
  | .date n => "Type: date, value[" ++ toString n.toInt ++ " ms]"
  | .binary b => "Type: binary, size[" ++ toString b.length ++ "], value[" ++ describeBytes b ++ "]"
  | .string s => "Type: string, value[" ++ s ++ "]"
  | .ref i => "Type: Ref, target index: " ++ toString i.toNat
  | .list (some type) items =>
    "Type: typedlist, type[" ++ type ++ "], value[" ++ describeLines items ++ "]"
  | .list none items => "Type: untypedlist, value[" ++ describeLines items ++ "]"
  | .map (some type) entries =>
    "Type: typedmap, type[" ++ type ++ "], value[" ++ describeEntries entries ++ "]"
  | .map none entries => "Type: untypedmap, value[" ++ describeEntries entries ++ "]"
  | .object c fields =>
    "Type: classinstance, def[" ++ c.describe ++ "], value[" ++ describeFields fields ++ "]"

/-- Items as text, one to a line. -/
def describeLines : List Value → String
  | [] => ""
  | v :: vs => describe v ++ "\n" ++ describeLines vs

/-- Field values as text, a space after each. -/
def describeFields : List Value → String
  | [] => ""
  | v :: vs => describe v ++ " " ++ describeFields vs

/-- Entries as text, one to a line. -/
def describeEntries : Entries → String
  | [] => ""
  | (key, value) :: entries =>
    "key: " ++ describe key ++ " value: " ++ describe value ++ "\n" ++ describeEntries entries

end

end Value

end Hessian
