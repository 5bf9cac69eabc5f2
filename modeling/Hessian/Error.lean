import Hessian.Date
import Hessian.Decimal
import Hessian.Double.Shortest
import Hessian.Text.Quoted
import Hessian.Value.Basic

/-!
# Errors

An error says what went wrong and, where a place in the input is to blame, at which offset.
`Error.message` puts it into words.  `Error.code` is the coarse view of a session: either the
input ended too early, or it did not fit.
-/

namespace Hessian

/-- The tables that a reference can point into. -/
inductive RefKind where
  | type
  | definition
  | value
deriving DecidableEq, Repr

/-- The name of a reference table, as messages give it. -/
def RefKind.name : RefKind → String
  | .type => "type"
  | .definition => "definition"
  | .value => "value"

/-- Why a value cannot be written. -/
inductive EncodeFault where
  /-- A list whose length does not fit an int. -/
  | listTooLong (length : Nat)
  /-- A reference to a container that has not been started. -/
  | danglingReference (index : Nat) (written : Nat)
  /-- A typed list without a type name, which would be read back as an untyped one. -/
  | untitledList
  /-- A typed map without a type name. -/
  | untitledMap
  /-- A class instance that has not one value for every field. -/
  | fieldCount (typeName : String) (declared held : Nat)
  /-- An unsigned number beyond the longs. -/
  | unsignedTooLarge (n : Nat)
  /-- A date whose milliseconds do not fit a long. -/
  | dateOverflow (unit : DateUnit) (count : Int)
  | instantOverflow (t : Instant)
deriving DecidableEq, Repr

/-- What is wrong, in words. -/
def EncodeFault.message : EncodeFault → String
  | .listTooLong length => "list length " ++ toString length ++ " exceeds i32"
  | .danglingReference index written =>
    "reference " ++ toString index ++ " is beyond the " ++ toString written
      ++ " values written so far"
  | .untitledList => "typed list with an empty type name"
  | .untitledMap => "typed map with an empty type name"
  | .fieldCount typeName declared held =>
    "class " ++ typeName ++ " declares " ++ toString declared
      ++ " fields but the instance holds " ++ toString held ++ " values"
  | .unsignedTooLarge n => "u64 value " ++ toString n ++ " exceeds i64::MAX"
  | .dateOverflow unit count =>
    unit.name ++ "(" ++ toString count ++ ") overflows i64 milliseconds"
  | .instantOverflow t => t.describe ++ " overflows i64 milliseconds"

/-- Why a well-formed value is not what was asked for. -/
inductive DecodeFault where
  | negativeLength (length : Int) (offset : Nat)
  /-- An integer outside the range of the type that was asked for. -/
  | outOfRange (n : Int) (typeName : String)
  | dateOutOfRange (millis : Int)
  /-- A decimal in the form of a class instance that has no field for its text. -/
  | decimalWithoutValue (typeName : String)
  | invalidDecimal (text : String) (fault : Decimal.Fault)
  /-- A map key that cannot be the key of a JSON object. -/
  | jsonKey (kind : Kind)
  /-- A double that is no JSON number. -/
  | jsonDouble (d : Double)
  | jsonReference (index : Nat)
deriving DecidableEq, Repr

/-- What is wrong, in words. -/
def DecodeFault.message : DecodeFault → String
  | .negativeLength length offset =>
    "negative list length " ++ toString length ++ " at offset " ++ toString offset
  | .outOfRange n typeName => toString n ++ " is out of range for " ++ typeName
  | .dateOutOfRange millis => "date " ++ toString millis ++ " ms is out of range"
  | .decimalWithoutValue typeName => typeName ++ " instance without a value field"
  | .invalidDecimal text fault =>
    "invalid decimal " ++ Text.debugQuoted text ++ ": " ++ fault.message
  | .jsonKey kind => kind.name ++ " map key has no JSON representation"
  | .jsonDouble d => d.render ++ " has no JSON representation"
  | .jsonReference index => "reference " ++ toString index ++ " has no JSON representation"

/-- What can go wrong in reading and writing. -/
inductive Error where
  /-- The input ended before what was announced or required. -/
  | notEnoughBuffer (offset : Nat)
  /-- A lead byte that starts nothing of what was asked for. -/
  | unexpectedType (code : UInt8) (offset : Nat)
  /-- A reference beyond the end of its table. -/
  | invalidReference (kind : RefKind) (index : Int) (offset : Nat)
  /-- A character that is cut off, or an octet that starts none. -/
  | invalidUtf8 (offset : Nat)
  /-- More nesting than the session allows. -/
  | depthLimitExceeded (limit : Nat)
  | encode (fault : EncodeFault)
  | decode (fault : DecodeFault)
  /-- A class instance without a field that its record needs. -/
  | missingField (field record : String)
deriving DecidableEq, Repr

/-- The coarse view of an error. -/
inductive ErrorCode where
  | notEnoughBuffer
  | unexpectedType
deriving DecidableEq, Repr

/-- An error code in words. -/
def ErrorCode.message : ErrorCode → String
  | .notEnoughBuffer => "There is not enough buffer"
  | .unexpectedType => "Unexpected type"

namespace Error

/-- A byte in two hexadecimal digits. -/
def byteText (b : UInt8) : String :=
  (if b < 16 then "0" else "") ++ Text.hexadecimal b.toNat

/-- An error in words. -/
def message : Error → String
  | .notEnoughBuffer offset => "There is not enough buffer at offset " ++ toString offset
  | .unexpectedType code offset =>
    "Unexpected type code 0x" ++ byteText code ++ " at offset " ++ toString offset
  | .invalidReference kind index offset =>
    "Unknown " ++ kind.name ++ " reference " ++ toString index ++ " at offset " ++ toString offset
  | .invalidUtf8 offset => "Invalid UTF-8 data at offset " ++ toString offset
  | .depthLimitExceeded limit => "Maximum nesting depth " ++ toString limit ++ " exceeded"
  | .encode fault => "Encode error: " ++ fault.message
  | .decode fault => "Decode error: " ++ fault.message
  | .missingField field record =>
    "Required field '" ++ field ++ "' not found for struct " ++ record

/-- Whether the input ended too early or did not fit. -/
def code : Error → ErrorCode
  | .notEnoughBuffer _ => .notEnoughBuffer
  | _ => .unexpectedType

/-- The offset that is to blame, where there is one. -/
def offset? : Error → Option Nat
  | .notEnoughBuffer offset => some offset
  | .unexpectedType _ offset => some offset
  | .invalidReference _ _ offset => some offset
  | .invalidUtf8 offset => some offset
  | _ => none

end Error

end Hessian
