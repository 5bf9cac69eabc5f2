import Hessian.Double.Basic

/-!
# JSON values

A `Json` number is an integer that fits a long, an integer above the longs, or a double.  The
members of an object are sorted by key, each key once; `Members.insert` keeps them so.
-/

namespace Hessian

/-- A JSON value. -/
inductive Json where
  | null
  | boolean (b : Bool)
  /-- An integer that fits a long. -/
  | integer (n : Int64)
  /-- An integer above the longs. -/
  | natural (n : UInt64)
  | float (d : Double)
  | string (s : String)
  | array (items : List Json)
  | object (members : List (String × Json))
deriving Inhabited

/-- The members of an object. -/
abbrev Members := List (String × Json)

namespace Members

/-- Members with a value put in for a key, which replaces the one that is there. -/
def insert (key : String) (value : Json) : Members → Members
  | [] => [(key, value)]
  | (k, v) :: rest =>
    if key < k then (key, value) :: (k, v) :: rest
    else if key = k then (key, value) :: rest
    else (k, v) :: insert key value rest

/-- Members put in one after another. -/
def ofPairs (pairs : List (String × Json)) : Members :=
  pairs.foldl (fun members pair => insert pair.1 pair.2 members) []

end Members

namespace Json

/-- An integer without sign, above the longs or not. -/
def ofNatural (n : UInt64) : Json :=
  if n.toNat < 2 ^ 63 then .integer (Int64.ofNat n.toNat) else .natural n

end Json

end Hessian
