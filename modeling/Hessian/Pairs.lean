/-!
# Keyed pairs in the order of insertion

Maps that keep the order of their keys are lists of pairs in which no key stands twice.  When two
keys are the same is up to whoever owns the map.
-/

namespace Hessian.Pairs

variable {κ α : Type}

/-- Pairs with a value put in for a key.  A key that is already there keeps its place and its own
form. -/
def insert (same : κ → κ → Bool) : (pairs : List (κ × α)) → (key : κ) → (value : α) → List (κ × α)
  | [], key, value => [(key, value)]
  | (k, v) :: rest, key, value =>
    if same key k then (k, value) :: rest else (k, v) :: insert same rest key value

/-- Pairs inserted one after another, so that of equal keys the first gives the place and the last
the value. -/
def collect (same : κ → κ → Bool) (pairs : List (κ × α)) : List (κ × α) :=
  pairs.foldl (fun found pair => insert same found pair.1 pair.2) []

end Hessian.Pairs
