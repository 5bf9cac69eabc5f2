import Hessian.Proofs.Decoder.Value
import Hessian.Proofs.Schema.Extension

/-!
# Reading data layer by layer

`Shape.read` is given a layer for every level of nesting that the session allows, as reading a value
is.  So it satisfies the same kind of equation: a datum is a layer whose parts are data
(`Shape.read_eq`).

## Main statements

* `Shape.read_eq` : reading a datum, without the number of levels.
-/

namespace Hessian

open Decode

variable {ι : Type} {maxDepth depth : Nat} {inner inner' : Shape ι → Decode (Datum ι)}

namespace Record

/-- The fields of a record are read alike if those of every shape are. -/
theorem agreeAt_readFields (r : Record ι) (hr : ∀ shape, Regular (inner shape))
    (h : ∀ shape, AgreeAt maxDepth depth (inner shape) (inner' shape))
    (found : List (String × Datum ι)) (names : List String) :
    AgreeAt maxDepth depth (r.readFields inner found names) (r.readFields inner' found names) := by
  induction names generalizing found with
  | nil => exact .refl _
  | cons name names ih =>
    unfold readFields
    split
    · exact (h _).bind (hr _) fun d => ih _
    · exact AgreeAt.bind reader_skip.toRegular (.refl _) fun _ => ih found

/-- Records are read alike if the data of every shape are, one level deeper. -/
theorem agreeAt_readWith (r : Record ι) (hr : ∀ shape, Regular (inner shape))
    (h : depth < maxDepth → ∀ shape, AgreeAt maxDepth (depth + 1) (inner shape) (inner' shape)) :
    AgreeAt maxDepth depth (r.readWith inner) (r.readWith inner') := by
  refine AgreeAt.bind reader_objectBegin.toRegular (.refl _) fun c => ?_
  exact (AgreeAt.nested fun hlt => r.agreeAt_readFields hr (h hlt) [] c.fieldNames).andThen _

end Record

namespace Shape

variable (Γ : Schema ι)

/-- Layers of a shape agree if what reads their parts agrees one level deeper. -/
theorem agreeAt_readWith (hr : ∀ shape, Regular (inner shape))
    (h : depth < maxDepth → ∀ shape, AgreeAt maxDepth (depth + 1) (inner shape) (inner' shape))
    (shape : Shape ι) :
    AgreeAt maxDepth depth (readWith Γ inner shape) (readWith Γ inner' shape) := by
  induction shape with
  | option shape ih =>
    intro s hm hd
    rw [readWith, readWith, bind_ok (nextIs_ok _ s), bind_ok (nextIs_ok _ s)]
    split
    · rfl
    · rw [map_eq_pure_bind, map_eq_pure_bind]
      exact ih.andThen _ s hm hd
  | list item => exact (AgreeAt.listOf (hr item) fun hlt => h hlt item).andThen _
  | map mapping item =>
    exact (AgreeAt.mapOf (reader_key mapping).toRegular (hr item) (fun _ => .refl _)
      fun hlt => h hlt item).andThen _
  | record name =>
    rw [readWith, readWith, map_eq_pure_bind, map_eq_pure_bind]
    exact ((Γ name).agreeAt_readWith hr h).andThen _
  -- the other shapes have no parts
  | _ => exact .refl _

/-- A datum is a layer whose parts are data. -/
theorem read_eq (shape : Shape ι) : shape.read Γ = readWith Γ (read Γ) shape := by
  funext s
  unfold read
  cases hl : s.maxDepth - s.depth with
  | zero =>
    refine agreeAt_readWith Γ (fun _ => regular_tooDeep) (fun hlt => ?_) shape s rfl rfl
    omega
  | succ levels =>
    refine agreeAt_readWith Γ (fun part => (reader_readWithin Γ levels part).toRegular)
      (fun _ part t hm hd => ?_) shape s rfl rfl
    rw [show t.maxDepth - t.depth = levels by omega]

end Shape

end Hessian
