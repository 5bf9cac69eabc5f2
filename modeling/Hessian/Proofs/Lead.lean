import Hessian.Lead

/-!
# Lead bytes that can be written

`Lead.ofByte` never gives a form that cannot be written, and a form that can be written is read
back from its byte.  These are the forms whose numbers lie in the ranges of the grammar,
`Lead.Proper`.
-/

namespace Hessian.Lead

/-- The numbers of a form lie in the ranges that its lead bytes cover. -/
def Proper : Lead → Prop
  | .int 0 high => -0x10 ≤ high ∧ high ≤ 0x2f
  | .int 1 high => -0x8 ≤ high ∧ high ≤ 0x7
  | .int 2 high => -0x4 ≤ high ∧ high ≤ 0x3
  | .int _ _ => False
  | .long 0 high => -0x8 ≤ high ∧ high ≤ 0xf
  | .long 1 high => -0x8 ≤ high ∧ high ≤ 0x7
  | .long 2 high => -0x4 ≤ high ∧ high ≤ 0x3
  | .long _ _ => False
  | .binary isFinal 0 high => isFinal = true ∧ high ≤ 0xf
  | .binary isFinal 1 high => isFinal = true ∧ high ≤ 0x3
  | .binary _ 2 high => high = 0
  | .binary _ _ _ => False
  | .string isFinal 0 high => isFinal = true ∧ high ≤ 0x1f
  | .string isFinal 1 high => isFinal = true ∧ high ≤ 0x3
  | .string _ 2 high => high = 0
  | .string _ _ _ => False
  | .list _ (.short length) => length ≤ 0x7
  | .objectShort index => index ≤ 0xf
  | .unassigned => False
  | _ => True

/-- What holds of all integers of a range, counted from its lower end, holds of each of them. -/
private theorem of_range {P : Int → Prop} {low n : Int} (count : Nat)
    (h : ∀ k : Fin count, P (low + k)) (hl : low ≤ n) (hc : n < low + count) : P n := by
  have := h ⟨(n - low).toNat, by omega⟩
  rwa [show low + ((n - low).toNat : Int) = n by omega] at this

/-- A form that can be written is read back from its byte. -/
theorem ofByte_toByte (lead : Lead) (h : lead.Proper) : ofByte lead.toByte = lead := by
  cases lead with
  | boolean b => cases b <;> rfl
  | map typed => cases typed <;> rfl
  | int tail high =>
    match tail, h with
    | 0, ⟨hl, hc⟩ =>
      exact of_range (P := fun n => ofByte (toByte (.int 0 n)) = .int 0 n) 64
        (by decide) hl (Int.lt_of_le_of_lt hc (by decide))
    | 1, ⟨hl, hc⟩ =>
      exact of_range (P := fun n => ofByte (toByte (.int 1 n)) = .int 1 n) 16
        (by decide) hl (Int.lt_of_le_of_lt hc (by decide))
    | 2, ⟨hl, hc⟩ =>
      exact of_range (P := fun n => ofByte (toByte (.int 2 n)) = .int 2 n) 8
        (by decide) hl (Int.lt_of_le_of_lt hc (by decide))
  | long tail high =>
    match tail, h with
    | 0, ⟨hl, hc⟩ =>
      exact of_range (P := fun n => ofByte (toByte (.long 0 n)) = .long 0 n) 24
        (by decide) hl (Int.lt_of_le_of_lt hc (by decide))
    | 1, ⟨hl, hc⟩ =>
      exact of_range (P := fun n => ofByte (toByte (.long 1 n)) = .long 1 n) 16
        (by decide) hl (Int.lt_of_le_of_lt hc (by decide))
    | 2, ⟨hl, hc⟩ =>
      exact of_range (P := fun n => ofByte (toByte (.long 2 n)) = .long 2 n) 8
        (by decide) hl (Int.lt_of_le_of_lt hc (by decide))
  | binary isFinal tail high =>
    match isFinal, tail, h with
    | true, 0, ⟨_, h⟩ => exact (by decide : ∀ k < 16, ofByte (toByte (.binary true 0 k)) =
        .binary true 0 k) high (Nat.lt_succ_of_le h)
    | true, 1, ⟨_, h⟩ => exact (by decide : ∀ k < 4, ofByte (toByte (.binary true 1 k)) =
        .binary true 1 k) high (Nat.lt_succ_of_le h)
    | isFinal, 2, h =>
      obtain rfl : high = 0 := h
      cases isFinal <;> rfl
  | string isFinal tail high =>
    match isFinal, tail, h with
    | true, 0, ⟨_, h⟩ => exact (by decide : ∀ k < 32, ofByte (toByte (.string true 0 k)) =
        .string true 0 k) high (Nat.lt_succ_of_le h)
    | true, 1, ⟨_, h⟩ => exact (by decide : ∀ k < 4, ofByte (toByte (.string true 1 k)) =
        .string true 1 k) high (Nat.lt_succ_of_le h)
    | isFinal, 2, h =>
      obtain rfl : high = 0 := h
      cases isFinal <;> rfl
  | list typed length =>
    cases length with
    | terminated => cases typed <;> rfl
    | counted => cases typed <;> rfl
    | short length =>
      exact (by decide : ∀ (typed : Bool) (k : Nat), k < 8 →
        ofByte (toByte (.list typed (.short k))) = .list typed (.short k)) typed length
          (Nat.lt_succ_of_le h)
  | objectShort index =>
    exact (by decide : ∀ k < 16, ofByte (toByte (.objectShort k)) = .objectShort k) index
      (Nat.lt_succ_of_le h)
  | unassigned => exact h.elim
  | _ => rfl

end Hessian.Lead
