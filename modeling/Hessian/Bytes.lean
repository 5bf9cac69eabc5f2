/-!
# Byte strings and big-endian words

A byte string is a list of octets.  `Bytes.ofNat width n` is the big-endian word
of `width` octets that holds `n` modulo `256 ^ width`, and `Bytes.toNat` reads any
byte string as one big-endian number.  The two are inverse on words that fit:
`toNat_ofNat`.
-/

-- Powers are those of the core library, also where others are in scope.
attribute [default_instance (high + 1)] instPowNat
attribute [instance (high)] instPowNat

namespace Hessian

/-- A string of octets. -/
abbrev Bytes := List UInt8

namespace Bytes

/-- The big-endian word of `width` octets that holds `n` modulo `256 ^ width`. -/
def ofNat : (width : Nat) → (n : Nat) → Bytes
  | 0, _ => []
  | width + 1, n => UInt8.ofNat (n / 256 ^ width) :: ofNat width n

/-- The number that a byte string spells, the first octet counting for everything above
the remaining ones. -/
def toNat : Bytes → Nat
  | [] => 0
  | b :: rest => b.toNat * 256 ^ rest.length + toNat rest

/-- Whether there are at least `n` octets.  Only the first `n` are looked at. -/
def hasAtLeast : Nat → Bytes → Bool
  | 0, _ => true
  | _ + 1, [] => false
  | n + 1, _ :: rest => hasAtLeast n rest

@[simp] theorem length_ofNat (width n : Nat) : (ofNat width n).length = width := by
  induction width with
  | zero => rfl
  | succ width ih => simp [ofNat, ih]

theorem hasAtLeast_iff {n : Nat} {bytes : Bytes} :
    hasAtLeast n bytes = true ↔ n ≤ bytes.length := by
  induction bytes generalizing n with
  | nil => cases n <;> simp [hasAtLeast]
  | cons b rest ih => cases n <;> simp [hasAtLeast, ih]

/-- A word reads back as the number it was made of, modulo its range. -/
theorem toNat_ofNat (width n : Nat) : toNat (ofNat width n) = n % 256 ^ width := by
  induction width with
  | zero => simp [ofNat, toNat, Nat.mod_one]
  | succ width ih =>
    simp only [ofNat, toNat, ih, length_ofNat, UInt8.toNat_ofNat', Nat.reducePow]
    rw [Nat.pow_succ, Nat.mod_mul, Nat.mul_comm (256 ^ width), Nat.add_comm]

/-- A byte string of `n` octets spells a number below `256 ^ n`. -/
theorem toNat_lt (bytes : Bytes) : toNat bytes < 256 ^ bytes.length := by
  induction bytes with
  | nil => simp [toNat]
  | cons b rest ih =>
    have hb : b.toNat ≤ 255 := Nat.le_of_lt_succ b.toNat_lt
    have := Nat.mul_le_mul_right (256 ^ rest.length) hb
    rw [toNat, List.length_cons, Nat.pow_succ]
    omega

end Bytes

end Hessian
