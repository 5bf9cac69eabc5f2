import Hessian.Proofs.Grammar.Sound
import Hessian.Proofs.RoundTrip.Scalar

/-!
# Numbers take their shortest form

Each kind of number has a few forms, which can be put in a row by their length.  The writer takes
the first one of the row that can hold the number.  What the reader takes for a number is a form of
it, and the number and the kind of form determine the octets.  So the written octets are the only
ones of their length that are read as the number, and all others are longer: `Encode.Shortest`.

Doubles have two forms of one octet, but no double has both.  The thousandths are left out: no
double is ever written as a number of thousandths, although this may be shorter.

## Main statements

* `Encode.numbers_shortest` : no number is read from fewer octets than are written for it.
-/

namespace Hessian

/-! ## Octets and the numbers they spell -/

namespace Bytes

/-- The octets of a word do not depend on what is above it. -/
theorem ofNat_add_mul (width high n : Nat) :
    ofNat width (high * 256 ^ width + n) = ofNat width n := by
  induction width generalizing high with
  | zero => rfl
  | succ width ih =>
    have hp : 0 < 256 ^ width := Nat.pow_pos (by decide)
    have hsplit : high * 256 ^ (width + 1) + n = high * 256 * 256 ^ width + n := by
      rw [Nat.pow_succ, Nat.mul_comm (256 ^ width), Nat.mul_assoc]
    have hlead : UInt8.ofNat ((high * 256 * 256 ^ width + n) / 256 ^ width) =
        UInt8.ofNat (n / 256 ^ width) := by
      rw [Nat.mul_comm, Nat.mul_add_div hp]
      apply UInt8.toNat_inj.mp
      rw [UInt8.toNat_ofNat', UInt8.toNat_ofNat', Nat.mul_comm]
      exact Nat.mul_add_mod_self_left 256 high _
    rw [ofNat, hsplit, ih, hlead, ofNat]

/-- Octets are the word of the number that they spell. -/
theorem ofNat_length_toNat (bytes : Bytes) : ofNat bytes.length bytes.toNat = bytes := by
  induction bytes with
  | nil => rfl
  | cons b rest ih =>
    have hp : 0 < 256 ^ rest.length := Nat.pow_pos (by decide)
    have hlead : (b.toNat * 256 ^ rest.length + toNat rest) / 256 ^ rest.length = b.toNat := by
      rw [Nat.mul_comm, Nat.mul_add_div hp, Nat.div_eq_of_lt (toNat_lt rest), Nat.add_zero]
    rw [toNat, List.length_cons, ofNat, ofNat_add_mul, ih, hlead, UInt8.ofNat_toNat]

end Bytes

namespace Lead

/-- A byte that the table has for a form is the byte of this form. -/
theorem toByte_of_covers {lead : Lead} {b : UInt8} (h : lead.covers b) : lead.toByte = b := by
  rw [← ofByte_of_covers h]
  refine toByte_ofByte b fun hu => ?_
  rw [ofByte_of_covers h] at hu
  subst hu
  cases h

/-- The table has forms only for numbers in their ranges. -/
theorem proper_of_covers {lead : Lead} {b : UInt8} (h : lead.covers b) : lead.Proper := by
  unfold covers at h
  split at h
  -- the ranges of the table are those of the numbers, moved by the first byte
  all_goals first
    | trivial
    | simp only [Bool.and_eq_true, decide_eq_true_eq, beq_iff_eq, UInt8.le_iff_toNat_le,
        UInt8.reduceToNat] at h
      simp only [Proper, true_and]
      omega

end Lead

namespace Encode

/-- The octets of a form that carries the part of a number above `tail` octets in the lead byte. -/
def splitOctets (lead : Nat → Int → Lead) (tail : Nat) (n : Int) : Bytes :=
  (lead tail (n / (256 ^ tail : Nat))).toByte :: lowOctets tail n

@[simp] theorem length_lowOctets (width : Nat) (n : Int) : (lowOctets width n).length = width :=
  Bytes.length_ofNat ..

@[simp] theorem length_splitOctets (lead : Nat → Int → Lead) (tail : Nat) (n : Int) :
    (splitOctets lead tail n).length = tail + 1 := by
  rw [splitOctets, List.length_cons, length_lowOctets]

section Word

variable {word : Bytes} {width : Nat}

/-- A word is the remainder of the number that it ends. -/
theorem emod_add_word (hw : word.length = width) (high : Int) :
    (high * 256 ^ width + word.toNat) % (256 ^ width : Nat) = word.toNat := by
  subst hw
  rw [Int.natCast_pow, Int.add_comm]
  exact (Int.add_mul_emod_self_right ..).trans
    (Int.emod_eq_of_lt (Int.natCast_nonneg _) (Int.ofNat_lt.mpr (Bytes.toNat_lt word)))

/-- The octets of a number are the word that ends it. -/
theorem lowOctets_add_word (hw : word.length = width) (high : Int) :
    lowOctets width (high * 256 ^ width + word.toNat) = word := by
  rw [lowOctets, emod_add_word hw, Int.toNat_natCast, ← hw, Bytes.ofNat_length_toNat]

/-- The part of a number above a word. -/
theorem ediv_add_word (hw : word.length = width) (high : Int) :
    (high * 256 ^ width + word.toNat) / (256 ^ width : Nat) = high := by
  have hp : (0 : Int) < (256 ^ width : Nat) := Int.natCast_pos.mpr (Nat.pow_pos (by decide))
  have hsum := high_low width (high * 256 ^ width + word.toNat)
  rw [emod_add_word hw, Int.toNat_natCast] at hsum
  rw [Int.natCast_pow] at hp hsum ⊢
  exact Int.eq_of_mul_eq_mul_right (Int.ne_of_gt hp) ((Int.add_left_inj _).mp hsum)

/-- The octets of a number in two's complement are the word that it was read from. -/
theorem lowOctets_bmod (hw : word.length = width) :
    lowOctets width ((word.toNat : Int).bmod (256 ^ width)) = word := by
  rw [lowOctets, Int.bmod_emod]
  have := lowOctets_add_word hw 0
  rwa [Int.zero_mul, Int.zero_add, lowOctets] at this

end Word

/-! ## Forms in a row -/

/-- If the forms become longer in a row then the first one that can hold a number is the shortest
one of those that can. -/
theorem first_fitting {forms : List (Bool × Bytes)} {bytes other : Bytes}
    (hlen : forms.Pairwise fun f g => f.2.length < g.2.length)
    (hfirst : forms.find? (fun f => f.1) = some (true, bytes)) (ho : (true, other) ∈ forms) :
    other = bytes ∨ bytes.length < other.length := by
  obtain ⟨-, before, after, rfl, hbefore⟩ := List.find?_eq_some_iff_append.mp hfirst
  rcases List.mem_append.mp ho with h | h
  · exact absurd (hbefore _ h) Bool.false_ne_true
  rcases List.mem_cons.mp h with h | h
  · exact .inl (congrArg Prod.snd h)
  · exact .inr (List.rel_of_pairwise_cons (List.pairwise_append.mp hlen).2.1 h)

/-- The octets are written, are read back, and are the only shortest ones: whatever else the reader
takes for the number is longer. -/
def Shortest {α : Type} (write : Encode Unit) (read : Decode α) (a : α) : Prop :=
  ∃ bytes, write = emit bytes ∧ read.Reads bytes a ∧
    ∀ (s t : Decoder) (other : Bytes), read s = .ok a t → s.input = other ++ t.input →
      other ≠ bytes → bytes.length < other.length

/-- The first form of the row that can hold the number is written. -/
def WritesFirst (forms : List (Bool × Bytes)) (write : Encode Unit) : Prop :=
  ∃ bytes, forms.find? (fun f => f.1) = some (true, bytes) ∧ write = emit bytes

namespace WritesFirst

theorem last (bytes : Bytes) : WritesFirst [(true, bytes)] (emit bytes) := ⟨bytes, rfl, rfl⟩

/-- A branch of the writer puts one more form in front. -/
theorem cons {forms : List (Bool × Bytes)} {write : Encode Unit} {p : Prop} [Decidable p]
    (h : WritesFirst forms write) (bytes : Bytes) :
    WritesFirst ((decide p, bytes) :: forms) (if p then emit bytes else write) := by
  by_cases hp : p
  · rw [if_pos hp, decide_eq_true hp]
    exact ⟨bytes, rfl, rfl⟩
  · rw [if_neg hp, decide_eq_false hp]
    exact h

end WritesFirst

/-- What is written is the shortest if the reader finds only forms of the row, and the first one
that fits is written. -/
theorem Undone.shortest {α : Type} {write : Encode Unit} {read : Decode α} {a : α}
    {form : Bytes → α → Prop} {forms : List (Bool × Bytes)} (hundone : Undone write read a)
    (hlen : forms.Pairwise fun f g => f.2.length < g.2.length) (hfirst : WritesFirst forms write)
    (hfinds : ∀ levels, Decode.Finds levels (Decode.Keeping form) read)
    (hform : ∀ {bytes}, form bytes a → (true, bytes) ∈ forms) : Shortest write read a := by
  obtain ⟨bytes, hw, hr⟩ := hundone
  obtain ⟨_, hfind, hw'⟩ := hfirst
  obtain rfl := emit_injective (hw.symm.trans hw')
  refine ⟨bytes, hw, hr, fun s t other hs hi hne => ?_⟩
  obtain ⟨taken, hp, hF, -⟩ := hfinds _ s a t hs rfl
  obtain rfl : other = taken := List.append_cancel_right (hi.symm.trans hp.input)
  exact (first_fitting hlen hfind (hform hF)).resolve_left hne

/-- Both ends of a range belong to it. -/
theorem between_iff {low high n : Int} : between low high n = true ↔ low ≤ n ∧ n ≤ high := by
  rw [between, Bool.and_eq_true, decide_eq_true_eq, decide_eq_true_eq]

theorem between_toInt (n : Int32) : between (-0x80000000) 0x7fffffff n.toInt = true :=
  between_iff.mpr ⟨n.le_toInt, Int.le_of_lt_add_one n.toInt_lt⟩

/-- The octets that are read as a number whose high part is in the lead byte. -/
theorem split_of_covers {lead : Nat → Int → Lead} {b : UInt8} {tail : Nat} {high : Int}
    {word : Bytes} (hl : (lead tail high).covers b) (hw : word.length = tail) :
    b :: word = splitOctets lead tail (high * 256 ^ tail + word.toNat) := by
  rw [splitOctets, ediv_add_word hw, lowOctets_add_word hw, Lead.toByte_of_covers hl]

/-- The octets that are read as a number in four octets of its own. -/
theorem octets_of_covers_int32 {lead : Lead} {b : UInt8} {word : Bytes} (hl : lead.covers b)
    (hw : word.length = 4) :
    lead.toByte :: lowOctets 4 (Int32.ofNat word.toNat).toInt = b :: word := by
  rw [Lead.toByte_of_covers hl, Int32.toInt_ofNat']
  exact congrArg _ (lowOctets_bmod hw)

/-- The octets that are read as a number in eight octets of its own. -/
theorem octets_of_covers_int64 {lead : Lead} {b : UInt8} {word : Bytes} (hl : lead.covers b)
    (hw : word.length = 8) :
    lead.toByte :: lowOctets 8 (Int64.ofNat word.toNat).toInt = b :: word := by
  rw [Lead.toByte_of_covers hl, Int64.toInt_ofNat']
  exact congrArg _ (lowOctets_bmod hw)

/-! ## Ints -/

/-- The forms that an int could take. -/
def intForms (n : Int) : List (Bool × Bytes) :=
  [(decide (between (-0x10) 0x2f n = true), splitOctets .int 0 n),
    (decide (between (-0x800) 0x7ff n = true), splitOctets .int 1 n),
    (decide (between (-0x40000) 0x3ffff n = true), splitOctets .int 2 n),
    (true, Lead.intWord.toByte :: lowOctets 4 n)]

theorem int_writesFirst (n : Int32) : WritesFirst (intForms n.toInt) (int n) :=
  .cons (.cons (.cons (.last _) _) _) _

/-- The octets of an int are one of the forms that it could take. -/
theorem mem_intForms {bytes : Bytes} {n : Int32} (h : Grammar.IntForm bytes n) :
    (true, bytes) ∈ intForms n.toInt := by
  cases h with
  | @split b tail high word lead width =>
    have hlt := width ▸ Bytes.toNat_lt word
    rw [split_of_covers lead width]
    -- the range of a tail is the one for which the writer takes this tail or a shorter one
    match tail, Lead.proper_of_covers lead, hlt with
    | 0, ⟨hl, hu⟩, hlt | 1, ⟨hl, hu⟩, hlt | 2, ⟨hl, hu⟩, hlt =>
      rw [Int32.toInt_ofInt_of_le (by omega) (by omega), intForms]
      simp only [List.mem_cons, Prod.mk.injEq, between_iff, true_eq_decide_iff, and_true, true_and]
      omega
  | @word b word lead width =>
    rw [← octets_of_covers_int32 lead width]
    simp [intForms]

theorem int_shortest (n : Int32) : Shortest (int n) Decode.int n :=
  (int_undone n).shortest (by simp [intForms]) (int_writesFirst n) (fun _ => Decode.finds_int)
    mem_intForms

/-! ## Longs -/

/-- The forms that a long could take. -/
def longForms (n : Int) : List (Bool × Bytes) :=
  [(decide (between (-0x08) 0x0f n = true), splitOctets .long 0 n),
    (decide (between (-0x800) 0x7ff n = true), splitOctets .long 1 n),
    (decide (between (-0x40000) 0x3ffff n = true), splitOctets .long 2 n),
    (decide (between (-0x80000000) 0x7fffffff n = true), Lead.longInt.toByte :: lowOctets 4 n),
    (true, Lead.longWord.toByte :: lowOctets 8 n)]

theorem long_writesFirst (n : Int64) : WritesFirst (longForms n.toInt) (long n) :=
  .cons (.cons (.cons (.cons (.last _) _) _) _) _

theorem mem_longForms {bytes : Bytes} {n : Int64} (h : Grammar.LongForm bytes n) :
    (true, bytes) ∈ longForms n.toInt := by
  cases h with
  | @split b tail high word lead width =>
    have hlt := width ▸ Bytes.toNat_lt word
    rw [split_of_covers lead width]
    match tail, Lead.proper_of_covers lead, hlt with
    | 0, ⟨hl, hu⟩, hlt | 1, ⟨hl, hu⟩, hlt | 2, ⟨hl, hu⟩, hlt =>
      rw [Int64.toInt_ofInt_of_le (by omega) (by omega), longForms]
      simp only [List.mem_cons, Prod.mk.injEq, between_iff, true_eq_decide_iff, and_true, true_and]
      omega
  | @int b word lead width =>
    rw [Int32.toInt_toInt64, ← octets_of_covers_int32 lead width]
    have hfit := between_toInt (.ofNat word.toNat)
    generalize (Int32.ofNat word.toNat).toInt = n at hfit ⊢
    simp [longForms, hfit]
  | @word b word lead width =>
    rw [← octets_of_covers_int64 lead width]
    simp [longForms]

theorem long_shortest (n : Int64) : Shortest (long n) Decode.long n :=
  (long_undone n).shortest (by simp [longForms]) (long_writesFirst n) (fun _ => Decode.finds_long)
    mem_longForms

/-! ## Dates -/

/-- The forms that a date could take. -/
def dateForms (n : Int) : List (Bool × Bytes) :=
  [(decide (n % DateUnit.minutes.factor = 0 ∧
      between (-0x80000000) 0x7fffffff (n / DateUnit.minutes.factor) = true),
      Lead.dateMinutes.toByte :: lowOctets 4 (n / DateUnit.minutes.factor)),
    (true, Lead.dateMillis.toByte :: lowOctets 8 n)]

theorem date_writesFirst (millis : Int64) : WritesFirst (dateForms millis.toInt) (date millis) :=
  .cons (.last _) _

theorem mem_dateForms {bytes : Bytes} {millis : Int64} (h : Grammar.DateForm bytes millis) :
    (true, bytes) ∈ dateForms millis.toInt := by
  cases h with
  | @millis b word lead width =>
    rw [← octets_of_covers_int64 lead width]
    simp [dateForms]
  | @minutes b word lead width =>
    rw [← octets_of_covers_int32 lead width]
    have hfit := between_toInt (.ofNat word.toNat)
    generalize (Int32.ofNat word.toNat).toInt = n at hfit ⊢
    obtain ⟨hl, hu⟩ := between_iff.mp hfit
    rw [Int64.toInt_ofInt_of_le (by omega) (by omega)]
    simp [dateForms, DateUnit.factor, hfit]

theorem date_shortest (millis : Int64) : Shortest (date millis) Decode.date millis :=
  (date_undone millis).shortest (by simp [dateForms]) (date_writesFirst millis)
    (fun _ => Decode.finds_date) mem_dateForms

/-! ## Doubles -/

/-- How long the written form of a double is at most. -/
theorem double_length (d : Double) : ∃ bytes, double d = emit bytes ∧ bytes.length ≤ 9 ∧
    ∀ n, d.whole? = some n → (n = 0 ∨ n = 1 → bytes.length ≤ 1) ∧
      (-0x80 ≤ n ∧ n ≤ 0x7f → bytes.length ≤ 2) ∧ (-0x8000 ≤ n ∧ n ≤ 0x7fff → bytes.length ≤ 3) := by
  have hfull : (Lead.doubleWord.toByte :: Bytes.ofNat 8 d.bits.toNat).length = 9 := by
    rw [List.length_cons, Bytes.length_ofNat]
  unfold double
  cases hw : d.whole? with
  | none => exact ⟨_, rfl, Nat.le_of_eq hfull, nofun⟩
  | some n =>
    simp only [between_iff, Option.some.injEq, forall_eq']
    split
    · exact ⟨[_], rfl, by decide, fun _ => Nat.le_refl 1, fun _ => by decide, fun _ => by decide⟩
    split
    · exact ⟨[_], rfl, by decide, fun _ => Nat.le_refl 1, fun _ => by decide, fun _ => by decide⟩
    split
    · refine ⟨_, rfl, ?_⟩
      rw [List.length_cons, length_lowOctets]
      omega
    split
    · refine ⟨_, rfl, ?_⟩
      rw [List.length_cons, length_lowOctets]
      omega
    · refine ⟨_, rfl, ?_⟩
      omega

/-- The written form of a double is at most as long as any form of it but the thousandths. -/
theorem double_length_le {d : Double} {bytes other : Bytes} (hw : double d = emit bytes)
    (h : Grammar.DoubleForm other d) (hm : other.head? ≠ some 0x5f) :
    bytes.length ≤ other.length := by
  obtain ⟨_, hw', hfull, hwhole⟩ := double_length d
  obtain rfl := emit_injective (hw.symm.trans hw')
  cases h with
  -- a short form is of a whole number, so the writer has one at least as short
  | zero => exact (hwhole 0 Double.whole?_zero).1 (.inl rfl)
  | one => exact (hwhole 1 Double.whole?_one).1 (.inr rfl)
  | @byte b word lead width =>
    have hl := (Int8.ofNat word.toNat).le_toInt
    have hu := (Int8.ofNat word.toNat).toInt_lt
    rw [List.length_cons, width]
    exact (hwhole _ (Double.whole?_ofInt (by omega))).2.1 ⟨hl, Int.le_of_lt_add_one hu⟩
  | @short b word lead width =>
    have hl := (Int16.ofNat word.toNat).le_toInt
    have hu := (Int16.ofNat word.toNat).toInt_lt
    rw [List.length_cons, width]
    exact (hwhole _ (Double.whole?_ofInt (by omega))).2.2 ⟨hl, Int.le_of_lt_add_one hu⟩
  | @milli b word lead width =>
    rw [← Lead.toByte_of_covers lead] at hm
    exact absurd rfl hm
  | @word b word lead width =>
    rw [List.length_cons, width]
    exact hfull

theorem double_shortest {d : Double} (hd : d ≠ .negZero) :
    ∃ bytes, double d = emit bytes ∧ Decode.double.Reads bytes d ∧
      ∀ (s t : Decoder) (other : Bytes), Decode.double s = .ok d t → s.input = other ++ t.input →
        other.head? ≠ some 0x5f → bytes.length ≤ other.length := by
  obtain ⟨bytes, hw, hr⟩ := double_undone d
  rw [Double.norm, if_neg hd] at hr
  refine ⟨bytes, hw, hr, fun s t other hs hi hm => ?_⟩
  obtain ⟨taken, hp, hF, -⟩ := Decode.finds_double s d t hs rfl
  obtain rfl : other = taken := List.append_cancel_right (hi.symm.trans hp.input)
  exact double_length_le hw hF hm

/-! ## All numbers -/

/-- Ints, longs and dates are written in the only shortest form that is read as them.  Doubles other
than the negative zero are read back bit by bit, and no form of theirs is shorter than the written
one, unless it gives thousandths. -/
theorem numbers_shortest :
    (∀ n : Int32, Shortest (int n) Decode.int n) ∧
      (∀ n : Int64, Shortest (long n) Decode.long n) ∧
      (∀ millis : Int64, Shortest (date millis) Decode.date millis) ∧
      ∀ d : Double, d ≠ .negZero → ∃ bytes, double d = emit bytes ∧ Decode.double.Reads bytes d ∧
        ∀ (s t : Decoder) (other : Bytes), Decode.double s = .ok d t →
          s.input = other ++ t.input → other.head? ≠ some 0x5f → bytes.length ≤ other.length :=
  ⟨int_shortest, long_shortest, date_shortest, fun _ => double_shortest⟩

/-- The double `1` is written in a single octet, and is read from no fewer. -/
theorem numbers_shortest_one :
    double .one = emit [0x5c] ∧ Decode.double.Reads [0x5c] .one ∧
      ∀ (s t : Decoder) (other : Bytes), Decode.double s = .ok .one t →
        s.input = other ++ t.input → other.head? ≠ some 0x5f → 1 ≤ other.length := by
  obtain ⟨bytes, hw, hr, hmin⟩ := numbers_shortest.2.2.2 .one (by decide)
  have hone : double .one = emit [0x5c] := by
    simp [double, form, Lead.toByte]
  obtain rfl := emit_injective (hw.symm.trans hone)
  exact ⟨hone, hr, hmin⟩

end Encode

end Hessian
