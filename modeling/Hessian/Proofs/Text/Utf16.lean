import Hessian.Proofs.Text.Scan
import Hessian.Text.Unicode

/-!
# Strings as wire characters and back

`wire` is the form in which a character of a string stands on the wire, and `utf16` are its UTF-16
units.  Both its wire form and its UTF-8 form spell these units, and UTF-16 is read back without a
loss.  So it makes no difference which of its two ways `Text.ofCharacters` takes: where the strict
one succeeds the lossy one would have given the same (`ofCharacters_eq_lossy`).

## Main statements

* `surrogatePairs_utf8` : what is written of the UTF-8 form of a string.
* `ofCharacters_wire` : that it is read back as the string.
-/

namespace Hessian.Text

/-- The UTF-16 units of a character. -/
def utf16 (c : Char) : List Nat :=
  if c.toNat ≤ 0xffff then [c.toNat] else [highSurrogate c.toNat, lowSurrogate c.toNat]

/-- The wire form of a character. -/
def wire (c : Char) : List Character :=
  if c.toNat ≤ 0xffff then [String.utf8EncodeChar c]
  else [ofUnit (highSurrogate c.toNat), ofUnit (lowSurrogate c.toNat)]

/-- Characters are no surrogates. -/
theorem toNat_valid (c : Char) :
    c.toNat < 0xd800 ∨ (0xdfff < c.toNat ∧ c.toNat < 0x110000) := c.valid

/-! ## The octets of a character -/

section LeadLength

variable {lead : UInt8}

theorem leadLength_one (h : lead.toNat < 0x80) : leadLength lead = 1 := by
  unfold leadLength
  simp only
  rw [if_pos h]

theorem leadLength_two (h : 0xc0 ≤ lead.toNat) (h' : lead.toNat < 0xe0) : leadLength lead = 2 := by
  unfold leadLength
  simp only
  rw [if_neg (by omega), if_neg (by omega), if_pos h']

theorem leadLength_three (h : 0xe0 ≤ lead.toNat) (h' : lead.toNat < 0xf0) :
    leadLength lead = 3 := by
  unfold leadLength
  simp only
  rw [if_neg (by omega), if_neg (by omega), if_neg (by omega), if_pos h']

theorem leadLength_four (h : 0xf0 ≤ lead.toNat) (h' : lead.toNat < 0xf8) : leadLength lead = 4 := by
  unfold leadLength
  simp only
  rw [if_neg (by omega), if_neg (by omega), if_neg (by omega), if_neg (by omega), if_pos h']

end LeadLength

/-- The UTF-8 form of a character is a complete character that spells its number.  It has four
octets, and one that says so, exactly if the character lies beyond the basic plane. -/
theorem utf8EncodeChar_spec (c : Char) :
    Character.Complete (String.utf8EncodeChar c) ∧
      payload (String.utf8EncodeChar c) = c.toNat ∧
      ((String.utf8EncodeChar c).length = 4 ↔ 0xffff < c.toNat) ∧
      (0xffff < c.toNat → ∃ b ∈ String.utf8EncodeChar c, 0xf0 ≤ b.toNat) := by
  have h := toNat_valid c
  have hb (n : Nat) : (UInt8.ofNat n).toNat = n % 256 := UInt8.toNat_ofNat'
  unfold String.utf8EncodeChar
  simp only [show c.val.toNat = c.toNat by rfl]
  split
  · refine ⟨leadLength_one ?_, ?_, ?_, ?_⟩
    all_goals simp [payload, hb]
    all_goals omega
  split
  · refine ⟨leadLength_two ?_ ?_, ?_, ?_, ?_⟩
    all_goals simp [payload, continuation, hb]
    all_goals omega
  split
  · refine ⟨leadLength_three ?_ ?_, ?_, ?_, ?_⟩
    all_goals simp [payload, continuation, hb]
    all_goals omega
  · refine ⟨leadLength_four ?_ ?_, ?_, ?_, ?_⟩
    all_goals simp [payload, continuation, hb]
    all_goals omega

/-- The character of a UTF-16 unit is complete, spells the unit and has three octets. -/
theorem ofUnit_spec {unit : Nat} (h : unit ≤ 0xffff) :
    (ofUnit unit).Complete ∧ payload (ofUnit unit) = unit ∧ (ofUnit unit).length = 3 := by
  have hb (n : Nat) : (UInt8.ofNat n).toNat = n % 256 := UInt8.toNat_ofNat'
  refine ⟨leadLength_three ?_ ?_, ?_, rfl⟩
  all_goals simp only [ofUnit, payload, continuation, hb]
  all_goals omega

/-- The two halves of a surrogate pair are halves, and lie in the basic plane. -/
theorem surrogates_spec (point : Nat) (h : 0x10000 ≤ point) (h' : point < 0x110000) :
    (0xd800 ≤ highSurrogate point ∧ highSurrogate point < 0xdc00) ∧
      (0xdc00 ≤ lowSurrogate point ∧ lowSurrogate point < 0xe000) := by
  unfold highSurrogate lowSurrogate
  omega

/-- The wire form of a character consists of complete characters. -/
theorem complete_wire (c : Char) : ∀ w ∈ wire c, w.Complete := by
  intro w hw
  have hc := toNat_valid c
  unfold wire at hw
  split at hw
  · rw [List.mem_singleton.mp hw]
    exact (utf8EncodeChar_spec c).1
  · have hs := surrogates_spec c.toNat (by omega) (by omega)
    simp only [List.mem_cons, List.not_mem_nil, or_false] at hw
    rcases hw with rfl | rfl
    · exact (ofUnit_spec (by omega)).1
    · exact (ofUnit_spec (by omega)).1

/-! ## Writing -/

/-- The characters of a string are complete in UTF-8. -/
theorem complete_utf8 (chars : List Char) :
    ∀ w ∈ chars.map String.utf8EncodeChar, Character.Complete w := by
  intro w hw
  obtain ⟨c, -, rfl⟩ := List.mem_map.mp hw
  exact (utf8EncodeChar_spec c).1

/-- All the characters of a string are found in its UTF-8 form, and nothing else. -/
theorem scan_utf8 (s : String) :
    (scan (utf8 s).length (utf8 s)).characters = s.toList.map String.utf8EncodeChar ∧
      (scan (utf8 s).length (utf8 s)).rest = [] := by
  have hc := complete_utf8 s.toList
  have h : utf8 s = (s.toList.map String.utf8EncodeChar).flatten := List.flatMap_def
  rw [h]
  exact scan_all hc (length_le_flatten hc)

/-- What has been written before only stands in front. -/
theorem surrogatePairsFrom_utf8 (found : List Character) (position : Nat) (chars : List Char) :
    surrogatePairsFrom found position (chars.map String.utf8EncodeChar) =
      .ok (found.reverse ++ chars.flatMap wire) := by
  induction chars generalizing found position with
  | nil => simp [surrogatePairsFrom]
  | cons c chars ih =>
    obtain ⟨-, hp, hl, -⟩ := utf8EncodeChar_spec c
    have hc := toNat_valid c
    rw [List.map_cons, surrogatePairsFrom, hp]
    split
    · next h4 =>
      have hw : wire c = [ofUnit (highSurrogate c.toNat), ofUnit (lowSurrogate c.toNat)] :=
        if_neg (Nat.not_le.mpr (hl.mp h4))
      have hin : (decide (0x10000 ≤ c.toNat) && decide (c.toNat ≤ 0x10ffff)) = true := by
        simp only [Bool.and_eq_true, decide_eq_true_eq]
        have := hl.mp h4
        omega
      simp only [hin, if_true]
      rw [ih, List.flatMap_cons, hw]
      simp
    · next h4 =>
      have hw : wire c = [String.utf8EncodeChar c] := if_pos (Nat.not_lt.mp fun h => h4 (hl.mpr h))
      rw [ih, List.flatMap_cons, hw]
      simp

/-- The characters of a string are written in their wire form. -/
theorem surrogatePairs_utf8 (chars : List Char) :
    surrogatePairs (chars.map String.utf8EncodeChar) = .ok (chars.flatMap wire) :=
  surrogatePairsFrom_utf8 [] 0 chars

/-- Without an octet that may start a character beyond the basic plane there is none, and the UTF-8
form is the wire form. -/
theorem flatMap_wire_of_basic {chars : List Char}
    (h : ∀ c ∈ chars, ∀ b ∈ String.utf8EncodeChar c, ¬ 0xf0 ≤ b.toNat) :
    chars.flatMap wire = chars.map String.utf8EncodeChar := by
  induction chars with
  | nil => rfl
  | cons c chars ih =>
    have hc : c.toNat ≤ 0xffff := by
      apply Nat.not_lt.mp
      intro hc
      obtain ⟨b, hb, hf⟩ := (utf8EncodeChar_spec c).2.2.2 hc
      exact h c List.mem_cons_self b hb hf
    rw [List.flatMap_cons, List.map_cons, ih fun c hm => h c (List.mem_cons_of_mem _ hm), wire,
      if_pos hc]
    rfl

/-! ## UTF-16 -/

/-- A unit that is no first half of a pair stands for itself. -/
theorem ofUnitsFrom_lone {unit : Nat} (h : isHighSurrogate unit = false) (found : List Char)
    (rest : List Nat) :
    ofUnitsFrom found (unit :: rest) = ofUnitsFrom (ofLoneUnit unit :: found) rest := by
  cases rest with
  | nil => rfl
  | cons next rest => simp [ofUnitsFrom, h]

/-- The code point of a character is that of no other. -/
theorem ofNatAux_eq {n : Nat} {c : Char} (hvalid : n.isValidChar) (hn : n = c.toNat) :
    Char.ofNatAux n hvalid = c := by
  subst hn
  exact Char.ext (UInt32.toNat_inj.mp rfl)

/-- A character of the basic plane is its own unit. -/
theorem ofLoneUnit_toNat (c : Char) : ofLoneUnit c.toNat = c := by
  have h : c.toNat.isValidChar := c.valid
  rw [ofLoneUnit, dif_pos h, ofNatAux_eq h rfl]

/-- A character beyond the basic plane is the character of its two surrogates. -/
theorem ofPair_surrogates {c : Char} (h : 0xffff < c.toNat) :
    ofPair (highSurrogate c.toNat) (lowSurrogate c.toNat) = c := by
  unfold ofPair highSurrogate lowSurrogate
  rw [show 0x10000 + (0xd800 + (c.toNat - 0x10000) / 0x400 - 0xd800) * 0x400 +
    (0xdc00 + (c.toNat - 0x10000) % 0x400 - 0xdc00) = c.toNat by omega]
  exact Char.ofNat_toNat c

/-- The units of a character are read as the character. -/
theorem ofUnitsFrom_char (found : List Char) (c : Char) (rest : List Nat) :
    ofUnitsFrom found (utf16 c ++ rest) = ofUnitsFrom (c :: found) rest := by
  have hc := toNat_valid c
  rw [utf16]
  split
  · have hh : isHighSurrogate c.toNat = false := by
      simp [isHighSurrogate]
      omega
    rw [List.singleton_append, ofUnitsFrom_lone hh, ofLoneUnit_toNat]
  · have hs := surrogates_spec c.toNat (by omega) (by omega)
    have hp : (isHighSurrogate (highSurrogate c.toNat) &&
        isLowSurrogate (lowSurrogate c.toNat)) = true := by
      simp [isHighSurrogate, isLowSurrogate]
      omega
    rw [List.cons_append, List.singleton_append, ofUnitsFrom, if_pos hp,
      ofPair_surrogates (by omega)]

/-- UTF-16 is read back without a loss, after what has been found before. -/
theorem ofUnitsFrom_utf16 (found : List Char) (chars : List Char) :
    ofUnitsFrom found (chars.flatMap utf16) = found.reverse ++ chars := by
  induction chars generalizing found with
  | nil => simp [ofUnitsFrom]
  | cons c chars ih =>
    rw [List.flatMap_cons, ofUnitsFrom_char, ih, List.reverse_cons, List.append_assoc,
      List.singleton_append]

/-- UTF-16 is read back without a loss. -/
theorem ofUnits_utf16 (chars : List Char) : ofUnits (chars.flatMap utf16) = chars :=
  ofUnitsFrom_utf16 [] chars

/-! ## Reading -/

/-- The UTF-8 form of a character spells its units. -/
theorem unitsOf_utf8 (c : Char) : unitsOf (String.utf8EncodeChar c) = utf16 c := by
  have hc := toNat_valid c
  unfold unitsOf utf16
  rw [(utf8EncodeChar_spec c).2.1]
  simp only
  split
  · rfl
  · rw [if_pos (by omega)]

/-- The wire form of a character spells its units. -/
theorem flatMap_unitsOf_wire (c : Char) : (wire c).flatMap unitsOf = utf16 c := by
  have hc := toNat_valid c
  by_cases h : c.toNat ≤ 0xffff
  · rw [wire, if_pos h, List.flatMap_singleton, unitsOf_utf8]
  · have hs := surrogates_spec c.toNat (by omega) (by omega)
    have hu {unit : Nat} (hu : unit ≤ 0xffff) : unitsOf (ofUnit unit) = [unit] := by
      unfold unitsOf
      rw [(ofUnit_spec hu).2.1]
      exact if_pos hu
    rw [wire, if_neg h, utf16, if_neg h, List.flatMap_cons, List.flatMap_singleton,
      hu (by omega), hu (by omega)]
    rfl

/-- The wire form of a string goes through UTF-16 without a loss. -/
theorem lossy_wire (s : String) : lossy (s.toList.flatMap wire) = s := by
  unfold lossy
  rw [List.flatMap_assoc]
  simp only [flatMap_unitsOf_wire]
  rw [ofUnits_utf16, String.ofList_toList]

/-- Strict decoding finds the character of which this is the UTF-8 form. -/
theorem utf8_of_strictChar? {c : Character} {char : Char} (h : strictChar? c = some char) :
    String.utf8EncodeChar char = c := by
  by_cases hvalid : (payload c).isValidChar
  · rw [strictChar?, dif_pos hvalid] at h
    obtain ⟨he, hchar⟩ := Option.ite_none_right_eq_some.mp h
    rw [← Option.some.inj hchar, he]
  · rw [strictChar?, dif_neg hvalid] at h
    cases h

/-- Strict decoding finds the characters of which these are the UTF-8 forms. -/
theorem strictFrom?_eq_some {found result : List Char} {characters : List Character}
    (h : strictFrom? found characters = some result) :
    ∃ chars, result = found.reverse ++ chars ∧ characters = chars.map String.utf8EncodeChar := by
  induction characters generalizing found with
  | nil => exact ⟨[], by simpa [strictFrom?] using h.symm, rfl⟩
  | cons c characters ih =>
    rw [strictFrom?] at h
    split at h
    · next char hc =>
      obtain ⟨chars, rfl, rfl⟩ := ih h
      exact ⟨char :: chars, by simp, by rw [List.map_cons, utf8_of_strictChar? hc]⟩
    · cases h

/-- Where strict decoding succeeds, the way through UTF-16 gives the same. -/
theorem lossy_of_strict? {characters : List Character} {s : String}
    (h : strict? characters = some s) : lossy characters = s := by
  obtain ⟨result, hr, rfl⟩ := Option.map_eq_some_iff.mp h
  obtain ⟨chars, rfl, rfl⟩ := strictFrom?_eq_some hr
  unfold lossy
  rw [List.flatMap_map]
  simp only [unitsOf_utf8]
  rw [ofUnits_utf16]

/-- The strict way makes no difference to what is read, only to how. -/
theorem ofCharacters_eq_lossy (characters : List Character) :
    ofCharacters characters = lossy characters := by
  unfold ofCharacters
  cases h : strict? characters with
  | none => rfl
  | some s => exact (lossy_of_strict? h).symm

/-- The wire form of a string is read back as the string. -/
theorem ofCharacters_wire (s : String) : ofCharacters (s.toList.flatMap wire) = s := by
  rw [ofCharacters_eq_lossy, lossy_wire]

end Hessian.Text
