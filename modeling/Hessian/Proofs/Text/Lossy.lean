import Hessian.Proofs.Text.Splits

/-!
# Units that are not paired

`StandFor units chars` says which characters UTF-16 units stand for without saying how they are
found: each character has its own units, and half of a surrogate pair whose other half is not next
to it is a replacement character.  Units stand for one string only, the one that `ofUnits` finds.

Octets that are strictly UTF-8 are found to be so character by character, `strict?`.  That is the
same as to look at all of them, since the characters of a string can be cut in one way only.

## Main statements

* `standFor_iff` : the characters that units stand for.
* `strict?_eq_fromUTF8?` : characters are read strictly if their octets are valid UTF-8.
-/

namespace Hessian.Text

/-! ## UTF-16 -/

/-- The first two units are the halves of a surrogate pair. -/
def Paired : List Nat → Prop
  | high :: low :: _ => isHighSurrogate high = true ∧ isLowSurrogate low = true
  | _ => False

/-- What units stand for: each character has its own units, and half of a surrogate pair that is not
followed by the other half is a replacement character. -/
inductive StandFor : List Nat → List Char → Prop
  | nil : StandFor [] []
  | char (c : Char) {units : List Nat} {chars : List Char} (rest : StandFor units chars) :
      StandFor (utf16 c ++ units) (c :: chars)
  | lone {unit : Nat} {units : List Nat} {chars : List Char}
      (half : isHighSurrogate unit = true ∨ isLowSurrogate unit = true)
      (alone : ¬ Paired (unit :: units)) (rest : StandFor units chars) :
      StandFor (unit :: units) (replacement :: chars)

section Units

variable {unit high low : Nat} {units : List Nat} {chars : List Char}

/-- A unit that is not paired with the next one is a character of its own. -/
theorem ofUnitsFrom_alone (h : ¬ Paired (unit :: units)) (found : List Char) :
    ofUnitsFrom found (unit :: units) = ofUnitsFrom (ofLoneUnit unit :: found) units := by
  cases units with
  | nil => rfl
  | cons next rest => exact if_neg fun hp => h ((Bool.and_eq_true _ _).mp hp)

/-- Half of a surrogate pair is no character. -/
theorem ofLoneUnit_half (h : isHighSurrogate unit = true ∨ isLowSurrogate unit = true) :
    ofLoneUnit unit = replacement := by
  refine dif_neg fun hvalid : unit < 0xd800 ∨ 0xdfff < unit ∧ unit < 0x110000 => ?_
  simp only [isHighSurrogate, isLowSurrogate, Bool.and_eq_true, decide_eq_true_eq] at h
  omega

/-- Any other unit is. -/
theorem utf16_ofLoneUnit (hu : unit ≤ 0xffff)
    (h : ¬ (isHighSurrogate unit = true ∨ isLowSurrogate unit = true)) :
    utf16 (ofLoneUnit unit) = [unit] := by
  simp only [isHighSurrogate, isLowSurrogate, Bool.and_eq_true, decide_eq_true_eq] at h
  have hvalid : unit.isValidChar := by
    change unit < 0xd800 ∨ 0xdfff < unit ∧ unit < 0x110000
    omega
  have hnat : (ofLoneUnit unit).toNat = unit := by
    unfold ofLoneUnit
    rw [dif_pos hvalid]
    rfl
  unfold utf16
  rw [hnat, if_pos hu]

/-- The character of a surrogate pair has these halves. -/
theorem utf16_ofPair (h : isHighSurrogate high = true) (h' : isLowSurrogate low = true) :
    utf16 (ofPair high low) = [high, low] := by
  simp only [isHighSurrogate, isLowSurrogate, Bool.and_eq_true, decide_eq_true_eq] at h h'
  let n := 0x10000 + (high - 0xd800) * 0x400 + (low - 0xdc00)
  have hvalid : n.isValidChar := by
    change n < 0xd800 ∨ 0xdfff < n ∧ n < 0x110000
    omega
  have hnat : (ofPair high low).toNat = n := by
    unfold ofPair Char.ofNat
    rw [dif_pos hvalid]
    rfl
  have hhigh : highSurrogate (ofPair high low).toNat = high := by
    rw [hnat, highSurrogate]
    omega
  have hlow : lowSurrogate (ofPair high low).toNat = low := by
    rw [hnat, lowSurrogate]
    omega
  rw [utf16, if_neg (by omega), hhigh, hlow]

/-- The characters that units stand for are found in them. -/
theorem StandFor.ofUnitsFrom_eq (h : StandFor units chars) (found : List Char) :
    ofUnitsFrom found units = found.reverse ++ chars := by
  induction h generalizing found with
  | nil => simp [ofUnitsFrom]
  | char c _ ih =>
    rw [ofUnitsFrom_char, ih, List.reverse_cons, List.append_assoc, List.singleton_append]
  | lone half alone _ ih =>
    rw [ofUnitsFrom_alone alone, ofLoneUnit_half half, ih, List.reverse_cons, List.append_assoc,
      List.singleton_append]

/-- Units stand for something, whatever they are. -/
theorem exists_standFor (units : List Nat) (h : ∀ unit ∈ units, unit ≤ 0xffff) :
    ∃ chars, StandFor units chars := by
  match units with
  | [] => exact ⟨[], .nil⟩
  | unit :: rest =>
    obtain ⟨hu, hrest⟩ := List.forall_mem_cons.mp h
    by_cases hp : Paired (unit :: rest)
    · match rest with
      | [] => exact hp.elim
      | low :: rest =>
        obtain ⟨chars, hchars⟩ := exists_standFor rest (List.forall_mem_cons.mp hrest).2
        have hchar := hchars.char (ofPair unit low)
        rw [utf16_ofPair hp.1 hp.2] at hchar
        exact ⟨_, hchar⟩
    · obtain ⟨chars, hchars⟩ := exists_standFor rest hrest
      by_cases hhalf : isHighSurrogate unit = true ∨ isLowSurrogate unit = true
      · exact ⟨_, hchars.lone hhalf hp⟩
      · have hchar := hchars.char (ofLoneUnit unit)
        rw [utf16_ofLoneUnit hu hhalf] at hchar
        exact ⟨_, hchar⟩

/-- Units stand for the characters that are found in them, and for no others. -/
theorem standFor_iff (h : ∀ unit ∈ units, unit ≤ 0xffff) :
    StandFor units chars ↔ ofUnits units = chars := by
  constructor
  · exact fun hs => hs.ofUnitsFrom_eq []
  · rintro rfl
    obtain ⟨chars, hs⟩ := exists_standFor units h
    rwa [ofUnits, hs.ofUnitsFrom_eq]

end Units

/-- The units of a wire character are numbers of two octets. -/
theorem unitsOf_le {c : Character} {unit : Nat} (h : unit ∈ unitsOf c) : unit ≤ 0xffff := by
  unfold unitsOf highSurrogate lowSurrogate at h
  simp only at h
  split at h
  · next hp => rwa [List.mem_singleton.mp h]
  split at h
  · simp only [List.mem_cons, List.not_mem_nil, or_false] at h
    omega
  · rw [List.mem_singleton.mp h]
    decide

/-- Wire characters that are read by way of UTF-16 are what their units stand for. -/
theorem standFor_lossy (characters : List Character) :
    StandFor (characters.flatMap unitsOf) (lossy characters).toList := by
  have hunits : ∀ unit ∈ characters.flatMap unitsOf, unit ≤ 0xffff := by
    intro unit hm
    obtain ⟨c, -, hc⟩ := List.mem_flatMap.mp hm
    exact unitsOf_le hc
  rw [standFor_iff hunits, lossy, String.toList_ofList]

/-! ## Strict decoding -/

/-- The UTF-8 form of a character is decoded. -/
theorem strictChar?_utf8 (c : Char) : strictChar? (String.utf8EncodeChar c) = some c := by
  have hp := (utf8EncodeChar_spec c).2.1
  have hvalid : (payload (String.utf8EncodeChar c)).isValidChar := hp ▸ c.valid
  rw [strictChar?, dif_pos hvalid, ofNatAux_eq hvalid hp]
  exact if_pos rfl

/-- The UTF-8 forms of characters are decoded, after what has been found before. -/
theorem strictFrom?_utf8 (found chars : List Char) :
    strictFrom? found (chars.map String.utf8EncodeChar) = some (found.reverse ++ chars) := by
  induction chars generalizing found with
  | nil => simp [strictFrom?]
  | cons c chars ih =>
    rw [List.map_cons, strictFrom?, strictChar?_utf8]
    simp only
    rw [ih, List.reverse_cons, List.append_assoc, List.singleton_append]

section Strict

variable {characters : List Character}

/-- Complete characters are decoded strictly if they are the UTF-8 form of a string together. -/
theorem strict?_eq_some_iff (hc : ∀ c ∈ characters, c.Complete) {s : String} :
    strict? characters = some s ↔ utf8 s = characters.flatten := by
  have hutf8 : utf8 s = (s.toList.map String.utf8EncodeChar).flatten := List.flatMap_def
  constructor
  · intro h
    obtain ⟨result, hr, rfl⟩ := Option.map_eq_some_iff.mp h
    obtain ⟨chars, rfl, rfl⟩ := strictFrom?_eq_some hr
    rw [hutf8, String.toList_ofList]
  · intro h
    -- the same octets are not cut into characters in two ways
    obtain ⟨rfl, -⟩ := (Splits.of_flatten (fun _ => id) hc).unique (fun _ => id)
      (h ▸ hutf8 ▸ Splits.of_flatten (fun _ => id) (complete_utf8 s.toList))
    rw [strict?, strictFrom?_utf8, Option.map_some, List.reverse_nil, List.nil_append,
      String.ofList_toList]

/-- Octets are a string if they are its UTF-8 form. -/
theorem fromUTF8?_eq_some_iff {bytes : Bytes} {s : String} :
    String.fromUTF8? bytes.toByteArray = some s ↔ utf8 s = bytes := by
  have hutf8 : (utf8 s).toByteArray = s.toByteArray := String.utf8Encode_toList
  rw [← List.toByteArray_inj, hutf8]
  unfold String.fromUTF8?
  split
  · rw [Option.some_inj, ← String.toByteArray_inj]
    exact eq_comm
  · next hvalid =>
    refine ⟨nofun, fun h => absurd ?_ hvalid⟩
    exact h ▸ s.isValidUTF8

/-- So the strict way is to validate the octets as a whole. -/
theorem strict?_eq_fromUTF8? (hc : ∀ c ∈ characters, c.Complete) :
    strict? characters = String.fromUTF8? characters.flatten.toByteArray := by
  apply Option.ext
  intro s
  rw [strict?_eq_some_iff hc, fromUTF8?_eq_some_iff]

end Strict

end Hessian.Text
