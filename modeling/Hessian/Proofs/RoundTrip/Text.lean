import Hessian.Encoder.Text
import Hessian.Proofs.RoundTrip.Scalar
import Hessian.Proofs.Text.Utf16

/-!
# Strings are read back

Characters that are written come back as they are, in whatever chunks.  A string is written as its
characters in their wire form, and these are read as the string: `Encode.string_undone`.
-/

namespace Hessian.Encode

/-! ## Characters -/

/-- A chunk is read if its header gives the number of its characters. -/
theorem reads_textChunk (isFinal : Bool) (tail high m : Nat) {part : List Text.Character}
    (h : (Lead.string isFinal tail high).Proper) (hc : ∀ c ∈ part, c.Complete)
    (hl : high * 256 ^ tail + m % 256 ^ tail = part.length) :
    Decode.textChunk.Reads
      ((Lead.string isFinal tail high).toByte :: (Bytes.ofNat tail m ++ part.flatten))
      (isFinal, part) := by
  refine .lead ?_
  simp only [Lead.ofByte_toByte _ h]
  refine (Decode.reads_word tail m).bind ?_
  rw [hl]
  exact (Decode.reads_characters hc).answer _

/-- A single chunk is read back. -/
theorem Undone.finalText (tail high m : Nat) {part : List Text.Character}
    (h : (Lead.string true tail high).Proper) (hc : ∀ c ∈ part, c.Complete)
    (hl : high * 256 ^ tail + m % 256 ^ tail = part.length) :
    Undone (Encode.form (.string true tail high) (Bytes.ofNat tail m ++ part.flatten))
      Decode.text part :=
  ⟨_, rfl, (reads_textChunk true tail high m h hc hl).finalChunk Decode.reader_textChunk⟩

/-- The last chunk of a string is read back if its characters can be counted in two octets. -/
theorem finalText_undone {part : List Text.Character} (hc : ∀ c ∈ part, c.Complete)
    (hu : part.length < 65536) : Undone (finalText part) Decode.text part := by
  unfold finalText textShortMax textMediumMax
  simp only
  split
  · next h => exact .finalText 0 part.length 0 ⟨rfl, h⟩ hc (by omega)
  split
  · exact .finalText 1 (part.length / 256) part.length ⟨rfl, by omega⟩ hc (by omega)
  · exact .finalText 2 0 part.length rfl hc (by omega)

/-- A chain of chunks is read back as long as its last one fits a chunk. -/
theorem textChunks_undone {count : Nat} {rest : List Text.Character}
    (hc : ∀ c ∈ rest, c.Complete) (hl : count * 32768 ≤ rest.length)
    (hu : rest.length < count * 32768 + 65536) :
    Undone (textChunks count rest >>= finalText) Decode.text rest := by
  induction count generalizing rest with
  | zero => exact finalText_undone hc (by omega)
  | succ count ih =>
    rw [Nat.succ_mul] at hl hu
    obtain ⟨more, hw, hr⟩ : Undone (textChunks count (rest.drop textChunk) >>= finalText)
        Decode.text (rest.drop textChunk) := by
      apply ih (fun c hm => hc c (List.mem_of_mem_drop hm)) <;> rw [List.length_drop, textChunk]
      · exact Nat.le_sub_of_add_le hl
      · omega
    have hm : 0 * 256 ^ 2 + textChunk % 256 ^ 2 = (rest.take textChunk).length :=
      (List.length_take_of_le (show 32768 ≤ rest.length by omega)).symm
    have hp := reads_textChunk false 2 0 textChunk rfl
      (fun c hm => hc c (List.mem_of_mem_take hm)) hm
    unfold textChunks
    rw [bind_assoc, hw]
    exact ⟨_, emit_bind_emit _ _, (hp.openChunk Decode.reader_textChunk hr).of_eq rfl
      (List.take_append_drop _ _)⟩

/-- Characters are read back as they are. -/
theorem text_undone (characters : List Text.Character) (hc : ∀ c ∈ characters, c.Complete) :
    Undone (text characters) Decode.text characters := by
  apply textChunks_undone hc <;> rw [textChunk] <;> omega

/-! ## Strings -/

/-- A string is written as its characters in their wire form. -/
theorem string_eq_text (s : String) : string s = text (s.toList.flatMap Text.wire) := by
  obtain ⟨hf, hr⟩ := Text.scan_utf8 s
  unfold string rawString
  simp only [hf, hr, List.isEmpty_nil, if_true]
  split
  · rw [Text.surrogatePairs_utf8]
  · next h =>
    rw [Text.flatMap_wire_of_basic]
    intro c hc b hb hle
    refine h (List.any_eq_true.mpr ⟨b, List.mem_flatMap.mpr ⟨c, hc, hb⟩, ?_⟩)
    exact decide_eq_true (UInt8.le_iff_toNat_le.mpr hle)

theorem string_undone (s : String) : Undone (string s) Decode.string s := by
  have h := (text_undone (s.toList.flatMap Text.wire) fun w hw => by
    obtain ⟨c, -, hm⟩ := List.mem_flatMap.mp hw
    exact Text.complete_wire c w hm).map Text.ofCharacters
  rwa [← string_eq_text, Text.ofCharacters_wire] at h

end Hessian.Encode
