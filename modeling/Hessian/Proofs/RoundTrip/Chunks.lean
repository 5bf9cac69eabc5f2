import Hessian.Proofs.RoundTrip.Text

/-!
# The chunks of a string

The characters of a string are cut into chunks, `Encode.Cut`: full ones, and a last one that takes
what is left.  A full chunk is opened by its own tag, and the header of the last one is as short as
the number of its characters allows (`Encode.openChunk`, `Encode.finalHeader`).  A surrogate pair is
two characters here, so it may be cut apart.

## Main statements

* `Encode.text_layout` : the octets of characters.
* `Encode.string_layout` : the octets of a string, which are read back as the string.
-/

namespace Hessian.Encode

open Text

/-! ## Layout -/

/-- The octets of a chunk that is not the last one. -/
def openChunk (part : List Character) : Bytes :=
  0x52 :: (Bytes.ofNat 2 part.length ++ part.flatten)

/-- The octets in front of a last chunk of so many characters. -/
def finalHeader (n : Nat) : Bytes :=
  if n ≤ 31 then [UInt8.ofNat n]
  else if n ≤ 1023 then [UInt8.ofNat (0x30 + n / 256), UInt8.ofNat n]
  else 0x53 :: Bytes.ofNat 2 n

/-- The octets of full chunks and of a last one. -/
def layout (full : List (List Character)) (last : List Character) : Bytes :=
  full.flatMap openChunk ++ (finalHeader last.length ++ last.flatten)

/-- Characters are cut into full chunks and a last one. -/
structure Cut (characters : List Character) (full : List (List Character)) (last : List Character) :
    Prop where
  joined : full.flatten ++ last = characters
  full : ∀ part ∈ full, part.length = textChunk

namespace Cut

variable {characters last : List Character} {full : List (List Character)}

theorem none (characters : List Character) : Cut characters [] characters :=
  ⟨rfl, nofun⟩

/-- What is left is cut after a full chunk. -/
theorem cons {rest : List Character} {part : List Character} (hp : part.length = textChunk)
    (h : Cut rest full last) : Cut (part ++ rest) (part :: full) last where
  joined := by rw [List.flatten_cons, List.append_assoc, h.joined]
  full := List.forall_mem_cons.mpr ⟨hp, h.full⟩

/-- The chunks have all the characters. -/
theorem length (h : Cut characters full last) :
    textChunk * full.length + last.length = characters.length := by
  have hfull : full.flatten.length = textChunk * full.length := by
    rw [List.length_flatten, List.map_congr_left h.full, List.map_const', List.sum_replicate_nat,
      Nat.mul_comm]
  rw [← h.joined, List.length_append, hfull]

/-- The characters of a chunk are among those that are cut. -/
theorem subset (h : Cut characters full last) {part : List Character} (hp : part ∈ last :: full) :
    part ⊆ characters := by
  rw [← h.joined]
  rcases List.mem_cons.mp hp with rfl | hp
  · exact List.subset_append_right _ _
  · exact fun c hc => List.mem_append_left _ (List.mem_flatten_of_mem hp hc)

end Cut

/-! ## Characters -/

/-- Nothing is written. -/
theorem emit_nil : emit [] = pure () := by
  funext e
  change EStateM.Result.ok () { e with output := e.output ++ [] } = .ok () e
  rw [Array.appendList_nil]

/-- Full chunks are written one after another. -/
theorem textChunks_layout {count : Nat} {characters : List Character}
    (h : count * textChunk ≤ characters.length) :
    ∃ full last, Cut characters full last ∧ full.length = count ∧
      textChunks count characters = emit (full.flatMap openChunk) >>= fun _ => pure last := by
  induction count generalizing characters with
  | zero =>
    refine ⟨[], characters, .none characters, rfl, ?_⟩
    rw [List.flatMap_nil, emit_nil, pure_bind, textChunks]
  | succ count ih =>
    rw [Nat.succ_mul] at h
    have hp : (characters.take textChunk).length = textChunk := List.length_take_of_le (by omega)
    obtain ⟨full, last, hcut, rfl, hw⟩ := @ih (characters.drop textChunk) (by
      rw [List.length_drop]
      omega)
    refine ⟨characters.take textChunk :: full, last, ?_, rfl, ?_⟩
    · have hcons := hcut.cons hp
      rwa [List.take_append_drop] at hcons
    · have hopen : form (.string false 2 0)
          (Bytes.ofNat 2 textChunk ++ (characters.take textChunk).flatten) =
            emit (openChunk (characters.take textChunk)) := by
        rw [openChunk, hp]
        rfl
      rw [textChunks, hopen, hw, ← bind_assoc, emit_bind_emit, List.flatMap_cons]

/-- The last chunk has the shortest header that its length fits. -/
theorem finalText_layout (part : List Character) :
    finalText part = emit (finalHeader part.length ++ part.flatten) := by
  unfold finalText finalHeader textShortMax textMediumMax
  simp only
  split
  · exact congrArg (fun b => emit (UInt8.ofNat b :: _)) (Nat.zero_add _)
  split
  · exact congrArg (fun b => emit (_ :: b :: _)) (congrArg UInt8.ofNat (Nat.div_one _))
  · rfl

theorem text_layout (characters : List Character) :
    ∃ full last, Cut characters full last ∧ full.length = (characters.length - 1) / textChunk ∧
      text characters = emit (layout full last) := by
  obtain ⟨full, last, hcut, hl, hw⟩ :=
    @textChunks_layout ((characters.length - 1) / textChunk) characters
      (Nat.le_trans (Nat.div_mul_le_self _ _) (Nat.sub_le _ _))
  refine ⟨full, last, hcut, hl, ?_⟩
  unfold text
  rw [hw, bind_assoc]
  simp only [pure_bind]
  rw [finalText_layout, emit_bind_emit]
  rfl

/-- Characters are read back from their chunks. -/
theorem reads_layout {characters last : List Character} {full : List (List Character)}
    (hc : ∀ c ∈ characters, c.Complete) (hw : text characters = emit (layout full last)) :
    Decode.text.Reads (layout full last) characters :=
  (text_undone characters hc).reads hw

/-! ## Strings -/

/-- A character of the wire form of a string is one UTF-16 unit. -/
theorem length_unitsOf_of_wire {c : Char} {w : Character} (hw : w ∈ wire c) :
    (unitsOf w).length = 1 := by
  have hpayload : payload w ≤ 0xffff := by
    have hc := toNat_valid c
    unfold wire at hw
    split at hw
    · rw [List.mem_singleton.mp hw, (utf8EncodeChar_spec c).2.1]
      assumption
    · have hs := surrogates_spec c.toNat (by omega) (by omega)
      simp only [List.mem_cons, List.not_mem_nil, or_false] at hw
      rcases hw with rfl | rfl
      · rw [(ofUnit_spec (by omega)).2.1]
        omega
      · rw [(ofUnit_spec (by omega)).2.1]
        omega
  unfold unitsOf
  simp only
  rw [if_pos hpayload]
  rfl

/-- So there are as many characters as units. -/
theorem length_flatMap_unitsOf {s : String} {part : List Character}
    (h : part ⊆ s.toList.flatMap wire) : (part.flatMap unitsOf).length = part.length := by
  induction part with
  | nil => rfl
  | cons w part ih =>
    obtain ⟨hw, hpart⟩ := List.cons_subset.mp h
    obtain ⟨c, -, hwire⟩ := List.mem_flatMap.mp hw
    rw [List.flatMap_cons, List.length_append, length_unitsOf_of_wire hwire, ih hpart,
      List.length_cons, Nat.add_comm]

theorem length_flatMap_wire (s : String) :
    (s.toList.flatMap wire).length = (s.toList.flatMap utf16).length := by
  rw [← length_flatMap_unitsOf (List.Subset.refl _), List.flatMap_assoc]
  simp only [flatMap_unitsOf_wire]

/-- A string is written in any session, as its UTF-16 units in the octets of characters, cut into
chunks that are full but for the last one.  The number in front of a chunk is that of its units.
The octets are read back as they are, or as the string, even where a surrogate pair has been cut
apart. -/
theorem string_layout (s : String) :
    ∃ full last, Cut (s.toList.flatMap wire) full last ∧
      full.length = ((s.toList.flatMap utf16).length + 32767) / 32768 - 1 ∧
      textChunk * full.length + last.length = (s.toList.flatMap utf16).length ∧
      (∀ part ∈ last :: full, part.length = (part.flatMap unitsOf).length) ∧
      string s = emit (layout full last) ∧
      Decode.rawString.Reads (layout full last) (s.toList.flatMap wire).flatten ∧
      Decode.string.Reads (layout full last) s := by
  obtain ⟨full, last, hcut, hl, hw⟩ := text_layout (s.toList.flatMap wire)
  have hread := reads_layout (fun w hm => by
    obtain ⟨c, -, hwire⟩ := List.mem_flatMap.mp hm
    exact complete_wire c w hwire) hw
  refine ⟨full, last, hcut, ?_, ?_, ?_, (string_eq_text s).trans hw, hread.map _, ?_⟩
  · rw [hl, length_flatMap_wire, textChunk]
    omega
  · rw [hcut.length, length_flatMap_wire]
  · exact fun part hp => (length_flatMap_unitsOf (hcut.subset hp)).symm
  · exact (hread.map ofCharacters).of_eq rfl (ofCharacters_wire s)

/-- A character beyond the basic plane counts as two, of three octets each. -/
example : layout [] (wire '😀') = [0x02, 0xed, 0xa0, 0xbd, 0xed, 0xb8, 0x80] := by decide

end Hessian.Encode
