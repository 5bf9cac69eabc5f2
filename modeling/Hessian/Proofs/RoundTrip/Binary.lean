import Hessian.Proofs.Grammar.Chunked

/-!
# The chunks of binary data

Short data is a single chunk whose header takes one octet or two.  Longer data is cut into full
chunks of 1024 octets and a last one that has at least one octet, so data of a multiple of 1024
octets ends with a full chunk as well.  The reader is not held to that: data comes back from
whatever chunks it is cut into.

## Main statements

* `Encode.binary_layout` : the octets of binary data, and what binary data is read from.
-/

namespace Hessian.Encode

/-- The octets of full chunks and of a last one. -/
def binaryOctets (full : List Bytes) (last : Bytes) : Bytes :=
  full.flatMap openBinary ++ (0x42 :: (Bytes.ofNat 2 last.length ++ last))

/-- Full chunks are written one after another, and then what is left. -/
theorem binaryChunks_layout {count : Nat} {data : Bytes} (h : count * 1024 ≤ data.length) :
    ∃ (full : List Bytes) (last : Bytes), full.flatten ++ last = data ∧ full.length = count ∧
      last.length + count * 1024 = data.length ∧ (∀ part ∈ full, part.length = 1024) ∧
      binaryChunks count data = emit (binaryOctets full last) := by
  induction count generalizing data with
  | zero => exact ⟨[], data, rfl, rfl, by omega, nofun, rfl⟩
  | succ count ih =>
    rw [Nat.succ_mul] at h
    have hle : 1024 ≤ data.length := Nat.le_trans (Nat.le_add_left _ _) h
    have hdrop : count * 1024 ≤ (data.drop 1024).length := by
      rw [List.length_drop]
      exact Nat.le_sub_of_add_le h
    obtain ⟨full, last, hj, rfl, hl, hfull, hw⟩ := ih hdrop
    have hlength : last.length + (full.length + 1) * 1024 = data.length := by
      rw [Nat.succ_mul, ← Nat.add_assoc, hl, List.length_drop, Nat.sub_add_cancel hle]
    have hp : (data.take 1024).length = 1024 := List.length_take_of_le hle
    refine ⟨data.take 1024 :: full, last, ?_, rfl, hlength, List.forall_mem_cons.mpr ⟨hp, hfull⟩,
      ?_⟩
    · rw [List.flatten_cons, List.append_assoc, hj, List.take_append_drop]
    · have hopen : form (.binary false 2 0) (Bytes.ofNat 2 binaryChunk ++ data.take binaryChunk) =
          emit (openBinary (data.take 1024)) := by
        rw [openBinary, hp]
        rfl
      rw [binaryChunks, hopen, binaryChunk, hw, emit_bind_emit, binaryOctets, binaryOctets,
        List.flatMap_cons, List.append_assoc]

section Layout

variable {data : Bytes}

theorem binary_short (h : data.length ≤ 15) :
    binary data = emit (UInt8.ofNat (0x20 + data.length) :: data) :=
  if_pos h

theorem binary_medium (h : 15 < data.length) (h' : data.length ≤ 1023) :
    binary data =
      emit (UInt8.ofNat (0x34 + data.length / 256) :: UInt8.ofNat data.length :: data) := by
  have hword : Bytes.ofNat 1 data.length = [UInt8.ofNat data.length] := by
    rw [Bytes.ofNat, Nat.pow_zero, Nat.div_one, Bytes.ofNat]
  unfold binary
  simp only
  rw [binaryShortMax, if_neg (Nat.not_le.mpr h), binaryMediumMax, if_pos h', hword]
  rfl

theorem binary_long (h : 1023 < data.length) :
    ∃ (full : List Bytes) (last : Bytes), full.flatten ++ last = data ∧
      (∀ part ∈ full, part.length = 1024) ∧ full.length = (data.length + 1023) / 1024 - 1 ∧
      1 ≤ last.length ∧ last.length ≤ 1024 ∧ binary data = emit (binaryOctets full last) := by
  obtain ⟨full, last, hj, hcount, hl, hfull, hw⟩ :=
    @binaryChunks_layout ((data.length - 1) / 1024) data (by omega)
  refine ⟨full, last, hj, hfull, by omega, by omega, by omega, ?_⟩
  rw [← hw]
  unfold binary
  simp only
  rw [binaryShortMax, if_neg (by omega), binaryMediumMax, if_neg (by omega), binaryChunk]

end Layout

/-- Binary data of up to 15 octets has a header of one octet, of up to 1023 octets one of two, and
longer data is cut into full chunks and a last one that is not empty.  It is read back, and so is
data that is cut into chunks in any other way. -/
theorem binary_layout (data : Bytes) :
    (data.length ≤ 15 → binary data = emit (UInt8.ofNat (0x20 + data.length) :: data)) ∧
      (15 < data.length → data.length ≤ 1023 → binary data =
        emit (UInt8.ofNat (0x34 + data.length / 256) :: UInt8.ofNat data.length :: data)) ∧
      (1023 < data.length → ∃ (full : List Bytes) (last : Bytes), full.flatten ++ last = data ∧
        (∀ part ∈ full, part.length = 1024) ∧ full.length = (data.length + 1023) / 1024 - 1 ∧
        1 ≤ last.length ∧ last.length ≤ 1024 ∧ binary data = emit (binaryOctets full last)) ∧
      (∃ bytes, binary data = emit bytes ∧ Decode.binary.Reads bytes data) ∧
      ∀ (parts : List Bytes) (last header : Bytes), parts.flatten ++ last = data →
        (∀ part ∈ parts, part.length ≤ 65535) → FinalHeader .binary last.length header →
          Decode.binary.Reads (parts.flatMap openBinary ++ (header ++ last)) data := by
  refine ⟨binary_short, binary_medium, binary_long, binary_undone data, ?_⟩
  rintro parts last header rfl hparts hlast
  exact Decode.reads_binary_parts hparts hlast

/-- Three octets have a header of one.  They are also read from a chunk of one octet, an empty one
and a last one with a header that is longer than it has to be. -/
theorem binary_layout_parts :
    binary [1, 2, 3] = emit [0x23, 1, 2, 3] ∧
      Decode.binary.Reads [0x41, 0x00, 0x01, 1, 0x41, 0x00, 0x00, 0x34, 0x02, 2, 3] [1, 2, 3] := by
  obtain ⟨hshort, -, -, -, hread⟩ := binary_layout [1, 2, 3]
  have hparts := hread [[1], []] [2, 3] [0x34, 0x02] rfl (by decide)
    (@FinalHeader.medium .binary 2 (by decide))
  exact ⟨hshort (by decide), hparts.of_eq (by decide) rfl⟩

end Hessian.Encode
