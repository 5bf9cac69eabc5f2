import Hessian.Encoder.Scalar
import Hessian.Proofs.Decoder.Reads
import Hessian.Proofs.Double.Whole
import Hessian.Proofs.Lead

/-!
# Scalars are read back

What a step for a scalar writes does not depend on the session, and the step that reads this kind
of scalar takes exactly these octets and gives the scalar: `Encode.Undone`.  Of the doubles the
negative zero is the only one that does not come back, `Double.norm`.

Each kind has several forms.  The ranges for which the writer takes a form are the ranges of the
form, which is all that has to be checked for a number that its lead byte carries; a number in
octets of its own is read in two's complement.
-/

namespace Hessian

/-! ## Two's complement -/

/-- A number modulo a range, moved into the range of signed numbers, is the number. -/
theorem bmod_toNat_emod {size : Nat} {n : Int} (hs : 0 < size) (hl : -(size / 2 : Nat) ≤ n)
    (hu : n < ((size + 1) / 2 : Nat)) : Int.bmod ((n % size).toNat : Nat) size = n := by
  rw [Int.toNat_of_nonneg (Int.emod_nonneg _ (by omega)), Int.emod_bmod]
  exact Int.bmod_eq_of_le (by omega) (by omega)

theorem toInt_ofNat_int8 {n : Int} (hl : -2 ^ 7 ≤ n) (hu : n < 2 ^ 7) :
    (Int8.ofNat (n % (256 ^ 1 : Nat)).toNat).toInt = n :=
  Int8.toInt_ofNat'.trans (bmod_toNat_emod (by decide) hl hu)

theorem toInt_ofNat_int16 {n : Int} (hl : -2 ^ 15 ≤ n) (hu : n < 2 ^ 15) :
    (Int16.ofNat (n % (256 ^ 2 : Nat)).toNat).toInt = n :=
  Int16.toInt_ofNat'.trans (bmod_toNat_emod (by decide) hl hu)

theorem toInt_ofNat_int32 {n : Int} (hl : -2 ^ 31 ≤ n) (hu : n < 2 ^ 31) :
    (Int32.ofNat (n % (256 ^ 4 : Nat)).toNat).toInt = n :=
  Int32.toInt_ofNat'.trans (bmod_toNat_emod (by decide) hl hu)

theorem toInt_ofNat_int64 {n : Int} (hl : -2 ^ 63 ≤ n) (hu : n < 2 ^ 63) :
    (Int64.ofNat (n % (256 ^ 8 : Nat)).toNat).toInt = n :=
  Int64.toInt_ofNat'.trans (bmod_toNat_emod (by decide) hl hu)

namespace Encode

variable {α β : Type}

/-! ## Writing -/

/-- Writing octets twice is writing them in a row. -/
theorem emit_bind_emit (bytes more : Bytes) :
    (emit bytes >>= fun _ => emit more) = emit (bytes ++ more) := by
  funext e
  have h : e.output ++ bytes ++ more = e.output ++ (bytes ++ more) := by
    apply Array.ext'
    simp
  change EStateM.Result.ok () { e with output := e.output ++ bytes ++ more } = _
  rw [h]
  rfl

/-- Different octets are different steps. -/
theorem emit_injective {bytes bytes' : Bytes} (h : emit bytes = emit bytes') : bytes = bytes' := by
  have he := congrFun h { maxDepth := 0 }
  have houtput := congrArg (·.output.toList) (EStateM.Result.ok.inj he).2
  simpa using houtput

/-- A step that writes the same octets in every session, which are read back. -/
def Undone (write : Encode Unit) (read : Decode α) (a : α) : Prop :=
  ∃ bytes, write = emit bytes ∧ read.Reads bytes a

/-- The octets that such a step writes are read back. -/
theorem Undone.reads {write : Encode Unit} {read : Decode α} {a : α} {bytes : Bytes}
    (h : Undone write read a) (hw : write = emit bytes) : read.Reads bytes a := by
  obtain ⟨written, hwritten, hread⟩ := h
  rwa [← emit_injective (hwritten.symm.trans hw)]

/-- A form is read back if what is left of the reader after the lead byte reads the rest. -/
theorem Undone.form {lead : Lead} {tail : Bytes} {f : UInt8 → Decode α} {a : α}
    (hf : (f lead.toByte).Reads tail a) : Undone (form lead tail) (Decode.octet >>= f) a :=
  ⟨_, rfl, hf.lead⟩

/-- Changing what is read changes what comes back. -/
theorem Undone.map {write : Encode Unit} {read : Decode α} {a : α} (h : Undone write read a)
    (f : α → β) : Undone write (f <$> read) (f a) := by
  obtain ⟨bytes, hw, hr⟩ := h
  exact ⟨bytes, hw, hr.map f⟩

/-- The octets of a number modulo their range are read as that. -/
theorem reads_lowOctets (width : Nat) (n : Int) :
    (Decode.word width).Reads (lowOctets width n) (n % (256 ^ width : Nat)).toNat := by
  have hp : (0 : Int) < (256 ^ width : Nat) := Int.natCast_pos.mpr (Nat.pow_pos (by decide))
  have hlt := Int.emod_lt_of_pos n hp
  have hnn := Int.emod_nonneg n (Int.ne_of_gt hp)
  refine (Decode.reads_word width _).of_eq rfl (Nat.mod_eq_of_lt ?_)
  omega

/-- A number is its high part and its low octets. -/
theorem high_low (tail : Nat) (n : Int) :
    n / (256 ^ tail : Nat) * 256 ^ tail + (n % (256 ^ tail : Nat)).toNat = n := by
  have hp : ((256 ^ tail : Nat) : Int) ≠ 0 :=
    Int.natCast_ne_zero.mpr (Nat.ne_of_gt (Nat.pow_pos (by decide)))
  rw [Int.toNat_of_nonneg (Int.emod_nonneg n hp), Int.natCast_pow, Int.mul_comm]
  exact Int.mul_ediv_add_emod n (256 ^ tail)

/-! ## The kinds of scalars -/

theorem null_undone : Undone null Decode.null () := .form (Decode.reads_pure ())

theorem boolean_undone (b : Bool) : Undone (boolean b) Decode.boolean b := by
  cases b with
  | false => exact .form (Decode.reads_pure false)
  | true => exact .form (Decode.reads_pure true)

/-- An int whose high part is carried by the lead byte. -/
theorem split_int_undone {tail : Nat} {n : Int32}
    (h : (Lead.int tail (n.toInt / (256 ^ tail : Nat))).Proper) :
    Undone (split .int tail n.toInt) Decode.int n := by
  refine .form ?_
  simp only [Lead.ofByte_toByte _ h]
  refine ((reads_lowOctets tail n.toInt).answer _).of_eq rfl ?_
  rw [high_low, Int32.ofInt_toInt]

theorem int_undone (n : Int32) : Undone (int n) Decode.int n := by
  unfold int
  simp only [between, Bool.and_eq_true, decide_eq_true_eq]
  split
  · exact split_int_undone ⟨by omega, by omega⟩
  split
  · exact split_int_undone ⟨by omega, by omega⟩
  split
  · exact split_int_undone ⟨by omega, by omega⟩
  · refine .form ?_
    simp only [Lead.ofByte_toByte .intWord trivial]
    refine ((reads_lowOctets 4 n.toInt).answer _).of_eq rfl ?_
    exact Int32.toInt.inj (toInt_ofNat_int32 n.le_toInt n.toInt_lt)

/-- A long whose high part is carried by the lead byte. -/
theorem split_long_undone {tail : Nat} {n : Int64}
    (h : (Lead.long tail (n.toInt / (256 ^ tail : Nat))).Proper) :
    Undone (split .long tail n.toInt) Decode.long n := by
  refine .form ?_
  simp only [Lead.ofByte_toByte _ h]
  refine ((reads_lowOctets tail n.toInt).answer _).of_eq rfl ?_
  rw [high_low, Int64.ofInt_toInt]

theorem long_undone (n : Int64) : Undone (long n) Decode.long n := by
  unfold long
  simp only [between, Bool.and_eq_true, decide_eq_true_eq]
  split
  · exact split_long_undone ⟨by omega, by omega⟩
  split
  · exact split_long_undone ⟨by omega, by omega⟩
  split
  · exact split_long_undone ⟨by omega, by omega⟩
  split
  · next h =>
    refine .form ?_
    simp only [Lead.ofByte_toByte .longInt trivial]
    refine ((reads_lowOctets 4 n.toInt).answer _).of_eq rfl ?_
    apply Int64.toInt.inj
    rw [Int32.toInt_toInt64, toInt_ofNat_int32 h.1 (Int.lt_of_le_of_lt h.2 (by decide))]
  · refine .form ?_
    simp only [Lead.ofByte_toByte .longWord trivial]
    refine ((reads_lowOctets 8 n.toInt).answer _).of_eq rfl ?_
    exact Int64.toInt.inj (toInt_ofNat_int64 n.le_toInt n.toInt_lt)

/-- All eight octets of a double are read back, whatever it is. -/
theorem full_double_undone (d : Double) :
    Undone (form .doubleWord (Bytes.ofNat 8 d.bits.toNat)) Decode.double d := by
  refine .form ?_
  simp only [Lead.ofByte_toByte .doubleWord trivial]
  have hlt : d.bits.toNat < 256 ^ 8 := d.bits.toNat_lt
  refine ((Decode.reads_word 8 _).answer _).of_eq rfl (Double.ext_toNat ?_)
  rw [Nat.mod_eq_of_lt hlt, UInt64.ofNat_toNat]

theorem double_undone (d : Double) : Undone (double d) Decode.double d.norm := by
  unfold double
  cases hw : d.whole? with
  | none =>
    rw [Double.norm_of_whole? (by rw [hw]; exact fun h => nomatch h)]
    exact full_double_undone d
  | some n =>
    simp only [between, Bool.and_eq_true, decide_eq_true_eq]
    split
    · next h0 =>
      subst h0
      rw [Double.norm_of_whole?_zero hw]
      exact .form (Decode.reads_pure _)
    · next h0 =>
      rw [Double.norm_of_whole? (by rw [hw]; exact fun h => h0 (Option.some.inj h))]
      have hd := Double.ofInt_of_whole? hw h0
      split
      · next h1 =>
        subst h1
        obtain rfl : Double.one = d := hd (by decide)
        exact .form (Decode.reads_pure _)
      split
      · next h =>
        refine .form ?_
        simp only [Lead.ofByte_toByte .doubleByte trivial]
        refine ((reads_lowOctets 1 n).answer _).of_eq rfl ?_
        rw [toInt_ofNat_int8 h.1 (Int.lt_of_le_of_lt h.2 (by decide)), hd (by omega)]
      split
      · next h =>
        refine .form ?_
        simp only [Lead.ofByte_toByte .doubleShort trivial]
        refine ((reads_lowOctets 2 n).answer _).of_eq rfl ?_
        rw [toInt_ofNat_int16 h.1 (Int.lt_of_le_of_lt h.2 (by decide)), hd (by omega)]
      · exact full_double_undone d

theorem date_undone (millis : Int64) : Undone (date millis) Decode.date millis := by
  unfold date
  simp only [between, Bool.and_eq_true, decide_eq_true_eq]
  split
  · next h =>
    obtain ⟨hm, hl, hu⟩ := h
    refine .form ?_
    simp only [Lead.ofByte_toByte .dateMinutes trivial]
    refine ((reads_lowOctets 4 _).answer _).of_eq rfl ?_
    rw [toInt_ofNat_int32 hl (Int.lt_of_le_of_lt hu (by decide)),
      Int.ediv_mul_cancel (Int.dvd_of_emod_eq_zero hm), Int64.ofInt_toInt]
  · refine .form ?_
    simp only [Lead.ofByte_toByte .dateMillis trivial]
    refine ((reads_lowOctets 8 millis.toInt).answer _).of_eq rfl ?_
    exact Int64.toInt.inj (toInt_ofNat_int64 millis.le_toInt millis.toInt_lt)

/-! ## Binary data -/

/-- A chunk is read if its header gives its length. -/
theorem reads_binaryChunk (isFinal : Bool) (tail high m : Nat) {part : Bytes}
    (h : (Lead.binary isFinal tail high).Proper)
    (hl : high * 256 ^ tail + m % 256 ^ tail = part.length) :
    Decode.binaryChunk.Reads
      ((Lead.binary isFinal tail high).toByte :: (Bytes.ofNat tail m ++ part)) (isFinal, part) := by
  refine .lead ?_
  simp only [Lead.ofByte_toByte _ h]
  refine (Decode.reads_word tail m).bind ?_
  rw [hl]
  exact (Decode.reads_octets part).answer _

/-- A single chunk is read back. -/
theorem Undone.finalBinary (tail high m : Nat) {part : Bytes}
    (h : (Lead.binary true tail high).Proper)
    (hl : high * 256 ^ tail + m % 256 ^ tail = part.length) :
    Undone (Encode.form (.binary true tail high) (Bytes.ofNat tail m ++ part)) Decode.binary part :=
  ⟨_, rfl, (reads_binaryChunk true tail high m h hl).finalChunk Decode.reader_binaryChunk⟩

/-- A chain of chunks is read back as long as its last one fits a chunk. -/
theorem binaryChunks_undone {count : Nat} {rest : Bytes} (hl : count * 1024 ≤ rest.length)
    (hu : rest.length < count * 1024 + 65536) :
    Undone (binaryChunks count rest) Decode.binary rest := by
  induction count generalizing rest with
  | zero => exact .finalBinary 2 0 rest.length rfl (by omega)
  | succ count ih =>
    rw [Nat.succ_mul] at hl hu
    obtain ⟨more, hw, hr⟩ : Undone (binaryChunks count (rest.drop binaryChunk)) Decode.binary
        (rest.drop binaryChunk) := by
      apply ih <;> rw [List.length_drop, binaryChunk]
      · exact Nat.le_sub_of_add_le hl
      · omega
    have hm : 0 * 256 ^ 2 + binaryChunk % 256 ^ 2 = (rest.take binaryChunk).length :=
      (List.length_take_of_le (show 1024 ≤ rest.length by omega)).symm
    have hc := reads_binaryChunk false 2 0 binaryChunk rfl hm
    unfold binaryChunks
    rw [hw]
    exact ⟨_, emit_bind_emit _ _, (hc.openChunk Decode.reader_binaryChunk hr).of_eq rfl
      (List.take_append_drop _ _)⟩

theorem binary_undone (bytes : Bytes) : Undone (binary bytes) Decode.binary bytes := by
  unfold binary binaryShortMax binaryMediumMax
  simp only
  split
  · next h => exact .finalBinary 0 bytes.length 0 ⟨rfl, h⟩ (by omega)
  split
  · exact .finalBinary 1 (bytes.length / 256) bytes.length ⟨rfl, by omega⟩ (by omega)
  · apply binaryChunks_undone <;> rw [binaryChunk] <;> omega

end Encode

end Hessian
