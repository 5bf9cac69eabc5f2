import Hessian.Proofs.Decoder.Reader

/-!
# Octets that a step reads

`Decode.Reads step bytes a` says that `step` takes exactly the octets `bytes`, whatever follows
them, gives `a`, and leaves all else in the session as it was.  What reads octets one after another
reads all of them in a row, so what a form of the grammar says is put together from its parts.
-/

namespace Hessian

/-- A session after `count` octets, with `rest` still to come. -/
def Decoder.past (s : Decoder) (rest : Bytes) (count : Nat) : Decoder :=
  { s with input := rest, offset := s.offset + count }

namespace Decode

variable {α β : Type}

/-- The step takes exactly these octets and does nothing else. -/
def Reads (step : Decode α) (bytes : Bytes) (a : α) : Prop :=
  ∀ (s : Decoder) (rest : Bytes), s.input = bytes ++ rest →
    step s = .ok a (s.past rest bytes.length)

/-- A step that only answers takes no octets. -/
theorem reads_pure (a : α) : Reads (pure a) [] a := by
  intro s rest hs
  obtain rfl : s.input = rest := hs
  rfl

/-- The octets of two steps stand one after another. -/
theorem Reads.bind {x : Decode α} {f : α → Decode β} {bytes more : Bytes} {a : α} {b : β}
    (hx : Reads x bytes a) (hf : Reads (f a) more b) : Reads (x >>= f) (bytes ++ more) b := by
  intro s rest hs
  rw [List.append_assoc] at hs
  rw [bind_ok (hx s _ hs), hf _ rest rfl]
  simp [Decoder.past, Nat.add_assoc]

/-- Octets after which a step only answers. -/
theorem Reads.map {x : Decode α} {bytes : Bytes} {a : α} (hx : Reads x bytes a) (f : α → β) :
    Reads (f <$> x) bytes (f a) := by
  rw [map_eq_pure_bind, ← List.append_nil bytes]
  exact hx.bind (reads_pure (f a))

/-- The same with the answer given by a continuation. -/
theorem Reads.answer {x : Decode α} {bytes : Bytes} {a : α} (hx : Reads x bytes a) (f : α → β) :
    Reads (x >>= fun a => pure (f a)) bytes (f a) := by
  rw [← map_eq_pure_bind]
  exact hx.map f

/-- The same octets are given in another way. -/
theorem Reads.of_eq {x : Decode α} {bytes bytes' : Bytes} {a a' : α} (hx : Reads x bytes a)
    (hb : bytes = bytes') (ha : a = a') : Reads x bytes' a' :=
  hb ▸ ha ▸ hx

/-! ## Octets -/

theorem reads_octet (b : UInt8) : Reads octet [b] b := by
  intro s rest hs
  unfold octet
  rw [hs]
  rfl

theorem reads_octets (bytes : Bytes) : Reads (octets bytes.length) bytes bytes := by
  intro s rest hs
  have hn : Bytes.hasAtLeast bytes.length s.input = true := by
    rw [Bytes.hasAtLeast_iff, hs, List.length_append]
    exact Nat.le_add_right _ _
  unfold octets
  rw [if_pos hn, hs, List.take_left, List.drop_left]
  rfl

/-- A word gives its number, as far as that fits. -/
theorem reads_word (width n : Nat) :
    Reads (word width) (Bytes.ofNat width n) (n % 256 ^ width) := by
  have h := (reads_octets (Bytes.ofNat width n)).map Bytes.toNat
  rwa [Bytes.length_ofNat, Bytes.toNat_ofNat] at h

/-- After its lead byte a form is read by what is left of the step. -/
theorem Reads.lead {f : UInt8 → Decode α} {code : UInt8} {tail : Bytes} {a : α}
    (hf : Reads (f code) tail a) : Reads (octet >>= f) (code :: tail) a :=
  (reads_octet code).bind hf

/-- The terminator is read where it stands. -/
theorem reads_terminator : Reads terminator [Lead.terminator.toByte] true := by
  intro s rest hs
  have hl : Lead.ofByte Lead.terminator.toByte = .terminator := rfl
  unfold terminator
  rw [bind_ok (peek_of_input hs), if_pos hl, bind_ok (octet_of_input hs)]
  rfl

/-! ## Chunks -/

section Chunks

variable {chunk : Decode (Bool × List α)} {bytes more : Bytes} {part rest : List α}

/-- A final chunk is all of its chain. -/
theorem Reads.finalChunk (hr : Reader chunk) (h : Reads chunk bytes (true, part)) :
    Reads (chunks chunk) bytes part := by
  rw [chunks_eq hr, ← List.append_nil bytes]
  exact h.bind (reads_pure part)

/-- A chunk that is not final comes before the rest of its chain. -/
theorem Reads.openChunk (hr : Reader chunk) (h : Reads chunk bytes (false, part))
    (hc : Reads (chunks chunk) more rest) :
    Reads (chunks chunk) (bytes ++ more) (part ++ rest) := by
  rw [chunks_eq hr, ← List.append_nil more]
  exact h.bind (hc.bind (reads_pure (part ++ rest)))

end Chunks

/-! ## Characters -/

/-- Complete characters are read as they are. -/
theorem reads_characters {characters : List Text.Character} (h : ∀ c ∈ characters, c.Complete) :
    Reads (Decode.characters characters.length) characters.flatten characters := by
  intro s rest hs
  unfold Decode.characters
  rw [hs, Text.scan_flatten h rest]
  rfl

end Decode

end Hessian
