import Hessian.Proofs.Grammar.Complete
import Hessian.Proofs.RoundTrip.Chunks
import Hessian.Proofs.Text.Lossy

/-!
# Any way to cut data into chunks

Strings and binary data may be cut into chunks anywhere, into empty ones too.  Chunks that are not
final have one form, and the final one has up to three, depending on its length: `FinalHeader`.
However they are cut, the octets are a chain of the grammar (`Grammar.Chain.of_parts`), so reading
joins them again.

What a string is read as depends on its joined octets alone, `Text.ofOctets`.

## Main statements

* `Decode.reads_text_parts`, `Decode.reads_binary_parts` : chunks are joined.
* `Decode.string_eq` : a string is read from its octets.
* `Decode.string_of_parts` : the string of characters that are cut anywhere.
-/

namespace Hessian

open Grammar Text

/-! ## Headers -/

/-- The bytes that tell the chunks of one kind apart. -/
structure ChunkTags where
  /-- The first of the bytes that give a length themselves. -/
  short : Nat
  /-- The greatest length that they give. -/
  shortMax : Nat
  /-- The first of the four bytes that give a length together with one more octet. -/
  medium : Nat
  /-- The byte of a final chunk whose length stands in two octets. -/
  last : UInt8
deriving DecidableEq, Repr

/-- The chunks of a string. -/
def ChunkTags.text : ChunkTags := ⟨0x00, 31, 0x30, 0x53⟩

/-- The chunks of binary data. -/
def ChunkTags.binary : ChunkTags := ⟨0x20, 15, 0x34, 0x42⟩

/-- The octets in front of a final chunk of so many items, in any of the forms that it fits. -/
inductive FinalHeader (tags : ChunkTags) (n : Nat) : Bytes → Prop
  | short (h : n ≤ tags.shortMax) : FinalHeader tags n [UInt8.ofNat (tags.short + n)]
  | medium (h : n ≤ 1023) :
      FinalHeader tags n [UInt8.ofNat (tags.medium + n / 256), UInt8.ofNat n]
  | long (h : n ≤ 65535) : FinalHeader tags n (tags.last :: Bytes.ofNat 2 n)

/-- A chunk of binary data that is not final. -/
def Encode.openBinary (part : Bytes) : Bytes := 0x41 :: (Bytes.ofNat 2 part.length ++ part)

namespace FinalHeader

variable {n : Nat} {header : Bytes}

/-- The last octet of a number. -/
theorem toNat_octet (n : Nat) : Bytes.toNat [UInt8.ofNat n] = n % 256 := by
  have h := Bytes.toNat_ofNat 1 n
  rwa [Bytes.ofNat, Nat.pow_zero, Nat.div_one] at h

/-- A lead byte and the octets after it give the length. -/
theorem exists_lead {tags : ChunkTags} {lead : (tail high : Nat) → Lead}
    (hshort : ∀ k ≤ tags.shortMax, (lead 0 k).covers (UInt8.ofNat (tags.short + k)))
    (hmedium : ∀ k ≤ 3, (lead 1 k).covers (UInt8.ofNat (tags.medium + k)))
    (hlast : (lead 2 0).covers tags.last) (h : FinalHeader tags n header) :
    ∃ b tail high, ∃ word : Bytes, header = b :: word ∧ (lead tail high).covers b ∧
      word.length = tail ∧ n = high * 256 ^ tail + word.toNat := by
  cases h with
  | short h => exact ⟨_, 0, n, [], rfl, hshort n h, rfl, by simp [Bytes.toNat]⟩
  | medium h =>
    refine ⟨_, 1, n / 256, [UInt8.ofNat n], rfl, hmedium _ (by omega), rfl, ?_⟩
    rw [toNat_octet]
    omega
  | long h =>
    refine ⟨_, 2, 0, Bytes.ofNat 2 n, rfl, hlast, Bytes.length_ofNat 2 n, ?_⟩
    rw [Bytes.toNat_ofNat]
    omega

theorem exists_string (h : FinalHeader .text n header) :
    ∃ b tail high, ∃ word : Bytes, header = b :: word ∧ (Lead.string true tail high).covers b ∧
      word.length = tail ∧ n = high * 256 ^ tail + word.toNat := by
  have hshort : ∀ k ≤ 31, (Lead.string true 0 k).covers (UInt8.ofNat (0x00 + k)) := by decide
  have hmedium : ∀ k ≤ 3, (Lead.string true 1 k).covers (UInt8.ofNat (0x30 + k)) := by decide
  exact h.exists_lead hshort hmedium rfl

theorem exists_binary (h : FinalHeader .binary n header) :
    ∃ b tail high, ∃ word : Bytes, header = b :: word ∧ (Lead.binary true tail high).covers b ∧
      word.length = tail ∧ n = high * 256 ^ tail + word.toNat := by
  have hshort : ∀ k ≤ 15, (Lead.binary true 0 k).covers (UInt8.ofNat (0x20 + k)) := by decide
  have hmedium : ∀ k ≤ 3, (Lead.binary true 1 k).covers (UInt8.ofNat (0x34 + k)) := by decide
  exact h.exists_lead hshort hmedium rfl

end FinalHeader

/-! ## Chains -/

namespace Grammar

/-- Chunks one after another are a chain if the last one is final and the others are not. -/
theorem Chain.of_parts {α : Type} {chunk : Bool → Bytes → List α → Prop} {octets : List α → Bytes}
    {parts : List (List α)} {last : List α} {bytes : Bytes}
    (hparts : ∀ part ∈ parts, chunk false (octets part) part) (hlast : chunk true bytes last) :
    Chain chunk (parts.flatMap octets ++ bytes) (parts.flatten ++ last) := by
  induction parts with
  | nil => exact .last hlast
  | cons part parts ih =>
    obtain ⟨hpart, hparts⟩ := List.forall_mem_cons.mp hparts
    rw [List.flatMap_cons, List.flatten_cons, List.append_assoc, List.append_assoc]
    exact .more hpart (ih hparts)

/-- The characters of a chain are complete. -/
theorem Chain.complete {bytes : Bytes} {characters : List Character}
    (h : Chain TextChunk bytes characters) : ∀ c ∈ characters, c.Complete := by
  induction h with
  | last final =>
    cases final with
    | mk _ _ _ complete => exact complete
  | more first _ ih =>
    cases first with
    | mk _ _ _ complete => exact List.forall_mem_append.mpr ⟨complete, ih⟩

variable {part : List Character} {data header : Bytes}

theorem textChunk_open (hc : ∀ c ∈ part, c.Complete) (hl : part.length ≤ 65535) :
    TextChunk false (Encode.openChunk part) part := by
  refine @TextChunk.mk false 0x52 2 0 (Bytes.ofNat 2 part.length) part rfl
    (Bytes.length_ofNat _ _) ?_ hc
  rw [Bytes.toNat_ofNat]
  omega

theorem textChunk_final (hc : ∀ c ∈ part, c.Complete) (h : FinalHeader .text part.length header) :
    TextChunk true (header ++ part.flatten) part := by
  obtain ⟨b, tail, high, word, rfl, hlead, hwidth, hlength⟩ := h.exists_string
  exact .mk hlead hwidth hlength hc

theorem binaryChunk_open (hl : data.length ≤ 65535) :
    BinaryChunk false (Encode.openBinary data) data := by
  refine @BinaryChunk.mk false 0x41 2 0 (Bytes.ofNat 2 data.length) data rfl
    (Bytes.length_ofNat _ _) ?_
  rw [Bytes.toNat_ofNat]
  omega

theorem binaryChunk_final (h : FinalHeader .binary data.length header) :
    BinaryChunk true (header ++ data) data := by
  obtain ⟨b, tail, high, word, rfl, hlead, hwidth, hlength⟩ := h.exists_binary
  exact .mk hlead hwidth hlength

end Grammar

/-! ## Reading -/

/-- What octets are read as: the string whose UTF-8 form they are, or else what the units of their
characters stand for. -/
def Text.ofOctets (raw : Bytes) : String :=
  (String.fromUTF8? raw.toByteArray).getD (lossy (scan raw.length raw).characters)

/-- Characters are read the same from their octets. -/
theorem Text.ofOctets_flatten {characters : List Character}
    (hc : ∀ c ∈ characters, c.Complete) : ofOctets characters.flatten = ofCharacters characters := by
  rw [ofOctets, ofCharacters, strict?_eq_fromUTF8? hc,
    (scan_all hc (length_le_flatten hc)).1]

namespace Decode

/-- Characters are joined, however they are cut into chunks. -/
theorem reads_text_parts {parts : List (List Character)} {last : List Character} {header : Bytes}
    (hc : ∀ c ∈ parts.flatten ++ last, c.Complete) (hparts : ∀ part ∈ parts, part.length ≤ 65535)
    (hlast : FinalHeader .text last.length header) :
    Reads text (parts.flatMap Encode.openChunk ++ (header ++ last.flatten))
      (parts.flatten ++ last) := by
  obtain ⟨hcparts, hclast⟩ := List.forall_mem_append.mp hc
  refine reads_chunks reader_textChunk reads_textChunk (.of_parts (fun part hp => ?_)
    (textChunk_final hclast hlast))
  exact textChunk_open (fun c hm => hcparts c (List.mem_flatten_of_mem hp hm)) (hparts part hp)

/-- Binary data is joined, however it is cut into chunks. -/
theorem reads_binary_parts {parts : List Bytes} {last header : Bytes}
    (hparts : ∀ part ∈ parts, part.length ≤ 65535)
    (hlast : FinalHeader .binary last.length header) :
    Reads binary (parts.flatMap Encode.openBinary ++ (header ++ last)) (parts.flatten ++ last) :=
  reads_binary (.of_parts (fun part hp => binaryChunk_open (hparts part hp))
    (binaryChunk_final hlast))

/-- A string is read from its octets. -/
theorem string_eq : string = ofOctets <$> rawString := by
  have htext (levels : Nat) : Finds levels (Keeping (Grammar.Chain TextChunk)) text :=
    finds_textChunk.chunks
  funext s
  unfold string rawString
  rw [← comp_map, map_eq_pure_bind, map_eq_pure_bind]
  refine bind_congr_ok fun characters t ht => ?_
  obtain ⟨bytes, -, hchain, -⟩ := htext s.levels s characters t ht rfl
  rw [Function.comp, ofOctets_flatten hchain.complete]

/-- Characters are read as what their units stand for, however they are cut into chunks.  It makes
no difference whether the octets are looked at as a whole or in units: where they are valid UTF-8
both give the string whose UTF-8 form they are. -/
theorem string_of_parts {characters : List Character} (hc : ∀ c ∈ characters, c.Complete) :
    StandFor (characters.flatMap unitsOf) (lossy characters).toList ∧
      (∀ s, String.fromUTF8? characters.flatten.toByteArray = some s → lossy characters = s) ∧
      ofOctets characters.flatten = lossy characters ∧
      ∀ (parts : List (List Character)) (last : List Character) (header : Bytes),
        parts.flatten ++ last = characters → (∀ part ∈ parts, part.length ≤ 65535) →
          FinalHeader .text last.length header →
            Reads string (parts.flatMap Encode.openChunk ++ (header ++ last.flatten))
              (lossy characters) := by
  refine ⟨standFor_lossy characters, fun s hs => ?_, ?_, fun parts last header hj hparts hlast => ?_⟩
  · exact lossy_of_strict? ((strict?_eq_fromUTF8? hc).trans hs)
  · rw [ofOctets_flatten hc, ofCharacters_eq_lossy]
  · subst hj
    rw [← ofCharacters_eq_lossy]
    exact (reads_text_parts hc hparts hlast).map ofCharacters

/-- A surrogate pair is cut apart, with an empty chunk in between, and the length of the last chunk
takes one octet more than it has to.  In that chunk there follow an overlong character with a wrong
continuation octet and half of a surrogate pair. -/
theorem string_of_parts_surrogates :
    let high : Character := [0xed, 0xa0, 0xbd]
    let low : Character := [0xed, 0xb8, 0x80]
    let overlong : Character := [0xc0, 0xff]
    (∀ c ∈ [high, low, overlong, high], c.Complete) ∧
      lossy [high, low, overlong, high] = "😀?\uFFFD" ∧
      Reads string [0x52, 0x00, 0x01, 0xed, 0xa0, 0xbd, 0x52, 0x00, 0x00, 0x30, 0x03, 0xed, 0xb8,
        0x80, 0xc0, 0xff, 0xed, 0xa0, 0xbd] "😀?\uFFFD" := by
  intro high low overlong
  have hc : ∀ c ∈ [high, low, overlong, high], c.Complete := by
    simp only [List.forall_mem_cons]
    exact ⟨rfl, rfl, rfl, rfl, nofun⟩
  have hlossy : lossy [high, low, overlong, high] = "😀?\uFFFD" := by decide
  have hread := (string_of_parts hc).2.2.2 [[high], []] [low, overlong, high] [0x30, 0x03] rfl
    (by decide) (@FinalHeader.medium .text 3 (by decide))
  exact ⟨hc, hlossy, hread.of_eq (by decide) hlossy⟩

end Decode

end Hessian
