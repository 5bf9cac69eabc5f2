import Hessian.Proofs.RoundTrip.Chunks
import Hessian.Proofs.Text.Splits
import Mathlib.Data.List.Basic

/-!
# Octets that are written as a string

Octets are written as a string if they can be cut into fit characters, and are refused at the first
place where no such character begins if they cannot.  This is so whether or not an octet may be the
lead of a character of four octets: without one, no character has that many, and with one, they are
all looked at before anything is written.

## Main statements

* `Encode.rawString_layout` : how octets are written, and where they are refused.
-/

namespace Hessian

namespace Text

/-- A character of four octets has a lead that says so. -/
theorem Character.Complete.exists_astral {c : Character} (h : c.Complete) (h4 : c.length = 4) :
    ∃ lead ∈ c, Encode.mayBeAstral lead = true := by
  cases c with
  | nil => exact h.elim
  | cons lead tail =>
    have hlead : leadLength lead = 4 := h.trans h4
    have hle : 0xf0 ≤ lead.toNat := by
      unfold leadLength at hlead
      simp only at hlead
      split_ifs at hlead <;> omega
    exact ⟨lead, List.mem_cons_self, decide_eq_true (UInt8.le_iff_toNat_le.mpr hle)⟩

/-- Without an octet that may be such a lead there is none, and the characters are written as they
are. -/
theorem Splits.plain {bytes rest : Bytes} {characters : List Character}
    (h : Splits Character.Complete bytes characters rest)
    (ha : ¬ bytes.any Encode.mayBeAstral = true) :
    Splits Character.Fit bytes characters rest ∧ characters.flatMap paired = characters := by
  have h4 : ∀ c ∈ characters, c.length ≠ 4 := by
    intro c hc hlength
    obtain ⟨lead, hm, hlead⟩ := (h.all c hc).exists_astral hlength
    refine ha (List.any_eq_true.mpr ⟨lead, ?_, hlead⟩)
    rw [← h.joined]
    exact List.mem_append_left _ (List.mem_flatten_of_mem hc hm)
  constructor
  · exact h.fit fun c hc hlength => absurd hlength (h4 c hc)
  · have hpaired : characters.flatMap paired = characters.flatMap fun c => [c] :=
      List.flatMap_congr fun c hc => if_neg (h4 c hc)
    rw [hpaired, List.flatMap_singleton']

end Text

namespace Encode

open Text

/-! ## Writing -/

/-- The octets are written and read back as these characters, with those of four octets as two of
three. -/
def WrittenAs (data : Bytes) (characters : List Character) : Prop :=
  ∃ full last, Cut (characters.flatMap paired) full last ∧
    rawString data = emit (layout full last) ∧
    Decode.rawString.Reads (layout full last) (characters.flatMap paired).flatten

/-- The octets are refused at the place behind these characters, and nothing but full chunks of them
has been written. -/
def RefusedAfter (data : Bytes) (characters : List Character) : Prop :=
  ∃ full : List (List Character), (∀ part ∈ full, part.length = textChunk) ∧
    full.flatten <+: characters ∧ rawString data = emit (full.flatMap openChunk) >>= fun _ =>
      throw (.invalidUtf8 characters.flatten.length)

section Writing

variable {data rest : Bytes} {characters : List Character}

theorem writtenAs_of_text (h : Splits Character.Fit data characters rest)
    (hw : rawString data = text (characters.flatMap paired)) : WrittenAs data characters := by
  obtain ⟨full, last, hcut, -, hl⟩ := text_layout (characters.flatMap paired)
  have hcomplete : ∀ w ∈ characters.flatMap paired, w.Complete := by
    intro w hm
    obtain ⟨c, hc, hw⟩ := List.mem_flatMap.mp hm
    exact (h.all c hc).complete_paired w hw
  exact ⟨full, last, hcut, hw.trans hl, (reads_layout hcomplete hl).map _⟩

theorem refusedAfter_of_throw
    (hw : rawString data = throw (.invalidUtf8 characters.flatten.length)) :
    RefusedAfter data characters := by
  refine ⟨[], nofun, List.nil_prefix, ?_⟩
  rw [List.flatMap_nil, emit_nil, pure_bind]
  exact hw

/-- Octets are written, or refused at the first place where no fit character begins. -/
theorem rawString_splits (data : Bytes) :
    ∃ characters rest, Splits Character.Fit data characters rest ∧
      ((rest = [] ∧ WrittenAs data characters) ∨ (rest ≠ [] ∧ RefusedAfter data characters)) := by
  have hsplits := scan_splits data
  have hsize := (scan_spec data.length data).2.2.1
  by_cases ha : data.any mayBeAstral = true
  · rcases surrogatePairs_spec (scan data.length data).characters with
      ⟨hall, hok⟩ | ⟨before, c, after, hcut, hbefore, hc, herror⟩
    · have hfit := hsplits.fit hall
      refine ⟨_, _, hfit, ?_⟩
      by_cases hr : (scan data.length data).rest = []
      · refine .inl ⟨hr, writtenAs_of_text hfit ?_⟩
        unfold rawString
        simp only [if_pos ha, hok, hr, List.isEmpty_nil, if_true]
      · refine .inr ⟨hr, refusedAfter_of_throw ?_⟩
        unfold rawString
        simp only [if_pos ha, hok, List.isEmpty_iff, if_neg hr, hsize]
    · rw [hcut] at hsplits
      refine ⟨before, _, hsplits.unfit hbefore hc, .inr ⟨?_, refusedAfter_of_throw ?_⟩⟩
      · have hcomplete := hsplits.all c (List.mem_append_right _ List.mem_cons_self)
        intro hnil
        rw [(List.append_eq_nil_iff.mp hnil).1] at hcomplete
        exact hcomplete
      · unfold rawString
        simp only [if_pos ha, herror]
  · obtain ⟨hfit, hpaired⟩ := hsplits.plain ha
    refine ⟨_, _, hfit, ?_⟩
    by_cases hr : (scan data.length data).rest = []
    · refine .inl ⟨hr, writtenAs_of_text hfit ?_⟩
      unfold rawString
      simp only [if_neg ha, hr, hpaired, List.isEmpty_nil, if_true]
    · obtain ⟨full, last, hcut, -, hw⟩ :=
        textChunks_layout (Nat.div_mul_le_self (scan data.length data).characters.length textChunk)
      refine .inr ⟨hr, full, hcut.full, ⟨last, hcut.joined⟩, ?_⟩
      unfold rawString
      simp only [if_neg ha, List.isEmpty_iff, if_neg hr, hw, hsize, bind_assoc, pure_bind]

end Writing

/-- Octets are written as a string exactly if they can be cut into fit characters.  If they cannot,
they are refused at the first place where no fit character begins. -/
theorem rawString_layout (data : Bytes) :
    (∀ e, (∃ e', rawString data e = .ok () e') ↔
      ∃ characters : List Character, (∀ c ∈ characters, c.Fit) ∧ characters.flatten = data) ∧
    ∃ characters rest, Splits Character.Fit data characters rest ∧
      ((rest = [] ∧ WrittenAs data characters) ∨ (rest ≠ [] ∧ RefusedAfter data characters)) := by
  obtain ⟨characters, rest, hsplits, hend⟩ := rawString_splits data
  refine ⟨fun e => ?_, characters, rest, hsplits, hend⟩
  rcases hend with ⟨rfl, full, last, -, hw, -⟩ | ⟨hrest, full, -, -, hw⟩
  · refine iff_of_true ⟨_, congrFun hw e⟩ ⟨characters, hsplits.all, ?_⟩
    rw [← hsplits.joined, List.append_nil]
  · refine iff_of_false ?_ ?_
    · rintro ⟨e', he⟩
      rw [hw] at he
      cases he
    · rintro ⟨characters', hall, rfl⟩
      exact hrest (hsplits.unique (fun _ hc => hc.1) (.of_flatten (fun _ hc => hc.1) hall)).2

end Encode

end Hessian
