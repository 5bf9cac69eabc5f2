import Hessian.Proofs.Text.Utf16

/-!
# The place where characters stop

Octets are cut into characters of some kind up to the first place where none of these begins,
`Text.Splits`.  There is one way to do this at most, since no complete character begins another one.

A scan cuts octets into complete characters.  What can be written of them is fit,
`Text.Character.Fit`: a character of four octets has to spell a code point beyond the basic plane,
and is written as its two surrogates, `Text.paired`.

## Main statements

* `Text.Splits.unique` : there is one place where characters stop.
* `Text.scan_splits` : a scan stops where no other character is complete.
* `Text.surrogatePairs_spec` : when all characters of four octets have surrogates.
-/

namespace Hessian

namespace Text

/-! ## Characters -/

/-- A character of four octets spells a code point beyond the basic plane. -/
def Character.InRange (c : Character) : Prop :=
  c.length = 4 → 0x10000 ≤ payload c ∧ payload c ≤ 0x10ffff

/-- A character can be written. -/
def Character.Fit (c : Character) : Prop := c.Complete ∧ c.InRange

/-- A character as it is written: one of four octets as its two surrogates. -/
def paired (c : Character) : List Character :=
  if c.length = 4 then [ofUnit (highSurrogate (payload c)), ofUnit (lowSurrogate (payload c))]
  else [c]

/-- Of two complete characters at the same place neither is longer. -/
theorem Character.Complete.eq {c c' : Character} {rest rest' : Bytes} (h : c.Complete)
    (h' : c'.Complete) (he : c ++ rest = c' ++ rest') : c = c' := by
  cases c with
  | nil => exact h.elim
  | cons lead tail =>
    cases c' with
    | nil => exact h'.elim
    | cons lead' tail' =>
      obtain ⟨rfl, -⟩ := List.cons.inj he
      refine List.append_inj_left he ?_
      exact h.symm.trans h'

/-- What is written for a fit character is complete. -/
theorem Character.Fit.complete_paired {c : Character} (h : c.Fit) :
    ∀ w ∈ paired c, w.Complete := by
  intro w hw
  unfold paired at hw
  split at hw
  · next h4 =>
    obtain ⟨hl, hu⟩ := h.2 h4
    have hs := surrogates_spec (payload c) hl (Nat.lt_succ_of_le hu)
    simp only [List.mem_cons, List.not_mem_nil, or_false] at hw
    rcases hw with rfl | rfl
    · exact (ofUnit_spec (by omega)).1
    · exact (ofUnit_spec (by omega)).1
  · rw [List.mem_singleton.mp hw]
    exact h.1

/-! ## The place where a string stops -/

/-- Octets are cut into characters up to a place where no other one begins. -/
structure Splits (P : Character → Prop) (bytes : Bytes) (characters : List Character)
    (rest : Bytes) : Prop where
  joined : characters.flatten ++ rest = bytes
  all : ∀ c ∈ characters, P c
  stuck : ∀ c, P c → ¬ c <+: rest

namespace Splits

variable {P : Character → Prop} {bytes rest rest' : Bytes} {characters characters' : List Character}

/-- What is left after the first character is cut in the same way. -/
theorem tail {c : Character} (h : Splits P (c ++ bytes) (c :: characters) rest) :
    Splits P bytes characters rest where
  joined := by
    have hj := h.joined
    rw [List.flatten_cons, List.append_assoc] at hj
    exact List.append_cancel_left hj
  all c' hc := h.all c' (List.mem_cons_of_mem _ hc)
  stuck := h.stuck

/-- There is one way to cut octets into characters. -/
theorem unique (hP : ∀ c, P c → c.Complete) (h : Splits P bytes characters rest)
    (h' : Splits P bytes characters' rest') : characters = characters' ∧ rest = rest' := by
  induction characters generalizing bytes characters' with
  | nil =>
    obtain rfl : rest = bytes := h.joined
    cases characters' with
    | nil => exact ⟨rfl, h'.joined.symm⟩
    | cons c characters' =>
      refine absurd ⟨characters'.flatten ++ rest', ?_⟩ (h.stuck c (h'.all c List.mem_cons_self))
      rw [← h'.joined, List.flatten_cons, List.append_assoc]
  | cons c characters ih =>
    obtain rfl : c ++ (characters.flatten ++ rest) = bytes := by
      rw [← h.joined, List.flatten_cons, List.append_assoc]
    cases characters' with
    | nil =>
      obtain rfl : rest' = c ++ (characters.flatten ++ rest) := h'.joined
      exact absurd (List.prefix_append _ _) (h'.stuck c (h.all c List.mem_cons_self))
    | cons c' characters' =>
      have hj := h'.joined
      rw [List.flatten_cons, List.append_assoc] at hj
      obtain rfl : c = c' := (hP c (h.all c List.mem_cons_self)).eq
        (hP c' (h'.all c' List.mem_cons_self)) hj.symm
      obtain ⟨rfl, rfl⟩ := ih h.tail h'.tail
      exact ⟨rfl, rfl⟩

/-- Characters that are all there is are cut off one by one. -/
theorem of_flatten (hP : ∀ c, P c → c.Complete) (h : ∀ c ∈ characters, P c) :
    Splits P characters.flatten characters [] where
  joined := List.append_nil _
  all := h
  stuck c hc hp := by
    rw [List.prefix_nil.mp hp] at hc
    exact hP [] hc

end Splits

/-- A scan stops where no other character is complete. -/
theorem scan_stuck {limit : Nat} {bytes : Bytes} (hl : bytes.length ≤ limit) {c : Character}
    (hc : c.Complete) : ¬ c <+: (scan limit bytes).rest := by
  cases c with
  | nil => exact hc.elim
  | cons lead tail =>
    induction limit generalizing bytes with
    | zero =>
      rw [List.length_eq_zero_iff.mp (Nat.le_zero.mp hl), scan_zero]
      exact fun hp => nomatch List.prefix_nil.mp hp
    | succ limit ih =>
      cases bytes with
      | nil =>
        rw [scan_nil]
        exact fun hp => nomatch List.prefix_nil.mp hp
      | cons first rest =>
        rcases scan_cases first rest with h | ⟨more, h, hr | hr⟩
        · rw [scan_badLead h, List.cons_prefix_cons]
          rintro ⟨rfl, -⟩
          exact nomatch h.symm.trans hc
        · rw [scan_truncated h hr, List.cons_prefix_cons]
          rintro ⟨rfl, hp⟩
          have hlength : more + 1 = tail.length + 1 := h.symm.trans hc
          have hle := hp.length_le
          omega
        · rw [scan_cons h hr]
          refine ih ?_
          rw [List.length_drop]
          rw [List.length_cons] at hl
          omega

/-- A scan cuts octets into complete characters. -/
theorem scan_splits (bytes : Bytes) : Splits Character.Complete bytes
    (scan bytes.length bytes).characters (scan bytes.length bytes).rest where
  joined := (scan_spec _ bytes).2.1
  all := (scan_spec _ bytes).1
  stuck _ hc := scan_stuck (Nat.le_refl _) hc

/-! ## Surrogates -/

/-- A character in range is written in front of the next ones. -/
theorem surrogatePairsFrom_cons {c : Character} (hc : c.InRange) (found : List Character)
    (position : Nat) (characters : List Character) :
    surrogatePairsFrom found position (c :: characters) =
      surrogatePairsFrom ((paired c).reverse ++ found) (position + c.length) characters := by
  unfold paired
  rw [surrogatePairsFrom]
  split
  · next h4 =>
    obtain ⟨hl, hu⟩ := hc h4
    simp [hl, hu, h4]
  · rfl

/-- Any other one is an error where it stands. -/
theorem surrogatePairsFrom_error {c : Character} (hc : ¬ c.InRange) (found : List Character)
    (position : Nat) (characters : List Character) :
    surrogatePairsFrom found position (c :: characters) = .error position := by
  obtain ⟨h4, hrange⟩ := Classical.not_imp.mp hc
  rw [surrogatePairsFrom, if_pos h4]
  refine if_neg fun h => hrange ?_
  simpa using h

/-- Either all characters are in range, or the first one that is not is an error. -/
theorem surrogatePairsFrom_spec (found : List Character) (position : Nat)
    (characters : List Character) :
    ((∀ c ∈ characters, c.InRange) ∧ surrogatePairsFrom found position characters =
      .ok (found.reverse ++ characters.flatMap paired)) ∨
    ∃ before c after, characters = before ++ c :: after ∧ (∀ b ∈ before, b.InRange) ∧
      ¬ c.InRange ∧ surrogatePairsFrom found position characters =
        .error (position + before.flatten.length) := by
  induction characters generalizing found position with
  | nil => exact .inl ⟨nofun, by simp [surrogatePairsFrom]⟩
  | cons c characters ih =>
    by_cases hc : c.InRange
    · rw [surrogatePairsFrom_cons hc]
      rcases ih ((paired c).reverse ++ found) (position + c.length) with
        ⟨hall, hok⟩ | ⟨before, d, after, rfl, hbefore, hd, herror⟩
      · refine .inl ⟨List.forall_mem_cons.mpr ⟨hc, hall⟩, hok.trans ?_⟩
        simp
      · refine .inr ⟨c :: before, d, after, rfl, List.forall_mem_cons.mpr ⟨hc, hbefore⟩, hd,
          herror.trans ?_⟩
        rw [List.flatten_cons, List.length_append, Nat.add_assoc]
    · refine .inr ⟨[], c, characters, rfl, nofun, hc, ?_⟩
      exact surrogatePairsFrom_error hc found position characters

theorem surrogatePairs_spec (characters : List Character) :
    ((∀ c ∈ characters, c.InRange) ∧
      surrogatePairs characters = .ok (characters.flatMap paired)) ∨
    ∃ before c after, characters = before ++ c :: after ∧ (∀ b ∈ before, b.InRange) ∧
      ¬ c.InRange ∧ surrogatePairs characters = .error before.flatten.length := by
  have h := surrogatePairsFrom_spec [] 0 characters
  simp only [Nat.zero_add] at h
  exact h

/-- Complete characters in range are cut off up to the first one that is not in range. -/
theorem Splits.fit {bytes rest : Bytes} {characters : List Character}
    (h : Splits Character.Complete bytes characters rest) (hr : ∀ c ∈ characters, c.InRange) :
    Splits Character.Fit bytes characters rest where
  joined := h.joined
  all c hc := ⟨h.all c hc, hr c hc⟩
  stuck c hc := h.stuck c hc.1

theorem Splits.unfit {bytes rest : Bytes} {before after : List Character} {c : Character}
    (h : Splits Character.Complete bytes (before ++ c :: after) rest)
    (hb : ∀ b ∈ before, b.InRange) (hc : ¬ c.InRange) :
    Splits Character.Fit bytes before (c ++ (after.flatten ++ rest)) where
  joined := by
    rw [← h.joined]
    simp
  all b hm := ⟨h.all b (List.mem_append_left _ hm), hb b hm⟩
  stuck c' hc' := by
    rintro ⟨more, he⟩
    have hcomplete := h.all c (List.mem_append_right _ List.mem_cons_self)
    rw [hc'.1.eq hcomplete he] at hc'
    exact hc hc'.2

end Text

end Hessian
