import Hessian.Text.Character

/-!
# Cutting bytes into characters

`Text.scan` carries along what it has found.  Here it is given by an equation on the rest of the
bytes alone, and from that come its three laws: what it finds are characters, nothing is lost
(`scan_spec`); characters in a row are found again (`scan_flatten`); and the octets behind the
place where it stops do not matter unless it stops for want of octets (`scan_append`).
-/

namespace Hessian.Text

/-- A character has as many octets as its lead asks for, and at least that one. -/
def Character.Complete : Character → Prop
  | [] => False
  | lead :: rest => leadLength lead = rest.length + 1

/-- A scan with characters put in front of it. -/
def Scan.after (r : Scan) (found : List Character) (size : Nat) : Scan :=
  ⟨found.reverse ++ r.characters, size + r.size, r.rest, r.stop⟩

/-- What has been found before only stands in front. -/
theorem scanFrom_eq (found : List Character) (size limit : Nat) (bytes : Bytes) :
    scanFrom found size limit bytes = (scan limit bytes).after found size := by
  induction limit generalizing found size bytes with
  | zero => simp [scan, scanFrom, Scan.after]
  | succ limit ih =>
    cases bytes with
    | nil => simp [scan, scanFrom, Scan.after]
    | cons lead rest =>
      simp only [scan, scanFrom]
      split
      · simp [Scan.after]
      · next more h =>
        split
        · rw [ih, ih [lead :: rest.take more]]
          simp [Scan.after, Nat.add_assoc]
        · simp [Scan.after]

/-- No characters are asked for. -/
@[simp] theorem scan_zero (bytes : Bytes) : scan 0 bytes = ⟨[], 0, bytes, .reached⟩ := rfl

/-- There are no octets. -/
@[simp] theorem scan_nil (limit : Nat) : scan (limit + 1) [] = ⟨[], 0, [], .ended⟩ := rfl

/-- The next octet starts no character. -/
theorem scan_badLead {lead : UInt8} (h : leadLength lead = 0) (limit : Nat) (rest : Bytes) :
    scan (limit + 1) (lead :: rest) = ⟨[], 0, lead :: rest, .badLead⟩ := by
  simp [scan, scanFrom, h]

/-- The next character misses some of its octets. -/
theorem scan_truncated {lead : UInt8} {more : Nat} (h : leadLength lead = more + 1)
    {rest : Bytes} (hr : rest.length < more) (limit : Nat) :
    scan (limit + 1) (lead :: rest) = ⟨[], 0, lead :: rest, .truncated⟩ := by
  have hm : ¬ Bytes.hasAtLeast more rest = true := by
    rw [Bytes.hasAtLeast_iff]
    omega
  simp [scan, scanFrom, h, hm]

/-- The next character is complete. -/
theorem scan_cons {lead : UInt8} {more : Nat} (h : leadLength lead = more + 1) {rest : Bytes}
    (hr : more ≤ rest.length) (limit : Nat) :
    scan (limit + 1) (lead :: rest) =
      (scan limit (rest.drop more)).after [lead :: rest.take more] (more + 1) := by
  have hm : Bytes.hasAtLeast more rest = true := Bytes.hasAtLeast_iff.mpr hr
  simp only [scan, scanFrom, h, hm, if_true]
  rw [scanFrom_eq]
  simp [scan]

/-- The four ways in which a scan of at least one octet begins. -/
theorem scan_cases (lead : UInt8) (rest : Bytes) :
    leadLength lead = 0 ∨
      ∃ more, leadLength lead = more + 1 ∧ (rest.length < more ∨ more ≤ rest.length) := by
  cases h : leadLength lead with
  | zero => exact .inl rfl
  | succ more => exact .inr ⟨more, rfl, Nat.lt_or_ge _ _⟩

/-- What is found are characters, and with the rest they are all the octets. -/
theorem scan_spec (limit : Nat) (bytes : Bytes) :
    (∀ c ∈ (scan limit bytes).characters, c.Complete) ∧
      (scan limit bytes).characters.flatten ++ (scan limit bytes).rest = bytes ∧
      (scan limit bytes).size = (scan limit bytes).characters.flatten.length ∧
      ((scan limit bytes).stop = .reached → (scan limit bytes).characters.length = limit) := by
  induction limit generalizing bytes with
  | zero => simp
  | succ limit ih =>
    cases bytes with
    | nil => simp
    | cons lead rest =>
      rcases scan_cases lead rest with h | ⟨more, h, hr | hr⟩
      · simp [scan_badLead h]
      · simp [scan_truncated h hr]
      · obtain ⟨hc, hb, hs, hl⟩ := ih (rest.drop more)
        rw [scan_cons h hr]
        refine ⟨?_, ?_, ?_, ?_⟩
        · intro c hm
          rcases List.mem_cons.mp hm with rfl | hm
          · simp [Character.Complete, h, hr]
          · exact hc c hm
        · simp [Scan.after, hb]
        · simp [Scan.after, hs, hr]
          omega
        · intro hst
          simp [Scan.after, hl hst]

/-- Complete characters in a row are found again, whatever follows them. -/
theorem scan_flatten {characters : List Character} (h : ∀ c ∈ characters, c.Complete)
    (rest : Bytes) :
    scan characters.length (characters.flatten ++ rest) =
      ⟨characters, characters.flatten.length, rest, .reached⟩ := by
  induction characters with
  | nil => simp
  | cons c characters ih =>
    have hc := h c List.mem_cons_self
    cases c with
    | nil => exact hc.elim
    | cons lead tail =>
      have hr : tail.length ≤ (tail ++ (characters.flatten ++ rest)).length := by
        rw [List.length_append]
        exact Nat.le_add_right _ _
      rw [List.length_cons, List.flatten_cons, List.cons_append, List.cons_append,
        List.append_assoc, scan_cons hc hr, List.drop_left, List.take_left,
        ih fun c hm => h c (List.mem_cons_of_mem _ hm)]
      simp [Scan.after]
      omega

/-- There are at least as many octets as complete characters. -/
theorem length_le_flatten {characters : List Character} (h : ∀ c ∈ characters, c.Complete) :
    characters.length ≤ characters.flatten.length := by
  induction characters with
  | nil => exact Nat.le_refl 0
  | cons c characters ih =>
    have hc := h c List.mem_cons_self
    have ih := ih fun c hm => h c (List.mem_cons_of_mem _ hm)
    cases c with
    | nil => exact hc.elim
    | cons lead tail =>
      rw [List.flatten_cons, List.length_append, List.length_cons, List.length_cons]
      omega

/-- Complete characters that are all there is are found again if there may be that many. -/
theorem scan_all {characters : List Character} (h : ∀ c ∈ characters, c.Complete) {limit : Nat}
    (hl : characters.length ≤ limit) :
    (scan limit characters.flatten).characters = characters ∧
      (scan limit characters.flatten).rest = [] := by
  induction characters generalizing limit with
  | nil => cases limit <;> exact ⟨rfl, rfl⟩
  | cons c characters ih =>
    have hc := h c List.mem_cons_self
    cases c with
    | nil => exact hc.elim
    | cons lead tail =>
      obtain ⟨limit, rfl⟩ := Nat.exists_eq_add_of_le' (Nat.lt_of_lt_of_le (Nat.succ_pos _) hl)
      obtain ⟨ihc, ihr⟩ := ih (fun c hm => h c (List.mem_cons_of_mem _ hm))
        (Nat.le_of_succ_le_succ hl)
      have hr : tail.length ≤ (tail ++ characters.flatten).length := by
        rw [List.length_append]
        exact Nat.le_add_right _ _
      rw [List.flatten_cons, List.cons_append, scan_cons hc hr, List.drop_left, List.take_left]
      simp [Scan.after, ihc, ihr]

/-- More octets at the end make no difference to a scan that found all it was asked for, or an
octet that starts no character. -/
theorem scan_append {limit : Nat} {bytes : Bytes} (more : Bytes)
    (h : (scan limit bytes).stop = .reached ∨ (scan limit bytes).stop = .badLead) :
    scan limit (bytes ++ more) =
      { scan limit bytes with rest := (scan limit bytes).rest ++ more } := by
  induction limit generalizing bytes with
  | zero => simp
  | succ limit ih =>
    cases bytes with
    | nil => simp at h
    | cons lead rest =>
      rcases scan_cases lead rest with hl | ⟨tail, hl, hr | hr⟩
      · simp [scan_badLead hl]
      · simp [scan_truncated hl hr] at h
      · rw [scan_cons hl hr] at h ⊢
        have hr' : tail ≤ (rest ++ more).length := by
          rw [List.length_append]
          omega
        rw [List.cons_append, scan_cons hl hr', List.drop_append_of_le_length hr,
          List.take_append_of_le_length hr, ih h]
        rfl

end Hessian.Text
