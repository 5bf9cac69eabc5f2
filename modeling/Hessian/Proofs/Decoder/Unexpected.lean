import Hessian.Proofs.Decoder.Blame
import Hessian.Schema.Catalog

/-!
# The octet that an error names

An error about an unexpected octet gives an octet and an offset.  Where a lead byte is refused, the
octet stands at the offset.  One more step fails with such an error: a class definition that
declares a negative number of fields is named by its own lead byte, while the offset is that of the
number, which starts with another octet (`Grammar.Miscounted`).

So an error names the octet that it points at everywhere but there: `Shape.unexpected_of_read`.
-/

namespace Hessian

open Grammar

namespace Decoder

/-- The octet that an error names stands where the error points, or else it starts a class
definition, and the error points at the negative number of its fields. -/
def Points (s : Decoder) : Error → Prop
  | .unexpectedType code k => ∃ i, k = s.offset + i ∧
      (s.input[i]? = some code ∨ code = Lead.definition.toByte ∧ Miscounted s.input i)
  | _ => True

/-- No step names any other octet. -/
theorem blame_points : Blame Points where
  ahead := by
    rintro s t e ⟨octets, hi, ho⟩ h
    cases e with
    | unexpectedType code k =>
      obtain ⟨i, rfl, hcode⟩ := h
      refine ⟨octets.length + i, by rw [ho, Nat.add_assoc], ?_⟩
      rw [hi]
      refine hcode.imp (fun hc => ?_) fun ⟨hc, hm⟩ => ⟨hc, hm.behind octets⟩
      rw [List.getElem?_append_right (Nat.le_add_right _ _), Nat.add_sub_cancel_left, hc]
    | _ => trivial
  placeless := by
    intro s e h
    cases e with
    | unexpectedType code k => cases h
    | _ => trivial
  notEnoughBuffer _ := trivial
  invalidUtf8 _ := trivial
  unexpected h := ⟨0, rfl, .inl (by rw [h]; rfl)⟩
  fieldCount h := ⟨_, rfl, .inr ⟨rfl, h⟩⟩
  reference := trivial

end Decoder

namespace Shape

variable {ι : Type} (Γ : Schema ι)

/-- Whatever a shape says and whatever the session has read before, an error about an unexpected
octet points into the input, and the octet that it names is the one there, unless it names the lead
byte of a class definition and points at the negative number of its fields. -/
theorem unexpected_of_read (shape : Shape ι) {before : Bytes} {s t : Decoder} {code : UInt8}
    {k : Nat} (hs : s.offset = before.length)
    (h : shape.read Γ s = .error (.unexpectedType code k) t) :
    k < (before ++ s.input).length ∧
      ((before ++ s.input)[k]? = some code ↔
        ¬ (code = Lead.definition.toByte ∧ Miscounted (before ++ s.input) k)) := by
  have hwhole : Decoder.Ahead { s with input := before ++ s.input, offset := 0 } s :=
    ⟨before, rfl, by rw [hs, Nat.zero_add]⟩
  obtain ⟨i, hk, hcode⟩ := (blames_read Decoder.blame_points Γ shape).error hwhole h
  obtain rfl : k = i := hk.trans (Nat.zero_add i)
  constructor
  · have hsome : ∃ b, (before ++ s.input)[k]? = some b := by
      rcases hcode with hc | ⟨-, hm⟩
      · exact ⟨code, hc⟩
      · obtain ⟨b, hb, -⟩ := hm.exists_octet
        exact ⟨b, hb⟩
    obtain ⟨b, hb⟩ := hsome
    exact (List.getElem?_eq_some_iff.mp hb).1
  · constructor
    · rintro hc ⟨rfl, hm⟩
      obtain ⟨b, hb, hne⟩ := hm.exists_octet
      exact hne (Option.some.inj (hb.symm.trans hc))
    · exact hcode.resolve_right

/-- A boolean among the ints of a list, behind an int. -/
theorem unexpected_of_read_list :
    let s : Decoder := { input := [0x79, 0x54], offset := 1, maxDepth := 1 }
    ∃ t, (Shape.list (.int .int32)).read Catalog.schema s = .error (.unexpectedType 0x54 2) t ∧
      2 < ([0x90] ++ s.input).length ∧ ([0x90] ++ s.input)[2]? = some 0x54 := by
  intro s
  have h : (Shape.list (.int .int32)).read Catalog.schema s = .error (.unexpectedType 0x54 2)
      { input := [], offset := 3, containers := 1, maxDepth := 1 } := by rfl
  have hoffset : s.offset = ([0x90] : Bytes).length := rfl
  have hread := unexpected_of_read Catalog.schema _ hoffset h
  exact ⟨_, h, hread.1, hread.2.mpr fun hc => absurd hc.1 (by decide)⟩

/-- A class definition with one field less than none.  The error points at the number, 0x8f, and
names the lead byte of the definition. -/
theorem unexpected_of_negative_count :
    let input : Bytes := [0x43, 0x01, 0x41, 0x8f]
    ∃ t, Shape.value.read Catalog.schema (.start input defaultMaxDepth) =
        .error (.unexpectedType 0x43 3) t ∧ input[3]? = some 0x8f ∧ input[3]? ≠ some 0x43 :=
  ⟨{ input := [], offset := 4, maxDepth := defaultMaxDepth }, by rfl, rfl, by decide⟩

end Shape

end Hessian
