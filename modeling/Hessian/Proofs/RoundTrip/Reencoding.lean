import Hessian.Proofs.Encoder.Success
import Hessian.Proofs.RoundTrip.Value
import Hessian.Proofs.Trace.Sound
import Mathlib

/-!
# Writing what has been read

Values that have been read can be written again in a session of their own, except for three things
that the grammar allows and the writer refuses: an empty type name, a list that is longer than an
int, and a reference that is not to a container written before it.

The last one is not for the stream to decide.  All references of a stream go back in it, but where a
map repeats a key a container of the stream is dropped, and what refers to a later one may then go
nowhere (`Encode.reencode_repeated_key`).  So values that have been read can be written exactly if
their references still go back, which they do where no map repeats a key (`Encode.reencode`).

The streams that show this are read and written by evaluation.  That takes equations from all over
the library, which is why it is imported as a whole.
-/

namespace Hessian

namespace Decode

/-- Values that have been read one after another have traces, and these are sound together. -/
theorem traces_of_values {input : Bytes} {maxDepth n : Nat} {vs : List Value} {s : Decoder}
    (h : times n value (.start input maxDepth) = .ok vs s) :
    ∃ ts, times n trace (.start input maxDepth) = .ok ts s ∧ vs = ts.map Trace.value ∧
      vs.length = n ∧ Trace.SoundItems (.start input maxDepth) ts s := by
  rw [value_eq_map_trace, times_map, map_eq_pure_bind] at h
  obtain ⟨ts, u, hts, h⟩ := ok_of_bind h
  obtain ⟨rfl, rfl⟩ := EStateM.Result.ok.inj h
  obtain ⟨hl, hc⟩ := sound_trace.times n _ ts u hts
  exact ⟨ts, hts, rfl, (List.length_map _).trans hl, Trace.soundItems_of_chain hc⟩

end Decode

namespace Trace

/-- Where no map repeats a key, the values are the traces without the numbers. -/
theorem map_value_eq {ts : List Trace} (h : ∀ T ∈ ts, T.erase.Proper) :
    ts.map value = eraseItems ts := by
  rw [eraseItems_eq_map]
  exact List.map_congr_left fun T hm => congrArg erase (settle_eq T (h T hm))

end Trace

namespace Encode

variable {vs : List Value} {maxDepth : Nat} {e : Encoder}

/-- When values can be written from the start of a session. -/
theorem values_start_ok_iff : (∃ e, values vs (.start [] maxDepth) = .ok () e) ↔
    (∀ v ∈ vs, v.Everywhere Value.Writable) ∧ (∀ v ∈ vs, v.height ≤ maxDepth) ∧
      Value.GroundedItems 0 vs := by
  rw [values_ok_iff, Value.everywhereItems_iff, Value.heightOfItems_le]
  rfl

/-- A session that has written no more than 2 ^ 31 values is small. -/
theorem small_of_values (h : values vs (.start [] maxDepth) = .ok () e)
    (hs : Value.sizeOfItems vs < 2 ^ 31) : e.Small :=
  (grown_values vs _ e h (Nat.le_of_lt hs)).small
    (Nat.lt_of_le_of_lt (Value.length_containersOfItems_le vs) hs)

/-- Values with sound traces, and with no empty type names in them, can be written from the start of
a session exactly if their lists are short and their references go back. -/
theorem values_ok_iff_of_sound {input : Bytes} {ts : List Trace} {s : Decoder}
    (hsound : Trace.SoundItems (.start input maxDepth) ts s)
    (ht : ∀ v ∈ ts.map Trace.value, v.Everywhere Value.Titled) :
    (∃ e, values (ts.map Trace.value) (.start [] maxDepth) = .ok () e) ↔
      (∀ v ∈ ts.map Trace.value, v.Everywhere Value.Short) ∧
        Value.GroundedItems 0 (ts.map Trace.value) := by
  have hfilled : ∀ v ∈ ts.map Trace.value, v.Everywhere Value.Filled :=
    List.forall_mem_map.mpr hsound.filled
  have hheight : ∀ v ∈ ts.map Trace.value, v.height ≤ maxDepth :=
    List.forall_mem_map.mpr hsound.height
  rw [values_start_ok_iff]
  constructor
  · rintro ⟨hw, -, hg⟩
    exact ⟨fun v hm => (Value.everywhere_writable.mp (hw v hm)).2.2, hg⟩
  · rintro ⟨hshort, hg⟩
    refine ⟨fun v hm => ?_, hheight, hg⟩
    exact Value.everywhere_writable.mpr ⟨ht v hm, hfilled v hm, hshort v hm⟩

/-- Values that have been read, with no empty type names in them, can be written again exactly if
their lists are short and their references go back.  What is written is then read as what comes back
of them, as long as the session is small.

Lists are short and sessions small whatever has been read from less than 2 ^ 31 octets, and
references go back wherever no map of the stream repeats a key. -/
theorem reencode {input : Bytes} {n : Nat} {s : Decoder}
    (h : Decode.times n Decode.value (.start input maxDepth) = .ok vs s)
    (ht : ∀ v ∈ vs, v.Everywhere Value.Titled) :
    ((∃ e, values vs (.start [] maxDepth) = .ok () e) ↔
      (∀ v ∈ vs, v.Everywhere Value.Short) ∧ Value.GroundedItems 0 vs) ∧
    (∀ e, values vs (.start [] maxDepth) = .ok () e → e.Small →
      ∃ t, Decode.times n Decode.value (.start e.bytes maxDepth) = .ok (vs.map Value.norm) t ∧
        t.input = []) ∧
    (input.length < 2 ^ 31 → (∀ v ∈ vs, v.Everywhere Value.Short) ∧
      ∀ e, values vs (.start [] maxDepth) = .ok () e → e.Small) ∧
    ∃ ts, Decode.times n Decode.trace (.start input maxDepth) = .ok ts s ∧
      vs = ts.map Trace.value ∧
      ((∀ T ∈ ts, T.erase.Proper) → Value.GroundedItems 0 vs) := by
  obtain ⟨ts, hts, rfl, hlength, hsound⟩ := Decode.traces_of_values h
  have hsize : Value.sizeOfItems (ts.map Trace.value) ≤ input.length :=
    Nat.le_trans (Nat.le_add_right _ _) hsound.size
  refine ⟨values_ok_iff_of_sound hsound ht, ?_, ?_, ts, hts, rfl, ?_⟩
  · intro e he hs
    have hread := read_of_values he hs []
    rw [hlength, List.append_nil] at hread
    exact ⟨_, hread, rfl⟩
  · intro hi
    have hlt := Nat.lt_of_le_of_lt hsize hi
    constructor
    · exact Value.everywhereItems_iff.mp (Value.everywhereItems_short _ (Nat.le_of_lt hlt))
    · intro e he
      exact small_of_values he hlt
  · intro hproper
    rw [Trace.map_value_eq hproper]
    exact hsound.grounded

/-- A map that holds a list, and a reference to that list. -/
theorem reencode_ref :
    ∃ vs s e t, Decode.times 2 Decode.value (.start [0x48, 0x91, 0x78, 0x5a, 0x51, 0x91] 3) =
        .ok vs s ∧ s.input = [] ∧ values vs (.start [] 3) = .ok () e ∧
      Decode.times 2 Decode.value (.start e.bytes 3) = .ok (vs.map Value.norm) t ∧
        t.input = [] := by
  have h : Decode.times 2 Decode.value (.start [0x48, 0x91, 0x78, 0x5a, 0x51, 0x91] 3) =
      .ok [.map none [(.int 1, .list none [])], .ref 1]
        { input := [], offset := 6, containers := 2, maxDepth := 3 } := by cbv
  obtain ⟨hwrite, hread, hsmall, -⟩ := reencode h
    (Value.everywhereItems_iff.mp ⟨⟨(Option.some_ne_none _).symm, trivial,
      ⟨(Option.some_ne_none _).symm, trivial⟩, trivial⟩, trivial, trivial⟩)
  obtain ⟨hshort, hs⟩ := hsmall (by decide)
  obtain ⟨e, he⟩ := hwrite.mpr
    ⟨hshort, ⟨trivial, trivial, trivial⟩, (by decide : (1 : UInt32).toNat < 2), trivial⟩
  obtain ⟨t, ht, hi⟩ := hread e he (hs e he)
  exact ⟨_, _, e, t, h, rfl, he, ht, hi⟩

/-- A map gives its only key a second time, and a reference is to the list that comes with it.  Only
one of the two lists is written, so the reference goes nowhere. -/
theorem reencode_repeated_key :
    ∃ vs s e, Decode.times 2 Decode.value
        (.start [0x48, 0x91, 0x78, 0x91, 0x78, 0x5a, 0x51, 0x92] 3) = .ok vs s ∧ s.input = [] ∧
      (∀ v ∈ vs, v.Everywhere Value.Titled) ∧
      values vs (.start [] 3) = .error (.encode (.danglingReference 2 2)) e := by
  have h : Decode.times 2 Decode.value
      (.start [0x48, 0x91, 0x78, 0x91, 0x78, 0x5a, 0x51, 0x92] 3) =
      .ok [.map none [(.int 1, .list none [])], .ref 2]
        { input := [], offset := 8, containers := 3, maxDepth := 3 } := by cbv
  refine ⟨_, _, { output := #[0x48, 0x91, 0x78, 0x5a], containers := 2, maxDepth := 3 }, h, rfl,
    Value.everywhereItems_iff.mp ⟨⟨(Option.some_ne_none _).symm, trivial,
      ⟨(Option.some_ne_none _).symm, trivial⟩, trivial⟩, trivial, trivial⟩, ?_⟩
  cbv

end Encode

end Hessian
