import Hessian.Proofs.RoundTrip.Session
import Hessian.Proofs.Value.Norm
import Hessian.Session.Decoding

/-!
# Values are read back

Whatever an encoding session writes of values, a decoding session reads it as what comes back of
them, `Value.norm`, and the tables of the two sessions agree after each value.  The induction is on
the values; `Echo` is what it carries along.

The terminator of a map is written after its entries have been left and read before.  It makes no
difference, since writing octets does not depend on the depth (`nested_emit`).

## Main statements

* `Encode.value_echo` : a value that has been written is read back, from any state of a session.
* `Encode.values_round_trip` : the values of a session are read back one after another.
-/

namespace Hessian

variable {α : Type}

namespace Echo

variable {e e' e'' : Encoder}

/-- What is read by the step for its kind and what follows that is read as a value. -/
theorem readBy {step : Decode α} {answer : α → Decode Value} {v : Value}
    (ho : Decode.Opens (Decode.ReadBy Decode.value step answer) step)
    (h : Echo (step >>= answer) v e e') : Echo Decode.value v e e' := by
  apply h.congr
  intro s t hst
  obtain ⟨b, u, hb, ht⟩ := Decode.ok_of_bind hst
  rw [Decode.value_eq, Decode.valueWith_of_opens ho hb, ht]

/-- What is read by the step for its kind is read as a value. -/
theorem value {step : Decode α} {answer : α → Decode Value} {a : α} {v : Value}
    (ho : Decode.Opens (Decode.ReadBy Decode.value step answer) step) (hs : Echo step a e e')
    (ha : Echo (answer a) v e' e'') : Echo Decode.value v e e'' :=
  .readBy ho (hs.bind ha)

/-- A scalar is read as a value by the step for its kind. -/
theorem scalar {write : Encode Unit} {step : Decode α} (answer : α → Value) {a : α}
    (hu : Encode.Undone write step a)
    (ho : Decode.Opens (Decode.ReadBy Decode.value step fun a => Pure.pure (answer a)) step)
    (h : write e = .ok () e') : Echo Decode.value (answer a) e e' :=
  .value ho (.of_undone hu h) (.pure _ e')

section UntilTerminator

variable {step : Decode α} {a : α} {rest : List α}

/-- The terminator is the end. -/
theorem untilTerminator_nil (hp : Decode.Productive step)
    (h : Encode.terminator e = .ok () e') : Echo (Decode.untilTerminator step) [] e e' := by
  rw [Decode.untilTerminator_eq hp]
  exact (Echo.of_reads Decode.reads_terminator h).bind (.pure [] e')

/-- A step that does not read a terminator is one more run in front. -/
theorem untilTerminator_cons (hp : Decode.Productive step)
    (ho : Decode.Opens (· ≠ .terminator) step) (h : Echo step a e e')
    (hr : Echo (Decode.untilTerminator step) rest e' e'') :
    Echo (Decode.untilTerminator step) (a :: rest) e e'' := by
  have hrun : Echo (do
      let a ← step
      let rest ← Decode.untilTerminator step
      return a :: rest) (a :: rest) e e'' := h.bind (hr.bind (.pure (a :: rest) e''))
  apply hrun.congr
  intro s t hst
  obtain ⟨b, u, hb, ht⟩ := Decode.ok_of_bind hst
  rw [Decode.untilTerminator_eq hp, Decode.bind_ok (Decode.terminator_of_opens ho hb)]
  exact hst

end UntilTerminator

end Echo

namespace Encode

/-- Octets may be written before the container is left. -/
theorem nested_emit (write : Encode Unit) (bytes : Bytes) :
    (nested write >>= fun _ => emit bytes) = nested (write >>= fun _ => emit bytes) := by
  funext e
  by_cases hle : e.maxDepth ≤ e.depth
  · rw [bind_error (nested_of_le hle), nested_of_le hle]
  · have hlt := Nat.not_le.mp hle
    cases hw : write e.enter with
    | ok a u =>
      have hb : (write >>= fun _ => emit bytes) e.enter = emit bytes u := bind_ok hw
      rw [bind_ok (nested_ok hlt hw), nested_ok hlt hb]
      rfl
    | error err u =>
      rw [bind_error (nested_error hlt hw), nested_error hlt (bind_error hw)]

/-- A type that is not there empty is told from its name. -/
theorem title_eq {type : Option String} (h : type ≠ some "") :
    (if (type.getD "").isEmpty then none else some (type.getD "")) = type := by
  cases type with
  | none => rfl
  | some name =>
    have hn : name.isEmpty = false := by
      rw [String.isEmpty_eq_false_iff]
      rintro rfl
      exact h rfl
    rw [Option.getD_some, hn]
    rfl

theorem productive_pair : Decode.Productive (Decode.pairOf Decode.value Decode.value) :=
  Decode.reader_value.productive.pairOf Decode.reader_value.toRegular

/-- A value does not open with a terminator, and so a pair does not. -/
theorem opens_pair : Decode.Opens (· ≠ .terminator) (Decode.pairOf Decode.value Decode.value) :=
  Decode.opens_value.bind _

/-- A key and its value are one more entry in front. -/
theorem entry_echo {key v : Value} {rest : Entries} {e u w e' : Encoder}
    (hk : Echo Decode.value key e u) (hv : Echo Decode.value v u w)
    (hr : Echo (Decode.untilTerminator (Decode.pairOf Decode.value Decode.value)) rest w e') :
    Echo (Decode.untilTerminator (Decode.pairOf Decode.value Decode.value)) ((key, v) :: rest)
      e e' :=
  .untilTerminator_cons productive_pair opens_pair (hk.bind (hv.bind (.pure (key, v) w))) hr

mutual

/-- A value is read back. -/
theorem value_echo : (v : Value) → (e e' : Encoder) → value v e = .ok () e' → e'.Small →
    Echo Decode.value v.norm e e'
  | .null, _, _, h, _ => .scalar (fun _ => .null) null_undone (Decode.opens_null _) h
  | .boolean b, _, _, h, _ => .scalar .boolean (boolean_undone b) (Decode.opens_boolean _) h
  | .int n, _, _, h, _ => .scalar .int (int_undone n) (Decode.opens_int _) h
  | .long n, _, _, h, _ => .scalar .long (long_undone n) (Decode.opens_long _) h
  | .double d, _, _, h, _ => .scalar .double (double_undone d) (Decode.opens_double _) h
  | .binary bytes, _, _, h, _ => .scalar .binary (binary_undone bytes) (Decode.opens_binary _) h
  | .date millis, _, _, h, _ => .scalar .date (date_undone millis) (Decode.opens_date _) h
  | .string s, _, _, h, _ => .scalar .string (string_undone s) (Decode.opens_string _) h
  | .ref index, _, e', h, hs => .value (Decode.opens_ref _) (ref_echo h hs) (.pure _ e')
  | .list type items, e, e', h, hs => by
    unfold value at h
    split at h
    · cases h
    · next ht =>
      obtain ⟨⟨⟩, u, hb, hn⟩ := ok_of_bind h
      have hsu := ((regular_values items).nested.advance_ok hn).small hs
      obtain ⟨hlt, w, hw, rfl⟩ := ok_of_nested hn
      have hheader := listBegin_echo hb fun _ => hsu
      rw [title_eq ht] at hheader
      have hitems := (values_echo items u.enter w hw hs.of_leave).nested hlt
      exact .value (Decode.opens_listOf _) (hheader.bind (hitems.bind (.pure _ w.leave)))
        (.pure _ w.leave)
  | .map type entries, e, e', h, hs => by
    unfold value at h
    split at h
    · cases h
    · next ht =>
      obtain ⟨⟨⟩, u, hb, hn⟩ := ok_of_bind h
      rw [terminator, form, nested_emit] at hn
      have hregular := (regular_pairs entries).bind fun _ => regular_form .terminator []
      have hsu := (hregular.nested.advance_ok hn).small hs
      obtain ⟨hlt, w, hw, rfl⟩ := ok_of_nested hn
      have hheader := mapBegin_echo hb fun _ => hsu
      rw [title_eq ht] at hheader
      have hentries := (pairs_echo entries u.enter w hw hs.of_leave).nested hlt
      exact .value (Decode.opens_mapOf _) (hheader.bind (hentries.bind (.pure _ w.leave)))
        (.pure _ w.leave)
  | .object c fields, e, e', h, hs => by
    unfold value at h
    split at h
    · next hl =>
      obtain ⟨⟨⟩, u, hb, hn⟩ := ok_of_bind h
      have hsu := ((regular_values fields).nested.advance_ok hn).small hs
      obtain ⟨hlt, w, hw, rfl⟩ := ok_of_nested hn
      have hfields := (values_echo fields u.enter w hw hs.of_leave).nested hlt
      rw [hl] at hfields
      exact .value (Decode.opens_objectBegin _) (objectBegin_echo hb hsu)
        (hfields.bind (.pure _ w.leave))
    · cases h

/-- Values are read back one after another. -/
theorem values_echo : (vs : List Value) → (e e' : Encoder) → values vs e = .ok () e' →
    e'.Small → Echo (Decode.times vs.length Decode.value) (Value.normItems vs) e e'
  | [], e, e', h, _ => by
    obtain ⟨-, rfl⟩ := EStateM.Result.ok.inj h
    exact .pure [] e
  | v :: vs, e, e', h, hs => by
    obtain ⟨⟨⟩, u, hv, hr⟩ := ok_of_bind h
    have hsu := ((regular_values vs).advance_ok hr).small hs
    rw [List.length_cons, Decode.times_succ]
    exact (value_echo v e u hv hsu).bind ((values_echo vs u e' hr hs).bind (.pure _ e'))

/-- Entries are read back up to the terminator. -/
theorem pairs_echo : (pairs : Entries) → (e e' : Encoder) →
    (Encode.pairs pairs >>= fun _ => terminator) e = .ok () e' → e'.Small →
    Echo (Decode.untilTerminator (Decode.pairOf Decode.value Decode.value))
      (Value.normEntries pairs) e e'
  | [], e, e', h, _ => .untilTerminator_nil productive_pair h
  | (key, v) :: rest, e, e', h, hs => by
    have hregular := (regular_pairs rest).bind fun _ => regular_form .terminator []
    rw [Encode.pairs, bind_assoc] at h
    obtain ⟨⟨⟩, u, hk, h⟩ := ok_of_bind h
    rw [bind_assoc] at h
    obtain ⟨⟨⟩, w, hv, hr⟩ := ok_of_bind h
    have hsw := (hregular.advance_ok hr).small hs
    have hsu := ((regular_value v).advance_ok hv).small hsw
    exact entry_echo (value_echo key e u hk hsu) (value_echo v u w hv hsw)
      (pairs_echo rest w e' hr hs)

end

/-! ## Sessions -/

/-- Values that are written in a row can be written in two parts. -/
theorem values_append (vs ws : List Value) :
    values (vs ++ ws) = (values vs >>= fun _ => values ws) := by
  induction vs with
  | nil => rfl
  | cons v vs ih =>
    rw [List.cons_append, values, values, ih, bind_assoc]

/-- What a session writes from its start is read from the start. -/
theorem read_of_echo {read : Decode α} {a : α} {maxDepth : Nat} {e : Encoder}
    (h : Echo read a (.start [] maxDepth) e) (more : Bytes) :
    read (.start (e.bytes ++ more) maxDepth) =
      .ok a (e.level more e.bytes.length none) := by
  obtain ⟨bytes, hb, hr⟩ := h
  obtain rfl : e.bytes = bytes := hb
  have := hr more 0 none
  rwa [Nat.zero_add] at this

/-- Values that a session writes from its start are read from the start, whatever follows them. -/
theorem read_of_values {vs : List Value} {maxDepth : Nat} {e : Encoder}
    (h : values vs (.start [] maxDepth) = .ok () e) (hs : e.Small) (more : Bytes) :
    Decode.times vs.length Decode.value (.start (e.bytes ++ more) maxDepth) =
      .ok (vs.map Value.norm) (e.level more e.bytes.length none) := by
  have hecho := values_echo vs _ e h hs
  rw [Value.normItems_eq_map] at hecho
  exact read_of_echo hecho more

/-- What one session writes, another one reads value by value.  After each value their tables
agree, and after the last one nothing is left.  Values with nothing to change come back as they
are. -/
theorem values_round_trip (maxDepth : Nat) (vs : List Value) (e : Encoder)
    (h : values vs (.start [] maxDepth) = .ok () e) (hs : e.Small) :
    (∀ k ≤ vs.length, ∃ u s,
      values (vs.take k) (.start [] maxDepth) = .ok () u ∧
      Decode.times k Decode.value (.start e.bytes maxDepth) =
        .ok ((vs.take k).map Value.norm) s ∧
      s.types = u.types ∧ s.definitions = u.definitions ∧ s.containers = u.containers ∧
      (k = vs.length → s.input = [])) ∧
    ∀ v ∈ vs, v.NoNegZero → v.Proper → v.norm = v := by
  refine ⟨?_, fun v _ => v.norm_eq⟩
  intro k hk
  have hparts : (values (vs.take k) >>= fun _ => values (vs.drop k)) (.start [] maxDepth) =
      .ok () e := by
    rw [← values_append, List.take_append_drop, h]
  obtain ⟨⟨⟩, u, hu, hrest⟩ := ok_of_bind hparts
  have ha := (regular_values (vs.drop k)).advance_ok hrest
  obtain ⟨more, hm⟩ := ha.bytes
  have hread := read_of_values hu (ha.small hs) more
  rw [List.length_take_of_le hk, hm] at hread
  refine ⟨u, _, hu, hread, rfl, rfl, rfl, ?_⟩
  rintro rfl
  rw [List.drop_length] at hrest
  obtain ⟨-, rfl⟩ := EStateM.Result.ok.inj hrest
  exact List.self_eq_append_right.mp hm.symm

/-- A list that holds itself and a negative zero, and a null after it. -/
theorem values_round_trip_ref :
    let vs : List Value := [.list none [.ref 0, .double .negZero], .null]
    ∃ s, Decode.times 2 Decode.value (.start [0x7a, 0x51, 0x90, 0x5b, 0x4e] 4) =
      .ok (vs.map Value.norm) s ∧ s.input = [] := by
  have hd : double .negZero = form .doubleZero [] := by
    rw [double, Double.whole?_negZero]
    rfl
  have h := values_round_trip 4 [.list none [.ref 0, .double .negZero], .null]
    { output := #[0x7a, 0x51, 0x90, 0x5b, 0x4e], containers := 1, maxDepth := 4 }
    (by
      simp only [values, value, hd]
      rfl)
    ⟨by decide, by decide, by decide, fun c hc => nomatch hc⟩
  obtain ⟨u, s, -, hr, -, -, -, hi⟩ := h.1 2 (Nat.le_refl 2)
  exact ⟨s, hr, hi rfl⟩

end Encode

end Hessian
