import Hessian.Proofs.Grammar.Sound
import Hessian.Proofs.RoundTrip.Value
import Hessian.Proofs.Value.Measure

/-!
# What is written is in the grammar

`Written n phrase e e'` says that what an encoding session writes on its way from `e` to `e'` is
derived as that phrase, from the tables of the one to the tables of the other, with `n` levels of
containers.

A value is written as its `norm`, with as many levels as it is high: `Encode.value_written`.  The
echo of a header or a scalar is read by its reader, and what that finds is the form.
-/

namespace Hessian

open Grammar Decode

/-- What the session has told so far. -/
def Encoder.tables (e : Encoder) : Tables := ⟨e.types, e.definitions, e.containers⟩

/-- What is written on the way from one session to another is a phrase of the grammar. -/
def Written (n : Nat) (phrase : Phrase) (e e' : Encoder) : Prop :=
  ∃ bytes, e'.bytes = e.bytes ++ bytes ∧ Derives n e.tables bytes phrase e'.tables

variable {α : Type} {e e' e'' : Encoder}

/-- What is echoed has the form that the reader finds. -/
theorem Echo.exists_form {read : Decode α} {a : α} {F : Tables → Bytes → α → Tables → Prop}
    (h : Echo read a e e') (hf : ∀ levels, Finds levels F read) :
    ∃ bytes, e'.bytes = e.bytes ++ bytes ∧ F e.tables bytes a e'.tables := by
  obtain ⟨bytes, hb, hr⟩ := h
  obtain ⟨bytes', hp, hF⟩ := hf _ _ a _ (hr [] 0 none) rfl
  have hin : bytes ++ [] = bytes' ++ [] := hp.input
  obtain rfl := List.append_cancel_right hin
  exact ⟨bytes, hb, hF⟩

/-- A scalar is written in one of its forms. -/
theorem Written.scalar {write : Encode Unit} {read : Decode α} {a : α} {v : Value}
    {form : Bytes → α → Prop} (hw : Encode.Undone write read a)
    (hf : ∀ levels, Finds levels (Keeping form) read)
    (hd : ∀ {tb bytes}, form bytes a → Derives 0 tb bytes (.value v) tb)
    (h : write e = .ok () e') : Written 0 (.value v) e e' := by
  obtain ⟨bytes, hb, hform, ht⟩ := (Echo.of_undone hw h).exists_form hf
  exact ⟨bytes, hb, ht ▸ hd hform⟩

/-! ## Rows -/

namespace Written

variable {n m k : Nat} {key v : Value} {vs : List Value} {pairs : Entries}

theorem noItems (e : Encoder) : Written 0 (.items []) e e :=
  ⟨[], (List.append_nil _).symm, .noItems⟩

theorem item (head : Written n (.value v) e e') (tail : Written m (.items vs) e' e'') :
    Written (max n m) (.items (v :: vs)) e e'' := by
  obtain ⟨bytes, hb, hhead⟩ := head
  obtain ⟨more, hm, htail⟩ := tail
  exact ⟨bytes ++ more, by rw [hm, hb, List.append_assoc], .item hhead htail⟩

theorem noPairs (e : Encoder) : Written 0 (.pairs []) e e :=
  ⟨[], (List.append_nil _).symm, .noPairs⟩

theorem pair {u : Encoder} (first : Written n (.value key) e u) (second : Written m (.value v) u e')
    (tail : Written k (.pairs pairs) e' e'') :
    Written (max (max n m) k) (.pairs ((key, v) :: pairs)) e e'' := by
  obtain ⟨bytes, hb, hfirst⟩ := first
  obtain ⟨bytes', hb', hsecond⟩ := second
  obtain ⟨more, hm, htail⟩ := tail
  exact ⟨bytes ++ bytes' ++ more, by rw [hm, hb', hb, List.append_assoc, List.append_assoc,
    List.append_assoc], .pair hfirst hsecond htail⟩

end Written

namespace Encode

theorem terminator_written (h : terminator e = .ok () e') :
    ∃ z, e'.bytes = e.bytes ++ [z] ∧ Lead.terminator.covers z ∧ e'.tables = e.tables := by
  obtain ⟨-, rfl⟩ := EStateM.Result.ok.inj h
  exact ⟨Lead.terminator.toByte, Array.toList_appendList, rfl, rfl⟩

/-! ## Containers -/

/-- The fields of a class instance stand behind its header, however deep they are written. -/
theorem objectBegin_written {c : Definition} {vs : List Value} {n : Nat}
    (hb : objectBegin c e = .ok () e') (hs : e'.Small) (hl : vs.length = c.fieldNames.length)
    (hparts : Written n (.items vs) e' e'') : Written (n + 1) (.value (.object c vs)) e e'' := by
  obtain ⟨head, hhead, hform⟩ := (objectBegin_echo hb hs).exists_form fun _ => finds_objectBegin
  obtain ⟨bytes, hbytes, hparts⟩ := hparts
  exact ⟨head ++ bytes, by rw [hbytes, hhead, List.append_assoc], .object hform hl hparts⟩

section Containers

variable {body : Encode Unit} {n : Nat} (hr : Regular body)

include hr

/-- A list is written as its header and its items, one level deeper. -/
theorem list_written {type : Option String} {vs : List Value} (ht : type ≠ some "")
    (hbody : ∀ u w, body u = .ok () w → w.Small → Written n (.items vs) u w)
    (h : (listBegin (type.getD "") vs.length >>= fun _ => nested body) e = .ok () e')
    (hs : e'.Small) : Written (n + 1) (.value (.list type vs)) e e' := by
  obtain ⟨⟨⟩, u, hb, hn⟩ := ok_of_bind h
  have hheader := listBegin_echo hb fun _ => (hr.nested.advance_ok hn).small hs
  rw [title_eq ht] at hheader
  obtain ⟨head, hhead, hform⟩ := hheader.exists_form fun _ => finds_listBegin
  obtain ⟨-, w, hw, rfl⟩ := ok_of_nested hn
  obtain ⟨bytes, hbytes, hparts⟩ := hbody u.enter w hw hs.of_leave
  refine ⟨head ++ bytes, ?_, .counted hform hparts⟩
  exact hbytes.trans ((congrArg (· ++ bytes) hhead).trans (List.append_assoc _ _ _))

/-- A map is written as its header, its entries one level deeper, and the terminator. -/
theorem map_written {type : Option String} {pairs : Entries} (ht : type ≠ some "")
    (hbody : ∀ u w, body u = .ok () w → w.Small → Written n (.pairs pairs) u w)
    (h : (mapBegin (type.getD "") >>= fun _ => nested body >>= fun _ => terminator) e = .ok () e')
    (hs : e'.Small) : Written (n + 1) (.value (.map type (Entries.ofPairs pairs))) e e' := by
  obtain ⟨⟨⟩, u, hb, h⟩ := ok_of_bind h
  obtain ⟨⟨⟩, x, hn, hz⟩ := ok_of_bind h
  have hsx := ((regular_form _ _).advance_ok hz).small hs
  have hheader := mapBegin_echo hb fun _ => (hr.nested.advance_ok hn).small hsx
  rw [title_eq ht] at hheader
  obtain ⟨head, hhead, hform⟩ := hheader.exists_form fun _ => finds_mapBegin
  obtain ⟨-, w, hw, rfl⟩ := ok_of_nested hn
  obtain ⟨bytes, hbytes, hparts⟩ := hbody u.enter w hw hsx.of_leave
  obtain ⟨z, hlast, hlead, htables⟩ := terminator_written hz
  refine ⟨head ++ (bytes ++ [z]), ?_, htables ▸ .map hform hparts hlead⟩
  have hmiddle : w.leave.bytes = e.bytes ++ head ++ bytes :=
    hbytes.trans (congrArg (· ++ bytes) hhead)
  rw [hlast, hmiddle, List.append_assoc, List.append_assoc]

/-- A class instance is written as its header and its fields, one level deeper. -/
theorem object_written {c : Definition} {vs : List Value} (hl : vs.length = c.fieldNames.length)
    (hbody : ∀ u w, body u = .ok () w → w.Small → Written n (.items vs) u w)
    (h : (objectBegin c >>= fun _ => nested body) e = .ok () e') (hs : e'.Small) :
    Written (n + 1) (.value (.object c vs)) e e' := by
  obtain ⟨⟨⟩, u, hb, hn⟩ := ok_of_bind h
  have hsu := (hr.nested.advance_ok hn).small hs
  obtain ⟨-, w, hw, rfl⟩ := ok_of_nested hn
  exact objectBegin_written hb hsu hl (hbody u.enter w hw hs.of_leave)

end Containers

/-! ## Values -/

mutual

/-- A value is written as what comes back of it, with as many levels as it is high. -/
theorem value_written : (v : Value) → (e e' : Encoder) → value v e = .ok () e' → e'.Small →
    Written v.height (.value v.norm) e e'
  | .null, _, _, h, _ => .scalar null_undone (fun _ => finds_null)
    (by rintro _ _ ⟨b, rfl, hl⟩; exact .null hl) h
  | .boolean b, _, _, h, _ => .scalar (boolean_undone b) (fun _ => finds_boolean)
    (by rintro _ _ ⟨b, rfl, hl⟩; exact .boolean hl) h
  | .int n, _, _, h, _ => .scalar (int_undone n) (fun _ => finds_int) .int h
  | .long n, _, _, h, _ => .scalar (long_undone n) (fun _ => finds_long) .long h
  | .double d, _, _, h, _ => .scalar (double_undone d) (fun _ => finds_double) .double h
  | .binary bytes, _, _, h, _ => .scalar (binary_undone bytes) (fun _ => finds_binary) .binary h
  | .date millis, _, _, h, _ => .scalar (date_undone millis) (fun _ => finds_date) .date h
  | .string s, _, _, h, _ => .scalar (string_undone s) (fun _ => finds_string) .string h
  | .ref index, e, e', h, hs => by
    obtain ⟨bytes, hb, hform, ht⟩ := (ref_echo h hs).exists_form fun _ => finds_ref
    refine ⟨bytes, hb, ?_⟩
    rw [ht]
    exact .ref hform
  | .list type items, e, e', h, hs => by
    unfold value at h
    split at h
    · cases h
    · next ht =>
      rw [← Value.length_normItems items] at h
      exact list_written (regular_values items) ht (values_written items) h hs
  | .map type entries, e, e', h, hs => by
    unfold value at h
    split at h
    · cases h
    · next ht => exact map_written (regular_pairs entries) ht (pairs_written entries) h hs
  | .object c fields, e, e', h, hs => by
    unfold value at h
    split at h
    · next hl =>
      exact object_written (regular_values fields) ((Value.length_normItems fields).trans hl)
        (values_written fields) h hs
    · cases h

/-- Values are written one after another. -/
theorem values_written : (vs : List Value) → (e e' : Encoder) → values vs e = .ok () e' →
    e'.Small → Written (Value.heightOfItems vs) (.items (Value.normItems vs)) e e'
  | [], e, _, h, _ => by
    obtain ⟨-, rfl⟩ := EStateM.Result.ok.inj h
    exact .noItems e
  | v :: vs, e, e', h, hs => by
    obtain ⟨⟨⟩, u, hv, hr⟩ := ok_of_bind h
    have hsu := ((regular_values vs).advance_ok hr).small hs
    exact (value_written v e u hv hsu).item (values_written vs u e' hr hs)

/-- Entries are written one after another, each key before its value. -/
theorem pairs_written : (pairs : Entries) → (e e' : Encoder) → Encode.pairs pairs e = .ok () e' →
    e'.Small → Written (Value.heightOfEntries pairs) (.pairs (Value.normEntries pairs)) e e'
  | [], e, _, h, _ => by
    obtain ⟨-, rfl⟩ := EStateM.Result.ok.inj h
    exact .noPairs e
  | (key, v) :: rest, e, e', h, hs => by
    obtain ⟨⟨⟩, u, hk, h⟩ := ok_of_bind h
    obtain ⟨⟨⟩, w, hv, hr⟩ := ok_of_bind h
    have hsw := ((regular_pairs rest).advance_ok hr).small hs
    have hsu := ((regular_value v).advance_ok hv).small hsw
    rw [Value.heightOfEntries, ← Nat.max_assoc]
    exact .pair (value_written key e u hk hsu) (value_written v u w hv hsw)
      (pairs_written rest w e' hr hs)

end

end Encode

end Hessian
