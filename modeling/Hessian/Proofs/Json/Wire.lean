import Hessian.Proofs.Json.Basic
import Hessian.Proofs.RoundTrip.Value
import Hessian.Proofs.Schema.Image

/-!
# JSON values on the wire and back

What is written for a JSON value is what is written for the value that it is, and it is read as what
comes back of that (`Encode.json_echo`).  Neither types nor references are written, so the session
may be of any size.

## Main statements

* `Encode.json_same_as_value` : a JSON value is written as its value, with the same outcome.
* `Encode.json_round_trip` : a JSON value that has been written is read back.
-/

namespace Hessian

namespace Encode

/-! ## Writing -/

/-- A JSON value is written as the value that it is, from any state of a session: with the same
success or error, the same octets and the same tables.  That value is a proper one
(`Json.proper_toValue`). -/
theorem json_same_as_value (j : Json) (e : Encoder) : json j e = value j.toValue e :=
  congrFun (json_eq_value j) e

/-- Integers on both sides of the bounds. -/
theorem json_same_as_value_object :
    let j : Json := .object [("a", .array [.integer 2147483647, .integer 2147483648]),
      ("b", .natural 9223372036854775808)]
    let v : Value := .map none [(.string "a", .list none [.int 2147483647, .long 2147483648]),
      (.string "b", .double ⟨0x43e0000000000000⟩)]
    j.toValue = v ∧ (∀ e : Encoder, json j e = value v e) ∧ v.Proper := by
  intro j v
  have hd : Json.naturalDouble 9223372036854775808 = ⟨0x43e0000000000000⟩ := by decide +kernel
  have hv : j.toValue = v := by
    simp only [j, Json.toValue, Json.toEntries, Json.toValues, hd]
    rfl
  have hj : j.Canonical :=
    ⟨by decide, ⟨trivial, trivial, trivial⟩, Nat.le_refl _, trivial⟩
  exact ⟨hv, fun e => hv ▸ json_same_as_value j e, hv ▸ j.proper_toValue hj⟩

/-! ## Reading -/

mutual

/-- A JSON value is read as the value that it is, as that comes back. -/
theorem json_echo : (j : Json) → (e e' : Encoder) → json j e = .ok () e' →
    Echo Decode.value j.toValue.norm e e'
  | .null, _, _, h => .scalar (fun _ => .null) null_undone (Decode.opens_null _) h
  | .boolean b, _, _, h => .scalar .boolean (boolean_undone b) (Decode.opens_boolean _) h
  | .integer n, e, e', h => by
    rw [json, integer] at h
    rw [Json.toValue, Json.integerValue]
    split at h
    · next hn =>
      rw [if_pos hn]
      exact .scalar .int (int_undone _) (Decode.opens_int _) h
    · next hn =>
      rw [if_neg hn]
      exact .scalar .long (long_undone n) (Decode.opens_long _) h
  | .natural n, _, _, h => .scalar .double (double_undone _) (Decode.opens_double _) h
  | .float d, _, _, h => .scalar .double (double_undone d) (Decode.opens_double _) h
  | .string s, _, _, h => .scalar .string (string_undone s) (Decode.opens_string _) h
  | .array items, e, e', h => by
    obtain ⟨⟨⟩, u, hb, hn⟩ := ok_of_bind h
    obtain ⟨hlt, w, hw, rfl⟩ := ok_of_nested hn
    have hitems := (jsons_echo items u.enter w hw).nested hlt
    exact .value (Decode.opens_listOf _)
      ((listBegin_echo hb nofun).bind (hitems.bind (.pure _ w.leave))) (.pure _ w.leave)
  | .object members, e, e', h => by
    obtain ⟨⟨⟩, u, hb, hn⟩ := ok_of_bind h
    rw [terminator, form, nested_emit] at hn
    obtain ⟨hlt, w, hw, rfl⟩ := ok_of_nested hn
    have hmembers := (jsonMembers_echo members u.enter w hw).nested hlt
    exact .value (Decode.opens_mapOf _)
      ((mapBegin_echo hb nofun).bind (hmembers.bind (.pure _ w.leave))) (.pure _ w.leave)

theorem jsons_echo : (items : List Json) → (e e' : Encoder) → jsons items e = .ok () e' →
    Echo (Decode.times items.length Decode.value) (Value.normItems (Json.toValues items)) e e'
  | [], e, e', h => by
    obtain ⟨-, rfl⟩ := EStateM.Result.ok.inj h
    exact .pure [] e
  | j :: rest, e, e', h => by
    obtain ⟨⟨⟩, u, hj, hr⟩ := ok_of_bind h
    rw [List.length_cons, Decode.times_succ]
    exact (json_echo j e u hj).bind ((jsons_echo rest u e' hr).bind (.pure _ e'))

theorem jsonMembers_echo : (members : Members) → (e e' : Encoder) →
    (jsonMembers members >>= fun _ => terminator) e = .ok () e' →
    Echo (Decode.untilTerminator (Decode.pairOf Decode.value Decode.value))
      (Value.normEntries (Json.toEntries members)) e e'
  | [], e, e', h => .untilTerminator_nil productive_pair h
  | (key, j) :: rest, e, e', h => by
    rw [jsonMembers, bind_assoc] at h
    obtain ⟨⟨⟩, u, hk, h⟩ := ok_of_bind h
    rw [bind_assoc] at h
    obtain ⟨⟨⟩, w, hv, hr⟩ := ok_of_bind h
    have hkey : Echo Decode.value (.string key) e u :=
      .scalar .string (string_undone key) (Decode.opens_string _) hk
    exact entry_echo hkey (json_echo j u w hv) (jsonMembers_echo rest w e' hr)

end

/-- A JSON value that a session writes from its start is read back from there, to the end.  What
comes back has the same items, and the same keys with the same values, but for an integer above the
longs, which has become the double nearest to it, and a negative zero, which has become the positive
one. -/
theorem json_round_trip {j : Json} {maxDepth : Nat} {e : Encoder} (hj : j.Canonical)
    (h : json j (.start [] maxDepth) = .ok () e) :
    (∃ s, Decode.json (.start e.bytes maxDepth) = .ok j.norm s ∧ s.input = []) ∧
    ∀ n : UInt64, 2 ^ 63 ≤ n.toNat → (Json.naturalDouble n).IsNearest n.toNat := by
  refine ⟨?_, fun n => Json.isNearest_naturalDouble⟩
  have hread := read_of_echo (json_echo j _ e h) []
  rw [List.append_nil] at hread
  refine ⟨e.level [] e.bytes.length none, ?_, rfl⟩
  rw [Decode.json, Decode.bind_ok hread, j.toJson_toValue hj]
  rfl

/-- An object of three numbers of which two change. -/
theorem json_round_trip_object :
    let j : Json := .object [("a", .natural 9223372036854775809),
      ("b", .array [.float .negZero, .float .one])]
    ∃ e s, json j (.start [] 2) = .ok () e ∧
      Decode.json (.start e.bytes 2) = .ok (.object [("a", .float ⟨0x43e0000000000000⟩),
        ("b", .array [.float .zero, .float .one])]) s ∧ s.input = [] := by
  intro j
  have hd : Json.naturalDouble 9223372036854775809 = ⟨0x43e0000000000000⟩ := by decide +kernel
  obtain ⟨bytes, hbytes, -⟩ := double_undone (Json.naturalDouble 9223372036854775809)
  obtain ⟨zero, hzero, -⟩ := double_undone .negZero
  obtain ⟨one, hone, -⟩ := double_undone .one
  have hj : j.Canonical :=
    ⟨by decide, Nat.le_succ _, ⟨rfl, rfl, trivial⟩, trivial⟩
  obtain ⟨e, he⟩ : ∃ e, json j (.start [] 2) = .ok () e := by
    simp only [j, json, jsonMembers, jsons, hbytes, hzero, hone]
    exact ⟨_, rfl⟩
  obtain ⟨⟨s, hs, hinput⟩, -⟩ := json_round_trip hj he
  refine ⟨e, s, he, ?_, hinput⟩
  rw [hs]
  simp only [j, Json.norm, Json.normMembers, Json.normItems, hd]
  rfl

end Encode

end Hessian
