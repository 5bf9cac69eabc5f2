import Hessian.Proofs.Encoder.Success
import Hessian.Proofs.Grammar.Complete
import Hessian.Proofs.Grammar.Written
import Hessian.Proofs.Schema.Image
import Mathlib

/-!
# How deep data are

A datum is written as its image, with the levels of containers that the image has, whether or not
the writer has counted them (`Datum.write_written`).  A reader who does not know the shape counts
them all.  So it depends on the height of the image alone whether it runs into its limit.

Every container but one is written one level deeper.  A decimal is an instance of a class with one
field, and that field is written where the decimal stands.  The image of a datum may therefore be
one level higher than the session has allowed, if there is a decimal in it at the bottom.

All this is about data that have an image.  A definition has none: it is not a value, and a reader
passes over it and takes what stands behind it in its place.  Where a definition stands alone there
is nothing behind it (`Datum.starved_of_definition`).  Inside of other data there may be something,
which is then deeper for the reader than it was written (`Datum.tooDeep_nested_definition`).

The data that show this are written and read by evaluation.  That takes equations from all over the
library, which is why it is imported as a whole.

## Main statements

* `Datum.write_written` : a datum is written as its image.
* `Datum.tooDeep_iff_of_write` : when a reader of the same depth runs into its limit, for data that
  have no definitions inside.
* `Datum.tooDeep_decimal` : a decimal can be written where it cannot be read.
-/

namespace Hessian

/-- The session may not go so deep. -/
def Outcome.TooDeep {α : Type} (o : Outcome α) : Prop :=
  ∃ limit t, o = .error (.depthLimitExceeded limit) t

open Grammar

namespace Decode

/-- What has been written as a value from the start of a session is read where its levels are
allowed, and runs into the limit where they are not. -/
theorem value_of_written {n m : Nat} {v : Value} {e : Encoder}
    (h : Written n (.value v) (.start [] m) e) (limit : Nat) :
    (n ≤ limit → ∃ t, value (.start e.bytes limit) = .ok v t ∧ t.input = []) ∧
      (limit < n → Outcome.TooDeep (value (.start e.bytes limit))) := by
  obtain ⟨bytes, hb, hd⟩ := h
  obtain rfl : e.bytes = bytes := hb
  obtain ⟨hok, herror⟩ := readsIn_value hd (.start e.bytes limit) [] rfl (List.append_nil _).symm
  exact ⟨fun hn => ⟨_, hok hn, rfl⟩, fun hn => ⟨limit, herror hn⟩⟩

/-- Where there is nothing behind a definition, a value is missing. -/
theorem value_of_definition {s t : Decoder} {c : Definition} (h : objectRound s = .ok (.inl c) t)
    (hi : t.input = []) : value s = .error (.notEnoughBuffer t.offset) t := by
  have hbegin : objectBegin s = .error (.notEnoughBuffer t.offset) t := by
    rw [objectBegin_eq, bind_ok h]
    exact reader_objectBegin.hungry t hi
  rw [value_eq, valueWith_eq_of_opens (opens_objectRound _) h, bind_error hbegin]

end Decode

namespace Datum

variable {ι : Type} (Γ : Schema ι)

/-! ## Sessions -/

mutual

theorem regular_write : (d : Datum ι) → Encode.Regular (d.write Γ)
  | .boolean b => (Encode.boolean_undone b).regular
  | .int n => Encode.regular_int n
  | .long n => (Encode.long_undone n).regular
  | .unsigned n => by
    rw [write, Encode.unsigned]
    split
    · exact (Encode.long_undone _).regular
    · exact Encode.regular_refuse _
  | .double d => (Encode.double_undone d).regular
  | .single s => (Encode.double_undone s.toDouble).regular
  | .text s => Encode.regular_string s
  | .bytes b => (Encode.binary_undone b).regular
  | .absent => Encode.null_undone.regular
  | .present d => regular_write d
  | .list items => (Encode.regular_listBegin _ _).bind fun _ => (regular_writeItems items).nested
  | .map entries => (Encode.regular_mapBegin _).bind fun _ =>
      (regular_writeEntries entries).nested.bind fun _ => Encode.regular_form _ _
  | .date unit count => by
    rw [write, Encode.dateIn]
    split
    · exact (Encode.date_undone _).regular
    · exact Encode.regular_refuse _
  | .instant clock t => by
    rw [write, Encode.instant]
    split
    · exact (Encode.date_undone _).regular
    · exact Encode.regular_refuse _
  | .decimal _ => (Encode.regular_objectBegin _).bind fun _ => Encode.regular_string _
  | .value v => Encode.regular_value v
  | .definition c => (Encode.regular_definition c).bind fun _ => Encode.regular_pure ()
  | .json j => by
    rw [write, Encode.json_eq_value]
    exact Encode.regular_value _
  | .record name fields => (Encode.regular_objectBegin _).bind fun _ =>
      (regular_writeFields (Γ name).fields fields).nested

theorem regular_writeItems : (items : List (Datum ι)) → Encode.Regular (writeItems Γ items)
  | [] => Encode.regular_pure ()
  | d :: rest => (regular_write d).bind fun _ => regular_writeItems rest

theorem regular_writeEntries : (entries : List (Key × Datum ι)) →
    Encode.Regular (writeEntries Γ entries)
  | [] => Encode.regular_pure ()
  | (k, d) :: rest => by
    rw [writeEntries, Encode.key_eq_value]
    exact (Encode.regular_value _).bind fun _ => (regular_write d).bind fun _ =>
      regular_writeEntries rest

theorem regular_writeFields : (fields : List (Field ι)) → (data : List (Datum ι)) →
    Encode.Regular (writeFields Γ fields data)
  | [], [] => Encode.regular_pure ()
  | [], _ :: _ => Encode.regular_pure ()
  | _ :: _, [] => Encode.regular_pure ()
  | f :: fields, d :: rest => by
    rw [writeFields]
    by_cases hw : f.onWire
    · rw [if_pos hw]
      exact (regular_write d).bind fun _ => regular_writeFields fields rest
    · rw [if_neg hw]
      exact regular_writeFields fields rest

end

/-! ## What is written -/

mutual

/-- A datum is written as what comes back of its image, with as many levels as that is high. -/
theorem write_written (d : Datum ι) (v : Value) (hv : d.image? Γ = some v) (e e' : Encoder)
    (h : d.write Γ e = .ok () e') (hs : e'.Small) : Written v.height (.value v.norm) e e' := by
  cases d with
  | present d => exact write_written d v hv e e' h hs
  | list items =>
    obtain ⟨vs, hvs, rfl⟩ := image?_list hv
    rw [write, ← length_imageItems? hvs, ← Value.length_normItems] at h
    exact Encode.list_written (regular_writeItems Γ items) nofun
      (writeItems_written items vs hvs) h hs
  | map entries =>
    obtain ⟨pairs, hp, rfl⟩ := image?_map hv
    exact Encode.map_written (regular_writeEntries Γ entries) nofun
      (writeEntries_written entries pairs hp) h hs
  | decimal d =>
    obtain rfl := Option.some.inj hv
    obtain ⟨⟨⟩, u, hb, ht⟩ := Encode.ok_of_bind h
    have htext : Written 0 (.value (.string d.render)) u e' :=
      Encode.value_written (.string d.render) u e' ht hs
    exact Encode.objectBegin_written hb (((Encode.regular_string _).advance_ok ht).small hs) rfl
      (htext.item (.noItems e'))
  | definition _ => nomatch hv
  | record name fields =>
    obtain ⟨vs, hvs, rfl⟩ := image?_record hv
    exact Encode.object_written (regular_writeFields Γ _ fields)
      ((Value.length_normItems vs).trans (length_image_record hvs))
      (writeFields_written (Γ name).fields fields vs hvs) h hs
  -- everything else is written as its image is
  | _ => exact Encode.value_written v e e' (write_eq Γ _ v hv rfl ▸ h) hs

theorem writeItems_written : (items : List (Datum ι)) → (vs : List Value) →
    imageItems? Γ items = some vs → (e e' : Encoder) → writeItems Γ items e = .ok () e' → e'.Small →
    Written (Value.heightOfItems vs) (.items (Value.normItems vs)) e e'
  | [], _, hvs, e, e', h, _ => by
    obtain rfl := Option.some.inj hvs
    obtain ⟨-, rfl⟩ := EStateM.Result.ok.inj h
    exact .noItems e
  | d :: rest, vs, hvs, e, e', h, hs => by
    obtain ⟨v, vs', hv, hvs', rfl⟩ := imageItems?_cons hvs
    obtain ⟨⟨⟩, u, hd, hr⟩ := Encode.ok_of_bind h
    have hsu := ((regular_writeItems Γ rest).advance_ok hr).small hs
    exact (write_written d v hv e u hd hsu).item (writeItems_written rest vs' hvs' u e' hr hs)

theorem writeEntries_written : (entries : List (Key × Datum ι)) → (pairs : Entries) →
    imageEntries? Γ entries = some pairs → (e e' : Encoder) →
    writeEntries Γ entries e = .ok () e' → e'.Small →
    Written (Value.heightOfEntries pairs) (.pairs (Value.normEntries pairs)) e e'
  | [], _, hp, e, e', h, _ => by
    obtain rfl := Option.some.inj hp
    obtain ⟨-, rfl⟩ := EStateM.Result.ok.inj h
    exact .noPairs e
  | (k, d) :: rest, pairs, hp, e, e', h, hs => by
    obtain ⟨v, pairs', hv, hp', rfl⟩ := imageEntries?_cons hp
    rw [writeEntries, Encode.key_eq_value] at h
    obtain ⟨⟨⟩, u, hk, h⟩ := Encode.ok_of_bind h
    obtain ⟨⟨⟩, w, hd, hr⟩ := Encode.ok_of_bind h
    have hsw := ((regular_writeEntries Γ rest).advance_ok hr).small hs
    have hsu := ((regular_write Γ d).advance_ok hd).small hsw
    rw [Value.heightOfEntries, ← Nat.max_assoc]
    exact .pair (Encode.value_written k.image e u hk hsu) (write_written d v hv u w hd hsw)
      (writeEntries_written rest pairs' hp' w e' hr hs)

theorem writeFields_written : (fields : List (Field ι)) → (data : List (Datum ι)) →
    (vs : List Value) → imageFields? Γ fields data = some vs → (e e' : Encoder) →
    writeFields Γ fields data e = .ok () e' → e'.Small →
    Written (Value.heightOfItems vs) (.items (Value.normItems vs)) e e'
  | [], [], _, hvs, e, e', h, _ => by
    obtain rfl := Option.some.inj hvs
    obtain ⟨-, rfl⟩ := EStateM.Result.ok.inj h
    exact .noItems e
  | [], _ :: _, _, hvs, _, _, _, _ => nomatch hvs
  | _ :: _, [], _, hvs, _, _, _, _ => nomatch hvs
  | f :: fields, d :: rest, vs, hvs, e, e', h, hs => by
    rw [writeFields] at h
    rcases imageFields?_cons hvs with ⟨hw, v, vs', hv, hvs', rfl⟩ | ⟨hw, hvs'⟩
    · rw [if_pos hw] at h
      obtain ⟨⟨⟩, u, hd, hr⟩ := Encode.ok_of_bind h
      have hsu := ((regular_writeFields Γ fields rest).advance_ok hr).small hs
      exact (write_written d v hv e u hd hsu).item
        (writeFields_written fields rest vs' hvs' u e' hr hs)
    · rw [if_neg (Bool.eq_false_iff.mp hw)] at h
      exact writeFields_written fields rest vs hvs' e e' h hs

end

/-! ## How deep it may be -/

/-- The parts of a container are written with one level less. -/
theorem height_le_of_nested {header body : Encode Unit} {n : Nat} {e u e' : Encoder}
    (hr : Encode.Regular header) (hb : header e = .ok () u) (hn : Encode.nested body u = .ok () e')
    (hbody : ∀ u w, body u = .ok () w → n ≤ u.maxDepth - u.depth + 1) :
    n + 1 ≤ e.maxDepth - e.depth + 1 := by
  obtain ⟨hlt, w, hw, -⟩ := Encode.ok_of_nested hn
  have hle := hbody u.enter w hw
  rw [show u.enter.maxDepth = u.maxDepth from rfl, show u.enter.depth = u.depth + 1 from rfl] at hle
  rw [← (hr.advance_ok hb).maxDepth, ← (hr.advance_ok hb).depth]
  omega

/-- A value that is written is at most as high as the session allows. -/
theorem height_le_of_value {v : Value} {e e' : Encoder} (h : Encode.value v e = .ok () e') :
    v.height ≤ e.maxDepth - e.depth :=
  ((Encode.value_ok_iff v e).mp ⟨e', h⟩).2.1

mutual

/-- The image of what has been written is at most one level higher than the session allowed. -/
theorem height_le_of_write (d : Datum ι) (v : Value) (hv : d.image? Γ = some v) (e e' : Encoder)
    (h : d.write Γ e = .ok () e') : v.height ≤ e.maxDepth - e.depth + 1 := by
  cases d with
  | present d => exact height_le_of_write d v hv e e' h
  | list items =>
    obtain ⟨vs, hvs, rfl⟩ := image?_list hv
    obtain ⟨⟨⟩, u, hb, hn⟩ := Encode.ok_of_bind h
    exact height_le_of_nested (Encode.regular_listBegin _ _) hb hn
      (heightOfItems_le_of_write items vs hvs)
  | map entries =>
    obtain ⟨pairs, hp, rfl⟩ := image?_map hv
    obtain ⟨⟨⟩, u, hb, h⟩ := Encode.ok_of_bind h
    obtain ⟨⟨⟩, w, hn, -⟩ := Encode.ok_of_bind h
    exact height_le_of_nested (Encode.regular_mapBegin _) hb hn
      (heightOfEntries_le_of_write entries pairs hp)
  | decimal d =>
    obtain rfl := Option.some.inj hv
    exact Nat.le_add_left 1 _
  | definition _ => nomatch hv
  | record name fields =>
    obtain ⟨vs, hvs, rfl⟩ := image?_record hv
    obtain ⟨⟨⟩, u, hb, hn⟩ := Encode.ok_of_bind h
    exact height_le_of_nested (Encode.regular_objectBegin _) hb hn
      (heightOfFields_le_of_write (Γ name).fields fields vs hvs)
  | _ => exact Nat.le_succ_of_le (height_le_of_value (write_eq Γ _ v hv rfl ▸ h))

theorem heightOfItems_le_of_write (items : List (Datum ι)) (vs : List Value)
    (hvs : imageItems? Γ items = some vs) (e e' : Encoder) (h : writeItems Γ items e = .ok () e') :
    Value.heightOfItems vs ≤ e.maxDepth - e.depth + 1 := by
  cases items with
  | nil =>
    obtain rfl := Option.some.inj hvs
    exact Nat.zero_le _
  | cons d rest =>
    obtain ⟨v, vs', hv, hvs', rfl⟩ := imageItems?_cons hvs
    obtain ⟨⟨⟩, u, hd, hr⟩ := Encode.ok_of_bind h
    have ha := (regular_write Γ d).advance_ok hd
    have hrest := heightOfItems_le_of_write rest vs' hvs' u e' hr
    rw [ha.maxDepth, ha.depth] at hrest
    exact Nat.max_le.mpr ⟨height_le_of_write d v hv e u hd, hrest⟩

theorem heightOfEntries_le_of_write (entries : List (Key × Datum ι)) (pairs : Entries)
    (hp : imageEntries? Γ entries = some pairs) (e e' : Encoder)
    (h : writeEntries Γ entries e = .ok () e') :
    Value.heightOfEntries pairs ≤ e.maxDepth - e.depth + 1 := by
  cases entries with
  | nil =>
    obtain rfl := Option.some.inj hp
    exact Nat.zero_le _
  | cons entry rest =>
    obtain ⟨k, d⟩ := entry
    obtain ⟨v, pairs', hv, hp', rfl⟩ := imageEntries?_cons hp
    rw [writeEntries, Encode.key_eq_value] at h
    obtain ⟨⟨⟩, u, hk, h⟩ := Encode.ok_of_bind h
    obtain ⟨⟨⟩, w, hd, hr⟩ := Encode.ok_of_bind h
    have ha := (Encode.regular_value k.image).advance_ok hk
    have ha' := ha.trans ((regular_write Γ d).advance_ok hd)
    have hitem := height_le_of_write d v hv u w hd
    have hrest := heightOfEntries_le_of_write rest pairs' hp' w e' hr
    rw [ha.maxDepth, ha.depth] at hitem
    rw [ha'.maxDepth, ha'.depth] at hrest
    exact Nat.max_le.mpr ⟨Nat.le_succ_of_le (height_le_of_value hk), Nat.max_le.mpr ⟨hitem, hrest⟩⟩

theorem heightOfFields_le_of_write (fields : List (Field ι)) (data : List (Datum ι))
    (vs : List Value) (hvs : imageFields? Γ fields data = some vs) (e e' : Encoder)
    (h : writeFields Γ fields data e = .ok () e') :
    Value.heightOfItems vs ≤ e.maxDepth - e.depth + 1 := by
  cases fields with
  | nil =>
    cases data with
    | nil =>
      obtain rfl := Option.some.inj hvs
      exact Nat.zero_le _
    | cons d rest => nomatch hvs
  | cons f fields =>
    cases data with
    | nil => nomatch hvs
    | cons d rest =>
      rw [writeFields] at h
      rcases imageFields?_cons hvs with ⟨hw, v, vs', hv, hvs', rfl⟩ | ⟨hw, hvs'⟩
      · rw [if_pos hw] at h
        obtain ⟨⟨⟩, u, hd, hr⟩ := Encode.ok_of_bind h
        have ha := (regular_write Γ d).advance_ok hd
        have hrest := heightOfFields_le_of_write fields rest vs' hvs' u e' hr
        rw [ha.maxDepth, ha.depth] at hrest
        exact Nat.max_le.mpr ⟨height_le_of_write d v hv e u hd, hrest⟩
      · rw [if_neg (Bool.eq_false_iff.mp hw)] at h
        exact heightOfFields_le_of_write fields rest vs hvs' e e' h

end

/-! ## What has an image -/

mutual

/-- Whether every record in a datum has something for each of its fields, and no definition stands
where a value should. -/
def isWhole : Datum ι → Bool
  | .present d => isWhole d
  | .list items => areWhole items
  | .map entries => entriesWhole entries
  | .definition _ => false
  | .record name fields => fields.length == (Γ name).fields.length && areWhole fields
  | _ => true

/-- Whether all of several data are whole. -/
def areWhole : List (Datum ι) → Bool
  | [] => true
  | d :: rest => isWhole d && areWhole rest

/-- Whether all items of a collection are whole. -/
def entriesWhole : List (Key × Datum ι) → Bool
  | [] => true
  | (_, d) :: rest => isWhole d && entriesWhole rest

end

mutual

/-- What is whole and has been written has an image. -/
theorem exists_image_of_write (d : Datum ι) (hd : d.isWhole Γ) (e e' : Encoder)
    (h : d.write Γ e = .ok () e') : ∃ v, d.image? Γ = some v := by
  cases d with
  | unsigned n =>
    rw [write, Encode.unsigned] at h
    split at h
    · next hn => exact ⟨_, if_pos hn⟩
    · cases h
  | present d => exact exists_image_of_write d hd e e' h
  | list items =>
    obtain ⟨⟨⟩, u, -, hn⟩ := Encode.ok_of_bind h
    obtain ⟨-, w, hw, -⟩ := Encode.ok_of_nested hn
    obtain ⟨vs, hvs⟩ := exists_imageItems_of_write items hd u.enter w hw
    exact ⟨.list none vs, by rw [image?, hvs]; rfl⟩
  | map entries =>
    obtain ⟨⟨⟩, u, -, h⟩ := Encode.ok_of_bind h
    obtain ⟨⟨⟩, x, hn, -⟩ := Encode.ok_of_bind h
    obtain ⟨-, w, hw, -⟩ := Encode.ok_of_nested hn
    obtain ⟨pairs, hp⟩ := exists_imageEntries_of_write entries hd u.enter w hw
    exact ⟨.map none pairs, by rw [image?, hp]; rfl⟩
  | date unit count =>
    rw [write, Encode.dateIn] at h
    cases hm : unit.toMillis? count with
    | none =>
      rw [hm] at h
      cases h
    | some millis => exact ⟨.date millis, by rw [image?, hm]; rfl⟩
  | instant clock t =>
    rw [write, Encode.instant] at h
    cases hm : t.toMillis? clock with
    | none =>
      rw [hm] at h
      cases h
    | some millis => exact ⟨.date millis, by rw [image?, hm]; rfl⟩
  | definition c => cases hd
  | record name fields =>
    obtain ⟨hl, hf⟩ := (Bool.and_eq_true _ _).mp hd
    obtain ⟨⟨⟩, u, -, hn⟩ := Encode.ok_of_bind h
    obtain ⟨-, w, hw, -⟩ := Encode.ok_of_nested hn
    obtain ⟨vs, hvs⟩ := exists_imageFields_of_write (Γ name).fields fields (eq_of_beq hl) hf
      u.enter w hw
    exact ⟨.object (Γ name).definition vs, by rw [image?, hvs]; rfl⟩
  | _ => exact ⟨_, rfl⟩

theorem exists_imageItems_of_write (items : List (Datum ι)) (hd : areWhole Γ items)
    (e e' : Encoder) (h : writeItems Γ items e = .ok () e') :
    ∃ vs, imageItems? Γ items = some vs := by
  cases items with
  | nil => exact ⟨[], rfl⟩
  | cons d rest =>
    obtain ⟨hd, hr⟩ := (Bool.and_eq_true _ _).mp hd
    obtain ⟨⟨⟩, u, hw, hw'⟩ := Encode.ok_of_bind h
    obtain ⟨v, hv⟩ := exists_image_of_write d hd e u hw
    obtain ⟨vs, hvs⟩ := exists_imageItems_of_write rest hr u e' hw'
    exact ⟨v :: vs, by rw [imageItems?, hv, hvs]; rfl⟩

theorem exists_imageEntries_of_write (entries : List (Key × Datum ι))
    (hd : entriesWhole Γ entries) (e e' : Encoder) (h : writeEntries Γ entries e = .ok () e') :
    ∃ pairs, imageEntries? Γ entries = some pairs := by
  cases entries with
  | nil => exact ⟨[], rfl⟩
  | cons entry rest =>
    obtain ⟨k, d⟩ := entry
    obtain ⟨hd, hr⟩ := (Bool.and_eq_true _ _).mp hd
    obtain ⟨⟨⟩, u, -, h⟩ := Encode.ok_of_bind h
    obtain ⟨⟨⟩, w, hw, hw'⟩ := Encode.ok_of_bind h
    obtain ⟨v, hv⟩ := exists_image_of_write d hd u w hw
    obtain ⟨pairs, hp⟩ := exists_imageEntries_of_write rest hr w e' hw'
    exact ⟨(k.image, v) :: pairs, by rw [imageEntries?, hv, hp]; rfl⟩

theorem exists_imageFields_of_write (fields : List (Field ι)) (data : List (Datum ι))
    (hl : data.length = fields.length) (hd : areWhole Γ data) (e e' : Encoder)
    (h : writeFields Γ fields data e = .ok () e') : ∃ vs, imageFields? Γ fields data = some vs := by
  cases fields with
  | nil =>
    obtain rfl := List.length_eq_zero_iff.mp hl
    exact ⟨[], rfl⟩
  | cons f fields =>
    cases data with
    | nil => cases hl
    | cons d rest =>
      obtain ⟨hd, hr⟩ := (Bool.and_eq_true _ _).mp hd
      rw [writeFields] at h
      rw [imageFields?]
      by_cases hw : f.onWire
      · rw [if_pos hw] at h ⊢
        obtain ⟨⟨⟩, u, hw, hw'⟩ := Encode.ok_of_bind h
        obtain ⟨v, hv⟩ := exists_image_of_write d hd e u hw
        obtain ⟨vs, hvs⟩ := exists_imageFields_of_write fields rest (Nat.succ.inj hl) hr u e' hw'
        exact ⟨v :: vs, by rw [hv, hvs]; rfl⟩
      · rw [if_neg hw] at h ⊢
        exact exists_imageFields_of_write fields rest (Nat.succ.inj hl) hr e e' h

end

/-! ## Readers -/

/-- A definition alone leaves a reader waiting for the instance. -/
theorem starved_of_definition {c : Definition} {index m : Nat} {e : Encoder}
    (h : Encode.definition c (.start [] m) = .ok index e) (hs : e.Small) :
    ∃ offset t, Decode.value (.start e.bytes m) = .error (.notEnoughBuffer offset) t := by
  obtain ⟨-, rfl | ⟨bytes, hb, hr⟩⟩ := Encode.definition_echo h hs
  · exact ⟨_, _, Decode.reader_value.hungry _ rfl⟩
  · obtain rfl : e.bytes = bytes := hb
    have hround := hr [] 0 none
    rw [List.append_nil] at hround
    exact ⟨_, _, Decode.value_of_definition hround rfl⟩

/-- Whether a reader that may go as deep as the writer runs into its limit, where the datum is a
definition or has none inside.  It does exactly if the image is higher than that, which it is by one
level at most, and only if there is a decimal in the datum.  Otherwise it reads what comes back of
the image, to the end. -/
theorem tooDeep_iff_of_write (d : Datum ι) (m : Nat) (e : Encoder)
    (hd : d.isWhole Γ = true ∨ ∃ c, d = .definition c)
    (h : d.write Γ (.start [] m) = .ok () e) (hs : e.Small) :
    (Outcome.TooDeep (Decode.value (.start e.bytes m)) ↔
      ∃ v, d.image? Γ = some v ∧ v.height = m + 1) ∧
    (Outcome.TooDeep (Decode.value (.start e.bytes m)) → d.hasDecimal = true) ∧
    (∀ v, d.image? Γ = some v → v.height ≤ m →
      ∃ t, Decode.value (.start e.bytes m) = .ok v.norm t ∧ t.input = []) := by
  rcases hd with hd | ⟨c, rfl⟩
  · obtain ⟨v, hv⟩ := exists_image_of_write Γ d hd _ e h
    obtain ⟨hread, hlimit⟩ := Decode.value_of_written (write_written Γ d v hv _ e h hs) m
    have hle : v.height ≤ m + 1 := height_le_of_write Γ d v hv _ e h
    have htall (hdeep : Outcome.TooDeep (Decode.value (.start e.bytes m))) : m < v.height := by
      obtain ⟨limit, t, ht⟩ := hdeep
      refine Nat.not_le.mp fun hm => ?_
      obtain ⟨u, hu, -⟩ := hread hm
      rw [ht] at hu
      cases hu
    refine ⟨⟨fun hdeep => ⟨v, hv, Nat.le_antisymm hle (htall hdeep)⟩, ?_⟩, ?_, ?_⟩
    · rintro ⟨w, hw, hheight⟩
      obtain rfl := Option.some.inj (hv.symm.trans hw)
      exact hlimit (hheight ▸ Nat.lt_succ_self m)
    · intro hdeep
      refine Bool.not_eq_false _ |>.mp fun hdecimal => ?_
      have hsmall : v.height ≤ m := height_le_of_value (write_eq Γ d v hv hdecimal ▸ h)
      exact Nat.not_lt.mpr hsmall (htall hdeep)
    · intro w hw
      obtain rfl := Option.some.inj (hv.symm.trans hw)
      exact hread
  · obtain ⟨index, u, hc, hu⟩ := Encode.ok_of_bind h
    obtain ⟨-, rfl⟩ := EStateM.Result.ok.inj hu
    obtain ⟨offset, t, ht⟩ := starved_of_definition hc hs
    have hnot : ¬ Outcome.TooDeep (Decode.value (.start u.bytes m)) := by
      rintro ⟨limit, w, hw⟩
      rw [ht] at hw
      cases hw
    exact ⟨iff_of_false hnot nofun, fun hdeep => absurd hdeep hnot, nofun⟩

/-- A list of one decimal in a session that allows one level. -/
theorem tooDeep_iff_of_write_list :
    let d : Datum Catalog := .list [.decimal ⟨15, 1⟩]
    ∃ e, d.write Catalog.schema (.start [] 1) = .ok () e ∧
      Outcome.TooDeep (Decode.value (.start e.bytes 1)) := by
  let e : Encoder :=
    { output := #[0x79, 0x43, 0x14, 0x6a, 0x61, 0x76, 0x61, 0x2e, 0x6d, 0x61, 0x74, 0x68, 0x2e,
        0x42, 0x69, 0x67, 0x44, 0x65, 0x63, 0x69, 0x6d, 0x61, 0x6c, 0x91, 0x05, 0x76, 0x61, 0x6c,
        0x75, 0x65, 0x60, 0x03, 0x31, 0x2e, 0x35]
      definitions := [Decimal.definition]
      containers := 2
      maxDepth := 1 }
  have h : (Datum.list [.decimal ⟨15, 1⟩]).write Catalog.schema (.start [] 1) = .ok () e := by
    rw [write]
    cbv
  refine ⟨e, h, ((tooDeep_iff_of_write Catalog.schema _ 1 e (.inl rfl) h ?_).1).mpr ⟨_, rfl, rfl⟩⟩
  exact ⟨by decide, by decide, by decide, by decide⟩

/-- A definition inside of other data can take a reader to its limit without any decimal.  Here a
map has instances as its keys, and a list of one definition under the first one.  The reader passes
over the definition and takes the second key for the item of that list, where it is one level
deeper. -/
theorem tooDeep_nested_definition :
    let c : Definition := ⟨"A", ["x"]⟩
    let d : Datum Catalog := .map [(.value (.object c [.int 1]), .list [.definition ⟨"B", []⟩]),
      (.value (.object c [.int 2]), .list [])]
    d.hasDecimal = false ∧ d.isWhole Catalog.schema = false ∧
      ∃ e t, d.write Catalog.schema (.start [] 2) = .ok () e ∧
        Decode.value (.start e.bytes 2) = .error (.depthLimitExceeded 2) t := by
  intro c d
  let e : Encoder :=
    { output := #[0x48, 0x43, 0x01, 0x41, 0x91, 0x01, 0x78, 0x60, 0x91, 0x79, 0x43, 0x01, 0x42,
        0x90, 0x60, 0x92, 0x78, 0x5a]
      definitions := [c, ⟨"B", []⟩]
      containers := 5
      maxDepth := 2 }
  let t : Decoder :=
    { input := [0x92, 0x78, 0x5a]
      offset := 15
      definitions := [c, ⟨"B", []⟩]
      containers := 4
      maxDepth := 2 }
  have hwrite : d.write Catalog.schema (.start [] 2) = .ok () e := by
    unfold d
    cbv
  have hread : Decode.value (.start e.bytes 2) = .error (.depthLimitExceeded 2) t := by
    cbv
  exact ⟨rfl, rfl, e, t, hwrite, hread⟩

/-- A decimal is written in a session that allows no levels, and a reader that allows none runs into
its limit. -/
theorem tooDeep_decimal :
    let d : Datum Catalog := .decimal ⟨15, 1⟩
    ∃ e t, d.write Catalog.schema (.start [] 0) = .ok () e ∧
      Decode.value (.start e.bytes 0) = .error (.depthLimitExceeded 0) t := by
  let e : Encoder :=
    { output := #[0x43, 0x14, 0x6a, 0x61, 0x76, 0x61, 0x2e, 0x6d, 0x61, 0x74, 0x68, 0x2e, 0x42,
        0x69, 0x67, 0x44, 0x65, 0x63, 0x69, 0x6d, 0x61, 0x6c, 0x91, 0x05, 0x76, 0x61, 0x6c, 0x75,
        0x65, 0x60, 0x03, 0x31, 0x2e, 0x35]
      definitions := [Decimal.definition]
      containers := 1
      maxDepth := 0 }
  let t : Decoder :=
    { input := [0x03, 0x31, 0x2e, 0x35]
      offset := 30
      definitions := [Decimal.definition]
      containers := 1
      maxDepth := 0 }
  have hwrite : (Datum.decimal ⟨15, 1⟩).write Catalog.schema (.start [] 0) = .ok () e := by
    rw [write]
    cbv
  have hread : Decode.value (.start e.bytes 0) = .error (.depthLimitExceeded 0) t := by
    cbv
  exact ⟨e, t, hwrite, hread⟩

end Datum

end Hessian
