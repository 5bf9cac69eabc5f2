import Hessian.Proofs.RoundTrip.Value
import Hessian.Proofs.Schema.Agreement
import Hessian.Proofs.Schema.Depth
import Hessian.Proofs.Schema.Fits
import Hessian.Proofs.Schema.Layer

/-!
# Data are read back

Where a datum of a shape has been written, reading that shape gives what comes back of it: first
`Datum.flat`, then `Datum.norm`.  As with values, `Echo` is carried along, so the tables of both
sessions agree after each part; the induction is on how the datum fits the shape, with one lemma for
each way in which parts follow one another: the items of a list, the entries of a collection, the
fields of a record.

An option looks at the next octet to see whether there is something.  It is the octet of null only
if null has been written (`Shape.isNull_of_read`).  But null may be what the option has, and then it
comes back without it (`Datum.read_of_present_null`).

## Main statements

* `Datum.write_echo` : a datum that has been written is read back, from any state of a session.
* `Datum.read_of_write` : what a session writes of a datum, another one reads.
-/

namespace Hessian

open Decode

variable {ι : Type}

/-! ## What opens with null -/

namespace Decode

variable {α γ : Type}

/-- Looking at the next octet, a step opens as what follows does. -/
theorem Opens.afterPeek {P : Lead → Prop} {f : UInt8 → Decode α} (h : ∀ code, Opens P (f code)) :
    Opens P (peek >>= f) := by
  intro s a t hs
  obtain ⟨code, u, hp, hs⟩ := ok_of_bind hs
  rw [eq_of_peek hp] at hs
  exact h code s a t hs

/-- What opens as the values of a kind do does not open as null does, unless that is the kind. -/
theorem Opens.ne_null {head : Decode γ} {step : Decode α} {answer : α → Decode Value}
    (ho : Opens (ReadBy value step answer) head)
    (ha : ∀ a s t, answer a s ≠ .ok .null t) : Opens (· ≠ .null) head := by
  intro s c t hs
  obtain ⟨code, rest, hi, hl⟩ := ho s c t hs
  refine ⟨code, rest, hi, fun hn => ?_⟩
  have hnull := reads_null (b := code) (Lead.covers_of_ofByte hn nofun) s rest hi
  have heq : (null >>= fun _ => pure .null) s = (step >>= answer) s := by
    rw [hn] at hl
    exact congrFun hl s
  rw [bind_ok hnull] at heq
  obtain ⟨a, u, -, hu⟩ := ok_of_bind heq.symm
  exact ha a u _ hu

/-- A scalar that is not null does not open as null does. -/
theorem Opens.scalar_ne_null {step : Decode α} {answer : α → Value}
    (ho : Opens (ReadBy value step fun a => pure (answer a)) step)
    (ha : ∀ a, answer a ≠ .null) : Opens (· ≠ .null) step :=
  ho.ne_null fun a _ _ h => ha a (EStateM.Result.ok.inj h).1

theorem boolean_ne_null : Opens (· ≠ .null) boolean :=
  (opens_boolean value).scalar_ne_null (by simp)

theorem int_ne_null : Opens (· ≠ .null) int := (opens_int value).scalar_ne_null (by simp)

theorem long_ne_null : Opens (· ≠ .null) long := (opens_long value).scalar_ne_null (by simp)

theorem double_ne_null : Opens (· ≠ .null) double :=
  (opens_double value).scalar_ne_null (by simp)

theorem date_ne_null : Opens (· ≠ .null) date := (opens_date value).scalar_ne_null (by simp)

theorem binary_ne_null : Opens (· ≠ .null) binary := (opens_binary value).scalar_ne_null (by simp)

theorem string_ne_null : Opens (· ≠ .null) string := (opens_string value).scalar_ne_null (by simp)

theorem listBegin_ne_null : Opens (· ≠ .null) listBegin := by
  refine (opens_listBegin value).ne_null fun r s t h => ?_
  cases h

theorem mapBegin_ne_null : Opens (· ≠ .null) mapBegin := by
  refine (opens_mapBegin value).ne_null fun r s t h => ?_
  cases h

theorem objectBegin_ne_null : Opens (· ≠ .null) objectBegin := by
  refine (opens_objectBegin value).ne_null fun c s t h => ?_
  obtain ⟨fields, u, -, hu⟩ := ok_of_bind h
  cases hu

theorem decimal_ne_null : Opens (· ≠ .null) decimal := by
  refine Opens.bind (Opens.afterPeek fun code => ?_) _
  split
  · exact string_ne_null
  · exact objectBegin_ne_null.bind _

theorem definition_ne_null : Opens (· ≠ .null) definition := by
  apply opens_octet
  intro code s a t h hl
  rw [hl] at h
  cases h

end Decode

/-- Only data that are null can be read where null is next. -/
theorem Shape.isNull_of_read (Γ : Schema ι) {inner : Shape ι → Decode (Datum ι)} {shape : Shape ι}
    {s t : Decoder} {d : Datum ι} (h : shape.readWith Γ inner s = .ok d t)
    (hs : s.input.head? = some Lead.null.toByte) : d.isNull = true := by
  obtain ⟨rest, hi⟩ := List.head?_eq_some_iff.mp hs
  have hvalue {v : Value} {u : Decoder} (hv : Decode.value s = .ok v u) : v = .null := by
    have hnull := valueWith_of_opens (opens_null Decode.value) (reads_null rfl s rest hi)
    rw [value_eq, hnull] at hv
    exact (EStateM.Result.ok.inj hv).1.symm
  have hnot (ho : Opens (· ≠ .null) (shape.readWith Γ inner)) : d.isNull = true := by
    obtain ⟨code, rest', hi', hl⟩ := ho s d t h
    obtain ⟨rfl, -⟩ := List.cons.inj (hi.symm.trans hi')
    exact absurd rfl hl
  cases shape with
  | boolean => exact hnot (boolean_ne_null.map _)
  | int range => exact hnot ((int_ne_null.bind _).map _)
  | long range => exact hnot ((long_ne_null.bind _).map _)
  | double => exact hnot (double_ne_null.map _)
  | single => exact hnot (double_ne_null.map _)
  | text => exact hnot (string_ne_null.map _)
  | bytes => exact hnot (binary_ne_null.map _)
  | option shape =>
    rw [readWith, bind_ok (nextIs_ok _ s), hs, if_pos (beq_self_eq_true _)] at h
    obtain ⟨u, w, -, h⟩ := ok_of_bind h
    obtain ⟨rfl, -⟩ := EStateM.Result.ok.inj h
    rfl
  | list item => exact hnot ((listBegin_ne_null.bind _).bind _)
  | map mapping item => exact hnot ((mapBegin_ne_null.bind _).bind _)
  | date unit => exact hnot (date_ne_null.map _)
  | instant clock => exact hnot ((date_ne_null.bind _).map _)
  | decimal => exact hnot (decimal_ne_null.bind _)
  | value =>
    rw [readWith, map_eq_pure_bind] at h
    obtain ⟨v, u, hv, h⟩ := ok_of_bind h
    obtain ⟨rfl, -⟩ := EStateM.Result.ok.inj h
    rw [hvalue hv]
    rfl
  | definition => exact hnot (definition_ne_null.map _)
  | json =>
    rw [readWith, map_eq_pure_bind] at h
    obtain ⟨j, u, hj, h⟩ := ok_of_bind h
    obtain ⟨rfl, -⟩ := EStateM.Result.ok.inj h
    obtain ⟨v, w, hv, hj⟩ := ok_of_bind hj
    rw [hvalue hv] at hj
    obtain ⟨rfl, -⟩ := EStateM.Result.ok.inj hj
    rfl
  | record name => exact hnot ((objectBegin_ne_null.bind _).map _)

/-- Where something can be read that is not null, an option has it. -/
theorem Shape.readWith_option (Γ : Schema ι) {inner : Shape ι → Decode (Datum ι)}
    {shape : Shape ι} {s t : Decoder} {d : Datum ι} (h : shape.readWith Γ inner s = .ok d t)
    (hd : d.isNull = false) : (Shape.option shape).readWith Γ inner s = .ok (.present d) t := by
  have hne : ¬ (s.input.head? == some Lead.null.toByte) = true := by
    intro hs
    rw [shape.isNull_of_read Γ h (eq_of_beq hs)] at hd
    cases hd
  rw [readWith, bind_ok (nextIs_ok _ s), if_neg hne, map_eq_pure_bind, bind_ok h]
  rfl

/-- Where null can be read, an option has nothing. -/
theorem Shape.readWith_option_null (Γ : Schema ι) (inner : Shape ι → Decode (Datum ι))
    (shape : Shape ι) {s t : Decoder} (h : Decode.null s = .ok () t) :
    (Shape.option shape).readWith Γ inner s = .ok .absent t := by
  have hhead : (s.input.head? == some Lead.null.toByte) = true := by
    obtain ⟨v, hv, rfl⟩ := mirrors_scalar (opens_null Decode.value) s () t h
    rw [head_of_value_null hv, beq_self_eq_true]
  rw [readWith, bind_ok (nextIs_ok _ s), if_pos hhead, bind_ok h]
  rfl

/-! ## Scalars and keys -/

namespace DateUnit

/-- The number of units comes back of their milliseconds. -/
theorem ofMillis_of_toMillis? {unit : DateUnit} {count millis : Int64}
    (h : unit.toMillis? count = some millis) : unit.ofMillis millis = count := by
  simp only [toMillis?] at h
  split at h
  · next hf =>
    obtain rfl := Option.some.inj h
    have hfactor : unit.factor ≠ 0 := by cases unit <;> decide
    have hfits : -2 ^ 63 ≤ count.toInt * unit.factor ∧ count.toInt * unit.factor < 2 ^ 63 := by
      simpa [fitsLong] using hf
    have hmillis : (Int64.ofInt (count.toInt * unit.factor)).toInt = count.toInt * unit.factor :=
      Int64.toInt_ofInt_of_le hfits.1 hfits.2
    rw [ofMillis, hmillis, Int.mul_tdiv_cancel _ hfactor, Int64.ofInt_toInt]
  · cases h

end DateUnit

namespace Encode

variable {e e' : Encoder}

theorem intIn_echo {range : IntRange} {n : Int32} (hl : range.least ≤ n.toInt)
    (hg : n.toInt ≤ range.greatest) (h : int n e = .ok () e') :
    Echo (Decode.intIn range) n e e' := by
  refine (Echo.of_undone (int_undone n) h).bind ?_
  rw [if_pos ⟨hl, hg⟩]
  exact .pure n e'

theorem longIn_echo {range : LongRange} {n : Int64} (hl : range.least ≤ n.toInt)
    (hg : n.toInt ≤ range.greatest) (h : long n e = .ok () e') :
    Echo (Decode.longIn range) n e e' := by
  refine (Echo.of_undone (long_undone n) h).bind ?_
  rw [if_pos ⟨hl, hg⟩]
  exact .pure n e'

/-- The milliseconds of a number of units are read back. -/
theorem dateIn_echo {unit : DateUnit} {count : Int64} (h : dateIn unit count e = .ok () e') :
    ∃ millis, unit.ofMillis millis = count ∧ Echo Decode.date millis e e' := by
  unfold dateIn at h
  cases hm : unit.toMillis? count with
  | some millis =>
    rw [hm] at h
    exact ⟨millis, DateUnit.ofMillis_of_toMillis? hm, .of_undone (date_undone millis) h⟩
  | none =>
    rw [hm] at h
    cases h

/-- A key is read back by the collections that can have it. -/
theorem key_echo {mapping : Mapping} {k : Key} (hk : mapping.Owns k) (h : key k e = .ok () e')
    (hs : e'.Small) : Echo (Decode.key mapping) k.norm e e' := by
  cases k with
  | text s =>
    have hecho := (Echo.of_undone (string_undone s) h).map Key.text
    cases mapping with
    | sortedText => exact hecho
    | text => exact hecho
    | _ => cases hk
  | long n =>
    have hecho := (Echo.of_undone (long_undone n) h).map Key.long
    cases mapping with
    | sortedLong => exact hecho
    | _ => cases hk
  | value v =>
    have hecho := (value_echo v e e' h hs).map Key.value
    cases mapping with
    | value => exact hecho
    | _ => cases hk

end Encode

/-! ## Fields -/

/-- Where no name stands twice, what stands under a name is found from either end. -/
theorem lookup_reverse_of_mem {α : Type} {pairs : List (String × α)}
    (h : (pairs.map Prod.fst).Nodup) {name : String} {a : α} (hm : (name, a) ∈ pairs) :
    pairs.reverse.lookup name = some a := by
  obtain ⟨before, later, rfl⟩ := List.append_of_mem hm
  rw [List.map_append, List.map_cons, List.nodup_middle, List.nodup_cons] at h
  exact Pairs.lookup_reverse_last fun hl => h.1 (List.mem_append_right _ hl)

namespace Record

variable {r : Record ι}

/-- A field that has been found if it is on the wire is what comes back of it. -/
theorem settle_eq {found : List (String × Datum ι)} {f : Field ι} {d : Datum ι}
    (h : f.onWire = true → found.lookup f.wireName = some d) :
    r.settle found f = .ok (f.returned d) := by
  unfold Field.onWire at h
  unfold settle Field.returned
  cases hp : f.presence with
  | skipped default => rfl
  | defaulted default =>
    rw [hp] at h
    rw [h rfl]
    rfl
  | required =>
    rw [hp] at h
    rw [h rfl]

end Record

namespace Datum

variable (Γ : Schema ι)

/-- What comes back of the fields on the wire, by name. -/
def named : List (Field ι) → List (Datum ι) → List (String × Datum ι)
  | f :: fields, d :: rest =>
    if f.onWire then (f.wireName, d.flat.norm Γ) :: named fields rest else named fields rest
  | _, _ => []

/-- The names are those of the class definition. -/
theorem map_fst_named {fields : List (Field ι)} {data : List (Datum ι)}
    (hl : data.length = fields.length) :
    (named Γ fields data).map Prod.fst = (fields.filter Field.onWire).map Field.wireName := by
  induction fields generalizing data with
  | nil => rfl
  | cons f fields ih =>
    cases data with
    | nil => cases hl
    | cons d rest =>
      have hrest := ih (Nat.succ.inj hl)
      rw [named]
      cases hw : f.onWire with
      | true => rw [if_pos rfl, List.filter_cons_of_pos hw, List.map_cons, List.map_cons, hrest]
      | false =>
        rw [if_neg Bool.false_ne_true, List.filter_cons_of_neg (Bool.eq_false_iff.mp hw), hrest]

theorem mem_named {fields : List (Field ι)} {data : List (Datum ι)} {f : Field ι} {d : Datum ι}
    (hm : (f, d) ∈ fields.zip data) (hw : f.onWire = true) :
    (f.wireName, d.flat.norm Γ) ∈ named Γ fields data := by
  induction fields generalizing data with
  | nil => cases hm
  | cons g fields ih =>
    cases data with
    | nil => cases hm
    | cons d' rest =>
      rw [List.zip_cons_cons] at hm
      rw [named]
      rcases List.mem_cons.mp hm with heq | hm
      · obtain ⟨rfl, rfl⟩ := Prod.mk.inj heq
        rw [if_pos hw]
        exact List.mem_cons_self
      · split
        · exact List.mem_cons_of_mem _ (ih hm)
        · exact ih hm

/-- What has been found of a record settles its fields. -/
theorem mapM_settle (r : Record ι) {found : List (String × Datum ι)} {fields : List (Field ι)}
    {data : List (Datum ι)} (hl : data.length = fields.length)
    (h : ∀ field ∈ fields.zip data, field.1.onWire = true →
      found.lookup field.1.wireName = some (field.2.flat.norm Γ)) :
    fields.mapM (r.settle found) = .ok (normFields Γ fields (flatItems data)) := by
  induction fields generalizing data with
  | nil =>
    obtain rfl := List.length_eq_zero_iff.mp hl
    rfl
  | cons f fields ih =>
    cases data with
    | nil => cases hl
    | cons d rest =>
      rw [List.zip_cons_cons] at h
      obtain ⟨hf, hrest⟩ := List.forall_mem_cons.mp h
      rw [List.mapM_cons, Record.settle_eq hf, ih (Nat.succ.inj hl) hrest]
      rfl

/-! ## Parts -/

/-- Wherever the datum is written, the shape reads what comes back of it. -/
def Echoes (d : Datum ι) (shape : Shape ι) : Prop :=
  ∀ e e', d.write Γ e = .ok () e' → e'.Small → Echo (shape.read Γ) (d.flat.norm Γ) e e'

variable {Γ} {e e' : Encoder}

/-- It is enough to look at one layer of reading. -/
theorem Echoes.of_layer {d : Datum ι} {shape : Shape ι}
    (h : ∀ e e', d.write Γ e = .ok () e' → e'.Small →
      Echo (shape.readWith Γ (Shape.read Γ)) (d.flat.norm Γ) e e') : Echoes Γ d shape := by
  intro e e' hw hs
  rw [Shape.read_eq]
  exact h e e' hw hs

/-- Items are read back one after another. -/
theorem items_echo {items : List (Datum ι)} {item : Shape ι} (h : ∀ d ∈ items, Echoes Γ d item)
    (hw : writeItems Γ items e = .ok () e') (hs : e'.Small) :
    Echo (times items.length (item.read Γ)) (normItems Γ (flatItems items)) e e' := by
  induction items generalizing e with
  | nil =>
    obtain ⟨-, rfl⟩ := EStateM.Result.ok.inj hw
    exact .pure [] e
  | cons d rest ih =>
    obtain ⟨hd, hrest⟩ := List.forall_mem_cons.mp h
    obtain ⟨⟨⟩, u, hu, hr⟩ := Encode.ok_of_bind hw
    have hsu := ((regular_writeItems Γ rest).advance_ok hr).small hs
    rw [List.length_cons, times_succ]
    exact (hd e u hu hsu).bind ((ih hrest hr).bind (.pure _ e'))

/-- Entries are read back up to the terminator. -/
theorem entries_echo {mapping : Mapping} {entries : List (Key × Datum ι)} {item : Shape ι}
    (hk : ∀ entry ∈ entries, mapping.Owns entry.1) (h : ∀ entry ∈ entries, Echoes Γ entry.2 item)
    (hw : (writeEntries Γ entries >>= fun _ => Encode.terminator) e = .ok () e') (hs : e'.Small) :
    Echo (untilTerminator (pairOf (key mapping) (item.read Γ)))
      (normEntries Γ (flatEntries entries)) e e' := by
  have hproductive : Productive (pairOf (key mapping) (item.read Γ)) :=
    (reader_key mapping).productive.pairOf (item.reader_read Γ).toRegular
  have hopens : Opens (· ≠ .terminator) (pairOf (key mapping) (item.read Γ)) := by
    refine Opens.bind ?_ _
    intro s k t hk
    obtain ⟨v, hv, -⟩ := mirrors_key mapping s k t hk
    exact opens_value s v t hv
  induction entries generalizing e with
  | nil => exact .untilTerminator_nil hproductive hw
  | cons entry rest ih =>
    obtain ⟨k, d⟩ := entry
    obtain ⟨hkey, hkeys⟩ := List.forall_mem_cons.mp hk
    obtain ⟨hd, hrest⟩ := List.forall_mem_cons.mp h
    have hregular := (regular_writeEntries Γ rest).bind fun _ => Encode.regular_form .terminator []
    rw [writeEntries, bind_assoc] at hw
    obtain ⟨⟨⟩, u, hu, hw⟩ := Encode.ok_of_bind hw
    rw [bind_assoc] at hw
    obtain ⟨⟨⟩, w, hv, hr⟩ := Encode.ok_of_bind hw
    have hsw := (hregular.advance_ok hr).small hs
    have hsu := ((regular_write Γ d).advance_ok hv).small hsw
    have hpair : Echo (pairOf (key mapping) (item.read Γ)) (k.norm, d.flat.norm Γ) e w :=
      (Encode.key_echo hkey hu hsu).bind ((hd u w hv hsw).bind (.pure _ w))
    exact .untilTerminator_cons hproductive hopens hpair (ih hkeys hrest hr)

/-- The fields on the wire are read back by their names. -/
theorem fields_echo {r : Record ι} (hr : r.DistinctNames) {fields : List (Field ι)}
    {data : List (Datum ι)} (hf : ∀ f ∈ fields, f ∈ r.fields) (hl : data.length = fields.length)
    (h : ∀ field ∈ fields.zip data, field.1.onWire = true → Echoes Γ field.2 field.1.shape)
    (hw : writeFields Γ fields data e = .ok () e') (hs : e'.Small)
    (found : List (String × Datum ι)) :
    Echo (r.readFields (Shape.read Γ) found ((fields.filter Field.onWire).map Field.wireName))
      ((named Γ fields data).reverse ++ found) e e' := by
  induction fields generalizing data e found with
  | nil =>
    obtain rfl := List.length_eq_zero_iff.mp hl
    obtain ⟨-, rfl⟩ := EStateM.Result.ok.inj hw
    exact .pure found e
  | cons f fields ih =>
    cases data with
    | nil => cases hl
    | cons d rest =>
      rw [List.zip_cons_cons] at h
      obtain ⟨hd, hrest⟩ := List.forall_mem_cons.mp h
      obtain ⟨hmem, hfields⟩ := List.forall_mem_cons.mp hf
      rw [writeFields] at hw
      rw [named]
      by_cases honWire : f.onWire = true
      · rw [if_pos honWire] at hw ⊢
        obtain ⟨⟨⟩, u, hu, hw⟩ := Encode.ok_of_bind hw
        have hsu := ((regular_writeFields Γ fields rest).advance_ok hw).small hs
        have hnext := ih hfields (Nat.succ.inj hl) hrest hw ((f.wireName, d.flat.norm Γ) :: found)
        rw [List.filter_cons_of_pos honWire, List.map_cons, Record.readFields,
          hr.field?_eq hmem honWire, List.reverse_cons, List.append_assoc, List.singleton_append]
        exact (hd honWire e u hu hsu).bind hnext
      · rw [if_neg honWire] at hw ⊢
        rw [List.filter_cons_of_neg honWire]
        exact ih hfields (Nat.succ.inj hl) hrest hw found

/-! ## Containers -/

theorem list_echo {items : List (Datum ι)} {item : Shape ι} (h : ∀ d ∈ items, Echoes Γ d item) :
    Echoes Γ (.list items) (.list item) := by
  refine .of_layer fun e e' hw hs => ?_
  obtain ⟨⟨⟩, u, hb, hn⟩ := Encode.ok_of_bind hw
  have hsu := ((regular_writeItems Γ items).nested.advance_ok hn).small hs
  obtain ⟨hlt, w, hi, rfl⟩ := Encode.ok_of_nested hn
  have hitems := (items_echo h hi hs.of_leave).nested hlt
  have hlist : Echo (listOf (item.read Γ)) (none, normItems Γ (flatItems items)) e w.leave :=
    (Encode.listBegin_echo hb fun _ => hsu).bind (hitems.bind (.pure _ w.leave))
  exact hlist.bind (.pure (Datum.list (normItems Γ (flatItems items))) w.leave)

theorem map_echo {mapping : Mapping} {entries : List (Key × Datum ι)} {item : Shape ι}
    (ho : mapping.InOrder entries) (hk : ∀ entry ∈ entries, mapping.Owns entry.1)
    (h : ∀ entry ∈ entries, Echoes Γ entry.2 item) :
    Echoes Γ (.map entries) (.map mapping item) := by
  refine .of_layer fun e e' hw hs => ?_
  obtain ⟨⟨⟩, u, hb, hn⟩ := Encode.ok_of_bind hw
  rw [Encode.terminator, Encode.form, Encode.nested_emit] at hn
  have hregular := (regular_writeEntries Γ entries).bind fun _ =>
    Encode.regular_form .terminator []
  have hsu := (hregular.nested.advance_ok hn).small hs
  obtain ⟨hlt, w, hi, rfl⟩ := Encode.ok_of_nested hn
  have hentries := (entries_echo hk h hi hs.of_leave).nested hlt
  let pairs := normEntries Γ (flatEntries entries)
  have hmap : Echo (mapOf (key mapping) (item.read Γ)) (none, pairs) e w.leave :=
    (Encode.mapBegin_echo hb fun _ => hsu).bind (hentries.bind (.pure _ w.leave))
  rw [flat, norm, ← Mapping.ofPairs_of_inOrder (inOrder_normEntries Γ (inOrder_flatEntries ho))]
  exact hmap.bind (.pure (Datum.map (mapping.ofPairs pairs)) w.leave)

/-- What comes back of a field on the wire is found under its name. -/
theorem lookup_named {r : Record ι} (hr : r.DistinctNames) {data : List (Datum ι)}
    (hl : data.length = r.fields.length) {field : Field ι × Datum ι}
    (hm : field ∈ r.fields.zip data) (hw : field.1.onWire = true) :
    (named Γ r.fields data).reverse.lookup field.1.wireName = some (field.2.flat.norm Γ) := by
  refine lookup_reverse_of_mem ?_ (mem_named Γ hm hw)
  rw [map_fst_named Γ hl]
  exact hr

theorem record_echo (hΓ : ∀ name, (Γ name).DistinctNames) {name : ι} {fields : List (Datum ι)}
    (hl : fields.length = (Γ name).fields.length)
    (h : ∀ field ∈ (Γ name).fields.zip fields, field.1.onWire = true →
      Echoes Γ field.2 field.1.shape) : Echoes Γ (.record name fields) (.record name) := by
  refine .of_layer fun e e' hw hs => ?_
  obtain ⟨⟨⟩, u, hb, hn⟩ := Encode.ok_of_bind hw
  have hsu := ((regular_writeFields Γ (Γ name).fields fields).nested.advance_ok hn).small hs
  obtain ⟨hlt, w, hi, rfl⟩ := Encode.ok_of_nested hn
  have hfields := (fields_echo (hΓ name) (fun _ hf => hf) hl h hi hs.of_leave []).nested hlt
  rw [List.append_nil] at hfields
  have hsettle := mapM_settle Γ (Γ name) hl fun field hm hw => lookup_named (hΓ name) hl hm hw
  rw [flat, norm]
  refine ((Encode.objectBegin_echo hb hsu).bind (hfields.bind ?_)).map (Datum.record name)
  rw [hsettle]
  exact .pure _ w.leave

/-! ## Data -/

/-- The something of an option is read back unless it is null, and then nothing is. -/
theorem present_echo {d : Datum ι} {shape : Shape ι} (h : Echoes Γ d shape) :
    Echoes Γ (.present d) (.option shape) := by
  refine .of_layer fun e e' hw hs => ?_
  rw [flat]
  cases hd : d.isNull with
  | true =>
    rw [write, write_of_isNull Γ d hd] at hw
    exact (Echo.of_undone Encode.null_undone hw).congr fun s t hst =>
      shape.readWith_option_null Γ _ hst
  | false =>
    have hecho := h e e' hw hs
    rw [Shape.read_eq] at hecho
    have hflat : (d.flat.norm Γ).isNull = false := by rw [isNull_norm, isNull_flat, hd]
    exact hecho.congr fun s t hst => Shape.readWith_option Γ hst hflat

/-- A datum that fits a shape is read back. -/
theorem write_echo (hΓ : ∀ name, (Γ name).DistinctNames) {d : Datum ι} {shape : Shape ι}
    (h : d.Fits Γ shape) : Echoes Γ d shape := by
  induction h with
  | boolean b =>
    exact .of_layer fun e e' hw _ => (Echo.of_undone (Encode.boolean_undone b) hw).map _
  | int least greatest =>
    exact .of_layer fun e e' hw _ => (Encode.intIn_echo least greatest hw).map _
  | long least greatest =>
    exact .of_layer fun e e' hw _ => (Encode.longIn_echo least greatest hw).map _
  | double d =>
    exact .of_layer fun e e' hw _ => (Echo.of_undone (Encode.double_undone d) hw).map _
  | text s =>
    exact .of_layer fun e e' hw _ => (Echo.of_undone (Encode.string_undone s) hw).map _
  | bytes b =>
    exact .of_layer fun e e' hw _ => (Echo.of_undone (Encode.binary_undone b) hw).map _
  | absent shape =>
    refine .of_layer fun e e' hw _ => ?_
    exact (Echo.of_undone Encode.null_undone hw).congr fun s t hst =>
      shape.readWith_option_null Γ _ hst
  | present _ ih => exact present_echo ih
  | list _ ih => exact list_echo ih
  | map order keys _ ih => exact map_echo order keys ih
  | date unit count =>
    refine .of_layer fun e e' hw _ => ?_
    obtain ⟨millis, rfl, hecho⟩ := Encode.dateIn_echo hw
    exact hecho.map _
  | value v => exact .of_layer fun e e' hw hs => (Encode.value_echo v e e' hw hs).map _
  | record length _ ih => exact record_echo hΓ length ih

/-- What one session writes of a datum that fits a shape, another one that allows as many levels
reads in that shape, with nothing left.  An option of null has become nothing, which happens in no
shape that tells null.  Else a datum in which there is nothing to change comes back as it is. -/
theorem read_of_write (hΓ : ∀ name, (Γ name).DistinctNames) (maxDepth : Nat) {d : Datum ι}
    {shape : Shape ι} (hd : d.Fits Γ shape) {e : Encoder}
    (h : d.write Γ (.start [] maxDepth) = .ok () e) (hs : e.Small) :
    (∃ t, shape.read Γ (.start e.bytes maxDepth) = .ok (d.flat.norm Γ) t ∧ t.input = []) ∧
      ((∀ name, (Γ name).TellsNull) → shape.tellsNull = true → d.flat.norm Γ = d.norm Γ) ∧
      (d.Settled Γ → d.norm Γ = d) := by
  have hread := Encode.read_of_echo (write_echo hΓ hd (.start [] maxDepth) e h hs) []
  rw [List.append_nil] at hread
  exact ⟨⟨_, hread, rfl⟩, fun htells => hd.norm_flat htells, d.norm_eq Γ⟩

/-- Two users, of whom the second one is written with the definition of the first.  What they have
cached is not written. -/
theorem read_of_write_users :
    let user (cache : Bytes) : Datum Catalog := .record .user [.text "u", .int 7, .bytes cache]
    let d : Datum Catalog := .list [user [1, 2], user []]
    let shape : Shape Catalog := .list (.record .user)
    ∃ e, d.write Catalog.schema (.start [] 2) = .ok () e ∧
      ∃ t, shape.read Catalog.schema (.start e.bytes 2) = .ok (.list [user [], user []]) t ∧
        t.input = [] := by
  intro user d shape
  have huser (cache : Bytes) : (user cache).Fits Catalog.schema (.record .user) := by
    refine .record rfl (List.forall_mem_cons.mpr ⟨fun _ => .text _, ?_⟩)
    refine List.forall_mem_cons.mpr ⟨fun _ => .int (by decide) (by decide), ?_⟩
    exact List.forall_mem_singleton.mpr fun hw => nomatch hw
  have hfits : d.Fits Catalog.schema shape :=
    .list (List.forall_mem_cons.mpr ⟨huser _, List.forall_mem_singleton.mpr (huser _)⟩)
  have h : d.write Catalog.schema (.start [] 2) = .ok ()
      { output := #[0x7a, 0x43, 0x10, 0x63, 0x6f, 0x6d, 0x2e, 0x65, 0x78, 0x61, 0x6d, 0x70, 0x6c,
          0x65, 0x2e, 0x55, 0x73, 0x65, 0x72, 0x92, 0x08, 0x75, 0x73, 0x65, 0x72, 0x4e, 0x61, 0x6d,
          0x65, 0x03, 0x61, 0x67, 0x65, 0x60, 0x01, 0x75, 0x97, 0x60, 0x01, 0x75, 0x97]
        definitions := [⟨"com.example.User", ["userName", "age"]⟩]
        containers := 3
        maxDepth := 2 } := by
    unfold d user
    cbv
  have hnorm : d.norm Catalog.schema = .list [user [], user []] := rfl
  obtain ⟨⟨t, ht, hi⟩, htells, -⟩ :=
    read_of_write Catalog.distinctNames 2 hfits h ⟨by decide, by decide, by decide, by decide⟩
  rw [htells Catalog.tellsNull rfl, hnorm] at ht
  exact ⟨_, h, t, ht, hi⟩

/-- An option that has an option, which has nothing.  There is nothing in it to change, but it is
written as null, and nothing comes back. -/
theorem read_of_present_null :
    let d : Datum Catalog := .present .absent
    let shape : Shape Catalog := .option (.option (.int .int32))
    d.Fits Catalog.schema shape ∧ d.Settled Catalog.schema ∧ d.norm Catalog.schema = d ∧
      ∃ e t, d.write Catalog.schema (.start [] 128) = .ok () e ∧ e.Small ∧ e.bytes = [0x4e] ∧
        shape.read Catalog.schema (.start e.bytes 128) = .ok .absent t ∧ t.input = [] ∧
        .absent ≠ d := by
  intro d shape
  have hwrite : d.write Catalog.schema (.start [] 128) = .ok ()
      { output := #[0x4e], maxDepth := 128 } := rfl
  have hread : shape.read Catalog.schema (.start [0x4e] 128) = .ok .absent
      { offset := 1, maxDepth := 128, input := [] } := by
    cbv
  refine ⟨.present (.absent _), trivial, rfl, _, _, hwrite, ?_, rfl, hread, rfl, by simp [d]⟩
  exact ⟨by decide, by decide, by decide, by decide⟩

end Datum

end Hessian
