import Hessian.Schema.Catalog
import Hessian.Session.Encoding

/-!
# Data as values

A datum has an image among the values, `Datum.image?`: what a reader sees who does not know its
shape.  Only a bare class definition has none, since it is no value, and so do the numbers and dates
that cannot be written.

To write a datum and to write its image is the same step (`Datum.write_image`): in every session it
comes to the same end, with the same octets and the same tables, also where it fails.  Decimals are
left out there, because they are written without going one level deeper.

## Main definitions

* `Datum.image?` : the value that a datum is written as.
* `Datum.hasDecimal` : whether there is a decimal in a datum.

## Main statements

* `Datum.write_image` : a datum without decimals is written as its image is.
-/

namespace Hessian

/-- The value that a key is written as. -/
def Key.image : Key → Value
  | .text s => .string s
  | .long n => .long n
  | .value v => v

namespace Datum

variable {ι : Type} (Γ : Schema ι)

mutual

/-- The value that a datum is written as. -/
def image? : Datum ι → Option Value
  | .boolean b => some (.boolean b)
  | .int n => some (.int n)
  | .long n => some (.long n)
  | .unsigned n => if n.toNat < 2 ^ 63 then some (.long (Int64.ofNat n.toNat)) else none
  | .double d => some (.double d)
  | .single s => some (.double s.toDouble)
  | .text s => some (.string s)
  | .bytes b => some (.binary b)
  | .absent => some .null
  | .present d => image? d
  | .list items => do
    let vs ← imageItems? items
    return .list none vs
  | .map entries => do
    let pairs ← imageEntries? entries
    return .map none pairs
  | .date unit count => do
    let millis ← unit.toMillis? count
    return .date millis
  | .instant clock t => do
    let millis ← t.toMillis? clock
    return .date millis
  | .decimal d => some (.object Decimal.definition [.string d.render])
  | .value v => some v
  | .definition _ => none
  | .json j => some j.toValue
  | .record name fields => do
    let vs ← imageFields? (Γ name).fields fields
    return .object (Γ name).definition vs

/-- The images of the items of a list. -/
def imageItems? : List (Datum ι) → Option (List Value)
  | [] => some []
  | d :: rest => do
    let v ← image? d
    let vs ← imageItems? rest
    return v :: vs

/-- The images of the entries of a collection, in their order. -/
def imageEntries? : List (Key × Datum ι) → Option Entries
  | [] => some []
  | (k, d) :: rest => do
    let v ← image? d
    let pairs ← imageEntries? rest
    return (k.image, v) :: pairs

/-- The images of the fields of a record that are on the wire. -/
def imageFields? : List (Field ι) → List (Datum ι) → Option (List Value)
  | [], [] => some []
  | f :: fields, d :: rest =>
    if f.onWire then do
      let v ← image? d
      let vs ← imageFields? fields rest
      return v :: vs
    else
      imageFields? fields rest
  | _, _ => none

end

mutual

/-- Whether there is something of a kind in a datum, at any depth. -/
def has (kind : Datum ι → Bool) : Datum ι → Bool
  | .present d => has kind d
  | .list items => itemsHave kind items
  | .map entries => entriesHave kind entries
  | .record _ fields => itemsHave kind fields
  | d => kind d

/-- Whether there is something of a kind in one of several data. -/
def itemsHave (kind : Datum ι → Bool) : List (Datum ι) → Bool
  | [] => false
  | d :: rest => has kind d || itemsHave kind rest

/-- Whether there is something of a kind in one of the items of a collection. -/
def entriesHave (kind : Datum ι → Bool) : List (Key × Datum ι) → Bool
  | [] => false
  | (_, d) :: rest => has kind d || entriesHave kind rest

end

/-- Whether a datum is a decimal. -/
def isDecimal : Datum ι → Bool
  | .decimal _ => true
  | _ => false

/-- Whether there is a decimal in a datum. -/
def hasDecimal (d : Datum ι) : Bool := d.has isDecimal

end Datum

/-! ## JSON values and keys -/

theorem Json.length_toValues (items : List Json) : (toValues items).length = items.length := by
  induction items with
  | nil => rfl
  | cons j rest ih => rw [toValues, List.length_cons, List.length_cons, ih]

namespace Encode

/-- An integer is written in the form of the value that it is. -/
theorem integer_eq_value (n : Int64) : integer n = value (Json.integerValue n) := by
  unfold integer Json.integerValue
  split <;> rfl

mutual

/-- A JSON value is written as the value that it is. -/
theorem json_eq_value : (j : Json) → json j = value j.toValue
  | .null => rfl
  | .boolean _ => rfl
  | .integer n => integer_eq_value n
  | .natural _ => rfl
  | .float _ => rfl
  | .string _ => rfl
  | .array items => by
    rw [json, Json.toValue, value, if_neg nofun, jsons_eq_values items, Json.length_toValues]
    rfl
  | .object members => by
    rw [json, Json.toValue, value, if_neg nofun, jsonMembers_eq_pairs members]
    rfl

theorem jsons_eq_values : (items : List Json) → jsons items = values (Json.toValues items)
  | [] => rfl
  | j :: rest => by
    rw [jsons, Json.toValues, values, json_eq_value j, jsons_eq_values rest]

theorem jsonMembers_eq_pairs : (members : List (String × Json)) →
    jsonMembers members = pairs (Json.toEntries members)
  | [] => rfl
  | (key, j) :: rest => by
    rw [jsonMembers, Json.toEntries, pairs, value, json_eq_value j, jsonMembers_eq_pairs rest]

end

/-- A key is written as the value that it is. -/
theorem key_eq_value (k : Key) : key k = value k.image := by
  cases k <;> rfl

end Encode

namespace Datum

variable {ι : Type} (Γ : Schema ι)

/-! ## The images of parts -/

section Parts

variable {Γ}

theorem image?_list {items : List (Datum ι)} {v : Value}
    (h : image? Γ (.list items) = some v) :
    ∃ vs, imageItems? Γ items = some vs ∧ .list none vs = v := by
  rw [image?] at h
  obtain ⟨vs, hvs, hv⟩ := Option.bind_eq_some_iff.mp h
  exact ⟨vs, hvs, Option.some.inj hv⟩

theorem image?_map {entries : List (Key × Datum ι)} {v : Value}
    (h : image? Γ (.map entries) = some v) :
    ∃ pairs, imageEntries? Γ entries = some pairs ∧ .map none pairs = v := by
  rw [image?] at h
  obtain ⟨pairs, hp, hv⟩ := Option.bind_eq_some_iff.mp h
  exact ⟨pairs, hp, Option.some.inj hv⟩

theorem image?_record {name : ι} {fields : List (Datum ι)} {v : Value}
    (h : image? Γ (.record name fields) = some v) :
    ∃ vs, imageFields? Γ (Γ name).fields fields = some vs ∧
      .object (Γ name).definition vs = v := by
  rw [image?] at h
  obtain ⟨vs, hvs, hv⟩ := Option.bind_eq_some_iff.mp h
  exact ⟨vs, hvs, Option.some.inj hv⟩

theorem imageItems?_cons {d : Datum ι} {rest : List (Datum ι)} {vs : List Value}
    (h : imageItems? Γ (d :: rest) = some vs) :
    ∃ v vs', image? Γ d = some v ∧ imageItems? Γ rest = some vs' ∧ v :: vs' = vs := by
  rw [imageItems?] at h
  obtain ⟨v, hv, h⟩ := Option.bind_eq_some_iff.mp h
  obtain ⟨vs', hvs, h⟩ := Option.bind_eq_some_iff.mp h
  exact ⟨v, vs', hv, hvs, Option.some.inj h⟩

theorem imageEntries?_cons {k : Key} {d : Datum ι} {rest : List (Key × Datum ι)}
    {pairs : Entries} (h : imageEntries? Γ ((k, d) :: rest) = some pairs) :
    ∃ v pairs', image? Γ d = some v ∧ imageEntries? Γ rest = some pairs' ∧
      (k.image, v) :: pairs' = pairs := by
  rw [imageEntries?] at h
  obtain ⟨v, hv, h⟩ := Option.bind_eq_some_iff.mp h
  obtain ⟨pairs', hp, h⟩ := Option.bind_eq_some_iff.mp h
  exact ⟨v, pairs', hv, hp, Option.some.inj h⟩

/-- A field has an image of its own exactly if it is on the wire. -/
theorem imageFields?_cons {f : Field ι} {fields : List (Field ι)} {d : Datum ι}
    {rest : List (Datum ι)} {vs : List Value}
    (h : imageFields? Γ (f :: fields) (d :: rest) = some vs) :
    (f.onWire = true ∧ ∃ v vs', image? Γ d = some v ∧ imageFields? Γ fields rest = some vs' ∧
      v :: vs' = vs) ∨ (f.onWire = false ∧ imageFields? Γ fields rest = some vs) := by
  rw [imageFields?] at h
  cases hw : f.onWire with
  | true =>
    rw [if_pos hw] at h
    obtain ⟨v, hv, h⟩ := Option.bind_eq_some_iff.mp h
    obtain ⟨vs', hvs, h⟩ := Option.bind_eq_some_iff.mp h
    exact .inl ⟨rfl, v, vs', hv, hvs, Option.some.inj h⟩
  | false =>
    rw [if_neg (Bool.eq_false_iff.mp hw)] at h
    exact .inr ⟨rfl, h⟩

theorem length_imageItems? {items : List (Datum ι)} {vs : List Value}
    (h : imageItems? Γ items = some vs) : vs.length = items.length := by
  induction items generalizing vs with
  | nil =>
    obtain rfl := Option.some.inj h
    rfl
  | cons d rest ih =>
    obtain ⟨v, vs', -, hvs, rfl⟩ := imageItems?_cons h
    rw [List.length_cons, List.length_cons, ih hvs]

/-- There is one image for each field on the wire. -/
theorem length_imageFields? {fields : List (Field ι)} {data : List (Datum ι)} {vs : List Value}
    (h : imageFields? Γ fields data = some vs) :
    vs.length = (fields.filter Field.onWire).length := by
  induction fields generalizing data vs with
  | nil =>
    cases data with
    | nil =>
      obtain rfl := Option.some.inj h
      rfl
    | cons d rest => cases h
  | cons f fields ih =>
    cases data with
    | nil => cases h
    | cons d rest =>
      rcases imageFields?_cons h with ⟨hw, v, vs', -, hvs, rfl⟩ | ⟨hw, hvs⟩
      · rw [List.filter_cons_of_pos hw, List.length_cons, List.length_cons, ih hvs]
      · rw [List.filter_cons_of_neg (Bool.eq_false_iff.mp hw), ih hvs]

theorem length_image_record {name : ι} {fields : List (Datum ι)} {vs : List Value}
    (h : imageFields? Γ (Γ name).fields fields = some vs) :
    vs.length = (Γ name).definition.fieldNames.length := by
  rw [length_imageFields? h, Record.definition, List.length_map]

end Parts

/-! ## Writing -/

mutual

/-- A datum without decimals is written as its image is. -/
theorem write_eq : (d : Datum ι) → (v : Value) → d.image? Γ = some v →
    d.has isDecimal = false → d.write Γ = Encode.value v
  | .boolean _, _, h, _ => by obtain rfl := Option.some.inj h; rfl
  | .int _, _, h, _ => by obtain rfl := Option.some.inj h; rfl
  | .long _, _, h, _ => by obtain rfl := Option.some.inj h; rfl
  | .unsigned n, v, h, _ => by
    rw [image?] at h
    split at h
    · next hn =>
      obtain rfl := Option.some.inj h
      rw [write, Encode.unsigned, if_pos hn]
      rfl
    · cases h
  | .double _, _, h, _ => by obtain rfl := Option.some.inj h; rfl
  | .single _, _, h, _ => by obtain rfl := Option.some.inj h; rfl
  | .text _, _, h, _ => by obtain rfl := Option.some.inj h; rfl
  | .bytes _, _, h, _ => by obtain rfl := Option.some.inj h; rfl
  | .absent, _, h, _ => by obtain rfl := Option.some.inj h; rfl
  | .present d, v, h, hd => write_eq d v h hd
  | .list items, v, h, hd => by
    obtain ⟨vs, hvs, rfl⟩ := image?_list h
    rw [write, Encode.value, if_neg nofun, writeItems_eq items vs hvs hd, length_imageItems? hvs]
    rfl
  | .map entries, v, h, hd => by
    obtain ⟨pairs, hp, rfl⟩ := image?_map h
    rw [write, Encode.value, if_neg nofun, writeEntries_eq entries pairs hp hd]
    rfl
  | .date unit count, v, h, _ => by
    rw [image?] at h
    obtain ⟨millis, hm, hv⟩ := Option.bind_eq_some_iff.mp h
    obtain rfl := Option.some.inj hv
    rw [write, Encode.dateIn, hm]
    rfl
  | .instant clock t, v, h, _ => by
    rw [image?] at h
    obtain ⟨millis, hm, hv⟩ := Option.bind_eq_some_iff.mp h
    obtain rfl := Option.some.inj hv
    rw [write, Encode.instant, hm]
    rfl
  | .decimal _, _, _, hd => nomatch hd
  | .value _, _, h, _ => by obtain rfl := Option.some.inj h; rfl
  | .definition _, _, h, _ => nomatch h
  | .json j, _, h, _ => by
    obtain rfl := Option.some.inj h
    exact Encode.json_eq_value j
  | .record name fields, v, h, hd => by
    obtain ⟨vs, hvs, rfl⟩ := image?_record h
    rw [write, Encode.value, if_pos (length_image_record hvs),
      writeFields_eq (Γ name).fields fields vs hvs hd]

theorem writeItems_eq : (items : List (Datum ι)) → (vs : List Value) →
    imageItems? Γ items = some vs → itemsHave isDecimal items = false →
    writeItems Γ items = Encode.values vs
  | [], _, h, _ => by obtain rfl := Option.some.inj h; rfl
  | d :: rest, vs, h, hd => by
    obtain ⟨v, vs', hv, hvs, rfl⟩ := imageItems?_cons h
    rw [itemsHave, Bool.or_eq_false_iff] at hd
    rw [writeItems, Encode.values, write_eq d v hv hd.1, writeItems_eq rest vs' hvs hd.2]

theorem writeEntries_eq : (entries : List (Key × Datum ι)) → (pairs : Entries) →
    imageEntries? Γ entries = some pairs → entriesHave isDecimal entries = false →
    writeEntries Γ entries = Encode.pairs pairs
  | [], _, h, _ => by obtain rfl := Option.some.inj h; rfl
  | (k, d) :: rest, pairs, h, hd => by
    obtain ⟨v, pairs', hv, hp, rfl⟩ := imageEntries?_cons h
    rw [entriesHave, Bool.or_eq_false_iff] at hd
    rw [writeEntries, Encode.pairs, Encode.key_eq_value, write_eq d v hv hd.1,
      writeEntries_eq rest pairs' hp hd.2]

theorem writeFields_eq : (fields : List (Field ι)) → (data : List (Datum ι)) →
    (vs : List Value) → imageFields? Γ fields data = some vs → itemsHave isDecimal data = false →
    writeFields Γ fields data = Encode.values vs
  | [], [], _, h, _ => by obtain rfl := Option.some.inj h; rfl
  | [], _ :: _, _, h, _ => nomatch h
  | _ :: _, [], _, h, _ => nomatch h
  | f :: fields, d :: rest, vs, h, hd => by
    rw [itemsHave, Bool.or_eq_false_iff] at hd
    rw [writeFields]
    rcases imageFields?_cons h with ⟨hw, v, vs', hv, hvs, rfl⟩ | ⟨hw, hvs⟩
    · rw [if_pos hw, Encode.values, write_eq d v hv hd.1, writeFields_eq fields rest vs' hvs hd.2]
    · rw [if_neg (Bool.eq_false_iff.mp hw)]
      exact writeFields_eq fields rest vs hvs hd.2

end

/-- In any session a datum and its image are written to the same end: the same result or the same
error, with the same octets, tables and count of containers left behind. -/
theorem write_image (d : Datum ι) (v : Value) (h : d.image? Γ = some v)
    (hd : d.hasDecimal = false) (e : Encoder) : d.write Γ e = Encode.value v e := by
  rw [write_eq Γ d v h hd]

/-- A node inside a node, in a session that allows one level. -/
theorem write_image_node :
    let d : Datum Catalog := .record .node
      [.long 5, .present (.record .node [.long 6, .absent, .list []]), .list []]
    let c : Definition := ⟨"demo.Node", ["value", "next", "children"]⟩
    let v : Value := .object c [.long 5, .object c [.long 6, .null, .list none []], .list none []]
    d.image? Catalog.schema = some v ∧ d.hasDecimal = false ∧
      d.write Catalog.schema (.start [] 1) = Encode.value v (.start [] 1) :=
  ⟨rfl, rfl, write_image Catalog.schema _ _ rfl rfl _⟩

end Datum

end Hessian
