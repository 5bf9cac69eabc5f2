import Hessian.Proofs.Json.Members
import Hessian.Proofs.Trace.Reference
import Hessian.Proofs.Value.Equality
import Hessian.Proofs.Value.Parts

/-!
# Where the parts of a value stand in its JSON form

A `Selector` goes from a container to one of its parts, in a value and in a JSON value alike: to an
item by its position, to the last value under a name by that name.  A path of selectors that leads
somewhere in a value leads to the JSON form of that in the JSON form of the value
(`Value.toJson_at`).

Whatever a value holds has a JSON form of its own, but no path leads to what stands under a name
that is given again later.  A map keeps all of its entries in JSON exactly where the texts of its
keys are different (`Value.carried_of_toJson`).  A class instance also has its fields by name, and
there the first one counts (`Decode.fields_of_value`).
-/

namespace Hessian

/-- The way from a container to one of its parts. -/
inductive Selector where
  | item (position : Nat)
  | member (name : String)
deriving DecidableEq, Repr

namespace Json

/-- The part of a JSON value to which a selector goes. -/
def child? : Json → Selector → Option Json
  | .array items, .item position => items[position]?
  | .object members, .member name => members.lookup name
  | _, _ => none

/-- What is at the end of a path. -/
def at? (j : Json) (path : List Selector) : Option Json := path.foldlM child? j

end Json

namespace Value

/-- The part of a value to which a selector goes. -/
def child? : Value → Selector → Option Value
  | .list _ items, .item position => items[position]?
  | v, .member name => v.named.reverse.lookup name
  | _, .item _ => none

/-- What is at the end of a path. -/
def at? (v : Value) (path : List Selector) : Option Value := path.foldlM child? v

theorem child?_member (v : Value) (name : String) :
    v.child? (.member name) = v.named.reverse.lookup name := by
  cases v <;> rfl

/-- The second value is the first one, or stands in it in an item, under the text of a key or in a
field that has a name. -/
inductive Holds : Value → Value → Prop
  | self (v : Value) : Holds v v
  | item {type : Option String} {items : List Value} {u w : Value} (part : u ∈ items)
      (rest : Holds u w) : Holds (.list type items) w
  | named {v u w : Value} {name : String} (part : (name, u) ∈ v.named) (rest : Holds u w) :
      Holds v w

/-! ## Going down -/

theorem forall₂_of_toJsonItems {vs : List Value} {js : List Json} (h : toJsonItems vs = .ok js) :
    List.Forall₂ (fun v j => v.toJson = .ok j) vs js := by
  induction vs generalizing js with
  | nil =>
    cases h
    exact .nil
  | cons v vs ih =>
    obtain ⟨j, hj, h⟩ := ok_of_bind h
    obtain ⟨js, hjs, h⟩ := ok_of_bind h
    cases h
    exact .cons hj (ih hjs)

/-- What a list becomes. -/
theorem becomes_of_list {type : Option String} {items : List Value} {j : Json}
    (h : (list type items).toJson = .ok j) :
    ∃ js, List.Forall₂ (fun v j => v.toJson = .ok j) items js ∧ j = .array js := by
  obtain ⟨js, hjs, h⟩ := ok_of_bind h
  cases h
  exact ⟨js, forall₂_of_toJsonItems hjs, rfl⟩

/-- What has values under names becomes an object. -/
theorem becomes_of_named {v : Value} {j : Json} (hv : v.named ≠ []) (h : v.toJson = .ok j) :
    ∃ pairs, Becomes v.named pairs ∧ j = .object (Members.ofPairs pairs) := by
  cases v with
  | map type entries =>
    obtain ⟨pairs, hpairs, hj, -⟩ := becomes_of_map h
    exact ⟨pairs, hpairs, hj⟩
  | object c fields => exact becomes_of_object h
  | null | boolean | int | long | double | binary | date | string | ref | list =>
    exact absurd rfl hv

/-- A selector goes to the JSON form of what it goes to in the value. -/
theorem toJson_child {v w : Value} {j : Json} {selector : Selector} (h : v.toJson = .ok j)
    (hw : v.child? selector = some w) : ∃ k, w.toJson = .ok k ∧ j.child? selector = some k := by
  cases selector with
  | member name =>
    rw [child?_member] at hw
    have hne : v.named ≠ [] := by
      intro hnil
      rw [hnil] at hw
      cases hw
    obtain ⟨pairs, hpairs, rfl⟩ := becomes_of_named hne h
    obtain ⟨k, hk, hwk⟩ := hpairs.reverse.lookup hw
    exact ⟨k, hwk, (Members.lookup_ofPairs pairs name).trans hk⟩
  | item position =>
    cases v with
    | list type items =>
      obtain ⟨js, hjs, rfl⟩ := becomes_of_list h
      obtain ⟨hlt, hget⟩ := List.getElem?_eq_some_iff.mp hw
      have hlt' : position < js.length := hjs.length_eq ▸ hlt
      have hk := hjs.get hlt hlt'
      refine ⟨js[position], ?_, List.getElem?_eq_getElem hlt'⟩
      rw [← hget]
      exact hk
    | null | boolean | int | long | double | binary | date | string | ref | map | object => cases hw

/-- A path leads to the JSON form of what it leads to in the value. -/
theorem toJson_at {v w : Value} {j : Json} {path : List Selector} (h : v.toJson = .ok j)
    (hw : v.at? path = some w) : ∃ k, w.toJson = .ok k ∧ j.at? path = some k := by
  induction path generalizing v j with
  | nil =>
    obtain rfl : v = w := Option.some.inj hw
    exact ⟨j, h, rfl⟩
  | cons selector path ih =>
    rw [at?, List.foldlM_cons] at hw
    obtain ⟨u, hu, hw⟩ := Option.bind_eq_some_iff.mp hw
    obtain ⟨i, hi, hchild⟩ := toJson_child h hu
    obtain ⟨k, hk, hat⟩ := ih hi hw
    exact ⟨k, hk, by rw [Json.at?, List.foldlM_cons, hchild]; exact hat⟩

/-! ## What a value holds -/

/-- Whatever a value holds has a JSON form if the value has one. -/
theorem Holds.toJson {v w : Value} (hw : v.Holds w) {j : Json} (h : v.toJson = .ok j) :
    ∃ k, w.toJson = .ok k := by
  induction hw generalizing j with
  | self => exact ⟨j, h⟩
  | item hu _ ih =>
    obtain ⟨js, hjs, -⟩ := becomes_of_list h
    obtain ⟨i, -, hi⟩ := exists_of_mem_of_forall₂ hjs hu
    exact ih hi
  | named hu _ ih =>
    obtain ⟨pairs, hpairs, -⟩ := becomes_of_named (List.ne_nil_of_mem hu) h
    obtain ⟨pair, -, -, hi⟩ := exists_of_mem_of_forall₂ hpairs hu
    exact ih hi

/-- A path from a part is one from the value. -/
theorem exists_at_of_child {v u w : Value} {selector : Selector}
    (hu : v.child? selector = some u) (h : ∃ path, u.at? path = some w) :
    ∃ path, v.at? path = some w := by
  obtain ⟨path, hpath⟩ := h
  exact ⟨selector :: path, by rw [at?, List.foldlM_cons, hu]; exact hpath⟩

/-- If no name is given twice, a path leads to everything that a value holds. -/
theorem Holds.exists_at {v w : Value} (hw : v.Holds w)
    (hn : ∀ u, v.Holds u → (u.named.map Prod.fst).Nodup) : ∃ path, v.at? path = some w := by
  induction hw with
  | self => exact ⟨[], rfl⟩
  | @item type items u w hu _ ih =>
    obtain ⟨position, hposition⟩ := List.mem_iff_getElem?.mp hu
    have hchild : (list type items).child? (.item position) = some u := hposition
    exact exists_at_of_child hchild (ih fun x hx => hn x (.item hu hx))
  | @named v u w name hu _ ih =>
    have hnodup : (v.named.reverse.map Prod.fst).Nodup := by
      rw [List.map_reverse, List.nodup_reverse]
      exact hn v (.self v)
    have hlast : v.child? (.member name) = some u :=
      (child?_member v name).trans (Pairs.lookup_of_nodup hnodup (List.mem_reverse.mpr hu))
    exact exists_at_of_child hlast (ih fun x hx => hn x (.named hu hx))

/-- If every class instance has a value for each of its fields, a value that has a JSON form holds
all of its containers. -/
theorem holds_of_mem_containers {v w : Value} (hw : w ∈ v.containers)
    (hf : v.Everywhere Filled) {j : Json} (h : v.toJson = .ok j) : v.Holds w := by
  refine containers_induction (P := fun v => v.Everywhere Filled → ∀ j, v.toJson = .ok j →
    v.Holds w) (fun _ _ _ => .self w) ?_ v hw hf j h
  intro v u hu hwu ih hf j h
  have hpart := ih (hf.parts u hu)
  cases v with
  | list type items =>
    have hheld : (list type items).Holds u := .item hu (.self u)
    obtain ⟨k, hk⟩ := hheld.toJson h
    exact .item hu (hpart k hk)
  | map type entries =>
    obtain ⟨entry, hentry, rfl | rfl⟩ := mem_parts_map.mp hu
    · -- what has a text is no container
      obtain ⟨name, hname⟩ := exists_text h hentry
      rw [containers_of_jsonKey hname] at hwu
      cases hwu
    · obtain ⟨name, hname⟩ := exists_text h hentry
      have hnamed := mem_named_map type hentry hname
      obtain ⟨k, hk⟩ := (Holds.named hnamed (.self _)).toJson h
      exact .named hnamed (hpart k hk)
  | object c fields =>
    have hsnd : (c.fieldNames.zip fields).map Prod.snd = fields :=
      List.map_snd_zip (Nat.le_of_eq hf.self)
    obtain ⟨field, hfield, rfl⟩ := List.mem_map.mp (hsnd.symm ▸ hu : u ∈ _)
    have hnamed : (field.1, field.2) ∈ (object c fields).named := hfield
    obtain ⟨k, hk⟩ := (Holds.named hnamed (.self _)).toJson h
    exact .named hnamed (hpart k hk)
  | null | boolean | int | long | double | binary | date | string | ref => cases hu

/-! ## What is carried over -/

/-- What of a value is in its JSON form. -/
structure Carried (v : Value) (j : Json) : Prop where
  /-- A map becomes an object of the texts of its keys, which has as many members as there are
  entries exactly where the texts are different. -/
  map : ∀ type entries, v.Holds (.map type entries) →
    ∃ (members : Members) (texts : List String),
    (Value.map type entries).toJson = .ok (.object members) ∧
    entries.map (fun entry => entry.1.jsonKey) = texts.map .ok ∧
    (∀ name, name ∈ members.map Prod.fst ↔ name ∈ texts) ∧
    (members.length = entries.length ↔ texts.Nodup)
  /-- Of different keys only those of different kinds can have the same text. -/
  kinds : ∀ type entries, v.Holds (.map type entries) → Entries.Distinct entries →
    ∃ members : Members, (Value.map type entries).toJson = .ok (.object members) ∧
      (members.length = entries.length ↔ ∀ entry ∈ entries, ∀ other ∈ entries,
        entry.1.jsonKey = other.1.jsonKey → entry.1.kind = other.1.kind)
  /-- A class instance with different names and a value for each becomes an object of its names. -/
  object : ∀ c fields, v.Holds (.object c fields) → c.fieldNames.Nodup →
    fields.length = c.fieldNames.length → ∃ members,
      (Value.object c fields).toJson = .ok (.object members) ∧
      (∀ name, name ∈ members.map Prod.fst ↔ name ∈ c.fieldNames) ∧
      members.length = c.fieldNames.length
  /-- What stands at the end of a path has its JSON form there. -/
  place : ∀ path w, v.at? path = some w → ∃ k, w.toJson = .ok k ∧ j.at? path = some k
  /-- There is a path to everything that the value holds if no name is given twice. -/
  path : (∀ w, v.Holds w → (w.named.map Prod.fst).Nodup) → ∀ w, v.Holds w →
    ∃ path, v.at? path = some w
  /-- The value holds all of its containers if there is a value for every field. -/
  holds : v.Everywhere Filled → ∀ w ∈ v.containers, v.Holds w

theorem toJson_map {type : Option String} {entries : Entries} {j : Json}
    (h : (map type entries).toJson = .ok j) :
    ∃ (members : Members) (texts : List String), j = .object members ∧
      entries.map (fun entry => entry.1.jsonKey) = texts.map .ok ∧
      (∀ name, name ∈ members.map Prod.fst ↔ name ∈ texts) ∧
      (members.length = entries.length ↔ texts.Nodup) := by
  obtain ⟨pairs, -, rfl, htexts⟩ := becomes_of_map h
  have hlength : entries.length = pairs.length := by
    simpa only [List.length_map] using congrArg List.length htexts
  refine ⟨_, pairs.map Prod.fst, rfl, ?_, fun _ => Members.mem_names_ofPairs, ?_⟩
  · rw [htexts, List.map_map]
    rfl
  · rw [hlength]
    exact Members.length_ofPairs_eq_iff

/-- The texts of different keys are different unless keys of different kinds have the same one. -/
theorem nodup_texts_iff {entries : Entries} {texts : List String} (hd : Entries.Distinct entries)
    (htexts : entries.map (fun entry => entry.1.jsonKey) = texts.map .ok) :
    texts.Nodup ↔ ∀ entry ∈ entries, ∀ other ∈ entries,
      entry.1.jsonKey = other.1.jsonKey → entry.1.kind = other.1.kind := by
  have hkeys : texts.Nodup ↔ (entries.map fun entry => entry.1.jsonKey).Nodup := by
    rw [htexts, List.nodup_map_iff fun _ _ => Except.ok.inj]
  rw [hkeys]
  constructor
  · intro hn entry hentry other hother hsame
    rw [List.inj_on_of_nodup_map hn hentry hother hsame]
  · intro hkind
    refine List.pairwise_map.mpr (List.Pairwise.imp_of_mem ?_ hd)
    intro earlier later hearlier hlater hne hsame
    obtain ⟨name, -, hname⟩ := List.mem_map.mp (htexts ▸ List.mem_map_of_mem hearlier)
    have hkey : later.1 = earlier.1 :=
      eq_of_jsonKey (hkind later hlater earlier hearlier hsame.symm)
        (hsame.symm.trans hname.symm) hname.symm
    have hself : (earlier.1 == earlier.1) = true :=
      beq_self_of_plain (containers_of_jsonKey hname.symm)
    rw [hkey] at hne
    exact Bool.false_ne_true (hne.symm.trans hself)

theorem toJson_object {c : Definition} {fields : List Value} {j : Json}
    (h : (object c fields).toJson = .ok j) (hn : c.fieldNames.Nodup)
    (hl : fields.length = c.fieldNames.length) : ∃ members, j = .object members ∧
      (∀ name, name ∈ members.map Prod.fst ↔ name ∈ c.fieldNames) ∧
      members.length = c.fieldNames.length := by
  obtain ⟨pairs, hpairs, rfl⟩ := becomes_of_object h
  have hnames : pairs.map Prod.fst = c.fieldNames :=
    hpairs.names.symm.trans (List.map_fst_zip (Nat.le_of_eq hl.symm))
  have hlength : pairs.length = c.fieldNames.length := by
    rw [← hnames, List.length_map]
  refine ⟨_, rfl, fun name => ?_, ?_⟩
  · rw [Members.mem_names_ofPairs, hnames]
  · rw [← hlength]
    exact Members.length_ofPairs_eq_iff.mpr (hnames ▸ hn)

/-- What of a value is in its JSON form if it has one.  Every map and every class instance that the
value holds has a JSON form of its own, with the texts of the keys or the names of the fields for
names, and a path leads to it unless it stands under a name that is given again later. -/
theorem carried_of_toJson {v : Value} {j : Json} (h : v.toJson = .ok j) : v.Carried j where
  map type entries hheld := by
    obtain ⟨k, hk⟩ := hheld.toJson h
    obtain ⟨members, texts, rfl, hrest⟩ := toJson_map hk
    exact ⟨members, texts, hk, hrest⟩
  kinds type entries hheld hd := by
    obtain ⟨k, hk⟩ := hheld.toJson h
    obtain ⟨members, texts, rfl, htexts, -, hlength⟩ := toJson_map hk
    exact ⟨members, hk, hlength.trans (nodup_texts_iff hd htexts)⟩
  object c fields hheld hn hl := by
    obtain ⟨k, hk⟩ := hheld.toJson h
    obtain ⟨members, rfl, hrest⟩ := toJson_object hk hn hl
    exact ⟨members, hk, hrest⟩
  place _ _ hw := toJson_at h hw
  path hn _ hw := hw.exists_at hn
  holds hf _ hw := holds_of_mem_containers hw hf h

/-- A list with a class instance in it, and in that a map with keys of two kinds. -/
theorem carried_of_toJson_list :
    let m : Value := .map none [(.int 1, .null), (.string "a", .boolean true)]
    let v : Value := .list none [.object ⟨"A", ["x", "y"]⟩ [.int 5, m]]
    ∃ j, v.toJson = .ok j ∧ v.Carried j ∧
      j.at? [.item 0, .member "y"] = some (.object [("1", .null), ("a", .boolean true)]) := by
  intro m v
  have h : v.toJson = .ok (.array [.object [("x", .integer 5),
      ("y", .object [("1", .null), ("a", .boolean true)])]]) := by rfl
  exact ⟨_, h, carried_of_toJson h, by rfl⟩

/-- The int 1 and the string "1" are different keys of a map of two entries, which becomes an object
of one.  A map in a field without a name is in no object at all. -/
theorem toJson_of_equal_texts :
    let m : Value := .map none [(.int 1, .int 5), (.string "1", .int 6)]
    let w : Value := .map none [(.int 1, .int 5)]
    let v : Value := .object ⟨"A", []⟩ [w]
    m.Proper ∧ m.toJson = .ok (.object [("1", .integer 6)]) ∧
      w ∈ v.containers ∧ v.toJson = .ok (.object []) := by
  intro m w v
  have hdistinct : Entries.Distinct [(.int 1, .int 5), (.string "1", .int 6)] :=
    List.pairwise_pair.mpr rfl
  exact ⟨⟨hdistinct, trivial, trivial, trivial, trivial, trivial⟩, rfl,
    List.mem_cons_of_mem _ List.mem_cons_self, rfl⟩

/-! ## Fields by name -/

/-- The first field of a name is found by it. -/
theorem get?_object (c : Definition) (fields : List Value) (name : String) :
    (object c fields).get? name = (c.fieldNames.zip fields).lookup name := by
  change ((c.fieldNames.idxOf? name).bind fun position => fields[position]?) = _
  induction c.fieldNames generalizing fields with
  | nil => rfl
  | cons first names ih =>
    rw [List.idxOf?_cons]
    cases fields with
    | nil =>
      rw [List.zip_nil_right, List.lookup_nil]
      exact Option.bind_eq_none_iff.mpr fun _ _ => rfl
    | cons v fields =>
      rw [List.zip_cons_cons, List.lookup_cons]
      by_cases hname : name = first
      · subst hname
        simp
      · rw [beq_false_of_ne hname, beq_false_of_ne (Ne.symm hname), ← ih, if_neg Bool.false_ne_true,
          Option.bind_map]
        rfl

end Value

namespace Decode

/-- Class instances that have been read have a value for each of their fields. -/
theorem filled_of_value {s t : Decoder} {root : Value} (h : value s = .ok root t) :
    root.Everywhere Value.Filled := by
  obtain ⟨T, hT, rfl⟩ := trace_of_value h
  exact (sound_trace s T t hT).1.filled

/-- The two ways to a field by its name, for the class instances that have been read: the first
field of the name is found in the instance, and the JSON form of the last one in that of the
instance.  Where the class definition gives the name once, they are the same field. -/
theorem fields_of_value {s t : Decoder} {root : Value} (h : value s = .ok root t)
    {c : Definition} {fields : List Value} (hc : .object c fields ∈ root.containers) {j : Json}
    (hj : (Value.object c fields).toJson = .ok j) {name : String} (hname : name ∈ c.fieldNames) :
    ∃ members first last jfirst jlast, j = .object members ∧
      (Value.object c fields).get? name = some first ∧ first.toJson = .ok jfirst ∧
      (c.fieldNames.zip fields).reverse.lookup name = some last ∧ last.toJson = .ok jlast ∧
      members.lookup name = some jlast ∧
      (c.fieldNames.count name = 1 → last = first) := by
  have hl : fields.length = c.fieldNames.length := (filled_of_value h).containers hc
  have hnames : (c.fieldNames.zip fields).map Prod.fst = c.fieldNames :=
    List.map_fst_zip (Nat.le_of_eq hl.symm)
  obtain ⟨pairs, hpairs, rfl⟩ := Value.becomes_of_object hj
  have hmem : name ∈ (c.fieldNames.zip fields).map Prod.fst := hnames.symm ▸ hname
  obtain ⟨first, hfirst⟩ : ∃ first, (c.fieldNames.zip fields).lookup name = some first := by
    obtain ⟨field, hfield, rfl⟩ := List.mem_map.mp hmem
    refine Option.isSome_iff_exists.mp (List.lookup_isSome_iff.mpr ?_)
    exact ⟨field, hfield, beq_self_eq_true field.1⟩
  obtain ⟨last, hlast⟩ : ∃ last, (c.fieldNames.zip fields).reverse.lookup name = some last := by
    obtain ⟨before, last, after, hfields, hafter⟩ := Pairs.exists_last hmem
    exact ⟨last, hfields ▸ Pairs.lookup_reverse_last hafter⟩
  obtain ⟨jfirst, -, hjfirst⟩ := hpairs.lookup hfirst
  obtain ⟨jlast, hmember, hjlast⟩ := hpairs.reverse.lookup hlast
  refine ⟨Members.ofPairs pairs, first, last, jfirst, jlast, rfl,
    (Value.get?_object c fields name).trans hfirst, hjfirst, hlast, hjlast,
    (Members.lookup_ofPairs pairs name).trans hmember, fun hcount => ?_⟩
  rw [Pairs.lookup_reverse_of_count (hnames.symm ▸ hcount)] at hlast
  exact Option.some.inj (hlast.symm.trans hfirst)

/-- A class with the fields a and b. -/
theorem fields_of_value_pair :
    let w : Value := .object ⟨"A", ["a", "b"]⟩ [.int 1, .int 2]
    ∃ s, value (.start [0x43, 0x01, 0x41, 0x92, 0x01, 0x61, 0x01, 0x62, 0x60, 0x91, 0x92] 1) =
        .ok w s ∧
      ∃ members v j, w.toJson = .ok (.object members) ∧ w.get? "b" = some v ∧ v.toJson = .ok j ∧
        members.lookup "b" = some j := by
  intro w
  have h : value (.start [0x43, 0x01, 0x41, 0x92, 0x01, 0x61, 0x01, 0x62, 0x60, 0x91, 0x92] 1) =
      .ok w { input := [], offset := 11, containers := 1, maxDepth := 1,
              definitions := [⟨"A", ["a", "b"]⟩] } := by cbv
  have hj : w.toJson = .ok (.object [("a", .integer 1), ("b", .integer 2)]) := by rfl
  obtain ⟨members, first, last, -, jlast, hmembers, hfirst, -, -, hjlast, hlookup, hsame⟩ :=
    fields_of_value h List.mem_cons_self hj (by decide : "b" ∈ ["a", "b"])
  obtain rfl := hsame (by decide)
  exact ⟨_, h, members, last, jlast, hmembers ▸ hj, hfirst, hjlast, hlookup⟩

/-- A class definition that gives the name a twice.  The first of the two fields is found by it, the
second one is in the JSON form. -/
theorem fields_of_repeated_name :
    let w : Value := .object ⟨"A", ["a", "a"]⟩ [.int 1, .int 2]
    (∃ s, value (.start [0x43, 0x01, 0x41, 0x92, 0x01, 0x61, 0x01, 0x61, 0x60, 0x91, 0x92] 1) =
        .ok w s) ∧
      w.get? "a" = some (.int 1) ∧ (Value.int 1).toJson = .ok (.integer 1) ∧
      w.toJson = .ok (.object [("a", .integer 2)]) :=
  ⟨⟨{ input := [], offset := 11, containers := 1, maxDepth := 1,
      definitions := [⟨"A", ["a", "a"]⟩] }, by cbv⟩, rfl, rfl, rfl⟩

end Decode

end Hessian
