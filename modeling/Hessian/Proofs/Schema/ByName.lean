import Hessian.Proofs.Schema.Agreement
import Hessian.Proofs.Schema.Layer

/-!
# Records are read by name

The class definition of a stream may have any name, and may list any fields in any order.  What
stands under the names is read in that order, each by the shape of the field of this name, or as a
value if there is no such field.  Only when everything has been read are the fields of the record
looked up, now in the order of the declaration.  `Schema.ByName` says all of this without lists of
what has been found so far and without looking anything up, and is exactly what the reader does.

A field that is null or something is no exception.  It has to be named by the class definition
unless it is declared with a default: `Shape.read_settings_missing`.  This is not what declarations
of such fields say, but what becomes of them where the types are passed on by a macro, as they are
in the catalog (`Catalog.schema_eq_record`).

## Main definitions

* `Record.ReadsNames`, `Record.FailsAt` : what is read under names, one after another.
* `Record.Holds`, `Record.Missing` : what becomes of a field.
* `Schema.ByName` : what reading an instance comes to.

## Main statements

* `Shape.read_record_iff` : a record is read by name.
-/

namespace Hessian

open Decode

variable {ι : Type}

namespace Record

section Names

variable (r : Record ι) (read : Shape ι → Decode (Datum ι))

/-- What stands under the names is read in a row.  What is found are the data under the names that
are those of fields on the wire; values under other names are dropped. -/
inductive ReadsNames : List String → Decoder → List (String × Datum ι) → Decoder → Prop
  | nil (s : Decoder) : ReadsNames [] s [] s
  | known {names : List String} {s t u : Decoder} {f : Field ι} {d : Datum ι}
      {found : List (String × Datum ι)} (mem : f ∈ r.fields) (wire : f.onWire = true)
      (first : read f.shape s = .ok d t) (rest : ReadsNames names t found u) :
      ReadsNames (f.wireName :: names) s ((f.wireName, d) :: found) u
  | unknown {name : String} {names : List String} {s t u : Decoder} {v : Value}
      {found : List (String × Datum ι)}
      (none : ∀ f ∈ r.fields, f.onWire = true → f.wireName ≠ name)
      (first : value s = .ok v t) (rest : ReadsNames names t found u) :
      ReadsNames (name :: names) s found u

/-- What stands under the name cannot be read. -/
inductive FailsAt : String → Decoder → Error → Decoder → Prop
  | known {s t : Decoder} {f : Field ι} {e : Error} (mem : f ∈ r.fields) (wire : f.onWire = true)
      (fails : read f.shape s = .error e t) : FailsAt f.wireName s e t
  | unknown {name : String} {s t : Decoder} {e : Error}
      (none : ∀ f ∈ r.fields, f.onWire = true → f.wireName ≠ name)
      (fails : value s = .error e t) : FailsAt name s e t

end Names

/-- What becomes of a field: the last one of what has been found under its name, or its default. -/
inductive Holds (found : List (String × Datum ι)) (f : Field ι) : Datum ι → Prop
  | last {before after : List (String × Datum ι)} {d : Datum ι} (wire : f.onWire = true)
      (split : found = before ++ (f.wireName, d) :: after)
      (none : f.wireName ∉ after.map Prod.fst) : Holds found f d
  | absent {d : Datum ι} (default : f.presence = .defaulted d)
      (none : f.wireName ∉ found.map Prod.fst) : Holds found f d
  | skipped {d : Datum ι} (default : f.presence = .skipped d) : Holds found f d

/-- The field has to be on the wire and is not. -/
def Missing (found : List (String × Datum ι)) (f : Field ι) : Prop :=
  f.presence = .required ∧ f.wireName ∉ found.map Prod.fst

end Record

/-- What reading an instance of a class with these fields comes to, from the start of the first
field. -/
inductive Schema.ByName (Γ : Schema ι) (name : ι) (names : List String) (s : Decoder) :
    Outcome (Datum ι) → Prop
  | failed {before after : List String} {wireName : String} {found : List (String × Datum ι)}
      {t u : Decoder} {e : Error} (split : names = before ++ wireName :: after)
      (reads : (Γ name).ReadsNames (Shape.read Γ) before s found t)
      (fails : (Γ name).FailsAt (Shape.read Γ) wireName t e u) :
      ByName Γ name names s (.error e u.leave)
  | missing {before after : List (Field ι)} {f : Field ι} {found : List (String × Datum ι)}
      {t : Decoder} (reads : (Γ name).ReadsNames (Shape.read Γ) names s found t)
      (split : (Γ name).fields = before ++ f :: after)
      (first : ∀ g ∈ before, ¬ Record.Missing found g) (missing : Record.Missing found f) :
      ByName Γ name names s (.error (.missingField f.wireName (Γ name).name) t.leave)
  | done {found : List (String × Datum ι)} {t : Decoder} {fields : List (Datum ι)}
      (reads : (Γ name).ReadsNames (Shape.read Γ) names s found t)
      (holds : List.Forall₂ (Record.Holds found) (Γ name).fields fields) :
      ByName Γ name names s (.ok (.record name fields) t.leave)

namespace Record

variable {r : Record ι} {read : Shape ι → Decode (Datum ι)} {names before after : List String}
  {s t u : Decoder} {found : List (String × Datum ι)} {f : Field ι} {d : Datum ι} {e : Error}
  {name : String}

/-! ## Names in a row -/

/-- A name under which there is no field on the wire stands for no field. -/
theorem field?_eq_none (h : ∀ f ∈ r.fields, f.onWire = true → f.wireName ≠ name) :
    r.field? name = none := by
  cases hf : r.field? name with
  | none => rfl
  | some f =>
    obtain ⟨hmem, hw, hn⟩ := mem_of_field? hf
    exact absurd hn (h f hmem hw)

/-- What stands under the name of a field is read by the shape of that field. -/
theorem readFields_known (hr : r.DistinctNames) (hf : f ∈ r.fields) (hw : f.onWire = true)
    (found : List (String × Datum ι)) (names : List String) :
    r.readFields read found (f.wireName :: names) =
      read f.shape >>= fun d => r.readFields read ((f.wireName, d) :: found) names := by
  rw [readFields, hr.field?_eq hf hw]

/-- What stands under any other name is read as a value and dropped. -/
theorem readFields_unknown (h : ∀ f ∈ r.fields, f.onWire = true → f.wireName ≠ name)
    (found : List (String × Datum ι)) (names : List String) :
    r.readFields read found (name :: names) =
      value >>= fun _ => r.readFields read found names := by
  rw [readFields, field?_eq_none h]
  exact bind_assoc ..

/-- The reader finds what stands under the names, the last one first. -/
theorem ReadsNames.readFields (hr : r.DistinctNames) (h : r.ReadsNames read names s found u)
    (earlier : List (String × Datum ι)) :
    r.readFields read earlier names s = .ok (found.reverse ++ earlier) u := by
  induction h generalizing earlier with
  | nil s => rfl
  | known mem wire first rest ih =>
    rw [readFields_known hr mem wire, bind_ok first, ih, List.reverse_cons, List.append_assoc,
      List.singleton_append]
  | unknown none first rest ih => rw [readFields_unknown none, bind_ok first, ih]

/-- The reader stops at the first name under which something cannot be read. -/
theorem ReadsNames.readFields_error (hr : r.DistinctNames)
    (h : r.ReadsNames read before s found t) (hf : r.FailsAt read name t e u)
    (earlier : List (String × Datum ι)) :
    r.readFields read earlier (before ++ name :: after) s = .error e u := by
  induction h generalizing earlier with
  | nil s =>
    cases hf with
    | known mem wire fails => rw [List.nil_append, readFields_known hr mem wire, bind_error fails]
    | unknown none fails => rw [List.nil_append, readFields_unknown none, bind_error fails]
  | known mem wire first rest ih =>
    rw [List.cons_append, readFields_known hr mem wire, bind_ok first, ih hf]
  | unknown none first rest ih =>
    rw [List.cons_append, readFields_unknown none, bind_ok first, ih hf]

/-- Either everything can be read or there is a first name under which something cannot. -/
theorem readsNames_or_failsAt (r : Record ι) (read : Shape ι → Decode (Datum ι))
    (names : List String) (s : Decoder) :
    (∃ found u, r.ReadsNames read names s found u) ∨
      ∃ before name after found t e u, names = before ++ name :: after ∧
        r.ReadsNames read before s found t ∧ r.FailsAt read name t e u := by
  induction names generalizing s with
  | nil => exact .inl ⟨[], s, .nil s⟩
  | cons name names ih =>
    cases hf : r.field? name with
    | some f =>
      obtain ⟨mem, wire, rfl⟩ := mem_of_field? hf
      cases hd : read f.shape s with
      | error e u => exact .inr ⟨[], _, names, [], s, e, u, rfl, .nil s, .known mem wire hd⟩
      | ok d t =>
        rcases ih t with ⟨found, u, h⟩ | ⟨before, name, after, found, w, e, u, rfl, h, hfail⟩
        · exact .inl ⟨_, u, .known mem wire hd h⟩
        · exact .inr ⟨_ :: before, name, after, _, w, e, u, rfl, .known mem wire hd h, hfail⟩
    | none =>
      have hnone : ∀ f ∈ r.fields, f.onWire = true → f.wireName ≠ name :=
        fun f mem wire => ne_of_field? hf mem wire
      cases hv : value s with
      | error e u => exact .inr ⟨[], _, names, [], s, e, u, rfl, .nil s, .unknown hnone hv⟩
      | ok v t =>
        rcases ih t with ⟨found, u, h⟩ | ⟨before, name, after, found, w, e, u, rfl, h, hfail⟩
        · exact .inl ⟨_, u, .unknown hnone hv h⟩
        · exact .inr ⟨_ :: before, name, after, _, w, e, u, rfl, .unknown hnone hv h, hfail⟩

/-! ## Fields in a row -/

/-- What a field holds is what it is settled to. -/
theorem Holds.settle (h : Holds found f d) : r.settle found.reverse f = .ok d := by
  unfold Record.settle
  cases h with
  | last wire split none =>
    rw [split, Pairs.lookup_reverse_last none]
    unfold Field.onWire at wire
    cases hp : f.presence with
    | skipped default =>
      rw [hp] at wire
      cases wire
    | defaulted default => rfl
    | required => rfl
  | absent default none =>
    rw [default, Pairs.lookup_reverse_none none]
    rfl
  | skipped default => rw [default]

/-- A field that is missing is not settled. -/
theorem Missing.settle (h : Missing found f) :
    r.settle found.reverse f = .error (.missingField f.wireName r.name) := by
  unfold Record.settle
  rw [h.1, Pairs.lookup_reverse_none h.2]

/-- A field that is not missing holds something. -/
theorem exists_holds (h : ¬ Missing found f) : ∃ d, Holds found f d := by
  cases hp : f.presence with
  | skipped d => exact ⟨d, .skipped hp⟩
  | defaulted d =>
    by_cases hn : f.wireName ∈ found.map Prod.fst
    · obtain ⟨before, d, after, hsplit, hlast⟩ := Pairs.exists_last hn
      exact ⟨d, .last (by rw [Field.onWire, hp]) hsplit hlast⟩
    · exact ⟨d, .absent hp hn⟩
  | required =>
    by_cases hn : f.wireName ∈ found.map Prod.fst
    · obtain ⟨before, d, after, hsplit, hlast⟩ := Pairs.exists_last hn
      exact ⟨d, .last (by rw [Field.onWire, hp]) hsplit hlast⟩
    · exact absurd ⟨hp, hn⟩ h

section Settle

variable {fields before after : List (Field ι)} {data : List (Datum ι)}

theorem mapM_settle_of_holds (r : Record ι) (h : List.Forall₂ (Holds found) fields data) :
    fields.mapM (r.settle found.reverse) = .ok data := by
  induction h with
  | nil => rfl
  | cons hd _ ih =>
    rw [List.mapM_cons, hd.settle, ih]
    rfl

/-- The error is that of the first field that is missing. -/
theorem mapM_settle_of_missing (r : Record ι) (hfirst : ∀ g ∈ before, ¬ Missing found g)
    (h : Missing found f) :
    (before ++ f :: after).mapM (r.settle found.reverse) =
      .error (.missingField f.wireName r.name) := by
  induction before with
  | nil =>
    rw [List.nil_append, List.mapM_cons, h.settle]
    rfl
  | cons g before ih =>
    obtain ⟨hg, hrest⟩ := List.forall_mem_cons.mp hfirst
    obtain ⟨d, hd⟩ := exists_holds hg
    rw [List.cons_append, List.mapM_cons, hd.settle, ih hrest]
    rfl

/-- Either each field holds something or there is a first one that is missing. -/
theorem holds_or_missing (found : List (String × Datum ι)) (fields : List (Field ι)) :
    (∃ data, List.Forall₂ (Holds found) fields data) ∨
      ∃ before f after, fields = before ++ f :: after ∧ (∀ g ∈ before, ¬ Missing found g) ∧
        Missing found f := by
  induction fields with
  | nil => exact .inl ⟨[], .nil⟩
  | cons f fields ih =>
    by_cases hf : Missing found f
    · exact .inr ⟨[], f, fields, rfl, nofun, hf⟩
    obtain ⟨d, hd⟩ := exists_holds hf
    rcases ih with ⟨data, h⟩ | ⟨before, g, after, rfl, hfirst, hg⟩
    · exact .inl ⟨d :: data, .cons hd h⟩
    · exact .inr ⟨f :: before, g, after, rfl, List.forall_mem_cons.mpr ⟨hf, hfirst⟩, hg⟩

end Settle

end Record

/-! ## Records -/

section Instance

variable {Γ : Schema ι} {name : ι} {s t : Decoder} {c : Definition} {o : Outcome (Datum ι)}

/-- Something always comes of an instance. -/
theorem Schema.exists_byName (Γ : Schema ι) (name : ι) (names : List String) (s : Decoder) :
    ∃ o, Γ.ByName name names s o := by
  rcases (Γ name).readsNames_or_failsAt (Shape.read Γ) names s with
    ⟨found, t, hreads⟩ | ⟨before, wireName, after, found, t, e, u, hsplit, hreads, hfails⟩
  · rcases Record.holds_or_missing found (Γ name).fields with
      ⟨data, h⟩ | ⟨before, f, after, hsplit, hfirst, hf⟩
    · exact ⟨_, .done hreads h⟩
    · exact ⟨_, .missing hreads hsplit hfirst hf⟩
  · exact ⟨_, .failed hsplit hreads hfails⟩

/-- What comes of an instance by name is what the reader gives. -/
theorem Schema.ByName.read_eq (hr : (Γ name).DistinctNames) (hs : s.depth < s.maxDepth)
    (hc : objectBegin s = .ok c t) (h : Γ.ByName name c.fieldNames t.enter o) :
    (Shape.record name).read Γ s = o := by
  -- the header leaves the depth as it is, so there still is a level for the fields
  have hadvance := reader_objectBegin.toRegular.advance_ok hc
  have ht : t.depth < t.maxDepth := by rwa [hadvance.depth, hadvance.maxDepth]
  rw [Shape.read_eq, Shape.readWith, map_eq_pure_bind, Record.readWith, bind_assoc, bind_ok hc,
    bind_assoc]
  cases h with
  | failed split reads fails =>
    rw [split]
    exact bind_error (nested_error ht (reads.readFields_error hr fails []))
  | missing reads split first missing =>
    rw [bind_ok (nested_ok ht (reads.readFields hr [])), List.append_nil, split,
      (Γ name).mapM_settle_of_missing first missing]
    rfl
  | done reads holds =>
    rw [bind_ok (nested_ok ht (reads.readFields hr [])), List.append_nil,
      (Γ name).mapM_settle_of_holds holds]
    rfl

end Instance

namespace Shape

/-- Where the session allows one more level, an instance of any class is read as a record by the
names of the fields. -/
theorem read_record_iff {Γ : Schema ι} {name : ι} {s t : Decoder} {c : Definition}
    (hr : (Γ name).DistinctNames) (hs : s.depth < s.maxDepth) (hc : objectBegin s = .ok c t)
    (o : Outcome (Datum ι)) :
    (record name).read Γ s = o ↔ Γ.ByName name c.fieldNames t.enter o := by
  constructor
  · rintro rfl
    obtain ⟨o, ho⟩ := Γ.exists_byName name c.fieldNames t.enter
    rwa [ho.read_eq hr hs hc]
  · exact fun h => h.read_eq hr hs hc

/-- A user from an instance of another class, which lists the fields in another order.  The name of
the field that is not on the wire stands for a value that is dropped, and of the two ages the last
one counts.  The last octet is left over. -/
theorem read_record_user :
    let s : Decoder :=
      { input := [0x43, 0x01, 0x56, 0x94, 0x05, 0x63, 0x61, 0x63, 0x68, 0x65, 0x03, 0x61, 0x67, 0x65,
          0x08, 0x75, 0x73, 0x65, 0x72, 0x4e, 0x61, 0x6d, 0x65, 0x03, 0x61, 0x67, 0x65, 0x60, 0x4e,
          0x91, 0x01, 0x61, 0x92, 0x4e]
        maxDepth := 1 }
    let t : Decoder :=
      { input := [0x4e]
        offset := 33
        definitions := [⟨"V", ["cache", "age", "userName", "age"]⟩]
        containers := 1
        maxDepth := 1 }
    let u : Decoder := { t with input := [0x4e, 0x91, 0x01, 0x61, 0x92, 0x4e], offset := 28 }
    let o : Outcome (Datum Catalog) := .ok (.record .user [.text "a", .int 2, .bytes []]) t
    objectBegin s = .ok ⟨"V", ["cache", "age", "userName", "age"]⟩ u ∧
      (record Catalog.user).read Catalog.schema s = o ∧
      Catalog.schema.ByName .user ["cache", "age", "userName", "age"] u.enter o := by
  intro s t u o
  have hc : objectBegin s = .ok ⟨"V", ["cache", "age", "userName", "age"]⟩ u := by
    cbv
  have hread : (record Catalog.user).read Catalog.schema s = o := by
    cbv
  exact ⟨hc, hread, (read_record_iff (Catalog.distinctNames .user) (by decide) hc o).mp hread⟩

/-- A setting of which the class definition names nothing but the name.  The number of retries has a
default, but the nickname is missed, although its shape allows for nothing. -/
theorem read_settings_missing :
    let s : Decoder :=
      { input := [0x43, 0x01, 0x53, 0x91, 0x04, 0x6e, 0x61, 0x6d, 0x65, 0x60, 0x03, 0x73, 0x76, 0x63]
        maxDepth := 128 }
    ∃ f t u, f ∈ (Catalog.schema .settings).fields ∧ f.shape = .option .text ∧
      f.wireName = "nickname" ∧ objectBegin s = .ok ⟨"S", ["name"]⟩ t ∧
      (record Catalog.settings).read Catalog.schema s =
        .error (.missingField "nickname" "Settings") u := by
  intro _
  let t : Decoder :=
    { input := [0x03, 0x73, 0x76, 0x63]
      offset := 10
      definitions := [⟨"S", ["name"]⟩]
      containers := 1
      maxDepth := 128 }
  let u : Decoder := { t with input := [], offset := 14 }
  refine ⟨Catalog.optional "nickname" .text, t, u, ?_, rfl, rfl, ?_, ?_⟩
  · simp [Catalog.schema]
  · cbv
  · cbv

end Shape

end Hessian
