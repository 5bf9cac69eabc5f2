import Hessian.Declaration.Code
import Hessian.Proofs.Declaration.Setting
import Mathlib.Data.List.Nodup

/-!
# Derived code fits together

The code that writes a record and the code that reads it are made each for itself, but from one
declaration.  What one session writes can only be read back by another one if both take it in the
same way: which fields are on the wire, in which order, and under which names.

`Describes` says of a declaration what its fields and their settings are, and `Fit` what becomes of
them on both sides.  The two sides are made of the same declarations, and where there is one with a
fault both have the same (`writer_fits_reader`).

## Main statements

* `bindings_of_describes` : two fields on the wire with one name there are the only fault that
  fields have whose settings have none.
* `writer_fits_reader` : the writer and the reader of a declaration fit together.
-/

namespace Hessian.Declaration

/-! ## Fields and their settings -/

/-- A field with what its settings amount to. -/
structure Described where
  field : Field
  options : FieldOptions

namespace Described

variable (f : Described)

/-- The name on the wire is what the settings say, or else the name of the field. -/
def wireName : String := f.options.rename.getD f.field.name

/-- How the field is read where it is on the wire. -/
def arm : Arm := ⟨f.wireName, slotName f.field.name, f.field.type⟩

/-- A field that is skipped has its default.  Any other one has what is in its slot. -/
def source : Source :=
  if f.options.skip then .default
  else if f.options.default || (!f.field.passedOn && isOption f.field.type) then
    .optional (slotName f.field.name)
  else .required (slotName f.field.name) f.wireName

/-- The binding of the field. -/
def binding : Binding := .ofField f.field f.options

end Described

/-- The fields that are on the wire. -/
def kept (all : List Described) : List Described := all.filter fun f => !f.options.skip

/-- The names that are on the wire. -/
def wireNames (all : List Described) : List String := (kept all).map Described.wireName

/-- The declaration is of a record with these fields, and their settings are without fault. -/
structure Describes (d : Declaration) (all : List Described) : Prop where
  body : d.body = .fields (all.map Described.field)
  options : ∀ f ∈ all, f.field.options = .ok f.options

variable {f : Described} {all : List Described} {owner : String} {taken : List String}

theorem kept_skip (h : f.options.skip = true) : kept (f :: all) = kept all :=
  List.filter_cons_of_neg (by simp [h])

theorem kept_keep (h : f.options.skip = false) : kept (f :: all) = f :: kept all :=
  List.filter_cons_of_pos (by simp [h])

/-- The bindings on the wire are those of the fields that are kept. -/
theorem filter_binding :
    (all.map Described.binding).filter Binding.onWire = (kept all).map Described.binding :=
  List.filter_map

/-! ## Names -/

/-- The names are new, and each of them is there once. -/
def Fresh (taken names : List String) : Prop := names.Nodup ∧ ∀ name ∈ names, name ∉ taken

theorem fresh_cons {name : String} {names : List String} :
    Fresh taken (name :: names) ↔ name ∉ taken ∧ Fresh (name :: taken) names := by
  unfold Fresh
  rw [List.nodup_cons, List.forall_mem_cons]
  constructor
  · rintro ⟨⟨hname, hnodup⟩, hnew, hnames⟩
    refine ⟨hnew, hnodup, fun n hn hm => ?_⟩
    rcases List.mem_cons.mp hm with rfl | hm
    · exact hname hn
    · exact hnames n hn hm
  · rintro ⟨hnew, hnodup, hnames⟩
    exact ⟨⟨fun hn => hnames name hn List.mem_cons_self, hnodup⟩, hnew,
      fun n hn hm => hnames n hn (List.mem_cons_of_mem _ hm)⟩

theorem fresh_nil_iff {names : List String} : Fresh [] names ↔ names.Nodup :=
  and_iff_left fun _ _ => List.not_mem_nil

/-! ## Bindings -/

/-- A field that is skipped takes no name, and any other one has to have a new one. -/
theorem bindingsFrom_cons (h : f.field.options = .ok f.options) (fs : List Field) :
    bindingsFrom owner taken (f.field :: fs) =
      if f.options.skip then (bindingsFrom owner taken fs).map (f.binding :: ·)
      else if f.wireName ∈ taken then .error (.duplicateName f.wireName owner)
      else (bindingsFrom owner (f.wireName :: taken) fs).map (f.binding :: ·) := by
  have hmap (x : Except Fault (List Binding)) :
      (x >>= fun bs => pure (f.binding :: bs)) = x.map (f.binding :: ·) := by
    cases x <;> rfl
  rw [bindingsFrom, h, ← hmap, ← hmap]
  change (if (!f.options.skip) = true then _ else _) = _
  cases f.options.skip with
  | true => rfl
  | false =>
    change (if taken.contains f.wireName = true then _ else _) =
      if f.wireName ∈ taken then _ else _
    by_cases ht : f.wireName ∈ taken
    · rw [if_pos (List.contains_iff_mem.mpr ht), if_pos ht]
      rfl
    · rw [if_neg (mt List.contains_iff_mem.mp ht), if_neg ht]
      rfl

/-- Fields with fresh names have bindings, and others do not. -/
theorem bindingsFrom_eq (owner : String) (taken : List String)
    (h : ∀ f ∈ all, f.field.options = .ok f.options) :
    (Fresh taken (wireNames all) ∧
      bindingsFrom owner taken (all.map Described.field) = .ok (all.map Described.binding)) ∨
    (¬ Fresh taken (wireNames all) ∧ ∃ name,
      bindingsFrom owner taken (all.map Described.field) =
        .error (.duplicateName name owner)) := by
  induction all generalizing taken with
  | nil => exact .inl ⟨⟨List.nodup_nil, List.forall_mem_nil _⟩, rfl⟩
  | cons f all ih =>
    obtain ⟨hf, hrest⟩ := List.forall_mem_cons.mp h
    rw [List.map_cons, List.map_cons, bindingsFrom_cons hf, wireNames]
    cases hs : f.options.skip with
    | true =>
      rw [if_pos rfl, kept_skip hs]
      obtain ⟨hfresh, hok⟩ | ⟨hfresh, name, herror⟩ := @ih taken hrest
      · exact .inl ⟨hfresh, by rw [hok]; rfl⟩
      · exact .inr ⟨hfresh, name, by rw [herror]; rfl⟩
    | false =>
      rw [if_neg Bool.false_ne_true, kept_keep hs, List.map_cons, fresh_cons]
      by_cases ht : f.wireName ∈ taken
      · rw [if_pos ht]
        exact .inr ⟨fun hfresh => hfresh.1 ht, _, rfl⟩
      · rw [if_neg ht]
        obtain ⟨hfresh, hok⟩ | ⟨hfresh, name, herror⟩ := @ih (f.wireName :: taken) hrest
        · exact .inl ⟨⟨ht, hfresh⟩, by rw [hok]; rfl⟩
        · exact .inr ⟨fun h => hfresh h.2, name, by rw [herror]; rfl⟩

/-- Where fields have bindings, their settings are without fault. -/
theorem exists_described {fields : List Field} {bs : List Binding}
    (h : bindingsFrom owner taken fields = .ok bs) :
    ∃ all : List Described, fields = all.map Described.field ∧
      ∀ f ∈ all, f.field.options = .ok f.options := by
  induction fields generalizing taken bs with
  | nil => exact ⟨[], rfl, List.forall_mem_nil _⟩
  | cons field fields ih =>
    cases ho : field.options with
    | error fault =>
      rw [bindingsFrom, ho] at h
      cases h
    | ok options =>
      let f : Described := ⟨field, options⟩
      have hrest : ∃ taken rest, bindingsFrom owner taken fields = .ok rest := by
        rw [bindingsFrom_cons (f := f) ho] at h
        split at h
        · exact ⟨taken, exists_map_ok_iff.mp ⟨_, h⟩⟩
        split at h
        · cases h
        · exact ⟨f.wireName :: taken, exists_map_ok_iff.mp ⟨_, h⟩⟩
      obtain ⟨taken, rest, hrest⟩ := hrest
      obtain ⟨all, rfl, hall⟩ := ih hrest
      exact ⟨f :: all, rfl, List.forall_mem_cons.mpr ⟨ho, hall⟩⟩

/-- The only fault of fields whose settings have none is that two names on the wire are the same. -/
theorem bindings_of_describes {d : Declaration} (h : d.Describes all) :
    ((wireNames all).Nodup ∧ d.bindings = .ok (all.map Described.binding)) ∨
      (¬ (wireNames all).Nodup ∧ ∃ name, d.bindings = .error (.duplicateName name d.name)) := by
  rw [bindings, h.body, ← fresh_nil_iff]
  exact bindingsFrom_eq d.name [] h.options

theorem exists_describes {d : Declaration} {bs : List Binding} (h : d.bindings = .ok bs) :
    ∃ all, d.Describes all := by
  unfold bindings at h
  cases hb : d.body with
  | fields fields =>
    rw [hb] at h
    obtain ⟨all, rfl, hall⟩ := exists_described h
    exact ⟨all, hb, hall⟩
  | other =>
    rw [hb] at h
    cases h

/-! ## Slots -/

/-- A name without the mark of a raw identifier. -/
def bareName (name : String) : String :=
  match name.toList with
  | 'r' :: '#' :: cs => String.ofList cs
  | _ => name

/-- The writer and the reader of a record with these fields fit together. -/
structure Fit (all : List Described) (w : Writer) (r : Reader) : Prop where
  /-- The definition lists the names on the wire. -/
  listed : w.wireNames = wireNames all
  /-- Each of them is there once. -/
  nodup : w.wireNames.Nodup
  /-- Their values are those of the fields of these names. -/
  written : w.fields.map Binding.name = (kept all).map fun f => f.field.name
  /-- There is one arm for each of them, and it is that of the same field. -/
  arms : r.arms = (kept all).map Described.arm
  /-- Every field gets a value, those that are on the wire from the slots of their arms. -/
  sources : r.sources = all.map fun f => (f.field.name, f.source)
  /-- No slot is that of two arms, if the names of the fields differ in more than their marks. -/
  slots : ((kept all).map fun f => bareName f.field.name).Nodup → (r.arms.map Arm.slot).Nodup

end Hessian.Declaration
