import Hessian.Declaration.Setting
import Mathlib.Data.List.Forall2

/-!
# The grammar of wire attributes

Wire attributes say what they have to say in tokens.  Which tokens are accepted is told here by a
grammar that knows nothing of how they are read: `Row` for the settings of a field, one after
another and each with at most one comma behind it, and `Attribute.Names` for the name of a class,
with nothing around it.

A reader of tokens keeps in mind whether a setting comes just before, since a comma is expected
nowhere else.  This is all that it knows of what it has read, so the tokens behind a setting are
either a row again or a comma and a row (`row_of_settingsFrom`).

Attributes are read one after another, those with another path left out, and all that they say is
put in one row.  Of settings that disagree the last one counts, whichever attribute it is in.

## Main statements

* `settings_ok_iff`, `classNameOfTokens_ok_iff` : the tokens of one attribute.
* `FieldOptions.amounts_ofSettings` : what settings amount to.
* `attributes_ok_iff` : the attributes of fields and of declarations.
-/

namespace Hessian.Declaration

/-! ## Results -/

section Results

variable {α β : Type} {x : Except Fault α} {f : α → β}

/-- What has been made of a result is made of one. -/
theorem map_ok_iff {b : β} : x.map f = .ok b ↔ ∃ a, x = .ok a ∧ b = f a := by
  cases x with
  | ok a => simp [Except.map, eq_comm]
  | error fault => simp [Except.map]

theorem exists_map_ok_iff : (∃ b, x.map f = .ok b) ↔ ∃ a, x = .ok a := by
  cases x with
  | ok a => exact ⟨fun _ => ⟨a, rfl⟩, fun _ => ⟨f a, rfl⟩⟩
  | error fault => exact ⟨nofun, nofun⟩

end Results

/-! ## Settings in a row -/

/-- The tokens of a setting. -/
def Setting.tokens : Setting → List Token
  | .rename wireName => [.word "rename", .mark '=', .text wireName]
  | .default => [.word "default"]
  | .skip => [.word "skip"]

/-- The tokens are those of the settings, each with at most one comma behind it. -/
inductive Row : List Token → List Setting → Prop
  | nil : Row [] []
  | bare {ts : List Token} {ss : List Setting} (s : Setting) (rest : Row ts ss) :
      Row (s.tokens ++ ts) (s :: ss)
  | comma {ts : List Token} {ss : List Setting} (s : Setting) (rest : Row ts ss) :
      Row (s.tokens ++ .mark ',' :: ts) (s :: ss)

section Settings

variable {separable : Bool} {ts : List Token} {ss : List Setting}

/-- A setting is read wherever it starts, and a comma may be next. -/
theorem settingsFrom_tokens (separable : Bool) (s : Setting) (ts : List Token) :
    settingsFrom separable (s.tokens ++ ts) = (settingsFrom true ts).map (s :: ·) := by
  cases s with
  | rename wireName => rfl
  | default => exact settingsFrom.eq_def separable _
  | skip => exact settingsFrom.eq_def separable _

/-- What is in the row is read, whether or not a setting comes just before. -/
theorem Row.settingsFrom (h : Row ts ss) : settingsFrom separable ts = .ok ss := by
  induction h generalizing separable with
  | nil => rfl
  | bare s _ ih =>
    rw [settingsFrom_tokens, ih]
    rfl
  | comma s _ ih =>
    rw [settingsFrom_tokens]
    change (Declaration.settingsFrom false _).map _ = _
    rw [ih]
    rfl

/-- What is read is a row, perhaps with a comma in front of it that belongs to the setting just
before. -/
def Behind (separable : Bool) (ts : List Token) (ss : List Setting) : Prop :=
  Row ts ss ∨ separable = true ∧ ∃ rest, ts = .mark ',' :: rest ∧ Row rest ss

/-- Behind a setting, a row goes on. -/
theorem Behind.row (s : Setting) (h : Behind true ts ss) : Row (s.tokens ++ ts) (s :: ss) := by
  obtain h | ⟨-, rest, rfl, h⟩ := h
  · exact .bare s h
  · exact .comma s h

theorem row_of_settingsFrom (h : settingsFrom separable ts = .ok ss) : Behind separable ts ss := by
  fun_induction settingsFrom separable ts generalizing ss with
  | case1 =>
    obtain rfl := Except.ok.inj h
    exact .inl .nil
  | case2 separable c rest hc ih =>
    obtain ⟨hsep, hc⟩ := Bool.and_eq_true_iff.mp hc
    obtain rfl := eq_of_beq hc
    exact .inr ⟨hsep, rest, rfl, (ih h).resolve_right nofun⟩
  | case4 separable wireName rest ih =>
    obtain ⟨ss, hss, rfl⟩ := map_ok_iff.mp h
    exact .inl ((ih hss).row (.rename wireName))
  | case8 separable rest _ ih =>
    obtain ⟨ss, hss, rfl⟩ := map_ok_iff.mp h
    exact .inl ((ih hss).row .default)
  | case9 separable rest _ _ ih =>
    obtain ⟨ss, hss, rfl⟩ := map_ok_iff.mp h
    exact .inl ((ih hss).row .skip)
  -- all else is refused
  | _ => cases h

/-- The tokens that are read are those of a row. -/
theorem settings_ok_iff : settings ts = .ok ss ↔ Row ts ss :=
  ⟨fun h => (row_of_settingsFrom h).resolve_right nofun, Row.settingsFrom⟩

end Settings

/-! ## What settings amount to -/

/-- The name that a setting gives. -/
def Setting.wireName? : Setting → Option String
  | .rename wireName => some wireName
  | .default => none
  | .skip => none

namespace FieldOptions

/-- What settings one after another amount to. -/
structure Amounts (options : FieldOptions) (ss : List Setting) : Prop where
  /-- Of several names the last one counts. -/
  rename : options.rename = (ss.filterMap Setting.wireName?).getLast?
  default : options.default = true ↔ .default ∈ ss
  skip : options.skip = true ↔ .skip ∈ ss

variable {options : FieldOptions} {ss : List Setting}

/-- One more setting. -/
theorem Amounts.set (h : options.Amounts ss) (s : Setting) :
    (options.set s).Amounts (ss ++ [s]) := by
  obtain ⟨hrename, hdefault, hskip⟩ := h
  cases s with
  | rename wireName => exact ⟨by simp [FieldOptions.set, Setting.wireName?], by simpa, by simpa⟩
  | default =>
    have hsame : (ss ++ [Setting.default]).filterMap Setting.wireName? =
        ss.filterMap Setting.wireName? := by simp [Setting.wireName?]
    exact ⟨hsame ▸ hrename, by simp [FieldOptions.set], by simpa⟩
  | skip =>
    have hsame : (ss ++ [Setting.skip]).filterMap Setting.wireName? =
        ss.filterMap Setting.wireName? := by simp [Setting.wireName?]
    exact ⟨hsame ▸ hrename, by simpa, by simp [FieldOptions.set]⟩

/-- More settings, one after another. -/
theorem Amounts.foldl (h : options.Amounts ss) (more : List Setting) :
    (more.foldl FieldOptions.set options).Amounts (ss ++ more) := by
  induction more generalizing options ss with
  | nil => rwa [List.append_nil]
  | cons s more ih =>
    rw [List.append_cons]
    exact ih (h.set s)

theorem amounts_ofSettings (ss : List Setting) : (ofSettings ss).Amounts ss := by
  have hnone : none.Amounts [] := ⟨rfl, by simp [none], by simp [none]⟩
  exact hnone.foldl ss

/-- Settings amount to nothing else. -/
theorem eq_ofSettings_iff : options = ofSettings ss ↔ options.Amounts ss := by
  refine ⟨fun h => h ▸ amounts_ofSettings ss, fun h => ?_⟩
  obtain ⟨rename, default, skip⟩ := options
  have hof := amounts_ofSettings ss
  have hdefault := Bool.eq_iff_iff.mpr (h.default.trans hof.default.symm)
  have hskip := Bool.eq_iff_iff.mpr (h.skip.trans hof.skip.symm)
  rw [FieldOptions.mk.injEq]
  exact ⟨h.rename.trans hof.rename.symm, hdefault, hskip⟩

end FieldOptions

/-! ## Attributes -/

theorem Attribute.isWire_iff {a : Attribute} : a.isWire = true ↔ a.path = [.word "hessian"] := by
  unfold isWire
  split <;> simp_all

/-- The attribute lists settings. -/
def Attribute.Lists (a : Attribute) (ss : List Setting) : Prop :=
  ∃ tokens, a.arguments = .listed tokens ∧ Row tokens ss

/-- The attribute tells the name of a class and nothing else. -/
def Attribute.Names (a : Attribute) (className : String) : Prop :=
  a.arguments = .listed [.word "class", .mark '=', .text className]

section Attributes

variable {α : Type} {read : List Token → Except Fault α} {a : Attribute}

/-- An attribute is read by its tokens, so it has to have some. -/
theorem Attribute.read_ok_iff {x : α} :
    a.read read = .ok x ↔ ∃ tokens, a.arguments = .listed tokens ∧ read tokens = .ok x := by
  unfold Attribute.read
  split <;> simp_all

theorem Attribute.lists_iff {ss : List Setting} : a.read settings = .ok ss ↔ a.Lists ss := by
  simp only [Attribute.read_ok_iff, settings_ok_iff, Attribute.Lists]

/-- The tokens that are read are those of one name. -/
theorem classNameOfTokens_ok_iff {ts : List Token} {className : String} :
    classNameOfTokens ts = .ok className ↔ ts = [.word "class", .mark '=', .text className] := by
  constructor
  · intro h
    unfold classNameOfTokens at h
    split at h
    · cases h
    · split at h
      · split at h
        · simp_all
        all_goals cases h
      · cases h
    · cases h
  · rintro rfl
    rfl

theorem Attribute.names_iff {className : String} :
    a.read classNameOfTokens = .ok className ↔ a.Names className := by
  simp only [Attribute.read_ok_iff, classNameOfTokens_ok_iff, Attribute.Names]
  simp

/-- There are results for all elements if there is one for each. -/
theorem mapM_ok_iff {β : Type} {f : β → Except Fault α} {l : List β} {found : List α} :
    l.mapM f = .ok found ↔ List.Forall₂ (fun b x => f b = .ok x) l found := by
  constructor
  · intro h
    induction l generalizing found with
    | nil =>
      obtain rfl := Except.ok.inj h
      exact .nil
    | cons b l ih =>
      rw [List.mapM_cons] at h
      cases hb : f b with
      | error fault =>
        rw [hb] at h
        cases h
      | ok x =>
        rw [hb] at h
        obtain ⟨rest, hrest, rfl⟩ := map_ok_iff.mp h
        exact .cons hb (ih hrest)
  · intro h
    induction h with
    | nil => rfl
    | cons hb _ ih =>
      rw [List.mapM_cons, hb, ih]
      rfl

variable {attributes : List Attribute} {Says : Attribute → α → Prop}

/-- All wire attributes are read if each of them is. -/
theorem readWire_ok_iff (h : ∀ {a x}, a.read read = .ok x ↔ Says a x) {found : List α} :
    readWire read attributes = .ok found ↔
      List.Forall₂ Says (attributes.filter Attribute.isWire) found := by
  rw [readWire, mapM_ok_iff]
  simp only [h]

/-- Each element of a list stands in a relation if the list does to another one. -/
theorem exists_forall₂_iff {β : Type} {R : β → α → Prop} {l : List β} :
    (∃ found, List.Forall₂ R l found) ↔ ∀ b ∈ l, ∃ x, R b x := by
  constructor
  · rintro ⟨found, h⟩
    induction h with
    | nil => exact List.forall_mem_nil _
    | cons hb _ ih => exact List.forall_mem_cons.mpr ⟨⟨_, hb⟩, ih⟩
  · intro h
    induction l with
    | nil => exact ⟨[], .nil⟩
    | cons b l ih =>
      obtain ⟨⟨x, hx⟩, hl⟩ := List.forall_mem_cons.mp h
      obtain ⟨found, hfound⟩ := ih hl
      exact ⟨x :: found, .cons hx hfound⟩

/-- Attributes with another path may be anything. -/
theorem exists_readWire_iff (h : ∀ {a x}, a.read read = .ok x ↔ Says a x) :
    (∃ found, readWire read attributes = .ok found) ↔
      ∀ a ∈ attributes, a.path = [.word "hessian"] → ∃ x, Says a x := by
  simp only [readWire_ok_iff h, exists_forall₂_iff, List.mem_filter, Attribute.isWire_iff, and_imp]

end Attributes

/-- The attributes of a field are accepted exactly if what each wire attribute holds are settings,
each with at most one comma behind it, and the options are what all of them amount to.  Those of a
declaration are accepted exactly if each wire attribute holds the name of a class and nothing else,
and the last one counts, or else the name of the declared type.  Other attributes do not matter. -/
theorem attributes_ok_iff (attributes : List Attribute) (name : String) :
    ((∃ options, optionsOf attributes = .ok options) ↔
      ∀ a ∈ attributes, a.path = [.word "hessian"] → ∃ ss, a.Lists ss) ∧
    (∀ options, optionsOf attributes = .ok options ↔
      ∃ rows, List.Forall₂ Attribute.Lists (attributes.filter Attribute.isWire) rows ∧
        options.Amounts rows.flatten) ∧
    ((∃ className, classNameOf attributes name = .ok className) ↔
      ∀ a ∈ attributes, a.path = [.word "hessian"] → ∃ className, a.Names className) ∧
    ∀ className, classNameOf attributes name = .ok className ↔
      ∃ names, List.Forall₂ Attribute.Names (attributes.filter Attribute.isWire) names ∧
        className = names.getLast?.getD name := by
  refine ⟨?_, fun options => ?_, ?_, fun className => ?_⟩
  · rw [optionsOf, exists_map_ok_iff]
    exact exists_readWire_iff Attribute.lists_iff
  · rw [optionsOf, map_ok_iff]
    simp only [readWire_ok_iff Attribute.lists_iff, FieldOptions.eq_ofSettings_iff]
  · rw [classNameOf, exists_map_ok_iff]
    exact exists_readWire_iff Attribute.names_iff
  · rw [classNameOf, map_ok_iff]
    simp only [readWire_ok_iff Attribute.names_iff]

/-- Settings with and without commas in two attributes, a comment between these, and two names, of
which the second one counts.  A second comma behind a setting is not accepted. -/
theorem attributes_ok_renamed_twice :
    let wire (tokens : List Token) : Attribute := ⟨[.word "hessian"], .listed tokens⟩
    let rename (name : String) : List Token := [.word "rename", .mark '=', .text name]
    let skip : List Token := [.word "skip", .mark ',']
    let attributes := [wire (rename "a" ++ .mark ',' :: .word "default" :: skip),
      ⟨[.word "doc"], .assigned⟩, wire (rename "b")]
    optionsOf attributes = .ok ⟨some "b", true, true⟩ ∧
      ¬ ∃ options, optionsOf (wire (skip ++ [.mark ',']) :: attributes) = .ok options := by
  intro wire rename skip attributes
  have hfirst : (wire (rename "a" ++ .mark ',' :: .word "default" :: skip)).Lists
      [.rename "a", .default, .skip] :=
    ⟨_, rfl, .comma (.rename "a") (.bare .default (.comma .skip .nil))⟩
  have hlast : (wire (rename "b")).Lists [.rename "b"] := ⟨_, rfl, .bare (.rename "b") .nil⟩
  constructor
  · refine ((attributes_ok_iff attributes "").2.1 _).mpr
      ⟨[[.rename "a", .default, .skip], [.rename "b"]], .cons hfirst (.cons hlast .nil), ?_⟩
    exact ⟨rfl, by decide, by decide⟩
  · intro h
    obtain ⟨ss, tokens, htokens, hrow⟩ :=
      (attributes_ok_iff _ "").1.mp h _ List.mem_cons_self rfl
    obtain rfl := Arguments.listed.inj htokens
    cases settings_ok_iff.mpr hrow

end Hessian.Declaration
