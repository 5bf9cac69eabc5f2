import Hessian.Json.Conversion
import Hessian.Proofs.Value.Measure

/-!
# Which values have a JSON form

JSON has no references, no doubles but the finite ones, and no keys but texts.  A value has a JSON
form if there is nothing of the kind in it at any depth: `Value.Representable` says what that is for
each value by itself.

If there is, the conversion fails at the first of it.  It goes along `Value.jsonWalk`: a container
before its parts, the parts in order, and the key of an entry before the value.  A key is looked at
as a whole, so what is inside of it comes no more into question.

## Main statements

* `Value.toJson_failsFirst` : the conversion fails with the first fault of the walk, if any.
* `Value.toJson_representable` : when a value has a JSON form, and with which error it has none.
-/

namespace Hessian

namespace Value

/-- Whether a value has a text as a key of a JSON object. -/
def isJsonKey : Value → Bool
  | .string _ | .int _ | .long _ | .boolean _ => true
  | _ => false

/-- JSON has something for the value itself and for its keys, whatever its other parts are. -/
def Representable : Value → Prop
  | .ref _ => False
  | .double d => d.isFinite = true
  | .map _ entries => ∀ entry ∈ entries, entry.1.isJsonKey = true
  | _ => True

/-! ## The walk -/

/-- Where the conversion comes along. -/
inductive JsonStep where
  | value (v : Value)
  | key (k : Value)

/-- Why there is no way on. -/
def JsonStep.fault? : JsonStep → Option DecodeFault
  | .value (.ref index) => some (.jsonReference index.toNat)
  | .value (.double d) => if d.isFinite then none else some (.jsonDouble d)
  | .value _ => none
  | .key k => if k.isJsonKey then none else some (.jsonKey k.kind)

mutual

/-- The values in a value, and the keys of its entries in front of theirs. -/
def jsonWalk : Value → List JsonStep
  | .list type items => .value (.list type items) :: jsonWalkItems items
  | .map type entries => .value (.map type entries) :: jsonWalkEntries entries
  | .object c fields => .value (.object c fields) :: jsonWalkItems fields
  | v => [.value v]

def jsonWalkItems : List Value → List JsonStep
  | [] => []
  | v :: vs => jsonWalk v ++ jsonWalkItems vs

def jsonWalkEntries : Entries → List JsonStep
  | [] => []
  | (key, v) :: rest => .key key :: (jsonWalk v ++ jsonWalkEntries rest)

end

/-! ## The first fault -/

variable {α β : Type}

/-- The conversion fails with the first fault of the walk, and succeeds if it has none. -/
def FailsFirst (walk : List JsonStep) (x : Except DecodeFault α) : Prop :=
  match walk.findSome? JsonStep.fault? with
  | none => ∃ a, x = .ok a
  | some fault => x = .error fault

theorem failsFirst_ok (a : α) : FailsFirst [] (.ok a) := ⟨a, rfl⟩

/-- What is converted second is converted if the first conversion succeeds. -/
theorem FailsFirst.bind {first second : List JsonStep} {x : Except DecodeFault α}
    {f : α → Except DecodeFault β} (hx : FailsFirst first x) (hf : ∀ a, FailsFirst second (f a)) :
    FailsFirst (first ++ second) (x >>= f) := by
  unfold FailsFirst at hx ⊢
  rw [List.findSome?_append]
  cases hfirst : first.findSome? JsonStep.fault? with
  | none =>
    rw [hfirst] at hx
    obtain ⟨a, rfl⟩ := hx
    exact hf a
  | some fault =>
    rw [hfirst] at hx
    obtain rfl := hx
    exact rfl

/-- What is made of the result makes no difference. -/
theorem FailsFirst.map {walk : List JsonStep} {x : Except DecodeFault α} (hx : FailsFirst walk x)
    (f : α → β) : FailsFirst walk (x >>= fun a => pure (f a)) :=
  List.append_nil walk ▸ hx.bind fun a => failsFirst_ok (f a)

/-- A container is no fault by itself. -/
theorem FailsFirst.cons {step : JsonStep} (hstep : step.fault? = none) {walk : List JsonStep}
    {x : Except DecodeFault α} (hx : FailsFirst walk x) : FailsFirst (step :: walk) x := by
  unfold FailsFirst at hx ⊢
  rwa [List.findSome?_cons, hstep]

theorem jsonKey_failsFirst (k : Value) : FailsFirst [.key k] k.jsonKey := by
  cases k <;> first | exact rfl | exact ⟨_, rfl⟩

theorem double_failsFirst (d : Double) : FailsFirst [.value (.double d)] (toJson (.double d)) := by
  unfold FailsFirst toJson
  rw [List.findSome?_singleton, JsonStep.fault?]
  cases d.isFinite with
  | true => exact ⟨_, rfl⟩
  | false => exact rfl

mutual

theorem toJson_failsFirst : (v : Value) → v.Everywhere Filled → FailsFirst v.jsonWalk v.toJson
  | .null, _ => ⟨_, rfl⟩
  | .boolean _, _ => ⟨_, rfl⟩
  | .int _, _ => ⟨_, rfl⟩
  | .long _, _ => ⟨_, rfl⟩
  | .date _, _ => ⟨_, rfl⟩
  | .binary _, _ => ⟨_, rfl⟩
  | .string _, _ => ⟨_, rfl⟩
  | .ref _, _ => rfl
  | .double d, _ => double_failsFirst d
  | .list _ items, h => .cons rfl ((toJsonItems_failsFirst items h.2).map _)
  | .map _ entries, h => .cons rfl ((toMembers_failsFirst entries h.2 []).map _)
  | .object c fields, h => .cons rfl
    ((fieldsToMembers_failsFirst c.fieldNames fields h.1 h.2 []).map _)

theorem toJsonItems_failsFirst : (vs : List Value) → EverywhereItems Filled vs →
    FailsFirst (jsonWalkItems vs) (toJsonItems vs)
  | [], _ => failsFirst_ok []
  | v :: vs, h => (toJson_failsFirst v h.1).bind fun _ => (toJsonItems_failsFirst vs h.2).map _

theorem toMembers_failsFirst : (entries : Entries) → EverywhereEntries Filled entries →
    (found : Members) → FailsFirst (jsonWalkEntries entries) (toMembers found entries)
  | [], _, found => failsFirst_ok found
  | (key, v) :: rest, h, found =>
    (jsonKey_failsFirst key).bind fun k => (toJson_failsFirst v h.2.1).bind fun j =>
      toMembers_failsFirst rest h.2.2 (found.insert k j)

theorem fieldsToMembers_failsFirst : (names : List String) → (vs : List Value) →
    vs.length = names.length → EverywhereItems Filled vs → (found : Members) →
    FailsFirst (jsonWalkItems vs) (fieldsToMembers found names vs)
  | [], [], _, _, found => failsFirst_ok found
  | name :: names, v :: vs, hl, h, found =>
    (toJson_failsFirst v h.1).bind fun j =>
      fieldsToMembers_failsFirst names vs (Nat.succ.inj hl) h.2 (found.insert name j)

end

/-! ## Walks without a fault -/

/-- There is a way on at each step. -/
def Faultless (walk : List JsonStep) : Prop := ∀ step ∈ walk, step.fault? = none

theorem faultless_append {first second : List JsonStep} :
    Faultless (first ++ second) ↔ Faultless first ∧ Faultless second := List.forall_mem_append

theorem faultless_cons {step : JsonStep} {walk : List JsonStep} :
    Faultless (step :: walk) ↔ step.fault? = none ∧ Faultless walk := List.forall_mem_cons

/-- Only what comes behind a step that is no fault is in question. -/
theorem faultless_behind {step : JsonStep} (hstep : step.fault? = none) {walk : List JsonStep} :
    Faultless (step :: walk) ↔ Faultless walk := faultless_cons.trans (and_iff_right hstep)

theorem faultless_singleton {step : JsonStep} : Faultless [step] ↔ step.fault? = none :=
  List.forall_mem_singleton

theorem key_faultless {k : Value} : (JsonStep.key k).fault? = none ↔ k.isJsonKey = true := by
  rw [JsonStep.fault?]
  split <;> simp_all

theorem double_faultless {d : Double} :
    (JsonStep.value (.double d)).fault? = none ↔ d.isFinite = true := by
  rw [JsonStep.fault?]
  split <;> simp_all

/-- A key that has a text has nothing inside. -/
theorem representable_of_isJsonKey {k : Value} (h : k.isJsonKey = true) :
    k.Everywhere Representable := by
  cases k <;> trivial

mutual

/-- Nothing is found on the walk if JSON has something for everything. -/
theorem faultless_jsonWalk : (v : Value) → (Faultless v.jsonWalk ↔ v.Everywhere Representable)
  | .list _ items => (faultless_behind rfl).trans
    ((faultless_jsonWalkItems items).trans (and_iff_right trivial).symm)
  | .map _ entries => (faultless_behind rfl).trans (faultless_jsonWalkEntries entries)
  | .object _ fields => (faultless_behind rfl).trans
    ((faultless_jsonWalkItems fields).trans (and_iff_right trivial).symm)
  | .double _ => faultless_singleton.trans double_faultless
  | .ref _ => iff_of_false (fun h => nomatch faultless_singleton.mp h) id
  | .null => iff_of_true (faultless_singleton.mpr rfl) trivial
  | .boolean _ => iff_of_true (faultless_singleton.mpr rfl) trivial
  | .int _ => iff_of_true (faultless_singleton.mpr rfl) trivial
  | .long _ => iff_of_true (faultless_singleton.mpr rfl) trivial
  | .date _ => iff_of_true (faultless_singleton.mpr rfl) trivial
  | .binary _ => iff_of_true (faultless_singleton.mpr rfl) trivial
  | .string _ => iff_of_true (faultless_singleton.mpr rfl) trivial

theorem faultless_jsonWalkItems : (vs : List Value) →
    (Faultless (jsonWalkItems vs) ↔ EverywhereItems Representable vs)
  | [] => iff_of_true (List.forall_mem_nil _) trivial
  | v :: vs => by
    rw [jsonWalkItems, faultless_append, faultless_jsonWalk v, faultless_jsonWalkItems vs]
    rfl

/-- The keys are those of the map itself. -/
theorem faultless_jsonWalkEntries : (entries : Entries) →
    (Faultless (jsonWalkEntries entries) ↔
      (∀ entry ∈ entries, entry.1.isJsonKey = true) ∧ EverywhereEntries Representable entries)
  | [] => iff_of_true (List.forall_mem_nil _) ⟨List.forall_mem_nil _, trivial⟩
  | (key, v) :: rest => by
    rw [jsonWalkEntries, faultless_cons, faultless_append, faultless_jsonWalk v,
      faultless_jsonWalkEntries rest, key_faultless, List.forall_mem_cons]
    constructor
    · rintro ⟨hkey, hv, hkeys, hrest⟩
      exact ⟨⟨hkey, hkeys⟩, representable_of_isJsonKey hkey, hv, hrest⟩
    · rintro ⟨⟨hkey, hkeys⟩, -, hv, hrest⟩
      exact ⟨hkey, hv, hkeys, hrest⟩

end

/-! ## When there is a JSON form -/

section FailsFirst

variable {walk : List JsonStep} {x : Except DecodeFault α}

theorem FailsFirst.ok_iff (h : FailsFirst walk x) : (∃ a, x = .ok a) ↔ Faultless walk := by
  unfold FailsFirst at h
  rw [Faultless, ← List.findSome?_eq_none_iff]
  cases hw : walk.findSome? JsonStep.fault? with
  | none =>
    rw [hw] at h
    exact iff_of_true h rfl
  | some fault =>
    rw [hw] at h
    exact iff_of_false (fun ⟨a, ha⟩ => nomatch h.symm.trans ha) nofun

theorem FailsFirst.error_iff (h : FailsFirst walk x) (fault : DecodeFault) :
    x = .error fault ↔ walk.findSome? JsonStep.fault? = some fault := by
  unfold FailsFirst at h
  cases hw : walk.findSome? JsonStep.fault? with
  | none =>
    rw [hw] at h
    obtain ⟨a, ha⟩ := h
    exact iff_of_false (fun he => nomatch ha.symm.trans he) nofun
  | some first =>
    rw [hw] at h
    rw [h, Except.error.injEq, Option.some.injEq]

end FailsFirst

/-- A value whose class instances have a value for every field has a JSON form if and only if
nothing in it, at any depth, is a reference, a double that is not finite, or a key that is no
string, integer or boolean.  Otherwise the error is that of the first such thing on the walk. -/
theorem toJson_representable {v : Value} (h : v.Everywhere Filled) :
    ((∃ j, v.toJson = .ok j) ↔ v.Everywhere Representable) ∧
      ∀ fault, v.toJson = .error fault ↔ ∃ before step behind,
        v.jsonWalk = before ++ step :: behind ∧ step.fault? = some fault ∧ Faultless before := by
  have hwalk := toJson_failsFirst v h
  refine ⟨hwalk.ok_iff.trans (faultless_jsonWalk v), fun fault => ?_⟩
  rw [hwalk.error_iff, List.findSome?_eq_some_iff]
  rfl

/-- A map has a list for its second key.  The reference behind the first key comes before it. -/
theorem toJson_representable_map :
    let v : Value := .map none
      [(.string "a", .list none [.null, .ref 3]), (.list none [.ref 4], .double .zero)]
    v.Everywhere Filled ∧ ¬ v.Everywhere Representable ∧ (¬ ∃ j, v.toJson = .ok j) ∧
      v.toJson = .error (.jsonReference 3) := by
  intro v
  have hfilled : v.Everywhere Filled := by
    unfold v
    simp [Everywhere, EverywhereItems, EverywhereEntries, Filled]
  obtain ⟨hok, herror⟩ := toJson_representable hfilled
  have hnot : ¬ v.Everywhere Representable := by
    unfold v
    simp [Everywhere, EverywhereItems, EverywhereEntries, Representable]
  refine ⟨hfilled, hnot, fun hv => hnot (hok.mp hv), (herror _).mpr ?_⟩
  refine ⟨[.value v, .key (.string "a"), .value (.list none [.null, .ref 3]), .value .null],
    .value (.ref 3), _, rfl, rfl, ?_⟩
  simp [Faultless, v, JsonStep.fault?, isJsonKey]

end Value

end Hessian
