import Hessian.Proofs.Decoder.Blame
import Hessian.Schema.Catalog

/-!
# What holds throughout a decoding session

A session goes on after a step that failed, from wherever that step left it.  `Decoder.Reached` are
the states that it can come to, those inside of nested groups of steps included.  Each step that is
run at one of them moves the session on as `Decoder.Advance` says and, if it fails, blames no offset
outside of the input from the cursor on (`Decoder.step_of_reached`).

## Main statements

* `Decoder.reached_runAll` : any steps one after another lead to a state that is reached.
* `Decoder.step_of_reached` : what a step does at a state that is reached.
-/

namespace Hessian

namespace Decoder

/-- An offset that the error names is not in front of the cursor nor behind the input. -/
def InBounds (s : Decoder) (e : Error) : Prop :=
  ∀ k, e.offset? = some k → s.offset ≤ k ∧ k ≤ s.offset + s.input.length

/-- No step blames an offset that is out of bounds. -/
theorem blame_inBounds : Blame InBounds where
  ahead := by
    rintro s t e ⟨octets, hi, ho⟩ h k hk
    obtain ⟨hle, hge⟩ := h k hk
    rw [hi, List.length_append]
    omega
  placeless h k hk := by
    rw [h] at hk
    cases hk
  notEnoughBuffer h k hk := by
    obtain rfl := Option.some.inj hk
    omega
  invalidUtf8 h k hk := by
    obtain rfl := Option.some.inj hk
    omega
  unexpected _ k hk := by
    obtain rfl := Option.some.inj hk
    omega
  fieldCount h k hk := by
    obtain rfl := Option.some.inj hk
    obtain ⟨b, hb, -⟩ := h.exists_octet
    obtain ⟨hlt, -⟩ := List.getElem?_eq_some_iff.mp hb
    omega
  reference k hk := by
    obtain rfl := Option.some.inj hk
    omega

variable {ι : Type} (Γ : Schema ι)

namespace Step

open Decode

/-- The next step starts where the step before it ended, however that was. -/
theorem runAll_cons (step : Step ι) (rest : List (Step ι)) (s : Decoder) :
    ∃ report, runAll Γ (step :: rest) s =
      (do return report :: (← runAll Γ rest) : Decode _) (Outcome.state (run Γ step s)) := by
  rw [runAll]
  cases h : run Γ step s with
  | ok answer t => exact ⟨t.report (.ok answer), by simp only [h, Outcome.state]⟩
  | error e t => exact ⟨t.report (.error e), by simp only [h, Outcome.state]⟩

/-- Running steps never fails, since the failures of the steps are reported. -/
theorem runAll_ok (steps : List (Step ι)) (s : Decoder) :
    ∃ reports t, runAll Γ steps s = .ok reports t := by
  induction steps generalizing s with
  | nil => exact ⟨[], s, rfl⟩
  | cons step rest ih =>
    obtain ⟨report, hcons⟩ := runAll_cons Γ step rest s
    obtain ⟨reports, t, h⟩ := ih (Outcome.state (run Γ step s))
    exact ⟨report :: reports, t, hcons.trans (bind_ok h)⟩

theorem state_runAll_cons (step : Step ι) (rest : List (Step ι)) (s : Decoder) :
    Outcome.state (runAll Γ (step :: rest) s) =
      Outcome.state (runAll Γ rest (Outcome.state (run Γ step s))) := by
  obtain ⟨report, hcons⟩ := runAll_cons Γ step rest s
  obtain ⟨reports, t, h⟩ := runAll_ok Γ rest (Outcome.state (run Γ step s))
  rw [hcons, bind_ok h, h]
  rfl

mutual

/-- A step moves the session on, whether it succeeds or fails. -/
theorem advance_run : (step : Step ι) → (s : Decoder) →
    s.Advance (Outcome.state (run Γ step s))
  | .datum shape, s => ((Shape.reader_read Γ shape).toRegular.recording.map _).advance s
  | .null, s => (reader_null.bind fun _ => regular_pure _).advance s
  | .boolean, s => (reader_boolean.map _).advance s
  | .int, s => (reader_int.map _).advance s
  | .long, s => (reader_long.map _).advance s
  | .double, s => (reader_double.map _).advance s
  | .binary, s => (reader_binary.map _).advance s
  | .date, s => (reader_date.map _).advance s
  | .string, s => (reader_string.map _).advance s
  | .rawString, s => (reader_rawString.map _).advance s
  | .value, s => (reader_value.map _).advance s
  | .skip, s => (reader_skip.bind fun _ => regular_pure _).advance s
  | .status, s => .refl s
  | .nextIsNull, s => .refl s
  | .window _ _, s => .refl s
  | .listBegin, s => (reader_listBegin.map _).advance s
  | .mapBegin, s => (reader_mapBegin.map _).advance s
  | .objectBegin, s => (reader_objectBegin.map _).advance s
  | .objectEnd, s => .refl s
  | .listOf item, s => by
    have h := Shape.reader_read Γ item
    exact ((reader_listOf h.toRegular h.productive).bind fun _ => regular_pure _).advance s
  | .mapOfText, s => by
    have hmap := reader_mapOf reader_string.toRegular reader_string.productive
      reader_value.toRegular
    exact (hmap.bind fun _ => regular_pure _).advance s
  | .definitions, s => .refl s
  | .nested steps, s => by
    rw [run, map_eq_pure_bind]
    by_cases hle : s.maxDepth ≤ s.depth
    · rw [bind_error (nested_of_le hle)]
      exact .refl s
    · obtain ⟨reports, t, ht⟩ := runAll_ok Γ steps s.enter
      rw [bind_ok (nested_ok (Nat.not_le.mp hle) ht)]
      have h := advance_runAll steps s.enter
      rw [ht] at h
      exact h.leave

theorem advance_runAll : (steps : List (Step ι)) → (s : Decoder) →
    s.Advance (Outcome.state (runAll Γ steps s))
  | [], s => .refl s
  | step :: rest, s => by
    rw [state_runAll_cons]
    exact (advance_run step s).trans (advance_runAll rest _)

end

/-- The error of a step is blamed as it should be. -/
theorem blames_run {P : Decoder → Error → Prop} (hP : Blame P) (step : Step ι)
    {place : Decoder} : Blames P place (run Γ step) := by
  have hend : Blames P place (pure .done : Decode (Answer ι)) := .pure _
  cases step with
  | datum shape => exact ((Shape.blames_read hP Γ shape).recording).map _
  | null => exact (blames_null hP).bind fun _ => hend
  | boolean => exact (blames_boolean hP).map _
  | int => exact (blames_int hP).map _
  | long => exact (blames_long hP).map _
  | double => exact (blames_double hP).map _
  | binary => exact (blames_binary hP).map _
  | date => exact (blames_date hP).map _
  | string => exact (blames_string hP).map _
  | rawString => exact (blames_rawString hP).map _
  | value => exact (blames_value hP).map _
  | skip => exact (blames_skip hP).bind fun _ => hend
  | status => exact ⟨fun hs h => by cases h; exact hs, fun _ h => nomatch h⟩
  | nextIsNull => exact ⟨fun hs h => by cases h; exact hs, fun _ h => nomatch h⟩
  | window distance length => exact ⟨fun hs h => by cases h; exact hs, fun _ h => nomatch h⟩
  | listBegin => exact (blames_listBegin hP).map _
  | mapBegin => exact (blames_mapBegin hP).map _
  | objectBegin => exact (blames_objectBegin hP).map _
  | objectEnd => exact hend
  | listOf item =>
    exact (Blames.listOf hP fun _ => Shape.blames_read hP Γ item).bind
      fun _ => .pure _
  | mapOfText =>
    exact (Blames.mapOf hP (fun _ => blames_string hP) fun _ => blames_value hP).bind
      fun _ => .pure _
  | definitions => exact ⟨fun hs h => by cases h; exact hs, fun _ h => nomatch h⟩
  | nested steps =>
    refine .map _ (.nested hP ⟨fun {s reports t} hs h => ?_, fun {s e t} _ h => ?_⟩)
    · have hadvance := advance_runAll Γ steps s
      rw [h] at hadvance
      exact hs.trans hadvance.read
    · obtain ⟨reports, u, hok⟩ := runAll_ok Γ steps s
      rw [hok] at h
      cases h

end Step

/-! ## States that are reached -/

/-- The states of a session that began in a certain state, before and after steps that it runs and
inside of the groups of steps that it runs one level deeper. -/
inductive Reached (s : Decoder) : Decoder → Prop
  | start : Reached s s
  | step {t : Decoder} (h : Reached s t) (step : Step ι) :
    Reached s (Outcome.state (step.run Γ t))
  | enter {t : Decoder} (h : Reached s t) (hd : t.depth < t.maxDepth) : Reached s t.enter

/-- Any steps one after another lead to a state that is reached. -/
theorem reached_runAll {s t : Decoder} (h : Reached Γ s t) (steps : List (Step ι)) :
    Reached Γ s (Outcome.state (Step.runAll Γ steps t)) := by
  induction steps generalizing t with
  | nil => exact h
  | cons step rest ih =>
    rw [Step.state_runAll_cons]
    exact ih (h.step step)

/-- The session is always somewhere in its input. -/
theorem ahead_of_reached {s t : Decoder} (h : Reached Γ s t) : s.Ahead t := by
  induction h with
  | start => exact .refl s
  | step _ step ih => exact ih.trans (step.advance_run Γ _).read
  | enter _ _ ih => exact ih

/-- Wherever a session has come to, a step moves the cursor over octets that are then gone from the
input, adds to the ends of the tables, counts containers up and comes back to its depth.  The offset
and the octets that are left make up the input, and an offset that an error names lies between the
cursor and the end of the input. -/
theorem step_of_reached {input : Bytes} {maxDepth : Nat} {s : Decoder}
    (hs : Reached Γ (.start input maxDepth) s) (step : Step ι) :
    let t := Outcome.state (step.run Γ s)
    s.Advance t ∧ s.offset ≤ t.offset ∧ t.offset + t.input.length = input.length ∧
      ∀ e k, step.run Γ s = .error e t → e.offset? = some k →
        s.offset ≤ k ∧ k ≤ input.length := by
  intro t
  have htotal : ∀ {u}, Reached Γ (.start input maxDepth) u →
      u.offset + u.input.length = input.length := by
    intro u hu
    obtain ⟨octets, hi, ho⟩ := ahead_of_reached Γ hu
    have hi : input.length = octets.length + u.input.length :=
      (congrArg List.length hi).trans List.length_append
    have ho : u.offset = 0 + octets.length := ho
    omega
  have hadvance : s.Advance t := step.advance_run Γ s
  refine ⟨hadvance, ?_, htotal (hs.step step), fun e k he hk => ?_⟩
  · obtain ⟨octets, -, ho⟩ := hadvance.read
    omega
  · have hbounds := (step.blames_run Γ blame_inBounds).error (.refl s) he k hk
    rwa [htotal hs] at hbounds

set_option maxRecDepth 1000 in
-- the run is unfolded through all the layers of the reader
/-- A reference to a container that never started, behind an int. -/
theorem step_of_reached_ref :
    let s : Decoder := { input := [0x51, 0x95], offset := 1, maxDepth := 1 }
    Reached Catalog.schema (.start [0x90, 0x51, 0x95] 1) s ∧
      ∃ t, Step.run Catalog.schema .value s = .error (.invalidReference .value 5 1) t ∧
        t.offset + t.input.length = 3 ∧ s.offset ≤ 1 ∧ 1 ≤ 3 := by
  intro s
  have hs : Reached Catalog.schema (.start [0x90, 0x51, 0x95] 1) s := Reached.start.step .int
  have he : Step.run Catalog.schema .value s = .error (.invalidReference .value 5 1)
      { input := [], offset := 3, maxDepth := 1 } := by rfl
  obtain ⟨-, -, htotal, hoffset⟩ := step_of_reached Catalog.schema hs .value
  rw [he] at htotal
  exact ⟨hs, _, he, htotal, hoffset _ _ he rfl⟩

end Decoder

end Hessian
