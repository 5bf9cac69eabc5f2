import Hessian.Proofs.Encoder.Lawful
import Hessian.Schema.Catalog

/-!
# What holds throughout an encoding session

A session goes on after a step that failed, from wherever that step left it; nothing is taken back.
`Encoder.Reached` are the states that it can come to, those inside of nested groups of steps
included, with how many headers of containers have been begun by then.  Each step that is run at
one of them moves the session on as `Encoder.Advance` says and keeps its tables and its count
consistent.

The octets that were in the buffer before the session make no difference to it: all it does is the
same behind them, and only the sizes that it reports count them, `Encoder.Answer.onto`.

## Main statements

* `Encoder.reached_runAll` : any steps one after another lead to a state that is reached.
* `Encoder.session_consistent` : what a session keeps, and that its buffer makes no difference.
-/

namespace Hessian

namespace Encoder

/-! ## Reports on a longer buffer -/

mutual

/-- The answer on a buffer with `k` more octets in front. -/
def Answer.onto (k : Nat) : Answer → Answer
  | .reports rs => .reports (Answer.reportsOnto k rs)
  | .done => .done
  | .index n => .index n
  | .index? n => .index? n
  | .definitions cs => .definitions cs

/-- The reports on a buffer with `k` more octets in front. -/
def Answer.reportsOnto (k : Nat) : List (Report Answer) → List (Report Answer)
  | [] => []
  | r :: rest => Answer.reportOnto k r :: Answer.reportsOnto k rest

/-- The report on a buffer with `k` more octets in front, which the sizes count. -/
def Answer.reportOnto (k : Nat) : Report Answer → Report Answer
  | ⟨result, start, size, ts, cs, n⟩ =>
    ⟨Answer.resultOnto k result, k + start, k + size, ts, cs, n⟩

/-- The result on a buffer with `k` more octets in front. -/
def Answer.resultOnto (k : Nat) : Except Error Answer → Except Error Answer
  | .ok answer => .ok (Answer.onto k answer)
  | .error e => .error e

end

/-! ## Steps -/

namespace Step

open Encode

variable {ι : Type} (Γ : Schema ι)

/-- The report on a step that is run at a state. -/
def reportOf (step : Step ι) (e : Encoder) : Report Answer :=
  match run Γ step e with
  | .ok answer e' => report e e' (.ok answer)
  | .error err e' => report e e' (.error err)

/-- The next step starts where the step before it ended, however that was. -/
theorem runAll_cons (step : Step ι) (rest : List (Step ι)) (e : Encoder) :
    runAll Γ (step :: rest) e =
      (do return reportOf Γ step e :: (← runAll Γ rest) : Encode _) (after (run Γ step) e) := by
  cases h : run Γ step e <;> simp only [runAll, reportOf, after, h]

theorem after_runAll_cons (step : Step ι) (rest : List (Step ι)) (e : Encoder) :
    after (runAll Γ (step :: rest)) e = after (runAll Γ rest) (after (run Γ step) e) := by
  rw [after, runAll_cons]
  cases hrest : runAll Γ rest (after (run Γ step) e) with
  | ok reports u =>
    rw [bind_ok hrest, after_of_ok hrest]
    rfl
  | error err u => rw [bind_error hrest, after_of_error hrest]

/-- A report counts the octets in front, and so do the reports in it. -/
theorem reportOf_onto {step : Step ι} (h : Uniform Answer.onto (run Γ step)) (e : Encoder)
    (buffer : Bytes) :
    reportOf Γ step (e.onto buffer) = Answer.reportOnto buffer.length (reportOf Γ step e) := by
  have hsize : ∀ e : Encoder, (e.onto buffer).output.size = buffer.length + e.output.size :=
    fun e => Array.size_append
  have hu := h e buffer
  unfold reportOf
  cases hs : run Γ step e with
  | ok answer u =>
    rw [hs] at hu
    rw [hu]
    simp only [moved, report, Answer.reportOnto, Answer.resultOnto, hsize]
    rfl
  | error err u =>
    rw [hs] at hu
    rw [hu]
    simp only [moved, report, Answer.reportOnto, Answer.resultOnto, hsize]
    rfl

theorem lawful_runAll_cons {step : Step ι} {rest : List (Step ι)}
    (hs : Lawful Answer.onto (run Γ step)) (hr : Lawful Answer.reportsOnto (runAll Γ rest)) :
    Lawful Answer.reportsOnto (runAll Γ (step :: rest)) where
  regular e := by
    have h := (hs.regular e).trans ((hr.regular.bind fun reports =>
      regular_pure (reportOf Γ step e :: reports)) (after (run Γ step) e))
    rwa [after, ← runAll_cons] at h
  keeps e he := by
    have h := (hr.keeps.bind fun reports => (lawful_pure (reportOf Γ step e :: reports)).keeps)
      (after (run Γ step) e) (hs.keeps e he)
    rwa [after, ← runAll_cons] at h
  uniform e buffer := by
    have hstep : after (run Γ step) (e.onto buffer) = (after (run Γ step) e).onto buffer := by
      have hu := hs.uniform e buffer
      unfold after
      rw [hu]
      cases run Γ step e <;> rfl
    have hu := hr.uniform (after (run Γ step) e) buffer
    rw [runAll_cons, runAll_cons, hstep, reportOf_onto Γ hs.uniform]
    cases hrest : runAll Γ rest (after (run Γ step) e) with
    | ok reports u =>
      rw [hrest] at hu
      rw [bind_ok hu, bind_ok hrest]
      rfl
    | error err u =>
      rw [hrest] at hu
      rw [bind_error hu, bind_error hrest]
      rfl
  counted e := by
    obtain ⟨n, hn⟩ := hs.counted e
    obtain ⟨m, hm⟩ := (hr.counted.bind fun reports =>
      (lawful_pure (reportOf Γ step e :: reports)).counted) (after (run Γ step) e)
    exact ⟨n + m, hn.next hm (runAll_cons Γ step rest e)⟩

/-- A step that answers nothing is as lawful as what it does. -/
theorem lawful_done {write : Encode Unit} (h : Lawful fixed write) :
    Lawful Answer.onto (do write; return .done) :=
  h.bind fun _ => lawful_look (f := fun _ => Answer.done) (fun _ _ => rfl) fun _ _ => rfl

mutual

/-- Every step of a session is lawful. -/
theorem lawful_run : (step : Step ι) → Lawful Answer.onto (run Γ step)
  | .datum d => lawful_done (d.lawful_write Γ)
  | .null => lawful_done null_undone.lawful
  | .boolean b => lawful_done (boolean_undone b).lawful
  | .int n => lawful_done (lawful_int n)
  | .long n => lawful_done (long_undone n).lawful
  | .double d => lawful_done (double_undone d).lawful
  | .binary bytes => lawful_done (binary_undone bytes).lawful
  | .date millis => lawful_done (date_undone millis).lawful
  | .string s => lawful_done (lawful_string s)
  | .rawString bytes => lawful_done (lawful_rawString bytes)
  | .ref index => lawful_done (lawful_ref index)
  | .list items => lawful_done (lawful_value (.list none items))
  | .map pairs => lawful_done (lawful_value (.map none pairs))
  | .definition c => (lawful_definition c).map Answer.index fun _ _ => rfl
  | .objectBegin c => lawful_done (lawful_objectBegin c)
  | .objectEnd => lawful_done (lawful_pure ())
  | .openListBegin type => lawful_done (lawful_header (.openList type))
  | .openListEnd => lawful_done (lawful_form _ _)
  | .listBegin type length => lawful_done (lawful_listBegin type length)
  | .listEnd => lawful_done (lawful_pure ())
  | .mapBegin type => lawful_done (lawful_mapBegin type)
  | .mapEnd => lawful_done (lawful_form _ _)
  | .typeIndex name =>
    lawful_look (f := fun e => Answer.index? (e.typeIndex? name)) (fun _ _ => rfl) fun _ _ => rfl
  | .definitionIndex c =>
    lawful_look (f := fun e => Answer.index? (e.definitionIndex? c)) (fun _ _ => rfl) fun _ _ => rfl
  | .definitions =>
    lawful_look (f := fun e => Answer.definitions e.definitions) (fun _ _ => rfl) fun _ _ => rfl
  | .nested steps => (lawful_runAll steps).nested.map Answer.reports fun _ _ => rfl

/-- So are steps one after another. -/
theorem lawful_runAll : (steps : List (Step ι)) → Lawful Answer.reportsOnto (runAll Γ steps)
  | [] => lawful_look (f := fun _ => []) (fun _ _ => rfl) fun _ _ => rfl
  | step :: rest => lawful_runAll_cons Γ (lawful_run step) (lawful_runAll rest)

end

end Step

/-! ## States that are reached -/

variable {ι : Type} (Γ : Schema ι)

/-- The states of a session that began in a certain state, before and after steps that it runs and
inside of the groups of steps that it runs one level deeper, with the number of headers of
containers that have been begun by then. -/
inductive Reached (start : Encoder) : Nat → Encoder → Prop
  | start : Reached start 0 start
  | step {n k : Nat} {e : Encoder} (h : Reached start n e) (step : Step ι)
    (hk : Encode.Begins (step.run Γ) e k) : Reached start (n + k) (Encode.after (step.run Γ) e)
  | enter {n : Nat} {e : Encoder} (h : Reached start n e) (hd : e.depth < e.maxDepth) :
    Reached start n e.enter

/-- Any steps one after another lead to a state that is reached. -/
theorem reached_runAll {start e : Encoder} {n : Nat} (h : Reached Γ start n e)
    (steps : List (Step ι)) :
    ∃ m, Reached Γ start m (Encode.after (Step.runAll Γ steps) e) := by
  induction steps generalizing e n with
  | nil => exact ⟨n, h⟩
  | cons step rest ih =>
    obtain ⟨k, hk⟩ := (step.lawful_run Γ).counted e
    rw [Step.after_runAll_cons]
    exact ih (h.step step hk)

/-- Wherever a session has come to, its tables and its count are consistent, and every step keeps
them so, moves the session on and comes back to its depth, whether it succeeds or fails.  And the
session does the same whatever was in its buffer: the same answers, but for the octets in front that
the sizes count, and the same octets behind those. -/
theorem session_consistent (buffer : Bytes) (maxDepth : Nat) :
    (∀ (n : Nat) (e : Encoder), Reached Γ (.start buffer maxDepth) n e → e.Consistent n ∧
      ∀ step : Step ι, ∃ k, Encode.Begins (step.run Γ) e k ∧
        e.Advance (Encode.after (step.run Γ) e) ∧
        (Encode.after (step.run Γ) e).Consistent (n + k)) ∧
    ∀ steps : List (Step ι), Step.runAll Γ steps (.start buffer maxDepth) =
      Encode.moved Answer.reportsOnto buffer (Step.runAll Γ steps (.start [] maxDepth)) := by
  have hreached : ∀ {n e}, Reached Γ (.start buffer maxDepth) n e → e.Consistent n := by
    intro n e h
    have ht : e.Tabled ∧ e.containers = n := by
      induction h with
      | start => exact ⟨⟨List.nodup_nil, List.nodup_nil⟩, rfl⟩
      | step _ step hk ih =>
        exact ⟨(step.lawful_run Γ).keeps _ ih.1, by rw [hk.containers, ih.2]⟩
      | enter _ _ ih => exact ⟨⟨ih.1.types, ih.1.definitions⟩, ih.2⟩
    exact ht.2 ▸ ht.1.consistent
  constructor
  · intro n e h
    refine ⟨hreached h, fun step => ?_⟩
    obtain ⟨k, hk⟩ := (step.lawful_run Γ).counted e
    exact ⟨k, hk, (step.lawful_run Γ).regular e, hreached (h.step step hk)⟩
  · intro steps
    rw [← start_onto]
    exact (Step.lawful_runAll Γ steps).uniform _ buffer

/-- A list that may not be entered: the step fails, and its header is written and counted. -/
theorem session_consistent_tooDeep :
    let write := Step.run Catalog.schema (.list [.null])
    Reached Catalog.schema (.start [0x00] 0) 0 (.start [0x00] 0) ∧
      Encode.Begins write (.start [0x00] 0) 1 ∧
      (Encode.after write (.start [0x00] 0)).bytes = [0x00, 0x79] ∧
      (Encode.after write (.start [0x00] 0)).Consistent 1 := by
  intro write
  have hstart : Reached Catalog.schema (.start [0x00] 0) 0 (.start [0x00] 0) := .start
  obtain ⟨k, hk, -, hc⟩ :=
    ((session_consistent Catalog.schema [0x00] 0).1 0 _ hstart).2 (.list [.null])
  have hone : (Encode.after write (.start [0x00] 0)).containers = 1 := by cbv
  obtain rfl : k = 1 := by
    have hcount := hc.containers.symm.trans hone
    omega
  exact ⟨hstart, hk, by cbv, hc⟩

end Encoder

end Hessian
