import Hessian.Proofs.Trace.Reading
import Hessian.Proofs.Value.Measure

/-!
# What holds of a trace

Whenever a trace is read, its containers are numbered one after another from the number of those
that the session had started before, its references go back, and each of the values in it has taken
an octet.  The value that is made of it nests no deeper than the session allowed and has a value for
every field: `Trace.Sound`.

The induction is on the levels.  Within a level it goes along the parts, `Trace.SoundItems`, where
the keys and values of a map count as parts in a row.
-/

namespace Hessian

namespace Trace

/-- What holds of a trace that has taken a session from `s` to `t`. -/
structure Sound (s : Decoder) (T : Trace) (t : Decoder) : Prop where
  numbers : T.nodes.map number = List.range' s.containers T.nodes.length
  containers : t.containers = s.containers + T.nodes.length
  grounded : T.erase.Grounded s.containers
  height : T.value.height ≤ s.maxDepth - s.depth
  filled : T.value.Everywhere Value.Filled
  read : T.erase.size + t.input.length ≤ s.input.length

/-- What holds of traces that have taken a session from `s` to `t` one after another. -/
structure SoundItems (s : Decoder) (ts : List Trace) (t : Decoder) : Prop where
  numbers : (nodesOfItems ts).map number = List.range' s.containers (nodesOfItems ts).length
  containers : t.containers = s.containers + (nodesOfItems ts).length
  grounded : Value.GroundedItems s.containers (eraseItems ts)
  height : ∀ T ∈ ts, T.value.height ≤ s.maxDepth - s.depth
  filled : ∀ T ∈ ts, T.value.Everywhere Value.Filled
  read : Value.sizeOfItems (eraseItems ts) + t.input.length ≤ s.input.length

/-- A trace is read soundly and moves the session on. -/
def SoundStep (s : Decoder) (T : Trace) (t : Decoder) : Prop := T.Sound s t ∧ s.Advance t

variable {s t u : Decoder}

theorem soundItems_nil (s : Decoder) : SoundItems s [] s where
  numbers := rfl
  containers := rfl
  grounded := trivial
  height _ h := nomatch h
  filled _ h := nomatch h
  read := Nat.le_of_eq (Nat.zero_add _)

theorem SoundItems.cons {T : Trace} {ts : List Trace} (hT : T.Sound s t) (ha : s.Advance t)
    (h : SoundItems t ts u) : SoundItems s (T :: ts) u where
  numbers := by
    rw [nodesOfItems, List.map_append, hT.numbers, h.numbers, hT.containers, List.range'_append_1,
      List.length_append]
  containers := by
    rw [h.containers, hT.containers, nodesOfItems, List.length_append, Nat.add_assoc]
  grounded := by
    constructor
    · exact hT.grounded
    · rw [containers_erase, List.length_map, ← hT.containers]
      exact h.grounded
  height := by
    have hts := h.height
    rw [ha.maxDepth, ha.depth] at hts
    exact List.forall_mem_cons.mpr ⟨hT.height, hts⟩
  filled := List.forall_mem_cons.mpr ⟨hT.filled, h.filled⟩
  read := by
    have hread := hT.read
    have hrest := h.read
    rw [eraseItems, Value.sizeOfItems]
    omega

/-- Traces read one after another are sound together. -/
theorem soundItems_of_chain {ts : List Trace} (h : Decode.Chain SoundStep s ts t) :
    SoundItems s ts t := by
  induction ts generalizing s with
  | nil =>
    obtain rfl := h
    exact soundItems_nil t
  | cons T ts ih =>
    obtain ⟨u, ⟨hT, ha⟩, hrest⟩ := h
    exact .cons hT ha (ih hrest)

/-- More may be taken afterwards, and the container be left, as long as none is started. -/
theorem SoundItems.after {ts : List Trace} (h : SoundItems s ts t)
    (hc : u.containers = t.containers) (hi : u.input.length ≤ t.input.length) :
    SoundItems s ts u where
  numbers := h.numbers
  containers := hc.trans h.containers
  grounded := h.grounded
  height := h.height
  filled := h.filled
  read := Nat.le_trans (Nat.add_le_add_left hi _) h.read

/-! ## The pairs of a map as parts in a row -/

/-- Keys and values in a row. -/
def flat (pairs : List (Trace × Trace)) : List Trace :=
  pairs.flatMap fun pair => [pair.1, pair.2]

section Flat

variable (pairs : List (Trace × Trace))

theorem nodesOfItems_flat : nodesOfItems (flat pairs) = nodesOfPairs pairs := by
  induction pairs with
  | nil => rfl
  | cons pair pairs ih =>
    rw [nodesOfPairs, ← ih, List.append_assoc]
    rfl

theorem groundedEntries_of_flat {n : Nat} (h : Value.GroundedItems n (eraseItems (flat pairs))) :
    Value.GroundedEntries n (erasePairs pairs) := by
  induction pairs generalizing n with
  | nil => trivial
  | cons pair pairs ih =>
    obtain ⟨hkey, hvalue, hrest⟩ := h
    exact ⟨hkey, hvalue, ih hrest⟩

theorem forall_flat {P : Trace → Prop} (h : ∀ T ∈ flat pairs, P T) :
    ∀ pair ∈ pairs, P pair.1 ∧ P pair.2 := by
  intro pair hm
  exact ⟨h _ (List.mem_flatMap.mpr ⟨pair, hm, List.mem_cons_self⟩),
    h _ (List.mem_flatMap.mpr ⟨pair, hm, List.mem_cons_of_mem _ List.mem_cons_self⟩)⟩

theorem sizeOfItems_flat :
    Value.sizeOfItems (eraseItems (flat pairs)) = Value.sizeOfEntries (erasePairs pairs) := by
  induction pairs with
  | nil => rfl
  | cons pair pairs ih =>
    rw [erasePairs, Value.sizeOfEntries, ← ih, Nat.add_assoc]
    rfl

end Flat

/-- A pair is two traces one after another. -/
theorem chain_flat {pairs : List (Trace × Trace)}
    (h : Decode.Chain (fun s pair t => ∃ u, SoundStep s pair.1 u ∧ SoundStep u pair.2 t)
      s pairs t) :
    Decode.Chain SoundStep s (flat pairs) t := by
  induction pairs generalizing s with
  | nil => exact h
  | cons pair pairs ih =>
    obtain ⟨w, ⟨u, hkey, hvalue⟩, hrest⟩ := h
    exact ⟨u, hkey, w, hvalue, ih hrest⟩

/-! ## What is kept is no larger -/

mutual

/-- The value that is made of a trace is no larger than what the stream says. -/
theorem size_value_le : (T : Trace) → T.value.size ≤ T.erase.size
  | .scalar .. => Nat.le_refl _
  | .list _ _ items => Nat.succ_le_succ (size_settleItems_le items)
  | .object _ _ fields => Nat.succ_le_succ (size_settleItems_le fields)
  | .map n type pairs => by
    have hle := @Pairs.sum_collect_le _ _ (· == ·) Value.size Value.size
      (erasePairs (settlePairs pairs))
    rw [← Value.sizeOfEntries_eq_sum, ← Value.sizeOfEntries_eq_sum] at hle
    rw [value, settle, erase, erasePairs_collect]
    exact Nat.succ_le_succ (Nat.le_trans hle (size_settlePairs_le pairs))

theorem size_settleItems_le : (ts : List Trace) →
    Value.sizeOfItems (eraseItems (settleItems ts)) ≤ Value.sizeOfItems (eraseItems ts)
  | [] => Nat.le_refl _
  | T :: ts => Nat.add_le_add (size_value_le T) (size_settleItems_le ts)

theorem size_settlePairs_le : (pairs : List (Trace × Trace)) →
    Value.sizeOfEntries (erasePairs (settlePairs pairs)) ≤ Value.sizeOfEntries (erasePairs pairs)
  | [] => Nat.le_refl _
  | (key, T) :: rest =>
    Nat.add_le_add (Nat.add_le_add (size_value_le key) (size_value_le T))
      (size_settlePairs_le rest)

end

/-- Values that have been read one after another are no larger than the octets that were taken. -/
theorem SoundItems.size {ts : List Trace} (h : SoundItems s ts t) :
    Value.sizeOfItems (ts.map value) + t.input.length ≤ s.input.length := by
  have hle := size_settleItems_le ts
  rw [eraseItems_eq_map, settleItems_eq_map, List.map_map] at hle
  exact Nat.le_trans (Nat.add_le_add_right hle _) h.read

/-! ## Containers around their parts -/

/-- The header of a container has been read. -/
structure Opened (s t : Decoder) : Prop where
  containers : t.containers = s.containers + 1
  input : t.input.length < s.input.length
  advance : s.Advance t

section Opened

variable {ts : List Trace} (ho : Opened s u) (hlt : u.depth < u.maxDepth)

include ho hlt in
theorem Opened.height {n : Nat} (hn : n ≤ u.enter.maxDepth - u.enter.depth) :
    n + 1 ≤ s.maxDepth - s.depth := by
  have hm := ho.advance.maxDepth
  have hd := ho.advance.depth
  rw [show u.enter.maxDepth = u.maxDepth from rfl, show u.enter.depth = u.depth + 1 from rfl] at hn
  omega

variable (h : SoundItems u.enter ts t)

include ho h

theorem Opened.numbers :
    (u.containers - 1) :: (nodesOfItems ts).map number =
      List.range' s.containers ((nodesOfItems ts).length + 1) := by
  have hn : u.containers - 1 = s.containers := by
    rw [ho.containers]
    rfl
  have hnumbers := h.numbers
  rw [show u.enter.containers = s.containers + 1 from ho.containers] at hnumbers
  rw [hn, List.range'_succ, hnumbers]

theorem Opened.total : t.containers = s.containers + ((nodesOfItems ts).length + 1) := by
  have hc := h.containers
  rw [show u.enter.containers = s.containers + 1 from ho.containers] at hc
  omega

theorem Opened.grounded : Value.GroundedItems (s.containers + 1) (eraseItems ts) := by
  have hg := h.grounded
  rwa [show u.enter.containers = s.containers + 1 from ho.containers] at hg

theorem Opened.read :
    Value.sizeOfItems (eraseItems ts) + 1 + t.input.length ≤ s.input.length := by
  have hs := h.read
  have hi := ho.input
  rw [show u.enter.input = u.input from rfl] at hs
  omega

include hlt

theorem Opened.sound_list (type : Option String) :
    (list (u.containers - 1) type ts).Sound s t where
  numbers := ho.numbers h
  containers := ho.total h
  grounded := ho.grounded h
  height := by
    rw [value_list]
    exact ho.height hlt (Value.heightOfItems_le.mpr (List.forall_mem_map.mpr h.height))
  filled := by
    rw [value_list]
    exact ⟨trivial, Value.everywhereItems_iff.mpr (List.forall_mem_map.mpr h.filled)⟩
  read := ho.read h

theorem Opened.sound_object {c : Definition} (hl : ts.length = c.fieldNames.length) :
    (object (u.containers - 1) c ts).Sound s t where
  numbers := ho.numbers h
  containers := ho.total h
  grounded := ho.grounded h
  height := by
    rw [value_object]
    exact ho.height hlt (Value.heightOfItems_le.mpr (List.forall_mem_map.mpr h.height))
  filled := by
    rw [value_object]
    exact ⟨(List.length_map _).trans hl,
      Value.everywhereItems_iff.mpr (List.forall_mem_map.mpr h.filled)⟩
  read := ho.read h

end Opened

theorem Opened.sound_map {pairs : List (Trace × Trace)} (ho : Opened s u)
    (hlt : u.depth < u.maxDepth) (h : SoundItems u.enter (flat pairs) t) (type : Option String) :
    (map (u.containers - 1) type pairs).Sound s t where
  numbers := by
    have hn := ho.numbers h
    rwa [nodesOfItems_flat] at hn
  containers := by
    have hc := ho.total h
    rwa [nodesOfItems_flat] at hc
  grounded := groundedEntries_of_flat pairs (ho.grounded h)
  height := by
    rw [value_map]
    refine ho.height hlt (Value.heightOfEntries_le.mpr ?_)
    refine Pairs.forall_collect (P := fun v : Value => v.height ≤ _)
      (Q := fun v : Value => v.height ≤ _) ?_
    exact List.forall_mem_map.mpr (forall_flat pairs h.height)
  filled := by
    rw [value_map]
    constructor
    · trivial
    · apply Value.everywhereEntries_iff.mpr
      refine Pairs.forall_collect (P := Value.Everywhere _) (Q := Value.Everywhere _) ?_
      exact List.forall_mem_map.mpr (forall_flat pairs h.filled)
  read := by
    have hr := ho.read h
    rwa [sizeOfItems_flat] at hr

end Trace

namespace Decode

open Trace

variable {α : Type} {inner : Decode Trace}

/-! ## Scalars -/

/-- A reference is to a container that has been started. -/
theorem grounded_ref : Yields (fun s index _ => index.toNat < s.containers) ref := by
  intro s index t h
  obtain ⟨start, u, ho, h⟩ := ok_of_bind h
  obtain ⟨-, rfl⟩ := EStateM.Result.ok.inj ho
  obtain ⟨code, v, hcode, h⟩ := ok_of_bind h
  have hv : v.containers = s.containers := plain_octet s code v hcode
  cases hl : Lead.ofByte code with
  | ref =>
    rw [hl] at h
    obtain ⟨i, w, hi, h⟩ := ok_of_bind h
    have hw : w.containers = v.containers := plain_int v i w hi
    obtain ⟨n, x, hn, h⟩ := ok_of_bind h
    obtain ⟨rfl, rfl⟩ := EStateM.Result.ok.inj hn
    split at h
    · next hlt =>
      obtain ⟨rfl, rfl⟩ := EStateM.Result.ok.inj h
      rw [← hv, ← hw, UInt32.toNat_ofNat']
      exact Nat.lt_of_le_of_lt (Nat.mod_le _ _) ((Int.toNat_lt hlt.1).mpr hlt.2)
    · cases h
  | _ =>
    rw [hl] at h
    cases h

/-- A scalar is sound if it goes back where it refers to something. -/
theorem sound_scalar {step : Decode α} {f : α → Value} (hr : Reader step) (hc : Plain step)
    (hg : Yields (fun s a _ => (f a).Grounded s.containers) step)
    (plain : ∀ a, (f a).containers = []) :
    Yields (fun s T t => T.Sound s t) (scalar step f plain) := by
  intro s T t h
  rw [scalar, map_eq_pure_bind] at h
  obtain ⟨a, u, ha, h⟩ := ok_of_bind h
  obtain ⟨rfl, rfl⟩ := EStateM.Result.ok.inj h
  exact {
    numbers := rfl
    containers := hc s a u ha
    grounded := hg s a u ha
    height := Nat.le_trans (Nat.le_of_eq (Value.height_of_plain (plain a))) (Nat.zero_le _)
    filled := Value.filled_of_plain (plain a)
    read := by
      have hs : (Trace.scalar (f a) (plain a)).erase.size = 1 := Value.size_of_plain (plain a)
      have hp := hr.productive s a u ha
      omega }

/-! ## Containers -/

/-- The header of a container takes an octet and counts the container. -/
theorem opened_of_header {step : Decode α} (hr : Reader step) (hc : Counts (fun _ => 1) step) :
    Yields (fun s _ t => Opened s t) step :=
  fun s a t h => ⟨hc s a t h, hr.productive s a t h, hr.toRegular.advance_ok h⟩

/-- The parts of a container of known length are sound. -/
theorem sound_times (h : Yields SoundStep inner) (count : Nat) :
    Yields (fun s ts t => s.depth < s.maxDepth ∧ ts.length = count ∧ SoundItems s.enter ts t)
      (nested (times count inner)) := by
  intro s ts t hs
  obtain ⟨hlt, u, hu, rfl⟩ := ok_of_nested hs
  obtain ⟨hl, hc⟩ := h.times count s.enter ts u hu
  exact ⟨hlt, hl, (soundItems_of_chain hc).after rfl (Nat.le_refl _)⟩

/-- Before the terminator of a container there are its parts. -/
theorem chain_of_untilTerminator {R : Decoder → α → Decoder → Prop} {step : Decode α}
    (h : Yields R step) :
    Yields (fun s found t => s.depth < s.maxDepth ∧ ∃ u, Chain R s.enter found u ∧
      t.containers = u.containers ∧ t.input.length ≤ u.input.length)
      (nested (untilTerminator step)) := by
  intro s found t hs
  obtain ⟨hlt, u, hu, rfl⟩ := ok_of_nested hs
  obtain ⟨v, hc, ht⟩ := h.untilTerminator s.enter found u hu
  exact ⟨hlt, v, hc, plain_terminator v true u ht, (regular_terminator.advance_ok ht).length_le⟩

/-- The trace of a list is sound if its items are. -/
theorem sound_list (h : Yields SoundStep inner) (typed : Bool) (length : ListLength) :
    Yields (fun s T t => T.Sound s t) (traceOf inner (.list typed length)) := by
  intro s T t hs
  obtain ⟨header, u, hu, hs⟩ := ok_of_bind hs
  have ho := opened_of_header reader_listBegin counts_listBegin s header u hu
  obtain ⟨number, v, hn, hs⟩ := ok_of_bind hs
  obtain ⟨rfl, rfl⟩ := EStateM.Result.ok.inj hn
  obtain ⟨items, w, hw, hs⟩ := ok_of_bind hs
  obtain ⟨rfl, rfl⟩ := EStateM.Result.ok.inj hs
  cases hl : header.length with
  | some count =>
    rw [hl] at hw
    obtain ⟨hlt, -, hitems⟩ := sound_times h count u items w hw
    exact ho.sound_list hlt hitems header.type
  | none =>
    rw [hl] at hw
    obtain ⟨hlt, x, hc, hcount, hi⟩ := chain_of_untilTerminator h u items w hw
    exact ho.sound_list hlt ((soundItems_of_chain hc).after hcount hi) header.type

/-- The trace of a map is sound if its keys and values are. -/
theorem sound_map (h : Yields SoundStep inner) (typed : Bool) :
    Yields (fun s T t => T.Sound s t) (traceOf inner (.map typed)) := by
  have hpair : Yields (fun s pair t => ∃ u, SoundStep s pair.1 u ∧ SoundStep u pair.2 t)
      (pairOf inner inner) := by
    intro s pair t hs
    obtain ⟨key, u, hkey, hs⟩ := ok_of_bind hs
    obtain ⟨T, v, hT, hs⟩ := ok_of_bind hs
    obtain ⟨rfl, rfl⟩ := EStateM.Result.ok.inj hs
    exact ⟨u, h s key u hkey, h u T v hT⟩
  intro s T t hs
  obtain ⟨type, u, hu, hs⟩ := ok_of_bind hs
  have ho := opened_of_header reader_mapBegin counts_mapBegin s type u hu
  obtain ⟨number, v, hn, hs⟩ := ok_of_bind hs
  obtain ⟨rfl, rfl⟩ := EStateM.Result.ok.inj hn
  obtain ⟨pairs, w, hw, hs⟩ := ok_of_bind hs
  obtain ⟨rfl, rfl⟩ := EStateM.Result.ok.inj hs
  obtain ⟨hlt, x, hc, hcount, hi⟩ := chain_of_untilTerminator hpair u pairs w hw
  exact ho.sound_map hlt ((soundItems_of_chain (chain_flat hc)).after hcount hi) type

/-- The trace of a class instance is sound if its fields are. -/
theorem sound_object (h : Yields SoundStep inner) :
    Yields (fun s T t => T.Sound s t) (traceOf inner .object) := by
  intro s T t hs
  obtain ⟨c, u, hu, hs⟩ := ok_of_bind hs
  have ho := opened_of_header reader_objectBegin counts_objectBegin s c u hu
  obtain ⟨number, v, hn, hs⟩ := ok_of_bind hs
  obtain ⟨rfl, rfl⟩ := EStateM.Result.ok.inj hn
  obtain ⟨fields, w, hw, hs⟩ := ok_of_bind hs
  obtain ⟨rfl, rfl⟩ := EStateM.Result.ok.inj hs
  obtain ⟨hlt, hl, hfields⟩ := sound_times h _ u fields w hw
  exact ho.sound_object hlt hfields hl

/-! ## Traces -/

/-- A trace of any form is sound if its parts are. -/
theorem sound_traceOf (h : Yields SoundStep inner) (lead : Lead) :
    Yields (fun s T t => T.Sound s t) (traceOf inner lead) := by
  have hint := sound_scalar (f := .int) reader_int plain_int (fun _ _ _ _ => trivial) fun _ => rfl
  have hlong := sound_scalar (f := .long) reader_long plain_long (fun _ _ _ _ => trivial)
    fun _ => rfl
  have hdouble := sound_scalar (f := .double) reader_double plain_double (fun _ _ _ _ => trivial)
    fun _ => rfl
  have hdate := sound_scalar (f := .date) reader_date plain_date (fun _ _ _ _ => trivial)
    fun _ => rfl
  cases lead with
  | null =>
    exact sound_scalar (f := fun _ => .null) reader_null plain_null (fun _ _ _ _ => trivial) _
  | boolean b =>
    exact sound_scalar (f := .boolean) reader_boolean plain_boolean (fun _ _ _ _ => trivial) _
  | int tail high => exact hint
  | intWord => exact hint
  | long tail high => exact hlong
  | longInt => exact hlong
  | longWord => exact hlong
  | doubleZero => exact hdouble
  | doubleOne => exact hdouble
  | doubleByte => exact hdouble
  | doubleShort => exact hdouble
  | doubleMilli => exact hdouble
  | doubleWord => exact hdouble
  | dateMillis => exact hdate
  | dateMinutes => exact hdate
  | binary isFinal tail high =>
    exact sound_scalar (f := .binary) reader_binary plain_binary (fun _ _ _ _ => trivial) _
  | string isFinal tail high =>
    exact sound_scalar (f := .string) reader_string plain_string (fun _ _ _ _ => trivial) _
  | list typed length => exact sound_list h typed length
  | map typed => exact sound_map h typed
  | definition => exact sound_object h
  | object => exact sound_object h
  | objectShort index => exact sound_object h
  | ref => exact sound_scalar (f := .ref) reader_ref plain_ref grounded_ref _
  | terminator =>
    intro s T t hs
    obtain ⟨code, u, -, hs⟩ := ok_of_bind hs
    cases hs
  | unassigned =>
    intro s T t hs
    obtain ⟨code, u, -, hs⟩ := ok_of_bind hs
    cases hs

/-- A trace moves the session on as its value does. -/
theorem advance_traceWithin (levels : Nat) :
    Yields (fun s _ t => s.Advance t) (traceWithin levels) := by
  intro s T t h
  have hv : valueWithin levels s = .ok T.value t := by
    rw [← map_traceWithin, map_eq_pure_bind, bind_ok h]
    rfl
  exact (reader_valueWithin levels).toRegular.advance_ok hv

/-- Whatever reads the parts soundly reads the whole soundly. -/
theorem sound_traceWith (h : Yields SoundStep inner) :
    Yields (fun s T t => T.Sound s t) (traceWith inner) := by
  intro s T t hs
  obtain ⟨code, u, hp, hT⟩ := ok_of_bind hs
  obtain rfl := eq_of_peek hp
  exact sound_traceOf h _ u T t hT

theorem sound_traceWithin (levels : Nat) : Yields SoundStep (traceWithin levels) := by
  have hsound : Yields (fun s T t => T.Sound s t) (traceWithin levels) := by
    induction levels with
    | zero => exact sound_traceWith fun s T t h => nomatch h
    | succ levels ih =>
      exact sound_traceWith fun s T t h => ⟨ih s T t h, advance_traceWithin levels s T t h⟩
  exact fun s T t h => ⟨hsound s T t h, advance_traceWithin levels s T t h⟩

/-- A trace is sound. -/
theorem sound_trace : Yields SoundStep trace := fun s => sound_traceWithin _ s

end Decode

end Hessian
