import Hessian.Proofs.Trace.Sound
import Hessian.Session.Decoding
import Mathlib

/-!
# What references resolve to

The stream counts its containers as they start, `Value.resolve?` counts those of the finished value.
The two counts are the same as long as all the containers of the stream are in the value and in the
order in which they have started.  A map that repeats a key breaks that: the value under the first
key is dropped, and the one that takes its place has started later.

A container of the value is found under its own number exactly if it stands where its number says
(`Trace.getElem?_number_iff`), all of them are exactly if their numbers are those from zero on
(`Trace.forall_getElem?_number_iff`), and where no map of the stream repeats a key they are.

The streams at the end are read by evaluation.  That takes equations from all over the library,
which is why it is imported as a whole.
-/

namespace Hessian

namespace Trace

/-- Every container that is kept stands where its number says. -/
def InPlace (t : Trace) : Prop :=
  ∀ c ∈ t.settle.nodes, t.settle.nodes[c.number]? = some c

section Numbers

variable {ns : List Trace}

/-- Of containers with different numbers, one stands where its number says if that is its place. -/
theorem getElem?_number_iff (hn : (ns.map number).Nodup) {p : Nat} {c : Trace}
    (hc : ns[p]? = some c) : ns[c.number]? = some c ↔ c.number = p := by
  constructor
  · intro h
    obtain ⟨hlt, -⟩ := List.getElem?_eq_some_iff.mp h
    have hsame : (ns.map number)[c.number]? = (ns.map number)[p]? := by
      rw [List.getElem?_map, List.getElem?_map, h, hc]
    exact (List.getElem?_inj ((List.length_map number).symm ▸ hlt) hn).mp hsame
  · rintro rfl
    exact hc

/-- All stand where their numbers say if the numbers are those from zero on. -/
theorem forall_getElem?_number_iff (hn : (ns.map number).Nodup) :
    (∀ c ∈ ns, ns[c.number]? = some c) ↔ ns.map number = List.range ns.length := by
  constructor
  · intro h
    apply List.ext_getElem (by simp)
    intro p hp _
    have hlt : p < ns.length := (List.length_map number) ▸ hp
    have hc : ns[p]? = some ns[p] := List.getElem?_eq_getElem hlt
    rw [List.getElem_map, List.getElem_range]
    exact (getElem?_number_iff hn hc).mp (h _ (List.mem_of_getElem? hc))
  · intro h c hm
    obtain ⟨p, hp, rfl⟩ := List.getElem_of_mem hm
    have hc : ns[p]? = some ns[p] := List.getElem?_eq_getElem hp
    refine (getElem?_number_iff hn hc).mpr ?_
    have hnumber := congrArg (·[p]?) h
    simpa [hp] using hnumber

end Numbers

end Trace

namespace Value

section Grounded

variable {m : Nat} {P : Value → Prop}

mutual

/-- What a grounded value refers to has started before its end. -/
theorem everywhere_of_grounded
    (hP : ∀ v, (∀ index, v.ref? = some index → index.toNat < m) → P v) :
    (n : Nat) → (v : Value) → v.Grounded n → n + v.containers.length ≤ m → v.Everywhere P
  | n, .ref index, h, hm => by
    apply hP _
    intro i hi
    obtain rfl := Option.some.inj hi
    exact Nat.lt_of_lt_of_le h (Nat.le_of_add_right_le hm)
  | n, .list type items, h, hm => by
    rw [containers, List.length_cons] at hm
    exact ⟨hP _ nofun, everywhereItems_of_grounded hP (n + 1) items h (by omega)⟩
  | n, .map type entries, h, hm => by
    rw [containers, List.length_cons] at hm
    exact ⟨hP _ nofun, everywhereEntries_of_grounded hP (n + 1) entries h (by omega)⟩
  | n, .object c fields, h, hm => by
    rw [containers, List.length_cons] at hm
    exact ⟨hP _ nofun, everywhereItems_of_grounded hP (n + 1) fields h (by omega)⟩
  | _, .null, _, _ => hP _ nofun
  | _, .boolean _, _, _ => hP _ nofun
  | _, .int _, _, _ => hP _ nofun
  | _, .long _, _, _ => hP _ nofun
  | _, .double _, _, _ => hP _ nofun
  | _, .binary _, _, _ => hP _ nofun
  | _, .date _, _, _ => hP _ nofun
  | _, .string _, _, _ => hP _ nofun

theorem everywhereItems_of_grounded
    (hP : ∀ v, (∀ index, v.ref? = some index → index.toNat < m) → P v) :
    (n : Nat) → (vs : List Value) → GroundedItems n vs →
    n + (containersOfItems vs).length ≤ m → EverywhereItems P vs
  | _, [], _, _ => trivial
  | n, v :: vs, h, hm => by
    rw [containersOfItems, List.length_append] at hm
    exact ⟨everywhere_of_grounded hP n v h.1 (by omega),
      everywhereItems_of_grounded hP _ vs h.2 (by omega)⟩

theorem everywhereEntries_of_grounded
    (hP : ∀ v, (∀ index, v.ref? = some index → index.toNat < m) → P v) :
    (n : Nat) → (entries : Entries) → GroundedEntries n entries →
    n + (containersOfEntries entries).length ≤ m → EverywhereEntries P entries
  | _, [], _, _ => trivial
  | n, (key, v) :: rest, h, hm => by
    rw [containersOfEntries, List.length_append, List.length_append] at hm
    exact ⟨everywhere_of_grounded hP n key h.1 (by omega),
      everywhere_of_grounded hP _ v h.2.1 (by omega),
      everywhereEntries_of_grounded hP _ rest h.2.2 (by omega)⟩

end

end Grounded

end Value

namespace Trace

/-- Every reference in the value resolves to the container of its number. -/
def Resolves (t : Trace) : Prop :=
  t.value.Everywhere fun v => ∀ index, v.ref? = some index →
    ∃ c ∈ t.settle.nodes, c.number = index.toNat ∧ t.value.resolve? index = some c.erase

/-- References into the value resolve by place. -/
theorem resolve?_value (t : Trace) (index : UInt32) :
    t.value.resolve? index = t.settle.nodes[index.toNat]?.map erase := by
  rw [Value.resolve?, value, containers_erase, List.getElem?_map]

/-- Where all containers are in place and references go back, they resolve. -/
theorem InPlace.resolves {t : Trace} (hn : (t.settle.nodes.map number).Nodup) (h : t.InPlace)
    (hg : t.value.Grounded 0) : t.Resolves := by
  refine Value.everywhere_of_grounded (fun v hv index hi => ?_) 0 t.value hg
    (Nat.le_of_eq (Nat.zero_add _))
  have hlt := hv index hi
  rw [value, containers_erase, List.length_map] at hlt
  have hc : t.settle.nodes[index.toNat]? = some t.settle.nodes[index.toNat] :=
    List.getElem?_eq_getElem hlt
  have hm := List.mem_of_getElem? hc
  refine ⟨_, hm, (getElem?_number_iff hn hc).mp (h _ hm), ?_⟩
  rw [resolve?_value, hc]
  rfl

end Trace

namespace Decode

/-- A value that has been read has a trace. -/
theorem trace_of_value {s t : Decoder} {v : Value} (h : value s = .ok v t) :
    ∃ T, trace s = .ok T t ∧ v = T.value := by
  rw [value_eq_map_trace, map_eq_pure_bind] at h
  obtain ⟨T, u, hT, h⟩ := ok_of_bind h
  obtain ⟨rfl, rfl⟩ := EStateM.Result.ok.inj h
  exact ⟨T, hT, rfl⟩

theorem value_of_trace {s t : Decoder} {T : Trace} (h : trace s = .ok T t) :
    value s = .ok T.value t := by
  rw [value_eq_map_trace, map_eq_pure_bind, bind_ok h]
  rfl

/-- References into the first value of a stream resolve by place.  A container of the stream that is
still in the value is found under its number exactly if as many containers are before it as have
started before it, and all are if the numbers of those that are still there have no gap and are in
order.  They are wherever no map of the stream repeats a key, and then every reference in the value
resolves to the container that the stream meant. -/
theorem resolve_of_value {input : Bytes} {maxDepth : Nat} {root : Value} {s : Decoder}
    (h : value (.start input maxDepth) = .ok root s) :
    ∃ T, trace (.start input maxDepth) = .ok T s ∧ root = T.value ∧
      T.nodes.map Trace.number = List.range T.nodes.length ∧
      (∀ index : UInt32,
        root.resolve? index = T.settle.nodes[index.toNat]?.map Trace.erase) ∧
      (∀ (p : Nat) (c : Trace), T.settle.nodes[p]? = some c →
        (T.settle.nodes[c.number]? = some c ↔ c.number = p)) ∧
      (T.InPlace ↔ T.settle.nodes.map Trace.number = List.range T.settle.nodes.length) ∧
      (T.InPlace → ∀ c ∈ T.settle.nodes, ∀ index : UInt32, index.toNat = c.number →
        root.resolve? index = some c.erase) ∧
      (T.erase.Proper → T.settle = T ∧ T.InPlace ∧ T.Resolves) := by
  obtain ⟨T, hT, rfl⟩ := trace_of_value h
  have hsound := (sound_trace _ T s hT).1
  have hrange : T.nodes.map Trace.number = List.range T.nodes.length := by
    rw [List.range_eq_range']
    exact hsound.numbers
  have hnodup : (T.settle.nodes.map Trace.number).Nodup :=
    Trace.nodup_settle (hrange ▸ List.nodup_range)
  have hplaces := Trace.forall_getElem?_number_iff hnodup
  refine ⟨T, hT, rfl, hrange, T.resolve?_value, fun p c => Trace.getElem?_number_iff hnodup,
    hplaces, ?_, ?_⟩
  · intro hplace c hm index hi
    rw [T.resolve?_value, hi, hplace c hm]
    rfl
  · intro hproper
    have hsettle := Trace.settle_eq T hproper
    have hplace : T.InPlace := hplaces.mpr (hsettle.symm ▸ hrange)
    have hgrounded : T.value.Grounded 0 := by
      rw [Trace.value, hsettle]
      exact hsound.grounded
    exact ⟨hsettle, hplace, hplace.resolves hnodup hgrounded⟩

/-- A list and a reference to it. -/
theorem resolve_of_value_list :
    ∃ (T : Trace) (s : Decoder),
      value (.start [0x7a, 0x79, 0x92, 0x51, 0x91] 2) = .ok T.value s ∧ T.Resolves ∧
        T.value.resolve? 1 = some (.list none [.int 2]) := by
  have ht : trace (.start [0x7a, 0x79, 0x92, 0x51, 0x91] 2) =
      .ok (.list 0 none [.list 1 none [.scalar (.int 2) rfl], .scalar (.ref 1) rfl])
        { input := [], offset := 5, containers := 2, maxDepth := 2 } := by cbv
  obtain ⟨T, hT, -, -, -, -, -, -, hproper⟩ := resolve_of_value (value_of_trace ht)
  obtain ⟨rfl, -⟩ := EStateM.Result.ok.inj (ht.symm.trans hT)
  have hresolves := (hproper ⟨trivial, ⟨trivial, trivial, trivial⟩, trivial, trivial⟩).2.2
  exact ⟨_, _, value_of_trace ht, hresolves, by cbv⟩

/-- A map gives its only key a second time, and with it another list.  That list is in the value,
but nothing is found under its number. -/
theorem resolve_of_repeated_key :
    ∃ (T : Trace) (s : Decoder),
      trace (.start [0x7a, 0x48, 0x91, 0x78, 0x91, 0x79, 0x92, 0x5a, 0x51, 0x93] 3) = .ok T s ∧
      value (.start [0x7a, 0x48, 0x91, 0x78, 0x91, 0x79, 0x92, 0x5a, 0x51, 0x93] 3) =
        .ok T.value s ∧
      ∃ c ∈ T.settle.nodes, c.number = 3 ∧ c.erase = .list none [.int 2] ∧
        T.value.resolve? 3 = none := by
  have ht : trace (.start [0x7a, 0x48, 0x91, 0x78, 0x91, 0x79, 0x92, 0x5a, 0x51, 0x93] 3) =
      .ok (.list 0 none [
        .map 1 none [
          (.scalar (.int 1) rfl, .list 2 none []),
          (.scalar (.int 1) rfl, .list 3 none [.scalar (.int 2) rfl])],
        .scalar (.ref 3) rfl])
        { input := [], offset := 10, containers := 4, maxDepth := 3 } := by cbv
  refine ⟨_, _, ht, value_of_trace ht, .list 3 none [.scalar (.int 2) rfl], ?_, rfl, rfl, by cbv⟩
  exact List.mem_cons_of_mem _ (List.mem_cons_of_mem _ List.mem_cons_self)

end Decode

end Hessian
