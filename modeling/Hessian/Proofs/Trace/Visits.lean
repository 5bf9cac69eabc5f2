import Hessian.Proofs.Encoder.Refusal
import Hessian.Proofs.Value.Search

/-!
# The containers of a session by their numbers

`Encode.visits` writes a value as `Encode.value` does, step for step, and answers the values that it
has come by on its way, each with how many containers the session had started when it was its turn.
For a container that is its number in the stream.  To note it changes nothing
(`Encode.map_visits`), and what is noted is the walk through the value with its containers counted
along (`Encode.visits_eq`).

So the containers are started in the order in which references number them, and a reference that can
be written is to one that was started before it.

## Main statements

* `Encode.visits_eq` : what is noted while a value is written.
* `Encode.resolve_of_visits` : a value is numbered by its session as references number it.
-/

namespace Hessian

namespace Value

/-! ## Walks with numbers -/

/-- The values on a walk, each with how many containers have been started before it, where the walk
begins after so many. -/
def numbered : (started : Nat) → List (Nat × Value) → List (Value × Nat)
  | _, [] => []
  | started, (_, v) :: rest =>
    (v, started) :: numbered (if v.isContainer then started + 1 else started) rest

/-- Whether a value on a numbered walk is a container. -/
def visitsContainer (visit : Value × Nat) : Bool := visit.1.isContainer

/-- On two walks one after another the second goes on counting. -/
theorem numbered_append (started : Nat) (first second : List (Nat × Value)) :
    numbered started (first ++ second) =
      numbered started first ++ numbered (started + containersOn first) second := by
  induction first generalizing started with
  | nil => rfl
  | cons step first ih =>
    obtain ⟨around, v⟩ := step
    rw [List.cons_append, numbered, numbered, ih, containersOn, containersOn, List.countP_cons,
      List.cons_append]
    cases v.isContainer with
    | true => rw [if_pos rfl, if_pos rfl, Nat.add_assoc, Nat.add_comm 1]
    | false => rw [if_neg Bool.false_ne_true, if_neg Bool.false_ne_true, Nat.add_zero]

theorem numbered_container {v : Value} (h : v.isContainer = true) (started around : Nat)
    (rest : List (Nat × Value)) :
    numbered started ((around, v) :: rest) = (v, started) :: numbered (started + 1) rest := by
  rw [numbered, if_pos h]

/-- The numbers leave the values as they are. -/
theorem map_numbered (started : Nat) (steps : List (Nat × Value)) :
    (numbered started steps).map Prod.fst = steps.map Prod.snd := by
  induction steps generalizing started with
  | nil => rfl
  | cons step steps ih => rw [numbered, List.map_cons, ih, List.map_cons]

/-- The containers have consecutive numbers. -/
theorem filter_numbered (started : Nat) (steps : List (Nat × Value)) :
    (numbered started steps).filter visitsContainer =
      ((steps.map Prod.snd).filter isContainer).zipIdx started := by
  induction steps generalizing started with
  | nil => rfl
  | cons step steps ih =>
    obtain ⟨around, v⟩ := step
    rw [numbered, List.map_cons, List.filter_cons, List.filter_cons, visitsContainer]
    cases v.isContainer with
    | true => rw [if_pos rfl, if_pos rfl, if_pos rfl, List.zipIdx_cons, ih]
    | false =>
      rw [if_neg Bool.false_ne_true, if_neg Bool.false_ne_true, if_neg Bool.false_ne_true, ih]

/-- A value on a numbered walk has the number of containers before it. -/
theorem number_eq {started n : Nat} {steps : List (Nat × Value)} {v : Value}
    {before behind : List (Value × Nat)}
    (h : numbered started steps = before ++ (v, n) :: behind) :
    n = started + (before.filter visitsContainer).length := by
  induction before generalizing started steps with
  | nil =>
    cases steps with
    | nil => cases h
    | cons step steps => exact (congrArg Prod.snd (List.cons.inj h).1).symm
  | cons visit before ih =>
    cases steps with
    | nil => cases h
    | cons step steps =>
      obtain ⟨around, w⟩ := step
      obtain ⟨rfl, hrest⟩ := List.cons.inj h
      rw [ih hrest, List.filter_cons, visitsContainer]
      cases w.isContainer with
      | true => rw [if_pos rfl, if_pos rfl, List.length_cons, Nat.add_assoc, Nat.add_comm 1]
      | false => rw [if_neg Bool.false_ne_true, if_neg Bool.false_ne_true]

mutual

/-- The containers on the walk through a value are those of the value, in their order. -/
theorem filter_walk (around : Nat) : (v : Value) →
    ((v.walk around).map Prod.snd).filter isContainer = v.containers
  | .list type items => by
    rw [walk, List.map_cons, List.filter_cons_of_pos rfl, filter_walkItems, containers]
  | .map type entries => by
    rw [walk, List.map_cons, List.filter_cons_of_pos rfl, filter_walkEntries, containers]
  | .object c fields => by
    rw [walk, List.map_cons, List.filter_cons_of_pos rfl, filter_walkItems, containers]
  | .null => rfl
  | .boolean _ => rfl
  | .int _ => rfl
  | .long _ => rfl
  | .double _ => rfl
  | .binary _ => rfl
  | .date _ => rfl
  | .string _ => rfl
  | .ref _ => rfl

theorem filter_walkItems (around : Nat) : (vs : List Value) →
    ((walkItems around vs).map Prod.snd).filter isContainer = containersOfItems vs
  | [] => rfl
  | v :: vs => by
    rw [walkItems, List.map_append, List.filter_append, filter_walk around v,
      filter_walkItems around vs, containersOfItems]

theorem filter_walkEntries (around : Nat) : (entries : Entries) →
    ((walkEntries around entries).map Prod.snd).filter isContainer = containersOfEntries entries
  | [] => rfl
  | (key, v) :: rest => by
    rw [walkEntries, List.map_append, List.map_append, List.filter_append, List.filter_append,
      filter_walk around key, filter_walk around v, filter_walkEntries around rest,
      containersOfEntries]

end

mutual

/-- Where a value is grounded, every reference on the walk through it goes back. -/
theorem lt_of_grounded {index : UInt32} {k : Nat} (around : Nat) : (v : Value) → (n : Nat) →
    v.Grounded n → (.ref index, k) ∈ numbered n (v.walk around) → index.toNat < k
  | .ref _, _, h, hm => by
    cases List.mem_singleton.mp hm
    exact h
  | .list _ items, n, h, hm => by
    rw [walk, numbered_container rfl] at hm
    exact lt_of_groundedItems _ items (n + 1) h ((List.mem_cons.mp hm).resolve_left nofun)
  | .map _ entries, n, h, hm => by
    rw [walk, numbered_container rfl] at hm
    exact lt_of_groundedEntries _ entries (n + 1) h ((List.mem_cons.mp hm).resolve_left nofun)
  | .object _ fields, n, h, hm => by
    rw [walk, numbered_container rfl] at hm
    exact lt_of_groundedItems _ fields (n + 1) h ((List.mem_cons.mp hm).resolve_left nofun)
  | .null, _, _, hm => nomatch List.mem_singleton.mp hm
  | .boolean _, _, _, hm => nomatch List.mem_singleton.mp hm
  | .int _, _, _, hm => nomatch List.mem_singleton.mp hm
  | .long _, _, _, hm => nomatch List.mem_singleton.mp hm
  | .double _, _, _, hm => nomatch List.mem_singleton.mp hm
  | .binary _, _, _, hm => nomatch List.mem_singleton.mp hm
  | .date _, _, _, hm => nomatch List.mem_singleton.mp hm
  | .string _, _, _, hm => nomatch List.mem_singleton.mp hm

theorem lt_of_groundedItems {index : UInt32} {k : Nat} (around : Nat) : (vs : List Value) →
    (n : Nat) → GroundedItems n vs →
    (.ref index, k) ∈ numbered n (walkItems around vs) → index.toNat < k
  | [], _, _, hm => nomatch hm
  | v :: vs, n, h, hm => by
    rw [walkItems, numbered_append, containersOn_walk, List.mem_append] at hm
    rcases hm with hm | hm
    · exact lt_of_grounded around v n h.1 hm
    · exact lt_of_groundedItems around vs _ h.2 hm

theorem lt_of_groundedEntries {index : UInt32} {k : Nat} (around : Nat) : (entries : Entries) →
    (n : Nat) → GroundedEntries n entries →
    (.ref index, k) ∈ numbered n (walkEntries around entries) → index.toNat < k
  | [], _, _, hm => nomatch hm
  | (key, v) :: rest, n, h, hm => by
    rw [walkEntries, numbered_append, numbered_append, containersOn_append, containersOn_walk,
      containersOn_walk, List.mem_append, List.mem_append, ← Nat.add_assoc] at hm
    rcases hm with (hm | hm) | hm
    · exact lt_of_grounded around key n h.1 hm
    · exact lt_of_grounded around v _ h.2.1 hm
    · exact lt_of_groundedEntries around rest _ h.2.2 hm

end

/-- The container that is visited at a number is the one to which a reference of it resolves. -/
theorem getElem?_visited (root : Value) (index : UInt32) :
    ((numbered 0 (root.walk 0)).filter visitsContainer)[index.toNat]? =
      (root.resolve? index).map fun c => (c, index.toNat) := by
  rw [filter_numbered, filter_walk, List.getElem?_zipIdx, Nat.zero_add, resolve?]

/-- In a value that is grounded a reference resolves to a container that is visited before it. -/
theorem resolve?_of_visit {root : Value} (h : root.Grounded 0) {before behind : List (Value × Nat)}
    {index : UInt32} {n : Nat}
    (hwalk : numbered 0 (root.walk 0) = before ++ (.ref index, n) :: behind) :
    ∃ c, root.resolve? index = some c ∧ (c, index.toNat) ∈ before.filter visitsContainer := by
  have hlt : index.toNat < n :=
    lt_of_grounded 0 root 0 h (hwalk ▸ List.mem_append_right _ List.mem_cons_self)
  have hn := number_eq hwalk
  have hget : index.toNat < (before.filter visitsContainer).length := by omega
  -- the containers before the reference are the first ones of all
  have hfound := getElem?_visited root index
  rw [hwalk, List.filter_append, List.getElem?_append_left hget, List.getElem?_eq_getElem hget]
    at hfound
  obtain ⟨c, hc, hvisit⟩ := Option.map_eq_some_iff.mp hfound.symm
  exact ⟨c, hc, hvisit ▸ List.getElem_mem hget⟩

end Value

namespace Encode

mutual

/-- Writes a value and answers the values on the way through it, each with how many containers had
been started when it was its turn. -/
def visits : Value → Encode (List (Value × Nat))
  | .list type items => do
    let number ← started
    if type = some "" then
      refuse .untitledList
    else
      listBegin (type.getD "") items.length
      let below ← nested (visitsOfItems items)
      return (.list type items, number) :: below
  | .map type entries => do
    let number ← started
    if type = some "" then
      refuse .untitledMap
    else
      mapBegin (type.getD "")
      let below ← nested (visitsOfEntries entries)
      terminator
      return (.map type entries, number) :: below
  | .object c fields => do
    let number ← started
    if fields.length = c.fieldNames.length then
      objectBegin c
      let below ← nested (visitsOfItems fields)
      return (.object c fields, number) :: below
    else
      refuse (.fieldCount c.typeName c.fieldNames.length fields.length)
  | v => do
    let number ← started
    value v
    return [(v, number)]

/-- Writes values one after another. -/
def visitsOfItems : List Value → Encode (List (Value × Nat))
  | [] => pure []
  | v :: rest => do
    let first ← visits v
    return first ++ (← visitsOfItems rest)

/-- Writes entries one after another, each key before its value. -/
def visitsOfEntries : List (Value × Value) → Encode (List (Value × Nat))
  | [] => pure []
  | (key, v) :: rest => do
    let first ← visits key
    let second ← visits v
    return first ++ second ++ (← visitsOfEntries rest)

end

/-! ## To note what is written changes nothing -/

variable {α β : Type}

/-- One level deeper a result may as well be changed afterwards. -/
theorem nested_map (f : α → β) (write : Encode α) :
    nested (f <$> write) = f <$> nested write := by
  funext e
  simp only [map_eq_pure_bind]
  by_cases hle : e.maxDepth ≤ e.depth
  · rw [nested_of_le hle, bind_error (nested_of_le hle)]
  · have hlt := Nat.not_le.mp hle
    cases hw : write e.enter with
    | ok a u =>
      have hf : (write >>= fun a => pure (f a)) e.enter = .ok (f a) u := bind_ok hw
      rw [bind_ok (nested_ok hlt hw), nested_ok hlt hf]
      rfl
    | error err u => rw [bind_error (nested_error hlt hw), nested_error hlt (bind_error hw)]

/-- To look at the count changes nothing. -/
theorem started_bind (write : Encode α) : (started >>= fun _ => write) = write := rfl

/-- A refusal is the end. -/
theorem refuse_bind (fault : EncodeFault) (f : α → Encode β) :
    (refuse fault >>= f) = refuse fault := rfl

/-- What has been noted below a container is dropped there. -/
theorem nested_silent {write : Encode α} {body : Encode Unit}
    (h : (fun _ => ()) <$> write = body) :
    (nested write >>= fun _ => pure ()) = nested body := by
  rw [← h, nested_map, map_eq_pure_bind]

/-- A value without parts is written as such. -/
theorem map_visit (v : Value) (write : Encode Unit) :
    ((fun _ => ()) <$> (started >>= fun number => write >>= fun _ => pure [(v, number)])) =
      write := by
  simp only [map_bind, map_pure, bind_pure_unit, started_bind]

mutual

/-- Values are written as if nothing were noted. -/
theorem map_visits : (v : Value) → (fun _ => ()) <$> visits v = value v
  | .list type items => by
    rw [visits, map_bind, value]
    split
    · rw [map_eq_pure_bind, refuse_bind, started_bind]
    · simp only [map_bind, map_pure, nested_silent (map_visitsOfItems items), started_bind]
  | .map type entries => by
    rw [visits, map_bind, value]
    split
    · rw [map_eq_pure_bind, refuse_bind, started_bind]
    · rw [← nested_silent (map_visitsOfEntries entries)]
      simp only [map_bind, map_pure, bind_assoc, pure_bind, bind_pure_unit, started_bind]
  | .object c fields => by
    rw [visits, map_bind, value]
    split
    · simp only [map_bind, map_pure, nested_silent (map_visitsOfItems fields), started_bind]
    · rw [map_eq_pure_bind, refuse_bind, started_bind]
  | .null => map_visit _ _
  | .boolean _ => map_visit _ _
  | .int _ => map_visit _ _
  | .long _ => map_visit _ _
  | .double _ => map_visit _ _
  | .binary _ => map_visit _ _
  | .date _ => map_visit _ _
  | .string _ => map_visit _ _
  | .ref _ => map_visit _ _

theorem map_visitsOfItems : (vs : List Value) → (fun _ => ()) <$> visitsOfItems vs = values vs
  | [] => rfl
  | v :: vs => by
    rw [visitsOfItems, values, ← map_visits v, ← map_visitsOfItems vs]
    simp only [map_eq_pure_bind, bind_assoc, pure_bind]

theorem map_visitsOfEntries : (entries : Entries) →
    (fun _ => ()) <$> visitsOfEntries entries = pairs entries
  | [] => rfl
  | (key, v) :: rest => by
    rw [visitsOfEntries, pairs, ← map_visits key, ← map_visits v, ← map_visitsOfEntries rest]
    simp only [map_eq_pure_bind, bind_assoc, pure_bind]

end

/-! ## What is noted -/

/-- A value that is written with notes is written. -/
theorem ok_of_map {write : Encode α} {body : Encode Unit} {e e' : Encoder} {a : α}
    (hb : (fun _ => ()) <$> write = body) (h : write e = .ok a e') : body e = .ok () e' := by
  rw [← hb, map_eq_pure_bind, bind_ok h]
  rfl

/-- Of a value without parts only itself is noted. -/
theorem visit_eq {v : Value} {write : Encode Unit} {e e' : Encoder} {log : List (Value × Nat)}
    (h : (started >>= fun number => write >>= fun _ => pure [(v, number)]) e = .ok log e') :
    log = Value.numbered e.containers [(e.depth, v)] := by
  obtain ⟨number, u, hn, h⟩ := ok_of_bind h
  obtain ⟨rfl, rfl⟩ := EStateM.Result.ok.inj hn
  obtain ⟨-, w, -, h⟩ := ok_of_bind h
  exact (EStateM.Result.ok.inj h).1.symm

/-- Below a container there is one more than before it. -/
theorem below_eq {bound t d : Nat} {header : Encode Unit} {body : Encode (List (Value × Nat))}
    (parts : Nat → List (Nat × Value)) (hh : Always bound t d 1 header) (hr : Regular header)
    (hb : ∀ u w below, body u = .ok below w →
      below = Value.numbered u.containers (parts u.depth))
    {e u w : Encoder} {below : List (Value × Nat)} (hu : header e = .ok () u)
    (hn : nested body u = .ok below w) :
    below = Value.numbered (e.containers + 1) (parts (e.depth + 1)) := by
  obtain ⟨-, x, hx, -⟩ := ok_of_nested hn
  rw [hb _ _ _ hx, ← (hh.grown hu).containers, ← (hr.advance_ok hu).depth]
  rfl

mutual

/-- The walk through a value is noted, with its containers counted along. -/
theorem visits_eq : (v : Value) → (e e' : Encoder) → (log : List (Value × Nat)) →
    visits v e = .ok log e' → log = Value.numbered e.containers (v.walk e.depth)
  | .list type items, e, e', log, h => by
    rw [visits] at h
    obtain ⟨number, u, hn, h⟩ := ok_of_bind h
    obtain ⟨rfl, rfl⟩ := EStateM.Result.ok.inj hn
    split at h
    · cases h
    · obtain ⟨⟨⟩, u, hu, h⟩ := ok_of_bind h
      obtain ⟨below, w, hw, h⟩ := ok_of_bind h
      obtain ⟨rfl, -⟩ := EStateM.Result.ok.inj h
      rw [Value.walk, Value.numbered_container rfl,
        below_eq (Value.walkItems · items) (@always_listBegin 0 _ _ (length_lt_of_listBegin hu))
          (regular_listBegin _ _) (visitsOfItems_eq items) hu hw]
  | .map type entries, e, e', log, h => by
    rw [visits] at h
    obtain ⟨number, u, hn, h⟩ := ok_of_bind h
    obtain ⟨rfl, rfl⟩ := EStateM.Result.ok.inj hn
    split at h
    · cases h
    · obtain ⟨⟨⟩, u, hu, h⟩ := ok_of_bind h
      obtain ⟨below, w, hw, h⟩ := ok_of_bind h
      obtain ⟨-, x, -, h⟩ := ok_of_bind h
      obtain ⟨rfl, -⟩ := EStateM.Result.ok.inj h
      rw [Value.walk, Value.numbered_container rfl,
        below_eq (Value.walkEntries · entries) (@always_mapBegin 0 _) (regular_mapBegin _)
          (visitsOfEntries_eq entries) hu hw]
  | .object c fields, e, e', log, h => by
    rw [visits] at h
    obtain ⟨number, u, hn, h⟩ := ok_of_bind h
    obtain ⟨rfl, rfl⟩ := EStateM.Result.ok.inj hn
    split at h
    · obtain ⟨⟨⟩, u, hu, h⟩ := ok_of_bind h
      obtain ⟨below, w, hw, h⟩ := ok_of_bind h
      obtain ⟨rfl, -⟩ := EStateM.Result.ok.inj h
      rw [Value.walk, Value.numbered_container rfl,
        below_eq (Value.walkItems · fields)
          (@always_objectBegin (c.fieldNames.length + 1) _ (Nat.lt_succ_self _))
          (regular_objectBegin c) (visitsOfItems_eq fields) hu hw]
    · cases h
  | .null, _, _, _, h => visit_eq h
  | .boolean _, _, _, _, h => visit_eq h
  | .int _, _, _, _, h => visit_eq h
  | .long _, _, _, _, h => visit_eq h
  | .double _, _, _, _, h => visit_eq h
  | .binary _, _, _, _, h => visit_eq h
  | .date _, _, _, _, h => visit_eq h
  | .string _, _, _, _, h => visit_eq h
  | .ref _, _, _, _, h => visit_eq h

theorem visitsOfItems_eq : (vs : List Value) → (e e' : Encoder) → (log : List (Value × Nat)) →
    visitsOfItems vs e = .ok log e' →
    log = Value.numbered e.containers (Value.walkItems e.depth vs)
  | [], e, e', log, h => (EStateM.Result.ok.inj h).1.symm
  | v :: vs, e, e', log, h => by
    obtain ⟨first, u, hv, h⟩ := ok_of_bind h
    obtain ⟨rest, w, hvs, h⟩ := ok_of_bind h
    obtain ⟨rfl, rfl⟩ := EStateM.Result.ok.inj h
    have hw := ok_of_map (map_visits v) hv
    have ha := (regular_value v).advance_ok hw
    have hc := (grown_value v e u hw (Nat.le_refl _)).containers
    rw [visits_eq v e u first hv, visitsOfItems_eq vs u w rest hvs, ha.depth, hc,
      Value.walkItems, Value.numbered_append, Value.containersOn_walk]

theorem visitsOfEntries_eq : (entries : Entries) → (e e' : Encoder) →
    (log : List (Value × Nat)) → visitsOfEntries entries e = .ok log e' →
    log = Value.numbered e.containers (Value.walkEntries e.depth entries)
  | [], e, e', log, h => (EStateM.Result.ok.inj h).1.symm
  | (key, v) :: rest, e, e', log, h => by
    obtain ⟨first, u, hk, h⟩ := ok_of_bind h
    obtain ⟨second, w, hv, h⟩ := ok_of_bind h
    obtain ⟨third, x, hrest, h⟩ := ok_of_bind h
    obtain ⟨rfl, rfl⟩ := EStateM.Result.ok.inj h
    have hu := ok_of_map (map_visits key) hk
    have hw := ok_of_map (map_visits v) hv
    have hau := (regular_value key).advance_ok hu
    have haw := (regular_value v).advance_ok hw
    have hcu := (grown_value key e u hu (Nat.le_refl _)).containers
    have hcw := (grown_value v u w hw (Nat.le_refl _)).containers
    rw [visits_eq key e u first hk, visits_eq v u w second hv,
      visitsOfEntries_eq rest w x third hrest,
      haw.depth, hau.depth, hcw, hcu, Value.walkEntries, Value.numbered_append,
      Value.numbered_append, Value.containersOn_append, Value.containersOn_walk,
      Value.containersOn_walk, Nat.add_assoc]

end

/-! ## Results -/

/-- A value that has been written has been noted on the way. -/
theorem visits_of_value {v : Value} {e e' : Encoder} (h : value v e = .ok () e') :
    visits v e = .ok (Value.numbered e.containers (v.walk e.depth)) e' := by
  rw [← map_visits, map_eq_pure_bind] at h
  obtain ⟨log, u, hlog, h⟩ := ok_of_bind h
  obtain ⟨-, rfl⟩ := EStateM.Result.ok.inj h
  rw [← visits_eq v e u log hlog, hlog]

/-- A session that writes a value from its start numbers the containers of the value as references
do.  It starts as many as there are in the value, the one that it starts after `i` others is the one
to which a reference `i` resolves, and no reference resolves beyond them.  A reference in the value
resolves to a container that the session has started before it came to the reference. -/
theorem resolve_of_visits {root : Value} {buffer : Bytes} {maxDepth : Nat} {e : Encoder}
    (h : value root (.start buffer maxDepth) = .ok () e) :
    (fun _ => ()) <$> visits root = value root ∧
    (∀ index : UInt32, root.resolve? index = (root.search index 0).getLeft?) ∧
    ∃ log, visits root (.start buffer maxDepth) = .ok log e ∧
      log.map Prod.fst = (root.walk 0).map Prod.snd ∧
      e.containers = Value.containersOn (root.walk 0) ∧
      (∀ index : UInt32, (log.filter Value.visitsContainer)[index.toNat]? =
        (root.resolve? index).map fun c => (c, index.toNat)) ∧
      (∀ index : UInt32, e.containers ≤ index.toNat → root.resolve? index = none) ∧
      ∀ (before behind : List (Value × Nat)) (index : UInt32) (n : Nat),
        log = before ++ (.ref index, n) :: behind →
        ∃ c, root.resolve? index = some c ∧
          (c, index.toNat) ∈ before.filter Value.visitsContainer := by
  have hcount : e.containers = root.containers.length :=
    (grown_value root _ e h (Nat.le_refl _)).containers.trans (Nat.zero_add _)
  refine ⟨map_visits root, root.resolve?_eq_search, Value.numbered 0 (root.walk 0),
    visits_of_value h, Value.map_numbered _ _, ?_, root.getElem?_visited, ?_, ?_⟩
  · rw [Value.containersOn_walk, hcount]
  · intro index hle
    exact List.getElem?_eq_none (hcount ▸ hle)
  · intro before behind index n hwalk
    exact Value.resolve?_of_visit ((value_ok_iff root _).mp ⟨e, h⟩).2.2 hwalk

/-- A list of an empty list, a reference to that one, and a reference to the list itself. -/
theorem resolve_of_visits_list :
    let root : Value := .list none [.list none [], .ref 1, .ref 0]
    ∃ log e, visits root (.start [] 2) = .ok log e ∧ e.containers = 2 ∧
      log[2]? = some (.ref 1, 2) ∧ root.resolve? 1 = some (.list none []) ∧
      (.list none [], 1) ∈ log.take 2 ∧ root.resolve? 2 = none := by
  intro root
  have hwritten : value root (.start [] 2) =
      .ok () { output := #[0x7b, 0x78, 0x51, 0x91, 0x51, 0x90], containers := 2,
               maxDepth := 2 } := by
    simp only [root, value, values]
    rfl
  have hwalk : Value.numbered 0 (root.walk 0) =
      [(root, 0), (.list none [], 1), (.ref 1, 2), (.ref 0, 2)] := by
    simp only [root, Value.walk, Value.walkItems]
    rfl
  obtain ⟨-, -, log, hlog, -, hcount, -, hbeyond, hrefs⟩ := resolve_of_visits hwritten
  obtain ⟨rfl, -⟩ := EStateM.Result.ok.inj (hlog.symm.trans (visits_of_value hwritten))
  obtain ⟨c, hc, hm⟩ := hrefs [(root, 0), (.list none [], 1)] _ 1 2 hwalk
  have htarget : root.resolve? 1 = some (.list none []) := by
    simp only [root, Value.resolve?, Value.containers, Value.containersOfItems]
    rfl
  obtain rfl : Value.list none [] = c := Option.some.inj (htarget.symm.trans hc)
  refine ⟨_, _, hlog, hcount, ?_, hc, ?_, hbeyond 2 (Nat.le_refl 2)⟩
  · exact congrArg (·[2]?) hwalk
  · change _ ∈ (Value.numbered 0 (root.walk 0)).take 2
    rw [hwalk]
    exact List.mem_of_mem_filter hm

end Encode

end Hessian
