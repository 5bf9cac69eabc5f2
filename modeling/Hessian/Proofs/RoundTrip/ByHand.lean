import Hessian.Proofs.RoundTrip.Value

/-!
# Values written by hand

A container can be written by the steps for its header, its parts and its end, as `Encode.byHand`
does.  Then there is a choice for every list, which may have its length in front or be closed by a
terminator, and for every container, whose parts may be written one level deeper or not.
`Encode.value` makes the same choices everywhere, and what it can write can be written by hand in
any other manner.  The octets differ, but the tables do not, and a decoding session reads the same
value.

The two sessions are compared step by step.  Only the octets and the depth of the one that writes by
hand are its own (`Encoder.beside`).  Where a header is written, neither of them matters
(`Encode.Blind`), nor does it matter to the tables whether a list has its length in front
(`Encode.openListBegin_follows`).  `Encode.Parallel` is the invariant: by hand the step can be taken
next to the other session, and what it writes is read as if that one had written it.

## Main statements

* `Encode.value_parallel` : what can be written as a value can be written by hand next to it.
* `Encode.byHand_round_trip` : a value that is written by hand in any manner is read back.
-/

namespace Hessian

/-- A session with octets and a depth of its own, and what the other session has in its tables. -/
def Encoder.beside (e : Encoder) (output : Array UInt8) (depth : Nat) : Encoder :=
  { e with output, depth }

namespace Encode

variable {α β : Type}

/-! ## Writing by hand -/

/-- What is free about a container that is written by hand. -/
structure Manner where
  /-- Whether a list is closed by a terminator. -/
  isOpen : Bool
  /-- Whether the parts are written one level deeper. -/
  deeper : Bool

/-- Writes the parts of a container, one level deeper or not. -/
def inside (deeper : Bool) (parts : Encode Unit) : Encode Unit :=
  if deeper then nested parts else parts

mutual

/-- Writes a value, each container by its header, its parts and its end.  The manner is that for the
number of the container in the stream. -/
def byHand (manner : Nat → Manner) : Value → Encode Unit
  | .list type items => do
    let number ← started
    if (manner number).isOpen then
      openListBegin (type.getD "")
      inside (manner number).deeper (byHandItems manner items)
      terminator
    else
      listBegin (type.getD "") items.length
      inside (manner number).deeper (byHandItems manner items)
  | .map type entries => do
    let number ← started
    mapBegin (type.getD "")
    inside (manner number).deeper (byHandEntries manner entries)
    terminator
  | .object c fields => do
    let number ← started
    objectBegin c
    inside (manner number).deeper (byHandItems manner fields)
  | v => value v

/-- Writes values one after another. -/
def byHandItems (manner : Nat → Manner) : List Value → Encode Unit
  | [] => pure ()
  | v :: rest => do
    byHand manner v
    byHandItems manner rest

/-- Writes entries one after another, each key before its value. -/
def byHandEntries (manner : Nat → Manner) : List (Value × Value) → Encode Unit
  | [] => pure ()
  | (key, v) :: rest => do
    byHand manner key
    byHand manner v
    byHandEntries manner rest

end

/-- Octets may be written before the container is left. -/
theorem inside_emit (deeper : Bool) (parts : Encode Unit) (bytes : Bytes) :
    (inside deeper parts >>= fun _ => emit bytes) =
      inside deeper (parts >>= fun _ => emit bytes) := by
  cases deeper with
  | true => exact nested_emit parts bytes
  | false => rfl

/-! ## Steps next to each other -/

/-- Wherever the second step can be taken, the first one can be taken next to it, with any octets
and at any depth.  It answers the same and leaves the same tables. -/
def Follows (hand write : Encode α) : Prop :=
  ∀ (e e' : Encoder) (a : α), write e = .ok a e' → ∀ output, ∃ output', ∀ depth,
    hand (e.beside output depth) = .ok a (e'.beside output' depth)

/-- A step to which octets and depth do not matter. -/
abbrev Blind (write : Encode α) : Prop := Follows write write

theorem blind_pure (a : α) : Blind (pure a : Encode α) := by
  intro e e' b h output
  obtain ⟨rfl, rfl⟩ := EStateM.Result.ok.inj h
  exact ⟨output, fun _ => rfl⟩

theorem blind_refuse (fault : EncodeFault) : Blind (refuse fault : Encode α) :=
  fun _ _ _ h => nomatch h

theorem Follows.bind {x y : Encode α} {f g : α → Encode β} (hx : Follows x y)
    (hf : ∀ a, Follows (f a) (g a)) : Follows (x >>= f) (y >>= g) := by
  intro e e' b h output
  obtain ⟨a, u, hu, h⟩ := ok_of_bind h
  obtain ⟨between, hx⟩ := hx e u a hu output
  obtain ⟨output', hf⟩ := hf a u e' b h between
  exact ⟨output', fun depth => (bind_ok (hx depth)).trans (hf depth)⟩

/-- Where octets are written others may be written. -/
theorem follows_emit (bytes bytes' : Bytes) : Follows (emit bytes) (emit bytes') := by
  intro e e' b h output
  obtain ⟨-, rfl⟩ := EStateM.Result.ok.inj h
  exact ⟨output ++ bytes, fun _ => rfl⟩

/-- Where octets are written there may be none. -/
theorem follows_nothing {write : Encode Unit} {read : Decode α} {a : α}
    (h : Undone write read a) : Follows (pure ()) write := by
  obtain ⟨bytes, rfl, -⟩ := h
  intro e e' b h output
  obtain ⟨-, rfl⟩ := EStateM.Result.ok.inj h
  exact ⟨output, fun _ => rfl⟩

/-- What writes the same octets in every session is blind. -/
theorem Undone.blind {write : Encode Unit} {read : Decode α} {a : α}
    (h : Undone write read a) : Blind write := by
  obtain ⟨bytes, rfl, -⟩ := h
  exact follows_emit bytes bytes

theorem blind_form (lead : Lead) (tail : Bytes) : Blind (form lead tail) := follows_emit _ _

/-- A look at what the sessions share is blind. -/
theorem blind_look {f : Encoder → α} (hf : ∀ e output depth, f (e.beside output depth) = f e) :
    Blind (fun e => .ok (f e) e : Encode α) := by
  intro e e' a h output
  obtain ⟨rfl, rfl⟩ := EStateM.Result.ok.inj h
  exact ⟨output, fun depth => congrArg (EStateM.Result.ok · _) (hf e output depth)⟩

theorem blind_addType (name : String) : Blind (addType name) := by
  intro e e' a h output
  obtain ⟨-, rfl⟩ := EStateM.Result.ok.inj h
  exact ⟨output, fun _ => rfl⟩

theorem blind_addDefinition (c : Definition) : Blind (addDefinition c) := by
  intro e e' a h output
  obtain ⟨rfl, rfl⟩ := EStateM.Result.ok.inj h
  exact ⟨output, fun _ => rfl⟩

theorem blind_addContainer : Blind addContainer := by
  intro e e' a h output
  obtain ⟨-, rfl⟩ := EStateM.Result.ok.inj h
  exact ⟨output, fun _ => rfl⟩

theorem blind_int (n : Int32) : Blind (int n) := (int_undone n).blind

theorem blind_string (s : String) : Blind (string s) := (string_undone s).blind

theorem blind_ref (index : UInt32) : Blind (ref index) := by
  apply (blind_look fun _ _ _ => rfl).bind
  intro written
  split
  · exact (blind_form _ _).bind fun _ => blind_int _
  · exact blind_refuse _

theorem blind_optionalType (name : String) : Blind (optionalType name) := by
  unfold optionalType
  split
  · exact blind_pure ()
  · apply (blind_look fun _ _ _ => rfl).bind
    intro index
    split
    · exact blind_int _
    · exact (blind_addType name).bind fun _ => blind_string name

theorem blind_strings (names : List String) : Blind (strings names) := by
  induction names with
  | nil => exact blind_pure ()
  | cons name names ih => exact (blind_string name).bind fun _ => ih

theorem blind_definition (c : Definition) : Blind (definition c) := by
  apply (blind_look fun _ _ _ => rfl).bind
  intro index
  split
  · exact blind_pure _
  · exact (blind_form _ _).bind fun _ => (blind_string _).bind fun _ =>
      (blind_int _).bind fun _ => (blind_strings _).bind fun _ => blind_addDefinition c

theorem blind_objectBegin (c : Definition) : Blind (objectBegin c) := by
  refine (blind_definition c).bind fun index => Follows.bind ?_ fun _ => blind_addContainer
  unfold objectIndex
  split
  · exact blind_form _ _
  · exact (blind_form _ _).bind fun _ => blind_int _

theorem blind_listBegin (type : String) (length : Nat) : Blind (listBegin type length) := by
  unfold listBegin
  split
  · exact blind_refuse _
  split
  · exact (blind_form _ _).bind fun _ => (blind_optionalType type).bind fun _ =>
      blind_addContainer
  · exact (blind_form _ _).bind fun _ => (blind_optionalType type).bind fun _ =>
      (blind_int _).bind fun _ => blind_addContainer

theorem blind_mapBegin (type : String) : Blind (mapBegin type) :=
  (blind_form _ _).bind fun _ => (blind_optionalType type).bind fun _ => blind_addContainer

/-- A list may have its header without its length. -/
theorem openListBegin_follows (type : String) (length : Nat) :
    Follows (openListBegin type) (listBegin type length) := by
  unfold listBegin
  split
  · exact fun _ _ _ h => nomatch h
  split
  · exact (follows_emit _ _).bind fun _ => (blind_optionalType type).bind fun _ =>
      blind_addContainer
  · refine (follows_emit _ _).bind fun _ => (blind_optionalType type).bind fun _ => ?_
    exact (follows_nothing (int_undone _)).bind fun _ => blind_addContainer

/-! ## Reading next to each other -/

theorem openListBegin_echo {type : String} {e e' : Encoder}
    (h : openListBegin type e = .ok () e') (hs : e'.Small) :
    Echo Decode.listBegin ⟨if type.isEmpty then none else some type, none⟩ e e' := by
  obtain ⟨⟨⟩, u, hf, h⟩ := ok_of_bind h
  obtain ⟨⟨⟩, v, ht, hc⟩ := ok_of_bind h
  have hsv := (regular_addContainer.advance_ok hc).small hs
  refine .form hf ?_
  simp only [Lead.ofByte_toByte (.list (!type.isEmpty) .terminated) trivial]
  exact (optionalType_echo ht fun _ => hsv).bind (.bind (.pure _ _) ((Echo.addContainer hc).bind
    (.pure _ _)))

/-- By hand the step can be taken next to the other session, no deeper than that one is, and what it
writes is read as if that one had written it. -/
structure Parallel (hand : Encode Unit) (read : Decode α) (a : α) (e e' : Encoder) : Prop where
  depth : e'.depth = e.depth
  run : ∀ output, ∀ depth ≤ e.depth, ∃ output',
    hand (e.beside output depth) = .ok () (e'.beside output' depth) ∧
    Echo read a (e.beside output e.depth) (e'.beside output' e'.depth)

namespace Parallel

variable {hand hand' : Encode Unit} {read : Decode α} {a : α} {e e' e'' : Encoder}

/-- Where a step follows another one, it is read as it is read on its own. -/
theorem of_follows {write : Encode Unit} (hf : Follows hand write) (hr : Regular write)
    (hecho : ∀ u u', hand u = .ok () u' → u'.Small → Echo read a u u')
    (h : write e = .ok () e') (hs : e'.Small) : Parallel hand read a e e' where
  depth := (hr.advance_ok h).depth
  run output depth _ := by
    obtain ⟨output', hrun⟩ := hf e e' () h output
    have hread := hecho _ _ (hrun e.depth) ⟨hs.types, hs.definitions, hs.containers, hs.fields⟩
    rw [← (hr.advance_ok h).depth] at hread ⊢
    exact ⟨output', hrun depth, hread⟩

theorem pure (a : α) (e : Encoder) : Parallel (Pure.pure ()) (Pure.pure a) a e e :=
  ⟨rfl, fun output _ _ => ⟨output, rfl, .pure a _⟩⟩

theorem bind {f : α → Decode β} {b : β} (hx : Parallel hand read a e e')
    (hf : Parallel hand' (f a) b e' e'') :
    Parallel (hand >>= fun _ => hand') (read >>= f) b e e'' where
  depth := hf.depth.trans hx.depth
  run output depth hd := by
    obtain ⟨between, hb, hread⟩ := hx.run output depth hd
    obtain ⟨output', ho, hread'⟩ := hf.run between depth (hx.depth ▸ hd)
    exact ⟨output', (bind_ok hb).trans ho, hread.bind hread'⟩

/-- What is read in one way may be read in another one. -/
theorem imp {read' : Decode β} {b : β} (hx : Parallel hand read a e e')
    (h : ∀ {u u'}, Echo read a u u' → Echo read' b u u') : Parallel hand read' b e e' where
  depth := hx.depth
  run output depth hd := by
    obtain ⟨output', ho, hread⟩ := hx.run output depth hd
    exact ⟨output', ho, h hread⟩

/-- The number of a container is the same by hand. -/
theorem atNumber {hand : Nat → Encode Unit} (h : Parallel (hand e.containers) read a e e') :
    Parallel (started >>= hand) read a e e' :=
  ⟨h.depth, h.run⟩

/-- The reader goes one level deeper, whether it has been done by hand or not. -/
theorem inside (deeper : Bool) (hlt : e.depth < e.maxDepth)
    (h : Parallel hand read a e.enter e') :
    Parallel (inside deeper hand) (Decode.nested read) a e e'.leave where
  depth := congrArg (· - 1) h.depth
  run output depth hd := by
    have hlevel : (e.beside output e.depth).depth < (e.beside output e.depth).maxDepth := hlt
    cases deeper with
    | true =>
      obtain ⟨output', ho, hread⟩ := h.run output (depth + 1) (Nat.succ_le_succ hd)
      have hdeep : (e.beside output depth).depth < (e.beside output depth).maxDepth :=
        Nat.lt_of_le_of_lt hd hlt
      exact ⟨output', nested_ok hdeep ho, Echo.nested hlevel hread⟩
    | false =>
      obtain ⟨output', ho, hread⟩ := h.run output depth (Nat.le_succ_of_le hd)
      exact ⟨output', ho, Echo.nested hlevel hread⟩

/-- A terminator that the other session does not write is where the parts end. -/
theorem untilTerminator {step : Decode α} {count : Nat} {as : List α} (hp : Decode.Productive step)
    (ho : Decode.Opens (· ≠ .terminator) step)
    (h : Parallel hand (Decode.times count step) as e e') :
    Parallel (hand >>= fun _ => terminator) (Decode.untilTerminator step) as e e' := by
  have hend (as : List α) : Parallel terminator (do
      let done ← Decode.terminator
      return (as, done)) (as, true) e' e' := by
    refine ⟨rfl, fun output depth _ => ⟨_, rfl, ?_⟩⟩
    exact (Echo.of_reads Decode.reads_terminator rfl).bind (.pure (as, true) _)
  have hboth : Parallel (hand >>= fun _ => terminator) (do
      let as ← Decode.times count step
      let done ← Decode.terminator
      return (as, done)) (as, true) e e' := h.bind (hend as)
  refine hboth.imp fun hread => hread.congr fun s t hst => ?_
  obtain ⟨as', u, htimes, hst⟩ := Decode.ok_of_bind hst
  obtain ⟨done, w, hdone, hst⟩ := Decode.ok_of_bind hst
  obtain ⟨hpair, rfl⟩ := EStateM.Result.ok.inj hst
  obtain ⟨rfl, rfl⟩ := Prod.mk.inj hpair
  exact Decode.untilTerminator_of_times hp ho htimes hdone

/-- What has been read may be changed afterwards. -/
theorem map {f : α → Decode β} {b : β} (h : Parallel hand read a e e')
    (hf : ∀ u, Echo (f a) b u u) : Parallel hand (read >>= f) b e e' :=
  h.imp fun hread => hread.bind (hf _)

/-- What is read by the step for its kind and what follows that is read as a value. -/
theorem readBy {step : Decode α} {answer : α → Decode Value} {v : Value}
    (ho : Decode.Opens (Decode.ReadBy Decode.value step answer) step)
    (h : Parallel hand (step >>= answer) v e e') : Parallel hand Decode.value v e e' :=
  h.imp (.readBy ho)

/-- A value without parts is written by hand as such. -/
theorem scalar {v : Value} (hb : Blind (Encode.value v)) (h : Encode.value v e = .ok () e')
    (hs : e'.Small) : Parallel (Encode.value v) Decode.value v.norm e e' :=
  .of_follows hb (regular_value v) (value_echo v) h hs

end Parallel

variable (manner : Nat → Manner)

mutual

/-- What can be written as a value can be written by hand next to it. -/
theorem value_parallel : (v : Value) → (e e' : Encoder) → value v e = .ok () e' → e'.Small →
    Parallel (byHand manner v) Decode.value v.norm e e'
  | .null, _, _, h, hs => .scalar null_undone.blind h hs
  | .boolean b, _, _, h, hs => .scalar (boolean_undone b).blind h hs
  | .int n, _, _, h, hs => .scalar (blind_int n) h hs
  | .long n, _, _, h, hs => .scalar (long_undone n).blind h hs
  | .double d, _, _, h, hs => .scalar (double_undone d).blind h hs
  | .binary bytes, _, _, h, hs => .scalar (binary_undone bytes).blind h hs
  | .date millis, _, _, h, hs => .scalar (date_undone millis).blind h hs
  | .string s, _, _, h, hs => .scalar (blind_string s) h hs
  | .ref index, _, _, h, hs => .scalar (blind_ref index) h hs
  | .list type items, e, e', h, hs => by
    unfold value at h
    split at h
    · cases h
    · next ht =>
      obtain ⟨⟨⟩, u, hb, hn⟩ := ok_of_bind h
      have hsu := ((regular_values items).nested.advance_ok hn).small hs
      obtain ⟨hlt, w, hw, rfl⟩ := ok_of_nested hn
      have hitems := values_parallel items u.enter w hw hs.of_leave
      unfold byHand
      refine .atNumber ?_
      split
      · have hheader : Parallel (openListBegin (type.getD "")) Decode.listBegin ⟨type, none⟩ e u :=
          .of_follows (openListBegin_follows _ _) (regular_listBegin _ _)
            (fun u u' h hs => title_eq ht ▸ openListBegin_echo h hs) hb hsu
        rw [terminator, form, inside_emit]
        have hparts := (hitems.untilTerminator Decode.reader_value.productive
          Decode.opens_value).inside (manner e.containers).deeper hlt
        have hlist : Parallel _ (Decode.listOf Decode.value) (type, Value.normItems items) e
            w.leave := hheader.bind (hparts.map fun u => .pure _ u)
        exact .readBy (Decode.opens_listOf _) (hlist.map fun u => .pure _ u)
      · have hheader : Parallel (listBegin (type.getD "") items.length) Decode.listBegin
            ⟨type, some items.length⟩ e u :=
          .of_follows (blind_listBegin _ _) (regular_listBegin _ _)
            (fun u u' h hs => title_eq ht ▸ listBegin_echo h fun _ => hs) hb hsu
        have hparts := hitems.inside (manner e.containers).deeper hlt
        have hlist : Parallel _ (Decode.listOf Decode.value) (type, Value.normItems items) e
            w.leave := hheader.bind (hparts.map fun u => .pure _ u)
        exact .readBy (Decode.opens_listOf _) (hlist.map fun u => .pure _ u)
  | .map type entries, e, e', h, hs => by
    unfold value at h
    split at h
    · cases h
    · next ht =>
      obtain ⟨⟨⟩, u, hb, h⟩ := ok_of_bind h
      obtain ⟨⟨⟩, w, hn, hend⟩ := ok_of_bind h
      have hsw := ((regular_form _ _).advance_ok hend).small hs
      have hsu := ((regular_pairs entries).nested.advance_ok hn).small hsw
      obtain ⟨hlt, w, hw, rfl⟩ := ok_of_nested hn
      obtain ⟨-, rfl⟩ := EStateM.Result.ok.inj hend
      have hheader : Parallel (mapBegin (type.getD "")) Decode.mapBegin type e u :=
        .of_follows (blind_mapBegin _) (regular_mapBegin _)
          (fun u u' h hs => title_eq ht ▸ mapBegin_echo h fun _ => hs) hb hsu
      have hparts := ((pairs_parallel entries u.enter w hw hsw.of_leave).untilTerminator
        productive_pair opens_pair).inside (manner e.containers).deeper hlt
      unfold byHand
      refine .atNumber ?_
      rw [terminator, form, inside_emit]
      have hmap : Parallel _ (Decode.mapOf Decode.value Decode.value)
          (type, Value.normEntries entries) e w.leave :=
        hheader.bind (hparts.map fun u => .pure _ u)
      have hvalue : Parallel _ Decode.value (Value.map type entries).norm e w.leave :=
        .readBy (Decode.opens_mapOf _) (hmap.map fun u => .pure _ u)
      exact ⟨hvalue.depth, hvalue.run⟩
  | .object c fields, e, e', h, hs => by
    unfold value at h
    split at h
    · next hl =>
      obtain ⟨⟨⟩, u, hb, hn⟩ := ok_of_bind h
      have hsu := ((regular_values fields).nested.advance_ok hn).small hs
      obtain ⟨hlt, w, hw, rfl⟩ := ok_of_nested hn
      have hheader : Parallel (objectBegin c) Decode.objectBegin c e u :=
        .of_follows (blind_objectBegin c) (regular_objectBegin c)
          (fun u u' h hs => objectBegin_echo h hs) hb hsu
      have hparts := (values_parallel fields u.enter w hw hs.of_leave).inside
        (manner e.containers).deeper hlt
      rw [hl] at hparts
      unfold byHand
      refine .atNumber ?_
      exact .readBy (Decode.opens_objectBegin _) (hheader.bind (hparts.map (.pure _)))
    · cases h

/-- Values can be written by hand one after another. -/
theorem values_parallel : (vs : List Value) → (e e' : Encoder) → values vs e = .ok () e' →
    e'.Small → Parallel (byHandItems manner vs) (Decode.times vs.length Decode.value)
      (Value.normItems vs) e e'
  | [], e, e', h, _ => by
    obtain ⟨-, rfl⟩ := EStateM.Result.ok.inj h
    exact .pure [] e
  | v :: vs, e, e', h, hs => by
    obtain ⟨⟨⟩, u, hv, hr⟩ := ok_of_bind h
    have hsu := ((regular_values vs).advance_ok hr).small hs
    rw [List.length_cons, Decode.times_succ]
    exact (value_parallel v e u hv hsu).bind ((values_parallel vs u e' hr hs).map (.pure _))

/-- Entries can be written by hand one after another. -/
theorem pairs_parallel : (entries : Entries) → (e e' : Encoder) → pairs entries e = .ok () e' →
    e'.Small → Parallel (byHandEntries manner entries)
      (Decode.times entries.length (Decode.pairOf Decode.value Decode.value))
      (Value.normEntries entries) e e'
  | [], e, e', h, _ => by
    obtain ⟨-, rfl⟩ := EStateM.Result.ok.inj h
    exact .pure [] e
  | (key, v) :: rest, e, e', h, hs => by
    obtain ⟨⟨⟩, u, hk, h⟩ := ok_of_bind h
    obtain ⟨⟨⟩, w, hv, hr⟩ := ok_of_bind h
    have hsw := ((regular_pairs rest).advance_ok hr).small hs
    have hsu := ((regular_value v).advance_ok hv).small hsw
    have hpair : Parallel (byHand manner key >>= fun _ => byHand manner v)
        (Decode.pairOf Decode.value Decode.value) (key.norm, v.norm) e w :=
      (value_parallel key e u hk hsu).bind ((value_parallel v u w hv hsw).map (.pure _))
    rw [List.length_cons, Decode.times_succ, byHandEntries, ← bind_assoc]
    exact hpair.bind ((pairs_parallel rest w e' hr hs).map (.pure _))

end

/-! ## Sessions -/

/-- What a session can write as a value it can write by hand, in any manner for each container.
What it has then in its tables is the same, and what is read is the value. -/
theorem byHand_round_trip {v : Value} {maxDepth : Nat} {e : Encoder}
    (h : value v (.start [] maxDepth) = .ok () e) (hs : e.Small) (hz : v.NoNegZero)
    (hp : v.Proper) :
    ∃ u s, byHand manner v (.start [] maxDepth) = .ok () u ∧
      u.types = e.types ∧ u.definitions = e.definitions ∧ u.containers = e.containers ∧
      Decode.value (.start u.bytes maxDepth) = .ok v s ∧ s.input = [] := by
  obtain ⟨output, hhand, hread⟩ :=
    (value_parallel manner v _ e h hs).run #[] 0 (Nat.le_refl 0)
  have hstart := read_of_echo hread []
  rw [List.append_nil, v.norm_eq hz hp] at hstart
  exact ⟨_, _, hhand, rfl, rfl, rfl, hstart, rfl⟩

/-- A list that is closed by a terminator, of an empty list that has its length in front and of a
reference to that one.  Nothing is written deeper. -/
theorem byHand_round_trip_list :
    let root : Value := .list (some "t") [.list none [], .ref 1]
    let manner : Nat → Manner := fun number => ⟨number = 0, false⟩
    ∃ u s, byHand manner root (.start [] 2) = .ok () u ∧
      u.bytes = [0x55, 0x01, 0x74, 0x78, 0x51, 0x91, 0x5a] ∧
      u.types = ["t"] ∧ u.containers = 2 ∧
      Decode.value (.start u.bytes 2) = .ok root s ∧ s.input = [] := by
  intro root manner
  have hwritten : value root (.start [] 2) =
      .ok () { output := #[0x72, 0x01, 0x74, 0x78, 0x51, 0x91], types := ["t"], containers := 2,
               maxDepth := 2 } := by
    simp only [root, value, values]
    rfl
  have hhand : byHand manner root (.start [] 2) =
      .ok () { output := #[0x55, 0x01, 0x74, 0x78, 0x51, 0x91, 0x5a], types := ["t"],
               containers := 2, maxDepth := 2 } := by
    simp only [root, byHand, byHandItems, value]
    rfl
  have hsmall : ∀ c ∈ ([] : List Definition), c.fieldNames.length < 2 ^ 31 := fun _ hc => nomatch hc
  obtain ⟨u, s, hu, ht, -, hc, hread, hinput⟩ :=
    byHand_round_trip manner hwritten ⟨by decide, by decide, by decide, hsmall⟩
      ⟨nofun, ⟨nofun, trivial⟩, nofun, trivial⟩ ⟨trivial, ⟨trivial, trivial⟩, trivial, trivial⟩
  obtain ⟨-, rfl⟩ := EStateM.Result.ok.inj (hu.symm.trans hhand)
  exact ⟨_, s, hhand, rfl, ht, hc, hread, hinput⟩

end Encode

end Hessian
