import Hessian.Decoder.Value
import Hessian.Proofs.Decoder.Loop

/-!
# What a success says

`Decode.Yields R step` says that `R` holds between the sessions before and after a success of the
step and its result.  Of a repetition it holds link by link, `Decode.Chain`.

The first use of it is to count: `Decode.Counts k step` says how many containers the step starts.
The header of a container starts one, and nothing else starts any.
-/

namespace Hessian.Decode

variable {α β : Type}

/-- Whenever the step succeeds, the relation holds. -/
def Yields (R : Decoder → α → Decoder → Prop) (step : Decode α) : Prop :=
  ∀ s a t, step s = .ok a t → R s a t

/-- The relation holds of results one after another. -/
def Chain (R : Decoder → α → Decoder → Prop) : Decoder → List α → Decoder → Prop
  | s, [], t => t = s
  | s, a :: rest, t => ∃ u, R s a u ∧ Chain R u rest t

section Repetition

variable {R : Decoder → α → Decoder → Prop} {step : Decode α}

/-- A number of runs gives so many results. -/
theorem Yields.times (h : Yields R step) (count : Nat) :
    Yields (fun s found t => found.length = count ∧ Chain R s found t) (times count step) := by
  induction count with
  | zero =>
    intro s found t hs
    obtain ⟨rfl, rfl⟩ := EStateM.Result.ok.inj hs
    exact ⟨rfl, rfl⟩
  | succ count ih =>
    intro s found t hs
    rw [times_succ] at hs
    obtain ⟨a, u, ha, hs⟩ := ok_of_bind hs
    obtain ⟨rest, w, hrest, hs⟩ := ok_of_bind hs
    obtain ⟨rfl, rfl⟩ := EStateM.Result.ok.inj hs
    obtain ⟨hl, hc⟩ := ih u rest w hrest
    exact ⟨congrArg (· + 1) hl, u, h s a u ha, hc⟩

/-- To look at the next octet takes nothing. -/
theorem eq_of_peek {s t : Decoder} {code : UInt8} (h : peek s = .ok code t) : t = s := by
  unfold peek at h
  split at h
  · cases h
  · exact (EStateM.Result.ok.inj h).2.symm

/-- Where there is no terminator, nothing is taken. -/
theorem eq_of_terminator {s t : Decoder} (h : terminator s = .ok false t) : t = s := by
  obtain ⟨code, u, hp, hrest⟩ := ok_of_bind h
  obtain rfl := eq_of_peek hp
  split at hrest
  · obtain ⟨b, w, hb, hrest⟩ := ok_of_bind hrest
    cases hrest
  · exact (EStateM.Result.ok.inj hrest).2.symm

/-- Rounds give results one after another, and then comes what the last of them gives. -/
theorem Yields.rounds {round : Decode (α ⊕ β)} {R : Decoder → α ⊕ β → Decoder → Prop}
    (h : Yields R round) :
    Yields (fun s r t => ∃ u, Chain (fun s a t => R s (.inl a) t) s r.1 u ∧ R u (.inr r.2) t)
      (rounds round) := by
  have hfrom (fuel : Nat) : ∀ (found : List α) (s : Decoder) (r : List α × β) (t : Decoder),
      roundsFrom round found fuel s = .ok r t → ∃ rest u, r.1 = found.reverse ++ rest ∧
        Chain (fun s a t => R s (.inl a) t) s rest u ∧ R u (.inr r.2) t := by
    induction fuel with
    | zero =>
      intro found s r t hs
      obtain ⟨code, u, -, hs⟩ := ok_of_bind hs
      cases hs
    | succ fuel ih =>
      intro found s r t hs
      obtain ⟨result, u, hu, hrest⟩ := ok_of_bind hs
      have hr := h s result u hu
      cases result with
      | inr b =>
        obtain ⟨rfl, rfl⟩ := EStateM.Result.ok.inj hrest
        exact ⟨[], s, (List.append_nil _).symm, rfl, hr⟩
      | inl a =>
        obtain ⟨rest, w, he, hc, ht⟩ := ih (a :: found) u r t hrest
        rw [List.reverse_cons, List.append_assoc, List.singleton_append] at he
        exact ⟨a :: rest, w, he, ⟨u, hr, hc⟩, ht⟩
  intro s r t hs
  obtain ⟨rest, u, he, hc, ht⟩ := hfrom _ [] s r t hs
  exact ⟨u, he ▸ hc, ht⟩

/-- Runs up to the terminator give results one after another, and then there is the terminator. -/
theorem Yields.untilTerminator (h : Yields R step) :
    Yields (fun s found t => ∃ u, Chain R s found u ∧ terminator u = .ok true t)
      (untilTerminator step) := by
  have hround : Yields (fun s r t => Sum.elim (fun a => R s a t)
      (fun _ => terminator s = .ok true t) r) (unlessTerminator step) := by
    intro s r t hs
    obtain ⟨done, u, hd, hrest⟩ := ok_of_bind hs
    cases done with
    | true =>
      obtain ⟨rfl, rfl⟩ := EStateM.Result.ok.inj hrest
      exact hd
    | false =>
      obtain rfl := eq_of_terminator hd
      obtain ⟨a, w, ha, hrest⟩ := ok_of_bind hrest
      obtain ⟨rfl, rfl⟩ := EStateM.Result.ok.inj hrest
      exact h u a w ha
  intro s found t hs
  unfold Decode.untilTerminator at hs
  rw [map_eq_pure_bind] at hs
  obtain ⟨r, u, hr, hs⟩ := ok_of_bind hs
  obtain ⟨rfl, rfl⟩ := EStateM.Result.ok.inj hs
  exact hround.rounds s r u hr

/-- A success one level deeper was one there, below the limit. -/
theorem ok_of_nested {s t : Decoder} {a : α} (h : nested step s = .ok a t) :
    s.depth < s.maxDepth ∧ ∃ u, step s.enter = .ok a u ∧ t = u.leave := by
  by_cases hle : s.maxDepth ≤ s.depth
  · rw [nested_of_le hle] at h
    cases h
  · have hlt := Nat.not_le.mp hle
    cases hs : step s.enter with
    | ok b u =>
      rw [nested_ok hlt hs] at h
      obtain ⟨rfl, rfl⟩ := EStateM.Result.ok.inj h
      exact ⟨hlt, u, rfl, rfl⟩
    | error e u =>
      rw [nested_error hlt hs] at h
      cases h

end Repetition

/-! ## Counting containers -/

/-- The step starts as many containers as its result tells. -/
def Counts (k : α → Nat) (step : Decode α) : Prop :=
  Yields (fun s a t => t.containers = s.containers + k a) step

/-- The step starts no containers. -/
abbrev Plain (step : Decode α) : Prop := Counts (fun _ => 0) step

section Counts

theorem plain_pure (a : α) : Plain (pure a : Decode α) := by
  intro s b t h
  obtain ⟨-, rfl⟩ := EStateM.Result.ok.inj h
  rfl

theorem counts_throw (k : α → Nat) (e : Error) : Counts k (throw e : Decode α) := by
  intro s b t h
  cases h

theorem counts_unexpected (k : α → Nat) (code : UInt8) :
    Counts k (unexpected code : Decode α) := by
  intro s b t h
  cases h

/-- Containers may be started after a step that starts none. -/
theorem Plain.bind {x : Decode α} {f : α → Decode β} {k : β → Nat} (hx : Plain x)
    (hf : ∀ a, Counts k (f a)) : Counts k (x >>= f) := by
  intro s b u h
  obtain ⟨a, t, ha, hb⟩ := ok_of_bind h
  exact (hf a t b u hb).trans (congrArg (· + k b) (hx s a t ha))

theorem Counts.map {x : Decode α} (f : α → β) {k : β → Nat} (hx : Counts (fun a => k (f a)) x) :
    Counts k (f <$> x) := by
  intro s b u h
  rw [map_eq_pure_bind] at h
  obtain ⟨a, t, ha, hb⟩ := ok_of_bind h
  obtain ⟨rfl, rfl⟩ := EStateM.Result.ok.inj hb
  exact hx s a t ha

theorem Plain.map {x : Decode α} (f : α → β) (hx : Plain x) : Plain (f <$> x) :=
  Counts.map f hx

theorem plain_offset : Plain offset := by
  intro s a t h
  obtain ⟨-, rfl⟩ := EStateM.Result.ok.inj h
  rfl

theorem plain_started : Plain started := by
  intro s a t h
  obtain ⟨-, rfl⟩ := EStateM.Result.ok.inj h
  rfl

theorem plain_addType (name : String) : Plain (addType name) := by
  intro s a t h
  obtain ⟨-, rfl⟩ := EStateM.Result.ok.inj h
  rfl

theorem plain_addDefinition (c : Definition) : Plain (addDefinition c) := by
  intro s a t h
  obtain ⟨-, rfl⟩ := EStateM.Result.ok.inj h
  rfl

/-- Where a container is counted, one is started. -/
theorem counts_addContainer (a : α) {k : α → Nat} (hk : k a = 1) :
    Counts k (addContainer >>= fun _ => pure a) := by
  intro s b t h
  obtain ⟨rfl, rfl⟩ := EStateM.Result.ok.inj h
  rw [hk]

theorem plain_peek : Plain peek := by
  intro s a t h
  unfold peek at h
  split at h
  · cases h
  · obtain ⟨-, rfl⟩ := EStateM.Result.ok.inj h
    rfl

theorem plain_octet : Plain octet := by
  intro s a t h
  unfold octet at h
  split at h
  · cases h
  · obtain ⟨-, rfl⟩ := EStateM.Result.ok.inj h
    rfl

theorem plain_octets (n : Nat) : Plain (octets n) := by
  intro s a t h
  unfold octets at h
  split at h
  · obtain ⟨-, rfl⟩ := EStateM.Result.ok.inj h
    rfl
  · cases h

theorem plain_word (width : Nat) : Plain (word width) := (plain_octets width).map _

theorem plain_characters (count : Nat) : Plain (characters count) := by
  intro s a t h
  unfold characters at h
  simp only at h
  split at h
  · obtain ⟨-, rfl⟩ := EStateM.Result.ok.inj h
    rfl
  · cases h
  · cases h
  · cases h

theorem plain_lookup (kind : RefKind) (table : Decoder → List α) (index : Int) (offset : Nat) :
    Plain (lookup kind table index offset) := by
  intro s a t h
  unfold lookup at h
  split at h
  · obtain ⟨-, rfl⟩ := EStateM.Result.ok.inj h
    rfl
  · cases h

theorem Plain.times {step : Decode α} (h : Plain step) (count : Nat) :
    Plain (times count step) := by
  induction count with
  | zero => exact plain_pure []
  | succ count ih =>
    rw [times_succ]
    exact h.bind fun a => ih.bind fun rest => plain_pure _

/-- Rounds start what the last one starts, if the others start nothing. -/
theorem Counts.rounds {round : Decode (α ⊕ β)} {k : Nat}
    (h : Counts (Sum.elim (fun _ => 0) fun _ => k) round) : Counts (fun _ => k) (rounds round) := by
  have hfrom (fuel : Nat) : ∀ found, Counts (fun _ => k) (roundsFrom round found fuel) := by
    induction fuel with
    | zero =>
      intro found
      exact plain_octet.bind fun code => counts_unexpected _ code
    | succ fuel ih =>
      intro found s r t hs
      obtain ⟨r', u, hu, hs⟩ := ok_of_bind hs
      have hcount := h s r' u hu
      cases r' with
      | inl a => exact (ih (a :: found) u r t hs).trans (congrArg (· + k) hcount)
      | inr b =>
        obtain ⟨-, rfl⟩ := EStateM.Result.ok.inj hs
        exact hcount
  exact fun s => hfrom _ [] s

theorem Plain.chunks {chunk : Decode (Bool × List α)} (h : Plain chunk) :
    Plain (chunks chunk) := by
  refine Plain.bind (Counts.rounds fun s r t hs => ?_) fun _ => plain_pure _
  have hround : Plain (chunkRound chunk) := h.bind fun _ => plain_pure _
  have hcount := hround s r t hs
  cases r with
  | inl _ => exact hcount
  | inr _ => exact hcount

end Counts

/-! ## Scalars start none -/

theorem plain_null : Plain null := by
  apply plain_octet.bind
  intro code
  split
  · exact plain_pure _
  · exact counts_unexpected _ code

theorem plain_boolean : Plain boolean := by
  apply plain_octet.bind
  intro code
  split
  · exact plain_pure _
  · exact counts_unexpected _ code

theorem plain_int : Plain int := by
  apply plain_octet.bind
  intro code
  split
  · exact (plain_word _).bind fun _ => plain_pure _
  · exact (plain_word 4).bind fun _ => plain_pure _
  · exact counts_unexpected _ code

theorem plain_long : Plain long := by
  apply plain_octet.bind
  intro code
  split
  · exact (plain_word _).bind fun _ => plain_pure _
  · exact (plain_word 4).bind fun _ => plain_pure _
  · exact (plain_word 8).bind fun _ => plain_pure _
  · exact counts_unexpected _ code

theorem plain_double : Plain double := by
  apply plain_octet.bind
  intro code
  split
  · exact plain_pure _
  · exact plain_pure _
  · exact (plain_word 1).bind fun _ => plain_pure _
  · exact (plain_word 2).bind fun _ => plain_pure _
  · exact (plain_word 4).bind fun _ => plain_pure _
  · exact (plain_word 8).bind fun _ => plain_pure _
  · exact counts_unexpected _ code

theorem plain_date : Plain date := by
  apply plain_octet.bind
  intro code
  split
  · exact (plain_word 8).bind fun _ => plain_pure _
  · exact (plain_word 4).bind fun _ => plain_pure _
  · exact counts_unexpected _ code

theorem plain_binary : Plain binary := by
  refine Plain.chunks (plain_octet.bind fun code => ?_)
  split
  · exact (plain_word _).bind fun _ => (plain_octets _).bind fun _ => plain_pure _
  · exact counts_unexpected _ code

theorem plain_string : Plain string := by
  refine (Plain.chunks (plain_octet.bind fun code => ?_)).map _
  split
  · exact (plain_word _).bind fun _ => (plain_characters _).bind fun _ => plain_pure _
  · exact counts_unexpected _ code

theorem plain_ref : Plain ref := by
  refine plain_offset.bind fun start => plain_octet.bind fun code => ?_
  split
  · refine plain_int.bind fun index => plain_started.bind fun started => ?_
    split
    · exact plain_pure _
    · exact counts_throw _ _
  · exact counts_unexpected _ code

theorem plain_terminator : Plain terminator := by
  apply plain_peek.bind
  intro code
  split
  · exact plain_octet.bind fun _ => plain_pure _
  · exact plain_pure _

/-! ## Headers start one -/

theorem plain_typeName : Plain typeName := by
  refine plain_offset.bind fun start => plain_peek.bind fun code => ?_
  split
  · exact plain_string.bind fun name => (plain_addType name).bind fun _ => plain_pure _
  · exact plain_int.bind fun index => plain_lookup _ _ _ _

theorem plain_optionalType (typed : Bool) : Plain (optionalType typed) := by
  unfold optionalType
  split
  · exact plain_typeName.map some
  · exact plain_pure none

theorem plain_listLength : Plain listLength := by
  refine plain_offset.bind fun start => plain_int.bind fun length => ?_
  dsimp only
  split
  · exact plain_pure _
  · exact counts_throw _ _

theorem counts_listBegin : Counts (fun _ => 1) listBegin := by
  apply plain_octet.bind
  intro code
  split
  · apply (plain_optionalType _).bind
    intro type
    split
    · exact (plain_pure none).bind fun _ => counts_addContainer _ rfl
    · exact (plain_listLength.map some).bind fun _ => counts_addContainer _ rfl
    · exact (plain_pure _).bind fun _ => counts_addContainer _ rfl
  · exact counts_unexpected _ code

theorem counts_mapBegin : Counts (fun _ => 1) mapBegin := by
  apply plain_octet.bind
  intro code
  split
  · exact (plain_optionalType _).bind fun type => counts_addContainer _ rfl
  · exact counts_unexpected _ code

theorem plain_definitionBody : Plain definitionBody := by
  refine plain_string.bind fun typeName => plain_offset.bind fun start =>
    plain_int.bind fun count => ?_
  dsimp only
  split
  · exact counts_throw _ _
  · exact (plain_string.times _).bind fun fieldNames =>
      (plain_addDefinition _).bind fun _ => plain_pure _

theorem counts_objectBegin : Counts (fun _ => 1) objectBegin := by
  refine Counts.map _ (Counts.rounds ?_)
  refine plain_offset.bind fun start => plain_octet.bind fun code => ?_
  split
  · exact Counts.map _ plain_definitionBody
  · exact plain_int.bind fun index => (plain_lookup _ _ _ _).bind fun c =>
      counts_addContainer _ rfl
  · exact (plain_lookup _ _ _ _).bind fun c => counts_addContainer _ rfl
  · exact counts_unexpected _ code

end Hessian.Decode
