import Hessian.Proofs.Decoder.Step

/-!
# Steps that repeat

Rounds are given a bound, the number of octets that are left, since each round that lets another
one follow takes at least one of them.  So no round is ever cut off: any bound that is large
enough gives the same (`roundsFrom_eq_rounds`), and rounds satisfy the equation that one would
write without a bound, `rounds_eq`.  It also does without the list of earlier results.

From it come the equations of the loops of the grammar: a list that is closed by the terminator
(`untilTerminator_eq`) and a chain of chunks (`chunks_eq`).  Repetition by a number has its own,
`times_succ`.
-/

namespace Hessian.Decode

variable {α β : Type}

/-! ## A number of runs -/

section Times

variable {step : Decode α}

/-- The results found so far only stand in front. -/
theorem repeatFrom_eq (step : Decode α) (found : List α) (count : Nat) :
    repeatFrom step found count = (found.reverse ++ ·) <$> times count step := by
  induction count generalizing found with
  | zero => simp [repeatFrom, times]
  | succ count ih =>
    simp only [repeatFrom, times, map_bind]
    apply bind_congr
    intro a
    rw [ih (a :: found), ih [a], Functor.map_map]
    simp

/-- No runs give no results. -/
@[simp] theorem times_zero (step : Decode α) : times 0 step = pure [] := rfl

/-- One run more is a run in front. -/
theorem times_succ (step : Decode α) (count : Nat) :
    times (count + 1) step = do
      let a ← step
      let rest ← times count step
      return a :: rest := by
  simp only [times, repeatFrom]
  apply bind_congr
  intro a
  rw [repeatFrom_eq, map_eq_pure_bind]
  rfl

/-- Results may as well be changed run by run. -/
theorem times_map {γ : Type} (f : α → γ) (step : Decode α) (count : Nat) :
    times count (f <$> step) = List.map f <$> times count step := by
  induction count with
  | zero => rfl
  | succ count ih => simp [times_succ, ih]

/-- Repeating a regular step is regular. -/
theorem Regular.times (h : Regular step) (count : Nat) : Regular (times count step) := by
  induction count with
  | zero => exact regular_pure []
  | succ count ih =>
    rw [times_succ]
    exact h.bind fun a => ih.bind fun rest => regular_pure _

end Times

/-! ## Rounds -/

/-- A round that takes at least one octet when it lets another one follow. -/
def Paced (round : Decode (α ⊕ β)) : Prop :=
  ∀ s a t, round s = .ok (.inl a) t → t.input.length < s.input.length

/-- A reader is paced. -/
theorem Reader.paced {round : Decode (α ⊕ β)} (h : Reader round) : Paced round :=
  fun s a t => h.productive s (.inl a) t

section Rounds

variable {round : Decode (α ⊕ β)}

theorem regular_roundsFrom (h : Regular round) (found : List α) (fuel : Nat) :
    Regular (roundsFrom round found fuel) := by
  induction fuel generalizing found with
  | zero => exact regular_octet.bind fun code => regular_unexpected code
  | succ fuel ih =>
    apply h.bind
    intro r
    cases r with
    | inl a => exact ih (a :: found)
    | inr b => exact regular_pure _

/-- When as many rounds are allowed as there are octets, one more makes no difference. -/
theorem roundsFrom_succ (hp : Paced round) (hh : Hungry round) (found : List α) (fuel : Nat)
    (s : Decoder) (hs : s.input.length ≤ fuel) :
    roundsFrom round found (fuel + 1) s = roundsFrom round found fuel s := by
  induction fuel generalizing found s with
  | zero =>
    have hi : s.input = [] := List.length_eq_zero_iff.mp (Nat.le_zero.mp hs)
    rw [roundsFrom, roundsFrom, bind_error (hh s hi), bind_error (hungry_octet s hi)]
  | succ fuel ih =>
    rw [roundsFrom, roundsFrom]
    apply bind_congr_ok
    intro r t ht
    cases r with
    | inl a => exact ih (a :: found) t (by have := hp s a t ht; omega)
    | inr b => rfl

/-- Any bound will do that is at least the number of octets. -/
theorem roundsFrom_eq_rounds (hp : Paced round) (hh : Hungry round) {fuel : Nat} {s : Decoder}
    (hs : s.input.length ≤ fuel) : roundsFrom round [] fuel s = rounds round s := by
  induction hs with
  | refl => rfl
  | step hs ih => rw [roundsFrom_succ hp hh [] _ s hs, ih]

/-- Regular rounds are regular together. -/
theorem Regular.rounds (h : Regular round) (hp : Paced round) (hh : Hungry round) :
    Regular (rounds round) :=
  .of_forall fun s more => by
    refine ⟨roundsFrom round [] (s.extend more).input.length, regular_roundsFrom h _ _, ?_, rfl⟩
    refine (roundsFrom_eq_rounds hp hh ?_).symm
    rw [Decoder.extend_input, List.length_append]
    exact Nat.le_add_right _ _

/-- Rounds need an octet for the first one. -/
theorem hungry_rounds (round : Decode (α ⊕ β)) : Hungry (rounds round) := by
  intro s hs
  unfold rounds
  rw [hs]
  exact hungry_octet.bind _ s hs

/-- Rounds of a reader are read by a reader: the last one has taken an octet as well. -/
theorem Reader.rounds (h : Reader round) : Reader (rounds round) where
  toRegular := h.toRegular.rounds h.paced h.hungry
  productive := by
    intro s r t hr
    unfold Decode.rounds at hr
    cases hn : s.input.length with
    | zero =>
      rw [hn, roundsFrom, bind_error (hungry_octet s (List.length_eq_zero_iff.mp hn))] at hr
      cases hr
    | succ n =>
      rw [hn, roundsFrom] at hr
      refine hn ▸ h.productive.bind (fun r => ?_) s r t hr
      cases r with
      | inl a => exact regular_roundsFrom h.toRegular _ n
      | inr b => exact regular_pure _
  hungry := hungry_rounds round

/-- The results found so far only stand in front. -/
theorem roundsFrom_eq (round : Decode (α ⊕ β)) (found : List α) (fuel : Nat) :
    roundsFrom round found fuel =
      (fun r => (found.reverse ++ r.1, r.2)) <$> roundsFrom round [] fuel := by
  induction fuel generalizing found with
  | zero =>
    simp only [roundsFrom, map_bind]
    rfl
  | succ fuel ih =>
    simp only [roundsFrom, map_bind]
    apply bind_congr
    intro r
    cases r with
    | inl a =>
      simp only
      rw [ih (a :: found), ih [a], Functor.map_map]
      simp
    | inr b => simp

/-- A round is the last one, or all the rounds follow again. -/
theorem rounds_eq (hp : Paced round) (hh : Hungry round) :
    rounds round = (do
      match ← round with
      | .inl a =>
        let (rest, b) ← rounds round
        return (a :: rest, b)
      | .inr b => return ([], b)) := by
  funext s
  rw [← roundsFrom_eq_rounds hp hh (Nat.le_succ _), roundsFrom]
  apply bind_congr_ok
  intro r t ht
  cases r with
  | inl a =>
    have hts : t.input.length ≤ s.input.length := Nat.le_of_lt (hp s a t ht)
    simp only
    rw [roundsFrom_eq, map_eq_pure_bind]
    cases h : roundsFrom round [] s.input.length t with
    | ok r u => rw [bind_ok h, bind_ok (roundsFrom_eq_rounds hp hh hts ▸ h)]; rfl
    | error e u => rw [bind_error h, bind_error (roundsFrom_eq_rounds hp hh hts ▸ h)]
  | inr b => rfl

/-- Results may as well be changed round by round. -/
theorem rounds_map {γ : Type} (f : α → γ) (round : Decode (α ⊕ β)) :
    rounds (Sum.map f id <$> round) = Prod.map (List.map f) id <$> rounds round := by
  have hfrom (found : List α) (fuel : Nat) :
      roundsFrom (Sum.map f id <$> round) (found.map f) fuel =
        Prod.map (List.map f) id <$> roundsFrom round found fuel := by
    induction fuel generalizing found with
    | zero =>
      rw [roundsFrom, roundsFrom, map_bind]
      rfl
    | succ fuel ih =>
      rw [roundsFrom, roundsFrom, map_bind, bind_map_left]
      apply bind_congr
      intro r
      cases r with
      | inl a => exact ih (a :: found)
      | inr b => simp
  funext s
  exact congrFun (hfrom [] s.input.length) s

end Rounds

/-! ## Up to the terminator -/

theorem regular_terminator : Regular terminator := by
  apply regular_peek.bind
  intro b
  split
  · exact regular_octet.bind fun _ => regular_pure true
  · exact regular_pure false

theorem hungry_terminator : Hungry terminator := hungry_peek.bind _

section UntilTerminator

variable {step : Decode α}

/-- What follows a round depends on whether the terminator was next. -/
theorem unlessTerminator_bind (step : Decode α) (f : α ⊕ Unit → Decode β) :
    unlessTerminator step >>= f = (do
      if ← terminator then
        f (.inr ())
      else
        let a ← step
        f (.inl a)) := by
  unfold unlessTerminator
  rw [bind_assoc]
  apply bind_congr
  intro done
  split <;> simp

theorem regular_unlessTerminator (h : Regular step) : Regular (unlessTerminator step) := by
  apply regular_terminator.bind
  intro done
  split
  · exact regular_pure _
  · exact h.bind fun a => regular_pure _

theorem paced_unlessTerminator (hp : Productive step) : Paced (unlessTerminator step) := by
  intro s a u h
  unfold unlessTerminator at h
  cases hs : terminator s with
  | ok done t =>
    rw [bind_ok hs] at h
    have hst := (regular_terminator.advance_ok hs).length_le
    cases done with
    | true => cases h
    | false =>
      refine Nat.lt_of_lt_of_le ?_ hst
      exact hp.bind (fun a => regular_pure (Sum.inl a : α ⊕ Unit)) t _ u h
  | error e t =>
    rw [bind_error hs] at h
    cases h

theorem hungry_unlessTerminator (step : Decode α) : Hungry (unlessTerminator step) :=
  hungry_terminator.bind _

/-- Repeating a regular step up to the terminator is regular. -/
theorem Regular.untilTerminator (h : Regular step) (hp : Productive step) :
    Regular (untilTerminator step) :=
  ((regular_unlessTerminator h).rounds (paced_unlessTerminator hp)
    (hungry_unlessTerminator step)).map _

/-- Either the terminator is next, or there is a run and then the same again. -/
theorem untilTerminator_eq (hp : Productive step) :
    untilTerminator step = do
      if ← terminator then
        return []
      else
        let a ← step
        let rest ← untilTerminator step
        return a :: rest := by
  unfold untilTerminator
  conv =>
    lhs
    rw [rounds_eq (paced_unlessTerminator hp) (hungry_unlessTerminator step),
      unlessTerminator_bind, map_bind]
  apply bind_congr
  intro done
  split <;> simp

theorem untilTerminator_map {γ : Type} (f : α → γ) (step : Decode α) :
    untilTerminator (f <$> step) = List.map f <$> untilTerminator step := by
  have hround : unlessTerminator (f <$> step) = Sum.map f id <$> unlessTerminator step := by
    unfold unlessTerminator
    rw [map_bind]
    apply bind_congr
    intro done
    cases done <;> simp
  rw [untilTerminator, hround, rounds_map, untilTerminator, Functor.map_map, Functor.map_map]
  rfl

end UntilTerminator

/-! ## Chunks -/

section Chunks

variable {chunk : Decode (Bool × List α)}

/-- What follows a round depends on whether the chunk was the final one. -/
theorem chunkRound_bind (chunk : Decode (Bool × List α)) (f : List α ⊕ List α → Decode β) :
    chunkRound chunk >>= f = (do
      let (isFinal, part) ← chunk
      if isFinal then f (.inr part) else f (.inl part)) := by
  unfold chunkRound
  rw [bind_assoc]
  apply bind_congr
  rintro ⟨isFinal, part⟩
  rw [pure_bind]
  cases isFinal <;> rfl

theorem reader_chunkRound (h : Reader chunk) : Reader (chunkRound chunk) :=
  h.bind fun _ => regular_pure _

/-- A chain of chunks is read by a reader if the chunks are. -/
theorem Reader.chunks (h : Reader chunk) : Reader (chunks chunk) :=
  (reader_chunkRound h).rounds.bind fun _ => regular_pure _

/-- A chunk is the final one, or a chain of chunks follows. -/
theorem chunks_eq (h : Reader chunk) :
    chunks chunk = do
      let (isFinal, part) ← chunk
      if isFinal then
        return part
      else
        let rest ← chunks chunk
        return part ++ rest := by
  unfold chunks
  conv =>
    lhs
    rw [rounds_eq (reader_chunkRound h).paced (reader_chunkRound h).hungry, chunkRound_bind,
      bind_assoc]
  apply bind_congr
  rintro ⟨isFinal, part⟩
  cases isFinal <;> simp

end Chunks

end Hessian.Decode
