import Hessian.Proofs.Decoder.Value
import Hessian.Proofs.Decoder.Yields
import Mathlib.Data.List.Forall2

/-!
# Steps that succeed together

`Decode.Mirrors R x y` says that wherever `x` succeeds, `y` succeeds as well and leaves the same
session behind, and that `R` holds of the two results.  Nothing is said of where `x` fails.

It goes through steps that are put together in the same way, with one lemma for each way.  Of
repetitions it gives the relation result by result, as `List.Forall₂`.
-/

namespace Hessian.Decode

variable {α β γ δ : Type} {R : α → β → Prop} {S : γ → δ → Prop} {x : Decode α} {y : Decode β}

/-- Wherever the first step succeeds, the second one succeeds with a related result and leaves the
same session behind. -/
def Mirrors (R : α → β → Prop) (x : Decode α) (y : Decode β) : Prop :=
  ∀ s a t, x s = .ok a t → ∃ b, y s = .ok b t ∧ R a b

theorem Mirrors.refl (x : Decode α) : Mirrors Eq x x := fun _ a _ h => ⟨a, h, rfl⟩

theorem Mirrors.mono {R' : α → β → Prop} (h : Mirrors R x y) (hR : ∀ a b, R a b → R' a b) :
    Mirrors R' x y := by
  intro s a t hs
  obtain ⟨b, hy, hab⟩ := h s a t hs
  exact ⟨b, hy, hR a b hab⟩

theorem mirrors_pure {a : α} {b : β} (h : R a b) : Mirrors R (pure a) (pure b) := by
  intro s a' t hs
  obtain ⟨rfl, rfl⟩ := EStateM.Result.ok.inj hs
  exact ⟨b, rfl, h⟩

/-- What never succeeds has nothing to be mirrored. -/
theorem mirrors_throw (e : Error) (y : Decode β) : Mirrors R (throw e) y := by
  intro s a t hs
  cases hs

theorem Mirrors.bind {f : α → Decode γ} {g : β → Decode δ} (h : Mirrors R x y)
    (hf : ∀ a b, R a b → Mirrors S (f a) (g b)) : Mirrors S (x >>= f) (y >>= g) := by
  intro s c u hs
  obtain ⟨a, t, ha, hc⟩ := ok_of_bind hs
  obtain ⟨b, hb, hab⟩ := h s a t ha
  rw [bind_ok hb]
  exact hf a b hab t c u hc

/-- After the same step it is enough to look at what follows. -/
theorem Mirrors.after (x : Decode α) {f : α → Decode γ} {g : α → Decode δ}
    (hf : ∀ a, Mirrors S (f a) (g a)) : Mirrors S (x >>= f) (x >>= g) := by
  refine (Mirrors.refl x).bind fun a b hab => ?_
  rw [← hab]
  exact hf a

theorem Mirrors.map {f : α → γ} {g : β → δ} (h : Mirrors R x y)
    (hf : ∀ a b, R a b → S (f a) (g b)) : Mirrors S (f <$> x) (g <$> y) := by
  rw [map_eq_pure_bind, map_eq_pure_bind]
  exact h.bind fun a b hab => mirrors_pure (hf a b hab)

/-- The result of the first step may be changed by itself. -/
theorem Mirrors.map_left {S : γ → β → Prop} {f : α → γ} (h : Mirrors R x y)
    (hf : ∀ a b, R a b → S (f a) b) : Mirrors S (f <$> x) y := by
  have hmap : Mirrors S (f <$> x) (id <$> y) := h.map hf
  rwa [id_map] at hmap

/-- So may the result of the second one. -/
theorem Mirrors.map_right {S : α → δ → Prop} {g : β → δ} (h : Mirrors R x y)
    (hg : ∀ a b, R a b → S a (g b)) : Mirrors S x (g <$> y) := by
  have hmap : Mirrors S (id <$> x) (g <$> y) := h.map hg
  rwa [id_map] at hmap

/-! ## Nesting and repetition -/

theorem Mirrors.nested (h : Mirrors R x y) : Mirrors R (nested x) (nested y) := by
  intro s a t hs
  obtain ⟨hlt, u, ha, rfl⟩ := ok_of_nested hs
  obtain ⟨b, hb, hab⟩ := h s.enter a u ha
  exact ⟨b, nested_ok hlt hb, hab⟩

theorem Mirrors.times (h : Mirrors R x y) (count : Nat) :
    Mirrors (List.Forall₂ R) (times count x) (times count y) := by
  induction count with
  | zero => exact mirrors_pure .nil
  | succ count ih =>
    rw [times_succ, times_succ]
    exact h.bind fun a b hab => ih.bind fun as bs hrest => mirrors_pure (.cons hab hrest)

/-- Rounds that mirror each other end at the same time. -/
theorem Mirrors.rounds {round : Decode (α ⊕ γ)} {round' : Decode (β ⊕ δ)}
    (h : Mirrors (Sum.LiftRel R S) round round') :
    Mirrors (fun r r' => List.Forall₂ R r.1 r'.1 ∧ S r.2 r'.2) (rounds round) (rounds round') := by
  have hfrom (fuel : Nat) : ∀ found found', List.Forall₂ R found found' →
      Mirrors (fun r r' => List.Forall₂ R r.1 r'.1 ∧ S r.2 r'.2)
        (roundsFrom round found fuel) (roundsFrom round' found' fuel) := by
    induction fuel with
    | zero =>
      intro found found' hfound s r t hs
      obtain ⟨code, u, -, hs⟩ := ok_of_bind hs
      cases hs
    | succ fuel ih =>
      intro found found' hfound
      refine h.bind fun r r' hr => ?_
      cases hr with
      | inl hab => exact ih _ _ (.cons hab hfound)
      | inr hcd => exact mirrors_pure ⟨List.rel_reverse hfound, hcd⟩
  exact fun s => hfrom s.input.length [] [] .nil s

theorem Mirrors.untilTerminator (h : Mirrors R x y) :
    Mirrors (List.Forall₂ R) (untilTerminator x) (untilTerminator y) := by
  have hround : Mirrors (Sum.LiftRel R Eq) (unlessTerminator x) (unlessTerminator y) := by
    refine .after terminator fun done => ?_
    cases done with
    | true => exact mirrors_pure (.inr rfl)
    | false => exact h.bind fun a b hab => mirrors_pure (.inl hab)
  exact hround.rounds.map fun r r' hr => hr.1

/-! ## Containers -/

theorem Mirrors.listOf (h : Mirrors R x y) :
    Mirrors (fun r r' => List.Forall₂ R r.2 r'.2) (listOf x) (listOf y) := by
  refine .after listBegin fun header => ?_
  refine Mirrors.bind (R := List.Forall₂ R) (Mirrors.nested ?_) fun as bs hab => mirrors_pure hab
  split
  · exact h.times _
  · exact h.untilTerminator

theorem Mirrors.mapOf {x' : Decode γ} {y' : Decode δ} (h : Mirrors R x y) (h' : Mirrors S x' y') :
    Mirrors (fun r r' => List.Forall₂ (fun p q => R p.1 q.1 ∧ S p.2 q.2) r.2 r'.2)
      (mapOf x x') (mapOf y y') := by
  refine .after mapBegin fun type => ?_
  have hpair : Mirrors (fun (p : α × γ) (q : β × δ) => R p.1 q.1 ∧ S p.2 q.2)
      (pairOf x x') (pairOf y y') :=
    h.bind fun k k' hk => h'.bind fun v v' hv => mirrors_pure ⟨hk, hv⟩
  exact hpair.untilTerminator.nested.bind fun ps qs hpq => mirrors_pure hpq

/-! ## Values -/

/-- What opens as the values of a kind do is mirrored by a value if it is by the step for that
kind. -/
theorem Mirrors.value {R : α → Value → Prop} {step : Decode γ} {answer : γ → Decode Value}
    (ho : Opens (ReadBy value step answer) x) (h : Mirrors R x (step >>= answer)) :
    Mirrors R x value := by
  intro s a t hs
  rw [value_eq, valueWith_eq_of_opens ho hs]
  exact h s a t hs

/-- A scalar is mirrored by the value that it is. -/
theorem mirrors_scalar {f : α → Value} (ho : Opens (ReadBy value x fun a => pure (f a)) x) :
    Mirrors (fun a v => v = f a) x value := by
  refine Mirrors.value ho ?_
  intro s a t hs
  exact ⟨f a, bind_ok hs, rfl⟩

end Hessian.Decode
