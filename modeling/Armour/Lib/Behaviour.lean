import Armour.Lib.Fuel

/-! # Behaviours of computations

A behaviour is a property that a computation has when its parts have it.  What a functional
gives to a computation whose recursive calls have it, its iterates have.  `Keeps` is the
behaviour of leaving a part of the state as it is.
-/

namespace Armour.Lib.Comp

variable {ε σ τ : Type}

/-- Properties of computations that are kept by building larger ones. -/
structure Closed (P : ∀ α : Type, Comp ε σ α → Prop) : Prop where
  pure : ∀ {α : Type} (a : α), P α (Pure.pure a)
  throw : ∀ {α : Type} (e : ε), P α (Comp.throw e)
  bind : ∀ {α β : Type} {m : Comp ε σ α} {f : α → Comp ε σ β}, P α m → (∀ a, P β (f a)) →
    P β (m >>= f)

namespace Closed

variable {P : ∀ α : Type, Comp ε σ α → Prop} (h : Closed P)

include h

theorem map {α β : Type} {m : Comp ε σ α} (f : α → β) (hm : P α m) : P β (f <$> m) :=
  h.bind hm (fun a => h.pure (f a))

theorem ofExcept {α : Type} (x : Except ε α) : P α (Comp.ofExcept x) := by
  cases x with
  | error e => exact h.throw e
  | ok a => exact h.pure a

/-- A computation that depends on a result has the behaviour where there is a result. -/
theorem ofExcept_bind {α β : Type} {x : Except ε α} {f : α → Comp ε σ β}
    (hf : ∀ a, x = .ok a → P β (f a)) : P β (Comp.ofExcept x >>= f) := by
  cases x with
  | error e => exact h.throw e
  | ok a => exact hf a rfl

theorem traverse {α γ : Type} {f : γ → Comp ε σ α} {as : List γ} (hf : ∀ a ∈ as, P α (f a)) :
    P (List α) (Comp.traverse f as) := by
  induction as with
  | nil => exact h.pure []
  | cons a as ih =>
      rw [traverse_cons]
      refine h.bind (hf a List.mem_cons_self) (fun b => ?_)
      exact h.bind (ih (fun x hx => hf x (List.mem_cons_of_mem _ hx))) (fun bs => h.pure (b :: bs))

end Closed

/-- Whatever the answer is, `f` of the state is as it was. -/
def Keeps {α : Type} (f : σ → τ) (m : Comp ε σ α) : Prop :=
  ∀ s r s', m.run s = some (r, s') → f s' = f s

theorem Keeps.closed (f : σ → τ) : Closed (fun α (m : Comp ε σ α) => m.Keeps f) where
  pure a s r s' h := by
    cases h
    rfl
  throw e s r s' h := by
    cases h
    rfl
  bind hm hf s r s' h := by
    rcases bind_eq_some h with ⟨e, he, -⟩ | ⟨a, s₁, ha, hb⟩
    · exact hm s _ s' he
    · exact (hf a s₁ r s' hb).trans (hm s _ s₁ ha)

/-- What one unfolding keeps, any number of them keeps. -/
theorem Keeps.iterate {α γ : Type} {f : σ → τ} {F : Functional ε σ γ α} {ok : γ → Prop}
    (step : ∀ ev : γ → Comp ε σ α, (∀ a, ok a → (ev a).Keeps f) → ∀ a, ok a → (F ev a).Keeps f)
    (n : Nat) : ∀ a, ok a → (Comp.iterate F n a).Keeps f := by
  induction n with
  | zero =>
      intro a _ s r s' h
      cases h
  | succ n ih => exact step _ ih

end Armour.Lib.Comp
