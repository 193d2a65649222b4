import Armour.Lib.Behaviour

/-! # Computations that answer

A computation halts when it answers, with a result or an error, from every state.
-/

namespace Armour.Lib.Comp

variable {ε σ α β γ : Type}

/-- The computation answers from every state. -/
def Halts (m : Comp ε σ α) : Prop := ∀ s, ∃ r, m.run s = some r

namespace Halts

theorem pure (a : α) : (Pure.pure a : Comp ε σ α).Halts := fun s => ⟨(.ok a, s), rfl⟩

theorem throw (e : ε) : (Comp.throw e : Comp ε σ α).Halts := fun s => ⟨(.error e, s), rfl⟩

theorem get : (Comp.get : Comp ε σ σ).Halts := fun s => ⟨(.ok s, s), rfl⟩

theorem set (s' : σ) : (Comp.set s' : Comp ε σ Unit).Halts := fun _ => ⟨(.ok (), s'), rfl⟩

theorem bind {m : Comp ε σ α} {f : α → Comp ε σ β} (h : m.Halts) (hf : ∀ a, (f a).Halts) :
    (m >>= f).Halts := by
  intro s
  obtain ⟨⟨r, s'⟩, hr⟩ := h s
  cases r with
  | error e => exact ⟨_, run_bind_error hr⟩
  | ok a =>
      obtain ⟨r', hr'⟩ := hf a s'
      exact ⟨r', (run_bind_ok hr).trans hr'⟩

/-- Halting is a behaviour. -/
theorem closed : Closed (fun α (m : Comp ε σ α) => m.Halts) := ⟨pure, throw, bind⟩

theorem map {m : Comp ε σ α} (f : α → β) (h : m.Halts) : (f <$> m).Halts := closed.map f h

theorem traverse {f : γ → Comp ε σ β} {as : List γ} (h : ∀ a ∈ as, (f a).Halts) :
    (Comp.traverse f as).Halts :=
  closed.traverse h

end Halts

/-- A least fixed point that halts is reached with enough fuel. -/
theorem Halts.exists_iterate {F : Functional ε σ γ α} (hF : Continuous F) {a : γ}
    (h : (fix F a).Halts) (s : σ) : ∃ n r, (iterate F n a).run s = some r := by
  obtain ⟨r, hr⟩ := h s
  obtain ⟨n, hn⟩ := (hF.iterate_limit a).eventually hr
  exact ⟨n, r, hn n (le_refl n)⟩

end Armour.Lib.Comp
