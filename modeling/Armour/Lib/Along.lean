import Armour.Lib.Fuel

/-! # Computations along maps

One computation can be another one read through a translation of the states, the failures and
the values.  `Along φ ψ f m m'` says that `m'`, started from the image of a state, answers with
the image of what `m` answers from that state, and does not answer when `m` does not.  The rules
follow the monad; a functional that keeps the relation has it for its iterates and for its fixed
point.
-/

namespace Armour.Lib

namespace Comp

variable {ε ε' σ σ' α α' β β' γ δ : Type}

/-- The image of an answer. -/
def image (φ : σ → σ') (ψ : ε → ε') (f : α → β) : Except ε α × σ → Except ε' β × σ'
  | (.ok a, s) => (.ok (f a), φ s)
  | (.error e, s) => (.error (ψ e), φ s)

def Along (φ : σ → σ') (ψ : ε → ε') (f : α → β) (m : Comp ε σ α) (m' : Comp ε' σ' β) : Prop :=
  ∀ s, m'.run (φ s) = (m.run s).map (image φ ψ f)

namespace Along

variable {φ : σ → σ'} {ψ : ε → ε'} {f : α → β} {g : α' → β'}

theorem pure (a : α) : Along φ ψ f (Pure.pure a) (Pure.pure (f a)) := fun _ => rfl

theorem throw (e : ε) : Along φ ψ f (Comp.throw e) (Comp.throw (ψ e)) := fun _ => rfl

theorem diverge : Along φ ψ f Comp.diverge Comp.diverge := fun _ => rfl

/-- A value that reaches its image by another way. -/
theorem pure_eq {a : α} {b : β} (h : b = f a) :
    Along φ ψ f (Pure.pure a) (Pure.pure b) := h ▸ pure a

theorem get : Along φ ψ φ Comp.get Comp.get := fun _ => rfl

theorem set (s : σ) : Along φ ψ (fun u : Unit => u) (Comp.set s) (Comp.set (φ s)) := fun _ => rfl

theorem bind {m : Comp ε σ α} {m' : Comp ε' σ' β} {k : α → Comp ε σ α'}
    {k' : β → Comp ε' σ' β'} (h : Along φ ψ f m m') (hk : ∀ a, Along φ ψ g (k a) (k' (f a))) :
    Along φ ψ g (m >>= k) (m' >>= k') := by
  intro s
  have hm := h s
  rw [run_bind, run_bind, hm]
  rcases m.run s with _ | ⟨_ | a, t⟩
  · rfl
  · rfl
  · exact hk a t

theorem map {m : Comp ε σ α} {m' : Comp ε' σ' β} {k : α → α'} {k' : β → β'}
    (h : Along φ ψ f m m') (hk : ∀ a, k' (f a) = g (k a)) :
    Along φ ψ g (k <$> m) (k' <$> m') :=
  h.bind (fun a => pure_eq (hk a))

/-- A computed result and its image. -/
theorem ofExcept {x : Except ε α} {y : Except ε' β} (h : y = (x.map f).mapError ψ) :
    Along φ ψ f (Comp.ofExcept x) (Comp.ofExcept y) := by
  subst h
  cases x with
  | ok a => exact pure a
  | error e => exact throw e

/-- What follows a computed result, at the result it has. -/
theorem ofExcept_bind {x : Except ε α} {y : Except ε' β} {k : α → Comp ε σ α'}
    {k' : β → Comp ε' σ' β'} (h : y = (x.map f).mapError ψ)
    (hk : ∀ a, x = .ok a → Along φ ψ g (k a) (k' (f a))) :
    Along φ ψ g (Comp.ofExcept x >>= k) (Comp.ofExcept y >>= k') := by
  subst h
  cases x with
  | ok a => exact hk a rfl
  | error e => exact throw e

theorem traverse {ι κ : Type} {i : ι → κ} {k : ι → Comp ε σ α} {k' : κ → Comp ε' σ' β}
    {as : List ι} (h : ∀ a ∈ as, Along φ ψ f (k a) (k' (i a))) :
    Along φ ψ (List.map f) (Comp.traverse k as) (Comp.traverse k' (as.map i)) := by
  induction as with
  | nil => exact pure []
  | cons a as ih =>
      refine (h a List.mem_cons_self).bind (fun b => ?_)
      exact (ih (fun a ha => h a (List.mem_cons_of_mem _ ha))).bind (fun bs => pure (b :: bs))

section

variable {F : Functional ε σ γ α} {F' : Functional ε' σ' δ β} {P : γ → Prop} {i : γ → δ}
variable (h : ∀ (rec : γ → Comp ε σ α) (rec' : δ → Comp ε' σ' β),
  (∀ a, P a → Along φ ψ f (rec a) (rec' (i a))) →
    ∀ a, P a → Along φ ψ f (F rec a) (F' rec' (i a)))

include h

/-- Functionals that keep the relation have it after every number of unfoldings. -/
theorem iterate (n : Nat) : ∀ a, P a → Along φ ψ f (iterate F n a) (iterate F' n (i a)) := by
  induction n with
  | zero => exact fun _ _ => diverge
  | succ n ih => exact h _ _ ih

theorem fix (hF : Continuous F) (hF' : Continuous F') {a : γ} (ha : P a) :
    Along φ ψ f (fix F a) (fix F' (i a)) := by
  intro s
  cases hr : (Comp.fix F a).run s with
  | some r =>
      obtain ⟨n, hn⟩ := (hF.iterate_limit a).eventually hr
      have hrun := iterate h n a ha s
      rw [hn n (Nat.le_refl n)] at hrun
      exact (hF'.iterate_limit (i a)).sound hrun
  | none =>
      cases hr' : (Comp.fix F' (i a)).run (φ s) with
      | none => rfl
      | some r' =>
          -- an answer along the maps would come from an answer
          obtain ⟨n, hn⟩ := (hF'.iterate_limit (i a)).eventually hr'
          have hrun := iterate h n a ha s
          rw [hn n (Nat.le_refl n)] at hrun
          obtain ⟨r, hr₁, -⟩ := Option.map_eq_some_iff.mp hrun.symm
          rw [(hF.iterate_limit a).sound hr₁] at hr
          cases hr

end

end Along

/-! ### Runs that answer -/

theorem ofExcept_eq_ok {x : Except ε α} {s s' : σ} {a : α}
    (h : (ofExcept x : Comp ε σ α).run s = some (.ok a, s')) : x = .ok a ∧ s' = s := by
  cases x with
  | error e => cases h
  | ok b =>
      cases h
      exact ⟨rfl, rfl⟩

theorem map_eq_ok {m : Comp ε σ α} {g : α → β} {s s' : σ} {b : β}
    (h : (g <$> m).run s = some (.ok b, s')) : ∃ a, m.run s = some (.ok a, s') ∧ g a = b := by
  obtain ⟨a, s₁, ha, hb⟩ := bind_eq_ok h
  cases hb
  exact ⟨a, ha, rfl⟩

end Comp

end Armour.Lib
