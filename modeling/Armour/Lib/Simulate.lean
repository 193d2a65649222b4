import Armour.Lib.Fuel

/-! # Simulation between computations

`Sim R strict Q m s m' t`: every answer of `m` from the state `s` is matched by `m'` from `t`,
with related values in related states.  A failure of `m` has to be matched only when `strict` is
set, and then by some failure.  The rules follow the monad; what comes after a first part is
compared in the states that the first parts have left, which need not be the same.
-/

namespace Armour.Lib

namespace Comp

variable {ε ε' σ σ' α α' β β' γ : Type}

def Sim (R : σ → σ' → Prop) (strict : Bool) (Q : α → β → Prop) (m : Comp ε σ α) (s : σ)
    (m' : Comp ε' σ' β) (t : σ') : Prop :=
  ∀ r s₁, m.run s = some (r, s₁) →
    match r with
    | .ok a => ∃ b t₁, m'.run t = some (.ok b, t₁) ∧ R s₁ t₁ ∧ Q a b
    | .error _ => strict = true → ∃ e t₁, m'.run t = some (.error e, t₁) ∧ R s₁ t₁

/-- From `s`, the values of `m` satisfy `T` in states that `R` relates to `t`; if `strict`, it
does not fail. -/
def Skips (R : σ → σ' → Prop) (strict : Bool) (T : α → Prop) (m : Comp ε σ α) (s : σ) (t : σ') :
    Prop :=
  ∀ r s₁, m.run s = some (r, s₁) →
    match r with
    | .ok a => R s₁ t ∧ T a
    | .error _ => strict = false

variable {R : σ → σ' → Prop} {strict : Bool} {Q : α → β → Prop} {s : σ} {t : σ'}

namespace Skips

variable {T : α → Prop} {U : β → Prop}

theorem pure {a : α} (hR : R s t) (h : T a) :
    Skips R strict T (Pure.pure a : Comp ε σ α) s t := by
  intro r s₁ hr
  cases hr
  exact ⟨hR, h⟩

theorem mono {T' : α → Prop} {m : Comp ε σ α} (h : Skips R strict T m s t)
    (hT : ∀ a, T a → T' a) : Skips R strict T' m s t := by
  intro r s₁ hr
  have h := h r s₁ hr
  cases r with
  | ok a => exact ⟨h.1, hT a h.2⟩
  | error e => exact h

end Skips

/-- The answer does not depend on the state, which stays as it is. -/
def Still (m : Comp ε σ α) : Prop := ∃ x : Except ε α, ∀ s, m.run s = some (x, s)

namespace Still

theorem pure (a : α) : Still (Pure.pure a : Comp ε σ α) := ⟨.ok a, fun _ => rfl⟩

theorem throw (e : ε) : Still (Comp.throw e : Comp ε σ α) := ⟨.error e, fun _ => rfl⟩

theorem bind {m : Comp ε σ α} {f : α → Comp ε σ β} (h : Still m) (hf : ∀ a, Still (f a)) :
    Still (m >>= f) := by
  obtain ⟨x, hx⟩ := h
  cases x with
  | error e => exact ⟨.error e, fun s => run_bind_error (hx s)⟩
  | ok a =>
      obtain ⟨y, hy⟩ := hf a
      exact ⟨y, fun s => (run_bind_ok (hx s)).trans (hy s)⟩

theorem ofExcept (x : Except ε α) : Still (Comp.ofExcept x : Comp ε σ α) := by
  cases x with
  | ok a => exact pure a
  | error e => exact throw e

theorem map {m : Comp ε σ α} (h : Still m) (f : α → β) : Still (f <$> m) :=
  h.bind (fun a => pure (f a))

end Still

namespace Sim

theorem pure {a : α} {b : β} (hR : R s t) (h : Q a b) :
    Sim R strict Q (Pure.pure a : Comp ε σ α) s (Pure.pure b : Comp ε' σ' β) t := by
  intro r s₁ hr
  cases hr
  exact ⟨b, t, rfl, hR, h⟩

theorem throw {e : ε} {e' : ε'} (hR : R s t) :
    Sim R strict Q (Comp.throw e : Comp ε σ α) s (Comp.throw e' : Comp ε' σ' β) t := by
  intro r s₁ hr
  cases hr
  exact fun _ => ⟨e', t, rfl, hR⟩

/-- A failure at once, where failures need not be matched. -/
theorem throw_lax (hs : ¬ strict = true) {e : ε} {m' : Comp ε' σ' β} :
    Sim R strict Q (Comp.throw e : Comp ε σ α) s m' t := by
  intro r s₁ hr
  cases hr
  exact fun h => absurd h hs

/-- What has no value, and does not fail where failures are to be matched. -/
theorem of_never {m : Comp ε σ α} {m' : Comp ε' σ' β} (h : Skips R strict (fun _ => False) m s t) :
    Sim R strict Q m s m' t := by
  intro r s₁ hr
  have h := h r s₁ hr
  cases r with
  | ok a => exact h.2.elim
  | error e =>
      intro hs
      exact absurd (h.symm.trans hs) Bool.false_ne_true

/-- Sequencing; the rest is compared where the first parts have been run. -/
theorem bind {Q' : α' → β' → Prop} {m : Comp ε σ α} {m' : Comp ε' σ' β}
    {f : α → Comp ε σ α'} {f' : β → Comp ε' σ' β'} (h : Sim R strict Q m s m' t)
    (hf : ∀ a b s₁ t₁, m.run s = some (.ok a, s₁) → m'.run t = some (.ok b, t₁) → R s₁ t₁ →
      Q a b → Sim R strict Q' (f a) s₁ (f' b) t₁) :
    Sim R strict Q' (m >>= f) s (m' >>= f') t := by
  intro r s₁ hr
  rcases bind_eq_some hr with ⟨e, he, rfl⟩ | ⟨a, s₂, ha, hr⟩
  · intro hs
    obtain ⟨e', t₁, he', hR₁⟩ := h _ _ he hs
    exact ⟨e', t₁, run_bind_error he', hR₁⟩
  · obtain ⟨b, t₂, hb, hR₂, hab⟩ := h _ _ ha
    have hf := hf a b s₂ t₂ ha hb hR₂ hab r s₁ hr
    rw [run_bind_ok hb]
    exact hf

/-- What follows the left side gives the value of the right side. -/
theorem bind_value {Q' : α' → β → Prop} {m : Comp ε σ α} {m' : Comp ε' σ' β}
    {f : α → Comp ε σ α'} (h : Sim R strict Q m s m' t)
    (hf : ∀ a b s₁ t₁, m.run s = some (.ok a, s₁) → m'.run t = some (.ok b, t₁) → R s₁ t₁ →
      Q a b → Sim R strict Q' (f a) s₁ (Pure.pure b : Comp ε' σ' β) t₁) :
    Sim R strict Q' (m >>= f) s m' t := by
  rw [← bind_pure m']
  exact h.bind hf

theorem map {Q' : α' → β' → Prop} {m : Comp ε σ α} {m' : Comp ε' σ' β} {f : α → α'} {f' : β → β'}
    (h : Sim R strict Q m s m' t) (hf : ∀ a b, Q a b → Q' (f a) (f' b)) :
    Sim R strict Q' (f <$> m) s (f' <$> m') t :=
  h.bind (fun a b _ _ _ _ hR hab => Sim.pure hR (hf a b hab))

/-- A first part that is left out. -/
theorem drop {T : α → Prop} {Q' : α' → β' → Prop} {m : Comp ε σ α} {f : α → Comp ε σ α'}
    {m' : Comp ε' σ' β'} (h : Skips R strict T m s t)
    (hf : ∀ a s₁, m.run s = some (.ok a, s₁) → R s₁ t → T a → Sim R strict Q' (f a) s₁ m' t) :
    Sim R strict Q' (m >>= f) s m' t := by
  intro r s₁ hr
  rcases bind_eq_some hr with ⟨e, he, rfl⟩ | ⟨a, s₂, ha, hf'⟩
  · have hlax : strict = false := h _ _ he
    exact fun hs => absurd (hlax.symm.trans hs) Bool.false_ne_true
  · obtain ⟨hR, hT⟩ := h _ _ ha
    exact hf a s₂ ha hR hT r s₁ hf'

/-- A computation with one value does what the value does, if its effect can be left out. -/
theorem of_skips {m : Comp ε σ α} {a : α} (h : Skips R strict (· = a) m s t) :
    Sim R strict Eq m s (Pure.pure a : Comp ε' σ' α) t := by
  rw [← bind_pure m]
  exact drop h (fun b s₁ _ hR hb => hb ▸ pure hR rfl)

/-- What is simulated by a value has no other value, and its effect can be left out. -/
theorem skips {m : Comp ε σ α} {a : α} (h : Sim R strict Eq m s (Pure.pure a : Comp ε' σ' α) t) :
    Skips R strict (· = a) m s t := by
  intro r s₁ hr
  have h := h r s₁ hr
  cases r with
  | ok b =>
      obtain ⟨_, _, hb, hR, rfl⟩ := h
      cases hb
      exact ⟨hR, rfl⟩
  | error e =>
      cases strict with
      | false => rfl
      | true =>
          obtain ⟨_, _, he, _⟩ := h rfl
          cases he

/-- Running over two lists whose elements are related at every position that is reached. -/
theorem traverse_of_getElem {f : α → Comp ε σ γ} {f' : β → Comp ε' σ' γ} {as : List α}
    {bs : List β} (hlen : as.length = bs.length) (hR : R s t)
    (h : ∀ (i : Nat) a b cs s₁ t₁, as[i]? = some a → bs[i]? = some b →
      (Comp.traverse f (as.take i)).run s = some (.ok cs, s₁) →
      (Comp.traverse f' (bs.take i)).run t = some (.ok cs, t₁) → R s₁ t₁ →
      Sim R strict Eq (f a) s₁ (f' b) t₁) :
    Sim R strict Eq (Comp.traverse f as) s (Comp.traverse f' bs) t := by
  induction as generalizing bs s t with
  | nil =>
      cases bs with
      | nil => exact Sim.pure hR rfl
      | cons b bs => cases hlen
  | cons a as ih =>
      cases bs with
      | nil => cases hlen
      | cons b bs =>
          refine (h 0 a b [] s t rfl rfl rfl rfl hR).bind (fun c c' s₁ t₁ hc hc' hR₁ heq => ?_)
          subst heq
          refine (ih (Nat.succ.inj hlen) hR₁ (fun i a' b' cs s₂ t₂ ha hb hs ht hR₂ => ?_)).bind
            (fun cs cs' _ _ _ _ hR₂ hcs => Sim.pure hR₂ (congrArg (c :: ·) hcs))
          refine h (i + 1) a' b' (c :: cs) s₂ t₂ ha hb ?_ ?_ hR₂
          · rw [List.take_succ_cons, traverse_cons, run_bind_ok hc, run_bind_ok hs]
            rfl
          · rw [List.take_succ_cons, traverse_cons, run_bind_ok hc', run_bind_ok ht]
            rfl

/-- A success of the left side is one of the right side. -/
theorem run_ok {m : Comp ε σ α} {m' : Comp ε' σ' α} (h : Sim R strict Eq m s m' t) {s' : σ} {a : α}
    (hr : m.run s = some (.ok a, s')) : ∃ t', m'.run t = some (.ok a, t') ∧ R s' t' := by
  obtain ⟨_, t', hb, hR, rfl⟩ := h _ _ hr
  exact ⟨t', hb, hR⟩

end Sim

/-! ## One set of states -/

section

variable {R : σ → σ → Prop} {s t : σ}

theorem Sim.refl (hR : ∀ s, R s s) (m : Comp ε σ α) : Sim R strict Eq m s m s := by
  intro r s₁ hr
  cases r with
  | ok a => exact ⟨a, s₁, hr, hR s₁, rfl⟩
  | error e => exact fun _ => ⟨e, s₁, hr, hR s₁⟩

theorem Still.sim {m : Comp ε σ α} (h : Still m) (hR : R s t) : Sim R strict Eq m s m t := by
  obtain ⟨x, hx⟩ := h
  intro r s₁ hr
  rw [hx] at hr
  cases hr
  cases x with
  | ok a => exact ⟨a, t, hx t, hR, rfl⟩
  | error e => exact fun _ => ⟨e, t, hx t, hR⟩

theorem Sim.trans (hR : ∀ a b c, R a b → R b c → R a c) {m : Comp ε σ α} {m₁ m' : Comp ε' σ α}
    {s₁ : σ} (h : Sim R strict Eq m s m₁ s₁) (h' : Sim R strict Eq m₁ s₁ m' t) :
    Sim R strict Eq m s m' t := by
  intro r s₂ hr
  have h := h r s₂ hr
  cases r with
  | ok a =>
      obtain ⟨_, _, hb, hR₁, rfl⟩ := h
      obtain ⟨b, t₁, hb', hR₂, hab⟩ := h' _ _ hb
      exact ⟨b, t₁, hb', hR _ _ _ hR₁ hR₂, hab⟩
  | error e =>
      intro hs
      obtain ⟨e', _, he', hR₁⟩ := h hs
      obtain ⟨e'', t₁, he'', hR₂⟩ := h' _ _ he' hs
      exact ⟨e'', t₁, he'', hR _ _ _ hR₁ hR₂⟩

end

end Comp

end Armour.Lib
