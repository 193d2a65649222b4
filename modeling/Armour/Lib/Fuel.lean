import Mathlib.Order.Lattice

/-! # Computations with fuel

A computation over a state `σ` that may fail with an error or run out of fuel
(`none`).  A recursive function is given as a functional on computations and run
by iterating the functional from the computation that never answers; `fix` is
what the iterates agree on in the end.  `Limit` is the notion of approximation
that all of this rests on: a continuous functional has `fix` as a fixed point.
-/

namespace Armour.Lib

/-- A computation: `none` is "out of fuel". -/
structure Comp (ε σ α : Type) where
  run : σ → Option (Except ε α × σ)

namespace Comp

variable {ε σ α β γ : Type}

protected def pure (a : α) : Comp ε σ α := ⟨fun s => some (.ok a, s)⟩

protected def bind (m : Comp ε σ α) (f : α → Comp ε σ β) : Comp ε σ β := ⟨fun s =>
  match m.run s with
  | none => none
  | some (.error e, s') => some (.error e, s')
  | some (.ok a, s') => (f a).run s'⟩

def throw (e : ε) : Comp ε σ α := ⟨fun s => some (.error e, s)⟩

/-- The computation that never answers. -/
def diverge : Comp ε σ α := ⟨fun _ => none⟩

def get : Comp ε σ σ := ⟨fun s => some (.ok s, s)⟩

def set (s : σ) : Comp ε σ Unit := ⟨fun _ => some (.ok (), s)⟩

instance : Monad (Comp ε σ) where
  pure := Comp.pure
  bind := Comp.bind

def ofExcept : Except ε α → Comp ε σ α
  | .ok a => pure a
  | .error e => throw e

/-- Run over a list, left to right. -/
def traverse (f : α → Comp ε σ β) : List α → Comp ε σ (List β)
  | [] => pure []
  | a :: as => do
      let b ← f a
      let bs ← traverse f as
      pure (b :: bs)

theorem ext_run {m m' : Comp ε σ α} (h : ∀ s, m.run s = m'.run s) : m = m' := by
  cases m
  cases m'
  exact congrArg mk (funext h)

@[simp] theorem run_pure (a : α) (s : σ) :
    (pure a : Comp ε σ α).run s = some (.ok a, s) := rfl

@[simp] theorem run_throw (e : ε) (s : σ) :
    (throw e : Comp ε σ α).run s = some (.error e, s) := rfl

theorem run_bind (m : Comp ε σ α) (f : α → Comp ε σ β) (s : σ) :
    (m >>= f).run s =
      match m.run s with
      | none => none
      | some (.error e, s') => some (.error e, s')
      | some (.ok a, s') => (f a).run s' := rfl

theorem run_bind_ok {m : Comp ε σ α} {f : α → Comp ε σ β} {s s' : σ} {a : α}
    (h : m.run s = some (.ok a, s')) : (m >>= f).run s = (f a).run s' := by
  rw [run_bind, h]

theorem run_bind_error {m : Comp ε σ α} {f : α → Comp ε σ β} {s s' : σ} {e : ε}
    (h : m.run s = some (.error e, s')) : (m >>= f).run s = some (.error e, s') := by
  rw [run_bind, h]

/-- A bind that answers: its first part answered, and so did the rest unless it failed. -/
theorem bind_eq_some {m : Comp ε σ α} {f : α → Comp ε σ β} {s s' : σ} {r : Except ε β}
    (h : (m >>= f).run s = some (r, s')) :
    (∃ e, m.run s = some (.error e, s') ∧ r = .error e) ∨
      ∃ a s₁, m.run s = some (.ok a, s₁) ∧ (f a).run s₁ = some (r, s') := by
  rw [run_bind] at h
  split at h
  · cases h
  · rename_i e s₁ hm
    cases h
    exact Or.inl ⟨e, hm, rfl⟩
  · rename_i a s₁ hm
    exact Or.inr ⟨a, s₁, hm, h⟩

theorem bind_eq_ok {m : Comp ε σ α} {f : α → Comp ε σ β} {s s' : σ} {b : β}
    (h : (m >>= f).run s = some (.ok b, s')) :
    ∃ a s₁, m.run s = some (.ok a, s₁) ∧ (f a).run s₁ = some (.ok b, s') := by
  rcases bind_eq_some h with ⟨e, _, he⟩ | h
  · cases he
  · exact h

instance : LawfulMonad (Comp ε σ) := LawfulMonad.mk' _
  (fun m => ext_run (fun s => by
    show (m >>= fun a => pure (id a)).run s = m.run s
    rw [run_bind]
    rcases m.run s with _ | ⟨_ | _, _⟩ <;> rfl))
  (fun a f => rfl)
  (fun m f g => ext_run (fun s => by
    simp only [run_bind]
    rcases m.run s with _ | ⟨_ | _, _⟩ <;> rfl))

@[simp] theorem throw_bind (e : ε) (f : α → Comp ε σ β) : (throw e >>= f) = throw e := rfl

@[simp] theorem traverse_nil (f : α → Comp ε σ β) : traverse f [] = pure [] := rfl

theorem traverse_cons (f : α → Comp ε σ β) (a : α) (as : List α) :
    traverse f (a :: as) = (do
      let b ← f a
      let bs ← traverse f as
      pure (b :: bs)) := rfl

theorem traverse_pure (f : α → β) (as : List α) :
    traverse (fun a => (pure (f a) : Comp ε σ β)) as = pure (as.map f) := by
  induction as with
  | nil => rfl
  | cons a as ih => rw [traverse_cons, ih, pure_bind, pure_bind, List.map_cons]

theorem traverse_append (f : α → Comp ε σ β) (as bs : List α) :
    traverse f (as ++ bs) = (do
      let xs ← traverse f as
      let ys ← traverse f bs
      pure (xs ++ ys)) := by
  induction as with
  | nil => simp
  | cons a as ih =>
      simp only [List.cons_append, traverse_cons, ih, bind_assoc, pure_bind]

/-- A value is not a failure. -/
theorem throw_ne_pure [Inhabited σ] (e : ε) (a : α) : (throw e : Comp ε σ α) ≠ pure a := by
  intro h
  have h := congrArg (fun m => m.run default) h
  cases h

theorem pure_injective [Inhabited σ] {a b : α} (h : (pure a : Comp ε σ α) = pure b) : a = b := by
  have h := congrArg (fun m => m.run default) h
  cases h
  rfl

theorem traverse_map (f : α → Comp ε σ β) (g : γ → α) (as : List γ) :
    traverse f (as.map g) = traverse (fun a => f (g a)) as := by
  induction as with
  | nil => rfl
  | cons a as ih => simp only [List.map_cons, traverse_cons, ih]

theorem traverse_congr {f g : α → Comp ε σ β} {as : List α} (h : ∀ a ∈ as, f a = g a) :
    traverse f as = traverse g as := by
  induction as with
  | nil => rfl
  | cons a as ih =>
      simp only [traverse_cons, h a List.mem_cons_self,
        ih (fun a ha => h a (List.mem_cons_of_mem _ ha))]

theorem ofExcept_map_bind (x : Except ε α) (g : α → β) (f : β → Comp ε σ γ) :
    (ofExcept (x.map g) >>= f) = (ofExcept x >>= fun a => f (g a)) := by
  cases x <;> rfl

/-! ## Limits -/

/-- `m` is what the computations `f n` answer for all large `n`, and no `f n` answers
anything else. -/
structure Limit (f : Nat → Comp ε σ α) (m : Comp ε σ α) : Prop where
  sound : ∀ {n s r}, (f n).run s = some r → m.run s = some r
  eventually : ∀ {s r}, m.run s = some r → ∃ n, ∀ k, n ≤ k → (f k).run s = some r

theorem Limit.const (m : Comp ε σ α) : Limit (fun _ => m) m :=
  ⟨fun h => h, fun h => ⟨0, fun _ _ => h⟩⟩

theorem Limit.bind {f : Nat → Comp ε σ α} {m : Comp ε σ α} {g : Nat → α → Comp ε σ β}
    {h : α → Comp ε σ β} (hf : Limit f m) (hg : ∀ a, Limit (fun n => g n a) (h a)) :
    Limit (fun n => f n >>= g n) (m >>= h) where
  sound := by
    intro n s r hr
    obtain ⟨r, s'⟩ := r
    rcases bind_eq_some hr with ⟨e, he, rfl⟩ | ⟨a, s₁, ha, hb⟩
    · exact run_bind_error (hf.sound he)
    · rw [run_bind_ok (hf.sound ha)]
      exact (hg a).sound hb
  eventually := by
    intro s r hr
    obtain ⟨r, s'⟩ := r
    rcases bind_eq_some hr with ⟨e, he, rfl⟩ | ⟨a, s₁, ha, hb⟩
    · obtain ⟨n, hn⟩ := hf.eventually he
      exact ⟨n, fun k hk => run_bind_error (hn k hk)⟩
    · obtain ⟨n₁, hn₁⟩ := hf.eventually ha
      obtain ⟨n₂, hn₂⟩ := (hg a).eventually hb
      refine ⟨max n₁ n₂, fun k hk => ?_⟩
      rw [run_bind_ok (hn₁ k (le_trans (le_max_left _ _) hk))]
      exact hn₂ k (le_trans (le_max_right _ _) hk)

theorem Limit.map {f : Nat → Comp ε σ α} {m : Comp ε σ α} (φ : α → β) (hf : Limit f m) :
    Limit (fun n => φ <$> f n) (φ <$> m) :=
  hf.bind (fun a => Limit.const (pure (φ a)))

theorem Limit.traverse {g : Nat → α → Comp ε σ β} {h : α → Comp ε σ β} (as : List α)
    (hg : ∀ a ∈ as, Limit (fun n => g n a) (h a)) :
    Limit (fun n => Comp.traverse (g n) as) (Comp.traverse h as) := by
  induction as with
  | nil => exact Limit.const _
  | cons a as ih =>
      refine (hg a List.mem_cons_self).bind (fun b => ?_)
      exact (ih (fun a ha => hg a (List.mem_cons_of_mem _ ha))).bind (fun bs => Limit.const _)

theorem Limit.unique {f : Nat → Comp ε σ α} {m m' : Comp ε σ α} (h : Limit f m)
    (h' : Limit f m') : m = m' := by
  refine ext_run (fun s => ?_)
  rcases hm : m.run s with _ | r
  · rcases hm' : m'.run s with _ | r'
    · rfl
    · obtain ⟨n, hn⟩ := h'.eventually hm'
      rw [h.sound (hn n (le_refl n))] at hm
      cases hm
  · obtain ⟨n, hn⟩ := h.eventually hm
    rw [h'.sound (hn n (le_refl n))]

/-! ## Functionals -/

/-- A functional on computations indexed by `γ`. -/
abbrev Functional (ε σ γ α : Type) := (γ → Comp ε σ α) → γ → Comp ε σ α

variable (F : Functional ε σ γ α)

/-- `n` unfoldings of the functional. -/
def iterate : Nat → γ → Comp ε σ α
  | 0 => fun _ => diverge
  | n + 1 => F (iterate n)

/-- Limits of arguments are mapped to limits. -/
def Continuous : Prop :=
  ∀ {f : Nat → γ → Comp ε σ α} {m : γ → Comp ε σ α},
    (∀ a, Limit (fun n => f n a) (m a)) → ∀ a, Limit (fun n => F (f n) a) (F m a)

open Classical in
/-- What the iterates answer when one of them does. -/
noncomputable def fix (a : γ) : Comp ε σ α := ⟨fun s =>
  if h : ∃ n r, (iterate F n a).run s = some r then some h.choose_spec.choose else none⟩

variable {F}

theorem Continuous.mono (hF : Continuous F) {f g : γ → Comp ε σ α}
    (hfg : ∀ a s r, (f a).run s = some r → (g a).run s = some r) {a : γ} {s : σ} {r : Except ε α × σ}
    (h : (F f a).run s = some r) : (F g a).run s = some r := by
  -- `f` followed by `g` for ever has `g` as its limit.
  have hlim : ∀ a, Limit (fun n => (if n = 0 then f else g) a) (g a) := by
    intro a
    refine ⟨fun {n s r} hr => ?_, fun {s r} hr => ⟨1, fun k hk => ?_⟩⟩
    · split_ifs at hr
      · exact hfg a s r hr
      · exact hr
    · have hk0 : k ≠ 0 := by omega
      simpa [hk0] using hr
  exact (hF hlim a).sound (n := 0) (by simpa using h)

theorem Continuous.iterate_succ (hF : Continuous F) {n : Nat} :
    ∀ {a : γ} {s : σ} {r : Except ε α × σ},
      (iterate F n a).run s = some r → (iterate F (n + 1) a).run s = some r := by
  induction n with
  | zero => intro a s r h; cases h
  | succ n ih => intro a s r h; exact hF.mono (fun _ _ _ => ih) h

theorem Continuous.iterate_le (hF : Continuous F) {n k : Nat} (hk : n ≤ k) {a : γ} {s : σ}
    {r : Except ε α × σ} (h : (iterate F n a).run s = some r) : (iterate F k a).run s = some r := by
  induction k, hk using Nat.le_induction with
  | base => exact h
  | succ k _ ih => exact hF.iterate_succ ih

theorem Continuous.iterate_limit (hF : Continuous F) (a : γ) :
    Limit (fun n => iterate F n a) (fix F a) where
  sound := by
    intro n s r h
    have hex : ∃ n r, (iterate F n a).run s = some r := ⟨n, r, h⟩
    have hchosen := hex.choose_spec.choose_spec
    have heq : hex.choose_spec.choose = r := by
      have h1 := hF.iterate_le (le_max_left n hex.choose) h
      have h2 := hF.iterate_le (le_max_right n hex.choose) hchosen
      exact Option.some.inj (h2.symm.trans h1)
    simp only [fix, dif_pos hex, heq]
  eventually := by
    intro s r h
    by_cases hex : ∃ n r, (iterate F n a).run s = some r
    · simp only [fix, dif_pos hex] at h
      refine ⟨hex.choose, fun k hk => ?_⟩
      rw [← h]
      exact hF.iterate_le hk hex.choose_spec.choose_spec
    · simp only [fix, dif_neg hex] at h
      cases h

/-- The fixed-point equation. -/
theorem Continuous.fix_eq (hF : Continuous F) (a : γ) : fix F a = F (fix F) a := by
  have h1 := hF hF.iterate_limit a
  refine Limit.unique (f := fun n => iterate F (n + 1) a) ?_ h1
  refine ⟨fun h => (hF.iterate_limit a).sound h, fun {s r} h => ?_⟩
  obtain ⟨n, hn⟩ := (hF.iterate_limit a).eventually h
  exact ⟨n, fun k hk => hn (k + 1) (by omega)⟩

/-- A call that only repeats itself never answers. -/
theorem fix_eq_diverge {a : γ} (h : ∀ f : γ → Comp ε σ α, F f a = f a) :
    fix F a = diverge := by
  have hiter : ∀ n, iterate F n a = diverge := by
    intro n
    induction n with
    | zero => rfl
    | succ n ih => exact (h _).trans ih
  refine ext_run (fun s => ?_)
  have hno : ¬∃ n r, (iterate F n a).run s = some r := by
    rintro ⟨n, r, hr⟩
    rw [hiter n] at hr
    cases hr
  exact dif_neg hno

end Comp

end Armour.Lib
