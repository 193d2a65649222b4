import Armour.Lib.Fuel

/-! # Traversals that stop, and guarded runs

`traverseUntil` leaves out what follows the first value that says stop; it agrees with
`traverse` on lists of which only the last element says so.  A guarded functional answers only
the runs all of whose calls start in allowed states, and on these two functionals agree when
they agree call by call.
-/

namespace Armour.Lib.Comp

variable {ε σ α β γ : Type}

/-- Run over a list, left to right, up to the first value that says stop. -/
def traverseUntil (stop : β → Bool) (f : α → Comp ε σ β) : List α → Comp ε σ (List β)
  | [] => pure []
  | a :: as => do
      let b ← f a
      if stop b then pure [b] else do
        let bs ← traverseUntil stop f as
        pure (b :: bs)

/-- In a run over the list from the state, only the last element says stop. -/
def LastStops (stop : β → Bool) (f : α → Comp ε σ β) : List α → σ → Prop
  | [], _ => True
  | a :: as, s => ∀ b s', (f a).run s = some (.ok b, s') →
      (stop b = true → as = []) ∧ LastStops stop f as s'

section

variable {stop : β → Bool} {f g : α → Comp ε σ β}

theorem LastStops.anti (hfg : ∀ a s r, (f a).run s = some r → (g a).run s = some r)
    {as : List α} {s : σ} (h : LastStops stop g as s) : LastStops stop f as s := by
  induction as generalizing s with
  | nil => trivial
  | cons a as ih =>
      intro b s' hb
      obtain ⟨hlast, hrest⟩ := h b s' (hfg a s _ hb)
      exact ⟨hlast, ih hrest⟩

theorem run_traverseUntil {as : List α} {s : σ} (h : LastStops stop f as s) :
    (traverseUntil stop f as).run s = (traverse f as).run s := by
  induction as generalizing s with
  | nil => rfl
  | cons a as ih =>
      show (f a >>= _).run s = (f a >>= _).run s
      rw [run_bind, run_bind]
      rcases hb : (f a).run s with _ | ⟨_ | b, s'⟩
      · rfl
      · rfl
      · obtain ⟨hlast, hrest⟩ := h b s' hb
        show (if stop b then pure [b] else _ : Comp ε σ (List β)).run s' = _
        by_cases hstop : stop b = true
        · -- nothing is left after a value that says stop
          rw [if_pos hstop, hlast hstop]
          rfl
        · rw [if_neg hstop, run_bind, ih hrest]
          rfl

theorem Limit.traverseUntil {f : Nat → α → Comp ε σ β} {m : α → Comp ε σ β} (as : List α)
    (h : ∀ a ∈ as, Limit (fun n => f n a) (m a)) :
    Limit (fun n => traverseUntil stop (f n) as) (traverseUntil stop m as) := by
  induction as with
  | nil => exact Limit.const _
  | cons a as ih =>
      refine (h a List.mem_cons_self).bind (fun b => ?_)
      split_ifs
      · exact Limit.const _
      · exact (ih (fun a ha => h a (List.mem_cons_of_mem _ ha))).bind (fun bs => Limit.const _)

end

theorem run_bind_mono {m m' : Comp ε σ α} {k : α → Comp ε σ β}
    (h : ∀ s r, m.run s = some r → m'.run s = some r) {s : σ} {r : Except ε β × σ}
    (hr : (m >>= k).run s = some r) : (m' >>= k).run s = some r := by
  obtain ⟨r, s'⟩ := r
  rcases bind_eq_some hr with ⟨e, he, rfl⟩ | ⟨a, s₁, ha, hk⟩
  · exact run_bind_error (h s _ he)
  · exact (run_bind_ok (h s _ ha)).trans hk

/-- Continuations have to agree only where the first part leads. -/
theorem run_bind_congr {m : Comp ε σ α} {k k' : α → Comp ε σ β} {s : σ}
    (h : ∀ a s', m.run s = some (.ok a, s') → (k a).run s' = (k' a).run s') :
    (m >>= k).run s = (m >>= k').run s := by
  rw [run_bind, run_bind]
  rcases hm : m.run s with _ | ⟨_ | a, s'⟩
  · rfl
  · rfl
  · exact h a s' hm

theorem run_bind_left {m m' : Comp ε σ α} (k : α → Comp ε σ β) {s : σ}
    (h : m.run s = m'.run s) : (m >>= k).run s = (m' >>= k).run s := by
  rw [run_bind, run_bind, h]

/-! ## Values of a computation -/

theorem exists_iterate_of_fix {F : Functional ε σ γ α} {a : γ} {s : σ} {r : Except ε α × σ}
    (h : (fix F a).run s = some r) : ∃ n, (iterate F n a).run s = some r := by
  by_cases hex : ∃ n r, (iterate F n a).run s = some r
  · simp only [fix, dif_pos hex] at h
    rw [← h]
    exact ⟨hex.choose, hex.choose_spec.choose_spec⟩
  · simp only [fix, dif_neg hex] at h
    cases h

/-- `m` can answer with the value `a`. -/
def Produces (m : Comp ε σ α) (a : α) : Prop := ∃ s s', m.run s = some (.ok a, s')

theorem Produces.of_bind {m : Comp ε σ α} {f : α → Comp ε σ β} {b : β}
    (h : (m >>= f).Produces b) : ∃ a, m.Produces a ∧ (f a).Produces b := by
  obtain ⟨s, s', h⟩ := h
  obtain ⟨a, s₁, ha, hb⟩ := bind_eq_ok h
  exact ⟨a, ⟨s, s₁, ha⟩, ⟨s₁, s', hb⟩⟩

/-- All values that the computation answers satisfy `T`. -/
def Yields (T : α → Prop) (m : Comp ε σ α) : Prop := ∀ a, m.Produces a → T a

namespace Yields

variable {T : α → Prop} {U : β → Prop}

theorem pure {a : α} (h : T a) : Yields T (Pure.pure a : Comp ε σ α) := by
  rintro b ⟨s, s', hb⟩
  cases hb
  exact h

theorem throw (e : ε) : Yields T (Comp.throw e : Comp ε σ α) := by
  rintro a ⟨s, s', h⟩
  cases h

theorem bind {m : Comp ε σ α} {k : α → Comp ε σ β} (h : Yields T m)
    (hk : ∀ a, T a → Yields U (k a)) : Yields U (m >>= k) := by
  intro b hb
  obtain ⟨a, ha, hb⟩ := hb.of_bind
  exact hk a (h a ha) b hb

/-- A part of which nothing is known. -/
theorem bind_any {m : Comp ε σ α} {k : α → Comp ε σ β} (hk : ∀ a, Yields U (k a)) :
    Yields U (m >>= k) :=
  bind (T := fun _ => True) (fun _ _ => trivial) (fun a _ => hk a)

theorem traverse {f : γ → Comp ε σ β} {as : List γ} (h : ∀ a ∈ as, Yields U (f a)) :
    Yields (fun bs => ∀ b ∈ bs, U b) (Comp.traverse f as) := by
  induction as with
  | nil => exact pure (fun b hb => absurd hb List.not_mem_nil)
  | cons a as ih =>
      refine (h a List.mem_cons_self).bind (fun b hb => ?_)
      refine (ih (fun a ha => h a (List.mem_cons_of_mem _ ha))).bind (fun bs hbs => ?_)
      exact pure (List.forall_mem_cons.mpr ⟨hb, hbs⟩)

theorem traverseUntil {stop : β → Bool} {f : γ → Comp ε σ β} {as : List γ}
    (h : ∀ a ∈ as, Yields U (f a)) :
    Yields (fun bs => ∀ b ∈ bs, U b) (traverseUntil stop f as) := by
  induction as with
  | nil => exact pure (fun b hb => absurd hb List.not_mem_nil)
  | cons a as ih =>
      refine (h a List.mem_cons_self).bind (fun b hb => ?_)
      split_ifs
      · exact pure (List.forall_mem_singleton.mpr hb)
      · refine (ih (fun a ha => h a (List.mem_cons_of_mem _ ha))).bind (fun bs hbs => ?_)
        exact pure (List.forall_mem_cons.mpr ⟨hb, hbs⟩)

/-- What every iterate answers. -/
theorem fix {F : Functional ε σ γ α}
    (h : ∀ f : γ → Comp ε σ α, (∀ a, Yields T (f a)) → ∀ a, Yields T (F f a)) (a : γ) :
    Yields T (Comp.fix F a) := by
  have hiter : ∀ n a, Yields T (iterate F n a) := by
    intro n
    induction n with
    | zero =>
        rintro a b ⟨s, s', hb⟩
        cases hb
    | succ n ih => exact h _ ih
  rintro b ⟨s, s', hb⟩
  obtain ⟨n, hn⟩ := exists_iterate_of_fix hb
  exact hiter n a b ⟨s, s', hn⟩

end Yields

/-! ## Guarded runs -/

open Classical in
/-- The runs of a functional whose calls all start in allowed states. -/
noncomputable def guarded (S : γ → σ → Prop) (F : Functional ε σ γ α) : Functional ε σ γ α :=
  fun f a => ⟨fun s => if S a s then (F f a).run s else none⟩

variable {F G : Functional ε σ γ α} {S : γ → σ → Prop}

theorem guarded_run {f : γ → Comp ε σ α} {a : γ} {s : σ} {r : Except ε α × σ} :
    (guarded S F f a).run s = some r ↔ S a s ∧ (F f a).run s = some r := by
  unfold guarded
  dsimp only
  split_ifs with h
  · exact (and_iff_right h).symm
  · exact iff_of_false nofun (fun h' => h h'.1)

/-- A guard keeps a functional continuous. -/
theorem guarded_continuous (hF : Continuous F) : Continuous (guarded S F) := by
  intro f m h a
  constructor
  · intro n s r hr
    obtain ⟨hS, hr⟩ := guarded_run.mp hr
    exact guarded_run.mpr ⟨hS, (hF h a).sound hr⟩
  · intro s r hr
    obtain ⟨hS, hr⟩ := guarded_run.mp hr
    obtain ⟨n, hn⟩ := (hF h a).eventually hr
    exact ⟨n, fun k hk => guarded_run.mpr ⟨hS, hn k hk⟩⟩

/-- A guarded run starts in an allowed state and goes on as a guarded run. -/
theorem fix_guarded_run (hF : Continuous F) {a : γ} {s : σ} {r : Except ε α × σ} :
    (fix (guarded S F) a).run s = some r ↔
      S a s ∧ (F (fix (guarded S F)) a).run s = some r := by
  rw [Continuous.fix_eq (guarded_continuous hF)]
  exact guarded_run

/-- A guarded run is one of the functional, and of every other that agrees with it on the
allowed calls. -/
theorem guarded_fix (hF : Continuous F) (hG : Continuous G)
    (hFG : ∀ f : γ → Comp ε σ α,
      (∀ a s r, (f a).run s = some r → (fix F a).run s = some r) →
      ∀ a s r, S a s → (F f a).run s = some r → (G f a).run s = some r)
    {a : γ} {s : σ} {r : Except ε α × σ} (h : (fix (guarded S F) a).run s = some r) :
    (fix F a).run s = some r ∧ (fix G a).run s = some r := by
  have hiter : ∀ n a s r, (iterate (guarded S F) n a).run s = some r →
      (fix F a).run s = some r ∧ (fix G a).run s = some r := by
    intro n
    induction n with
    | zero => exact fun _ _ _ h => by cases h
    | succ n ih =>
        intro a s r h
        obtain ⟨hS, hrun⟩ := guarded_run.mp h
        constructor
        · rw [hF.fix_eq]
          exact hF.mono (fun a s r h => (ih a s r h).1) hrun
        · rw [hG.fix_eq]
          refine hG.mono (fun a s r h => (ih a s r h).2) ?_
          exact hFG _ (fun a s r h => (ih a s r h).1) a s r hS hrun
  obtain ⟨n, hn⟩ := exists_iterate_of_fix h
  exact hiter n a s r hn

end Armour.Lib.Comp
