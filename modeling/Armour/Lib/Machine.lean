import Mathlib.Data.List.Induction

/-! # Machines

A machine takes steps on events.  What a step keeps, a run keeps: `run_invariant` for
invariants of the state, `run_induction` for those that also speak about the states and
events of the past.
-/

namespace Armour.Lib

/-- What an event does to a state; `none` where the event cannot happen. -/
structure Machine (σ ε : Type) where
  step : σ → ε → Option σ

namespace Machine

variable {σ ε : Type} (m : Machine σ ε)

/-- The state after a list of events. -/
def run : σ → List ε → Option σ
  | s, [] => some s
  | s, e :: es => (m.step s e).bind (fun s' => run s' es)

/-- Every step of a run starts in a state and with an event that `ok` holds of. -/
def Steps (ok : σ → ε → Prop) : σ → List ε → Prop
  | _, [] => True
  | s, e :: es => ok s e ∧ ∀ s', m.step s e = some s' → Steps ok s' es

/-- The states that a run goes through, the first and the last one included. -/
def Visits (s : σ) (es : List ε) (t : σ) : Prop :=
  ∃ es', es' <+: es ∧ m.run s es' = some t

variable {m} {ok : σ → ε → Prop}

@[simp] theorem run_nil (s : σ) : m.run s [] = some s := rfl

theorem run_cons {s s' : σ} {e : ε} (h : m.step s e = some s') (es : List ε) :
    m.run s (e :: es) = m.run s' es := by
  simp only [run, h, Option.bind_some]

theorem run_append (s : σ) (es es' : List ε) :
    m.run s (es ++ es') = (m.run s es).bind (fun t => m.run t es') := by
  induction es generalizing s with
  | nil => rfl
  | cons e es ih =>
      simp only [List.cons_append, run]
      cases m.step s e with
      | none => rfl
      | some s' => exact ih s'

theorem run_snoc {s t t' : σ} {es : List ε} {e : ε} (h : m.run s es = some t)
    (he : m.step t e = some t') : m.run s (es ++ [e]) = some t' := by
  rw [run_append, h, Option.bind_some, run_cons he, run_nil]

theorem Steps.append {s : σ} {es es' : List ε} (h : m.Steps ok s (es ++ es')) :
    m.Steps ok s es ∧ ∀ t, m.run s es = some t → m.Steps ok t es' := by
  induction es generalizing s with
  | nil =>
      refine ⟨trivial, fun t ht => ?_⟩
      cases ht
      exact h
  | cons e es ih =>
      obtain ⟨he, hrest⟩ := h
      refine ⟨⟨he, fun s' hs => (ih (hrest s' hs)).1⟩, fun t ht => ?_⟩
      rw [run, Option.bind_eq_some_iff] at ht
      obtain ⟨s', hs, ht⟩ := ht
      exact (ih (hrest s' hs)).2 t ht

theorem Steps.cons {s : σ} {e : ε} {es : List ε} (he : ok s e)
    (h : ∀ s', m.step s e = some s' → m.Steps ok s' es) : m.Steps ok s (e :: es) :=
  ⟨he, h⟩

theorem Steps.mono {ok' : σ → ε → Prop} (himp : ∀ s e, ok s e → ok' s e) {s : σ} {es : List ε}
    (h : m.Steps ok s es) : m.Steps ok' s es := by
  induction es generalizing s with
  | nil => trivial
  | cons e es ih => exact ⟨himp s e h.1, fun s' hs => ih (h.2 s' hs)⟩

/-- A condition that can be decided can be decided along a run. -/
instance Steps.decidable [∀ s e, Decidable (ok s e)] :
    ∀ (s : σ) (es : List ε), Decidable (m.Steps ok s es)
  | _, [] => isTrue trivial
  | s, e :: es =>
      have hrest : Decidable (∀ s', m.step s e = some s' → m.Steps ok s' es) :=
        match m.step s e with
        | none => isTrue nofun
        | some s' => @decidable_of_iff _ (m.Steps ok s' es)
            ⟨fun h _ hs => Option.some.inj hs ▸ h, fun h => h s' rfl⟩ (Steps.decidable s' es)
      @instDecidableAnd _ _ inferInstance hrest

/-- Conditions on the events alone. -/
theorem Steps.of_forall {p : ε → Prop} {s : σ} {es : List ε} (h : ∀ e ∈ es, p e) :
    m.Steps (fun _ e => p e) s es := by
  induction es generalizing s with
  | nil => trivial
  | cons e es ih =>
      exact ⟨h e List.mem_cons_self, fun s' _ => ih (fun e' he => h e' (List.mem_cons_of_mem _ he))⟩

/-- Two conditions that say the same where an invariant holds say the same of runs. -/
theorem steps_congr {ok' : σ → ε → Prop} {P : σ → Prop}
    (step : ∀ s e s', P s → ok s e → m.step s e = some s' → P s')
    (iff : ∀ s e, P s → (ok s e ↔ ok' s e)) {s : σ} (start : P s) (es : List ε) :
    m.Steps ok s es ↔ m.Steps ok' s es := by
  induction es generalizing s with
  | nil => exact Iff.rfl
  | cons e es ih =>
      constructor
      · rintro ⟨he, hrest⟩
        exact ⟨(iff s e start).mp he,
          fun s' hs => (ih (step s e s' start he hs)).mp (hrest s' hs)⟩
      · rintro ⟨he, hrest⟩
        have hok := (iff s e start).mpr he
        exact ⟨hok, fun s' hs => (ih (step s e s' start hok hs)).mpr (hrest s' hs)⟩

/-- Induction along a run: `P` may speak about the events so far. -/
theorem run_induction {P : List ε → σ → Prop} {s : σ}
    (start : P [] s)
    (step : ∀ es t e t', m.run s es = some t → P es t → ok t e → m.step t e = some t' →
      P (es ++ [e]) t')
    {es : List ε} {t : σ} (hok : m.Steps ok s es) (hrun : m.run s es = some t) : P es t := by
  induction es using List.reverseRecOn generalizing t with
  | nil =>
      cases hrun
      exact start
  | append_singleton es e ih =>
      rw [run_append, Option.bind_eq_some_iff] at hrun
      obtain ⟨u, hu, hrun⟩ := hrun
      obtain ⟨hpre, hlast⟩ := hok.append
      rw [run, Option.bind_eq_some_iff] at hrun
      obtain ⟨t', he, ht⟩ := hrun
      cases ht
      exact step es u e t hu (ih hpre hu) (hlast u hu).1 he

/-- What every step keeps holds in every state of a run. -/
theorem run_invariant {P : σ → Prop}
    (step : ∀ t e t', P t → ok t e → m.step t e = some t' → P t')
    {s t : σ} {es : List ε} (start : P s) (hok : m.Steps ok s es)
    (hrun : m.run s es = some t) : P t :=
  run_induction (P := fun _ t => P t) start (fun _ t e t' _ h hok he => step t e t' h hok he)
    hok hrun

/-- An invariant without a condition on the steps. -/
theorem run_preserves {P : σ → Prop} (step : ∀ t e t', P t → m.step t e = some t' → P t')
    {s t : σ} {es : List ε} (start : P s) (hrun : m.run s es = some t) : P t :=
  have hok : m.Steps (fun _ _ => True) s es :=
    Steps.of_forall (p := fun _ => True) (fun _ _ => trivial)
  run_invariant (fun t e t' h _ he => step t e t' h he) start hok hrun

/-- A property that a step keeps exactly if `ok` holds of it, and never restores: it holds after a
run exactly if `ok` holds of all its steps. -/
theorem run_iff_steps {I P : σ → Prop}
    (keep : ∀ t e t', I t → m.step t e = some t' → I t')
    (step : ∀ t e t', I t → m.step t e = some t' → (P t' ↔ P t ∧ ok t e))
    {s t : σ} {es : List ε} (start : I s) (hrun : m.run s es = some t) :
    P t ↔ P s ∧ m.Steps ok s es := by
  induction es generalizing s with
  | nil =>
      cases hrun
      exact (and_iff_left trivial).symm
  | cons e es ih =>
      rw [run, Option.bind_eq_some_iff] at hrun
      obtain ⟨s', hs, hrun⟩ := hrun
      rw [ih (keep s e s' start hs) hrun, step s e s' start hs, and_assoc]
      refine and_congr_right (fun _ => and_congr_right (fun _ => ?_))
      constructor
      · intro hrest u hu
        rw [hs] at hu
        cases hu
        exact hrest
      · exact fun hrest => hrest s' hs

theorem Visits.start (s : σ) (es : List ε) : m.Visits s es s :=
  ⟨[], List.nil_prefix, rfl⟩

theorem Visits.last {s t : σ} {es : List ε} (h : m.run s es = some t) : m.Visits s es t :=
  ⟨es, List.prefix_refl es, h⟩

/-- A property that a step from a state where it holds keeps exactly if `ok` holds of it: it holds
in every state of a run exactly if `ok` holds of all its steps. -/
theorem visits_iff_steps {P : σ → Prop}
    (step : ∀ t e t', P t → m.step t e = some t' → (P t' ↔ ok t e))
    {s t : σ} {es : List ε} (start : P s) (hrun : m.run s es = some t) :
    (∀ u, m.Visits s es u → P u) ↔ m.Steps ok s es := by
  induction es generalizing s with
  | nil =>
      refine iff_of_true (fun u hu => ?_) trivial
      obtain ⟨es', hpre, hu⟩ := hu
      rw [List.prefix_nil.mp hpre] at hu
      cases hu
      exact start
  | cons e es ih =>
      rw [run, Option.bind_eq_some_iff] at hrun
      obtain ⟨s', hs, hrun⟩ := hrun
      have hfirst : m.Visits s (e :: es) s' :=
        ⟨[e], List.prefix_append [e] es, (run_cons hs []).trans rfl⟩
      constructor
      · intro hall
        have hok := (step s e s' start hs).mp (hall s' hfirst)
        refine ⟨hok, fun u hu => ?_⟩
        rw [hs] at hu
        cases hu
        refine (ih ((step s e s' start hs).mpr hok) hrun).mp (fun u hu => ?_)
        obtain ⟨es', hpre, hu⟩ := hu
        exact hall u ⟨e :: es', List.cons_prefix_cons.mpr ⟨rfl, hpre⟩, (run_cons hs es').trans hu⟩
      · rintro ⟨hok, hrest⟩ u ⟨es', hpre, hu⟩
        cases es' with
        | nil =>
            cases hu
            exact start
        | cons e' es' =>
            obtain ⟨rfl, hrestpre⟩ := List.cons_prefix_cons.mp hpre
            rw [run_cons hs] at hu
            exact (ih ((step s e' s' start hs).mpr hok) hrun).mpr (hrest s' hs) u
              ⟨es', hrestpre, hu⟩

theorem Visits.mono {s t : σ} {es : List ε} (h : m.Visits s es t) (es' : List ε) :
    m.Visits s (es ++ es') t := by
  obtain ⟨pre, hpre, hrun⟩ := h
  exact ⟨pre, hpre.trans (List.prefix_append es es'), hrun⟩

end Machine

end Armour.Lib
