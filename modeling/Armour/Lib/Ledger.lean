import Armour.Lib.Fuel

/-! # Computations that only hand things in

A computation may touch its state in one way only: it hands in an entry, which the state accepts
or refuses.  Such a computation is run with a list for a state first, which keeps what is handed
in; what it does from any other state is then told by what that state does with the list.
-/

namespace Armour.Lib

namespace Comp

variable {ε σ τ α β γ : Type}

/-- Hand in an entry to be kept. -/
def record (t : τ) : Comp ε (List τ) Unit := do
  Comp.set ((← Comp.get) ++ [t])

/-- Entries for a state, until one is refused. -/
def feed (accept : σ → τ → Option σ) : σ → List τ → Option σ
  | s, [] => some s
  | s, t :: ts => (accept s t).bind (fun s' => feed accept s' ts)

theorem feed_append (accept : σ → τ → Option σ) (s : σ) (ts us : List τ) :
    feed accept s (ts ++ us) = (feed accept s ts).bind (fun s' => feed accept s' us) := by
  induction ts generalizing s with
  | nil => rfl
  | cons t ts ih =>
      show ((accept s t).bind fun s' => feed accept s' (ts ++ us)) =
        ((accept s t).bind fun s' => feed accept s' ts).bind (fun s' => feed accept s' us)
      cases accept s t with
      | none => rfl
      | some s' => exact ih s'

/-- Both computations fail. -/
def Fails (m : Comp ε σ α) (s : σ) : Prop := ∃ e s', m.run s = some (.error e, s')

/-- `m'` does from `s` what `m` hands in lets it do. -/
structure Follows (accept : σ → τ → Option σ) (m : Comp ε (List τ) α) (m' : Comp ε σ α) :
    Prop where
  run : ∀ l s,
    (m.Fails l ∧ m'.Fails s) ∨
      ∃ a new, m.run l = some (.ok a, l ++ new) ∧
        match feed accept s new with
        | some s' => m'.run s = some (.ok a, s')
        | none => m'.Fails s

theorem Fails.bind {m : Comp ε σ α} {s : σ} (h : m.Fails s) (f : α → Comp ε σ β) :
    (m >>= f).Fails s := by
  obtain ⟨e, s', h⟩ := h
  exact ⟨e, s', run_bind_error h⟩

theorem Fails.of_bind {m : Comp ε σ α} {s s' : σ} {a : α} {f : α → Comp ε σ β}
    (hm : m.run s = some (.ok a, s')) (h : (f a).Fails s') : (m >>= f).Fails s := by
  obtain ⟨e, s'', h⟩ := h
  exact ⟨e, s'', (run_bind_ok hm).trans h⟩

/-- The result of a computation that succeeds, and the state that it leaves. -/
def success (m : Comp ε σ α) (s : σ) : Option (α × σ) :=
  match m.run s with
  | some (.ok a, s') => some (a, s')
  | _ => none

theorem success_of_run {m : Comp ε σ α} {s s' : σ} {a : α} (h : m.run s = some (.ok a, s')) :
    m.success s = some (a, s') := by
  rw [success, h]

theorem Fails.success {m : Comp ε σ α} {s : σ} (h : m.Fails s) : m.success s = none := by
  obtain ⟨e, s', h⟩ := h
  rw [Comp.success, h]

@[simp] theorem success_pure (a : α) (s : σ) :
    (pure a : Comp ε σ α).success s = some (a, s) := rfl

@[simp] theorem success_throw (e : ε) (s : σ) :
    (throw e : Comp ε σ α).success s = none := rfl

theorem success_bind (m : Comp ε σ α) (f : α → Comp ε σ β) (s : σ) :
    (m >>= f).success s = (m.success s).bind (fun p => (f p.1).success p.2) := by
  unfold success
  rw [run_bind]
  cases m.run s with
  | none => rfl
  | some p =>
      obtain ⟨r, s'⟩ := p
      cases r <;> rfl

/-- A state that keeps all that is handed in. -/
def keep (l : List τ) (t : τ) : Option (List τ) := some (l ++ [t])

theorem feed_keep (l ts : List τ) : feed keep l ts = some (l ++ ts) := by
  induction ts generalizing l with
  | nil => rw [List.append_nil]; rfl
  | cons t ts ih =>
      show feed keep (l ++ [t]) ts = some (l ++ t :: ts)
      rw [ih, List.append_assoc]
      rfl

namespace Follows

variable {accept : σ → τ → Option σ}

theorem pure (a : α) : Follows accept (Pure.pure a : Comp ε (List τ) α) (Pure.pure a) where
  run l s := Or.inr ⟨a, [], by rw [List.append_nil]; rfl, rfl⟩

theorem throw (e : ε) :
    Follows accept (Comp.throw e : Comp ε (List τ) α) (Comp.throw e) where
  run l s := Or.inl ⟨⟨e, l, rfl⟩, ⟨e, s, rfl⟩⟩

theorem bind {m : Comp ε (List τ) α} {m' : Comp ε σ α} {f : α → Comp ε (List τ) β}
    {f' : α → Comp ε σ β} (hm : Follows accept m m') (hf : ∀ a, Follows accept (f a) (f' a)) :
    Follows accept (m >>= f) (m' >>= f') where
  run l s := by
    rcases hm.run l s with ⟨hfail, hfail'⟩ | ⟨a, new, hok, hfeed⟩
    · exact Or.inl ⟨hfail.bind f, hfail'.bind f'⟩
    · cases hs : feed accept s new with
      | none =>
          rw [hs] at hfeed
          rcases (hf a).run (l ++ new) s with ⟨hfail, -⟩ | ⟨b, more, hok', -⟩
          · exact Or.inl ⟨hfail.of_bind hok, hfeed.bind f'⟩
          · refine Or.inr ⟨b, new ++ more, ?_, ?_⟩
            · rw [run_bind_ok hok, hok', List.append_assoc]
            · rw [feed_append, hs]
              exact hfeed.bind f'
      | some s' =>
          rw [hs] at hfeed
          rcases (hf a).run (l ++ new) s' with ⟨hfail, hfail'⟩ | ⟨b, more, hok', hfeed'⟩
          · exact Or.inl ⟨hfail.of_bind hok, hfail'.of_bind hfeed⟩
          · refine Or.inr ⟨b, new ++ more, ?_, ?_⟩
            · rw [run_bind_ok hok, hok', List.append_assoc]
            · rw [feed_append, hs]
              show match feed accept s' more with
                | some s'' => (m' >>= f').run s = some (.ok b, s'')
                | none => (m' >>= f').Fails s
              cases hmore : feed accept s' more with
              | none =>
                  rw [hmore] at hfeed'
                  exact hfeed'.of_bind hfeed
              | some s'' =>
                  rw [hmore] at hfeed'
                  exact (run_bind_ok hfeed).trans hfeed'

/-- What is handed in. -/
theorem record {t : τ} {m' : Comp ε σ Unit}
    (h : ∀ s, match accept s t with
      | some s' => m'.run s = some (.ok (), s')
      | none => m'.Fails s) : Follows accept (Comp.record t) m' where
  run l s := by
    refine Or.inr ⟨(), [t], rfl, ?_⟩
    have hs := h s
    show match (accept s t).bind (fun s' => some s') with
      | some s' => m'.run s = some (.ok (), s')
      | none => m'.Fails s
    cases ht : accept s t with
    | none =>
        rw [ht] at hs
        exact hs
    | some s' =>
        rw [ht] at hs
        exact hs

theorem record_keep (t : τ) :
    Follows keep (Comp.record t : Comp ε (List τ) Unit) (Comp.record t) :=
  record (fun _ => rfl)

/-- What a computation that succeeds does from a state, by what it hands in. -/
theorem success {m : Comp ε (List τ) α} {m' : Comp ε σ α} (h : Follows accept m m') (s : σ) :
    m'.success s =
      (m.success []).bind (fun p => (feed accept s p.2).map (fun s' => (p.1, s'))) := by
  rcases h.run [] s with ⟨hfail, hfail'⟩ | ⟨a, new, hok, hfeed⟩
  · rw [hfail.success, hfail'.success]
    rfl
  · rw [success_of_run hok]
    show m'.success s = (feed accept s new).map (fun s' => (a, s'))
    cases hs : feed accept s new with
    | none =>
        rw [hs] at hfeed
        exact hfeed.success
    | some s' =>
        rw [hs] at hfeed
        exact success_of_run hfeed

/-- What is handed in does not depend on what was before. -/
theorem success_keep {m : Comp ε (List τ) α} (h : Follows keep m m) (l : List τ) :
    m.success l = (m.success []).map (fun p => (p.1, l ++ p.2)) := by
  rw [h.success l]
  cases m.success [] with
  | none => rfl
  | some p =>
      show (feed keep l p.2).map (fun s' => (p.1, s')) = some (p.1, l ++ p.2)
      rw [feed_keep]
      rfl

end Follows

end Comp

end Armour.Lib
