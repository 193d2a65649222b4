import Armour.Lib.Until

/-! # Parsers

A parser takes items off the front of a list.  An error lets an alternative try the same
input; a panic ends the parse.  Parsers are computations with fuel, so that a grammar is the
fixed point of a functional, and every combinator keeps limits.
-/

namespace Armour.Lib

/-- How a parser gives up. -/
inductive Fault where
  | error
  | panic (msg : String)
deriving DecidableEq, Repr

/-- A parser of `α` on lists of `τ`. -/
abbrev Parse (τ α : Type) := Comp Fault (List τ) α

namespace Parse

variable {τ α β : Type}

def error : Parse τ α := Comp.throw .error

/-- The next item, when the function takes it. -/
def token (f : τ → Option α) : Parse τ α := ⟨fun
  | [] => some (.error .error, [])
  | t :: ts =>
      match f t with
      | some a => some (.ok a, ts)
      | none => some (.error .error, t :: ts)⟩

/-- The next item, when it is this one. -/
def tag [DecidableEq τ] (t : τ) : Parse τ Unit := token (fun u => if u = t then some () else none)

/-- The next item, which is left where it is. -/
def peek : Parse τ τ := ⟨fun
  | [] => some (.error .error, [])
  | t :: ts => some (.ok t, t :: ts)⟩

/-- The constant, at the item. -/
def value [DecidableEq τ] (a : α) (t : τ) : Parse τ α := do
  tag t
  pure a

/-- The first parser, and where it fails the second. -/
def orElse (p q : Parse τ α) : Parse τ α := ⟨fun ts =>
  match p.run ts with
  | some (.error .error, _) => q.run ts
  | r => r⟩

/-- The first of the parsers that does not fail. -/
def choice : List (Parse τ α) → Parse τ α
  | [] => error
  | p :: ps => p.orElse (choice ps)

def opt (p : Parse τ α) : Parse τ (Option α) := orElse (some <$> p) (pure none)

/-- As many as there are; one that takes no item is a failure.  `n` is more than the items
that are left. -/
def manyUpTo (p : Parse τ α) : Nat → Parse τ (List α)
  | 0 => Comp.diverge
  | n + 1 => ⟨fun ts =>
      match p.run ts with
      | some (.ok a, ts') =>
          if ts'.length < ts.length then ((fun as => a :: as) <$> manyUpTo p n).run ts'
          else some (if ts = [] then .ok [] else .error .error, ts)
      | some (.error .error, _) => some (.ok [], ts)
      | some (.error (.panic msg), ts') => some (.error (.panic msg), ts')
      | none => none⟩

def many0 (p : Parse τ α) : Parse τ (List α) := ⟨fun ts =>
  (manyUpTo p (ts.length + 1)).run ts⟩

def many1 (p : Parse τ α) : Parse τ (List α) := do
  let a ← p
  let as ← many0 p
  pure (a :: as)

/-- One, and more after separators. -/
def sepBy1 (sep : Parse τ Unit) (p : Parse τ α) : Parse τ (List α) := do
  let a ← p
  let as ← many0 (do sep; p)
  pure (a :: as)

def delimited (opening : Parse τ Unit) (p : Parse τ α) (closing : Parse τ Unit) : Parse τ α := do
  opening
  let a ← p
  closing
  pure a

/-! ## Runs -/

/-- The parser fails on the input. -/
def Fails (p : Parse τ α) (ts : List τ) : Prop := ∃ ts', p.run ts = some (.error .error, ts')

theorem run_token_some {f : τ → Option α} {t : τ} {a : α} (h : f t = some a) (ts : List τ) :
    (token f).run (t :: ts) = some (.ok a, ts) := by
  simp only [token, h]

theorem fails_token {f : τ → Option α} {t : τ} (h : f t = none) (ts : List τ) :
    (token f).Fails (t :: ts) := ⟨t :: ts, by simp only [token, h]⟩

/-- What is read by `token` is the first item. -/
theorem token_eq_ok {f : τ → Option α} {a : α} {ts ts' : List τ}
    (h : (token f).run ts = some (.ok a, ts')) : ∃ t, ts = t :: ts' ∧ f t = some a := by
  cases ts with
  | nil => cases h
  | cons t ts =>
      cases hf : f t with
      | none => simp [token, hf] at h
      | some b =>
          rw [run_token_some hf] at h
          cases h
          exact ⟨t, rfl, hf⟩

section

variable [DecidableEq τ]

@[simp] theorem run_tag (t : τ) (ts : List τ) : (tag t).run (t :: ts) = some (.ok (), ts) :=
  run_token_some (f := fun u => if u = t then some () else none) (if_pos rfl) ts

theorem fails_tag {t u : τ} (h : u ≠ t) (ts : List τ) : (tag t).Fails (u :: ts) :=
  fails_token (f := fun u => if u = t then some () else none) (if_neg h) ts

theorem tag_eq_ok {t : τ} {u : Unit} {ts ts' : List τ}
    (h : (tag t).run ts = some (.ok u, ts')) : ts = t :: ts' := by
  obtain ⟨t', rfl, ht⟩ := token_eq_ok h
  by_cases ht' : t' = t
  · rw [ht']
  · rw [if_neg ht'] at ht
    cases ht

end

theorem fails_error (ts : List τ) : (error : Parse τ α).Fails ts := ⟨ts, rfl⟩

theorem Fails.bind {p : Parse τ α} {ts : List τ} (h : p.Fails ts) (f : α → Parse τ β) :
    Fails (p >>= f) ts := by
  obtain ⟨ts', h⟩ := h
  exact ⟨ts', Comp.run_bind_error h⟩

theorem Fails.bind_ok {p : Parse τ α} {f : α → Parse τ β} {ts ts' : List τ} {a : α}
    (hp : p.run ts = some (.ok a, ts')) (h : (f a).Fails ts') : Fails (p >>= f) ts := by
  obtain ⟨ts'', h⟩ := h
  exact ⟨ts'', (Comp.run_bind_ok hp).trans h⟩

theorem Fails.map {p : Parse τ α} {ts : List τ} (h : p.Fails ts) (f : α → β) :
    Fails (f <$> p) ts := by
  rw [map_eq_pure_bind]
  exact h.bind _

theorem run_map_ok {p : Parse τ α} {ts ts' : List τ} {a : α} (h : p.run ts = some (.ok a, ts'))
    (f : α → β) : (f <$> p).run ts = some (.ok (f a), ts') := by
  rw [map_eq_pure_bind, Comp.run_bind_ok h]
  rfl

/-- Where a mapped parser succeeds, so does the parser. -/
theorem map_eq_ok {p : Parse τ α} {f : α → β} {b : β} {ts ts' : List τ}
    (h : (f <$> p).run ts = some (.ok b, ts')) : ∃ a, p.run ts = some (.ok a, ts') ∧ b = f a := by
  rw [map_eq_pure_bind] at h
  obtain ⟨a, ts'', hp, hf⟩ := Comp.bind_eq_ok h
  cases hf
  exact ⟨a, hp, rfl⟩

theorem run_orElse_of_ok {p q : Parse τ α} {ts ts' : List τ} {a : α}
    (h : p.run ts = some (.ok a, ts')) : (orElse p q).run ts = some (.ok a, ts') := by
  simp only [orElse, h]

theorem run_orElse_of_panic {p q : Parse τ α} {ts ts' : List τ} {msg : String}
    (h : p.run ts = some (.error (.panic msg), ts')) :
    (orElse p q).run ts = some (.error (.panic msg), ts') := by
  simp only [orElse, h]

theorem run_orElse_of_fails {p q : Parse τ α} {ts : List τ} (h : p.Fails ts) :
    (orElse p q).run ts = q.run ts := by
  obtain ⟨ts', h⟩ := h
  simp only [orElse, h]

theorem fails_orElse {p q : Parse τ α} {ts : List τ} (hp : p.Fails ts) (hq : q.Fails ts) :
    (orElse p q).Fails ts := by
  obtain ⟨ts', hq⟩ := hq
  exact ⟨ts', (run_orElse_of_fails hp).trans hq⟩

/-- An alternative that succeeds: one of the two does. -/
theorem orElse_eq_ok {p q : Parse τ α} {a : α} {ts ts' : List τ}
    (h : (orElse p q).run ts = some (.ok a, ts')) :
    p.run ts = some (.ok a, ts') ∨ q.run ts = some (.ok a, ts') := by
  rcases hp : p.run ts with _ | ⟨e | b, ts''⟩
  · simp [orElse, hp] at h
  · cases e with
    | error => exact Or.inr ((run_orElse_of_fails ⟨ts'', hp⟩).symm.trans h)
    | panic msg =>
        rw [run_orElse_of_panic hp] at h
        cases h
  · rw [run_orElse_of_ok hp] at h
    exact Or.inl h

theorem run_opt_of_ok {p : Parse τ α} {ts ts' : List τ} {a : α}
    (h : p.run ts = some (.ok a, ts')) : (opt p).run ts = some (.ok (some a), ts') :=
  run_orElse_of_ok (run_map_ok h some)

/-! ## Repetition -/

theorem run_manyUpTo (p : Parse τ α) (n : Nat) (ts : List τ) :
    (manyUpTo p (n + 1)).run ts =
      match p.run ts with
      | some (.ok a, ts') =>
          if ts'.length < ts.length then ((fun as => a :: as) <$> manyUpTo p n).run ts'
          else some (if ts = [] then .ok [] else .error .error, ts)
      | some (.error .error, _) => some (.ok [], ts)
      | some (.error (.panic msg), ts') => some (.error (.panic msg), ts')
      | none => none := rfl

theorem run_many0_of_fails {p : Parse τ α} {ts : List τ} (h : p.Fails ts) :
    (many0 p).run ts = some (.ok [], ts) := by
  obtain ⟨ts', h⟩ := h
  simp only [many0, manyUpTo, h]

/-- Induction on what a repetition has read. -/
theorem many0_eq_ok {p : Parse τ α} {P : List α → List τ → List τ → Prop}
    (nil : ∀ ts, P [] ts ts)
    (cons : ∀ a as ts ts' ts'', p.run ts = some (.ok a, ts') → P as ts' ts'' → P (a :: as) ts ts'')
    {as : List α} {ts ts' : List τ} (h : (many0 p).run ts = some (.ok as, ts')) : P as ts ts' := by
  suffices hn : ∀ n as ts, (manyUpTo p n).run ts = some (.ok as, ts') → P as ts ts' from
    hn (ts.length + 1) as ts h
  intro n
  induction n with
  | zero => intro as ts h; cases h
  | succ n ih =>
      intro as ts h
      rw [run_manyUpTo] at h
      rcases hp : p.run ts with _ | ⟨e | a, ts₁⟩
      · simp [hp] at h
      · cases e with
        | error =>
            simp only [hp] at h
            cases h
            exact nil _
        | panic msg => simp [hp] at h
      · simp only [hp] at h
        by_cases hlt : ts₁.length < ts.length
        · rw [if_pos hlt] at h
          obtain ⟨as', has, rfl⟩ := map_eq_ok h
          exact cons a as' ts ts₁ ts' hp (ih as' ts₁ has)
        · rw [if_neg hlt] at h
          by_cases hts : ts = []
          · rw [if_pos hts] at h
            cases h
            exact nil _
          · rw [if_neg hts] at h
            cases h

/-! ## Parsers that do not panic -/

/-- What a run leaves satisfies `P` item by item, its value satisfies `Q`, and a failure is not a
panic. -/
def Outcome (P : τ → Prop) (Q : α → Prop) : Except Fault α × List τ → Prop
  | (.ok a, ts) => (∀ t ∈ ts, P t) ∧ Q a
  | (.error f, ts) => (∀ t ∈ ts, P t) ∧ f = .error

/-- On items that satisfy `P` the parser does not panic, and its values satisfy `Q`. -/
def Calm (P : τ → Prop) (Q : α → Prop) (p : Parse τ α) : Prop :=
  ∀ ts r, (∀ t ∈ ts, P t) → p.run ts = some r → Outcome P Q r

namespace Calm

variable {P : τ → Prop} {Q : α → Prop} {R : β → Prop}

theorem pure {a : α} (h : Q a) : Calm P Q (Pure.pure a : Parse τ α) := by
  rintro ts _ hts ⟨⟩
  exact ⟨hts, h⟩

theorem error : Calm P Q (Parse.error : Parse τ α) := by
  rintro ts _ hts ⟨⟩
  exact ⟨hts, rfl⟩

theorem token {f : τ → Option α} (h : ∀ t a, P t → f t = some a → Q a) :
    Calm P Q (Parse.token f) := by
  intro ts r hts hr
  cases ts with
  | nil =>
      cases hr
      exact ⟨hts, rfl⟩
  | cons t ts =>
      cases hf : f t with
      | none =>
          obtain ⟨ts', hfail⟩ := fails_token hf ts
          simp only [Parse.token, hf] at hr
          cases hr
          exact ⟨hts, rfl⟩
      | some a =>
          rw [run_token_some hf] at hr
          cases hr
          have hcons := List.forall_mem_cons.mp hts
          exact ⟨hcons.2, h t a hcons.1 hf⟩

theorem tag [DecidableEq τ] (t : τ) : Calm P (fun _ => True) (Parse.tag t) :=
  token (fun _ _ _ _ => trivial)

theorem peek : Calm P P (Parse.peek : Parse τ τ) := by
  intro ts r hts hr
  cases ts with
  | nil =>
      cases hr
      exact ⟨hts, rfl⟩
  | cons t ts =>
      cases hr
      exact ⟨hts, hts t List.mem_cons_self⟩

theorem bind {p : Parse τ α} {f : α → Parse τ β} (h : Calm P Q p) (hf : ∀ a, Q a → Calm P R (f a)) :
    Calm P R (p >>= f) := by
  intro ts r hts hr
  obtain ⟨r, ts'⟩ := r
  rcases Comp.bind_eq_some hr with ⟨e, he, rfl⟩ | ⟨a, ts₁, ha, hb⟩
  · exact h ts _ hts he
  · obtain ⟨hts₁, hQ⟩ := h ts _ hts ha
    exact hf a hQ ts₁ _ hts₁ hb

/-- A first part of which no value is needed. -/
theorem andThen {p : Parse τ α} {f : α → Parse τ β} (h : Calm P Q p) (hf : ∀ a, Calm P R (f a)) :
    Calm P R (p >>= f) :=
  h.bind (fun a _ => hf a)

theorem map {p : Parse τ α} {f : α → β} (h : Calm P Q p) (hf : ∀ a, Q a → R (f a)) :
    Calm P R (f <$> p) := by
  rw [map_eq_pure_bind]
  exact h.bind (fun a ha => pure (hf a ha))

theorem value [DecidableEq τ] (a : α) (t : τ) : Calm P (fun _ => True) (Parse.value a t) :=
  (tag t).andThen (fun _ => pure trivial)

theorem orElse {p q : Parse τ α} (hp : Calm P Q p) (hq : Calm P Q q) : Calm P Q (p.orElse q) := by
  intro ts r hts hr
  rcases hrun : p.run ts with _ | ⟨e | a, ts'⟩
  · simp [Parse.orElse, hrun] at hr
  · obtain ⟨-, rfl⟩ := hp ts _ hts hrun
    rw [run_orElse_of_fails ⟨ts', hrun⟩] at hr
    exact hq ts r hts hr
  · rw [run_orElse_of_ok hrun] at hr
    cases hr
    exact hp ts _ hts hrun

theorem choice {ps : List (Parse τ α)} (h : ∀ p ∈ ps, Calm P Q p) : Calm P Q (Parse.choice ps) := by
  induction ps with
  | nil => exact error
  | cons p ps ih =>
      exact (h p List.mem_cons_self).orElse (ih (fun q hq => h q (List.mem_cons_of_mem _ hq)))

theorem choice_two {p q : Parse τ α} (hp : Calm P Q p) (hq : Calm P Q q) :
    Calm P Q (Parse.choice [p, q]) :=
  choice (List.forall_mem_cons.mpr ⟨hp, List.forall_mem_singleton.mpr hq⟩)

theorem opt {p : Parse τ α} (h : Calm P Q p) : Calm P (fun a => ∀ b ∈ a, Q b) (Parse.opt p) :=
  (h.map (fun _ ha _ hb => Option.some.inj hb ▸ ha)).orElse (pure nofun)

theorem manyUpTo {p : Parse τ α} (h : Calm P Q p) (n : Nat) :
    Calm P (fun _ => True) (Parse.manyUpTo p n) := by
  induction n with
  | zero => rintro ts r hts ⟨⟩
  | succ n ih =>
      intro ts r hts hr
      rw [run_manyUpTo] at hr
      rcases hrun : p.run ts with _ | ⟨e | a, ts'⟩
      · simp [hrun] at hr
      · obtain ⟨-, rfl⟩ := h ts _ hts hrun
        simp only [hrun] at hr
        cases hr
        exact ⟨hts, trivial⟩
      · have hts' := (h ts _ hts hrun).1
        simp only [hrun] at hr
        split_ifs at hr
        · exact ih.map (fun _ _ => trivial) ts' r hts' hr
        · cases hr
          exact ⟨hts, trivial⟩
        · cases hr
          exact ⟨hts, rfl⟩

theorem many0 {p : Parse τ α} (h : Calm P Q p) : Calm P (fun _ => True) (Parse.many0 p) :=
  fun ts r hts hr => h.manyUpTo (ts.length + 1) ts r hts hr

theorem many1 {p : Parse τ α} (h : Calm P Q p) : Calm P (fun _ => True) (Parse.many1 p) :=
  h.andThen (fun _ => h.many0.andThen (fun _ => pure trivial))

theorem sepBy1 {sep : Parse τ Unit} {p : Parse τ α} (hsep : Calm P (fun _ => True) sep)
    (h : Calm P Q p) : Calm P (fun _ => True) (Parse.sepBy1 sep p) :=
  h.andThen (fun _ => (hsep.andThen (fun _ => h)).many0.andThen (fun _ => pure trivial))

theorem delimited {opening closing : Parse τ Unit} {p : Parse τ α}
    (ho : Calm P (fun _ => True) opening) (h : Calm P Q p) (hc : Calm P (fun _ => True) closing) :
    Calm P Q (Parse.delimited opening p closing) :=
  ho.andThen (fun _ => h.bind (fun _ ha => hc.andThen (fun _ => pure ha)))

/-- A grammar is calm when it is so given calm parsers for its recursive calls. -/
theorem fix {γ : Type} {F : Comp.Functional Fault (List τ) γ α}
    (h : ∀ f : γ → Parse τ α, (∀ c, Calm P Q (f c)) → ∀ c, Calm P Q (F f c)) (c : γ) :
    Calm P Q (Comp.fix F c) := by
  have hiter : ∀ n c, Calm P Q (Comp.iterate F n c) := by
    intro n
    induction n with
    | zero => rintro c ts r hts ⟨⟩
    | succ n ih => exact h _ ih
  intro ts r hts hr
  obtain ⟨n, hn⟩ := Comp.exists_iterate_of_fix hr
  exact hiter n c ts r hts hn

end Calm

end Parse

/-! ## Limits -/

namespace Comp

variable {τ α : Type}

theorem Limit.parseOrElse {f g : Nat → Parse τ α} {p q : Parse τ α} (hf : Limit f p)
    (hg : Limit g q) : Limit (fun n => (f n).orElse (g n)) (p.orElse q) where
  sound := by
    intro n s r h
    rcases hfn : (f n).run s with _ | ⟨e | a, s'⟩
    · simp [Parse.orElse, hfn] at h
    · have hp := hf.sound hfn
      cases e with
      | error =>
          rw [Parse.run_orElse_of_fails ⟨s', hfn⟩] at h
          rw [Parse.run_orElse_of_fails ⟨s', hp⟩]
          exact hg.sound h
      | panic msg =>
          rw [Parse.run_orElse_of_panic hfn] at h
          rw [Parse.run_orElse_of_panic hp, ← h]
    · rw [Parse.run_orElse_of_ok hfn] at h
      rw [Parse.run_orElse_of_ok (hf.sound hfn), ← h]
  eventually := by
    intro s r h
    rcases hp : p.run s with _ | ⟨e | a, s'⟩
    · simp [Parse.orElse, hp] at h
    · obtain ⟨n₁, hn₁⟩ := hf.eventually hp
      cases e with
      | error =>
          rw [Parse.run_orElse_of_fails ⟨s', hp⟩] at h
          obtain ⟨n₂, hn₂⟩ := hg.eventually h
          refine ⟨max n₁ n₂, fun k hk => ?_⟩
          rw [Parse.run_orElse_of_fails ⟨s', hn₁ k (le_trans (le_max_left _ _) hk)⟩]
          exact hn₂ k (le_trans (le_max_right _ _) hk)
      | panic msg =>
          rw [Parse.run_orElse_of_panic hp] at h
          refine ⟨n₁, fun k hk => ?_⟩
          rw [Parse.run_orElse_of_panic (hn₁ k hk), ← h]
    · obtain ⟨n₁, hn₁⟩ := hf.eventually hp
      rw [Parse.run_orElse_of_ok hp] at h
      refine ⟨n₁, fun k hk => ?_⟩
      rw [Parse.run_orElse_of_ok (hn₁ k hk), ← h]

theorem Limit.choice_nil : Limit (fun _ => Parse.choice []) (Parse.choice [] : Parse τ α) :=
  Limit.const _

theorem Limit.choice_cons {f : Nat → Parse τ α} {p : Parse τ α} {g : Nat → List (Parse τ α)}
    {ps : List (Parse τ α)} (hf : Limit f p)
    (hg : Limit (fun n => Parse.choice (g n)) (Parse.choice ps)) :
    Limit (fun n => Parse.choice (f n :: g n)) (Parse.choice (p :: ps)) :=
  hf.parseOrElse hg

theorem Limit.parseOpt {f : Nat → Parse τ α} {p : Parse τ α} (hf : Limit f p) :
    Limit (fun n => (f n).opt) p.opt :=
  (hf.map some).parseOrElse (Limit.const (pure none))

theorem Limit.manyUpTo {f : Nat → Parse τ α} {p : Parse τ α} (hf : Limit f p) (m : Nat) :
    Limit (fun n => (f n).manyUpTo m) (p.manyUpTo m) := by
  induction m with
  | zero => exact Limit.const _
  | succ m ih =>
      refine ⟨fun {n s r} h => ?_, fun {s r} h => ?_⟩
      · rw [Parse.run_manyUpTo] at h ⊢
        rcases hfn : (f n).run s with _ | ⟨e | a, s'⟩
        · simp [hfn] at h
        · rw [hfn] at h
          rw [hf.sound hfn]
          cases e <;> exact h
        · simp only [hfn] at h
          simp only [hf.sound hfn]
          by_cases hlt : s'.length < s.length
          · rw [if_pos hlt] at h ⊢
            exact (ih.map (fun as => a :: as)).sound h
          · rw [if_neg hlt] at h ⊢
            exact h
      · rw [Parse.run_manyUpTo] at h
        rcases hp : p.run s with _ | ⟨e | a, s'⟩
        · simp [hp] at h
        · obtain ⟨n, hn⟩ := hf.eventually hp
          rw [hp] at h
          refine ⟨n, fun k hk => ?_⟩
          rw [Parse.run_manyUpTo, hn k hk]
          cases e <;> exact h
        · obtain ⟨n₁, hn₁⟩ := hf.eventually hp
          simp only [hp] at h
          by_cases hlt : s'.length < s.length
          · rw [if_pos hlt] at h
            obtain ⟨n₂, hn₂⟩ := (ih.map (fun as => a :: as)).eventually h
            refine ⟨max n₁ n₂, fun k hk => ?_⟩
            rw [Parse.run_manyUpTo]
            simp only [hn₁ k (le_trans (le_max_left _ _) hk), if_pos hlt]
            exact hn₂ k (le_trans (le_max_right _ _) hk)
          · rw [if_neg hlt] at h
            refine ⟨n₁, fun k hk => ?_⟩
            rw [Parse.run_manyUpTo]
            simp only [hn₁ k hk, if_neg hlt, h]

theorem Limit.many0 {f : Nat → Parse τ α} {p : Parse τ α} (hf : Limit f p) :
    Limit (fun n => (f n).many0) p.many0 :=
  ⟨fun {_ s _} h => (hf.manyUpTo (s.length + 1)).sound h,
    fun {s _} h => (hf.manyUpTo (s.length + 1)).eventually h⟩

theorem Limit.sepBy1 {f : Nat → Parse τ α} {p : Parse τ α} (sep : Parse τ Unit)
    (hf : Limit f p) : Limit (fun n => Parse.sepBy1 sep (f n)) (Parse.sepBy1 sep p) :=
  hf.bind (fun _ => (((Limit.const sep).bind (fun _ => hf)).many0).bind (fun _ => Limit.const _))

theorem Limit.delimited {f : Nat → Parse τ α} {p : Parse τ α} (opening closing : Parse τ Unit)
    (hf : Limit f p) :
    Limit (fun n => Parse.delimited opening (f n) closing) (Parse.delimited opening p closing) :=
  (Limit.const opening).bind (fun _ => hf.bind (fun _ =>
    (Limit.const closing).bind (fun _ => Limit.const _)))

end Comp

end Armour.Lib
