import Armour.Lib.Parse

/-! # Weighing what a parser takes

Items have weights.  A parser weighs its values when a run that succeeds takes off the front
exactly the weight of the value that it answers.
-/

namespace Armour.Lib.Parse

variable {τ α β : Type}

/-- The weight of a list of items. -/
def total (w : τ → Nat) : List τ → Nat
  | [] => 0
  | t :: ts => w t + total w ts

@[simp] theorem total_nil (w : τ → Nat) : total w [] = 0 := rfl

@[simp] theorem total_cons (w : τ → Nat) (t : τ) (ts : List τ) :
    total w (t :: ts) = w t + total w ts := rfl

@[simp] theorem total_zero (ts : List τ) : total (fun _ => 0) ts = 0 := by
  induction ts with
  | nil => rfl
  | cons t ts ih => rw [total_cons, ih]

@[simp] theorem total_append (w : τ → Nat) (ts us : List τ) :
    total w (ts ++ us) = total w ts + total w us := by
  induction ts with
  | nil => exact (Nat.zero_add _).symm
  | cons t ts ih => rw [List.cons_append, total_cons, total_cons, ih, Nat.add_assoc]

/-- Items that do not weigh anything may be left out. -/
theorem total_filter {w : τ → Nat} {p : τ → Bool} (h : ∀ t, p t = false → w t = 0)
    (ts : List τ) : total w (ts.filter p) = total w ts := by
  induction ts with
  | nil => rfl
  | cons t ts ih =>
      by_cases ht : p t = true
      · rw [List.filter_cons_of_pos ht, total_cons, total_cons, ih]
      · have hzero : w t = 0 := h t (Bool.eq_false_iff.mpr ht)
        rw [List.filter_cons_of_neg ht, total_cons, ih, hzero, Nat.zero_add]

/-- With `k` before it, what a run takes weighs a number that `R` allows for the value. -/
def Weighs (w : τ → Nat) (k : Nat) (R : α → Nat → Prop) (p : Parse τ α) : Prop :=
  ∀ ts a ts', p.run ts = some (.ok a, ts') → ∃ n, R a n ∧ k + total w ts = n + total w ts'

/-- What a run takes weighs as much as the value. -/
def Costs (w : τ → Nat) (m : α → Nat) (p : Parse τ α) : Prop :=
  Weighs w 0 (fun a n => n = m a) p

/-- The parts of a number that `R` allows for the values of a list. -/
def Sums (R : α → Nat → Prop) : List α → Nat → Prop
  | [], n => n = 0
  | a :: as, n => ∃ i j, R a i ∧ Sums R as j ∧ n = i + j

theorem sums_measure {m : α → Nat} {as : List α} {n : Nat}
    (h : Sums (fun a n => n = m a) as n) : n = total m as := by
  induction as generalizing n with
  | nil => exact h
  | cons a as ih =>
      obtain ⟨i, j, rfl, hj, rfl⟩ := h
      rw [total_cons, ih hj]

namespace Weighs

variable {w : τ → Nat} {k : Nat} {R : α → Nat → Prop} {S : β → Nat → Prop}

theorem mono {R' : α → Nat → Prop} {p : Parse τ α} (h : Weighs w k R p)
    (hR : ∀ a n, R a n → R' a n) : Weighs w k R' p := by
  intro ts a ts' hrun
  obtain ⟨n, hn, htotal⟩ := h ts a ts' hrun
  exact ⟨n, hR a n hn, htotal⟩

/-- More before the parser is more before its value. -/
theorem shift {p : Parse τ α} (h : Weighs w k R p) (j : Nat) :
    Weighs w (j + k) (fun a n => ∃ i, R a i ∧ n = j + i) p := by
  intro ts a ts' hrun
  obtain ⟨i, hi, htotal⟩ := h ts a ts' hrun
  exact ⟨j + i, ⟨i, hi, rfl⟩, by omega⟩

theorem pure {a : α} (h : R a k) : Weighs w k R (Pure.pure a) := by
  rintro ts b ts' ⟨⟩
  exact ⟨k, h, rfl⟩

theorem throw (e : Fault) : Weighs w k R (Comp.throw e) := by
  rintro ts a ts' ⟨⟩

theorem error : Weighs w k R Parse.error := throw .error

theorem token {f : τ → Option α} (h : ∀ t a, f t = some a → R a (k + w t)) :
    Weighs w k R (Parse.token f) := by
  intro ts a ts' hrun
  obtain ⟨t, rfl, ht⟩ := token_eq_ok hrun
  exact ⟨k + w t, h t a ht, by rw [total_cons, Nat.add_assoc]⟩

theorem tag [DecidableEq τ] (t : τ) : Weighs w k (fun _ n => n = k + w t) (Parse.tag t) := by
  intro ts a ts' hrun
  rw [tag_eq_ok hrun]
  exact ⟨k + w t, rfl, by rw [total_cons, Nat.add_assoc]⟩

/-- A look at the next item takes nothing. -/
theorem peek : Weighs w k (fun _ n => n = k) (Parse.peek : Parse τ τ) := by
  intro ts a ts' hrun
  cases ts with
  | nil => cases hrun
  | cons t ts =>
      cases hrun
      exact ⟨k, rfl, rfl⟩

theorem bind {p : Parse τ α} {f : α → Parse τ β} (h : Weighs w k R p)
    (hf : ∀ a n, R a n → Weighs w n S (f a)) : Weighs w k S (p >>= f) := by
  intro ts b ts' hrun
  obtain ⟨a, ts₁, ha, hb⟩ := Comp.bind_eq_ok hrun
  obtain ⟨n, hn, htotal⟩ := h ts a ts₁ ha
  obtain ⟨n', hn', htotal'⟩ := hf a n hn ts₁ b ts' hb
  exact ⟨n', hn', htotal.trans htotal'⟩

/-- The first part adds what it takes to the weight before it. -/
theorem andThen {p : Parse τ α} {f : α → Parse τ β} (h : Weighs w 0 R p)
    (hf : ∀ a i, R a i → Weighs w (k + i) S (f a)) : Weighs w k S (p >>= f) := by
  refine (h.shift k).bind ?_
  rintro a n ⟨i, hi, rfl⟩
  exact hf a i hi

/-- An item without weight is passed. -/
theorem skip [DecidableEq τ] {p : Parse τ β} (h : Weighs w k S p) {t : τ} (ht : w t = 0) :
    Weighs w k S (Parse.tag t >>= fun _ => p) := by
  refine (tag t).bind ?_
  rintro _ n rfl
  rwa [ht, Nat.add_zero]

theorem map {p : Parse τ α} {f : α → β} (h : Weighs w k R p) (hf : ∀ a n, R a n → S (f a) n) :
    Weighs w k S (f <$> p) := by
  rw [map_eq_pure_bind]
  exact h.bind (fun a n ha => pure (hf a n ha))

theorem orElse {p q : Parse τ α} (hp : Weighs w k R p) (hq : Weighs w k R q) :
    Weighs w k R (p.orElse q) := by
  intro ts a ts' hrun
  rcases orElse_eq_ok hrun with h | h
  · exact hp ts a ts' h
  · exact hq ts a ts' h

theorem choice {ps : List (Parse τ α)} (h : ∀ p ∈ ps, Weighs w k R p) :
    Weighs w k R (Parse.choice ps) := by
  induction ps with
  | nil => exact error
  | cons p ps ih =>
      exact (h p List.mem_cons_self).orElse (ih (fun q hq => h q (List.mem_cons_of_mem _ hq)))

theorem choice_two {p q : Parse τ α} (hp : Weighs w k R p) (hq : Weighs w k R q) :
    Weighs w k R (Parse.choice [p, q]) :=
  choice (List.forall_mem_cons.mpr ⟨hp, List.forall_mem_singleton.mpr hq⟩)

theorem many0 {p : Parse τ α} (h : Weighs w 0 R p) : Weighs w 0 (Sums R) (Parse.many0 p) := by
  intro ts as ts' hrun
  refine many0_eq_ok (P := fun as ts ts' => ∃ n, Sums R as n ∧ 0 + total w ts = n + total w ts')
    (fun ts => ⟨0, rfl, rfl⟩) (fun a as ts ts₁ ts₂ ha has => ?_) hrun
  obtain ⟨i, hi, htotal⟩ := h ts a ts₁ ha
  obtain ⟨j, hj, htotal'⟩ := has
  exact ⟨i + j, ⟨i, j, hi, hj, rfl⟩, by omega⟩

/-- A grammar weighs its values when it does so given parsers that do for its recursive calls. -/
theorem fix {γ : Type} {F : Comp.Functional Fault (List τ) γ α} {k : γ → Nat}
    {R : γ → α → Nat → Prop}
    (h : ∀ f : γ → Parse τ α, (∀ c, Weighs w (k c) (R c) (f c)) →
      ∀ c, Weighs w (k c) (R c) (F f c))
    (c : γ) : Weighs w (k c) (R c) (Comp.fix F c) := by
  have hiter : ∀ n c, Weighs w (k c) (R c) (Comp.iterate F n c) := by
    intro n
    induction n with
    | zero => rintro c ts a ts' ⟨⟩
    | succ n ih => exact h _ ih
  intro ts a ts' hrun
  obtain ⟨n, hn⟩ := Comp.exists_iterate_of_fix hrun
  exact hiter n c ts a ts' hn

end Weighs

namespace Costs

variable {w : τ → Nat} {m : α → Nat} {k : Nat} {S : β → Nat → Prop}

theorem andThen {p : Parse τ α} {f : α → Parse τ β} (h : Costs w m p)
    (hf : ∀ a, Weighs w (k + m a) S (f a)) : Weighs w k S (p >>= f) := by
  refine Weighs.andThen h ?_
  rintro a n rfl
  exact hf a

theorem map {p : Parse τ α} {f : α → β} {m' : β → Nat} (h : Costs w m p)
    (hf : ∀ a, m' (f a) = m a) : Costs w m' (f <$> p) := by
  refine Weighs.map h ?_
  rintro a n rfl
  exact (hf a).symm

theorem token {f : τ → Option α} (h : ∀ t a, f t = some a → w t = m a) :
    Costs w m (Parse.token f) := by
  refine Weighs.token (fun t a ht => ?_)
  rw [Nat.zero_add]
  exact h t a ht

theorem value [DecidableEq τ] {a : α} {t : τ} (h : w t = m a) : Costs w m (Parse.value a t) := by
  refine (Weighs.tag t).bind ?_
  rintro _ n rfl
  exact .pure (by rw [Nat.zero_add, h])

/-- An item without weight is passed. -/
theorem skip [DecidableEq τ] {p : Parse τ α} (h : Costs w m p) {t : τ} (ht : w t = 0) :
    Costs w m (Parse.tag t >>= fun _ => p) :=
  Weighs.skip h ht

theorem choice {ps : List (Parse τ α)} (h : ∀ p ∈ ps, Costs w m p) :
    Costs w m (Parse.choice ps) := Weighs.choice h

theorem choice_two {p q : Parse τ α} (hp : Costs w m p) (hq : Costs w m q) :
    Costs w m (Parse.choice [p, q]) := Weighs.choice_two hp hq

theorem opt {p : Parse τ α} (h : Costs w m p) :
    Costs w (fun a? => (a?.map m).getD 0) (Parse.opt p) := by
  refine Weighs.orElse (Weighs.map h ?_) (.pure rfl)
  rintro a n rfl
  rfl

theorem many0 {p : Parse τ α} (h : Costs w m p) :
    Costs w (fun as => total m as) (Parse.many0 p) :=
  (Weighs.many0 h).mono (fun _ _ => sums_measure)

theorem many1 {p : Parse τ α} (h : Costs w m p) :
    Costs w (fun as => total m as) (Parse.many1 p) :=
  h.andThen (fun a => h.many0.andThen (fun as => .pure (by
    rw [Nat.zero_add]
    rfl)))

theorem sepBy1 [DecidableEq τ] {p : Parse τ α} (h : Costs w m p) {t : τ} (ht : w t = 0) :
    Costs w (fun as => total m as) (Parse.sepBy1 (tag t) p) := by
  have hnext : Costs w m (do tag t; p) := h.skip ht
  exact h.andThen (fun a => hnext.many0.andThen (fun as => .pure (by
    rw [Nat.zero_add]
    rfl)))

theorem delimited [DecidableEq τ] {p : Parse τ α} (h : Costs w m p) {o c : τ} (ho : w o = 0)
    (hc : w c = 0) : Costs w m (Parse.delimited (tag o) p (tag c)) := by
  refine Weighs.skip (h.andThen (fun a => Weighs.skip (.pure ?_) hc)) ho
  exact Nat.zero_add _

end Costs

end Armour.Lib.Parse
