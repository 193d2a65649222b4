import Armour.Control.Agreement

/-! # Elements, arguments and iterations

What the specializer does with several residuals at once: the first return among them, a list
of literals, and the iterations over a list, with and without an accumulator.
-/

namespace Armour.Control

open Armour.Lib Armour.Lang

/-! ## Results of several evaluations -/

theorem literals_append_ret {os : List CPOutcome} (h : ∀ o ∈ os, o.isReturn = false)
    (q : CPOutcome) (qs : List CPOutcome) :
    Outcome.literals (os ++ .ret q :: qs) = .error (.ret q) := by
  induction os with
  | nil => rfl
  | cons o os ih =>
      have ih := ih (fun o ho => h o (List.mem_cons_of_mem _ ho))
      cases o with
      | lit l => simp [Outcome.literals, ih, Except.map]
      | ret o => cases h _ List.mem_cons_self

theorem eq_returnExpr {e : CPExpr} (h : e.isReturn = true) : ∃ r, e = .returnExpr r := by
  cases e with
  | returnExpr r => exact ⟨r, rfl⟩
  | _ => cases h

/-! ## What the specializer binds, the evaluator binds too -/

theorem bindElement_who {who : String} (who' : String) {vs : List String} {l : CPLiteral}
    {e e' : CPExpr} (h : bindElement who vs l e = .ok e') : bindElement who' vs l e = .ok e' := by
  unfold bindElement at h ⊢
  split at h
  · exact h
  · split_ifs at h ⊢
    exact h
  · cases h

theorem bindIter_who {who : String} (who' : String) {vs : List String} {acc : Option CPExpr}
    {l : CPLiteral} {e e' : CPExpr} (h : bindIter who vs acc l e = .ok e') :
    bindIter who' vs acc l e = .ok e' := by
  cases acc with
  | none => exact bindElement_who who' h
  | some a =>
      simp only [bindIter] at h ⊢
      cases ha : applyTo e a with
      | error err => rw [ha] at h; cases h
      | ok e₁ =>
          rw [ha] at h
          exact bindElement_who who' h

theorem bindCaptures_who {who : String} (who' : String) {caps : BTreeMap String CPLiteral}
    {vs : List String} {e e' : CPExpr} (h : bindCaptures who caps vs e = .ok e') :
    bindCaptures who' caps vs e = .ok e' := by
  induction vs generalizing e with
  | nil => exact h
  | cons v vs ih =>
      simp only [bindCaptures] at h ⊢
      cases hv : caps.get? v with
      | none => rw [hv] at h; cases h
      | some l =>
          rw [hv] at h
          simp only at h ⊢
          cases hl : applyTo e (.litExpr l) with
          | error err => rw [hl] at h; cases h
          | ok e₁ =>
              rw [hl] at h
              exact ih h

theorem bindLet_who {who : String} (who' : String) {vs : List String} {l : CPLiteral} {e e' : CPExpr}
    (h : bindLet who vs l e = .ok e') : bindLet who' vs l e = .ok e' := by
  unfold bindLet at h ⊢
  split at h
  · split_ifs at h ⊢
    · exact h
    · exact h
  · split_ifs at h ⊢
    exact h

section

variable {env : Env CPFlatLiteral} {V : View} {P : Pre} {ρ : List CPOutcome} {s t : CPWorld}

/-- A return gives a return. -/
theorem eq_ret_of_run {e : CPExpr} {o : CPOutcome} {s₁ : CPWorld}
    (h : (run env ρ (.returnExpr e)).run s = some (.ok o, s₁)) : ∃ q, o = .ret q := by
  rw [run_returnExpr, map_eq_pure_bind] at h
  obtain ⟨q, _, -, hq⟩ := Comp.bind_eq_ok h
  cases hq
  exact ⟨q, rfl⟩

/-! ## Lists of literals and returns among elements -/

theorem traverse_lits (ls : List CPLiteral) :
    Comp.traverse (run env ρ) (ls.map .litExpr) = pure (ls.map Outcome.lit) := by
  simp only [Comp.traverse_map, run_litExpr, Comp.traverse_pure]

/-- Elements that are simulated, each after those in front of it. -/
theorem elements_sim (hP : P ρ s t) (hR : V.worlds.r s t) {es : List CPExpr} {rs : List Residual}
    (hlen : es.length = rs.length)
    (h : ∀ (i : Nat) e (r : Residual), es[i]? = some e → rs[i]? = some r → ∀ s₁ t₁,
      after (P.both (sems env (es.take i)) (sems env ((rs.map Prod.snd).take i))) ρ s₁ t₁ →
        V.worlds.r s₁ t₁ → V.Sim (run env ρ e) s₁ (run env ρ r.2) t₁) :
    V.Sim (Comp.traverse (run env ρ) es) s (Comp.traverse (run env ρ) (rs.map Prod.snd)) t := by
  refine .traverse_of_getElem (by simpa using hlen) hR (fun i e b os s₁ t₁ he hb hs ht hR₁ => ?_)
  rw [List.getElem?_map, Option.map_eq_some_iff] at hb
  obtain ⟨r, hr, rfl⟩ := hb
  exact h i e r he hr s₁ t₁ ⟨os, s, t, hP, hs, ht⟩ hR₁

/-- Elements that are known, each after those in front of it. -/
theorem elements_skip (hP : P ρ s t) (hR : V.worlds.r s t) {es : List CPExpr}
    {rs : List Residual} {ls : List CPLiteral} (hlen : es.length = rs.length)
    (h : ∀ (i : Nat) e (r : Residual), es[i]? = some e → rs[i]? = some r → ∀ s₁,
      after (P.past (sems env (es.take i))) ρ s₁ t → V.worlds.r s₁ t →
        V.Sim (run env ρ e) s₁ (run env ρ r.2) t)
    (hls : rs.map Prod.snd = ls.map .litExpr) :
    V.Skips (· = ls.map Outcome.lit) (Comp.traverse (run env ρ) es) s t := by
  have hlen' : es.length = (ls.map (Expr.litExpr : CPLiteral → CPExpr)).length := by
    rw [← hls, List.length_map]
    exact hlen
  have hsim : V.Sim (Comp.traverse (run env ρ) es) s
      (Comp.traverse (run env ρ) (ls.map .litExpr)) t := by
    refine .traverse_of_getElem hlen' hR (fun i e b os s₁ t₁ he hb hs ht hR₁ => ?_)
    -- the literals in front do not move the world of the residual
    rw [← List.map_take, traverse_lits] at ht
    cases ht
    rw [← hls, List.getElem?_map, Option.map_eq_some_iff] at hb
    obtain ⟨r, hr, rfl⟩ := hb
    exact h i e r he hr s₁ ⟨_, s, hP, hs⟩ hR₁
  rw [traverse_lits] at hsim
  exact hsim.skips

/-- The first return among several outcomes, where what is in front of it and what follows it can
be left out. -/
theorem return_sim {α β : Type} {f : α → CPEvalM β} (out : β → CPOutcome) {pre post : List α}
    {a : α} {m' : CPEvalM CPOutcome}
    (hpre : V.Skips (fun bs => NoneReturns (bs.map out)) (Comp.traverse f pre) s t)
    (h : ∀ bs s₁, (Comp.traverse f pre).run s = some (.ok bs, s₁) → V.worlds.r s₁ t →
      Comp.Sim V.worlds.r V.strict (fun b o => out b = o) (f a) s₁ m' t)
    (hret : ∀ o t₁, m'.run t = some (.ok o, t₁) → ∃ q, o = .ret q)
    (hpost : ∀ bs s₁ b s₂ t₂, (Comp.traverse f pre).run s = some (.ok bs, s₁) →
      (f a).run s₁ = some (.ok b, s₂) → m'.run t = some (.ok (out b), t₂) →
        V.Skips (fun _ => True) (Comp.traverse f post) s₂ t₂)
    {k : List β → CPEvalM CPOutcome}
    (hk : ∀ bs q, Outcome.literals (bs.map out) = .error q → k bs = pure q) :
    V.Sim (do k (← Comp.traverse f (pre ++ a :: post))) s m' t := by
  rw [Comp.traverse_append, bind_assoc]
  refine .drop hpre (fun xs s₁ hxs hR₁ hnone => ?_)
  rw [Comp.traverse_cons, bind_assoc, bind_assoc]
  refine (h xs s₁ hxs hR₁).bind_value (fun b o s₂ t₂ hb ho _ hout => ?_)
  subst hout
  obtain ⟨q, hq⟩ := hret _ t₂ ho
  rw [bind_assoc]
  refine .drop (hpost xs s₁ b s₂ t₂ hxs hb ho) (fun ys _ _ hR₃ _ => ?_)
  simp only [pure_bind]
  rw [hk _ (.ret q)]
  · exact .pure hR₃ hq.symm
  · rw [List.map_append, List.map_cons, hq]
    exact literals_append_ret hnone q _

theorem onLiterals_error {os : List CPOutcome} {q : CPOutcome}
    (h : Outcome.literals os = .error q) (k : List CPLiteral → CPEvalM CPOutcome) :
    onLiterals os k = pure q := by
  rw [onLiterals, h]

/-- A return among elements or arguments. -/
theorem elementReturn_sim (hP : P ρ s t) {pre post : List CPExpr} {e : CPExpr} {r : Residual}
    (hr : r.isReturn = true) (drop : Skipped V P (sems env pre) NoneReturns)
    (h : ∀ s₁, after (P.past (sems env pre)) ρ s₁ t → V.worlds.r s₁ t →
      V.Sim (run env ρ e) s₁ (run env ρ r.2) t)
    (quiet : Skipped V (after ((after (P.past (sems env pre))).both (sem env e) (sem env r.2)))
      (sems env post) (fun _ => True)) {k : List CPOutcome → CPEvalM CPOutcome}
    (hk : ∀ os q, Outcome.literals os = .error q → k os = pure q) :
    V.Sim (do k (← Comp.traverse (run env ρ) (pre ++ e :: post))) s (run env ρ r.2) t := by
  obtain ⟨x, hx⟩ := eq_returnExpr hr
  refine return_sim id ((drop ρ s t hP).mono (fun os hos => ?_))
    (fun os s₁ hos hR => h s₁ ⟨os, s, hP, hos⟩ hR) (fun o t₁ ho => ?_)
    (fun os s₁ o s₂ t₂ hos ho ho' => quiet ρ s₂ t₂ ⟨o, s₁, t, ⟨os, s, hP, hos⟩, ho, ho'⟩)
    (fun os q hq => hk os q (by rwa [List.map_id] at hq))
  · rwa [List.map_id]
  · rw [hx] at ho
    exact eq_ret_of_run ho

/-! ## Iterations -/

/-- A body that the specializer has bound is the body applied to what the iteration binds. -/
theorem runApp_iterArgs {vs : List String} (acc : Option CPOutcome) {l : CPLiteral}
    {e2 e : CPExpr} (h : bindIter "peval" vs (acc.map Outcome.toExpr) l e2 = .ok e) :
    runApp env ρ e2 (iterArgs "eval" vs acc l) = run env ρ e := by
  have h := bindIter_who "eval" h
  rw [bindIter_eq] at h
  rw [runApp, h]
  rfl

theorem iterSem_none (op : Iter) (vs : List String) (body : Args CPFlatLiteral → CPEvalM CPOutcome)
    (lits : List CPLiteral) :
    iterSem op vs body none (.list lits) = (do
      let rs ← Comp.traverse (fun l => body (iterArgs "eval" vs none l)) lits
      finishIter op lits rs none) := by
  have hloop : ∀ ls : List CPLiteral, loopSem vs body ls none =
      (do
        let rs ← Comp.traverse (fun l => body (iterArgs "eval" vs none l)) ls
        pure (rs, none)) := by
    intro ls
    induction ls with
    | nil => rfl
    | cons l ls ih =>
        simp only [loopSem, Option.map_none, ih, Comp.traverse_cons, bind_assoc, pure_bind]
  simp only [iterSem, accSem, pure_bind, hloop, bind_assoc]

theorem traverse_bound {vs : List String} {e2 : CPExpr} {lits : List CPLiteral}
    {es : List CPExpr}
    (hes : List.Forall₂ (fun l e => bindIter "peval" vs none l e2 = .ok e) lits es) :
    Comp.traverse (fun l => runApp env ρ e2 (iterArgs "eval" vs none l)) lits =
      Comp.traverse (run env ρ) es := by
  induction hes with
  | nil => rfl
  | cons he _ ih => rw [Comp.traverse_cons, Comp.traverse_cons, ih, runApp_iterArgs none he]

theorem finishIter_error {op : Iter} {lits : List CPLiteral} {os : List CPOutcome}
    {acc : Option CPOutcome} {q : CPOutcome} (h : Outcome.literals os = .error q) :
    finishIter op lits os acc = pure q := by
  unfold finishIter
  rw [h]

theorem finishIter_still (op : Iter) (lits : List CPLiteral) (os : List CPOutcome)
    (acc : Option CPOutcome) : (finishIter op lits os acc : CPEvalM CPOutcome).Still := by
  unfold finishIter
  cases Outcome.literals os with
  | error q => exact .pure _
  | ok ls =>
      dsimp only
      split_ifs
      · match acc with
        | some (.lit l) => exact .pure _
        | some (.ret q) => exact .throw _
        | none => exact .throw _
      · exact (Comp.Still.ofExcept _).map _

/-- Iterations that are simulated wherever they are reached. -/
theorem loopSem_sim {vs : List String} {body body' : Args CPFlatLiteral → CPEvalM CPOutcome}
    {lits : List CPLiteral} {acc : Option CPOutcome} (hR : V.worlds.r s t)
    (h : ∀ pre l post p s₁ t₁, lits = pre ++ l :: post →
      (loopSem vs body pre acc).run s = some (.ok p, s₁) →
      (loopSem vs body' pre acc).run t = some (.ok p, t₁) → V.worlds.r s₁ t₁ →
      V.Sim (body (iterArgs "eval" vs p.2 l)) s₁ (body' (iterArgs "eval" vs p.2 l)) t₁) :
    V.Sim (loopSem vs body lits acc) s (loopSem vs body' lits acc) t := by
  induction lits generalizing acc s t with
  | nil => exact .pure hR rfl
  | cons l ls ih =>
      refine (h [] l ls ([], acc) s t rfl rfl rfl hR).bind (fun o o' s₁ t₁ hs ht hR₁ ho => ?_)
      subst ho
      refine (ih hR₁ (fun pre l' post p s₂ t₂ hls hp hp' hR₂ => ?_)).bind
        (fun p p' _ _ _ _ hR hp => hp ▸ .pure hR rfl)
      refine h (l :: pre) l' post (o :: p.1, p.2) s₂ t₂ (congrArg (l :: ·) hls) ?_ ?_ hR₂
      · rw [loopSem, Comp.run_bind_ok hs, Comp.run_bind_ok hp]
        rfl
      · rw [loopSem, Comp.run_bind_ok ht, Comp.run_bind_ok hp']
        rfl

/-- The same list and accumulators that are simulated. -/
theorem iterSem_list {op : Iter} {vs : List String}
    {body body' : Args CPFlatLiteral → CPEvalM CPOutcome}
    {acc acc' : Option (CPEvalM CPOutcome)} {lits : List CPLiteral}
    (hacc : V.Sim (accSem acc) s (accSem acc') t)
    (h : ∀ a₀ s₁ t₁, (accSem acc).run s = some (.ok a₀, s₁) →
      (accSem acc').run t = some (.ok a₀, t₁) → V.worlds.r s₁ t₁ →
      V.Sim (loopSem vs body lits a₀) s₁ (loopSem vs body' lits a₀) t₁) :
    V.Sim (iterSem op vs body acc (.list lits)) s (iterSem op vs body' acc' (.list lits)) t := by
  refine hacc.bind (fun a₀ a₀' s₁ t₁ hs ht hR ha => ?_)
  subst ha
  exact (h a₀ s₁ t₁ hs ht hR).bind
    (fun p p' _ _ _ _ hR hp => hp ▸ (finishIter_still op lits p.1 p.2).sim hR)

/-- An iterator over a list that is not known. -/
theorem iterSem_sim {op : Iter} {vs : List String}
    {body body' : Args CPFlatLiteral → CPEvalM CPOutcome}
    {acc acc' : Option (CPEvalM CPOutcome)} {l : CPLiteral} (hR : V.worlds.r s t)
    (hacc : ∀ ls, l = .list ls → V.Sim (accSem acc) s (accSem acc') t)
    (h : ∀ pre x post a₀ p s₁ t₁ s₂ t₂, l = .list (pre ++ x :: post) →
      (accSem acc).run s = some (.ok a₀, s₁) → (accSem acc').run t = some (.ok a₀, t₁) →
      (loopSem vs body pre a₀).run s₁ = some (.ok p, s₂) →
      (loopSem vs body' pre a₀).run t₁ = some (.ok p, t₂) → V.worlds.r s₂ t₂ →
      V.Sim (body (iterArgs "eval" vs p.2 x)) s₂ (body' (iterArgs "eval" vs p.2 x)) t₂) :
    V.Sim (iterSem op vs body acc l) s (iterSem op vs body' acc' l) t := by
  cases l with
  | flat l => exact .throw hR
  | tuple ls => exact .throw hR
  | list lits =>
      refine iterSem_list (hacc lits rfl) (fun a₀ s₁ t₁ hs ht hR₁ => ?_)
      refine loopSem_sim hR₁ (fun pre x post p s₂ t₂ hlits hp hp' hR₂ => ?_)
      exact h pre x post a₀ p s₁ t₁ s₂ t₂ (congrArg Literal.list hlits) hs ht hp hp' hR₂

/-! ## Folds over a static list -/

theorem foldRest_ret {vs : List String} {body : Args CPFlatLiteral → CPEvalM CPOutcome}
    (q : CPOutcome) (lits : List CPLiteral) :
    foldRest vs body (.ret q) lits = pure (.ret q) := by
  cases lits <;> rfl

theorem foldRest_append {vs : List String} {body : Args CPFlatLiteral → CPEvalM CPOutcome}
    (o : CPOutcome) (lits post : List CPLiteral) :
    foldRest vs body o (lits ++ post) =
      (do foldRest vs body (← foldRest vs body o lits) post) := by
  induction lits generalizing o with
  | nil =>
      cases o with
      | ret q => rw [List.nil_append, foldRest_ret, foldRest_ret, pure_bind, foldRest_ret]
      | lit v => rfl
  | cons l ls ih =>
      cases o with
      | ret q => rw [List.cons_append, foldRest_ret, foldRest_ret, pure_bind, foldRest_ret]
      | lit v =>
          rw [List.cons_append, foldRest, foldRest, bind_assoc]
          exact bind_congr (fun o => ih o)

/-- The outcomes of all iterations and the last accumulator, where `o` is the first return or else
the last outcome. -/
def EndsWith (p : List CPOutcome × Option CPOutcome) (o : CPOutcome) : Prop :=
  Outcome.literals p.1 = .error o ∨
    ∃ (ls : List CPLiteral) (v : CPLiteral), p = (ls.map .lit, some (.lit v)) ∧ o = .lit v

theorem EndsWith.cons {p : List CPOutcome × Option CPOutcome} {o : CPOutcome} (v : CPLiteral)
    (h : EndsWith p o) : EndsWith (.lit v :: p.1, p.2) o := by
  rcases h with h | ⟨ls, v', rfl, rfl⟩
  · exact Or.inl (by simp [Outcome.literals, h, Except.map])
  · exact Or.inr ⟨v :: ls, v', rfl, rfl⟩

theorem EndsWith.finish {op : Iter} {lits : List CPLiteral} {p : List CPOutcome × Option CPOutcome}
    {o : CPOutcome} (h : EndsWith p o) (hop : (∃ q, o = .ret q) ∨ op = .fold) :
    finishIter op lits p.1 p.2 = pure o := by
  rcases h with h | ⟨ls, v, rfl, rfl⟩
  · exact finishIter_error h
  · rcases hop with ⟨q, hq⟩ | rfl
    · cases hq
    · simp only [finishIter, literals_lits, if_true]

/-- If what follows the first return can be left out, the iterations may as well end there. -/
theorem QuietAfter.sim {vs : List String} {body : Args CPFlatLiteral → CPEvalM CPOutcome}
    {lits : List CPLiteral} :
    ∀ {o : CPOutcome} {s : CPWorld}, QuietAfter V vs body o lits s →
      Comp.Sim V.worlds.r V.strict EndsWith
        (do
          let p ← loopSem vs body lits (some o)
          pure (o :: p.1, p.2)) s
        (foldRest vs body o lits) s := by
  induction lits with
  | nil =>
      intro o s h
      cases o with
      | ret q => exact .pure (V.refl s) (Or.inl rfl)
      | lit v => exact .pure (V.refl s) (Or.inr ⟨[v], v, rfl, rfl⟩)
  | cons l ls ih =>
      intro o s h
      cases o with
      | ret q => exact .drop h (fun p _ _ hR _ => .pure hR (Or.inl rfl))
      | lit v =>
          simp only [loopSem, Option.map_some, bind_assoc, pure_bind]
          rw [← bind_pure (foldRest vs body (.lit v) (l :: ls)), foldRest, bind_assoc]
          refine (Comp.Sim.refl V.refl _).bind (fun o o' s₁ t₁ hs ht _ ho => ?_)
          cases hs.symm.trans ht
          have hrest := (ih (h o s₁ hs)).map (fun p o hp => hp.cons v)
          simpa only [map_eq_pure_bind, bind_assoc, pure_bind, id_map] using hrest

end

end Armour.Control
