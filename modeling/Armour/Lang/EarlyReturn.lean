import Armour.Lang.Semantics
import Armour.Lib.Until

/-! # Early return

A `return` ends the function.  `evalStop` evaluates in this way: whatever comes after a part
that returned is left out.  The evaluator of the source stops at once in most constructs, but
evaluates all parts of an operator, a list, a call, an `if match` or an iterator before it looks
for a return among the results.
-/

namespace Armour.Lang

open Armour.Lib

section

variable {FT FL : Type} [TFlatTyp FT] [TFlatLiteral FT FL]

/-- `evalIter`, up to the first iteration that returns. -/
def stopIter (ev : Expr FL → EvalM FL (Outcome FL)) (vs : List String) (e2 : Expr FL) :
    List (Literal FL) → Option (Outcome FL) →
      EvalM FL (List (Outcome FL) × Option (Outcome FL))
  | [], acc => pure ([], acc)
  | l :: ls, acc => do
      let e ← Comp.ofExcept (bindIter "eval" vs (acc.map Outcome.toExpr) l e2)
      let r ← ev e
      if r.isReturn then pure ([r], acc.map (fun _ => r)) else do
        let (rs, acc) ← stopIter ev vs e2 ls (acc.map (fun _ => r))
        pure (r :: rs, acc)

/-- Only the last iteration returns. -/
def LastReturns (ev : Expr FL → EvalM FL (Outcome FL)) (vs : List String) (e2 : Expr FL) :
    List (Literal FL) → Option (Outcome FL) → World FL → Prop
  | [], _, _ => True
  | l :: ls, acc, w => ∀ e r w', bindIter "eval" vs (acc.map Outcome.toExpr) l e2 = .ok e →
      (ev e).run w = some (.ok r, w') →
        (r.isReturn = true → ls = []) ∧ LastReturns ev vs e2 ls (acc.map (fun _ => r)) w'

/-! ## The parts of an iterator -/

variable {env : Env FL} {f g : Expr FL → EvalM FL (Outcome FL)}

theorem evalAcc_mono (hfg : ∀ e w r, (f e).run w = some r → (g e).run w = some r)
    {acc : Option (String × Expr FL)} {w : World FL} {r}
    (h : (evalAcc f acc).run w = some r) : (evalAcc g acc).run w = some r := by
  cases acc with
  | none => exact h
  | some a => exact Comp.run_bind_mono (hfg a.2) h

theorem LastReturns.anti (hfg : ∀ e w r, (f e).run w = some r → (g e).run w = some r)
    {vs : List String} {e2 : Expr FL} {ls : List (Literal FL)} {acc : Option (Outcome FL)}
    {w : World FL} (h : LastReturns g vs e2 ls acc w) : LastReturns f vs e2 ls acc w := by
  induction ls generalizing acc w with
  | nil => trivial
  | cons l ls ih =>
      intro e r w' hbind hr
      obtain ⟨hlast, hrest⟩ := h e r w' hbind (hfg e w _ hr)
      exact ⟨hlast, ih hrest⟩

theorem run_stopIter {vs : List String} {e2 : Expr FL} {ls : List (Literal FL)}
    {acc : Option (Outcome FL)} {w : World FL} (h : LastReturns f vs e2 ls acc w) :
    (stopIter f vs e2 ls acc).run w = (evalIter f vs e2 ls acc).run w := by
  induction ls generalizing acc w with
  | nil => rfl
  | cons l ls ih =>
      show (Comp.ofExcept _ >>= fun e => f e >>= _).run w =
        (Comp.ofExcept _ >>= fun e => f e >>= _).run w
      cases hbind : bindIter "eval" vs (acc.map Outcome.toExpr) l e2 with
      | error err => rfl
      | ok e =>
          refine Comp.run_bind_congr (m := f e) (fun r w' hr => ?_)
          obtain ⟨hlast, hrest⟩ := h e r w' hbind hr
          dsimp only
          by_cases hret : r.isReturn = true
          · -- it was the last iteration
            rw [if_pos hret, hlast hret]
            rfl
          · rw [if_neg hret]
            exact Comp.run_bind_left _ (ih hrest)

theorem stopIter_limit {f : Nat → Expr FL → EvalM FL (Outcome FL)}
    {m : Expr FL → EvalM FL (Outcome FL)} (h : ∀ e, Comp.Limit (fun n => f n e) (m e))
    (vs : List String) (e2 : Expr FL) (lits : List (Literal FL)) (acc : Option (Outcome FL)) :
    Comp.Limit (fun n => stopIter (f n) vs e2 lits acc) (stopIter m vs e2 lits acc) := by
  induction lits generalizing acc with
  | nil => exact .const _
  | cons l ls ih =>
      refine (Comp.Limit.const _).bind (fun e => (h e).bind (fun r => ?_))
      split_ifs
      · exact .const _
      · exact (ih _).bind (fun p => .const _)

/-! ## What an invocation returns -/

/-- The literal or a return of it, not a return of a return. -/
def Outcome.IsFlat (o : Outcome FL) : Prop := ∃ l, o = .lit l ∨ o = .ret (.lit l)

theorem Outcome.IsFlat.literals {rs : List (Outcome FL)} {r : Outcome FL}
    (h : ∀ r ∈ rs, r.IsFlat) (hr : Outcome.literals rs = .error r) : r.IsFlat := by
  induction rs with
  | nil => cases hr
  | cons r' rs ih =>
      obtain ⟨hr', hrs⟩ := List.forall_mem_cons.mp h
      cases r' with
      | ret o =>
          cases hr
          exact hr'
      | lit l =>
          rw [Outcome.literals] at hr
          cases hl : Outcome.literals rs with
          | error r'' =>
              rw [hl] at hr
              cases hr
              exact ih hrs hl
          | ok ls =>
              rw [hl] at hr
              cases hr

theorem Outcome.IsFlat.lit (l : Literal FL) : (Outcome.lit l).IsFlat := ⟨l, Or.inl rfl⟩

theorem Outcome.IsFlat.stripReturn {o : Outcome FL} (h : o.IsFlat) : ∃ l, o.stripReturn = .lit l := by
  obtain ⟨l, rfl | rfl⟩ := h <;> exact ⟨l, rfl⟩

theorem yields_map_lit {m : EvalM FL (Literal FL)} : Comp.Yields Outcome.IsFlat (.lit <$> m) :=
  Comp.Yields.bind_any (fun l => .pure (.lit l))

theorem evalCall_yields (hf : ∀ e, Comp.Yields Outcome.IsFlat (f e)) (g : String) (isAsync : Bool)
    (args : List (Literal FL)) : Comp.Yields Outcome.IsFlat (evalCall env f g isAsync args) := by
  unfold evalCall
  cases env.get g with
  | some e =>
      refine Comp.Yields.bind_any (fun e => (hf e).bind (fun o ho => .pure ?_))
      obtain ⟨l, hl⟩ := ho.stripReturn
      exact ⟨l, Or.inl hl⟩
  | none =>
      dsimp only
      split
      · exact yields_map_lit
      · split
        · split_ifs
          · exact yields_map_lit
          · exact Comp.Yields.bind_any (fun _ => .pure (.lit _))
          · exact yields_map_lit
        · exact Comp.Yields.throw _

theorem evalAlternative_yields (hf : ∀ e, Comp.Yields Outcome.IsFlat (f e))
    (a : Option (Expr FL)) : Comp.Yields Outcome.IsFlat (evalAlternative f a) := by
  cases a with
  | none => exact .pure (.lit _)
  | some e => exact hf e

theorem finishIter_yields {op : Iter} {lits : List (Literal FL)} {rs : List (Outcome FL)}
    {acc : Option (Outcome FL)} (h : ∀ r ∈ rs, r.IsFlat) :
    Comp.Yields Outcome.IsFlat (finishIter op lits rs acc) := by
  unfold finishIter
  cases hr : Outcome.literals rs with
  | error r => exact .pure (Outcome.IsFlat.literals h hr)
  | ok ls =>
      dsimp only
      split_ifs
      · rcases acc with _ | l | o
        · exact .throw _
        · exact .pure (.lit l)
        · exact .throw _
      · exact yields_map_lit

theorem stopIter_yields (hf : ∀ e, Comp.Yields Outcome.IsFlat (f e)) (vs : List String)
    (e2 : Expr FL) (ls : List (Literal FL)) (acc : Option (Outcome FL)) :
    Comp.Yields (fun p => ∀ r ∈ p.1, r.IsFlat) (stopIter f vs e2 ls acc) := by
  induction ls generalizing acc with
  | nil => exact .pure (fun r hr => absurd hr List.not_mem_nil)
  | cons l ls ih =>
      refine Comp.Yields.bind_any (fun e => (hf e).bind (fun r hr => ?_))
      split_ifs
      · exact .pure (List.forall_mem_singleton.mpr hr)
      · exact (ih _).bind (fun p hp => .pure (List.forall_mem_cons.mpr ⟨hr, hp⟩))

end

/-! ## Evaluation that stops -/

section

variable {FT FL : Type} [TFlatTyp FT] [TFlatLiteral FT FL] [TInterpret FL]

/-- `evalStep` where nothing is evaluated after a part that returned, and a return that
returns is one return. -/
def stopStep (env : Env FL) : Comp.Functional (Error FL) (World FL) (Expr FL) (Outcome FL) :=
  fun ev e => match e with
  | .returnExpr e => do
      match ← ev e with
      | .ret o => pure (.ret o)
      | .lit l => pure (.ret (.lit l))
  | .infixExpr .and e1 e2 => evalStep env ev (.infixExpr .and e1 e2)
  | .infixExpr .or e1 e2 => evalStep env ev (.infixExpr .or e1 e2)
  | .infixExpr op e1 e2 => do
      match ← ev e1 with
      | .ret o => pure (.ret o)
      | .lit l => do infixOp env.platform op (.lit l) (← ev e2)
  | .blockExpr b [] => evalStep env ev (.blockExpr b [])
  | .blockExpr .block es => evalStep env ev (.blockExpr .block es)
  | .blockExpr b es => do
      let rs ← Comp.traverseUntil Outcome.isReturn ev es
      match Outcome.literals rs with
      | .error r => pure r
      | .ok ls => pure (.lit (if b = .list then .list ls else .tuple ls))
  | .iter op vs e1 e2 acc => do
      match ← ev e1 with
      | .ret o => pure (.ret o)
      | .lit (.list lits) => do
          match ← evalAcc ev acc with
          | some (.ret o) => pure (.ret o)
          | acc => do
              let (rs, acc) ← stopIter ev vs e2 lits acc
              finishIter op lits rs acc
      | .lit _ => Comp.throw (.text "eval, map-expression")
  | .ifMatchExpr vars subjects consequence alternative => do
      let rs ← Comp.traverseUntil (fun r => r.1.isReturn)
        (fun m => do matchSubject "eval" env.platform m.2 (← ev m.1)) subjects
      match Outcome.literals (rs.map Prod.fst) with
      | .error r => pure r
      | .ok _ => match allCaptures rs with
        | none => evalAlternative ev alternative
        | some caps => do ev (← Comp.ofExcept (bindCaptures "eval" caps vars consequence))
  | .callExpr f args isAsync => do
      let rs ← Comp.traverseUntil Outcome.isReturn ev args
      match Outcome.literals rs with
      | .error r => pure r
      | .ok ls => evalCall env ev f isAsync ls
  | e => evalStep env ev e

/-- Evaluation that ends at the first return. -/
noncomputable def evalStop (env : Env FL) : Expr FL → EvalM FL (Outcome FL) :=
  Comp.fix (stopStep env)

/-! ## Where the evaluator goes on -/

/-- Evaluation of the expression from the world does not go on after a return: of the parts
that are evaluated together only the last returns, and neither the operand of a return nor an
initial accumulator does. -/
def ReturnsLast (env : Env FL) (ev : Expr FL → EvalM FL (Outcome FL)) (e : Expr FL)
    (w : World FL) : Prop :=
  match e with
  | .returnExpr e => ∀ r w', (ev e).run w = some (.ok r, w') → r.isReturn = false
  | .infixExpr op e1 e2 =>
      op = .and ∨ op = .or ∨ Comp.LastStops Outcome.isReturn ev [e1, e2] w
  | .blockExpr b es => b = .block ∨ Comp.LastStops Outcome.isReturn ev es w
  | .iter _ vs e1 e2 acc => ∀ lits w₁, (ev e1).run w = some (.ok (.lit (.list lits)), w₁) →
      ∀ a w₂, (evalAcc ev acc).run w₁ = some (.ok a, w₂) →
        (∀ o ∈ a, o.isReturn = false) ∧ LastReturns ev vs e2 lits a w₂
  | .ifMatchExpr _ subjects _ _ => Comp.LastStops (fun r => r.1.isReturn)
      (fun m => do matchSubject "eval" env.platform m.2 (← ev m.1)) subjects w
  | .callExpr _ args _ => Comp.LastStops Outcome.isReturn ev args w
  | _ => True

/-! ## One step -/

variable {env : Env FL} {f g : Expr FL → EvalM FL (Outcome FL)}

omit [TInterpret FL] in
/-- The condition carries over to a less defined evaluator. -/
theorem ReturnsLast.anti (hfg : ∀ e w r, (f e).run w = some r → (g e).run w = some r)
    {e : Expr FL} {w : World FL} (h : ReturnsLast env g e w) : ReturnsLast env f e w := by
  cases e with
  | returnExpr e => exact fun r w' hr => h r w' (hfg e w _ hr)
  | infixExpr op e1 e2 => exact h.imp_right (Or.imp_right (Comp.LastStops.anti hfg))
  | blockExpr b es => exact h.imp_right (Comp.LastStops.anti hfg)
  | iter op vs e1 e2 acc =>
      intro lits w₁ h1 a w₂ ha
      obtain ⟨hacc, hiter⟩ := h lits w₁ (hfg e1 w _ h1) a w₂ (evalAcc_mono hfg ha)
      exact ⟨hacc, hiter.anti hfg⟩
  | ifMatchExpr vs ms t a =>
      exact Comp.LastStops.anti (fun m _ _ hm => Comp.run_bind_mono (hfg m.1) hm) h
  | callExpr g args b => exact Comp.LastStops.anti hfg h
  | _ => trivial

/-- Where nothing is evaluated after a return, a step of the evaluator is one that stops. -/
theorem run_stopStep {e : Expr FL} {w : World FL} (h : ReturnsLast env f e w) :
    (stopStep env f e).run w = (evalStep env f e).run w := by
  cases e with
  | returnExpr e =>
      refine Comp.run_bind_congr (m := f e) (fun r w' hr => ?_)
      cases r with
      | lit l => rfl
      | ret o => cases h _ w' hr
  | infixExpr op e1 e2 =>
      by_cases hand : op = .and
      · rw [hand]
        rfl
      by_cases hor : op = .or
      · rw [hor]
        rfl
      have h := (h.resolve_left hand).resolve_left hor
      have hstop : stopStep env f (.infixExpr op e1 e2) = (do
          match ← f e1 with
          | .ret o => pure (.ret o)
          | .lit l => do infixOp env.platform op (.lit l) (← f e2)) := by
        cases op with
        | and => exact absurd rfl hand
        | or => exact absurd rfl hor
        | _ => rfl
      have heval : evalStep env f (.infixExpr op e1 e2) =
          (do infixOp env.platform op (← f e1) (← f e2)) := by
        cases op with
        | and => exact absurd rfl hand
        | or => exact absurd rfl hor
        | _ => rfl
      rw [hstop, heval]
      refine Comp.run_bind_congr (fun r w' hr => ?_)
      cases r with
      | lit l => rfl
      | ret o => cases (h _ w' hr).1 rfl
  | blockExpr b es =>
      cases es with
      | nil => cases b <;> rfl
      | cons e es =>
          cases b with
          | block => rfl
          | list | tuple =>
              exact Comp.run_bind_left _ (Comp.run_traverseUntil (h.resolve_left nofun))
  | iter op vs e1 e2 acc =>
      refine Comp.run_bind_congr (m := f e1) (fun r w₁ h1 => ?_)
      cases r with
      | ret o => rfl
      | lit l =>
          cases l with
          | flat l => rfl
          | tuple ls => rfl
          | list ls =>
              refine Comp.run_bind_congr (m := evalAcc f acc) (fun a w₂ ha => ?_)
              obtain ⟨hacc, hiter⟩ := h ls w₁ h1 a w₂ ha
              rcases a with _ | l | o
              · exact Comp.run_bind_left _ (run_stopIter hiter)
              · exact Comp.run_bind_left _ (run_stopIter hiter)
              · cases hacc _ rfl
  | ifMatchExpr vs ms t a => exact Comp.run_bind_left _ (Comp.run_traverseUntil h)
  | callExpr g args b => exact Comp.run_bind_left _ (Comp.run_traverseUntil h)
  | _ => rfl

/-! ## Runs -/

theorem stopStep_continuous (env : Env FL) : Comp.Continuous (stopStep env) := by
  intro f m h e
  cases e with
  | returnExpr e =>
      refine (h e).bind (fun r => ?_)
      cases r <;> exact .const _
  | infixExpr op e1 e2 =>
      cases op with
      | and => exact evalStep_continuous env h (.infixExpr .and e1 e2)
      | or => exact evalStep_continuous env h (.infixExpr .or e1 e2)
      | _ =>
          refine (h e1).bind (fun r => ?_)
          cases r with
          | ret o => exact .const _
          | lit l => exact (h e2).bind (fun r => .const _)
  | blockExpr b es =>
      cases es with
      | nil =>
          have hlim := evalStep_continuous env h (.blockExpr b [])
          cases b <;> exact hlim
      | cons e es =>
          cases b with
          | block => exact evalStep_continuous env h (.blockExpr .block (e :: es))
          | list | tuple =>
              exact (Comp.Limit.traverseUntil _ (fun a _ => h a)).bind (fun rs => .const _)
  | iter op vs e1 e2 acc =>
      refine (h e1).bind (fun r => ?_)
      cases r with
      | ret o => exact .const _
      | lit l =>
          cases l with
          | flat l => exact .const _
          | tuple ls => exact .const _
          | list ls =>
              refine (evalAcc_limit h acc).bind (fun a => ?_)
              rcases a with _ | l | o
              · exact (stopIter_limit h vs e2 ls _).bind (fun p => .const _)
              · exact (stopIter_limit h vs e2 ls _).bind (fun p => .const _)
              · exact .const _
  | ifMatchExpr vs ms t a =>
      refine Comp.Limit.bind (Comp.Limit.traverseUntil _
        (fun p _ => (h p.1).bind (fun r => .const _))) (fun rs => ?_)
      cases Outcome.literals (rs.map Prod.fst) with
      | error r => exact .const _
      | ok ls =>
          dsimp only
          cases allCaptures rs with
          | none => exact evalAlternative_limit h a
          | some caps => exact (Comp.Limit.const _).bind (fun e => h e)
  | callExpr g args isAsync =>
      refine (Comp.Limit.traverseUntil _ (fun a _ => h a)).bind (fun rs => ?_)
      cases Outcome.literals rs with
      | error r => exact .const _
      | ok ls => exact evalCall_limit env h g isAsync ls
  | var x => exact evalStep_continuous env h (.var x)
  | bvar x i => exact evalStep_continuous env h (.bvar x i)
  | litExpr l => exact evalStep_continuous env h (.litExpr l)
  | closure x e => exact evalStep_continuous env h (.closure x e)
  | prefixExpr p e => exact evalStep_continuous env h (.prefixExpr p e)
  | letExpr vs e1 e2 => exact evalStep_continuous env h (.letExpr vs e1 e2)
  | ifExpr c t a => exact evalStep_continuous env h (.ifExpr c t a)
  | ifSomeMatchExpr e t a => exact evalStep_continuous env h (.ifSomeMatchExpr e t a)

/-- The runs that never go on after a return. -/
noncomputable def evalLast (env : Env FL) : Expr FL → EvalM FL (Outcome FL) :=
  Comp.fix (Comp.guarded (ReturnsLast env (eval env)) (evalStep env))

theorem evalLast_run {e : Expr FL} {w : World FL} {r : Except (Error FL) (Outcome FL) × World FL}
    (h : (evalLast env e).run w = some r) :
    (eval env e).run w = some r ∧ (evalStop env e).run w = some r := by
  refine Comp.guarded_fix (evalStep_continuous env) (stopStep_continuous env) ?_ h
  intro f hf e w r hlast hrun
  rw [run_stopStep (hlast.anti hf)]
  exact hrun

omit [TInterpret FL] in
theorem shortCircuit_yields (hf : ∀ e, Comp.Yields Outcome.IsFlat (f e)) (decided : Bool)
    (e1 e2 : Expr FL) :
    Comp.Yields Outcome.IsFlat (f e1 >>= shortCircuit decided (f e2)) := by
  refine (hf e1).bind (fun r hr => ?_)
  cases r with
  | ret o => exact .pure hr
  | lit l =>
      simp only [shortCircuit]
      cases l.getBool? with
      | none => exact .throw _
      | some b =>
          dsimp only
          split_ifs
          · exact .pure (.lit l)
          · refine (hf e2).bind (fun r hr => ?_)
            cases r with
            | ret o => exact .pure hr
            | lit l =>
                simp only [boolOperand]
                split_ifs
                · exact .pure (.lit l)
                · exact .throw _

omit [TInterpret FL] in
theorem matchSubject_yields {who : String} {pf : Platform} {p : Pattern} {r : Outcome FL}
    (hr : r.IsFlat) :
    Comp.Yields (fun q => Outcome.IsFlat q.1) (matchSubject who pf p r) := by
  cases r with
  | ret o => exact .pure hr
  | lit l =>
      simp only [matchSubject]
      rcases l.performMatch pf p with msg | _ | caps
      · exact .throw _
      · exact .throw _
      · exact .pure (.lit l)

theorem stopStep_yields (hf : ∀ e, Comp.Yields Outcome.IsFlat (f e)) (e : Expr FL) :
    Comp.Yields Outcome.IsFlat (stopStep env f e) := by
  have bound : ∀ x : Except (Error FL) (Expr FL),
      Comp.Yields Outcome.IsFlat (Comp.ofExcept x >>= f) := fun x => .bind_any hf
  cases e with
  | var x => exact .throw _
  | bvar x i => exact .throw _
  | litExpr l => exact .pure (.lit l)
  | closure x e => exact .throw _
  | returnExpr e =>
      refine (hf e).bind (fun r hr => ?_)
      cases r with
      | ret o => exact .pure hr
      | lit l => exact .pure ⟨l, Or.inr rfl⟩
  | prefixExpr p e =>
      refine (hf e).bind (fun r hr => ?_)
      cases r with
      | ret o => exact .pure hr
      | lit l => exact yields_map_lit
  | infixExpr op e1 e2 =>
      cases op with
      | and => exact shortCircuit_yields hf _ e1 e2
      | or => exact shortCircuit_yields hf _ e1 e2
      | _ =>
          refine (hf e1).bind (fun r hr => ?_)
          cases r with
          | ret o => exact .pure hr
          | lit l =>
              refine (hf e2).bind (fun r hr => ?_)
              cases r with
              | ret o => exact .pure hr
              | lit l => exact yields_map_lit
  | blockExpr b es =>
      cases es with
      | nil => cases b <;> exact .pure (.lit _)
      | cons e es =>
          cases b with
          | block =>
              refine (hf e).bind (fun r hr => ?_)
              split_ifs
              · exact .pure hr
              · exact hf _
          | list | tuple =>
              refine (Comp.Yields.traverseUntil (fun a _ => hf a)).bind (fun rs hrs => ?_)
              cases hl : Outcome.literals rs with
              | error r => exact .pure (Outcome.IsFlat.literals hrs hl)
              | ok ls => exact .pure (.lit _)
  | letExpr vs e1 e2 =>
      refine (hf e1).bind (fun r hr => ?_)
      cases r with
      | ret o => exact .pure hr
      | lit l => exact bound _
  | iter op vs e1 e2 acc =>
      refine (hf e1).bind (fun r hr => ?_)
      cases r with
      | ret o => exact .pure hr
      | lit l =>
          cases l with
          | flat l => exact .throw _
          | tuple ls => exact .throw _
          | list ls =>
              have hacc : Comp.Yields (fun a => ∀ o ∈ a, o.IsFlat) (evalAcc f acc) := by
                cases acc with
                | none => exact .pure nofun
                | some x =>
                    refine (hf x.2).bind (fun o ho => .pure ?_)
                    rintro _ ⟨⟩
                    exact ho
              have loop : ∀ a, Comp.Yields Outcome.IsFlat (do
                  let (rs, acc) ← stopIter f vs e2 ls a
                  finishIter op ls rs acc) :=
                fun a => (stopIter_yields hf vs e2 ls a).bind (fun p hp => finishIter_yields hp)
              refine hacc.bind (fun a ha => ?_)
              rcases a with _ | l | o
              · exact loop none
              · exact loop (some (.lit l))
              · exact .pure (ha _ rfl)
  | ifExpr c t a =>
      refine (hf c).bind (fun r hr => ?_)
      cases r with
      | ret o => exact .pure hr
      | lit l =>
          dsimp only
          split
          · exact hf t
          · exact evalAlternative_yields hf a
          · exact .throw _
  | ifSomeMatchExpr e t a =>
      refine (hf e).bind (fun r hr => ?_)
      split
      · exact .pure hr
      · exact bound _
      · exact evalAlternative_yields hf a
      · exact .throw _
  | ifMatchExpr vs ms t a =>
      have hsubject : ∀ m ∈ ms, Comp.Yields (fun r => Outcome.IsFlat r.1)
          (f m.1 >>= matchSubject "eval" env.platform m.2) :=
        fun m _ => (hf m.1).bind (fun r hr => matchSubject_yields hr)
      refine (Comp.Yields.traverseUntil hsubject).bind (fun rs hrs => ?_)
      cases hl : Outcome.literals (rs.map Prod.fst) with
      | error r =>
          refine .pure (Outcome.IsFlat.literals (fun r hr => ?_) hl)
          obtain ⟨p, hp, rfl⟩ := List.mem_map.mp hr
          exact hrs p hp
      | ok ls =>
          dsimp only
          split
          · exact evalAlternative_yields hf a
          · exact bound _
  | callExpr g args b =>
      refine (Comp.Yields.traverseUntil (fun a _ => hf a)).bind (fun rs hrs => ?_)
      cases hl : Outcome.literals rs with
      | error r => exact .pure (Outcome.IsFlat.literals hrs hl)
      | ok ls => exact evalCall_yields hf g b ls

/-- A run that never goes on after a return is the run of the evaluation that stops there, and
an invocation that it ends answers with a literal. -/
theorem eval_stops {e : Expr FL} {w : World FL} {r : Except (Error FL) (Outcome FL) × World FL}
    (h : (evalLast env e).run w = some r) :
    (eval env e).run w = some r ∧ (evalStop env e).run w = some r ∧
      ∀ o, r.1 = .ok o → ∃ l, o.stripReturn = .lit l := by
  obtain ⟨heval, hstop⟩ := evalLast_run h
  refine ⟨heval, hstop, fun o ho => ?_⟩
  have hflat := Comp.Yields.fix (fun _ hf e => (stopStep_yields hf e :
    Comp.Yields Outcome.IsFlat (stopStep env _ e))) e o
  obtain ⟨r, w'⟩ := r
  cases ho
  exact (hflat ⟨w, w', hstop⟩).stripReturn

end

/-! ## Examples of both -/

/-- The empty program without a network. -/
def offlineEnv : Env DPFlatLiteral :=
  Env.new ⟨fun _ _ _ => .error "", .offline, evalBuiltin .offline⟩ (Program.empty : DPProgram)

/-- `if true { return 1 } else { 2 }` -/
def returning : Expr DPFlatLiteral :=
  .ifExpr (.litExpr (.bool true)) (.returnExpr (.litExpr (.int 1))) (some (.litExpr (.int 2)))

/-- What it evaluates to. -/
def returned : Except (Error DPFlatLiteral) (Outcome DPFlatLiteral) := .ok (.ret (.lit (.int 1)))

/-- Nothing after a statement that returns is evaluated. -/
theorem block_stops :
    (eval offlineEnv (.blockExpr .block [returning, .callExpr "Egress::wipe" [] false])).run
        default = some (returned, default) ∧
      (evalStop offlineEnv (.blockExpr .block [returning, .callExpr "Egress::wipe" [] false])).run
        default = some (returned, default) ∧
      ∀ o, returned = .ok o → ∃ l, o.stripReturn = .lit l := by
  refine eval_stops ?_
  have guard := @Comp.fix_guarded_run _ _ _ _ _ (ReturnsLast offlineEnv (eval offlineEnv))
    (evalStep_continuous offlineEnv)
  have hlit : ∀ l w, (evalLast offlineEnv (.litExpr l)).run w = some (.ok (.lit l), w) :=
    fun l w => guard.mpr ⟨trivial, rfl⟩
  have hreturn : (evalLast offlineEnv (.returnExpr (.litExpr (.int 1)))).run default =
      some (returned, default) := by
    refine guard.mpr ⟨fun r w' hr => ?_, Comp.run_bind_ok (hlit _ _)⟩
    rw [eval_eq] at hr
    cases hr
    rfl
  have hif : (evalLast offlineEnv returning).run default = some (returned, default) :=
    guard.mpr ⟨trivial, (Comp.run_bind_ok (hlit _ _)).trans hreturn⟩
  exact guard.mpr ⟨Or.inl rfl, Comp.run_bind_ok hif⟩

/-- After the first element of the list returned the second one still wipes the metadata, and a
return in a return ends two invocations. -/
theorem not_eval_stops :
    (∃ w w', (eval offlineEnv (.blockExpr .list
          [returning, .callExpr "Egress::wipe" [] false])).run default =
        some (returned, w) ∧ w.trace = [⟨"Egress", "wipe", [], false⟩] ∧
      (evalStop offlineEnv (.blockExpr .list
          [returning, .callExpr "Egress::wipe" [] false])).run default =
        some (returned, w') ∧ w'.trace = []) ∧
    (eval offlineEnv (.returnExpr returning)).run default =
      some (.ok (.ret (.ret (.lit (.int 1)))), default) := by
  have stop := Comp.Continuous.iterate_limit (stopStep_continuous offlineEnv)
  refine ⟨⟨_, _, eval_of_evalN (n := 4) rfl, ?_, (stop _).sound (n := 4) rfl, rfl⟩, ?_⟩
  · rfl
  · exact eval_of_evalN (n := 4) rfl

end Armour.Lang
