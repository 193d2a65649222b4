import Armour.Lang.Closing

/-! # Evaluation by parts

The value of an expression is a function of the values of its parts.  What a form binds
is a list of arguments (`Args`) that its body is applied to, and `runApp` runs a body on
arguments; with it each form has an equation (`run_letExpr` and so on) whose right side
mentions the parts through `run` and `runApp` only.
-/

namespace Armour.Lang

open Armour.Lib

section

variable {FL : Type}

/-- Arguments for nested closures, and an error that follows them. -/
structure Args (FL : Type) where
  outcomes : List (Outcome FL)
  err : Option (Error FL)

namespace Args

def ofLits (ls : List (Literal FL)) : Args FL := ⟨ls.map .lit, none⟩
def fail (e : Error FL) : Args FL := ⟨[], some e⟩

/-- An argument in front of the others. -/
def cons (o : Outcome FL) (a : Args FL) : Args FL := ⟨o :: a.outcomes, a.err⟩

/-- Apply an expression to the arguments. -/
def apply (a : Args FL) (e : Expr FL) : Except (Error FL) (Expr FL) := do
  let e ← applyAll e (a.outcomes.map Outcome.toExpr)
  match a.err with
  | none => .ok e
  | some err => .error err

end Args

/-- What a `let` binds. -/
def letArgs (who : String) (vs : List String) : Literal FL → Args FL
  | .tuple ls =>
      if 1 < ls.length ∧ vs.length = ls.length then .ofLits (boundComponents vs ls)
      else if vs.length = 1 then .ofLits [.tuple ls]
      else .fail (.text (who ++ ", let-expression (tuple length mismatch)"))
  | l =>
      if vs.length = 1 then .ofLits [l]
      else .fail (.text (who ++ ", let-expression (literal not a tuple)"))

/-- What an iterator binds of an element. -/
def elementArgs (who : String) (vs : List String) (l : Literal FL) : Args FL :=
  match l, vs with
  | l, [v] => if v = "_" then .ofLits [] else .ofLits [l]
  | .tuple ls, vs =>
      if vs.length = ls.length then .ofLits (boundComponents vs ls)
      else .fail (.text (who ++ ", iter-expression (tuple length mismatch)"))
  | _, _ => .fail (.text (who ++ ", iter-expression (not a tuple list)"))

/-- What one iteration binds. -/
def iterArgs (who : String) (vs : List String) (acc : Option (Outcome FL)) (l : Literal FL) :
    Args FL :=
  match acc with
  | some o => (elementArgs who vs l).cons o
  | none => elementArgs who vs l

/-- What an `if match` binds. -/
def captureArgs (who : String) (caps : BTreeMap String (Literal FL)) : List String → Args FL
  | [] => .ofLits []
  | v :: vs =>
      match caps.get? v with
      | some l => (captureArgs who caps vs).cons (.lit l)
      | none => .fail (.text (who ++ ", if-match-expression: missing bind"))

theorem Args.apply_ofLits (ls : List (Literal FL)) (e : Expr FL) :
    (Args.ofLits ls).apply e = applyAll e (ls.map .litExpr) := by
  simp only [apply, ofLits, List.map_map, Function.comp_def, Outcome.toExpr]
  cases applyAll e (ls.map .litExpr) <;> rfl

theorem Args.apply_cons (o : Outcome FL) (a : Args FL) (e : Expr FL) :
    (a.cons o).apply e = (applyTo e o.toExpr).bind a.apply := by
  simp only [apply, cons, List.map_cons, applyAll]
  cases applyTo e o.toExpr <;> rfl

theorem bindLet_eq (who : String) (vs : List String) (l : Literal FL) (e : Expr FL) :
    bindLet who vs l e = (letArgs who vs l).apply e := by
  have hone : ∀ l : Literal FL, applyTo e (.litExpr l) = (Args.ofLits [l]).apply e := by
    intro l
    rw [Args.apply_ofLits, List.map_cons, applyAll]
    cases applyTo e (.litExpr l) <;> rfl
  unfold bindLet letArgs
  cases l with
  | tuple ls =>
      dsimp only
      split_ifs
      · rw [Args.apply_ofLits]
      · exact hone _
      · rfl
  | flat l =>
      dsimp only
      split_ifs
      · exact hone _
      · rfl
  | list ls =>
      dsimp only
      split_ifs
      · exact hone _
      · rfl

theorem bindElement_eq (who : String) (vs : List String) (l : Literal FL) (e : Expr FL) :
    bindElement who vs l e = (elementArgs who vs l).apply e := by
  have hone : ∀ l : Literal FL, applyTo e (.litExpr l) = (Args.ofLits [l]).apply e := by
    intro l
    rw [Args.apply_ofLits, List.map_cons, applyAll]
    cases applyTo e (.litExpr l) <;> rfl
  have htuple : ∀ ls : List (Literal FL),
      (if vs.length = ls.length then applyAll e ((boundComponents vs ls).map .litExpr)
        else .error (.text (who ++ ", iter-expression (tuple length mismatch)"))) =
      (if vs.length = ls.length then Args.ofLits (boundComponents vs ls)
        else .fail (.text (who ++ ", iter-expression (tuple length mismatch)"))).apply e := by
    intro ls
    split_ifs
    · rw [Args.apply_ofLits]
    · rfl
  rcases vs with _ | ⟨v, _ | ⟨v', vs⟩⟩
  · cases l with
    | tuple ls => exact htuple ls
    | _ => rfl
  · have hb : bindElement who [v] l e =
          if v = "_" then .ok e else applyTo e (.litExpr l) := by cases l <;> rfl
    have ha : elementArgs who [v] l = if v = "_" then .ofLits [] else .ofLits [l] := by
        cases l <;> rfl
    rw [hb, ha]
    split_ifs
    · rfl
    · exact hone l
  · cases l with
    | tuple ls => exact htuple ls
    | _ => rfl

theorem bindIter_eq (who : String) (vs : List String) (acc : Option (Outcome FL))
    (l : Literal FL) (e : Expr FL) :
    bindIter who vs (acc.map Outcome.toExpr) l e = (iterArgs who vs acc l).apply e := by
  cases acc with
  | none => exact bindElement_eq who vs l e
  | some o =>
      rw [iterArgs, Args.apply_cons]
      simp only [bindIter, Option.map_some]
      cases applyTo e o.toExpr with
      | error err => rfl
      | ok e' => exact bindElement_eq who vs l e'

theorem bindCaptures_eq (who : String) (caps : BTreeMap String (Literal FL)) (vs : List String)
    (e : Expr FL) : bindCaptures who caps vs e = (captureArgs who caps vs).apply e := by
  induction vs generalizing e with
  | nil => rfl
  | cons v vs ih =>
      simp only [bindCaptures, captureArgs]
      cases caps.get? v with
      | none => rfl
      | some l =>
          rw [Args.apply_cons]
          simp only [Outcome.toExpr]
          cases applyTo e (.litExpr l) with
          | error err => rfl
          | ok e' => exact ih e'

end

/-! ## The forms -/

section

variable {FT FL : Type} [TFlatTyp FT] [TFlatLiteral FT FL]

/-- A block of statements: a return ends it. -/
def seqSem : List (EvalM FL (Outcome FL)) → EvalM FL (Outcome FL)
  | [] => pure (.lit .unit)
  | [m] => m
  | m :: m' :: ms => do
      let r ← m
      if r.isReturn then pure r else seqSem (m' :: ms)

/-- What follows the evaluation of elements or arguments: the first return wins. -/
def onLiterals (rs : List (Outcome FL)) (k : List (Literal FL) → EvalM FL (Outcome FL)) :
    EvalM FL (Outcome FL) :=
  match Outcome.literals rs with
  | .error r => pure r
  | .ok ls => k ls

/-- What follows the evaluation of an operand: a return passes through. -/
def onLiteral (r : Outcome FL) (k : Literal FL → EvalM FL (Outcome FL)) :
    EvalM FL (Outcome FL) :=
  match r with
  | .ret o => pure (.ret o)
  | .lit l => k l

def optionSem : Option (EvalM FL (Outcome FL)) → EvalM FL (Outcome FL)
  | some m => m
  | none => pure (.lit .unit)

/-- The initial accumulator. -/
def accSem : Option (EvalM FL (Outcome FL)) → EvalM FL (Option (Outcome FL))
  | some m => some <$> m
  | none => pure none

/-- The iterations of an iterator, with `body` run on the arguments of each. -/
def loopSem (vs : List String) (body : Args FL → EvalM FL (Outcome FL)) :
    List (Literal FL) → Option (Outcome FL) →
      EvalM FL (List (Outcome FL) × Option (Outcome FL))
  | [], acc => pure ([], acc)
  | l :: ls, acc => do
      let r ← body (iterArgs "eval" vs acc l)
      let (rs, acc) ← loopSem vs body ls (acc.map (fun _ => r))
      pure (r :: rs, acc)

/-- An iterator over an evaluated list. -/
def iterSem (op : Iter) (vs : List String) (body : Args FL → EvalM FL (Outcome FL))
    (acc : Option (EvalM FL (Outcome FL))) : Literal FL → EvalM FL (Outcome FL)
  | .list lits => do
      let acc ← accSem acc
      let (rs, acc) ← loopSem vs body lits acc
      finishIter op lits rs acc
  | _ => Comp.throw (.text "eval, map-expression")

def ifSem (consequence : EvalM FL (Outcome FL)) (alternative : Option (EvalM FL (Outcome FL)))
    (l : Literal FL) : EvalM FL (Outcome FL) :=
  match l.getBool? with
  | some true => consequence
  | some false => optionSem alternative
  | none => Comp.throw (.text "eval, if-expression")

def ifSomeSem (body : Args FL → EvalM FL (Outcome FL))
    (alternative : Option (EvalM FL (Outcome FL))) : Literal FL → EvalM FL (Outcome FL)
  | .tuple [l] => body (.ofLits [l])
  | .tuple _ => optionSem alternative
  | l => Comp.throw (.ifLet l)

/-- An `if match` on its evaluated subjects. -/
def ifMatchSem (vars : List String) (body : Args FL → EvalM FL (Outcome FL))
    (alternative : Option (EvalM FL (Outcome FL)))
    (rs : List (Outcome FL × Option (List (String × Literal FL)))) :
    EvalM FL (Outcome FL) :=
  onLiterals (rs.map Prod.fst) (fun _ =>
    match allCaptures rs with
    | none => optionSem alternative
    | some caps => body (captureArgs "eval" caps vars))

variable [TInterpret FL]

/-- An infix operator other than `&&` and `||` on the values of its operands. -/
def infixSem (pf : Platform) (op : Infix) (m1 m2 : EvalM FL (Outcome FL)) :
    EvalM FL (Outcome FL) :=
  match op with
  | .and => do shortCircuit false m2 (← m1)
  | .or => do shortCircuit true m2 (← m1)
  | op => do infixOp pf op (← m1) (← m2)

/-- Run a body on arguments. -/
noncomputable def runApp (env : Env FL) (ρ : List (Outcome FL)) (e : Expr FL) (a : Args FL) :
    EvalM FL (Outcome FL) := do
  run env ρ (← Comp.ofExcept (a.apply e))

section

variable (env : Env FL) (ρ : List (Outcome FL))

omit [TFlatTyp FT] [TFlatLiteral FT FL] [TInterpret FL] in
theorem throw_of_apply_fail (a : Args FL) (e : Expr FL) (h : a.err ≠ none) :
    ∃ err, a.apply e = .error err := by
  obtain ⟨os, err⟩ := a
  cases err with
  | none => exact absurd rfl h
  | some err =>
      unfold Args.apply
      cases applyAll e (os.map Outcome.toExpr) with
      | error err' => exact ⟨err', rfl⟩
      | ok e' => exact ⟨err, rfl⟩

@[simp] theorem runApp_nil (e : Expr FL) : runApp env ρ e ⟨[], none⟩ = run env ρ e := rfl

/-- Applying a closure is extending the assignment. -/
theorem runApp_closure (x : String) (e : Expr FL) (o : Outcome FL) (a : Args FL) :
    runApp env ρ (.closure x e) (a.cons o) = runApp env (o :: ρ) e a := by
  have hall : ∀ os : List (Outcome FL), ∀ e : Expr FL,
      (applyAll (e.subst 0 o.toExpr true) (os.map Outcome.toExpr)).map (fun e => e.inst ρ 0) =
        (applyAll e (os.map Outcome.toExpr)).map (fun e => e.inst (o :: ρ) 0) := by
    intro os e
    rw [← applyAll_inst, ← applyAll_inst, Expr.inst_subst]
  have hclosure : applyTo (.closure x e) o.toExpr = .ok (e.subst 0 o.toExpr true) := rfl
  have h := hall a.outcomes e
  unfold runApp run
  rw [Args.apply_cons, hclosure]
  show (Comp.ofExcept (a.apply (e.subst 0 o.toExpr true)) >>= _) = _
  unfold Args.apply
  cases hl : applyAll (e.subst 0 o.toExpr true) (a.outcomes.map Outcome.toExpr) with
  | error err =>
      cases hr : applyAll e (a.outcomes.map Outcome.toExpr) with
      | error err' =>
          rw [hl, hr] at h
          cases h
          rfl
      | ok e' => rw [hl, hr] at h; cases h
  | ok e₁ =>
      cases hr : applyAll e (a.outcomes.map Outcome.toExpr) with
      | error err' => rw [hl, hr] at h; cases h
      | ok e₂ =>
          rw [hl, hr] at h
          cases a.err with
          | some err => rfl
          | none =>
              have heq : e₁.inst ρ 0 = e₂.inst (o :: ρ) 0 := Except.ok.inj h
              exact congrArg (eval env) heq

/-- Applying what is not a closure fails. -/
theorem runApp_of_not_closure {e : Expr FL} (h : ∀ x e', e ≠ .closure x e') (o : Outcome FL)
    (a : Args FL) : runApp env ρ e (a.cons o) =
      Comp.throw (.text "apply: expression is not a closure") := by
  have hnone : applyTo e o.toExpr =
      .error (.text "apply: expression is not a closure") := by
    cases e with
    | closure x e' => exact absurd rfl (h x e')
    | _ => rfl
  unfold runApp
  rw [Args.apply_cons, hnone]
  rfl

end

variable {env : Env FL} (ρ : List (Outcome FL))

theorem run_var (x : String) : run env ρ (.var x) = Comp.throw (.text "eval variable") :=
  run_eq ρ _ (by simp) (by simp)

theorem run_litExpr (l : Literal FL) : run env ρ (.litExpr l) = pure (.lit l) :=
  run_toExpr env ρ (.lit l)

theorem run_closure (x : String) (e : Expr FL) :
    run env ρ (.closure x e) = Comp.throw (.text "eval, closure") :=
  run_eq ρ _ (by simp) (by simp)

theorem run_returnExpr (e : Expr FL) :
    run env ρ (.returnExpr e) = .ret <$> run env ρ e :=
  run_eq ρ _ (by simp) (by simp)

theorem run_prefixExpr (p : Prefix) (e : Expr FL) :
    run env ρ (.prefixExpr p e) = (do prefixOp env.platform p (← run env ρ e)) :=
  run_eq ρ _ (by simp) (by simp)

theorem run_infixExpr (op : Infix) (e1 e2 : Expr FL) :
    run env ρ (.infixExpr op e1 e2) =
      infixSem env.platform op (run env ρ e1) (run env ρ e2) := by
  rw [run_eq ρ _ (by simp) (by simp)]
  cases op <;> rfl

theorem run_block (es : List (Expr FL)) :
    run env ρ (.blockExpr .block es) = seqSem (es.map (run env ρ)) := by
  induction es with
  | nil => exact run_eq ρ _ (by simp) (by simp)
  | cons e es ih =>
      rw [run_eq ρ _ (by simp) (by simp)]
      show (do
        let res ← run env ρ e
        if res.isReturn || es.isEmpty then pure res else run env ρ (.blockExpr .block es)) = _
      rw [ih]
      cases es with
      | nil => simp [seqSem]
      | cons e' es => simp [seqSem]

theorem run_list (b : Block) (hb : b ≠ .block) (es : List (Expr FL)) (h : es ≠ [] ∨ b = .list) :
    run env ρ (.blockExpr b es) = (do
      let rs ← Comp.traverse (run env ρ) es
      onLiterals rs (fun ls => pure (.lit (if b = .list then .list ls else .tuple ls)))) := by
  rw [run_eq ρ _ (by simp) (by simp)]
  cases b with
  | block => exact absurd rfl hb
  | list => cases es <;> rfl
  | tuple =>
      cases es with
      | nil => simp at h
      | cons e es => rfl

/-- A list, tuple or block of expressions that run alike. -/
theorem run_blockExpr_congr {ρ ρ' : List (Outcome FL)} (b : Block) {f : Expr FL → Expr FL}
    {es : List (Expr FL)} (h : ∀ e ∈ es, run env ρ' (f e) = run env ρ e) :
    run env ρ' (.blockExpr b (es.map f)) = run env ρ (.blockExpr b es) := by
  have hmap : (es.map f).map (run env ρ') = es.map (run env ρ) := by
    rw [List.map_map]
    exact List.map_congr_left h
  have htraverse : Comp.traverse (run env ρ') (es.map f) = Comp.traverse (run env ρ) es := by
    rw [Comp.traverse_map]
    exact Comp.traverse_congr h
  cases b with
  | block => rw [run_block, run_block, hmap]
  | list =>
      rw [run_list _ _ (by simp) _ (Or.inr rfl), run_list _ _ (by simp) _ (Or.inr rfl),
        htraverse]
  | tuple =>
      cases es with
      | nil => rw [List.map_nil, run_eq _ _ (by simp) (by simp), run_eq _ _ (by simp) (by simp)]; rfl
      | cons e es =>
          rw [run_list _ _ (by simp) _ (by simp), run_list _ _ (by simp) _ (by simp),
            htraverse]

theorem run_letExpr (vs : List String) (e1 e2 : Expr FL) :
    run env ρ (.letExpr vs e1 e2) = (do
      onLiteral (← run env ρ e1) (fun l => runApp env ρ e2 (letArgs "eval" vs l))) := by
  rw [run_eq ρ _ (by simp) (by simp)]
  simp only [evalStep, bindLet_eq]
  rfl

theorem evalIter_eq (vs : List String) (e2 : Expr FL) (lits : List (Literal FL))
    (acc : Option (Outcome FL)) :
    evalIter (run env ρ) vs e2 lits acc = loopSem vs (runApp env ρ e2) lits acc := by
  induction lits generalizing acc with
  | nil => rfl
  | cons l ls ih => simp only [evalIter, loopSem, bindIter_eq, ih, runApp, bind_assoc]

theorem run_iter (op : Iter) (vs : List String) (e1 e2 : Expr FL)
    (acc : Option (String × Expr FL)) :
    run env ρ (.iter op vs e1 e2 acc) = (do
      onLiteral (← run env ρ e1)
        (iterSem op vs (runApp env ρ e2) (acc.map (fun a => run env ρ a.2)))) := by
  rw [run_eq ρ _ (by simp) (by simp)]
  simp only [evalStep, evalIter_eq]
  refine bind_congr (fun r => ?_)
  cases r with
  | ret o => rfl
  | lit l =>
      cases l with
      | flat l => rfl
      | tuple ls => rfl
      | list ls => cases acc <;> rfl

theorem run_ifExpr (c t : Expr FL) (a : Option (Expr FL)) :
    run env ρ (.ifExpr c t a) = (do
      onLiteral (← run env ρ c) (ifSem (run env ρ t) (a.map (run env ρ)))) := by
  rw [run_eq ρ _ (by simp) (by simp)]
  refine bind_congr (fun r => ?_)
  cases r with
  | ret o => rfl
  | lit l =>
      simp only [onLiteral, ifSem]
      cases l.getBool? with
      | none => rfl
      | some b => cases b <;> cases a <;> rfl

theorem run_ifSomeMatchExpr (e t : Expr FL) (a : Option (Expr FL)) :
    run env ρ (.ifSomeMatchExpr e t a) = (do
      onLiteral (← run env ρ e) (ifSomeSem (runApp env ρ t) (a.map (run env ρ)))) := by
  rw [run_eq ρ _ (by simp) (by simp)]
  refine bind_congr (fun r => ?_)
  match r with
  | .ret o => rfl
  | .lit (.flat l) => rfl
  | .lit (.list ls) => rfl
  | .lit (.tuple []) => cases a <;> rfl
  | .lit (.tuple (l₁ :: l₂ :: ls)) => cases a <;> rfl
  | .lit (.tuple [l]) =>
      show (Comp.ofExcept (applyTo t (.litExpr l)) >>= run env ρ) = _
      simp only [onLiteral, ifSomeSem, runApp, Args.apply_ofLits, List.map_cons, List.map_nil,
        applyAll]
      cases applyTo t (.litExpr l) <;> rfl

theorem run_ifMatchExpr (vs : List String) (ms : List (Expr FL × Pattern)) (t : Expr FL)
    (a : Option (Expr FL)) :
    run env ρ (.ifMatchExpr vs ms t a) = (do
      let rs ← Comp.traverse
        (fun m => do matchSubject "eval" env.platform m.2 (← run env ρ m.1)) ms
      ifMatchSem vs (runApp env ρ t) (a.map (run env ρ)) rs) := by
  rw [run_eq ρ _ (by simp) (by simp)]
  refine bind_congr (fun rs => ?_)
  unfold ifMatchSem onLiterals
  cases Outcome.literals (rs.map Prod.fst) with
  | error r => rfl
  | ok ls =>
      dsimp only
      cases allCaptures rs with
      | none => cases a <;> rfl
      | some caps =>
          dsimp only
          rw [bindCaptures_eq]
          rfl

theorem run_callExpr (f : String) (args : List (Expr FL)) (isAsync : Bool) :
    run env ρ (.callExpr f args isAsync) = (do
      let rs ← Comp.traverse (run env ρ) args
      onLiterals rs (evalCall env (eval env) f isAsync)) := by
  rw [run, eval_eq]
  simp only [Expr.inst_callExpr, evalStep, Comp.traverse_map]
  rfl

end

end Armour.Lang
