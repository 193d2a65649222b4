import Armour.Lang.Semantics

/-! # Evaluation under an assignment

The interpreter evaluates closed expressions by substitution.  `run env ρ e` evaluates an
open expression with its indices assigned by `ρ`; it satisfies the recursion of `eval`
on open expressions (`run_eq`), where binding a value is extending the assignment
(`run_subst`).
-/

namespace Armour.Lang

open Armour.Lib

variable {FT FL : Type} [TFlatTyp FT] [TFlatLiteral FT FL]

namespace Expr

/-- What `ρ` assigns to index `j` under `d` binders. -/
def instVar (ρ : List (Outcome FL)) (d : Nat) (x : String) (j : Nat) : Expr FL :=
  if j < d then bvar x j
  else match ρ[j - d]? with
    | some o => o.toExpr
    | none => bvar x (j - ρ.length)

/-- Assign `ρ` to the free indices of an expression under `d` binders. -/
def inst (e : Expr FL) (ρ : List (Outcome FL)) (d : Nat) : Expr FL :=
  mapVars (fun _ x => var x) (instVar ρ) d e

omit [TFlatTyp FT] [TFlatLiteral FT FL] in
/-- A traversal leaves the expression of an outcome alone. -/
@[simp] theorem mapVars_toExpr (fv : Nat → String → Expr FL) (fb : Nat → String → Nat → Expr FL)
    (d : Nat) (o : Outcome FL) : mapVars fv fb d o.toExpr = o.toExpr := by
  induction o with
  | lit l => rfl
  | ret o ih => simp [Outcome.toExpr, mapVars, ih]

@[simp] theorem shift_toExpr (o : Outcome FL) (i d : Nat) : o.toExpr.shift i d = o.toExpr := by
  unfold shift
  split_ifs <;> simp

@[simp] theorem inst_litExpr (ρ : List (Outcome FL)) (d : Nat) (l : Literal FL) :
    (litExpr l).inst ρ d = litExpr l := rfl

section

variable (ρ : List (Outcome FL)) (d : Nat)

@[simp] theorem inst_returnExpr (e : Expr FL) :
    (returnExpr e).inst ρ d = returnExpr (e.inst ρ d) := rfl

@[simp] theorem inst_prefixExpr (p : Prefix) (e : Expr FL) :
    (prefixExpr p e).inst ρ d = prefixExpr p (e.inst ρ d) := rfl

@[simp] theorem inst_infixExpr (op : Infix) (e1 e2 : Expr FL) :
    (infixExpr op e1 e2).inst ρ d = infixExpr op (e1.inst ρ d) (e2.inst ρ d) := rfl

@[simp] theorem inst_blockExpr (b : Block) (es : List (Expr FL)) :
    (blockExpr b es).inst ρ d = blockExpr b (es.map (fun e => e.inst ρ d)) :=
  mapVars_blockExpr ..

@[simp] theorem inst_letExpr (vs : List String) (e1 e2 : Expr FL) :
    (letExpr vs e1 e2).inst ρ d = letExpr vs (e1.inst ρ d) (e2.inst ρ d) := rfl

@[simp] theorem inst_iter (op : Iter) (vs : List String) (e1 e2 : Expr FL)
    (acc : Option (String × Expr FL)) :
    (iter op vs e1 e2 acc).inst ρ d =
      iter op vs (e1.inst ρ d) (e2.inst ρ d) (acc.map (fun a => (a.1, a.2.inst ρ d))) :=
  mapVars_iter ..

@[simp] theorem inst_ifExpr (c t : Expr FL) (a : Option (Expr FL)) :
    (ifExpr c t a).inst ρ d = ifExpr (c.inst ρ d) (t.inst ρ d) (a.map (fun e => e.inst ρ d)) :=
  mapVars_ifExpr ..

@[simp] theorem inst_ifMatchExpr (vs : List String) (ms : List (Expr FL × Pattern))
    (t : Expr FL) (a : Option (Expr FL)) :
    (ifMatchExpr vs ms t a).inst ρ d =
      ifMatchExpr vs (ms.map (fun m => (m.1.inst ρ d, m.2))) (t.inst ρ d)
        (a.map (fun e => e.inst ρ d)) :=
  mapVars_ifMatchExpr ..

@[simp] theorem inst_ifSomeMatchExpr (e t : Expr FL) (a : Option (Expr FL)) :
    (ifSomeMatchExpr e t a).inst ρ d =
      ifSomeMatchExpr (e.inst ρ d) (t.inst ρ d) (a.map (fun e => e.inst ρ d)) :=
  mapVars_ifSomeMatchExpr ..

@[simp] theorem inst_callExpr (f : String) (args : List (Expr FL)) (b : Bool) :
    (callExpr f args b).inst ρ d = callExpr f (args.map (fun e => e.inst ρ d)) b :=
  mapVars_callExpr ..

end

@[simp] theorem inst_closure (ρ : List (Outcome FL)) (d : Nat) (x : String) (e : Expr FL) :
    (closure x e).inst ρ d = closure x (e.inst ρ (d + 1)) := rfl

/-- Assigning `ρ` under one more binder and substituting an outcome for the bound index is
assigning the outcome together with `ρ`. -/
theorem subst_inst_succ (ρ : List (Outcome FL)) (o : Outcome FL) (d : Nat) (e : Expr FL) :
    (e.inst ρ (d + 1)).subst d o.toExpr true = e.inst (o :: ρ) d := by
  refine (mapVars_mapVars (fun _ x => var x) (fun _ x => var x) (instVar ρ)
    (substVar o.toExpr true) 0 1 e d).trans ?_
  refine congrArg (fun fb => mapVars (fun _ x => var x) fb d e) ?_
  funext k x j
  rcases Nat.lt_trichotomy j k with hj | hj | hj
  · have hj1 : j < k + 1 := by omega
    simp [instVar, substVar, mapVars, hj, hj1]
  · subst hj
    simp [instVar, substVar, mapVars]
  · have h0 : j - k = (j - (k + 1)) + 1 := by omega
    have h1 : ¬ j < k := by omega
    have h2 : ¬ j < k + 1 := by omega
    simp only [instVar, h1, h2, if_false, h0, List.getElem?_cons_succ]
    cases hρ : ρ[j - (k + 1)]? with
    | some o' => simp
    | none =>
        have hlen := List.getElem?_eq_none_iff.mp hρ
        have h3 : ¬ j - ρ.length < k := by omega
        have h4 : j - ρ.length ≠ k := by omega
        have h5 : j - ρ.length - 1 = j - (ρ.length + 1) := by omega
        simp [mapVars, substVar, h3, h4, h5]

/-- Substituting an outcome and then assigning `ρ` is the same assignment. -/
theorem inst_subst (ρ : List (Outcome FL)) (o : Outcome FL) (e : Expr FL) :
    (e.subst 0 o.toExpr true).inst ρ 0 = e.inst (o :: ρ) 0 := by
  refine (mapVars_mapVars (fun _ x => var x) (fun _ x => var x) (substVar o.toExpr true)
    (instVar ρ) 0 0 e 0).trans ?_
  refine congrArg (fun fb => mapVars (fun _ x => var x) fb 0 e) ?_
  funext k x j
  rcases Nat.lt_trichotomy j k with hj | hj | hj
  · simp [substVar, instVar, mapVars, hj]
  · subst hj
    simp [substVar, instVar]
  · have h0 : j - k = (j - 1 - k) + 1 := by omega
    have h1 : ¬ j < k := by omega
    have h2 : j ≠ k := by omega
    have h3 : ¬ j - 1 < k := by omega
    simp only [substVar, instVar, Nat.add_zero, h1, h2, h3, if_false, if_true, mapVars, h0,
      List.getElem?_cons_succ]
    cases hρ : ρ[j - 1 - k]? with
    | some o' => rfl
    | none =>
        have h4 : j - 1 - ρ.length = j - (ρ.length + 1) := by omega
        simp [h4]

theorem inst_of_wellScoped (ρ : List (Outcome FL)) {d : Nat} {e : Expr FL}
    (h : e.wellScoped d = true) : e.inst ρ d = e := by
  refine (mapVars_congr e d h (fun k x hk => rfl) (fun k x j hj => ?_)).trans (mapVars_id e d)
  have hj : j < k := by simpa using hj
  simp [instVar, hj]

theorem apply_inst (ρ : List (Outcome FL)) (o : Outcome FL) (e : Expr FL) :
    (e.inst ρ 0).apply o.toExpr = (e.apply o.toExpr).map (fun e => e.inst ρ 0) := by
  cases e with
  | closure x e => simp only [inst_closure, apply, subst_inst_succ, Option.map_some, inst_subst]
  | bvar x j =>
      simp only [inst, mapVars, instVar, Nat.not_lt_zero, if_false, Nat.sub_zero]
      cases ρ[j]? with
      | none => rfl
      | some o' => cases o' <;> rfl
  | iter op vs e1 e2 acc => cases acc <;> rfl
  | ifExpr c t a => cases a <;> rfl
  | ifMatchExpr vs ms t a => cases a <;> rfl
  | ifSomeMatchExpr c t a => cases a <;> rfl
  | _ => rfl

end Expr

/-! ## Binding commutes with the assignment -/

section

variable (ρ : List (Outcome FL))

theorem applyTo_inst (o : Outcome FL) (e : Expr FL) :
    applyTo (e.inst ρ 0) o.toExpr = (applyTo e o.toExpr).map (fun e => e.inst ρ 0) := by
  unfold applyTo
  rw [Expr.apply_inst]
  cases e.apply o.toExpr <;> rfl

theorem applyAll_inst (os : List (Outcome FL)) (e : Expr FL) :
    applyAll (e.inst ρ 0) (os.map Outcome.toExpr) =
      (applyAll e (os.map Outcome.toExpr)).map (fun e => e.inst ρ 0) := by
  induction os generalizing e with
  | nil => rfl
  | cons o os ih =>
      simp only [List.map_cons, applyAll, applyTo_inst]
      cases applyTo e o.toExpr with
      | error err => rfl
      | ok e' => exact ih e'

theorem applyAll_litExpr_inst (ls : List (Literal FL)) (e : Expr FL) :
    applyAll (e.inst ρ 0) (ls.map .litExpr) =
      (applyAll e (ls.map .litExpr)).map (fun e => e.inst ρ 0) := by
  have h := applyAll_inst ρ (ls.map Outcome.lit) e
  simpa only [List.map_map, Function.comp_def, Outcome.toExpr] using h

theorem bindLet_inst (who : String) (vs : List String) (l : Literal FL) (e : Expr FL) :
    bindLet who vs l (e.inst ρ 0) = (bindLet who vs l e).map (fun e => e.inst ρ 0) := by
  unfold bindLet
  cases l with
  | tuple ls =>
      dsimp only
      split_ifs
      · exact applyAll_litExpr_inst ρ _ e
      · exact applyTo_inst ρ (.lit (.tuple ls)) e
      · rfl
  | flat l =>
      dsimp only
      split_ifs
      · exact applyTo_inst ρ (.lit (.flat l)) e
      · rfl
  | list ls =>
      dsimp only
      split_ifs
      · exact applyTo_inst ρ (.lit (.list ls)) e
      · rfl

theorem bindElement_inst (who : String) (vs : List String) (l : Literal FL) (e : Expr FL) :
    bindElement who vs l (e.inst ρ 0) = (bindElement who vs l e).map (fun e => e.inst ρ 0) := by
  unfold bindElement
  split
  · split_ifs
    · rfl
    · exact applyTo_inst ρ (.lit l) e
  · split_ifs
    · exact applyAll_litExpr_inst ρ _ e
    · rfl
  · rfl

theorem bindIter_inst (who : String) (vs : List String) (acc : Option (Outcome FL))
    (l : Literal FL) (e : Expr FL) :
    bindIter who vs (acc.map Outcome.toExpr) l (e.inst ρ 0) =
      (bindIter who vs (acc.map Outcome.toExpr) l e).map (fun e => e.inst ρ 0) := by
  cases acc with
  | none => exact bindElement_inst ρ who vs l e
  | some o =>
      simp only [bindIter, Option.map_some, applyTo_inst]
      cases applyTo e o.toExpr with
      | error err => rfl
      | ok e' => exact bindElement_inst ρ who vs l e'

theorem bindCaptures_inst (who : String) (caps : BTreeMap String (Literal FL))
    (vs : List String) (e : Expr FL) :
    bindCaptures who caps vs (e.inst ρ 0) =
      (bindCaptures who caps vs e).map (fun e => e.inst ρ 0) := by
  induction vs generalizing e with
  | nil => rfl
  | cons v vs ih =>
      simp only [bindCaptures]
      cases caps.get? v with
      | none => rfl
      | some l =>
          have h := applyTo_inst ρ (.lit l) e
          simp only [Outcome.toExpr] at h
          simp only [h]
          cases applyTo e (.litExpr l) with
          | error err => rfl
          | ok e' => exact ih e'

end

/-! ## Runs -/

/-- The functions of the environment have no free variables. -/
def Env.Closed (env : Env FL) : Prop :=
  ∀ f e, env.get f = some e → e.wellScoped 0 = true

variable [TInterpret FL]

/-- Evaluation of an open expression with its indices assigned by `ρ`. -/
noncomputable def run (env : Env FL) (ρ : List (Outcome FL)) (e : Expr FL) :
    EvalM FL (Outcome FL) :=
  eval env (e.inst ρ 0)

/-- Binding a value is extending the assignment. -/
theorem run_subst (env : Env FL) (ρ : List (Outcome FL)) (o : Outcome FL) (e : Expr FL) :
    run env ρ (e.subst 0 o.toExpr true) = run env (o :: ρ) e := by
  unfold run
  rw [Expr.inst_subst]

theorem eval_toExpr (env : Env FL) (o : Outcome FL) : eval env o.toExpr = pure o := by
  induction o with
  | lit l => exact eval_eq env _
  | ret o ih =>
      rw [Outcome.toExpr, eval_eq]
      show Outcome.ret <$> eval env o.toExpr = _
      rw [ih]
      rfl

theorem run_toExpr (env : Env FL) (ρ : List (Outcome FL)) (o : Outcome FL) :
    run env ρ o.toExpr = pure o := by
  unfold run Expr.inst
  rw [Expr.mapVars_toExpr, eval_toExpr]

theorem run_bvar (env : Env FL) {ρ : List (Outcome FL)} {j : Nat} {o : Outcome FL} (x : String)
    (h : ρ[j]? = some o) : run env ρ (.bvar x j) = pure o := by
  have hinst : (Expr.bvar x j).inst ρ 0 = o.toExpr := by
    simp [Expr.inst, Expr.mapVars, Expr.instVar, h]
  rw [run, hinst, eval_toExpr]

theorem evalAlternative_inst (env : Env FL) (ρ : List (Outcome FL)) (a : Option (Expr FL)) :
    evalAlternative (eval env) (a.map (fun e => e.inst ρ 0)) =
      evalAlternative (run env ρ) a := by
  cases a <;> rfl

theorem evalAcc_inst (env : Env FL) (ρ : List (Outcome FL)) (acc : Option (String × Expr FL)) :
    evalAcc (eval env) (acc.map (fun a => (a.1, a.2.inst ρ 0))) = evalAcc (run env ρ) acc := by
  cases acc <;> rfl

theorem evalIter_inst (env : Env FL) (ρ : List (Outcome FL)) (vs : List String) (e2 : Expr FL)
    (lits : List (Literal FL)) (acc : Option (Outcome FL)) :
    evalIter (eval env) vs (e2.inst ρ 0) lits acc = evalIter (run env ρ) vs e2 lits acc := by
  induction lits generalizing acc with
  | nil => rfl
  | cons l ls ih => simp only [evalIter, bindIter_inst, Comp.ofExcept_map_bind, ih, run]

theorem evalCall_inst {env : Env FL} (henv : env.Closed) (ρ : List (Outcome FL)) (f : String)
    (isAsync : Bool) (args : List (Literal FL)) :
    evalCall env (run env ρ) f isAsync args = evalCall env (eval env) f isAsync args := by
  unfold evalCall
  cases hf : env.get f with
  | none => rfl
  | some e =>
      have he : e.inst ρ 0 = e := Expr.inst_of_wellScoped ρ (henv f e hf)
      have h := applyAll_litExpr_inst ρ args e
      rw [he] at h
      dsimp only
      cases hx : applyAll e (args.map .litExpr) with
      | error err => rfl
      | ok e' =>
          rw [hx] at h
          have he' : e' = e'.inst ρ 0 := Except.ok.inj h
          show (do return (← run env ρ e').stripReturn) = (do return (← eval env e').stripReturn)
          rw [run, ← he']

/-- `run` satisfies the recursion of `eval`, on every expression but an index and a call; the
body of a function does not see `ρ`. -/
theorem run_eq {env : Env FL} (ρ : List (Outcome FL)) (e : Expr FL)
    (he : ∀ x j, e ≠ .bvar x j) (hcall : ∀ f args b, e ≠ .callExpr f args b) :
    run env ρ e = evalStep env (run env ρ) e := by
  rw [run, eval_eq]
  cases e with
  | var x => rfl
  | bvar x j => exact absurd rfl (he x j)
  | litExpr l => rfl
  | closure x e => rfl
  | returnExpr e => rfl
  | prefixExpr p e => rfl
  | infixExpr op e1 e2 => cases op <;> rfl
  | blockExpr b es =>
      rw [Expr.inst_blockExpr]
      cases es with
      | nil => cases b <;> rfl
      | cons e es =>
          cases b with
          | block =>
              simp only [evalStep, List.map_cons, List.isEmpty_map, ← Expr.inst_blockExpr, run]
          | list | tuple =>
              have h := Comp.traverse_map (eval env) (fun e => Expr.inst e ρ 0) (e :: es)
              rw [List.map_cons] at h ⊢
              simp only [evalStep, h]
              rfl
  | letExpr vs e1 e2 =>
      simp only [Expr.inst_letExpr, evalStep, bindLet_inst, Comp.ofExcept_map_bind, run]
  | iter op vs e1 e2 acc =>
      simp only [Expr.inst_iter, evalStep, evalAcc_inst, evalIter_inst, run]
  | ifExpr c t a => simp only [Expr.inst_ifExpr, evalStep, evalAlternative_inst, run]
  | ifMatchExpr vs ms t a =>
      simp only [Expr.inst_ifMatchExpr, evalStep, Comp.traverse_map, evalAlternative_inst,
        bindCaptures_inst, Comp.ofExcept_map_bind, run]
  | ifSomeMatchExpr e t a =>
      have hl : ∀ l, applyTo (t.inst ρ 0) (.litExpr l) =
          (applyTo t (.litExpr l)).map (fun e => e.inst ρ 0) :=
        fun l => applyTo_inst ρ (.lit l) t
      simp only [Expr.inst_ifSomeMatchExpr, evalStep, hl, evalAlternative_inst,
        Comp.ofExcept_map_bind, run]
  | callExpr g args isAsync => exact absurd rfl (hcall g args isAsync)

end Armour.Lang
