import Armour.Lang.Interpret

/-! # Evaluation without fuel

`evalStep` is continuous, so the fuelled runs of the interpreter have a limit `eval`
that satisfies the recursion of the source.
-/

namespace Armour.Lang

open Armour.Lib

theorem literals_lits {FL : Type} (ls : List (Literal FL)) :
    Outcome.literals (ls.map Outcome.lit) = .ok ls := by
  induction ls with
  | nil => rfl
  | cons l ls ih => simp [Outcome.literals, ih, Except.map]

section

variable {FT FL : Type} [TFlatTyp FT] [TFlatLiteral FT FL]

theorem evalAlternative_limit {f : Nat → Expr FL → EvalM FL (Outcome FL)}
    {m : Expr FL → EvalM FL (Outcome FL)} (h : ∀ e, Comp.Limit (fun n => f n e) (m e))
    (a : Option (Expr FL)) :
    Comp.Limit (fun n => evalAlternative (f n) a) (evalAlternative m a) := by
  cases a with
  | none => exact .const _
  | some e => exact h e

theorem evalAcc_limit {f : Nat → Expr FL → EvalM FL (Outcome FL)}
    {m : Expr FL → EvalM FL (Outcome FL)} (h : ∀ e, Comp.Limit (fun n => f n e) (m e))
    (acc : Option (String × Expr FL)) :
    Comp.Limit (fun n => evalAcc (f n) acc) (evalAcc m acc) := by
  cases acc with
  | none => exact .const _
  | some a => exact (h a.2).map some

theorem evalIter_limit {f : Nat → Expr FL → EvalM FL (Outcome FL)}
    {m : Expr FL → EvalM FL (Outcome FL)} (h : ∀ e, Comp.Limit (fun n => f n e) (m e))
    (vs : List String) (e2 : Expr FL) (lits : List (Literal FL)) (acc : Option (Outcome FL)) :
    Comp.Limit (fun n => evalIter (f n) vs e2 lits acc) (evalIter m vs e2 lits acc) := by
  induction lits generalizing acc with
  | nil => exact .const _
  | cons l ls ih =>
      refine (Comp.Limit.const _).bind (fun e => ?_)
      refine (h e).bind (fun r => ?_)
      exact (ih _).bind (fun p => .const _)

theorem shortCircuit_limit {f : Nat → EvalM FL (Outcome FL)} {m : EvalM FL (Outcome FL)}
    (h : Comp.Limit f m) (decided : Bool) (o : Outcome FL) :
    Comp.Limit (fun n => shortCircuit decided (f n) o) (shortCircuit decided m o) := by
  cases o with
  | ret o => exact .const _
  | lit l =>
      simp only [shortCircuit]
      cases l.getBool? with
      | none => exact .const _
      | some b =>
          dsimp only
          split_ifs
          · exact .const _
          · exact h.bind (fun r => .const _)

theorem evalCall_limit (env : Env FL) {f : Nat → Expr FL → EvalM FL (Outcome FL)}
    {m : Expr FL → EvalM FL (Outcome FL)} (h : ∀ e, Comp.Limit (fun n => f n e) (m e))
    (g : String) (isAsync : Bool) (args : List (Literal FL)) :
    Comp.Limit (fun n => evalCall env (f n) g isAsync args) (evalCall env m g isAsync args) := by
  unfold evalCall
  cases env.get g with
  | none => exact .const _
  | some e =>
      refine (Comp.Limit.const _).bind (fun e => ?_)
      exact (h e).bind (fun o => .const _)

variable [TInterpret FL]

theorem evalStep_continuous (env : Env FL) : Comp.Continuous (evalStep env) := by
  intro f m h e
  cases e with
  | var x => exact .const _
  | bvar x i => exact .const _
  | litExpr l => exact .const _
  | closure x e => exact .const _
  | returnExpr e => exact (h e).map _
  | prefixExpr p e => exact (h e).bind (fun o => .const _)
  | infixExpr op e1 e2 =>
      cases op with
      | and => exact (h e1).bind (fun o => shortCircuit_limit (h e2) _ o)
      | or => exact (h e1).bind (fun o => shortCircuit_limit (h e2) _ o)
      | _ => exact (h e1).bind (fun o => (h e2).bind (fun o' => .const _))
  | blockExpr b es =>
      cases es with
      | nil => cases b <;> exact .const _
      | cons e es =>
          cases b with
          | block =>
              refine (h e).bind (fun o => ?_)
              split_ifs
              · exact .const _
              · exact h _
          | list | tuple =>
              exact (Comp.Limit.traverse _ (fun a _ => h a)).bind (fun rs => .const _)
  | letExpr vs e1 e2 =>
      refine (h e1).bind (fun o => ?_)
      cases o with
      | ret o => exact .const _
      | lit l => exact (Comp.Limit.const _).bind (fun e => h e)
  | iter op vs e1 e2 acc =>
      refine (h e1).bind (fun o => ?_)
      cases o with
      | ret o => exact .const _
      | lit l =>
          cases l with
          | flat l => exact .const _
          | tuple ls => exact .const _
          | list ls =>
              refine (evalAcc_limit h acc).bind (fun acc => ?_)
              exact (evalIter_limit h vs e2 ls acc).bind (fun p => .const _)
  | ifExpr c t a =>
      refine (h c).bind (fun o => ?_)
      cases o with
      | ret o => exact .const _
      | lit l =>
          dsimp only
          cases l.getBool? with
          | none => exact .const _
          | some b =>
              cases b with
              | true => exact h t
              | false => exact evalAlternative_limit h a
  | ifSomeMatchExpr e t a =>
      refine (h e).bind (fun o => ?_)
      cases o with
      | ret o => exact .const _
      | lit l =>
          match l with
          | .flat l => exact .const _
          | .list ls => exact .const _
          | .tuple [l] => exact (Comp.Limit.const _).bind (fun e => h e)
          | .tuple [] => exact evalAlternative_limit h a
          | .tuple (_ :: _ :: _) => exact evalAlternative_limit h a
  | ifMatchExpr vs ms t a =>
      refine Comp.Limit.bind (Comp.Limit.traverse _
        (fun m _ => (h m.1).bind (fun o => .const _))) (fun rs => ?_)
      cases Outcome.literals (rs.map Prod.fst) with
      | error r => exact .const _
      | ok ls =>
          dsimp only
          cases allCaptures rs with
          | none => exact evalAlternative_limit h a
          | some caps => exact (Comp.Limit.const _).bind (fun e => h e)
  | callExpr g args isAsync =>
      refine (Comp.Limit.traverse _ (fun a _ => h a)).bind (fun rs => ?_)
      cases Outcome.literals rs with
      | error r => exact .const _
      | ok ls => exact evalCall_limit env h g isAsync ls

/-- `eval`: what the interpreter answers with enough fuel. -/
noncomputable def eval (env : Env FL) : Expr FL → EvalM FL (Outcome FL) :=
  Comp.fix (evalStep env)

/-- The recursion of the source. -/
theorem eval_eq (env : Env FL) (e : Expr FL) : eval env e = evalStep env (eval env) e :=
  Comp.Continuous.fix_eq (evalStep_continuous env) e

theorem evalN_limit (env : Env FL) (e : Expr FL) :
    Comp.Limit (fun n => evalN env n e) (eval env e) :=
  Comp.Continuous.iterate_limit (evalStep_continuous env) e

/-- A run that ends within some fuel is what `eval` answers. -/
theorem eval_of_evalN {env : Env FL} {n : Nat} {e : Expr FL} {w : World FL}
    {r : Except (Error FL) (Outcome FL) × World FL} (h : (evalN env n e).run w = some r) :
    (eval env e).run w = some r :=
  (evalN_limit env e).sound h

end

end Armour.Lang
