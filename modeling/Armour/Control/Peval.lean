import Armour.Control.Specialize
import Armour.Lang.CallByName

/-! # Partial evaluation without fuel

`pevalStep` is continuous; `peval` is the limit of its fuelled runs and satisfies the
recursion of the source.
-/

namespace Armour.Control

open Armour.Lib Armour.Lang

section

variable {f : Nat → Bool × CPExpr → CPEvalM Residual} {m : Bool × CPExpr → CPEvalM Residual}

theorem pevalIter_limit (h : ∀ p, Comp.Limit (fun n => f n p) (m p)) (so : Bool)
    (vs : List String) (e2 : CPExpr) (lits : List CPLiteral) (acc : Option Residual) :
    Comp.Limit (fun n => pevalIter (f n) so vs e2 lits acc) (pevalIter m so vs e2 lits acc) := by
  induction lits generalizing acc with
  | nil => exact .const _
  | cons l ls ih =>
      refine (Comp.Limit.const _).bind (fun e => ?_)
      refine (h (so, e)).bind (fun r => ?_)
      exact (ih _).bind (fun p => .const _)

theorem pevalAlternative_limit (h : ∀ p, Comp.Limit (fun n => f n p) (m p)) (so : Bool)
    (a : Option CPExpr) :
    Comp.Limit (fun n => pevalAlternative (f n) so a) (pevalAlternative m so a) := by
  cases a with
  | none => exact .const _
  | some e => exact h (so, e)

theorem pevalInlined_limit (h : ∀ p, Comp.Limit (fun n => f n p) (m p)) (so : Bool)
    (args : List CPExpr) (e : CPExpr) :
    Comp.Limit (fun n => pevalInlined (f n) so args e) (pevalInlined m so args e) :=
  (Comp.Limit.const _).bind (fun e => (h (so, e)).bind (fun _ => .const _))

theorem pevalCall_limit (env : Env CPFlatLiteral) (h : ∀ p, Comp.Limit (fun n => f n p) (m p))
    (so : Bool) (g : String) (arguments : List CPExpr) (isAsync : Bool) (args : List Residual) :
    Comp.Limit (fun n => pevalCall env (f n) so g arguments isAsync args)
      (pevalCall env m so g arguments isAsync args) := by
  unfold pevalCall
  cases env.get g with
  | none => dsimp only; exact .const _
  | some e =>
      dsimp only
      split_ifs
      · exact pevalInlined_limit h so _ e
      · exact (pevalInlined_limit h so _ e).bind (fun _ => .const _)

theorem pevalStep_continuous (env : Env CPFlatLiteral) : Comp.Continuous (pevalStep env) := by
  intro f m h p
  obtain ⟨so, e⟩ := p
  cases e with
  | var x => exact .const _
  | bvar x i => exact .const _
  | litExpr l => exact .const _
  | closure x e => exact (h (so, e)).bind (fun r => .const _)
  | returnExpr e => exact (h (so, e)).bind (fun r => .const _)
  | prefixExpr p e => exact (h (so, e)).bind (fun r => .const _)
  | infixExpr op e1 e2 =>
      exact (h (so, e1)).bind (fun r1 => (h (so, e2)).bind (fun r2 => .const _))
  | blockExpr b es =>
      cases es with
      | nil => cases b <;> exact .const _
      | cons e es =>
          cases b with
          | block =>
              refine (h (so, e)).bind (fun r => ?_)
              obtain ⟨b, res⟩ := r
              dsimp only
              split_ifs
              · exact .const _
              · exact h _
              · exact (h _).bind (fun r => .const _)
          | list | tuple =>
              exact (Comp.Limit.traverse _ (fun a _ => h (so, a))).bind (fun rs => .const _)
  | letExpr vs e1 e2 =>
      simp only [pevalStep]
      cases e2.atDepth vs.length with
      | none => exact .const _
      | some body =>
          dsimp only
          split_ifs
          · exact (Comp.Limit.const _).bind (fun e => h (so, e))
          · refine (h (so, e1)).bind (fun r => ?_)
            split
            · exact .const _
            · exact (Comp.Limit.const _).bind (fun e => h (so, e))
            · exact (h (so, e2)).bind (fun r => .const _)
            · exact .const _
  | iter op vs e1 e2 acc =>
      refine (h (so, e1)).bind (fun r => ?_)
      split
      · exact .const _
      · refine (h (so, e2)).bind (fun r => ?_)
        cases acc with
        | none => exact .const _
        | some a => exact (h (so, a.2)).bind (fun r => .const _)
      · cases acc with
        | none => exact (pevalIter_limit h so vs e2 _ none).bind (fun r => .const _)
        | some a =>
            refine (h (so, a.2)).bind (fun r => ?_)
            obtain ⟨b, a'⟩ := r
            cases b with
            | false => exact .const _
            | true => exact (pevalIter_limit h so vs e2 _ _).bind (fun r => .const _)
      · exact .const _
  | ifExpr c t a =>
      refine (h (so, c)).bind (fun r => ?_)
      split
      · exact .const _
      · split
        · exact h _
        · exact pevalAlternative_limit h so a
        · exact .const _
      · exact .const _
      · refine (h (so, t)).bind (fun r => ?_)
        cases a with
        | none => exact .const _
        | some a => exact (h (so, a)).bind (fun r => .const _)
  | ifSomeMatchExpr e t a =>
      refine (h (so, e)).bind (fun r => ?_)
      split
      · exact .const _
      · exact (Comp.Limit.const _).bind (fun e => h (so, e))
      · exact pevalAlternative_limit h so a
      · split
        · refine (h (so, _)).bind (fun r => ?_)
          cases a with
          | none => exact .const _
          | some a => exact (h (so, a)).bind (fun r => .const _)
        · exact .const _
      · exact .const _
  | ifMatchExpr vs ms t a =>
      refine Comp.Limit.bind (Comp.Limit.traverse _
        (fun m _ => (h (so, m.1)).bind (fun r => .const _))) (fun rs => ?_)
      split_ifs
      · exact .const _
      · split
        · exact .const _
        · split
          · split
            · exact .const _
            · exact (h _).bind (fun r => .const _)
          · exact (Comp.Limit.const _).bind (fun e => (h (so, e)).bind (fun r => .const _))
  | callExpr g args isAsync =>
      refine (Comp.Limit.traverse _ (fun a _ => h (so, a))).bind (fun rs => ?_)
      split
      · exact .const _
      · exact pevalCall_limit env h so g args isAsync rs

end

/-- `peval`: what the specializer answers with enough fuel. -/
noncomputable def peval (env : Env CPFlatLiteral) (so : Bool) (e : CPExpr) : CPEvalM Residual :=
  Comp.fix (pevalStep env) (so, e)

/-- The recursion of the source. -/
theorem peval_eq (env : Env CPFlatLiteral) (so : Bool) (e : CPExpr) :
    peval env so e = pevalStep env (fun p => peval env p.1 p.2) (so, e) :=
  Comp.Continuous.fix_eq (pevalStep_continuous env) (so, e)

theorem pevalN_limit (env : Env CPFlatLiteral) (so : Bool) (e : CPExpr) :
    Comp.Limit (fun n => pevalN env n so e) (peval env so e) :=
  Comp.Continuous.iterate_limit (pevalStep_continuous env) (so, e)

/-- A run that ends within some fuel is what `peval` answers. -/
theorem peval_of_pevalN {env : Env CPFlatLiteral} {n : Nat} {so : Bool} {e : CPExpr}
    {w : World CPFlatLiteral} {r : Except (Error CPFlatLiteral) Residual × World CPFlatLiteral}
    (h : (pevalN env n so e).run w = some r) : (peval env so e).run w = some r :=
  (pevalN_limit env so e).sound h

end Armour.Control
