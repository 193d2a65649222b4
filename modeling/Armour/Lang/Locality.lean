import Armour.Lang.Unfolding
import Armour.Lang.Semantics

/-! # What evaluation depends on

Two programs that agree on the functions that an expression reaches, and on the sockets of the
externals among them, evaluate it to the same computation: the same results, errors and calls.
-/

namespace Armour.Lang

open Armour.Lib

variable {FT FL : Type} [TFlatTyp FT] [TFlatLiteral FT FL]

variable (FT) in
/-- A name without code that stands for the method of an external. -/
def IsMethod (f external : String) : Prop :=
  Headers.isBuiltin FT f = false ∧ (∃ method, Headers.split f = some (external, method)) ∧
    external ≠ "Ingress" ∧ external ≠ "Egress"

variable (FT) in
/-- Environments that agree on the functions that satisfy `ok`, whose code calls no others. -/
structure SameCalls (ok : String → Prop) (env env' : Env FL) : Prop where
  runtime : env'.toRuntime = env.toRuntime
  get : ∀ f, ok f → env'.get f = env.get f
  socket : ∀ f external, ok f → env.get f = none → IsMethod FT f external →
    env'.sockets.get? external = env.sockets.get? external
  body : ∀ f e, ok f → env.get f = some e → e.CallsIn ok

namespace SameCalls

variable {ok : String → Prop} {env env' : Env FL} (h : SameCalls FT ok env env')
variable {ev ev' : Expr FL → EvalM FL (Outcome FL)}

include h

omit [TFlatLiteral FT FL] in
theorem externalCall {f external : String} (hf : ok f) (hget : env.get f = none)
    (hmethod : IsMethod FT f external) (method : String) (args : List (Literal FL)) (b : Bool) :
    EvalM.externalCall env' ⟨external, method, args, b⟩ =
      EvalM.externalCall env ⟨external, method, args, b⟩ := by
  have hrpc : env'.rpc = env.rpc := congrArg Runtime.rpc h.runtime
  unfold EvalM.externalCall
  dsimp only
  rw [h.socket f external hf hget hmethod, hrpc]

variable (hev : ∀ e : Expr FL, e.CallsIn ok → ev' e = ev e)

include hev

theorem evalCall {f : String} (hf : ok f) (isAsync : Bool) (args : List (Literal FL)) :
    evalCall env' ev' f isAsync args = evalCall env ev f isAsync args := by
  have hbuiltin : env'.builtin = env.builtin := congrArg Runtime.builtin h.runtime
  unfold Lang.evalCall
  rw [h.get f hf]
  cases hget : env.get f with
  | some body =>
      dsimp only
      cases happ : applyAll body (args.map Expr.litExpr) with
      | error err => rfl
      | ok e =>
          -- arguments add no calls to those of the code
          have he : e.CallsIn ok := callsIn_applyAll (h.body f body hf hget) (callsIn_lits args) happ
          show (do return (← ev' e).stripReturn) = (do return (← ev e).stripReturn)
          rw [hev e he]
  | none =>
      dsimp only
      rw [hbuiltin]
      by_cases hbi : Headers.isBuiltin FT f = true
      · rw [if_pos hbi, if_pos hbi]
      · rw [if_neg hbi, if_neg hbi]
        cases hsplit : Headers.split f with
        | none => rfl
        | some p =>
            dsimp only
            by_cases hinternal : p.1 = "Ingress" ∨ p.1 = "Egress"
            · rw [if_pos hinternal, if_pos hinternal]
            · -- the method of an external
              obtain ⟨hingress, hegress⟩ := not_or.mp hinternal
              rw [if_neg hinternal, if_neg hinternal, h.externalCall hf hget
                ⟨by simpa using hbi, ⟨_, hsplit⟩, hingress, hegress⟩]

omit [TFlatTyp FT] [TFlatLiteral FT FL] h in
theorem evalAcc {a : Option (String × Expr FL)} (ha : ∀ x ∈ a, x.2.CallsIn ok) :
    evalAcc ev' a = evalAcc ev a := by
  cases a with
  | none => rfl
  | some x =>
      show some <$> ev' x.2 = some <$> ev x.2
      rw [hev x.2 (ha x rfl)]

omit h in
theorem evalAlternative {a : Option (Expr FL)} (ha : ∀ e ∈ a, e.CallsIn ok) :
    evalAlternative ev' a = evalAlternative ev a := by
  cases a with
  | none => rfl
  | some e => exact hev e (ha e rfl)

omit [TFlatTyp FT] [TFlatLiteral FT FL] h in
/-- What is bound leads to the same evaluation. -/
theorem ofExcept {x : Except (Error FL) (Expr FL)} (hx : ∀ e, x = .ok e → e.CallsIn ok) :
    (Comp.ofExcept x >>= ev') = (Comp.ofExcept x >>= ev) := by
  cases x with
  | error err => rfl
  | ok e => exact hev e (hx e rfl)

omit [TFlatTyp FT] [TFlatLiteral FT FL] h in
theorem evalIter {vs : List String} {e2 : Expr FL} (he : e2.CallsIn ok)
    (lits : List (Literal FL)) (acc : Option (Outcome FL)) :
    evalIter ev' vs e2 lits acc = evalIter ev vs e2 lits acc := by
  induction lits generalizing acc with
  | nil => rfl
  | cons l ls ih =>
      have hacc : ∀ a ∈ acc.map Outcome.toExpr, a.CallsIn ok := by
        intro a ha
        obtain ⟨o, -, rfl⟩ := Option.map_eq_some_iff.mp ha
        exact callsIn_toExpr o
      show (Comp.ofExcept _ >>= fun e => ev' e >>= _) = (Comp.ofExcept _ >>= fun e => ev e >>= _)
      cases hbind : bindIter "eval" vs (acc.map Outcome.toExpr) l e2 with
      | error err => rfl
      | ok e =>
          show (ev' e >>= _) = (ev e >>= _)
          rw [hev e (callsIn_bindIter he hacc hbind)]
          exact bind_congr (fun r => by rw [ih])

/-- One unfolding of the evaluation, where the recursive calls agree. -/
theorem evalStep [TInterpret FL] {e : Expr FL} (he : e.CallsIn ok) :
    evalStep env' ev' e = evalStep env ev e := by
  have hpf : env'.platform = env.platform := congrArg Runtime.platform h.runtime
  cases e with
  | var x => rfl
  | bvar x i => rfl
  | litExpr l => rfl
  | closure x e => rfl
  | returnExpr e =>
      show Outcome.ret <$> ev' e = Outcome.ret <$> ev e
      rw [hev e he]
  | prefixExpr p e =>
      show (ev' e >>= prefixOp env'.platform p) = (ev e >>= prefixOp env.platform p)
      rw [hev e he, hpf]
  | infixExpr op e1 e2 =>
      obtain ⟨h1, h2⟩ := Expr.CallsIn.infix_iff.mp he
      have h1 := hev e1 h1
      have h2 := hev e2 h2
      cases op <;> simp only [Lang.evalStep, h1, h2, hpf]
  | blockExpr b es =>
      have hes := Expr.CallsIn.block_iff.mp he
      cases es with
      | nil => cases b <;> rfl
      | cons e es =>
          have htail : Expr.CallsIn ok (.blockExpr .block es) :=
            Expr.CallsIn.block_iff.mpr (fun e he => hes e (List.mem_cons_of_mem _ he))
          have hall : Comp.traverse ev' (e :: es) = Comp.traverse ev (e :: es) :=
            Comp.traverse_congr (fun e he => hev e (hes e he))
          cases b with
          | block => simp only [Lang.evalStep, hev e (hes e List.mem_cons_self), hev _ htail]
          | list | tuple => simp only [Lang.evalStep, hall]
  | letExpr vs e1 e2 =>
      obtain ⟨h1, h2⟩ := Expr.CallsIn.let_iff.mp he
      have hbind : ∀ l, (Comp.ofExcept (bindLet "eval" vs l e2) >>= ev') =
          (Comp.ofExcept (bindLet "eval" vs l e2) >>= ev) :=
        fun l => ofExcept hev (fun e he => callsIn_bindLet h2 he)
      simp only [Lang.evalStep, hev e1 h1, hbind]
  | iter op vs e1 e2 acc =>
      obtain ⟨h1, h2, ha⟩ := Expr.CallsIn.iter_iff.mp he
      simp only [Lang.evalStep, hev e1 h1, evalAcc hev ha, evalIter hev h2]
  | ifExpr c t a =>
      obtain ⟨hc, ht, ha⟩ := Expr.CallsIn.if_iff.mp he
      simp only [Lang.evalStep, hev c hc, hev t ht, evalAlternative hev ha]
  | ifSomeMatchExpr e t a =>
      obtain ⟨he, ht, ha⟩ := Expr.CallsIn.ifSome_iff.mp he
      have hbind : ∀ l, (Comp.ofExcept (applyTo t (.litExpr l)) >>= ev') =
          (Comp.ofExcept (applyTo t (.litExpr l)) >>= ev) :=
        fun l => ofExcept hev (fun e he => callsIn_applyTo ht (Expr.CallsIn.lit l) he)
      simp only [Lang.evalStep, hev e he, hbind, evalAlternative hev ha]
  | ifMatchExpr vs ms t a =>
      obtain ⟨hm, ht, ha⟩ := Expr.CallsIn.ifMatch_iff.mp he
      have hsubjects : Comp.traverse (fun m : Expr FL × Pattern => do
            matchSubject "eval" env.platform m.2 (← ev' m.1)) ms =
          Comp.traverse (fun m : Expr FL × Pattern => do
            matchSubject "eval" env.platform m.2 (← ev m.1)) ms :=
        Comp.traverse_congr (fun m hmem => by rw [hev m.1 (hm m hmem)])
      have hbind : ∀ caps, (Comp.ofExcept (bindCaptures "eval" caps vs t) >>= ev') =
          (Comp.ofExcept (bindCaptures "eval" caps vs t) >>= ev) :=
        fun caps => ofExcept hev (fun e he => callsIn_bindCaptures ht he)
      simp only [Lang.evalStep, hpf, hsubjects, hbind, evalAlternative hev ha]
  | callExpr f args isAsync =>
      obtain ⟨hargs, hf⟩ := Expr.CallsIn.call_iff.mp he
      have hall : Comp.traverse ev' args = Comp.traverse ev args :=
        Comp.traverse_congr (fun e he => hev e (hargs e he))
      have hcall : ∀ ls, Lang.evalCall env' ev' f isAsync ls = Lang.evalCall env ev f isAsync ls :=
        fun ls => h.evalCall hev hf isAsync ls
      simp only [Lang.evalStep, hall, hcall]

end SameCalls

namespace SameCalls

variable {ok : String → Prop} {env env' : Env FL} [TInterpret FL]

/-- Any number of unfoldings. -/
theorem evalN (h : SameCalls FT ok env env') (n : Nat) :
    ∀ e : Expr FL, e.CallsIn ok → evalN env' n e = evalN env n e := by
  induction n with
  | zero => exact fun _ _ => rfl
  | succ n ih => exact fun e he => h.evalStep ih he

theorem eval (h : SameCalls FT ok env env') {e : Expr FL} (he : e.CallsIn ok) :
    eval env' e = eval env e := by
  refine Comp.Limit.unique (evalN_limit env' e) ?_
  have hN : (fun n => Lang.evalN env' n e) = fun n => Lang.evalN env n e :=
    funext (fun n => h.evalN n e he)
  rw [hN]
  exact evalN_limit env e

end SameCalls

end Armour.Lang
