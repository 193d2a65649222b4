import Armour.Lang.Interpret
import Armour.Lib.Behaviour

/-! # One unfolding of the evaluation

A behaviour that the calls of functions have, evaluation has: the calls that evaluation makes
are among those that stand in the expression and in the code of the functions called, since
binding puts nothing but literals into an expression.
-/

namespace Armour.Lang

open Armour.Lib

namespace Expr

variable {FL : Type} {ok : String → Prop}

/-- All functions that the expression calls satisfy `ok`. -/
def CallsIn (ok : String → Prop) (e : Expr FL) : Prop := ∀ c ∈ e.calls, ok c.1

namespace CallsIn

theorem call_iff {f : String} {args : List (Expr FL)} {isAsync : Bool} :
    CallsIn ok (.callExpr f args isAsync) ↔ (∀ e ∈ args, CallsIn ok e) ∧ ok f := by
  unfold CallsIn
  rw [calls_callExpr, List.forall_mem_append, List.forall_mem_flatMap, List.forall_mem_singleton]

theorem infix_iff {op : Infix} {e1 e2 : Expr FL} :
    CallsIn ok (.infixExpr op e1 e2) ↔ CallsIn ok e1 ∧ CallsIn ok e2 := by
  unfold CallsIn
  rw [calls_infixExpr, List.forall_mem_append]

theorem let_iff {vs : List String} {e1 e2 : Expr FL} :
    CallsIn ok (.letExpr vs e1 e2) ↔ CallsIn ok e1 ∧ CallsIn ok e2 := by
  unfold CallsIn
  rw [calls_letExpr, List.forall_mem_append]

theorem block_iff {b : Block} {es : List (Expr FL)} :
    CallsIn ok (.blockExpr b es) ↔ ∀ e ∈ es, CallsIn ok e := by
  unfold CallsIn
  rw [calls_blockExpr, List.forall_mem_flatMap]

theorem iter_iff {op : Iter} {vs : List String} {e1 e2 : Expr FL}
    {acc : Option (String × Expr FL)} :
    CallsIn ok (.iter op vs e1 e2 acc) ↔
      CallsIn ok e1 ∧ CallsIn ok e2 ∧ ∀ a ∈ acc, CallsIn ok a.2 := by
  unfold CallsIn
  rw [calls_iter, List.forall_mem_append, List.forall_mem_append, List.forall_mem_flatMap,
    and_assoc]
  simp only [Option.mem_toList, Option.mem_def]

theorem if_iff {c t : Expr FL} {a : Option (Expr FL)} :
    CallsIn ok (.ifExpr c t a) ↔ CallsIn ok c ∧ CallsIn ok t ∧ ∀ e ∈ a, CallsIn ok e := by
  unfold CallsIn
  rw [calls_ifExpr, List.forall_mem_append, List.forall_mem_append, List.forall_mem_flatMap,
    and_assoc]
  simp only [Option.mem_toList, Option.mem_def]

theorem ifSome_iff {e t : Expr FL} {a : Option (Expr FL)} :
    CallsIn ok (.ifSomeMatchExpr e t a) ↔ CallsIn ok e ∧ CallsIn ok t ∧ ∀ e ∈ a, CallsIn ok e := by
  unfold CallsIn
  rw [calls_ifSomeMatchExpr, List.forall_mem_append, List.forall_mem_append,
    List.forall_mem_flatMap, and_assoc]
  simp only [Option.mem_toList, Option.mem_def]

theorem ifMatch_iff {vs : List String} {ms : List (Expr FL × Pattern)} {t : Expr FL}
    {a : Option (Expr FL)} :
    CallsIn ok (.ifMatchExpr vs ms t a) ↔
      (∀ m ∈ ms, CallsIn ok m.1) ∧ CallsIn ok t ∧ ∀ e ∈ a, CallsIn ok e := by
  unfold CallsIn
  rw [calls_ifMatchExpr, List.forall_mem_append, List.forall_mem_append, List.forall_mem_flatMap,
    List.forall_mem_flatMap, and_assoc]
  simp only [Option.mem_toList, Option.mem_def]

theorem of_option_map {g : Expr FL → Expr FL} {a : Option (Expr FL)}
    (h : ∀ e ∈ a, CallsIn ok (g e)) : ∀ e ∈ a.map g, CallsIn ok e := by
  intro e he
  obtain ⟨e', he', rfl⟩ := Option.map_eq_some_iff.mp he
  exact h e' he'

/-- Putting expressions in the place of variables adds no calls but theirs. -/
theorem mapVars {fv : Nat → String → Expr FL} {fb : Nat → String → Nat → Expr FL}
    (hv : ∀ d x, CallsIn ok (fv d x)) (hb : ∀ d x i, CallsIn ok (fb d x i)) {e : Expr FL}
    (h : CallsIn ok e) (d : Nat) : CallsIn ok (e.mapVars fv fb d) := by
  induction e using Expr.ind generalizing d with
  | var x => exact hv d x
  | bvar x i => exact hb d x i
  | litExpr l => exact h
  | returnExpr e ih => exact ih h d
  | prefixExpr p e ih => exact ih h d
  | infixExpr op e1 e2 ih1 ih2 =>
      obtain ⟨h1, h2⟩ := infix_iff.mp h
      exact infix_iff.mpr ⟨ih1 h1 d, ih2 h2 d⟩
  | blockExpr b es ih =>
      rw [mapVars_blockExpr]
      refine block_iff.mpr (fun e' he' => ?_)
      obtain ⟨e, he, rfl⟩ := List.mem_map.mp he'
      exact ih e he (block_iff.mp h e he) d
  | letExpr vs e1 e2 ih1 ih2 =>
      obtain ⟨h1, h2⟩ := let_iff.mp h
      exact let_iff.mpr ⟨ih1 h1 d, ih2 h2 d⟩
  | iter op vs e1 e2 acc ih1 ih2 iha =>
      obtain ⟨h1, h2, ha⟩ := iter_iff.mp h
      rw [mapVars_iter]
      refine iter_iff.mpr ⟨ih1 h1 d, ih2 h2 d, fun a ha' => ?_⟩
      obtain ⟨a', hmem, rfl⟩ := Option.map_eq_some_iff.mp ha'
      exact iha a' hmem (ha a' hmem) d
  | closure x e ih => exact ih h (d + 1)
  | ifExpr g t a ihg iht iha =>
      obtain ⟨hg, ht, ha⟩ := if_iff.mp h
      rw [mapVars_ifExpr]
      exact if_iff.mpr ⟨ihg hg d, iht ht d, of_option_map (fun e he => iha e he (ha e he) d)⟩
  | ifMatchExpr vs ms t a ihm iht iha =>
      obtain ⟨hm, ht, ha⟩ := ifMatch_iff.mp h
      rw [mapVars_ifMatchExpr]
      refine ifMatch_iff.mpr ⟨fun m' hm' => ?_, iht ht d,
        of_option_map (fun e he => iha e he (ha e he) d)⟩
      obtain ⟨m, hmem, rfl⟩ := List.mem_map.mp hm'
      exact ihm m hmem (hm m hmem) d
  | ifSomeMatchExpr e t a ihe iht iha =>
      obtain ⟨he, ht, ha⟩ := ifSome_iff.mp h
      rw [mapVars_ifSomeMatchExpr]
      exact ifSome_iff.mpr ⟨ihe he d, iht ht d, of_option_map (fun e he => iha e he (ha e he) d)⟩
  | callExpr f args b ih =>
      obtain ⟨hargs, hf⟩ := call_iff.mp h
      rw [mapVars_callExpr]
      refine call_iff.mpr ⟨fun e' he' => ?_, hf⟩
      obtain ⟨e, he, rfl⟩ := List.mem_map.mp he'
      exact ih e he (hargs e he) d

theorem lit (l : Literal FL) : CallsIn ok (.litExpr l) := fun _ hc => nomatch hc

theorem apply {e u e' : Expr FL} (he : CallsIn ok e) (hu : CallsIn ok u)
    (h : e.apply u = some e') : CallsIn ok e' := by
  have hbvar : ∀ (x : String) (j : Nat), CallsIn ok (.bvar x j : Expr FL) :=
    fun _ _ _ hc => nomatch hc
  have hvar : ∀ (d : Nat) (x : String), CallsIn ok (.var x : Expr FL) := fun _ _ _ hc => nomatch hc
  have hshift : ∀ i, CallsIn ok (u.shift i 0) := by
    intro i
    unfold shift
    split
    · exact hu
    · refine hu.mapVars hvar (fun d x j => ?_) 0
      split
      · exact hbvar x (j + 1)
      · exact hbvar x j
  cases e with
  | closure x e =>
      obtain rfl := Option.some.inj h
      have hbody : CallsIn ok e := he
      refine hbody.mapVars hvar (fun d x j => ?_) 0
      unfold substVar
      split
      · exact hbvar x j
      · split
        · exact hshift d
        · exact hbvar x _
  | _ => cases h

end CallsIn

end Expr

/-! ## Binding -/

section

variable {FL : Type} {ok : String → Prop} {e e' : Expr FL}

theorem callsIn_toExpr (o : Outcome FL) : o.toExpr.CallsIn ok := by
  induction o with
  | lit l => exact Expr.CallsIn.lit l
  | ret o ih => exact ih

theorem callsIn_applyTo {u : Expr FL} (he : e.CallsIn ok) (hu : u.CallsIn ok)
    (h : applyTo e u = .ok e') : e'.CallsIn ok := by
  unfold applyTo at h
  split at h
  · rename_i e₁ happ
    obtain rfl := Except.ok.inj h
    exact he.apply hu happ
  · cases h

theorem callsIn_applyAll {us : List (Expr FL)} (he : e.CallsIn ok) (hu : ∀ u ∈ us, u.CallsIn ok)
    (h : applyAll e us = .ok e') : e'.CallsIn ok := by
  induction us generalizing e with
  | nil =>
      obtain rfl := Except.ok.inj h
      exact he
  | cons u us ih =>
      obtain ⟨hu, hus⟩ := List.forall_mem_cons.mp hu
      cases happ : applyTo e u with
      | error err =>
          rw [applyAll, happ] at h
          cases h
      | ok e₁ =>
          rw [applyAll, happ] at h
          exact ih (callsIn_applyTo he hu happ) hus h

theorem callsIn_lits (ls : List (Literal FL)) :
    ∀ u ∈ ls.map Expr.litExpr, u.CallsIn ok := by
  intro u hu
  obtain ⟨l, -, rfl⟩ := List.mem_map.mp hu
  exact Expr.CallsIn.lit l

theorem callsIn_bindLet {who : String} {vs : List String} {l : Literal FL}
    (he : e.CallsIn ok) (h : bindLet who vs l e = .ok e') : e'.CallsIn ok := by
  unfold bindLet at h
  split at h
  · split at h
    · exact callsIn_applyAll he (callsIn_lits _) h
    · split at h
      · exact callsIn_applyTo he (Expr.CallsIn.lit _) h
      · cases h
  · split at h
    · exact callsIn_applyTo he (Expr.CallsIn.lit _) h
    · cases h

theorem callsIn_bindElement {who : String} {vs : List String} {l : Literal FL}
    (he : e.CallsIn ok) (h : bindElement who vs l e = .ok e') : e'.CallsIn ok := by
  unfold bindElement at h
  split at h
  · split at h
    · obtain rfl := Except.ok.inj h
      exact he
    · exact callsIn_applyTo he (Expr.CallsIn.lit _) h
  · split at h
    · exact callsIn_applyAll he (callsIn_lits _) h
    · cases h
  · cases h

theorem callsIn_bindIter {who : String} {vs : List String} {acc : Option (Expr FL)}
    {l : Literal FL} (he : e.CallsIn ok) (ha : ∀ a ∈ acc, a.CallsIn ok)
    (h : bindIter who vs acc l e = .ok e') : e'.CallsIn ok := by
  cases acc with
  | none => exact callsIn_bindElement he h
  | some a =>
      cases happ : applyTo e a with
      | error err =>
          simp only [bindIter, happ] at h
          cases h
      | ok e₁ =>
          simp only [bindIter, happ] at h
          exact callsIn_bindElement (callsIn_applyTo he (ha a rfl) happ) h

theorem callsIn_bindCaptures {who : String} {caps : BTreeMap String (Literal FL)}
    {vs : List String} (he : e.CallsIn ok) (h : bindCaptures who caps vs e = .ok e') :
    e'.CallsIn ok := by
  induction vs generalizing e with
  | nil =>
      obtain rfl := Except.ok.inj h
      exact he
  | cons v vs ih =>
      unfold bindCaptures at h
      split at h
      · rename_i l hl
        cases happ : applyTo e (.litExpr l) with
        | error err =>
            rw [happ] at h
            cases h
        | ok e₁ =>
            rw [happ] at h
            exact ih (callsIn_applyTo he (Expr.CallsIn.lit l) happ) h
      · cases h

end

/-! ## Behaviours -/

section

variable {FT FL : Type} [TFlatTyp FT] [TFlatLiteral FT FL]
variable {P : ∀ α : Type, EvalM FL α → Prop} (hP : Comp.Closed P)

include hP

omit [TFlatTyp FT] [TFlatLiteral FT FL] in
theorem closed_lift (err : Error FL) (r : Checked (Option (Literal FL))) :
    P _ (EvalM.lift err r) := by
  rcases r with _ | _ | l
  · exact hP.throw _
  · exact hP.throw _
  · exact hP.pure l

theorem closed_finishIter (op : Iter) (lits : List (Literal FL)) (rs : List (Outcome FL))
    (acc : Option (Outcome FL)) : P _ (finishIter op lits rs acc) := by
  unfold finishIter
  split
  · exact hP.pure _
  · split
    · split
      · exact hP.pure _
      · exact hP.throw _
      · exact hP.throw _
    · exact hP.map _ (hP.ofExcept _)

theorem closed_matchSubject (pf : Platform) (p : Pattern) (r : Outcome FL) :
    P _ (matchSubject "eval" pf p r) := by
  cases r with
  | ret o => exact hP.pure _
  | lit l =>
      unfold matchSubject
      dsimp only
      split
      · exact hP.pure _
      · exact hP.throw _
      · exact hP.throw _

section

variable [TInterpret FL]

theorem closed_prefixOp (pf : Platform) (p : Prefix) (r : Outcome FL) :
    P _ (prefixOp pf p r) := by
  cases r with
  | ret o => exact hP.pure _
  | lit l => exact hP.map _ (closed_lift hP _ _)

theorem closed_infixOp (pf : Platform) (op : Infix) (r1 r2 : Outcome FL) :
    P _ (infixOp pf op r1 r2) := by
  cases r1 with
  | ret o => exact hP.pure _
  | lit l1 =>
      cases r2 with
      | ret o => exact hP.pure _
      | lit l2 => exact hP.map _ (closed_lift hP _ _)

theorem closed_evalBuiltin (pf : Platform) (f : String) (args : List (Literal FL)) :
    P _ (evalBuiltin pf f args) := by
  rcases args with _ | ⟨a, _ | ⟨b, _ | ⟨c, _ | ⟨d, _ | ⟨e, rest⟩⟩⟩⟩⟩
  · exact closed_lift hP _ _
  · exact closed_lift hP _ _
  · exact closed_lift hP _ _
  · exact closed_lift hP _ _
  · exact closed_lift hP _ _
  · exact hP.throw _

omit [TInterpret FL] in
theorem closed_shortCircuit (decided : Bool) {m : EvalM FL (Outcome FL)} (hm : P _ m)
    (r : Outcome FL) : P _ (shortCircuit decided m r) := by
  cases r with
  | ret o => exact hP.pure _
  | lit l =>
      unfold shortCircuit
      dsimp only
      split
      · split
        · exact hP.pure _
        · refine hP.bind hm (fun r => ?_)
          cases r with
          | ret o => exact hP.pure _
          | lit l =>
              unfold boolOperand
              dsimp only
              split
              · exact hP.pure _
              · exact hP.throw _
      · exact hP.throw _

end

/-! ## The unfolding -/

variable {ok : String → Prop} {ev : Expr FL → EvalM FL (Outcome FL)}
variable (hev : ∀ e : Expr FL, e.CallsIn ok → P _ (ev e))

include hev

theorem closed_evalAlternative {a : Option (Expr FL)} (ha : ∀ e ∈ a, e.CallsIn ok) :
    P _ (evalAlternative ev a) := by
  cases a with
  | none => exact hP.pure _
  | some e => exact hev e (ha e rfl)

omit [TFlatTyp FT] [TFlatLiteral FT FL] in
theorem closed_evalAcc {a : Option (String × Expr FL)} (ha : ∀ x ∈ a, x.2.CallsIn ok) :
    P _ (evalAcc ev a) := by
  cases a with
  | none => exact hP.pure _
  | some x => exact hP.map _ (hev x.2 (ha x rfl))

omit [TFlatTyp FT] [TFlatLiteral FT FL] in
/-- A loop evaluates its body once for each element of the list. -/
theorem closed_evalIter {vs : List String} {e2 : Expr FL} (he : e2.CallsIn ok)
    (lits : List (Literal FL)) (acc : Option (Outcome FL)) :
    P _ (evalIter ev vs e2 lits acc) := by
  induction lits generalizing acc with
  | nil => exact hP.pure _
  | cons l ls ih =>
      refine hP.ofExcept_bind (fun e hbind => ?_)
      have hacc : ∀ a ∈ acc.map Outcome.toExpr, a.CallsIn ok := by
        intro a ha
        obtain ⟨o, -, rfl⟩ := Option.map_eq_some_iff.mp ha
        exact callsIn_toExpr o
      refine hP.bind (hev e (callsIn_bindIter he hacc hbind)) (fun r => ?_)
      exact hP.bind (ih _) (fun p => hP.pure _)

/-- What the calls of the functions that satisfy `ok` have, and the evaluations that may call
nothing else, has one more unfolding. -/
theorem closed_evalStep [TInterpret FL] {env : Env FL}
    (hcall : ∀ f, ok f → ∀ isAsync args, P _ (evalCall env ev f isAsync args)) {e : Expr FL}
    (he : e.CallsIn ok) : P _ (evalStep env ev e) := by
  cases e with
  | var x => exact hP.throw _
  | bvar x i => exact hP.throw _
  | litExpr l => exact hP.pure _
  | closure x e => exact hP.throw _
  | returnExpr e => exact hP.map _ (hev e he)
  | prefixExpr p e => exact hP.bind (hev e he) (closed_prefixOp hP _ p)
  | infixExpr op e1 e2 =>
      obtain ⟨h1, h2⟩ := Expr.CallsIn.infix_iff.mp he
      have h1 := hev e1 h1
      have h2 := hev e2 h2
      have hop : P _ (ev e1 >>= fun r1 => ev e2 >>= fun r2 => infixOp env.platform op r1 r2) :=
        hP.bind h1 (fun r1 => hP.bind h2 (closed_infixOp hP _ op r1))
      cases op with
      | and => exact hP.bind h1 (closed_shortCircuit hP false h2)
      | or => exact hP.bind h1 (closed_shortCircuit hP true h2)
      | _ => exact hop
  | blockExpr b es =>
      have hes := Expr.CallsIn.block_iff.mp he
      cases es with
      | nil => cases b <;> exact hP.pure _
      | cons e es =>
          cases b with
          | block =>
              refine hP.bind (hev e (hes e List.mem_cons_self)) (fun res => ?_)
              split
              · exact hP.pure _
              · exact hev _ (Expr.CallsIn.block_iff.mpr
                  (fun e he => hes e (List.mem_cons_of_mem _ he)))
          | _ =>
              refine hP.bind (hP.traverse (fun e he => hev e (hes e he))) (fun rs => ?_)
              split
              · exact hP.pure _
              · exact hP.pure _
  | letExpr vs e1 e2 =>
      obtain ⟨h1, h2⟩ := Expr.CallsIn.let_iff.mp he
      refine hP.bind (hev e1 h1) (fun r => ?_)
      cases r with
      | ret o => exact hP.pure _
      | lit l => exact hP.ofExcept_bind (fun e hb => hev e (callsIn_bindLet h2 hb))
  | iter op vs e1 e2 acc =>
      obtain ⟨h1, h2, ha⟩ := Expr.CallsIn.iter_iff.mp he
      refine hP.bind (hev e1 h1) (fun r => ?_)
      cases r with
      | ret o => exact hP.pure _
      | lit l =>
          cases l with
          | list lits =>
              refine hP.bind (closed_evalAcc hP hev ha) (fun acc => ?_)
              exact hP.bind (closed_evalIter hP hev h2 lits acc)
                (fun p => closed_finishIter hP op lits p.1 p.2)
          | flat f => exact hP.throw _
          | tuple ls => exact hP.throw _
  | ifExpr c t a =>
      obtain ⟨hc, ht, ha⟩ := Expr.CallsIn.if_iff.mp he
      refine hP.bind (hev c hc) (fun r => ?_)
      cases r with
      | ret o => exact hP.pure _
      | lit l =>
          dsimp only
          split
          · exact hev t ht
          · exact closed_evalAlternative hP hev ha
          · exact hP.throw _
  | ifSomeMatchExpr e t a =>
      obtain ⟨h, ht, ha⟩ := Expr.CallsIn.ifSome_iff.mp he
      refine hP.bind (hev e h) (fun r => ?_)
      split
      · exact hP.pure _
      · exact hP.ofExcept_bind (fun e hb => hev e (callsIn_applyTo ht (Expr.CallsIn.lit _) hb))
      · exact closed_evalAlternative hP hev ha
      · exact hP.throw _
  | ifMatchExpr vs ms t a =>
      obtain ⟨hm, ht, ha⟩ := Expr.CallsIn.ifMatch_iff.mp he
      refine hP.bind (hP.traverse (fun m hmem => ?_)) (fun rs => ?_)
      · exact hP.bind (hev m.1 (hm m hmem)) (closed_matchSubject hP _ m.2)
      · split
        · exact hP.pure _
        · split
          · exact closed_evalAlternative hP hev ha
          · exact hP.ofExcept_bind (fun e hb => hev e (callsIn_bindCaptures ht hb))
  | callExpr f args isAsync =>
      obtain ⟨hargs, hf⟩ := Expr.CallsIn.call_iff.mp he
      refine hP.bind (hP.traverse (fun e he => hev e (hargs e he))) (fun rs => ?_)
      split
      · exact hP.pure _
      · exact hcall f hf isAsync _

/-- A user function: its code may call what satisfies `ok`. -/
theorem closed_evalCall_user [TInterpret FL] {env : Env FL} {f : String} {body : Expr FL}
    (hf : env.get f = some body) (hbody : body.CallsIn ok) (isAsync : Bool)
    (args : List (Literal FL)) : P _ (evalCall env ev f isAsync args) := by
  unfold evalCall
  rw [hf]
  refine hP.ofExcept_bind (fun e hb => ?_)
  exact hP.bind (hev e (callsIn_applyAll hbody (callsIn_lits args) hb)) (fun r => hP.pure _)

end

end Armour.Lang
