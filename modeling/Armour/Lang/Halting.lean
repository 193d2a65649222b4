import Armour.Lang.CallByName
import Armour.Lang.Unfolding
import Armour.Lib.Halts
import Armour.Lib.Graph
import Armour.Lang.Program

/-! # Evaluations that halt

An expression halts when the functions that it calls do: every form runs its parts, and a loop
runs its body once for each element.
-/

namespace Armour.Lang

open Armour.Lib

variable {FT FL : Type} [TFlatTyp FT] [TFlatLiteral FT FL]

namespace EvalM

omit [TFlatTyp FT] [TFlatLiteral FT FL] in
theorem halts_log (c : Effect FL) : (log c).Halts := .bind .get (fun _ => .set _)

theorem halts_metaCall (external method : String) (args : List (Literal FL)) :
    (metaCall external method args).Halts := by
  refine .bind (halts_log _) (fun _ => .bind .get (fun w => ?_))
  dsimp only
  generalize Meta.call w.metadata.egressId _ method args = r
  rcases r with _ | ⟨m', l⟩
  · exact .throw _
  · exact .bind (.set _) (fun _ => .pure _)

omit [TFlatTyp FT] [TFlatLiteral FT FL] in
/-- The remote side answers, with a literal or an error. -/
theorem halts_externalCall (env : Env FL) (c : Effect FL) : (externalCall env c).Halts := by
  refine .bind .get (fun w => .bind (halts_log _) (fun _ => ?_))
  split
  · exact .throw _
  · split
    · exact .pure _
    · exact .throw _

end EvalM

section

variable {m : EvalM FL (Outcome FL)} {k : Literal FL → EvalM FL (Outcome FL)}
variable {body : Args FL → EvalM FL (Outcome FL)} {a : Option (EvalM FL (Outcome FL))}

omit [TFlatTyp FT] [TFlatLiteral FT FL] in
theorem halts_onLiteral (hk : ∀ l, (k l).Halts) (r : Outcome FL) : (onLiteral r k).Halts := by
  cases r with
  | ret o => exact .pure _
  | lit l => exact hk l

omit [TFlatTyp FT] [TFlatLiteral FT FL] in
theorem halts_onLiterals {k : List (Literal FL) → EvalM FL (Outcome FL)}
    (hk : ∀ ls, (k ls).Halts) (rs : List (Outcome FL)) : (onLiterals rs k).Halts := by
  unfold onLiterals
  split
  · exact .pure _
  · exact hk _

theorem halts_seqSem {ms : List (EvalM FL (Outcome FL))} (h : ∀ m ∈ ms, m.Halts) :
    (seqSem ms).Halts := by
  induction ms with
  | nil => exact .pure _
  | cons m ms ih =>
      cases ms with
      | nil => exact h m List.mem_cons_self
      | cons m' ms =>
          refine .bind (h m List.mem_cons_self) (fun r => ?_)
          split
          · exact .pure r
          · exact ih (fun m hm => h m (List.mem_cons_of_mem _ hm))

theorem halts_optionSem (ha : ∀ m ∈ a, m.Halts) : (optionSem a).Halts := by
  cases a with
  | none => exact .pure _
  | some m => exact ha m rfl

omit [TFlatTyp FT] [TFlatLiteral FT FL] in
theorem halts_accSem (ha : ∀ m ∈ a, m.Halts) : (accSem a).Halts := by
  cases a with
  | none => exact .pure _
  | some m => exact .map _ (ha m rfl)

omit [TFlatTyp FT] [TFlatLiteral FT FL] in
/-- A loop runs its body once for each element of the list. -/
theorem halts_loopSem (vs : List String) (hbody : ∀ args, (body args).Halts)
    (lits : List (Literal FL)) (acc : Option (Outcome FL)) :
    (loopSem vs body lits acc).Halts := by
  induction lits generalizing acc with
  | nil => exact .pure _
  | cons l ls ih =>
      exact .bind (hbody _) (fun r => .bind (ih _) (fun p => .pure _))

theorem halts_iterSem (op : Iter) (vs : List String) (hbody : ∀ args, (body args).Halts)
    (ha : ∀ m ∈ a, m.Halts) (l : Literal FL) : (iterSem op vs body a l).Halts := by
  cases l with
  | list lits =>
      exact .bind (halts_accSem ha) (fun acc =>
        .bind (halts_loopSem vs hbody lits acc) (fun p => closed_finishIter Comp.Halts.closed op lits p.1 p.2))
  | flat f => exact .throw _
  | tuple ls => exact .throw _

theorem halts_ifSem (hm : m.Halts) (ha : ∀ m ∈ a, m.Halts) (l : Literal FL) :
    (ifSem m a l).Halts := by
  unfold ifSem
  split
  · exact hm
  · exact halts_optionSem ha
  · exact .throw _

theorem halts_ifSomeSem (hbody : ∀ args, (body args).Halts) (ha : ∀ m ∈ a, m.Halts)
    (l : Literal FL) : (ifSomeSem body a l).Halts := by
  unfold ifSomeSem
  split
  · exact hbody _
  · exact halts_optionSem ha
  · exact .throw _

theorem halts_ifMatchSem (vars : List String) (hbody : ∀ args, (body args).Halts)
    (ha : ∀ m ∈ a, m.Halts)
    (rs : List (Outcome FL × Option (List (String × Literal FL)))) :
    (ifMatchSem vars body a rs).Halts := by
  refine halts_onLiterals (fun _ => ?_) _
  split
  · exact halts_optionSem ha
  · exact hbody _

end

section

variable [TInterpret FL] {env : Env FL}

theorem halts_infixSem (pf : Platform) (op : Infix) {m1 m2 : EvalM FL (Outcome FL)}
    (h1 : m1.Halts) (h2 : m2.Halts) : (infixSem pf op m1 m2).Halts := by
  cases op with
  | and => exact .bind h1 (closed_shortCircuit Comp.Halts.closed false h2)
  | or => exact .bind h1 (closed_shortCircuit Comp.Halts.closed true h2)
  | _ => exact .bind h1 (fun r1 => .bind h2 (closed_infixOp Comp.Halts.closed pf _ r1))

/-- Calls of the function halt, whatever the arguments are. -/
def CallHalts (env : Env FL) (f : String) : Prop :=
  ∀ isAsync args, (evalCall env (eval env) f isAsync args).Halts

/-- The expression halts under every assignment, and so does the body that it is. -/
def RunHalts (env : Env FL) (e : Expr FL) : Prop :=
  (∀ ρ, (run env ρ e).Halts) ∧ ∀ ρ a, (runApp env ρ e a).Halts

/-- What is not a closure is not a body that arguments can be given to. -/
theorem RunHalts.of_run {e : Expr FL} (hno : ∀ x e', e ≠ .closure x e')
    (h : ∀ ρ, (run env ρ e).Halts) : RunHalts env e := by
  refine ⟨h, fun ρ a => ?_⟩
  obtain ⟨os, err⟩ := a
  cases os with
  | cons o os =>
      have hcons := runApp_of_not_closure env ρ hno o ⟨os, err⟩
      rw [Args.cons] at hcons
      rw [hcons]
      exact .throw _
  | nil =>
      cases err with
      | none => exact h ρ
      | some err => exact .throw _

theorem RunHalts.closure {x : String} {e : Expr FL} (h : RunHalts env e) :
    RunHalts env (.closure x e) := by
  refine ⟨fun ρ => ?_, fun ρ a => ?_⟩
  · rw [run_closure]
    exact .throw _
  · obtain ⟨os, err⟩ := a
    cases os with
    | cons o os =>
        have hcons := runApp_closure env ρ x e o ⟨os, err⟩
        rw [Args.cons] at hcons
        rw [hcons]
        exact h.2 _ _
    | nil =>
        cases err with
        | none =>
            rw [runApp_nil, run_closure]
            exact .throw _
        | some err => exact .throw _

/-- An expression halts when the functions that it calls do. -/
theorem runHalts (e : Expr FL) (h : e.CallsIn (CallHalts env)) : RunHalts env e := by
  induction e using Expr.ind with
  | var x =>
      refine .of_run (by simp) (fun ρ => ?_)
      rw [run_var]
      exact .throw _
  | bvar x i =>
      refine .of_run (by simp) (fun ρ => ?_)
      rw [run_bvar_eq]
      split
      · exact .pure _
      · exact .throw _
  | litExpr l =>
      refine .of_run (by simp) (fun ρ => ?_)
      rw [run_litExpr]
      exact .pure _
  | returnExpr e ih =>
      refine .of_run (by simp) (fun ρ => ?_)
      rw [run_returnExpr]
      exact .map _ ((ih h).1 ρ)
  | prefixExpr p e ih =>
      refine .of_run (by simp) (fun ρ => ?_)
      rw [run_prefixExpr]
      exact .bind ((ih h).1 ρ) (closed_prefixOp Comp.Halts.closed _ p)
  | infixExpr op e1 e2 ih1 ih2 =>
      obtain ⟨h1, h2⟩ := Expr.CallsIn.infix_iff.mp h
      refine .of_run (by simp) (fun ρ => ?_)
      rw [run_infixExpr]
      exact halts_infixSem _ op ((ih1 h1).1 ρ) ((ih2 h2).1 ρ)
  | blockExpr b es ih =>
      have hes : ∀ e ∈ es, RunHalts env e := fun e he => ih e he (Expr.CallsIn.block_iff.mp h e he)
      refine .of_run (by simp) (fun ρ => ?_)
      by_cases hb : b = .block
      · subst hb
        rw [run_block]
        refine halts_seqSem (fun m hm => ?_)
        obtain ⟨e, he, rfl⟩ := List.mem_map.1 hm
        exact (hes e he).1 ρ
      · by_cases hne : es ≠ [] ∨ b = .list
        · rw [run_list ρ b hb es hne]
          refine .bind (.traverse (fun e he => (hes e he).1 ρ)) (fun rs => ?_)
          exact halts_onLiterals (fun ls => .pure _) rs
        · -- the tuple without elements
          simp only [not_or, not_not] at hne
          rw [hne.1, run_eq ρ _ (by simp) (by simp)]
          cases b with
          | block => exact absurd rfl hb
          | list => exact absurd rfl hne.2
          | tuple => exact .pure _
  | letExpr vs e1 e2 ih1 ih2 =>
      obtain ⟨h1, h2⟩ := Expr.CallsIn.let_iff.mp h
      refine .of_run (by simp) (fun ρ => ?_)
      rw [run_letExpr]
      exact .bind ((ih1 h1).1 ρ) (halts_onLiteral (fun l => (ih2 h2).2 ρ _))
  | iter op vs e1 e2 acc ih1 ih2 iha =>
      obtain ⟨h1, h2, ha⟩ := Expr.CallsIn.iter_iff.mp h
      refine .of_run (by simp) (fun ρ => ?_)
      rw [run_iter]
      refine .bind ((ih1 h1).1 ρ) (halts_onLiteral (halts_iterSem op vs ((ih2 h2).2 ρ) ?_))
      intro m hm
      obtain ⟨a, hmem, rfl⟩ := Option.map_eq_some_iff.1 hm
      exact (iha a hmem (ha a hmem)).1 ρ
  | closure x e ih => exact (ih h).closure
  | ifExpr c t a ihc iht iha =>
      obtain ⟨hc, ht, ha⟩ := Expr.CallsIn.if_iff.mp h
      refine .of_run (by simp) (fun ρ => ?_)
      rw [run_ifExpr]
      refine .bind ((ihc hc).1 ρ) (halts_onLiteral (halts_ifSem ((iht ht).1 ρ) ?_))
      intro m hm
      obtain ⟨e, hmem, rfl⟩ := Option.map_eq_some_iff.1 hm
      exact (iha e hmem (ha e hmem)).1 ρ
  | ifMatchExpr vs ms t a ihm iht iha =>
      obtain ⟨hm, ht, ha⟩ := Expr.CallsIn.ifMatch_iff.mp h
      refine .of_run (by simp) (fun ρ => ?_)
      rw [run_ifMatchExpr]
      refine .bind (.traverse (fun m hmem => ?_)) (fun rs => ?_)
      · exact .bind ((ihm m hmem (hm m hmem)).1 ρ) (closed_matchSubject Comp.Halts.closed _ _)
      · refine halts_ifMatchSem vs ((iht ht).2 ρ) ?_ rs
        intro m hm
        obtain ⟨e, hmem, rfl⟩ := Option.map_eq_some_iff.1 hm
        exact (iha e hmem (ha e hmem)).1 ρ
  | ifSomeMatchExpr e t a ihe iht iha =>
      obtain ⟨he, ht, ha⟩ := Expr.CallsIn.ifSome_iff.mp h
      refine .of_run (by simp) (fun ρ => ?_)
      rw [run_ifSomeMatchExpr]
      refine .bind ((ihe he).1 ρ) (halts_onLiteral (halts_ifSomeSem ((iht ht).2 ρ) ?_))
      intro m hm
      obtain ⟨e, hmem, rfl⟩ := Option.map_eq_some_iff.1 hm
      exact (iha e hmem (ha e hmem)).1 ρ
  | callExpr f args isAsync ih =>
      obtain ⟨hargs, hf⟩ := Expr.CallsIn.call_iff.mp h
      refine .of_run (by simp) (fun ρ => ?_)
      rw [run_callExpr]
      refine .bind (.traverse (fun e he => (ih e he (hargs e he)).1 ρ)) (fun rs => ?_)
      exact halts_onLiterals (hf isAsync) rs

/-! ## Programs -/

/-- Calls in the code of a function. -/
def Program.Calls (p : Program FT FL) (f g : String) : Prop :=
  ∃ e, p.code.get? f = some e ∧ g ∈ e.calls.map Prod.fst

/-- No function calls itself, directly or through others. -/
def Program.Acyclic (p : Program FT FL) : Prop := ∀ f, ¬Relation.TransGen p.Calls f f

omit [TFlatTyp FT] [TFlatLiteral FT FL] [TInterpret FL] in
/-- Without recursion the functions of a program can be recursed on. -/
theorem Program.Acyclic.wellFounded {p : Program FT FL} (h : p.Acyclic) :
    WellFounded (fun g f => p.Calls f g) := by
  refine Graph.wellFounded_of_acyclic
    (p.code.entries.flatMap (fun kv => kv.1 :: kv.2.calls.map Prod.fst)) ?_ h
  rintro f g ⟨e, hf, hg⟩
  have hmem : (f, e) ∈ p.code.entries := (BTreeMap.mem_entries p.code f e).2 hf
  refine ⟨List.mem_flatMap.2 ⟨_, hmem, List.mem_cons_self⟩, ?_⟩
  exact List.mem_flatMap.2 ⟨_, hmem, List.mem_cons_of_mem _ hg⟩

omit [TFlatTyp FT] [TFlatLiteral FT FL] [TInterpret FL] in
theorem Expr.inst_nil (e : Expr FL) (d : Nat) : e.inst [] d = e := by
  have hvar : (Expr.instVar ([] : List (Outcome FL))) = fun _ x j => .bvar x j := by
    funext k x j
    unfold Expr.instVar
    split
    · rfl
    · simp
  rw [Expr.inst, hvar]
  exact Expr.mapVars_id e d

/-- A call of a user function runs its code on the arguments. -/
theorem evalCall_user {f : String} {e : Expr FL} (hf : env.get f = some e) (isAsync : Bool)
    (args : List (Literal FL)) : evalCall env (eval env) f isAsync args =
      Outcome.stripReturn <$> runApp env [] e (.ofLits args) := by
  have hrun : ∀ e, run env [] e = eval env e := fun e => by rw [run, Expr.inst_nil]
  simp only [evalCall, hf, runApp, Args.apply_ofLits, hrun, map_eq_pure_bind,
    bind_assoc]

variable {rt : Runtime FL} {p : Program FT FL}

/-- Calls in a program without recursion halt, if the built-in functions that it calls do. -/
theorem Program.Acyclic.callHalts (h : p.Acyclic)
    (hbuiltin : ∀ f g, p.Calls f g → p.code.get? g = none → ∀ args, (rt.builtin g args).Halts)
    (f : String) (hf : (p.code.get? f).isSome ∨ ∃ f', p.Calls f' f) :
    CallHalts (Env.new rt p) f := by
  induction f using h.wellFounded.induction with
  | _ f ih =>
      intro isAsync args
      cases hget : p.code.get? f with
      | some e =>
          have hcalls : ∀ c ∈ e.calls, CallHalts (Env.new rt p) c.1 := by
            intro c hc
            have hcall : p.Calls f c.1 := ⟨e, hget, List.mem_map_of_mem hc⟩
            exact ih c.1 hcall (Or.inr ⟨f, hcall⟩)
          have hget : (Env.new rt p).get f = some e := hget
          rw [evalCall_user hget]
          exact .map _ ((runHalts e hcalls).2 [] _)
      | none =>
          obtain hno | ⟨f', hcall⟩ := hf
          · rw [hget] at hno
            cases hno
          have hnone : (Env.new rt p).get f = none := hget
          unfold evalCall
          rw [hnone]
          dsimp only
          split
          · exact .map _ (hbuiltin f' f hcall hget args)
          · split
            · split
              · exact .map _ (EvalM.halts_metaCall _ _ _)
              · split
                · exact .bind (EvalM.halts_log _) (fun _ => .pure _)
                · exact .map _ (EvalM.halts_externalCall _ _)
            · exact .throw _

/-- With enough fuel, a call of a function of the program answers, whatever the arguments and
the state are. -/
def Terminates (rt : Runtime FL) (p : Program FT FL) : Prop :=
  ∀ f, (p.code.get? f).isSome → ∀ (args : List (Literal FL)) (w : World FL),
    ∃ n r, (evaluateN (Env.new rt p) n (.call f (args.map .litExpr))).run w = some r

theorem Program.Acyclic.terminates (h : p.Acyclic)
    (hbuiltin : ∀ f g, p.Calls f g → p.code.get? g = none →
      ∀ args, (rt.builtin g args).Halts) : Terminates rt p := by
  intro f hf args w
  have hcall := h.callHalts hbuiltin f (Or.inl hf)
  have hlits : ∀ c ∈ (Expr.call f (args.map .litExpr)).calls, CallHalts (Env.new rt p) c.1 := by
    intro c hc
    have hc : c = (f, (args.map Expr.litExpr : List (Expr FL)).length) := by
      simpa [Expr.call, Expr.calls, Expr.callsList_eq] using hc
    rw [hc]
    exact hcall
  have heval : (eval (Env.new rt p) (.call f (args.map .litExpr))).Halts := by
    have hrun := (runHalts _ hlits).1 []
    rwa [run, Expr.inst_nil] at hrun
  obtain ⟨n, ⟨r, w'⟩, hn⟩ := heval.exists_iterate (evalStep_continuous _) w
  cases r with
  | error e => exact ⟨n, _, Comp.run_bind_error hn⟩
  | ok o => exact ⟨n, _, Comp.run_bind_ok hn⟩

end

end Armour.Lang
