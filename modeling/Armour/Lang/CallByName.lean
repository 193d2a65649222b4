import Armour.Lang.Compose

/-! # Traversals and evaluation

`sameRun_mapVars`: a traversal that puts, for every index that occurs, an expression with the
value of the index does not change evaluation.  Two uses: an expression with a value can be
substituted for an index of this value (`sameRun_subst`), and indices that do not occur can have
any value (`run_unused`).
-/

namespace Armour.Lang

open Armour.Lib

variable {FT FL : Type} [TFlatTyp FT] [TFlatLiteral FT FL]

namespace Expr

def isClosure : Expr FL → Bool
  | closure _ _ => true
  | _ => false

omit [TFlatTyp FT] [TFlatLiteral FT FL] in
theorem ne_closure {e : Expr FL} (h : e.isClosure = false) : ∀ x e', e ≠ closure x e' := by
  rintro x e' rfl
  cases h

/-- The index `k` occurs under one more closure at most.  Deeper occurrences of a
substituted expression are not shifted as they should be (`shift` adds one only). -/
def shallow (e : Expr FL) (k : Nat) : Bool :=
  allVars (fun _ _ => true) (fun d _ j => j != d || d ≤ 1) k e

omit [TFlatTyp FT] [TFlatLiteral FT FL] in
theorem isClosure_shift (u : Expr FL) (i d : Nat) : (u.shift i d).isClosure = u.isClosure := by
  unfold shift
  split_ifs
  · rfl
  · cases u with
    | bvar x j =>
        simp only [mapVars]
        split_ifs <;> rfl
    | iter op vs e1 e2 acc => cases acc <;> rfl
    | ifExpr c t a => cases a <;> rfl
    | ifMatchExpr vs ms t a => cases a <;> rfl
    | ifSomeMatchExpr c t a => cases a <;> rfl
    | _ => rfl

omit [TFlatTyp FT] [TFlatLiteral FT FL] in
theorem shift_of_wellScoped {u : Expr FL} (h : u.wellScoped 0 = true) (i : Nat) :
    u.shift i 0 = u := by
  unfold shift
  split_ifs
  · rfl
  · refine (mapVars_congr u 0 h (fun k x hk => rfl) (fun k x j hj => ?_)).trans (mapVars_id u 0)
    have hj : j < k := by simpa using hj
    have hj' : ¬ k ≤ j := by omega
    simp [hj']

end Expr

section

variable [TInterpret FL]

theorem run_bvar_eq (env : Env FL) (ρ : List (Outcome FL)) (x : String) (j : Nat) :
    run env ρ (.bvar x j) = match ρ[j]? with
      | some o => pure o
      | none => Comp.throw (.text "eval variable") := by
  cases h : ρ[j]? with
  | some o => exact run_bvar env x h
  | none =>
      have hinst : (Expr.bvar x j : Expr FL).inst ρ 0 = .bvar x (j - ρ.length) := by
        simp [Expr.inst, Expr.mapVars, Expr.instVar, h]
      rw [run, hinst, eval_eq]
      rfl

/-- Two expressions under two assignments evaluate alike, on all arguments. -/
def SameRun (env : Env FL) (ρ' ρ : List (Outcome FL)) (e' e : Expr FL) : Prop :=
  ∀ a, runApp env ρ' e' a = runApp env ρ e a

theorem SameRun.run {env : Env FL} {ρ' ρ : List (Outcome FL)} {e' e : Expr FL}
    (h : SameRun env ρ' ρ e' e) : run env ρ' e' = run env ρ e :=
  h ⟨[], none⟩

/-- Two expressions that are not closures are applied alike when they run alike. -/
theorem SameRun.of_run (env : Env FL) {ρ' ρ : List (Outcome FL)} {e' e : Expr FL}
    (he' : e'.isClosure = false) (he : e.isClosure = false)
    (h : Lang.run env ρ' e' = Lang.run env ρ e) : SameRun env ρ' ρ e' e := by
  rintro ⟨os, err⟩
  cases os with
  | nil =>
      cases err with
      | none => exact h
      | some err => rfl
  | cons o os =>
      rw [show (⟨o :: os, err⟩ : Args FL) = Args.cons o ⟨os, err⟩ from rfl,
        runApp_of_not_closure env ρ' (Expr.ne_closure he'),
        runApp_of_not_closure env ρ (Expr.ne_closure he)]

theorem SameRun.closure {env : Env FL} {ρ' ρ : List (Outcome FL)} {e' e : Expr FL} (x : String)
    (h : ∀ o, SameRun env (o :: ρ') (o :: ρ) e' e) (hrun : Lang.run env ρ' (.closure x e') =
      Lang.run env ρ (.closure x e)) : SameRun env ρ' ρ (.closure x e') (.closure x e) := by
  rintro ⟨os, err⟩
  cases os with
  | nil =>
      cases err with
      | none => exact hrun
      | some err => rfl
  | cons o os =>
      rw [show (⟨o :: os, err⟩ : Args FL) = Args.cons o ⟨os, err⟩ from rfl,
        runApp_closure, runApp_closure, h o]

section

variable {env : Env FL} {ρ : List (Outcome FL)}

/-- What a traversal puts for an index has the value of the index. -/
theorem sameRun_mapVars (ρ' ρ : List (Outcome FL)) (fb : Nat → String → Nat → Expr FL)
    (pb : Nat → String → Nat → Bool) (d : Nat)
    (hvar : ∀ (os : List (Outcome FL)) x j, pb (d + os.length) x j = true →
      run env (os ++ ρ') (fb (d + os.length) x j) = run env (os ++ ρ) (.bvar x j) ∧
        (fb (d + os.length) x j).isClosure = false)
    (e : Expr FL) (os : List (Outcome FL))
    (h : e.allVars (fun _ _ => true) pb (d + os.length) = true) :
    SameRun env (os ++ ρ') (os ++ ρ) (e.mapVars (fun _ x => .var x) fb (d + os.length)) e := by
  -- By induction on the expression; a closure moves its argument to the assignment.
  induction e using Expr.ind generalizing os with
  | var x => exact .of_run env rfl rfl (by rw [Expr.mapVars, run_var, run_var])
  | bvar x j =>
      obtain ⟨heq, hnc⟩ := hvar os x j h
      exact .of_run env hnc rfl heq
  | litExpr l => exact .of_run env rfl rfl (by rw [Expr.mapVars, run_litExpr, run_litExpr])
  | returnExpr e ih =>
      refine .of_run env rfl rfl ?_
      rw [Expr.mapVars, run_returnExpr, run_returnExpr, (ih os h).run]
  | prefixExpr p e ih =>
      refine .of_run env rfl rfl ?_
      rw [Expr.mapVars, run_prefixExpr, run_prefixExpr, (ih os h).run]
  | infixExpr op e1 e2 ih1 ih2 =>
      simp only [Expr.allVars, Bool.and_eq_true] at h
      refine .of_run env rfl rfl ?_
      rw [Expr.mapVars, run_infixExpr, run_infixExpr, (ih1 os h.1).run,
        (ih2 os h.2).run]
  | blockExpr b es ih =>
      simp only [Expr.allVars, Expr.allVarsList_eq, List.all_eq_true] at h
      rw [Expr.mapVars_blockExpr]
      refine .of_run env rfl rfl ?_
      have hes : ∀ e ∈ es, _ := fun e he => (ih e he os (h e he)).run
      exact run_blockExpr_congr b hes
  | letExpr vs e1 e2 ih1 ih2 =>
      simp only [Expr.allVars, Bool.and_eq_true] at h
      refine .of_run env rfl rfl ?_
      rw [Expr.mapVars, run_letExpr, run_letExpr, (ih1 os h.1).run]
      simp only [ih2 os h.2 _]
  | iter op vs e1 e2 acc ih1 ih2 iha =>
      rw [Expr.mapVars_iter]
      refine .of_run env rfl rfl ?_
      rw [run_iter, run_iter]
      cases acc with
      | none =>
          simp only [Expr.allVars, Bool.and_eq_true] at h
          simp only [(ih1 os h.1).run, funext (ih2 os h.2), Option.map_none]
      | some p =>
          simp only [Expr.allVars, Bool.and_eq_true] at h
          simp only [(ih1 os h.1.1).run, funext (ih2 os h.1.2), Option.map_some,
            (iha p rfl os h.2).run]
  | closure x e ih =>
      refine .closure x (fun o => ih (o :: os) h) ?_
      rw [run_closure, run_closure]
  | ifExpr c t a ihc iht iha =>
      rw [Expr.mapVars_ifExpr]
      refine .of_run env rfl rfl ?_
      rw [run_ifExpr, run_ifExpr]
      cases a with
      | none =>
          simp only [Expr.allVars, Bool.and_eq_true] at h
          simp only [(ihc os h.1).run, (iht os h.2).run, Option.map_none]
      | some a =>
          simp only [Expr.allVars, Bool.and_eq_true] at h
          simp only [(ihc os h.1.1).run, (iht os h.1.2).run, Option.map_some,
            (iha a rfl os h.2).run]
  | ifMatchExpr vs ms t a ihm iht iha =>
      rw [Expr.mapVars_ifMatchExpr]
      refine .of_run env rfl rfl ?_
      rw [run_ifMatchExpr, run_ifMatchExpr, Comp.traverse_map]
      cases a with
      | none =>
          simp only [Expr.allVars, Expr.allVarsSubjects_eq, Bool.and_eq_true,
            List.all_eq_true] at h
          simp only [funext (iht os h.2), Option.map_none]
          refine congrArg (· >>= _) (Comp.traverse_congr (fun m hm => ?_))
          rw [(ihm m hm os (h.1 m hm)).run]
      | some a =>
          simp only [Expr.allVars, Expr.allVarsSubjects_eq, Bool.and_eq_true,
            List.all_eq_true] at h
          simp only [funext (iht os h.1.2), Option.map_some, (iha a rfl os h.2).run]
          refine congrArg (· >>= _) (Comp.traverse_congr (fun m hm => ?_))
          rw [(ihm m hm os (h.1.1 m hm)).run]
  | ifSomeMatchExpr e t a ihe iht iha =>
      rw [Expr.mapVars_ifSomeMatchExpr]
      refine .of_run env rfl rfl ?_
      rw [run_ifSomeMatchExpr, run_ifSomeMatchExpr]
      cases a with
      | none =>
          simp only [Expr.allVars, Bool.and_eq_true] at h
          simp only [(ihe os h.1).run, funext (iht os h.2), Option.map_none]
      | some a =>
          simp only [Expr.allVars, Bool.and_eq_true] at h
          simp only [(ihe os h.1.1).run, funext (iht os h.1.2), Option.map_some,
            (iha a rfl os h.2).run]
  | callExpr f args b ih =>
      simp only [Expr.allVars, Expr.allVarsList_eq, List.all_eq_true] at h
      rw [Expr.mapVars_callExpr]
      refine .of_run env rfl rfl ?_
      rw [run_callExpr, run_callExpr, Comp.traverse_map]
      refine congrArg (· >>= _) (Comp.traverse_congr (fun e he => ?_))
      exact (ih e he os (h e he)).run

/-- What has a value is not a closure. -/
theorem isClosure_of_run {u : Expr FL} {o : Outcome FL} (hu : run env ρ u = pure o) :
    u.isClosure = false := by
  cases u with
  | closure x u =>
      rw [run_closure] at hu
      exact absurd hu (Comp.throw_ne_pure _ _)
  | _ => rfl

end

/-! ## Indices that do not occur -/

/-- The first `n` indices of an assignment do not matter if they do not occur. -/
theorem run_unused {env : Env FL} (ρ : List (Outcome FL)) {os os' : List (Outcome FL)}
    (hlen : os'.length = os.length) (e : Expr FL) (h : ∀ u < os.length, e.isFree u = true) :
    run env (os' ++ ρ) e = run env (os ++ ρ) e := by
  have hall : e.allVars (fun _ _ => true)
      (fun d _ j => !decide (d ≤ j ∧ j < d + os.length)) 0 = true := by
    have hfree : ∀ u : Fin os.length,
        e.allVars (fun _ _ => true) (fun k _ j => j != k) (0 + u.val) = true := by
      intro u
      rw [Nat.zero_add]
      exact h u.val u.isLt
    refine Expr.allVars_of_forall (fun u : Fin os.length => u.val) (fun _ _ _ => rfl)
      (fun k x j hj => ?_) e 0 hfree
    have hj : ∀ u : Fin os.length, j ≠ k + u.val := by simpa using hj
    have hno : ¬ (k ≤ j ∧ j < k + os.length) :=
      fun hjk => hj ⟨j - k, by omega⟩ (by simp; omega)
    simp [hno]
  have hmain : SameRun env (os' ++ ρ) (os ++ ρ) (e.mapVars _ _ 0) e :=
    sameRun_mapVars (os' ++ ρ) (os ++ ρ) (fun _ x j => .bvar x j) _ 0
      (fun os₀ x j hj => ?_) e [] hall
  · have := hmain.run
    rwa [Expr.mapVars_id] at this
  · refine ⟨?_, rfl⟩
    rw [Nat.zero_add] at hj
    have hj : ¬ (os₀.length ≤ j ∧ j < os₀.length + os.length) := by
      simpa only [Bool.not_eq_true', decide_eq_false_iff_not] using hj
    rw [run_bvar_eq, run_bvar_eq]
    rcases Nat.lt_or_ge j os₀.length with h1 | h1
    · rw [List.getElem?_append_left h1, List.getElem?_append_left h1]
    · have h2 : os.length ≤ j - os₀.length := by omega
      rw [List.getElem?_append_right h1, List.getElem?_append_right h1,
        List.getElem?_append_right h2, List.getElem?_append_right (hlen ▸ h2), hlen]

end

end Armour.Lang
