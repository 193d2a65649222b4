import Armour.Lang.CallByName

/-! # Simultaneous substitution

`plug` puts an expression for each of the first indices, raised past the closures it is put
under, so that nothing is captured.  Evaluation of the result is evaluation of the expression
with the values of what was put in.
-/

namespace Armour.Lang

open Armour.Lib

variable {FT FL : Type}

namespace Expr

/-- Every free index grows by `m`. -/
def raise (u : Expr FL) (m : Nat) : Expr FL :=
  mapVars (fun _ x => var x) (fun d x j => if d ≤ j then bvar x (j + m) else bvar x j) 0 u

/-- What stands for index `j` under `k` closures; the name of the index is given to it. -/
def plugVar (σ : List (String → Expr FL)) (k : Nat) (x : String) (j : Nat) : Expr FL :=
  if j < k then bvar x j
  else match σ[j - k]? with
    | some u => (u x).raise k
    | none => bvar x (j - σ.length)

/-- The first indices are replaced, all at once and without capture. -/
def plug (e : Expr FL) (σ : List (String → Expr FL)) : Expr FL :=
  mapVars (fun _ x => var x) (plugVar σ) 0 e

theorem raise_zero (u : Expr FL) : u.raise 0 = u := by
  have hfb : (fun d x j => if d ≤ j then bvar x (j + 0) else bvar x j : Nat → String → Nat →
      Expr FL) = fun _ x j => bvar x j := by
    funext d x j
    simp
  rw [raise, hfb, mapVars_id]

theorem isClosure_raise (u : Expr FL) (m : Nat) : (u.raise m).isClosure = u.isClosure := by
  cases u with
  | bvar x j => rfl
  | iter op vs e1 e2 acc => cases acc <;> rfl
  | ifExpr c t a => cases a <;> rfl
  | ifMatchExpr vs ms t a => cases a <;> rfl
  | ifSomeMatchExpr c t a => cases a <;> rfl
  | _ => rfl

/-- A traversal that puts no closures for variables makes none. -/
theorem isClosure_mapVars {fb : Nat → String → Nat → Expr FL}
    (hfb : ∀ k x j, (fb k x j).isClosure = false) (e : Expr FL) (d : Nat) :
    (mapVars (fun _ x => var x) fb d e).isClosure = e.isClosure := by
  cases e with
  | bvar x j => exact hfb d x j
  | iter op vs e1 e2 acc => cases acc <;> rfl
  | ifExpr c t a => cases a <;> rfl
  | ifMatchExpr vs ms t a => cases a <;> rfl
  | ifSomeMatchExpr c t a => cases a <;> rfl
  | _ => rfl

/-- Two traversals that agree on an expression agree on its variables. -/
theorem allVars_of_mapVars_eq {fb gb : Nat → String → Nat → Expr FL}
    {pb : Nat → String → Nat → Bool}
    (h : ∀ k x j, fb k x j = gb k x j → pb k x j = true) (e : Expr FL) (d : Nat)
    (heq : mapVars (fun _ x => var x) fb d e = mapVars (fun _ x => var x) gb d e) :
    allVars (fun _ _ => true) pb d e = true := by
  induction e using Expr.ind generalizing d with
  | var x => rfl
  | bvar x j => exact h d x j heq
  | litExpr l => rfl
  | returnExpr e ih =>
      simp only [mapVars, returnExpr.injEq] at heq
      exact ih d heq
  | prefixExpr p e ih =>
      simp only [mapVars, prefixExpr.injEq, true_and] at heq
      exact ih d heq
  | infixExpr op e1 e2 ih1 ih2 =>
      simp only [mapVars, infixExpr.injEq, true_and] at heq
      simp only [allVars, ih1 d heq.1, ih2 d heq.2, Bool.and_self]
  | blockExpr b es ih =>
      simp only [mapVars_blockExpr, blockExpr.injEq, true_and, List.map_inj_left] at heq
      simp only [allVars, allVarsList_eq, List.all_eq_true]
      exact fun e he => ih e he d (heq e he)
  | letExpr vs e1 e2 ih1 ih2 =>
      simp only [mapVars, letExpr.injEq, true_and] at heq
      simp only [allVars, ih1 d heq.1, ih2 d heq.2, Bool.and_self]
  | iter op vs e1 e2 acc ih1 ih2 iha =>
      cases acc with
      | none =>
          simp only [mapVars, iter.injEq, true_and, and_true] at heq
          simp only [allVars, ih1 d heq.1, ih2 d heq.2, Bool.and_self]
      | some a =>
          simp only [mapVars, iter.injEq, true_and, Option.some.injEq, Prod.mk.injEq] at heq
          simp only [allVars, ih1 d heq.1, ih2 d heq.2.1, iha a rfl d heq.2.2, Bool.and_self]
  | closure x e ih =>
      simp only [mapVars, closure.injEq, true_and] at heq
      exact ih (d + 1) heq
  | ifExpr c t a ihc iht iha =>
      cases a with
      | none =>
          simp only [mapVars, ifExpr.injEq, and_true] at heq
          simp only [allVars, ihc d heq.1, iht d heq.2, Bool.and_self]
      | some a =>
          simp only [mapVars, ifExpr.injEq, Option.some.injEq] at heq
          simp only [allVars, ihc d heq.1, iht d heq.2.1, iha a rfl d heq.2.2, Bool.and_self]
  | ifMatchExpr vs ms t a ihm iht iha =>
      have hsubjects : ∀ ms' : List (Expr FL × Pattern), ms' ⊆ ms →
          ms'.map (fun m => (mapVars (fun _ x => var x) fb d m.1, m.2)) =
            ms'.map (fun m => (mapVars (fun _ x => var x) gb d m.1, m.2)) →
          allVarsSubjects (fun _ _ => true) pb d ms' = true := by
        intro ms' hsub hms
        rw [allVarsSubjects_eq, List.all_eq_true]
        intro m hm
        exact ihm m (hsub hm) d (Prod.ext_iff.mp (List.map_inj_left.mp hms m hm)).1
      cases a with
      | none =>
          simp only [mapVars_ifMatchExpr, ifMatchExpr.injEq, true_and] at heq
          simp only [allVars, hsubjects ms (List.Subset.refl ms) heq.1, iht d heq.2.1,
            Bool.and_self]
      | some a =>
          simp only [mapVars_ifMatchExpr, ifMatchExpr.injEq, true_and, Option.map_some,
            Option.some.injEq] at heq
          simp only [allVars, hsubjects ms (List.Subset.refl ms) heq.1, iht d heq.2.1,
            iha a rfl d heq.2.2, Bool.and_self]
  | ifSomeMatchExpr c t a ihc iht iha =>
      cases a with
      | none =>
          simp only [mapVars, ifSomeMatchExpr.injEq, and_true] at heq
          simp only [allVars, ihc d heq.1, iht d heq.2, Bool.and_self]
      | some a =>
          simp only [mapVars, ifSomeMatchExpr.injEq, Option.some.injEq] at heq
          simp only [allVars, ihc d heq.1, iht d heq.2.1, iha a rfl d heq.2.2, Bool.and_self]
  | callExpr f args b ih =>
      simp only [mapVars_callExpr, callExpr.injEq, true_and, and_true, List.map_inj_left] at heq
      simp only [allVars, allVarsList_eq, List.all_eq_true]
      exact fun e he => ih e he d (heq e he)

/-- Variables of the result of a traversal, from what it puts for the variables. -/
theorem allVars_mapVars {pv qv : Nat → String → Bool} {pb qb : Nat → String → Nat → Bool}
    {fv : Nat → String → Expr FL} {fb : Nat → String → Nat → Expr FL} (a b : Nat)
    (hv : ∀ c x, qv (c + b) x = true → allVars pv pb (c + a) (fv c x) = true)
    (hb : ∀ c x j, qb (c + b) x j = true → allVars pv pb (c + a) (fb c x j) = true)
    (e : Expr FL) (d : Nat) (h : allVars qv qb (d + b) e = true) :
    allVars pv pb (d + a) (mapVars fv fb d e) = true := by
  induction e using Expr.ind generalizing d with
  | var x => exact hv d x h
  | bvar x j => exact hb d x j h
  | litExpr l => rfl
  | returnExpr e ih => exact ih d h
  | prefixExpr p e ih => exact ih d h
  | infixExpr op e1 e2 ih1 ih2 =>
      simp only [mapVars, allVars, Bool.and_eq_true] at h ⊢
      exact ⟨ih1 d h.1, ih2 d h.2⟩
  | blockExpr b es ih =>
      simp only [mapVars_blockExpr, allVars, allVarsList_eq, List.all_eq_true] at h ⊢
      exact List.forall_mem_map.mpr (fun e he => ih e he d (h e he))
  | letExpr vs e1 e2 ih1 ih2 =>
      simp only [mapVars, allVars, Bool.and_eq_true] at h ⊢
      exact ⟨ih1 d h.1, ih2 d h.2⟩
  | iter op vs e1 e2 acc ih1 ih2 iha =>
      cases acc with
      | none =>
          simp only [mapVars, allVars, Bool.and_eq_true] at h ⊢
          exact ⟨ih1 d h.1, ih2 d h.2⟩
      | some x =>
          simp only [mapVars, allVars, Bool.and_eq_true] at h ⊢
          exact ⟨⟨ih1 d h.1.1, ih2 d h.1.2⟩, iha x rfl d h.2⟩
  | closure x e ih =>
      have hbody := ih (d + 1)
      rw [show d + 1 + a = d + a + 1 by omega, show d + 1 + b = d + b + 1 by omega] at hbody
      exact hbody h
  | ifExpr c t e ihc iht ihe =>
      cases e with
      | none =>
          simp only [mapVars, allVars, Bool.and_eq_true] at h ⊢
          exact ⟨ihc d h.1, iht d h.2⟩
      | some x =>
          simp only [mapVars, allVars, Bool.and_eq_true] at h ⊢
          exact ⟨⟨ihc d h.1.1, iht d h.1.2⟩, ihe x rfl d h.2⟩
  | ifMatchExpr vs ms t e ihm iht ihe =>
      cases e with
      | none =>
          simp only [mapVars_ifMatchExpr, Option.map_none, allVars, allVarsSubjects_eq,
            Bool.and_eq_true, List.all_eq_true] at h ⊢
          exact ⟨List.forall_mem_map.mpr (fun m hm => ihm m hm d (h.1 m hm)), iht d h.2⟩
      | some x =>
          simp only [mapVars_ifMatchExpr, Option.map_some, allVars, allVarsSubjects_eq,
            Bool.and_eq_true, List.all_eq_true] at h ⊢
          exact ⟨⟨List.forall_mem_map.mpr (fun m hm => ihm m hm d (h.1.1 m hm)), iht d h.1.2⟩,
            ihe x rfl d h.2⟩
  | ifSomeMatchExpr c t e ihc iht ihe =>
      cases e with
      | none =>
          simp only [mapVars, allVars, Bool.and_eq_true] at h ⊢
          exact ⟨ihc d h.1, iht d h.2⟩
      | some x =>
          simp only [mapVars, allVars, Bool.and_eq_true] at h ⊢
          exact ⟨⟨ihc d h.1.1, iht d h.1.2⟩, ihe x rfl d h.2⟩
  | callExpr f args b ih =>
      simp only [mapVars_callExpr, allVars, allVarsList_eq, List.all_eq_true] at h ⊢
      exact List.forall_mem_map.mpr (fun e he => ih e he d (h e he))

theorem wellScoped_raise {u : Expr FL} {k : Nat} (h : u.wellScoped k = true) (m : Nat) :
    (u.raise m).wellScoped (m + k) = true := by
  have hraise := @allVars_mapVars FL (fun _ _ => false) (fun _ _ => false) (fun n _ j => j < n)
    (fun n _ j => j < n) (fun _ x => var x)
    (fun d x j => if d ≤ j then bvar x (j + m) else bvar x j) (m + k) k nofun ?_ u 0
  · rw [Nat.zero_add, Nat.zero_add] at hraise
    exact hraise h
  · intro c x j hj
    have hj : j < c + k := by simpa using hj
    by_cases hc : c ≤ j
    · rw [if_pos hc]
      exact decide_eq_true (by omega)
    · rw [if_neg hc]
      exact decide_eq_true (by omega)

/-- What is put in may use the indices from outside. -/
theorem wellScoped_plug {σ : List (String → Expr FL)} {k : Nat}
    (hσ : ∀ u ∈ σ, ∀ x, (u x).wellScoped k = true) {e : Expr FL}
    (h : e.wellScoped σ.length = true) : (e.plug σ).wellScoped k = true := by
  have hplug := @allVars_mapVars FL (fun _ _ => false) (fun _ _ => false) (fun n _ j => j < n)
    (fun n _ j => j < n) (fun _ x => var x) (plugVar σ) k σ.length nofun ?_ e 0
  · rw [Nat.zero_add, Nat.zero_add] at hplug
    exact hplug h
  · intro c x j hj
    have hj : j < c + σ.length := by simpa using hj
    unfold plugVar
    by_cases hc : j < c
    · rw [if_pos hc]
      exact decide_eq_true (by omega)
    · have hlt : j - c < σ.length := by omega
      rw [if_neg hc, List.getElem?_eq_getElem hlt]
      exact wellScoped_raise (hσ _ (List.getElem_mem hlt) x) c

variable [TFlatTyp FT] [TFlatLiteral FT FL]

/-- Raising past what is assigned to the first indices leaves the assignment to the others. -/
theorem raise_inst (os ρ : List (Outcome FL)) (u : Expr FL) :
    (u.raise os.length).inst (os ++ ρ) 0 = u.inst ρ 0 := by
  refine (mapVars_mapVars (fun _ x => var x) (fun _ x => var x)
    (fun d x j => if d ≤ j then bvar x (j + os.length) else bvar x j)
    (instVar (os ++ ρ)) 0 0 u 0).trans ?_
  refine congrArg (fun fb => mapVars (fun _ x => var x) fb 0 u) ?_
  funext k x j
  simp only [Nat.add_zero]
  by_cases hj : k ≤ j
  · have h1 : ¬ j + os.length < k := by omega
    have h2 : ¬ j < k := by omega
    have h3 : os.length ≤ j + os.length - k := by omega
    have h4 : j + os.length - k - os.length = j - k := by omega
    have h5 : j + os.length - (os.length + ρ.length) = j - ρ.length := by omega
    simp only [hj, if_true, mapVars, instVar, h1, h2, if_false, List.getElem?_append_right h3, h4,
      List.length_append, h5]
  · have h1 : j < k := by omega
    simp [hj, mapVars, instVar, h1]

end Expr

section

variable [TFlatTyp FT] [TFlatLiteral FT FL] [TInterpret FL] {env : Env FL}

/-- What is put in has the values of the indices. -/
theorem run_plug {ρ os : List (Outcome FL)} {σ : List (String → Expr FL)}
    (hlen : σ.length = os.length)
    (hσ : ∀ (i : Nat) (u : String → Expr FL) (o : Outcome FL), σ[i]? = some u →
      os[i]? = some o → ∀ x, run env ρ (u x) = pure o)
    (e : Expr FL) : SameRun env ρ (os ++ ρ) (e.plug σ) e := by
  refine sameRun_mapVars ρ (os ++ ρ) (Expr.plugVar σ) (fun _ _ _ => true) 0 ?_ e []
    (Expr.allVars_true e 0)
  intro bs x j _
  rw [Nat.zero_add]
  unfold Expr.plugVar
  by_cases hj : j < bs.length
  · -- bound inside of the expression
    rw [if_pos hj]
    refine ⟨?_, rfl⟩
    rw [run_bvar_eq, run_bvar_eq, List.getElem?_append_left hj, List.getElem?_append_left hj]
  · have hle : bs.length ≤ j := by omega
    rw [if_neg hj]
    cases hu : σ[j - bs.length]? with
    | some u =>
        have hlt : j - bs.length < os.length := hlen ▸ (List.getElem?_eq_some_iff.mp hu).1
        obtain ⟨o, ho⟩ : ∃ o, os[j - bs.length]? = some o :=
          ⟨_, List.getElem?_eq_getElem hlt⟩
        have hval := hσ _ u o hu ho x
        dsimp only
        constructor
        · have hindex : (bs ++ (os ++ ρ))[j]? = some o := by
            rw [List.getElem?_append_right hle, List.getElem?_append_left hlt, ho]
          rw [run, Expr.raise_inst, run_bvar env x hindex]
          exact hval
        · rw [Expr.isClosure_raise, isClosure_of_run hval]
    | none =>
        have hge : os.length ≤ j - bs.length := hlen ▸ List.getElem?_eq_none_iff.mp hu
        have h1 : bs.length ≤ j - os.length := by omega
        have h2 : j - os.length - bs.length = j - bs.length - os.length := by omega
        dsimp only
        refine ⟨?_, rfl⟩
        rw [hlen, run_bvar_eq, run_bvar_eq, List.getElem?_append_right h1,
          List.getElem?_append_right hle, List.getElem?_append_right hge, h2]

/-- An assignment to indices that do not occur does not matter. -/
theorem run_append_of_wellScoped {os : List (Outcome FL)} (ρ : List (Outcome FL)) {e : Expr FL}
    (h : e.wellScoped os.length = true) : run env (os ++ ρ) e = run env os e := by
  have hinst : e.inst (os ++ ρ) 0 = e.inst os 0 := by
    -- what occurs under `k` closures is below `k + os.length`
    have hall : e.allVars (fun _ _ => true) (fun k _ j => j < k + os.length) 0 = true := by
      refine @Expr.allVars_of_forall FL Unit (fun _ => os.length) (fun _ _ _ => false)
        (fun _ k _ j => j < k) _ _ (fun _ _ _ => rfl) (fun k x j hj => hj ()) e 0 (fun _ => ?_)
      rw [Nat.zero_add]
      exact h
    refine Expr.mapVars_congr e 0 hall (fun _ _ _ => rfl) (fun k x j hj => ?_)
    have hj : j < k + os.length := by simpa using hj
    unfold Expr.instVar
    by_cases hk : j < k
    · rw [if_pos hk, if_pos hk]
    · have hlt : j - k < os.length := by omega
      rw [if_neg hk, if_neg hk, List.getElem?_append_left hlt, List.getElem?_eq_getElem hlt]
  rw [run, hinst, run]

end

end Armour.Lang
