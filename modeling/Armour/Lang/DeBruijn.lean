import Armour.Lang.Plugging
import Mathlib.Order.Filter.AtTopBot.Basic
import Mathlib.Order.Filter.Finite
import Mathlib.Order.Filter.AtTopBot.Finite

/-! # Laws of De Bruijn indices

`shift` and `subst` of `armour-lang/src/expressions.rs` against what they stand for.  `shift`
adds one instead of its argument, so what is substituted under two or more closures refers to
the wrong index, one of a closure that captures it for example.
-/

namespace Armour.Lang

open Armour.Lib Filter

variable {FT FL : Type}

namespace Expr

/-- Every index from the cutoff `d` on grows by `i`. -/
def raiseFrom (e : Expr FL) (i d : Nat) : Expr FL :=
  mapVars (fun _ x => var x) (fun d x j => if d ≤ j then bvar x (j + i) else bvar x j) d e

/-- No index from `n` on occurs. -/
def indexBelow (e : Expr FL) (n : Nat) : Bool :=
  allVars (fun _ _ => true) (fun n _ j => j < n) n e

/-- What a closed expression has for index `j` under `k` closures: outcomes for the indices
around the one that stands for `c`. -/
def closeVar (pre : List (Outcome FL)) (c : Expr FL) (post : List (Outcome FL)) (k : Nat)
    (x : String) (j : Nat) : Expr FL :=
  if j < k then bvar x j
  else match (pre.map Outcome.toExpr ++ c :: post.map Outcome.toExpr)[j - k]? with
    | some e => e
    | none => bvar x (j - (pre.length + 1 + post.length))

/-- The expression with its indices assigned, the one after those of `pre` to the closed `c`. -/
def close (e : Expr FL) (pre : List (Outcome FL)) (c : Expr FL) (post : List (Outcome FL)) :
    Expr FL :=
  mapVars (fun _ x => var x) (closeVar pre c post) 0 e

/-- Under every assignment that closes both, `u` in place of index `i` is the closed `u`. -/
def CaptureAvoiding (e : Expr FL) (i : Nat) (u : Expr FL) : Prop :=
  ∀ pre post : List (Outcome FL), pre.length = i →
    e.indexBelow (i + 1 + post.length) = true → u.indexBelow post.length = true →
      (e.subst i u true).inst (pre ++ post) 0 = e.close pre (u.inst post 0) post

/-! ## Offsets of the binding depth -/

theorem allVars_offset (pb : Nat → String → Nat → Bool) (n : Nat) (e : Expr FL) (d : Nat) :
    allVars (fun _ _ => true) pb (d + n) e = true ↔
      allVars (fun _ _ => true) (fun k => pb (k + n)) d e = true := by
  constructor
  · intro h
    exact @allVars_of_forall FL Unit (fun _ => n) (fun _ _ _ => true) (fun _ => pb) _ _
      (fun _ _ _ => rfl) (fun k x j hj => hj ()) e d (fun _ => h)
  · intro h
    have hmap := @allVars_mapVars FL (fun _ _ => true) (fun _ _ => true) pb (fun k => pb (k + n))
      (fun _ x => var x) (fun _ x j => bvar x j) n 0 (fun _ _ _ => rfl) (fun c x j hj => hj) e d h
    rwa [mapVars_id] at hmap

theorem indexBelow_iff (e : Expr FL) (n : Nat) :
    e.indexBelow n = true ↔
      allVars (fun _ _ => true) (fun k _ j => j < k + n) 0 e = true := by
  have h := allVars_offset (fun k _ j => decide (j < k)) n e 0
  rwa [Nat.zero_add] at h

/-- What holds of every index. -/
theorem allVars_and {pb qb rb : Nat → String → Nat → Bool} {e : Expr FL} {d : Nat}
    (h : ∀ k x j, pb k x j = true → qb k x j = true → rb k x j = true)
    (hp : allVars (fun _ _ => true) pb d e = true)
    (hq : allVars (fun _ _ => true) qb d e = true) :
    allVars (fun _ _ => true) rb d e = true := by
  refine @allVars_of_forall FL Bool (fun _ => 0) (fun _ _ _ => true)
    (fun b => if b then pb else qb) _ _ (fun _ _ _ => rfl) ?_ e d ?_
  · intro k x j hj
    exact h k x j (hj true) (hj false)
  · intro b
    cases b with
    | false => exact hq
    | true => exact hp

/-! ## Shifting -/

theorem raiseFrom_eq_self {e : Expr FL} {d : Nat} (h : e.indexBelow d = true) (i : Nat) :
    e.raiseFrom i d = e := by
  refine (mapVars_congr e d h (fun _ _ _ => rfl) (fun k x j hj => ?_)).trans (mapVars_id e d)
  have hlt : j < k := by simpa using hj
  have hle : ¬ k ≤ j := by omega
  simp [hle]

theorem shift_eq_self {e : Expr FL} {d : Nat} (h : e.indexBelow d = true) (i : Nat) :
    e.shift i d = e := by
  unfold shift
  split_ifs
  · rfl
  · exact raiseFrom_eq_self h 1

theorem raiseFrom_zero (e : Expr FL) (d : Nat) : e.raiseFrom 0 d = e := by
  have hfb : (fun d x j => if d ≤ j then bvar x (j + 0) else bvar x j : Nat → String → Nat →
      Expr FL) = fun _ x j => bvar x j := by
    funext d x j
    simp
  rw [raiseFrom, hfb, mapVars_id]

/-- A shift adds what it should when this is at most one, or where there is nothing to shift. -/
theorem shift_eq_raiseFrom_iff (e : Expr FL) (i d : Nat) :
    e.shift i d = e.raiseFrom i d ↔ i ≤ 1 ∨ e.indexBelow d = true := by
  match i with
  | 0 =>
      have hzero : e.shift 0 d = e := rfl
      rw [hzero, raiseFrom_zero]
      simp
  | 1 => exact iff_of_true rfl (Or.inl (Nat.le_refl 1))
  | i + 2 =>
      constructor
      · intro h
        refine Or.inr (allVars_of_mapVars_eq (fun k x j hj => ?_) e d h)
        by_contra hlt
        have hle : k ≤ j := by simpa using hlt
        simp only [hle, if_true, bvar.injEq, true_and] at hj
        omega
      · rintro (h | h)
        · omega
        · rw [shift_eq_self h, raiseFrom_eq_self h]

/-! ## Closing -/

section

variable (pre post : List (Outcome FL))

theorem raise_eq (u : Expr FL) (m : Nat) : u.raise m = u.raiseFrom m 0 := rfl

/-- A closed expression that was raised past `k` closures and the outcomes of `pre`. -/
theorem raise_close {u : Expr FL} (h : u.indexBelow post.length = true) (k : Nat) :
    mapVars (fun _ x => var x) (instVar (pre ++ post)) k (u.raise (k + pre.length)) =
      u.inst post 0 := by
  have hcomp := mapVars_mapVars (fun _ x => var x) (fun _ x => var x)
    (fun d x j => if d ≤ j then bvar x (j + (k + pre.length)) else bvar x j)
    (instVar (pre ++ post)) k 0 u 0
  rw [Nat.zero_add] at hcomp
  refine hcomp.trans (mapVars_congr u 0 ((indexBelow_iff u post.length).mp h)
    (fun _ _ _ => rfl) (fun c x j hj => ?_))
  have hlt : j < c + post.length := by simpa using hj
  by_cases hc : c ≤ j
  · -- a free index of `u`
    have h1 : ¬ j + (k + pre.length) < c + k := by omega
    have h2 : ¬ j < c := by omega
    have h3 : pre.length ≤ j + (k + pre.length) - (c + k) := by omega
    have h4 : j + (k + pre.length) - (c + k) - pre.length = j - c := by omega
    obtain ⟨o, ho⟩ : ∃ o, post[j - c]? = some o :=
      ⟨_, List.getElem?_eq_getElem (by omega : j - c < post.length)⟩
    simp only [Nat.add_zero, hc, if_true, mapVars, instVar, h1, h2, if_false,
      List.getElem?_append_right h3, h4, ho]
  · have h1 : j < c + k := by omega
    have h2 : j < c := by omega
    simp only [Nat.add_zero, hc, if_false, mapVars, instVar, h1, h2, if_true]

/-- What a substitution and then an assignment have for an index that is not the one
substituted for. -/
theorem close_of_ne (c u : Expr FL) {k j : Nat} (x : String) (h : j ≠ k + pre.length) :
    mapVars (fun _ x => var x) (instVar (pre ++ post)) k
        (substVar u true (k + pre.length) x j) = closeVar pre c post k x j := by
  unfold substVar closeVar
  rcases Nat.lt_or_gt_of_ne h with hlt | hgt
  · rw [if_pos hlt]
    show instVar (pre ++ post) k x j = _
    unfold instVar
    by_cases hk : j < k
    · rw [if_pos hk, if_pos hk]
    · have hpre : j - k < pre.length := by omega
      have hmap : j - k < (pre.map Outcome.toExpr).length := by simpa using hpre
      rw [if_neg hk, if_neg hk, List.getElem?_append_left hpre, List.getElem?_append_left hmap,
        List.getElem?_map, List.getElem?_eq_getElem hpre]
      rfl
  · rw [if_neg (by omega), if_neg (by omega), if_pos rfl]
    show instVar (pre ++ post) k x (j - 1) = _
    unfold instVar
    have hmap : (pre.map Outcome.toExpr).length ≤ j - k := by
      rw [List.length_map]
      omega
    have hsucc : j - k - (pre.map Outcome.toExpr).length = (j - 1 - k - pre.length) + 1 := by
      rw [List.length_map]
      omega
    rw [if_neg (by omega), if_neg (by omega), List.getElem?_append_right (by omega),
      List.getElem?_append_right hmap, hsucc, List.getElem?_cons_succ, List.getElem?_map]
    cases hpost : post[j - 1 - k - pre.length]? with
    | some o => rfl
    | none =>
        have hbeyond : j - 1 - (pre ++ post).length = j - (pre.length + 1 + post.length) := by
          rw [List.length_append]
          omega
        rw [hbeyond]
        rfl

theorem closeVar_self (c : Expr FL) (k : Nat) (x : String) :
    closeVar pre c post k x (k + pre.length) = c := by
  unfold closeVar
  rw [if_neg (by omega)]
  simp

/-- Substitution and then an assignment, as one traversal. -/
theorem subst_inst_eq (e u : Expr FL) :
    (e.subst pre.length u true).inst (pre ++ post) 0 =
      mapVars (fun _ x => var x) (fun k x j =>
        mapVars (fun _ x => var x) (instVar (pre ++ post)) k
          (substVar u true (k + pre.length) x j)) 0 e := by
  have h := mapVars_mapVars (fun _ x => var x) (fun _ x => var x) (substVar u true)
    (instVar (pre ++ post)) 0 pre.length e 0
  simp only [Nat.zero_add, Nat.add_zero] at h
  exact h

end

/-- What is substituted is at the right index where it has no index, or under at most one
closure. -/
theorem captureAvoiding_of {e u : Expr FL} {i : Nat}
    (h : u.indexBelow 0 = true ∨ e.shallow i = true) : CaptureAvoiding e i u := by
  rintro pre post rfl _ hu
  rw [subst_inst_eq]
  have main : ∀ pb : Nat → String → Nat → Bool,
      (∀ k x, pb k x (k + pre.length) = true →
        u.shift (k + pre.length) 0 = u.raise (k + pre.length)) →
      allVars (fun _ _ => true) pb 0 e = true →
      mapVars (fun _ x => var x) (fun k x j =>
        mapVars (fun _ x => var x) (instVar (pre ++ post)) k
          (substVar u true (k + pre.length) x j)) 0 e = e.close pre (u.inst post 0) post := by
    intro pb hself hall
    refine mapVars_congr e 0 hall (fun _ _ _ => rfl) (fun k x j hj => ?_)
    by_cases hjk : j = k + pre.length
    · subst hjk
      rw [closeVar_self, ← raise_close pre post hu k, ← hself k x hj]
      unfold substVar
      rw [if_neg (Nat.lt_irrefl _), if_pos rfl, if_pos rfl]
    · exact close_of_ne pre post (u.inst post 0) u x hjk
  rcases h with hclosed | hshallow
  · refine main (fun _ _ _ => true) (fun k x _ => ?_) (allVars_true e 0)
    exact (shift_eq_raiseFrom_iff u _ 0).mpr (Or.inr hclosed)
  · have hall := (allVars_offset (fun d _ j => j != d || decide (d ≤ 1)) pre.length e 0).mp
      (by rwa [Nat.zero_add])
    refine main _ (fun k x hj => ?_) hall
    exact (shift_eq_raiseFrom_iff u _ 0).mpr (Or.inl (by simpa using hj))

/-! ## Where an index is captured -/

/-- Every expression has finitely many indices. -/
theorem eventually_allVars (e : Expr FL) (d : Nat) :
    ∀ᶠ m in atTop, allVars (fun _ _ => true) (fun k _ j => j < k + m) d e = true := by
  induction e using Expr.ind generalizing d with
  | var x => exact Eventually.of_forall (fun _ => rfl)
  | bvar x j =>
      filter_upwards [eventually_gt_atTop j] with m hm
      simp only [allVars, decide_eq_true_eq]
      omega
  | litExpr l => exact Eventually.of_forall (fun _ => rfl)
  | returnExpr e ih => exact ih d
  | prefixExpr p e ih => exact ih d
  | infixExpr op e1 e2 ih1 ih2 =>
      filter_upwards [ih1 d, ih2 d] with m h1 h2
      simp only [allVars, h1, h2, Bool.and_self]
  | blockExpr b es ih =>
      simp only [allVars, allVarsList_eq, List.all_eq_true]
      exact (List.finite_toSet es).eventually_all.mpr (fun e he => ih e he d)
  | letExpr vs e1 e2 ih1 ih2 =>
      filter_upwards [ih1 d, ih2 d] with m h1 h2
      simp only [allVars, h1, h2, Bool.and_self]
  | iter op vs e1 e2 acc ih1 ih2 iha =>
      cases acc with
      | none =>
          filter_upwards [ih1 d, ih2 d] with m h1 h2
          simp only [allVars, h1, h2, Bool.and_self]
      | some a =>
          filter_upwards [ih1 d, ih2 d, iha a rfl d] with m h1 h2 h3
          simp only [allVars, h1, h2, h3, Bool.and_self]
  | closure x e ih => exact ih (d + 1)
  | ifExpr c t a ihc iht iha =>
      cases a with
      | none =>
          filter_upwards [ihc d, iht d] with m h1 h2
          simp only [allVars, h1, h2, Bool.and_self]
      | some a =>
          filter_upwards [ihc d, iht d, iha a rfl d] with m h1 h2 h3
          simp only [allVars, h1, h2, h3, Bool.and_self]
  | ifMatchExpr vs ms t a ihm iht iha =>
      have hms : ∀ᶠ m in atTop,
          allVarsSubjects (fun _ _ => true) (fun k _ j => decide (j < k + m)) d ms = true := by
        simp only [allVarsSubjects_eq, List.all_eq_true]
        exact (List.finite_toSet ms).eventually_all.mpr (fun s hs => ihm s hs d)
      cases a with
      | none =>
          filter_upwards [hms, iht d] with m h1 h2
          simp only [allVars, h1, h2, Bool.and_self]
      | some a =>
          filter_upwards [hms, iht d, iha a rfl d] with m h1 h2 h3
          simp only [allVars, h1, h2, h3, Bool.and_self]
  | ifSomeMatchExpr c t a ihc iht iha =>
      cases a with
      | none =>
          filter_upwards [ihc d, iht d] with m h1 h2
          simp only [allVars, h1, h2, Bool.and_self]
      | some a =>
          filter_upwards [ihc d, iht d, iha a rfl d] with m h1 h2 h3
          simp only [allVars, h1, h2, h3, Bool.and_self]
  | callExpr f args b ih =>
      simp only [allVars, allVarsList_eq, List.all_eq_true]
      exact (List.finite_toSet args).eventually_all.mpr (fun e he => ih e he d)

/-- Outcomes that tell apart the places of an assignment. -/
def marker (n : Nat) : Outcome FL := .lit (.list (List.replicate n (.list [])))

theorem getElem?_markers {i m n : Nat} (h : n < i + m) :
    ((List.range i).map marker ++ (List.range m).map (fun n => marker (i + n)))[n]? =
      some (marker n : Outcome FL) := by
  have happend : ((List.range i).map marker ++ (List.range m).map (fun n => marker (i + n)) :
      List (Outcome FL)) = (List.range (i + m)).map marker := by
    rw [List.range_add, List.map_append, List.map_map]
    rfl
  rw [happend, List.getElem?_map, List.getElem?_range h]
  rfl

theorem marker_toExpr_inj {m n : Nat}
    (h : (marker m : Outcome FL).toExpr = (marker n).toExpr) : m = n := by
  simp only [marker, Outcome.toExpr, litExpr.injEq, Literal.list.injEq] at h
  simpa using congrArg List.length h

theorem toExpr_ne_bvar (o : Outcome FL) (x : String) (j : Nat) : bvar x j ≠ o.toExpr := by
  intro h
  cases o <;> cases h

/-- Under two closures, or past some outcomes, a shift is wrong for each free index. -/
theorem indexBelow_zero_of_shift {u : Expr FL} {i k m : Nat} (hdeep : 2 ≤ k + i)
    (hu : u.indexBelow m = true)
    (h : mapVars (fun _ x => var x) (instVar ((List.range i).map marker ++
          (List.range m).map (fun n => marker (i + n)))) k (u.shift (k + i) 0) =
      u.inst ((List.range m).map (fun n => marker (i + n))) 0) : u.indexBelow 0 = true := by
  have hne : ¬ k + i = 0 := by omega
  have hshift : u.shift (k + i) 0 =
      mapVars (fun _ x => var x) (fun d x j => if d ≤ j then bvar x (j + 1) else bvar x j) 0 u :=
    if_neg hne
  have hcomp := mapVars_mapVars (fun _ x => var x) (fun _ x => var x)
    (fun d x j => if d ≤ j then bvar x (j + 1) else bvar x j)
    (instVar ((List.range i).map marker ++ (List.range m).map (fun n => marker (i + n))))
    k 0 u 0
  rw [Nat.zero_add] at hcomp
  rw [hshift, hcomp] at h
  -- an index of `u` below `m` that is free has two different places
  have hboth : allVars (fun _ _ => true)
      (fun c _ j => !decide (j < c + m) || decide (j < c)) 0 u = true := by
    refine allVars_of_mapVars_eq (fun c x j heq => ?_) u 0 h
    by_cases hm : j < c + m
    · by_cases hc : j < c
      · simp [hc]
      · exfalso
        have hle : c ≤ j := by omega
        have hget : ((List.range m).map (fun n => marker (i + n)) : List (Outcome FL))[j - c]? =
            some (marker (i + (j - c))) := by
          rw [List.getElem?_map, List.getElem?_range (by omega)]
          rfl
        simp only [Nat.add_zero, hle, if_true, mapVars] at heq
        rw [instVar, instVar, if_neg hc, hget] at heq
        by_cases hcap : j + 1 < c + k
        · rw [if_pos hcap] at heq
          exact toExpr_ne_bvar _ _ _ heq
        · rw [if_neg hcap, getElem?_markers (by omega)] at heq
          have hplace := marker_toExpr_inj heq
          omega
    · simp [hm]
  refine allVars_and (fun c x j hlt heq => ?_) ((indexBelow_iff u m).mp hu) hboth
  simp only [decide_eq_true_eq] at hlt
  simpa [hlt] using heq

/-- Where more than one closure or outcome is passed, only what has no index is put in without
capture. -/
theorem of_captureAvoiding {e u : Expr FL} {i : Nat} (h : CaptureAvoiding e i u) :
    u.indexBelow 0 = true ∨ e.shallow i = true := by
  rw [or_iff_not_imp_left]
  intro hopen
  -- an assignment that closes both and tells its places apart
  obtain ⟨m, hm⟩ := ((eventually_allVars e 0).and (eventually_allVars u 0)).exists
  have heq := h ((List.range i).map marker) ((List.range m).map (fun n => marker (i + n)))
    (by simp) ?_ ?_
  · have hlen : ((List.range i).map marker : List (Outcome FL)).length = i := by simp
    have hinst := subst_inst_eq ((List.range i).map marker)
      ((List.range m).map (fun n => marker (i + n))) e u
    rw [hlen] at hinst
    rw [hinst] at heq
    have hall : allVars (fun _ _ => true) (fun k _ j => j != k + i || decide (k + i ≤ 1)) 0 e =
        true := by
      refine allVars_of_mapVars_eq (fun k x j hj => ?_) e 0 heq
      by_cases hjk : j = k + i
      · by_cases hle : k + i ≤ 1
        · simp [hle]
        · exfalso
          apply hopen
          have hself := closeVar_self ((List.range i).map marker)
            ((List.range m).map (fun n => marker (i + n)))
            (u.inst ((List.range m).map (fun n => marker (i + n))) 0) k x
          rw [hlen] at hself
          subst hjk
          rw [hself, substVar, if_neg (Nat.lt_irrefl _), if_pos rfl, if_pos rfl] at hj
          exact indexBelow_zero_of_shift (by omega) ((indexBelow_iff u m).mpr hm.2) hj
      · simp [hjk]
    have hshift := (allVars_offset (fun d _ j => j != d || decide (d ≤ 1)) i e 0).mpr hall
    rwa [Nat.zero_add] at hshift
  · rw [indexBelow_iff]
    refine allVars_and (fun k x j hj _ => ?_) hm.1 hm.1
    simp only [List.length_map, List.length_range, decide_eq_true_eq] at hj ⊢
    omega
  · rw [List.length_map, List.length_range]
    exact (indexBelow_iff u m).mpr hm.2

theorem captureAvoiding_iff (e : Expr FL) (i : Nat) (u : Expr FL) :
    CaptureAvoiding e i u ↔ u.indexBelow 0 = true ∨ e.shallow i = true :=
  ⟨of_captureAvoiding, captureAvoiding_of⟩

end Expr

/-! ## Evaluation -/

variable [TFlatTyp FT] [TFlatLiteral FT FL] [TInterpret FL]

/-- Where `u` has a value, an expression with `u` in place of index `i` evaluates as the
expression does with the value assigned to that index and the higher ones moved up. -/
def SubstRuns (e : Expr FL) (i : Nat) (u : Expr FL) : Prop :=
  ∀ (env : Env FL) (pre post : List (Outcome FL)) (o : Outcome FL), pre.length = i →
    run env post u = pure o →
      run env (pre ++ post) (e.subst i u true) = run env (pre ++ o :: post) e

/-- What was shifted past an assignment has the value it had. -/
theorem run_shift (env : Env FL) {u : Expr FL} (os ρ : List (Outcome FL))
    (h : os.length ≤ 1 ∨ u.indexBelow 0 = true) :
    run env (os ++ ρ) (u.shift os.length 0) = run env ρ u := by
  have hshift := (Expr.shift_eq_raiseFrom_iff u os.length 0).mpr h
  rw [hshift, ← Expr.raise_eq, run, Expr.raise_inst, run]

theorem substRuns_of {e u : Expr FL} {i : Nat}
    (h : u.indexBelow 0 = true ∨ e.shallow i = true) : SubstRuns e i u := by
  rintro env pre post o rfl hu
  have main : ∀ pb : Nat → String → Nat → Bool,
      (∀ (os : List (Outcome FL)) x, pb os.length x os.length = true →
        os.length ≤ 1 ∨ u.indexBelow 0 = true) →
      e.allVars (fun _ _ => true) pb pre.length = true →
      run env (pre ++ post) (e.subst pre.length u true) = run env (pre ++ o :: post) e := by
    intro pb hself hall
    refine (sameRun_mapVars (pre ++ post) (pre ++ o :: post) (Expr.substVar u true) pb pre.length
      ?_ e [] hall).run
    intro os x j hj
    -- the index counts the arguments of the closures passed, then those of `pre`
    have hlen : pre.length + os.length = (os ++ pre).length := by
      rw [List.length_append, Nat.add_comm]
    rw [hlen] at hj ⊢
    rw [← List.append_assoc, ← List.append_assoc]
    unfold Expr.substVar
    rcases Nat.lt_trichotomy j (os ++ pre).length with hlt | heq | hgt
    · rw [if_pos hlt]
      refine ⟨?_, rfl⟩
      rw [run_bvar_eq, run_bvar_eq, List.getElem?_append_left hlt, List.getElem?_append_left hlt]
    · subst heq
      rw [if_neg (Nat.lt_irrefl _), if_pos rfl, if_pos rfl]
      constructor
      · rw [run_shift env (os ++ pre) post (hself (os ++ pre) x hj), hu]
        exact (run_bvar env x (by simp)).symm
      · rw [Expr.isClosure_shift, isClosure_of_run hu]
    · have h1 : (os ++ pre).length ≤ j - 1 := by omega
      have h2 : j - (os ++ pre).length = (j - 1 - (os ++ pre).length) + 1 := by omega
      rw [if_neg (by omega), if_neg (by omega), if_pos rfl]
      refine ⟨?_, rfl⟩
      rw [run_bvar_eq, run_bvar_eq, List.getElem?_append_right h1,
        List.getElem?_append_right (le_of_lt hgt), h2, List.getElem?_cons_succ]
  rcases h with hclosed | hshallow
  · exact main (fun _ _ _ => true) (fun _ _ _ => Or.inr hclosed) (Expr.allVars_true e _)
  · refine main _ (fun os x hj => Or.inl ?_) hshallow
    simpa using hj

/-- A shift by `n` is one by `n`, and a substitution is without capture, exactly if the shift is
by at most one or finds nothing to shift, and what is substituted has no index or is put under
one closure, or past one outcome, at most. -/
theorem deBruijn_iff (e u : Expr FL) (i n d : Nat) :
    (e.shift n d = e.raiseFrom n d ∧ Expr.CaptureAvoiding e i u ∧ SubstRuns e i u) ↔
      (n ≤ 1 ∨ e.indexBelow d = true) ∧ (u.indexBelow 0 = true ∨ e.shallow i = true) := by
  rw [Expr.shift_eq_raiseFrom_iff, Expr.captureAvoiding_iff]
  constructor
  · rintro ⟨hshift, hcapture, -⟩
    exact ⟨hshift, hcapture⟩
  · rintro ⟨hshift, hcapture⟩
    exact ⟨hshift, hcapture, substRuns_of hcapture⟩

/-- `map (a, b) in [(1, 2)] { x }` -/
def pairing : Expr DPFlatLiteral :=
  .iter .map ["a", "b"] (.litExpr (.list [.tuple [.int 1, .int 2]]))
    (.closure "a" (.closure "b" (.bvar "x" 2))) none

/-- With `y` for `x`, and 7 for `y`, the loop gives `a`. -/
theorem pairing_captured :
    (Expr.bvar "x" 0 : Expr DPFlatLiteral).shift 2 0 = .bvar "x" 1 ∧
      (Expr.bvar "x" 0 : Expr DPFlatLiteral).raiseFrom 2 0 = .bvar "x" 2 ∧
      ¬ Expr.CaptureAvoiding pairing 0 (.bvar "y" 0) ∧
      ∀ (env : Env DPFlatLiteral) (w : World DPFlatLiteral),
        (run env [.lit (.int 7)] (.bvar "y" 0)).run w = some (.ok (.lit (.int 7)), w) ∧
        (run env [.lit (.int 7), .lit (.int 7)] pairing).run w =
          some (.ok (.lit (.list [.int 7])), w) ∧
        (run env [.lit (.int 7)] (pairing.subst 0 (.bvar "y" 0) true)).run w =
          some (.ok (.lit (.list [.int 1])), w) := by
  refine ⟨rfl, rfl, ?_, fun _ _ => ⟨eval_of_evalN (n := 1) rfl, eval_of_evalN (n := 3) rfl,
    eval_of_evalN (n := 3) rfl⟩⟩
  rw [Expr.captureAvoiding_iff]
  rintro (h | h) <;> cases h

end Armour.Lang
