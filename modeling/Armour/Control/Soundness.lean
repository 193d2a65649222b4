import Armour.Control.Refinement

/-! # Faithful branches keep the meaning

`Faithful.sim`: what `Faithful` derives simulates the original expression, on every argument
list, assignment and pair of worlds of the judgement.  A strict view includes failures and the
state that a failing evaluation leaves behind, so that the effects agree.
-/

namespace Armour.Control

open Armour.Lib Armour.Lang

section

variable {env : Env CPFlatLiteral} {V : View} {P : Pre} {ρ : List CPOutcome} {s u : CPWorld}

/-! ## Conditionals -/

theorem ifSem_sim (hR : V.worlds.r s u) {l : CPLiteral} {t t' : CPEvalM CPOutcome}
    {a a' : Option (CPEvalM CPOutcome)} (ht : l = .bool true → V.Sim t s t' u)
    (ha : l = .bool false → V.Sim (optionSem a) s (optionSem a') u) :
    V.Sim (ifSem t a l) s (ifSem t' a' l) u := by
  unfold ifSem
  cases hl : l.getBool? with
  | none => exact .throw hR
  | some b =>
      cases b with
      | true => exact ht (Literal.eq_bool hl)
      | false => exact ha (Literal.eq_bool hl)

theorem ifSomeSem_sim (hR : V.worlds.r s u) {body body' : Args CPFlatLiteral → CPEvalM CPOutcome}
    {a a' : Option (CPEvalM CPOutcome)} {l : CPLiteral}
    (hbody : ∀ l', l = .tuple [l'] → V.Sim (body (.ofLits [l'])) s (body' (.ofLits [l'])) u)
    (ha : ∀ ls, l = .tuple ls → ls.length ≠ 1 → V.Sim (optionSem a) s (optionSem a') u) :
    V.Sim (ifSomeSem body a l) s (ifSomeSem body' a' l) u := by
  cases l with
  | flat f => exact .throw hR
  | list ls => exact .throw hR
  | tuple ls =>
      rcases ls with _ | ⟨l', _ | ⟨l'', ls⟩⟩
      · exact ha [] rfl (by simp)
      · exact hbody l' rfl
      · exact ha _ rfl (by simp)

theorem ifSomeSem_failed {body : Args CPFlatLiteral → CPEvalM CPOutcome}
    {a : Option (CPEvalM CPOutcome)} {ls : List CPLiteral} (hls : ls.length ≠ 1) :
    ifSomeSem body a (.tuple ls) = optionSem a := by
  rcases ls with _ | ⟨l, _ | ⟨l', ls⟩⟩
  · rfl
  · exact absurd rfl hls
  · rfl

theorem runApp_some {v : String} {c : CPExpr} (l : CPLiteral) :
    runApp env ρ (.closure v c) (.ofLits [l]) = Lang.run env (.lit l :: ρ) c := by
  show runApp env ρ (.closure v c) ((Args.ofLits []).cons (.lit l)) = _
  rw [runApp_closure]
  rfl

/-- A body that does not use the component runs as with unit in its place. -/
theorem run_unit {c : CPExpr} (hfree : c.isFree 0 = true) (o : CPOutcome) :
    Lang.run env (o :: ρ) c = Lang.run env ρ (c.subst 0 (.litExpr .unit) true) := by
  rw [show (.litExpr .unit : CPExpr) = (Outcome.lit .unit).toExpr from rfl, run_subst]
  have hlen : [o].length = [(Outcome.lit .unit : CPOutcome)].length := rfl
  refine run_unused ρ hlen c (fun u hu => ?_)
  have hu : u = 0 := by simpa using hu
  rw [hu]
  exact hfree

/-! ## `if match` -/

theorem allCaptures_congr {α β : Type} {xs : List (α × Option (List (String × CPLiteral)))}
    {ys : List (β × Option (List (String × CPLiteral)))}
    (h : xs.map Prod.snd = ys.map Prod.snd) : allCaptures xs = allCaptures ys := by
  have hany : xs.any (fun r => r.2.isNone) = ys.any (fun r => r.2.isNone) := by
    have h := congrArg (fun l => l.any Option.isNone) h
    simpa only [List.any_map, Function.comp_def] using h
  have hflat : xs.flatMap (fun r => r.2.getD []) = ys.flatMap (fun r => r.2.getD []) := by
    have h := congrArg (fun l => l.flatMap (fun c => c.getD [])) h
    simpa only [List.flatMap_map] using h
  unfold allCaptures
  rw [hany, hflat]

theorem matchSubject_eq {pf : Platform} {p : Pattern} {l : CPLiteral}
    {q : Residual × Option (List (String × CPLiteral))}
    (h : pevalSubject pf p (true, .litExpr l) = pure q) :
    matchSubject "eval" pf p (.lit l) = pure (.lit l, q.2) := by
  have hm : (do
    let m ← matchSubject "peval" pf p (.lit l)
    pure ((true, .litExpr l), m.2)) = (pure q : CPEvalM _) := h
  simp only [matchSubject] at hm ⊢
  cases hl : l.performMatch pf p with
  | error err =>
      rw [hl] at hm
      exact absurd hm (Comp.throw_ne_pure _ _)
  | ok caps =>
      rw [hl] at hm
      cases caps with
      | none => exact absurd hm (Comp.throw_ne_pure _ _)
      | some caps =>
          have hq := Comp.pure_injective hm
          rw [← hq]

/-- Matching a subject keeps its outcome, and the world. -/
theorem matchSubject_fst {who : String} {pf : Platform} {p : Pattern} {o : CPOutcome}
    {q : CPOutcome × Option (List (String × CPLiteral))} {s₁ : CPWorld}
    (h : (matchSubject who pf p o : CPEvalM _).run s = some (.ok q, s₁)) : o = q.1 ∧ s = s₁ := by
  unfold matchSubject at h
  split at h
  · cases h
    exact ⟨rfl, rfl⟩
  · split at h <;> cases h
    exact ⟨rfl, rfl⟩

/-- The subjects are known, each after those in front of it. -/
theorem subjects_skip (hP : P ρ s u) (hR : V.worlds.r s u) {ms : List (CPExpr × Pattern)}
    {rs : List (Residual × Option (List (String × CPLiteral)))} {ls : List CPLiteral}
    (hlen : ms.length = rs.length)
    (h : ∀ (i : Nat) m q, ms[i]? = some m → rs[i]? = some q →
      Refines env V (.here (after (P.past (subjectSems env (ms.take i))))) m.1 q.1.2)
    (hrs : List.Forall₂ (fun m q => pevalSubject env.platform m.2 q.1 = pure q) ms rs)
    (hls : rs.map Prod.fst = ls.map (fun l => (true, .litExpr l))) :
    V.Skips (fun ps => ps.map Prod.fst = ls.map Outcome.lit ∧ ps.map Prod.snd = rs.map Prod.snd)
      (subjectSems env ms ρ) s u := by
  have hlen' : ls.length = (rs.map Prod.snd).length := by
    simpa using (congrArg List.length hls).symm
  let known := fun p : CPLiteral × Option (List (String × CPLiteral)) =>
    (pure (Outcome.lit p.1, p.2) : CPEvalM (CPOutcome × Option (List (String × CPLiteral))))
  have hsim : V.Sim (subjectSems env ms ρ) s
      (Comp.traverse known (ls.zip (rs.map Prod.snd))) u := by
    refine .traverse_of_getElem (by simp_all) hR (fun i m p qs s₁ u₁ hm hp hs hu hR₁ => ?_)
    -- what is known does not move the world of the residual
    rw [Comp.traverse_pure] at hu
    cases hu
    obtain ⟨hl, hcaps⟩ := List.getElem?_zip_eq_some.mp hp
    rw [List.getElem?_map, Option.map_eq_some_iff] at hcaps
    obtain ⟨q, hq, hcaps⟩ := hcaps
    have hlit : q.1 = (true, .litExpr p.1) := by
      have h := congrArg (·[i]?) hls
      simpa [hl, hq] using h
    have hsubject : pevalSubject env.platform m.2 q.1 = pure q := by
      obtain ⟨h₁, rfl⟩ := List.getElem?_eq_some_iff.mp hm
      obtain ⟨h₂, rfl⟩ := List.getElem?_eq_some_iff.mp hq
      exact (List.forall₂_iff_get.mp hrs).2 i h₁ h₂
    have hm := h i m q hm hq
    rw [hlit] at hm hsubject
    refine .drop (hm.run_lit ⟨_, s, hP, hs⟩ hR₁) (fun o _ _ hR₂ ho => ?_)
    subst ho
    rw [matchSubject_eq hsubject, hcaps]
    exact .pure hR₂ rfl
  rw [Comp.traverse_pure] at hsim
  refine hsim.skips.mono (fun ps hps => ?_)
  subst hps
  have hfst : (ls.zip (rs.map Prod.snd)).map Prod.fst = ls := List.map_fst_zip hlen'.le
  have hsnd : (ls.zip (rs.map Prod.snd)).map Prod.snd = rs.map Prod.snd :=
    List.map_snd_zip hlen'.ge
  constructor
  · conv_rhs => rw [← hfst]
    rw [List.map_map, List.map_map]
    rfl
  · conv_rhs => rw [← hsnd]
    rw [List.map_map]
    rfl

theorem ifMatchSem_eq {vs : List String} {body : Args CPFlatLiteral → CPEvalM CPOutcome}
    {a : Option (CPEvalM CPOutcome)}
    {ps : List (CPOutcome × Option (List (String × CPLiteral)))} {ls : List CPLiteral}
    (hls : ps.map Prod.fst = ls.map Outcome.lit) :
    ifMatchSem vs body a ps =
      match allCaptures ps with
      | none => optionSem a
      | some caps => body (captureArgs "eval" caps vs) := by
  unfold ifMatchSem onLiterals
  rw [hls, literals_lits]
  cases allCaptures ps <;> rfl

/-- An `if match` on subjects that are known. -/
theorem run_ifMatch_known (hP : P ρ s u) (hR : V.worlds.r s u) {vs : List String}
    {ms : List (CPExpr × Pattern)} {t : CPExpr} {a : Option CPExpr}
    {rs : List (Residual × Option (List (String × CPLiteral)))} {ls : List CPLiteral}
    (hlen : ms.length = rs.length)
    (h : ∀ (i : Nat) m q, ms[i]? = some m → rs[i]? = some q →
      Refines env V (.here (after (P.past (subjectSems env (ms.take i))))) m.1 q.1.2)
    (hrs : List.Forall₂ (fun m q => pevalSubject env.platform m.2 q.1 = pure q) ms rs)
    (hls : rs.map Prod.fst = ls.map (fun l => (true, .litExpr l))) {m' : CPEvalM CPOutcome}
    (hsim : ∀ s₁, after (P.past (subjectSems env ms)) ρ s₁ u → V.worlds.r s₁ u →
      V.Sim (match allCaptures rs with
        | none => optionSem (a.map (Lang.run env ρ))
        | some caps => runApp env ρ t (captureArgs "eval" caps vs)) s₁ m' u) :
    V.Sim (Lang.run env ρ (.ifMatchExpr vs ms t a)) s m' u := by
  rw [run_ifMatchExpr]
  refine .drop (subjects_skip hP hR hlen h hrs hls) (fun ps s₁ hs hR hps => ?_)
  rw [ifMatchSem_eq hps.1, allCaptures_congr hps.2]
  exact hsim s₁ ⟨ps, s, hP, hs⟩ hR

/-! ## Calls -/

theorem evalCall_user (henv : env.Closed) {f : String} {fe : CPExpr} {isAsync : Bool}
    {ls : List CPLiteral} (hf : env.get f = some fe) :
    Lang.evalCall env (eval env) f isAsync ls =
      Outcome.stripReturn <$> runApp env ρ fe (.ofLits ls) := by
  rw [← evalCall_inst henv ρ, Lang.evalCall, hf, runApp, Args.apply_ofLits]
  simp only [map_eq_pure_bind, bind_assoc]

theorem strip_sim {e : CPExpr} {m : CPEvalM CPOutcome} (h : V.Sim m s (Lang.run env ρ e) u) :
    V.Sim (if e.isReturn then Outcome.stripReturn <$> m else m) s
      (Lang.run env ρ e.stripReturn) u := by
  cases e with
  | returnExpr r =>
      rw [run_returnExpr] at h
      have h := h.map (fun _ _ => congrArg Outcome.stripReturn)
      rw [← comp_map] at h
      exact (id_map (Lang.run env ρ r)) ▸ h
  | _ => exact h

end

/-! ## Rules for branches and calls -/

section

variable {env : Env CPFlatLiteral} {V : View} {A : Asg} {P : Pre}

namespace Refines

/-! ### Conditionals -/

section

variable {c t a c' t' a' : CPExpr}

theorem ifReturn {alt : Option CPExpr} {r : CPExpr}
    (h : Refines env V (.here P) c (.returnExpr r)) :
    Refines env V (.here P) (.ifExpr c t alt) (.returnExpr r) := by
  refine .of_run (fun ρ s u hP hR => ?_)
  rw [run_ifExpr]
  exact bind_return (h.run hP hR) (fun _ => ⟨_, rfl, rfl⟩)

theorem ifTrue {alt : Option CPExpr} {l : CPLiteral} (h : Refines env V (.here P) c (.litExpr l))
    (hl : l.getBool? = some true)
    (ht : Refines env V (.here (after (P.past (sem env c)))) t t') :
    Refines env V (.here P) (.ifExpr c t alt) t' := by
  refine .of_run (fun ρ s u hP hR => ?_)
  rw [run_ifExpr]
  refine onLiteral_lit (h.run_lit hP hR) (fun s₁ hs hR => ?_)
  simp only [ifSem, hl]
  exact ht.run ⟨_, s, hP, hs⟩ hR

theorem ifFalse {l : CPLiteral} (h : Refines env V (.here P) c (.litExpr l))
    (hl : l.getBool? = some false)
    (ha : Refines env V (.here (after (P.past (sem env c)))) a a') :
    Refines env V (.here P) (.ifExpr c t (some a)) a' := by
  refine .of_run (fun ρ s u hP hR => ?_)
  rw [run_ifExpr]
  refine onLiteral_lit (h.run_lit hP hR) (fun s₁ hs hR => ?_)
  simp only [ifSem, hl]
  exact ha.run ⟨_, s, hP, hs⟩ hR

theorem ifFalseNone {l : CPLiteral} (h : Refines env V (.here P) c (.litExpr l))
    (hl : l.getBool? = some false) :
    Refines env V (.here P) (.ifExpr c t none) (.litExpr .unit) := by
  refine .of_run (fun ρ s u hP hR => ?_)
  rw [run_ifExpr, run_litExpr]
  refine onLiteral_lit (h.run_lit hP hR) (fun _ _ hR => ?_)
  simp only [ifSem, hl]
  exact .pure hR rfl

theorem ifDynamicNone (h : Refines env V (.here P) c c')
    (ht : Refines env V (.here (P.both (sem env c) (sem env c') (.lit (.bool true)))) t t') :
    Refines env V (.here P) (.ifExpr c t none) (.ifExpr c' t' none) := by
  refine .of_run (fun ρ s u hP hR => ?_)
  rw [run_ifExpr, run_ifExpr]
  refine onLiteral_sim (h.run hP hR) (fun l s₁ u₁ hs hu hR => ifSem_sim hR (fun hb => ?_)
    (fun _ => .pure hR rfl))
  subst hb
  exact ht.run ⟨s, u, hP, hs, hu⟩ hR

theorem ifDynamic (ht : Refines env V (.here (P.both (sem env c) (sem env c') (.lit (.bool true))))
      t t')
    (ha : Refines env V (.here (P.both (sem env c) (sem env c') (.lit (.bool false)))) a a')
    (h : Refines env V (.here P) c c') :
    Refines env V (.here P) (.ifExpr c t (some a)) (.ifExpr c' t' (some a')) := by
  refine .of_run (fun ρ s u hP hR => ?_)
  rw [run_ifExpr, run_ifExpr]
  refine onLiteral_sim (h.run hP hR) (fun l s₁ u₁ hs hu hR => ifSem_sim hR (fun hb => ?_)
    (fun hb => ?_))
  · subst hb
    exact ht.run ⟨s, u, hP, hs, hu⟩ hR
  · subst hb
    exact ha.run ⟨s, u, hP, hs, hu⟩ hR

theorem ifEqual (ht : Refines env V (.here (P.past (sem env c) (.lit (.bool true)))) t t')
    (ha : Refines env V (.here (P.past (sem env c) (.lit (.bool false)))) a a')
    (drop : Droppable V P env c)
    (bools : V.strict = true → ∀ l ρ s u, P.past (sem env c) (.lit l) ρ s u → l.isBool = true)
    (same : ∀ ρ s u, P.past (sem env c) (.lit (.bool false)) ρ s u →
      V.Sim (Lang.run env ρ a') u (Lang.run env ρ t') u) :
    Refines env V (.here P) (.ifExpr c t (some a)) t' := by
  refine .of_run (fun ρ s u hP hR => ?_)
  rw [run_ifExpr]
  refine onLiteral_drop (drop ρ s u hP) (fun l s₁ hs hR => ?_)
  unfold ifSem
  cases hb : l.getBool? with
  | none =>
      refine .throw_lax (fun hstrict => ?_)
      have hbool := bools hstrict l ρ s₁ u ⟨s, hP, hs⟩
      simp [Literal.isBool, hb] at hbool
  | some b =>
      obtain rfl := Literal.eq_bool hb
      cases b with
      | true => exact ht.run ⟨s, hP, hs⟩ hR
      | false => exact View.Sim.trans (ha.run ⟨s, hP, hs⟩ hR) (same ρ s₁ u ⟨s, hP, hs⟩)

end

/-! ### `if let` -/

section

variable {e e' t a a' c c' : CPExpr} {v : String}

theorem ifSomeReturn {alt : Option CPExpr} {r : CPExpr}
    (h : Refines env V (.here P) e (.returnExpr r)) :
    Refines env V (.here P) (.ifSomeMatchExpr e t alt) (.returnExpr r) := by
  refine .of_run (fun ρ s u hP hR => ?_)
  rw [run_ifSomeMatchExpr]
  exact bind_return (h.run hP hR) (fun _ => ⟨_, rfl, rfl⟩)

theorem ifSomeTaken {alt : Option CPExpr} {l : CPLiteral} {t₁ r : CPExpr}
    (h : Refines env V (.here P) e (.litExpr (.tuple [l])))
    (happ : applyTo t (.litExpr l) = .ok t₁)
    (ht : Refines env V (.here (after (P.past (sem env e)))) t₁ r) :
    Refines env V (.here P) (.ifSomeMatchExpr e t alt) r := by
  refine .of_run (fun ρ s u hP hR => ?_)
  rw [run_ifSomeMatchExpr]
  refine onLiteral_lit (h.run_lit hP hR) (fun s₁ hs hR => ?_)
  have happ : (Args.ofLits [l]).apply t = .ok t₁ := by
    rw [Args.apply_ofLits, List.map_cons, applyAll, happ]
    rfl
  rw [ifSomeSem, runApp, happ]
  exact ht.run ⟨_, s, hP, hs⟩ hR

variable {ls : List CPLiteral} (hls : ls.length ≠ 1)
variable (h : Refines env V (.here P) e (.litExpr (.tuple ls)))

include hls h

theorem ifSomeFailed (ha : Refines env V (.here (after (P.past (sem env e)))) a a') :
    Refines env V (.here P) (.ifSomeMatchExpr e t (some a)) a' := by
  refine .of_run (fun ρ s u hP hR => ?_)
  rw [run_ifSomeMatchExpr]
  refine onLiteral_lit (h.run_lit hP hR) (fun s₁ hs hR => ?_)
  rw [ifSomeSem_failed hls]
  exact ha.run ⟨_, s, hP, hs⟩ hR

theorem ifSomeFailedNone :
    Refines env V (.here P) (.ifSomeMatchExpr e t none) (.litExpr .unit) := by
  refine .of_run (fun ρ s u hP hR => ?_)
  rw [run_ifSomeMatchExpr, run_litExpr]
  refine onLiteral_lit (h.run_lit hP hR) (fun _ _ hR => ?_)
  rw [ifSomeSem_failed hls]
  exact .pure hR rfl

omit hls h

/-- The bodies on the component of an option that the expression gives. -/
theorem ifSome_body {G : CPOutcome → Pre} (hc : Refines env V (.here (someAsg G)) c c')
    {ρ : List CPOutcome} {s u : CPWorld} {l : CPLiteral} (hG : G (.lit (.tuple [l])) ρ s u)
    (hR : V.worlds.r s u) :
    V.Sim (runApp env ρ (.closure v c) (.ofLits [l])) s
      (runApp env ρ (.closure v c') (.ofLits [l])) u := by
  rw [runApp_some, runApp_some]
  exact hc.run ⟨l, ρ, rfl, hG⟩ hR

variable (hc : Refines env V (.here (someAsg (P.both (sem env e) (sem env e')))) c c')

include hc

theorem ifSomeDynamicNone (h : Refines env V (.here P) e e') :
    Refines env V (.here P) (.ifSomeMatchExpr e (.closure v c) none)
      (.ifSomeMatchExpr e' (.closure v c') none) := by
  refine .of_run (fun ρ s u hP hR => ?_)
  rw [run_ifSomeMatchExpr, run_ifSomeMatchExpr]
  refine onLiteral_sim (h.run hP hR) (fun l s₁ u₁ hs hu hR => ?_)
  refine ifSomeSem_sim hR (fun l' hl => ?_) (fun _ _ _ => .pure hR rfl)
  subst hl
  exact ifSome_body hc ⟨s, u, hP, hs, hu⟩ hR

theorem ifSomeDynamic (ha : Refines env V (.here (given (P.both (sem env e) (sem env e'))
      (fun o => ∃ ls, o = .lit (.tuple ls) ∧ ls.length ≠ 1))) a a')
    (h : Refines env V (.here P) e e') :
    Refines env V (.here P) (.ifSomeMatchExpr e (.closure v c) (some a))
      (.ifSomeMatchExpr e' (.closure v c') (some a')) := by
  refine .of_run (fun ρ s u hP hR => ?_)
  rw [run_ifSomeMatchExpr, run_ifSomeMatchExpr]
  refine onLiteral_sim (h.run hP hR) (fun l s₁ u₁ hs hu hR => ?_)
  refine ifSomeSem_sim hR (fun l' hl => ?_) (fun ls hl hls => ?_)
  · subst hl
    exact ifSome_body hc ⟨s, u, hP, hs, hu⟩ hR
  · subst hl
    exact ha.run ⟨_, ⟨ls, rfl, hls⟩, s, u, hP, hs, hu⟩ hR

omit hc

theorem ifSomeEqual (hc : Refines env V (.here (someAsg (P.past (sem env e)))) c c')
    (ha : Refines env V (.here (given (P.past (sem env e))
      (fun o => ∃ ls, o = .lit (.tuple ls) ∧ ls.length ≠ 1))) a a')
    (hfree : c'.isFree 0 = true) (drop : Droppable V P env e)
    (options : V.strict = true →
      ∀ l ρ s u, P.past (sem env e) (.lit l) ρ s u → ∃ ls, l = .tuple ls)
    (same : ∀ l ρ s u, P.past (sem env e) (.lit (.tuple [l])) ρ s u →
      V.Sim (Lang.run env ρ (c'.subst 0 (.litExpr .unit) true)) u (Lang.run env ρ a') u) :
    Refines env V (.here P) (.ifSomeMatchExpr e (.closure v c) (some a)) a' := by
  refine .of_run (fun ρ s u hP hR => ?_)
  rw [run_ifSomeMatchExpr]
  refine onLiteral_drop (drop ρ s u hP) (fun l s₁ hs hR => ?_)
  by_cases hoption : ∃ ls, l = .tuple ls
  · obtain ⟨ls, rfl⟩ := hoption
    by_cases hlen : ls.length = 1
    · obtain ⟨l', rfl⟩ := List.length_eq_one_iff.mp hlen
      have hpast : P.past (sem env e) (.lit (.tuple [l'])) ρ s₁ u := ⟨s, hP, hs⟩
      have hbody := ifSome_body (v := v) hc hpast hR
      rw [runApp_some (c := c'), run_unit hfree] at hbody
      exact View.Sim.trans hbody (same l' ρ s₁ u hpast)
    · rw [ifSomeSem_failed hlen]
      exact ha.run ⟨_, ⟨ls, rfl, hlen⟩, s, hP, hs⟩ hR
  · have hlax : ¬ V.strict = true :=
      fun hstrict => hoption (options hstrict l ρ s₁ u ⟨s, hP, hs⟩)
    cases l with
    | flat f => exact .throw_lax hlax
    | list ls => exact .throw_lax hlax
    | tuple ls => exact absurd ⟨ls, rfl⟩ hoption

end

/-! ### `if match` -/

section

variable {vs : List String} {t : CPExpr}

theorem matchReturn {pre post : List (CPExpr × Pattern)} {m : CPExpr × Pattern}
    {alt : Option CPExpr} {r : CPExpr}
    (h : Refines env V (.here (after (P.past (subjectSems env pre)))) m.1 (.returnExpr r))
    (drop : Skipped V P (subjectSems env pre) (fun qs => NoneReturns (qs.map Prod.fst)))
    (quiet : Skipped V
      (after ((after (P.past (subjectSems env pre))).both (sem env m.1) (sem env (.returnExpr r))))
      (subjectSems env post) (fun _ => True)) :
    Refines env V (.here P) (.ifMatchExpr vs (pre ++ m :: post) t alt) (.returnExpr r) := by
  refine .of_run (fun ρ s u hP hR => ?_)
  rw [run_ifMatchExpr]
  refine return_sim Prod.fst (drop ρ s u hP) (fun qs s₁ hqs hR => ?_) (fun _ _ => eq_ret_of_run)
    (fun qs s₁ q s₂ u₂ hqs hq ho => ?_) (fun _ _ hq => onLiterals_error hq _)
  · refine bind_return (h.run ⟨qs, s, hP, hqs⟩ hR) (fun q => ⟨_, rfl, rfl⟩)
  · obtain ⟨o, _, hrun, hsubject⟩ := Comp.bind_eq_ok hq
    obtain ⟨rfl, rfl⟩ := matchSubject_fst hsubject
    exact quiet ρ _ u₂ ⟨_, s₁, u, ⟨qs, s, hP, hqs⟩, hrun, ho⟩

variable {ms : List (CPExpr × Pattern)}
variable {rs : List (Residual × Option (List (String × CPLiteral)))} {ls : List CPLiteral}
variable (hlen : ms.length = rs.length)
variable (h : ∀ (i : Nat) m q, ms[i]? = some m → rs[i]? = some q →
  Refines env V (.here (after (P.past (subjectSems env (ms.take i))))) m.1 q.1.2)
variable (hrs : List.Forall₂ (fun m q => pevalSubject env.platform m.2 q.1 = pure q) ms rs)
variable (hls : rs.map Prod.fst = ls.map (fun l => (true, .litExpr l)))

include hlen h hrs hls

theorem matchFailed {a r : CPExpr} (hcaps : allCaptures rs = none)
    (ha : Refines env V (.here (after (P.past (subjectSems env ms)))) a r) :
    Refines env V (.here P) (.ifMatchExpr vs ms t (some a)) r := by
  refine .of_run (fun ρ s u hP hR => run_ifMatch_known hP hR hlen h hrs hls (fun s₁ hs hR => ?_))
  rw [hcaps]
  exact ha.run hs hR

theorem matchFailedNone (hcaps : allCaptures rs = none) :
    Refines env V (.here P) (.ifMatchExpr vs ms t none) (.litExpr .unit) := by
  refine .of_run (fun ρ s u hP hR => run_ifMatch_known hP hR hlen h hrs hls (fun s₁ hs hR => ?_))
  rw [hcaps, run_litExpr]
  exact .pure hR rfl

theorem matchTaken {alt : Option CPExpr} {caps : BTreeMap String CPLiteral} {t₁ r : CPExpr}
    (hcaps : allCaptures rs = some caps) (happ : bindCaptures "peval" caps vs t = .ok t₁)
    (ht : Refines env V (.here (after (P.past (subjectSems env ms)))) t₁ r) :
    Refines env V (.here P) (.ifMatchExpr vs ms t alt) r := by
  refine .of_run (fun ρ s u hP hR => run_ifMatch_known hP hR hlen h hrs hls (fun s₁ hs hR => ?_))
  have happ := bindCaptures_who "eval" happ
  rw [bindCaptures_eq] at happ
  simp only [hcaps, runApp, happ]
  exact ht.run hs hR

end

/-! ### Calls -/

section

variable {f : String} {isAsync : Bool}

theorem callReturn {pre post : List CPExpr} {e : CPExpr} {r : Residual}
    (h : Refines env V (.here (after (P.past (sems env pre)))) e r.2) (hr : r.isReturn = true)
    (drop : Skipped V P (sems env pre) NoneReturns)
    (quiet : Skipped V (after ((after (P.past (sems env pre))).both (sem env e) (sem env r.2)))
      (sems env post) (fun _ => True)) :
    Refines env V (.here P) (.callExpr f (pre ++ e :: post) isAsync) r.2 := by
  refine .of_run (fun ρ s u hP _ => ?_)
  rw [run_callExpr]
  exact elementReturn_sim hP hr drop (fun _ => h.run) quiet (fun _ _ hq => onLiterals_error hq _)

variable {es : List CPExpr}

theorem callUser (henv : env.Closed) {fe e e' : CPExpr} (hf : env.get f = some fe)
    (he : Refines env V (.here P) e e') (inlines : Inlines env V P fe es e e'.isReturn) :
    Refines env V (.here P) (.callExpr f es isAsync) e'.stripReturn := by
  refine .of_run (fun ρ s u hP hR => ?_)
  rw [run_callExpr]
  have hcall : (Lang.evalCall env (eval env) f isAsync) =
      (fun ls => Outcome.stripReturn <$> runApp env ρ fe (.ofLits ls)) :=
    funext (fun ls => evalCall_user henv hf)
  rw [hcall]
  exact View.Sim.trans (inlines ρ s u hP) (strip_sim (he.run hP hR))

variable {rs : List Residual} (hlen : es.length = rs.length)

include hlen

theorem callBuiltin
    (h : ∀ (i : Nat) e (r : Residual), es[i]? = some e → rs[i]? = some r →
      Refines env V (.here (after (P.past (sems env (es.take i))))) e r.2)
    {ls : List CPLiteral} {l : CPLiteral} (hls : rs.map Prod.snd = ls.map .litExpr)
    (hf : env.get f = none) (hb : Headers.isBuiltin CPFlatTyp f = true)
    (constant : Skipped V (after (P.past (sems env es))) (fun _ => env.builtin f ls) (· = l)) :
    Refines env V (.here P) (.callExpr f es isAsync) (.litExpr l) := by
  refine .of_run (fun ρ s u hP hR => ?_)
  rw [run_callExpr, run_litExpr]
  refine .drop (elements_skip hP hR hlen (fun i e r he hr _ => (h i e r he hr).run) hls)
    (fun os s₁ hs _ hos => ?_)
  have hafter : after (P.past (sems env es)) ρ s₁ u := ⟨os, s, hP, hs⟩
  subst hos
  rw [onLiterals, literals_lits]
  show V.Sim (Lang.evalCall env (eval env) f isAsync ls) s₁ _ u
  rw [Lang.evalCall, hf]
  simp only [hb, if_true]
  exact .drop (constant ρ s₁ u hafter) (fun l' _ _ hR hl' => hl' ▸ .pure hR rfl)

theorem callDynamic
    (h : ∀ (i : Nat) e (r : Residual), es[i]? = some e → rs[i]? = some r →
      Refines env V (.here (after (P.both (sems env (es.take i))
        (sems env ((rs.map Prod.snd).take i))))) e r.2)
    (agree : ∀ os, Agrees V (P.both (sems env es) (sems env (rs.map Prod.snd)) os)
      (fun _ => onLiterals os (Lang.evalCall env (eval env) f isAsync))) :
    Refines env V (.here P) (.callExpr f es isAsync)
      (.callExpr f (rs.map Prod.snd) isAsync) := by
  refine .of_run (fun ρ s u hP hR => ?_)
  rw [run_callExpr, run_callExpr]
  refine (elements_sim hP hR hlen (fun i e r he hr _ _ => (h i e r he hr).run)).bind
    (fun os os' s₁ u₁ hs hu _ hos => ?_)
  subst hos
  exact agree os ρ s₁ u₁ ⟨s, u, hP, hs, hu⟩

end

end Refines

/-! ## The judgement is sound -/

theorem Faithful.sim (henv : env.Closed) {so : Bool} {e : CPExpr} {w w' : CPWorld} {r : Residual}
    (h : Faithful env V A so e w r w') : Refines env V A e r.2 := by
  induction h with
  | weaken h hA ih => exact fun os ρ s u hA' hR => ih os ρ s u (hA os ρ s u hA') hR
  | pointwise hrun h ih =>
      exact fun os ρ s u hA hR => ih os ρ s u hA os ρ s u ⟨rfl, rfl, rfl, rfl⟩ hR
  | idle hrun h => exact fun os ρ s u hA _ => .of_never (h os ρ s u hA)
  | unapplied hrun he hr h => exact .unapplied he hr h
  | var =>
      refine .of_run (fun ρ s u _ hR => ?_)
      rw [run_var]
      exact .throw hR
  | bvar =>
      refine .of_run (fun ρ s u _ hR => ?_)
      rw [run_bvar_eq]
      split
      · exact .pure hR rfl
      · exact .throw hR
  | litExpr =>
      refine .of_run (fun ρ s u _ hR => ?_)
      rw [run_litExpr]
      exact .pure hR rfl
  | closure h used ih => exact ih.closure
  | returnExpr h ih => exact ih.returnExpr
  | prefixReturn h ih => exact ih.prefixReturn
  | prefixStatic h hr ih => exact ih.prefixStatic hr
  | prefixDynamic h ih => exact ih.prefixDynamic
  | infixKeep h1 h2 hz ih1 ih2 => exact ih1.infixKeep ih2
  | infixStatic h1 h2 hl ih1 ih2 => exact ih1.infixStatic ih2 hl
  | infixLeft h1 h2 hz ok ih1 => exact ih1.infixLeft ok
  | infixRight h1 h2 hz ok ih2 => exact ih2.infixRight ok
  | infixCompared h1 h2 hz ok => exact .infixCompared ok
  | listNil => exact .listNil
  | blockNil hb => exact .blockNil hb
  | blockLast h last ih => exact ih.blockLast last
  | blockStatic h hx hes drop hrest ih => exact .blockStatic hes drop ih
  | blockDynamic h hx hes hrest ih ihrest =>
      exact .blockDynamic hes ih ihrest (blockForm_peval _ _ _ _ ⟨_, _, hrest.leaves⟩)
  | elements hb hes hlen h first last hls ih => exact .elements hb hes hlen ih hls
  | elementsReturn hb hpre noRet h hr hpost drop quiet ih =>
      exact .elementsReturn hb ih hr drop quiet
  | letDead hbody hfree happ h drop binds ih => exact .letDead hbody hfree happ ih drop binds
  | letReturn live h ih => exact ih.letReturn
  | letStatic live h1 hbind h ih1 ih => exact ih1.letStatic hbind ih
  | letDynamic live h1 hr h2 ih1 ih2 => exact ih1.letDynamic ih2
  | iterReturn h ih => exact ih.iterReturn
  | iterDynamic h1 hr h2 ih1 ih2 => exact ih1.iterDynamic ih2
  | foldDynamic h1 hr h2 ha ih1 ih2 iha => exact ih1.foldDynamic ih2 iha
  | iterElementReturn h1 hes hpre noRet h hr hpost drop quiet ih1 ih =>
      exact ih1.iterElementReturn hes ih hr drop quiet
  | iterStatic h1 hiter noRet static hop hl drop ih1 => exact ih1.iterStatic drop
  | iterKeep h1 hiter noRet dynamic hop agree ih1 => exact ih1.iterKeep agree
  | foldAccDynamic h1 ha agree ih1 iha => exact ih1.foldAccDynamic iha agree
  | foldNil h1 ha noRet ih1 iha => exact .foldNil ih1 iha noRet
  | fold h1 ha chain hrs first next h hpost answer hlast putIn returns ih1 ih =>
      exact .fold ih1 ih hlast putIn returns
  | ifReturn h ih => exact ih.ifReturn
  | ifTrue h hl ht ih iht => exact ih.ifTrue hl iht
  | ifFalse h hl ha ih iha => exact ih.ifFalse hl iha
  | ifFalseNone h hl ih => exact ih.ifFalseNone hl
  | ifDynamicNone h hr ht ih iht => exact ih.ifDynamicNone iht
  | ifDynamic h hr ht ha hne ih iht iha => exact .ifDynamic iht iha ih
  | ifEqual h hr ht ha heq drop bools same iht iha => exact .ifEqual iht iha drop bools same
  | ifSomeReturn h ih => exact ih.ifSomeReturn
  | ifSomeTaken h happ ht ih iht => exact ih.ifSomeTaken happ iht
  | ifSomeFailed h hls ha ih iha => exact .ifSomeFailed hls ih iha
  | ifSomeFailedNone h hls ih => exact .ifSomeFailedNone hls ih
  | ifSomeDynamicNone h hr hc ih ihc => exact ihc.ifSomeDynamicNone ih
  | ifSomeDynamic h hr hc ha hne ih ihc iha => exact ihc.ifSomeDynamic iha ih
  | ifSomeEqual h hr hc ha hfree heq drop options same ihc iha =>
      exact .ifSomeEqual ihc iha hfree drop options same
  | matchKeep hrs dynamic agree => exact .of_run (fun ρ s u hP _ => agree ρ s u hP)
  | matchReturn hpre noRet h hpost static drop quiet ih => exact ih.matchReturn drop quiet
  | matchFailed hlen h first next hrs hls hcaps ha shape ih iha =>
      exact .matchFailed hlen ih hrs hls hcaps iha
  | matchFailedNone hlen h first last hrs hls hcaps ih =>
      exact .matchFailedNone hlen ih hrs hls hcaps
  | matchTaken hlen h first next hrs hls hcaps happ ht shape ih iht =>
      exact .matchTaken hlen ih hrs hls hcaps happ iht
  | callReturn hpre noRet h hr hpost drop quiet ih => exact ih.callReturn hr drop quiet
  | callUser hrs noRet hf happ he inlines ihe => exact ihe.callUser henv hf inlines
  | callBuiltin hlen h first next static hls hf hb hl constant ih =>
      exact .callBuiltin hlen ih hls hf hb constant
  | callKeep hrs noRet static hf hb hs agree => exact .of_run (fun ρ s u hP _ => agree ρ s u hP)
  | callDynamic hlen h first last noRet dynamic hf agree ih => exact .callDynamic hlen ih agree

end

end Armour.Control
