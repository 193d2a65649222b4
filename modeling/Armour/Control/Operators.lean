import Armour.Control.Faithful

/-! # Operators on residuals

What an operator does after its left operand decides which simplifications keep its meaning:
`infixRest` is one half of its evaluation, and each rule of the specializer for operators is one
way to leave the other half out.
-/

namespace Armour.Control

open Armour.Lib Armour.Lang

/-! ## `&&` and `||` on literals -/

theorem ofChecked_eq_some {r : Checked (Option DPLiteral)} {x : CPLiteral}
    (h : CPFlatLiteral.ofChecked r = .ok (some x)) :
    ∃ d, r = .ok (some d) ∧ x = .ofDP d := by
  match r with
  | .ok (some d) =>
      cases h
      exact ⟨d, rfl, rfl⟩
  | .ok none => cases h
  | .error e => cases h

/-- The Boolean operator that decides on `decided`. -/
def boolOp (decided : Bool) : Infix := if decided then .or else .and

/-- Its value. -/
def boolOpVal (decided a b : Bool) : Bool := if decided then a || b else a && b

theorem evalInfix_boolOp {pf : Platform} {decided : Bool} {l r x : CPLiteral}
    (h : l.evalInfix pf (boolOp decided) r = .ok (some x)) :
    ∃ a b, l = .bool a ∧ r = .bool b ∧ x = .bool (boolOpVal decided a b) := by
  have hflat : ∀ f g : CPFlatLiteral, f.evalInfix pf (boolOp decided) g = .ok (some x) →
      ∃ a b, f = .dp (.bool a) ∧ g = .dp (.bool b) ∧ x = .bool (boolOpVal decided a b) := by
    intro f g hfg
    match f, g with
    | .dp f, .dp g =>
        have hd : CPFlatLiteral.ofChecked (f.evalInfix pf (boolOp decided) g) =
            .ok (some x) := by
          cases decided <;> exact hfg
        obtain ⟨d, hval, rfl⟩ := ofChecked_eq_some hd
        clear hfg hd
        cases decided <;> cases f <;> try cases hval
        all_goals
          cases g <;> cases hval
          exact ⟨_, _, rfl, rfl, rfl⟩
    | .dp _, .credentials _ | .dp _, .onboardingData _ | .dp _, .onboardingResult _
    | .dp _, .policy _ | .dp _, .primitive _ => cases decided <;> cases hfg
    | .credentials _, _ | .onboardingData _, _ | .onboardingResult _, _
    | .policy _, _ | .primitive _, _ => cases decided <;> cases hfg
  match l, r with
  | .flat f, .flat g =>
      obtain ⟨a, b, rfl, rfl, hx⟩ := hflat f g (by cases decided <;> exact h)
      exact ⟨a, b, rfl, rfl, hx⟩
  | .flat _, .list _ | .flat _, .tuple _ | .list _, _ | .tuple _, _ =>
      cases decided <;> cases h

theorem bool_injective {a b : Bool} (h : (.bool a : CPLiteral) = .bool b) : a = b := by
  have h := congrArg Literal.getBool? h
  simpa using h

theorem boolOp_or_ne (op : Infix) : (∃ d, op = boolOp d) ∨ (op ≠ .and ∧ op ≠ .or) := by
  by_cases h1 : op = .and
  · exact Or.inl ⟨false, h1⟩
  · by_cases h2 : op = .or
    · exact Or.inl ⟨true, h2⟩
    · exact Or.inr ⟨h1, h2⟩

theorem boolOp_eq (d : Bool) : boolOp d = .and ∨ boolOp d = .or := by
  cases d
  · exact Or.inl rfl
  · exact Or.inr rfl

theorem infixSem_boolOp (pf : Platform) (d : Bool) (m1 m2 : CPEvalM CPOutcome) :
    infixSem pf (boolOp d) m1 m2 = (do shortCircuit d m2 (← m1)) := by
  cases d <;> rfl

theorem infixSem_of_ne (pf : Platform) {op : Infix} (h : op ≠ .and ∧ op ≠ .or)
    (m1 m2 : CPEvalM CPOutcome) :
    infixSem pf op m1 m2 = (do infixOp pf op (← m1) (← m2)) := by
  cases op with
  | and => exact absurd rfl h.1
  | or => exact absurd rfl h.2
  | _ => rfl

theorem eq_lit_of_not_return {o : CPOutcome} (h : o.isReturn = false) : ∃ l, o = .lit l := by
  cases o with
  | lit l => exact ⟨l, rfl⟩
  | ret o => cases h

/-! ## The two halves of an operator -/

section

variable {pf : Platform}

theorem infixSem_eq (op : Infix) (m1 m2 : CPEvalM CPOutcome) :
    infixSem pf op m1 m2 = (do infixRest pf op m2 (← m1)) := by
  cases op <;> rfl

theorem infixRest_boolOp (d : Bool) (m2 : CPEvalM CPOutcome) :
    infixRest pf (boolOp d) m2 = shortCircuit d m2 := by
  cases d <;> rfl

theorem infixRest_of_ne {op : Infix} (h : op ≠ .and ∧ op ≠ .or) (m2 : CPEvalM CPOutcome)
    (o : CPOutcome) : infixRest pf op m2 o = (do infixOp pf op o (← m2)) := by
  cases op with
  | and => exact absurd rfl h.1
  | or => exact absurd rfl h.2
  | _ => rfl

theorem reachesRight_boolOp (d : Bool) : ReachesRight (boolOp d) (.lit (.bool !d)) := by
  constructor <;> intro h <;> cases d <;> first | rfl | cases h

theorem reachesRight_of_ne {op : Infix} (h : op ≠ .and ∧ op ≠ .or) (o : CPOutcome) :
    ReachesRight op o :=
  ⟨fun hop => absurd hop h.1, fun hop => absurd hop h.2⟩

theorem lift_still (err : Error CPFlatLiteral) (x : Checked (Option CPLiteral)) :
    (EvalM.lift err x).Still := by
  match x with
  | .ok (some l) => exact .pure _
  | .ok none => exact .throw _
  | .error msg => exact .throw _

theorem infixOp_still (op : Infix) (o q : CPOutcome) : (infixOp pf op o q).Still := by
  cases o with
  | ret o => exact .pure _
  | lit l =>
      cases q with
      | ret q => exact .pure _
      | lit l' => exact (lift_still _ _).map _

theorem boolOperand_still (o : CPOutcome) : (boolOperand o : CPEvalM CPOutcome).Still := by
  cases o with
  | ret o => exact .pure _
  | lit l =>
      unfold boolOperand
      dsimp only
      split_ifs
      · exact .pure _
      · exact .throw _

variable {V : View} {s t : CPWorld}

/-- The right operand is simulated where it is reached. -/
theorem infixRest_sim (hR : V.worlds.r s t) (op : Infix) (o : CPOutcome)
    {m2 m2' : CPEvalM CPOutcome} (h2 : ReachesRight op o → V.Sim m2 s m2' t) :
    V.Sim (infixRest pf op m2 o) s (infixRest pf op m2' o) t := by
  rcases boolOp_or_ne op with ⟨d, rfl⟩ | hop
  · rw [infixRest_boolOp, infixRest_boolOp]
    cases o with
    | ret o => exact .pure hR rfl
    | lit l =>
        simp only [shortCircuit]
        cases hb : l.getBool? with
        | none => exact .throw hR
        | some b =>
            dsimp only
            split_ifs with hbd
            · exact .pure hR rfl
            · -- the operand is reached: the left one is the other Boolean
              have hl : l = .bool !d := by
                rw [Literal.eq_bool hb]
                cases b <;> cases d <;> first | rfl | exact absurd rfl hbd
              subst hl
              exact (h2 (reachesRight_boolOp d)).bind
                (fun o o' _ _ _ _ hR ho => ho ▸ (boolOperand_still o).sim hR)
  · rw [infixRest_of_ne hop, infixRest_of_ne hop]
    exact (h2 (reachesRight_of_ne hop o)).bind
      (fun q q' _ _ _ _ hR hq => hq ▸ (infixOp_still op o q).sim hR)

/-- Operands that are simulated. -/
theorem infixKeep_sim (op : Infix) {m1 m2 m1' m2' : CPEvalM CPOutcome} (h1 : V.Sim m1 s m1' t)
    (h2 : ∀ o s₁ t₁, m1.run s = some (.ok o, s₁) → m1'.run t = some (.ok o, t₁) →
      V.worlds.r s₁ t₁ → ReachesRight op o → V.Sim m2 s₁ m2' t₁) :
    V.Sim (infixSem pf op m1 m2) s (infixSem pf op m1' m2') t := by
  rw [infixSem_eq, infixSem_eq]
  refine h1.bind (fun o o' s₁ t₁ hs ht hR ho => ?_)
  subst ho
  exact infixRest_sim hR op o (h2 o s₁ t₁ hs ht hR)

/-- Operands and result that are known. -/
theorem infixStatic_sim {op : Infix} {l1 l2 l : CPLiteral} {m1 m2 : CPEvalM CPOutcome}
    (h1 : V.Skips (· = .lit l1) m1 s t)
    (h2 : ∀ o s₁, m1.run s = some (.ok o, s₁) → V.worlds.r s₁ t → ReachesRight op o →
      V.Skips (· = .lit l2) m2 s₁ t)
    (hl : l1.evalInfix pf op l2 = .ok (some l)) :
    V.Sim (infixSem pf op m1 m2) s (pure (.lit l) : CPEvalM CPOutcome) t := by
  rw [infixSem_eq]
  refine .drop h1 (fun o s₁ hs hR ho => ?_)
  subst ho
  rcases boolOp_or_ne op with ⟨d, rfl⟩ | hop
  · obtain ⟨a, b, rfl, rfl, rfl⟩ := evalInfix_boolOp hl
    simp only [infixRest_boolOp, shortCircuit, Literal.getBool?_bool]
    split_ifs with had
    · have hval : boolOpVal d a b = a := by
        subst had
        cases a <;> rfl
      rw [hval]
      exact .pure hR rfl
    · have ha : a = !d := by
        cases a <;> cases d <;> first | rfl | exact absurd rfl had
      subst ha
      have hval : boolOpVal d (!d) b = b := by
        cases d <;> rfl
      rw [hval]
      refine .drop (h2 _ s₁ hs hR (reachesRight_boolOp d)) (fun q _ _ hR hq => ?_)
      subst hq
      simp only [boolOperand, Literal.isBool, Literal.getBool?_bool, Option.isSome_some, if_true]
      exact .pure hR rfl
  · rw [infixRest_of_ne hop]
    refine .drop (h2 _ s₁ hs hR (reachesRight_of_ne hop _)) (fun q _ _ hR hq => ?_)
    subst hq
    simp only [infixOp, hl]
    exact .pure hR rfl

end

/-! ## Operands that are left out -/

section

variable {env : Env CPFlatLiteral} {V : View} {P : Pre} {op : Infix} {e1 e2 : CPExpr}
variable {ρ : List CPOutcome} {s t : CPWorld} (hP : P ρ s t)

include hP

theorem LeftStands.sim {x : CPExpr} (ok : LeftStands env V P op e1 e2 x)
    (h1 : V.Sim (run env ρ e1) s (run env ρ x) t) :
    V.Sim (run env ρ (.infixExpr op e1 e2)) s (run env ρ x) t := by
  rw [run_infixExpr, infixSem_eq]
  refine h1.bind_value (fun o o' s₁ t₁ hs ht _ ho => ?_)
  subst ho
  exact .of_skips (ok o ρ s₁ t₁ ⟨s, t, hP, hs, ht⟩)

theorem RightStands.sim (ok : RightStands env V P op e1 e2) {m' : CPEvalM CPOutcome}
    (h2 : ∀ s₁, after (P.past (sem env e1)) ρ s₁ t → V.worlds.r s₁ t →
      V.Sim (run env ρ e2) s₁ m' t) :
    V.Sim (run env ρ (.infixExpr op e1 e2)) s m' t := by
  obtain ⟨drop, hrest⟩ := ok
  rw [run_infixExpr, infixSem_eq]
  refine .drop (drop ρ s t hP) (fun o s₁ hs hR ho => ?_)
  obtain ⟨l, rfl⟩ := eq_lit_of_not_return ho
  exact View.Sim.trans (hrest l ρ s₁ t ⟨s, hP, hs⟩) (h2 s₁ ⟨_, s, hP, hs⟩ hR)

theorem AlwaysTrue.sim (ok : AlwaysTrue env V P op e1 e2) :
    V.Sim (run env ρ (.infixExpr op e1 e2)) s (run env ρ (.litExpr (.bool true))) t := by
  rw [run_infixExpr, run_litExpr]
  exact .of_skips (ok ρ s t hP)

end

end Armour.Control
