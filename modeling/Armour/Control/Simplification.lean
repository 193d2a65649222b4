import Armour.Control.Operators
import Armour.Control.Preservation

/-! # Simplified operators

What `simplify` makes of an operator against the operator itself, in one run.  Its rings treat an
operator and its inverse alike, and two expressions that differ as having different values; the
runs in which this matters are told by the operands.
-/

namespace Armour.Control

open Armour.Lib Armour.Lang

/-! ## What is simplified -/

namespace Ring

/-- A literal that a ring drops. -/
def Neutral (r : Ring) (op : Infix) (u : CPLiteral) : Prop :=
  (op = r.plus1 ∨ op = r.plus2) ∧ u = r.zero ∨ (op = r.multiply1 ∨ op = r.multiply2) ∧ u = r.one

/-- A literal that a ring keeps without the other operand. -/
def Absorbing (r : Ring) (op : Infix) (u : CPLiteral) : Prop :=
  (op = r.multiply1 ∨ op = r.multiply2) ∧ u = r.zero

/-- The ways in which a ring applies. -/
inductive Applied (r : Ring) (op : Infix) (e1 e2 : CPExpr) : CPExpr → Prop
  | leftReturn (h : e1.isReturn = true) : Applied r op e1 e2 e1
  | rightReturn (h : e2.isReturn = true) : Applied r op e1 e2 e2
  | leftNeutral (u : CPLiteral) (hu : r.Neutral op u) (h : isLit e1 u = true) :
      Applied r op e1 e2 e2
  | rightNeutral (u : CPLiteral) (hu : r.Neutral op u) (h : isLit e2 u = true) :
      Applied r op e1 e2 e1
  | leftAbsorbing (u : CPLiteral) (hu : r.Absorbing op u) (h : isLit e1 u = true) :
      Applied r op e1 e2 e1
  | rightAbsorbing (u : CPLiteral) (hu : r.Absorbing op u) (h : isLit e2 u = true) :
      Applied r op e1 e2 e2

theorem simplify_cases (r : Ring) (op : Infix) (b1 b2 : Bool) (e1 e2 : CPExpr)
    (h : (r.simplify op b1 e1 b2 e2).1 = true) :
    r.Applied op e1 e2 (r.simplify op b1 e1 b2 e2).2.2 := by
  unfold Ring.simplify at h ⊢
  split_ifs at h ⊢ with hplus h1 h2 h3 h4 hmultiply h1 h2 h3 h4 h5 h6
  · exact .leftReturn h1
  · exact .leftNeutral r.zero (Or.inl ⟨hplus, rfl⟩) h2
  · exact .rightReturn h3
  · exact .rightNeutral r.zero (Or.inl ⟨hplus, rfl⟩) h4
  · exact .leftReturn h1
  · exact .leftAbsorbing r.zero ⟨hmultiply, rfl⟩ h2
  · exact .leftNeutral r.one (Or.inr ⟨hmultiply, rfl⟩) h3
  · exact .rightReturn h4
  · exact .rightAbsorbing r.zero ⟨hmultiply, rfl⟩ h5
  · exact .rightNeutral r.one (Or.inr ⟨hmultiply, rfl⟩) h6

end Ring

/-- The rings, in the order in which they are tried. -/
def rings : List Ring := [orRing, andRing, intRing, floatRing]

theorem simplifyRings_cases (op : Infix) (b1 b2 : Bool) (e1 e2 : CPExpr) (rs : List Ring) :
    (simplifyRings op b1 e1 b2 e2 rs).2 = .infixExpr op e1 e2 ∨
      ∃ r ∈ rs, r.Applied op e1 e2 (simplifyRings op b1 e1 b2 e2 rs).2 := by
  induction rs with
  | nil => exact Or.inl rfl
  | cons r rs ih =>
      rw [simplifyRings]
      by_cases h : (r.simplify op b1 e1 b2 e2).1 = true
      · rw [if_pos h]
        exact Or.inr ⟨r, List.mem_cons_self, r.simplify_cases op b1 b2 e1 e2 h⟩
      · rw [if_neg h]
        rcases ih with ih | ⟨r', hr', ih⟩
        · exact Or.inl ih
        · exact Or.inr ⟨r', List.mem_cons_of_mem r hr', ih⟩

/-- All that `simplify` does. -/
theorem simplify_cases {op : Infix} {b1 b2 b : Bool} {e1 e2 z : CPExpr}
    (hs : simplify op b1 e1 b2 e2 = .ok (b, z)) :
    (op = .equal ∧ (e1 == e2) = true ∧ z = .litExpr (.bool true)) ∨
    (op = .notEqual ∧ (e1 != e2) = true ∧ z = .litExpr (.bool true)) ∨
    z = .infixExpr op e1 e2 ∨
    ((op = .divide → isLit e2 (.int 0) = false) ∧ ∃ r ∈ rings, r.Applied op e1 e2 z) := by
  unfold simplify at hs
  split_ifs at hs with hdiv hequal hnot
  · cases hs
    exact Or.inl ⟨hequal.1, hequal.2, rfl⟩
  · cases hs
    exact Or.inr (Or.inl ⟨hnot.1, hnot.2, rfl⟩)
  · have hz : z = (simplifyRings op b1 e1 b2 e2 rings).2 :=
      congrArg Prod.snd (Except.ok.inj hs).symm
    rcases simplifyRings_cases op b1 b2 e1 e2 rings with h | h
    · exact Or.inr (Or.inr (Or.inl (hz.trans h)))
    · refine Or.inr (Or.inr (Or.inr ⟨fun hop => ?_, hz ▸ h⟩))
      exact Bool.eq_false_iff.mpr (fun hzero => hdiv ⟨hop, Or.inl hzero⟩)

/-! ## Literals that are dropped or kept -/

theorem isLit_bool {e : CPExpr} {b : Bool} (h : isLit e (.bool b) = true) :
    e = .litExpr (.bool b) := by
  unfold isLit at h
  split at h
  · rename_i x
    cases x with
    | flat f =>
        cases f with
        | dp d =>
            cases d with
            | bool c =>
                have hcb : c = b := of_decide_eq_true h
                rw [hcb]
                rfl
            | _ => cases h
        | _ => cases h
    | _ => cases h
  · cases h

theorem isLit_int {e : CPExpr} {i : Int64} (h : isLit e (.int i) = true) :
    e = .litExpr (.int i) := by
  unfold isLit at h
  split at h
  · rename_i x
    cases x with
    | flat f =>
        cases f with
        | dp d =>
            cases d with
            | int j =>
                have hji : j = i := of_decide_eq_true h
                rw [hji]
                rfl
            | _ => cases h
        | _ => cases h
    | _ => cases h
  · cases h

theorem isLit_float {e : CPExpr} {f : F64} (h : isLit e (floatLit f) = true) :
    ∃ g, e = .litExpr (floatLit g) := by
  unfold isLit at h
  split at h
  · rename_i x
    cases x with
    | flat fl =>
        cases fl with
        | dp d =>
            cases d with
            | float g => exact ⟨g, rfl⟩
            | _ => cases h
        | _ => cases h
    | _ => cases h
  · cases h

/-- The operators of the rings of numbers. -/
def Arith (op : Infix) : Prop := op = .plus ∨ op = .minus ∨ op = .multiply ∨ op = .divide

theorem neutral_cases {r : Ring} (hr : r ∈ rings) {op : Infix} {u : CPLiteral}
    (hu : r.Neutral op u) :
    (∃ d, op = boolOp d ∧ u = .bool (!d)) ∨
    ((op = .plus ∨ op = .minus) ∧ u = .int 0) ∨
    ((op = .multiply ∨ op = .divide) ∧ u = .int 1) ∨
    (Arith op ∧ ∃ f, u = floatLit f) := by
  simp only [rings, List.mem_cons, List.not_mem_nil, or_false] at hr
  rcases hr with rfl | rfl | rfl | rfl
  · rcases hu with ⟨hop | hop, rfl⟩ | ⟨hop | hop, rfl⟩
    · exact Or.inl ⟨true, hop, rfl⟩
    · exact Or.inl ⟨true, hop, rfl⟩
    · exact Or.inl ⟨false, hop, rfl⟩
    · exact Or.inl ⟨false, hop, rfl⟩
  · rcases hu with ⟨hop | hop, rfl⟩ | ⟨hop | hop, rfl⟩
    · exact Or.inl ⟨false, hop, rfl⟩
    · exact Or.inl ⟨false, hop, rfl⟩
    · exact Or.inl ⟨true, hop, rfl⟩
    · exact Or.inl ⟨true, hop, rfl⟩
  · rcases hu with ⟨hop, rfl⟩ | ⟨hop, rfl⟩
    · exact Or.inr (Or.inl ⟨hop, rfl⟩)
    · exact Or.inr (Or.inr (Or.inl ⟨hop, rfl⟩))
  · rcases hu with ⟨hop | hop, rfl⟩ | ⟨hop | hop, rfl⟩
    · exact Or.inr (Or.inr (Or.inr ⟨Or.inl hop, _, rfl⟩))
    · exact Or.inr (Or.inr (Or.inr ⟨Or.inr (Or.inl hop), _, rfl⟩))
    · exact Or.inr (Or.inr (Or.inr ⟨Or.inr (Or.inr (Or.inl hop)), _, rfl⟩))
    · exact Or.inr (Or.inr (Or.inr ⟨Or.inr (Or.inr (Or.inr hop)), _, rfl⟩))

theorem absorbing_cases {r : Ring} (hr : r ∈ rings) {op : Infix} {u : CPLiteral}
    (hu : r.Absorbing op u) :
    (∃ d, op = boolOp d ∧ u = .bool d) ∨
    ((op = .multiply ∨ op = .divide) ∧ u = .int 0) ∨
    (Arith op ∧ ∃ f, u = floatLit f) := by
  obtain ⟨hop, rfl⟩ := hu
  simp only [rings, List.mem_cons, List.not_mem_nil, or_false] at hr
  rcases hr with rfl | rfl | rfl | rfl
  · exact Or.inl ⟨false, hop.elim id id, rfl⟩
  · exact Or.inl ⟨true, hop.elim id id, rfl⟩
  · exact Or.inr (Or.inl ⟨hop, rfl⟩)
  · rcases hop with hop | hop
    · exact Or.inr (Or.inr ⟨Or.inr (Or.inr (Or.inl hop)), _, rfl⟩)
    · exact Or.inr (Or.inr ⟨Or.inr (Or.inr (Or.inr hop)), _, rfl⟩)

/-! ## Values of operators -/

theorem Arith.ne {op : Infix} (hop : Arith op) : op ≠ .and ∧ op ≠ .or := by
  rcases hop with rfl | rfl | rfl | rfl <;> simp

/-- The value of an operator on numbers, where it has one. -/
def number (op : Infix) (i j : Int64) : Int64 :=
  match op with
  | .plus => Int64.ofInt (i.toInt + j.toInt)
  | .minus => Int64.ofInt (i.toInt - j.toInt)
  | .multiply => Int64.ofInt (i.toInt * j.toInt)
  | _ => i / j

theorem i64_ok {pf : Platform} {n : Int} {msg : String} {d : DPLiteral}
    (h : (do return some (.int (← pf.i64 n msg)) : Checked (Option DPLiteral)) = .ok (some d)) :
    d = .int (Int64.ofInt n) := by
  unfold Platform.i64 at h
  split_ifs at h <;> cases h <;> rfl

/-- Only integers are added, subtracted, multiplied and divided. -/
theorem Arith.evalInfix_dp {pf : Platform} {op : Infix} (hop : Arith op) {f g : DPFlatLiteral}
    {d : DPLiteral} (h : f.evalInfix pf op g = .ok (some d)) :
    ∃ i j, f = .int i ∧ g = .int j ∧ d = .int (number op i j) ∧ (op = .divide → j ≠ 0) := by
  rcases hop with rfl | rfl | rfl | rfl
  · cases f <;> try cases h
    cases g <;> try cases h
    exact ⟨_, _, rfl, rfl, i64_ok h, by simp⟩
  · cases f <;> try cases h
    cases g <;> try cases h
    exact ⟨_, _, rfl, rfl, i64_ok h, by simp⟩
  · cases f <;> try cases h
    cases g <;> try cases h
    exact ⟨_, _, rfl, rfl, i64_ok h, by simp⟩
  · cases f <;> try cases h
    cases g <;> try cases h
    rename_i i j
    refine ⟨i, j, rfl, rfl, ?_⟩
    have hdiv : (if j = 0 then .ok none
      else if i = Int64.minValue ∧ j = -1 then .error "attempt to divide with overflow"
      else .ok (some (.int (i / j))) : Checked (Option DPLiteral)) = .ok (some d) := h
    by_cases hj : j = 0
    · rw [if_pos hj] at hdiv
      cases hdiv
    · rw [if_neg hj] at hdiv
      split_ifs at hdiv
      exact ⟨(Option.some.inj (Except.ok.inj hdiv)).symm, fun _ => hj⟩

theorem Arith.evalInfix {pf : Platform} {op : Infix} (hop : Arith op) {l1 l2 l : CPLiteral}
    (h : l1.evalInfix pf op l2 = .ok (some l)) :
    ∃ i j, l1 = .int i ∧ l2 = .int j ∧ l = .int (number op i j) ∧ (op = .divide → j ≠ 0) := by
  have hflat : ∀ f g : CPFlatLiteral, f.evalInfix pf op g = .ok (some l) →
      ∃ i j, f = .dp (.int i) ∧ g = .dp (.int j) ∧ l = .int (number op i j) ∧
        (op = .divide → j ≠ 0) := by
    intro f g hfg
    match f, g with
    | .dp f, .dp g =>
        have hd : CPFlatLiteral.ofChecked (f.evalInfix pf op g) = .ok (some l) := by
          rcases hop with rfl | rfl | rfl | rfl <;> exact hfg
        obtain ⟨d, hval, rfl⟩ := ofChecked_eq_some hd
        obtain ⟨i, j, rfl, rfl, rfl, hj⟩ := hop.evalInfix_dp hval
        exact ⟨i, j, rfl, rfl, rfl, hj⟩
    | .dp _, .credentials _ | .dp _, .onboardingData _ | .dp _, .onboardingResult _
    | .dp _, .policy _ | .dp _, .primitive _ =>
        rcases hop with rfl | rfl | rfl | rfl <;> cases hfg
    | .credentials _, _ | .onboardingData _, _ | .onboardingResult _, _
    | .policy _, _ | .primitive _, _ => rcases hop with rfl | rfl | rfl | rfl <;> cases hfg
  match l1, l2 with
  | .flat f, .flat g =>
      have hfg : f.evalInfix pf op g = .ok (some l) := by
        rcases hop with rfl | rfl | rfl | rfl <;> exact h
      obtain ⟨i, j, rfl, rfl, hl⟩ := hflat f g hfg
      exact ⟨i, j, rfl, rfl, hl⟩
  | .flat _, .list _ | .flat _, .tuple _ | .list _, _ | .tuple _, _ =>
      rcases hop with rfl | rfl | rfl | rfl <;> cases h

/-- A right operand that a ring drops is one that the operator leaves the other operand with. -/
theorem number_rightNeutral {op : Infix} (i : Int64) :
    (op = .plus ∨ op = .minus → number op i 0 = i) ∧
      (op = .multiply ∨ op = .divide → number op i 1 = i) := by
  have h0 : (0 : Int64).toInt = 0 := rfl
  have h1 : (1 : Int64).toInt = 1 := rfl
  constructor
  · rintro (rfl | rfl)
    · show Int64.ofInt (i.toInt + (0 : Int64).toInt) = i
      rw [h0, Int.add_zero, Int64.ofInt_toInt]
    · show Int64.ofInt (i.toInt - (0 : Int64).toInt) = i
      rw [h0, Int.sub_zero, Int64.ofInt_toInt]
  · rintro (rfl | rfl)
    · show Int64.ofInt (i.toInt * (1 : Int64).toInt) = i
      rw [h1, Int.mul_one, Int64.ofInt_toInt]
    · exact Int64.div_one

theorem number_plus_zero (j : Int64) : number .plus 0 j = j := by
  show Int64.ofInt ((0 : Int64).toInt + j.toInt) = j
  have h0 : (0 : Int64).toInt = 0 := rfl
  rw [h0, Int.zero_add, Int64.ofInt_toInt]

theorem number_multiply_one (j : Int64) : number .multiply 1 j = j := by
  show Int64.ofInt ((1 : Int64).toInt * j.toInt) = j
  have h1 : (1 : Int64).toInt = 1 := rfl
  rw [h1, Int.one_mul, Int64.ofInt_toInt]

theorem number_absorbing {op : Infix} (hop : op = .multiply ∨ op = .divide) (j : Int64) :
    number op 0 j = 0 := by
  have h0 : (0 : Int64).toInt = 0 := rfl
  rcases hop with rfl | rfl
  · show Int64.ofInt ((0 : Int64).toInt * j.toInt) = 0
    rw [h0, Int.zero_mul]
    rfl
  · exact Int64.zero_div

theorem number_multiply_zero (i : Int64) : number .multiply i 0 = 0 := by
  show Int64.ofInt (i.toInt * (0 : Int64).toInt) = 0
  have h0 : (0 : Int64).toInt = 0 := rfl
  rw [h0, Int.mul_zero]
  rfl

/-- Zero less a number is that number: zero, or the least number where subtraction wraps. -/
theorem number_zero_minus (j : Int64) :
    number .minus 0 j = j ↔ j = 0 ∨ j = Int64.minValue := by
  constructor
  · intro h
    have h0 : (0 : Int64).toInt = 0 := rfl
    have hneg : Int64.ofInt ((0 : Int64).toInt - j.toInt) = j := h
    rw [h0, Int.zero_sub] at hneg
    by_cases hmin : j.toInt = -2 ^ 63
    · exact Or.inr (Int64.toInt_inj.mp hmin)
    · have hlow : -2 ^ 63 ≤ j.toInt := j.minValue_le_toInt
      have hhigh : j.toInt < 2 ^ 63 := j.toInt_lt
      have hval := Int64.toInt_ofInt_of_le (n := -j.toInt) (by omega) (by omega)
      rw [hneg] at hval
      refine Or.inl (Int64.toInt_inj.mp ?_)
      show j.toInt = 0
      omega
  · rintro (rfl | rfl) <;> decide

/-- One divided by a number is that number. -/
theorem number_one_divide {j : Int64} (hj : j ≠ 0) :
    number .divide 1 j = j ↔ j = 1 ∨ j = -1 := by
  constructor
  · intro h
    have h1 : (1 : Int64).toInt = 1 := rfl
    have hval := Int64.toInt_div_of_ne_left 1 j (by decide)
    have hdiv : (1 : Int64) / j = j := h
    rw [hdiv, h1] at hval
    have habs : j.toInt.natAbs = Nat.div 1 j.toInt.natAbs := by
      have habs := congrArg Int.natAbs hval
      rwa [Int.natAbs_tdiv] at habs
    have hone : j.toInt.natAbs = 1 := by
      by_contra hne
      have hzero : j.toInt ≠ 0 := fun hz => hj (Int64.toInt_inj.mp hz)
      have hbig : Nat.div 1 j.toInt.natAbs = 0 := Nat.div_eq_of_lt (by omega)
      omega
    rcases Int.natAbs_eq j.toInt with hpos | hneg
    · refine Or.inl (Int64.toInt_inj.mp ?_)
      rw [hpos, hone]
      rfl
    · refine Or.inr (Int64.toInt_inj.mp ?_)
      rw [hneg, hone]
      rfl
  · rintro (rfl | rfl) <;> decide

/-! ## Operators that give a literal -/

section

variable {env : Env CPFlatLiteral} {ρ : List CPOutcome} {w w' : World CPFlatLiteral}

/-- What the operands of `&&` or `||` did that gave a literal. -/
theorem boolOp_lit {d : Bool} {e1 e2 : CPExpr} {l : CPLiteral}
    (hrun : (run env ρ (.infixExpr (boolOp d) e1 e2)).run w = some (.ok (.lit l), w')) :
    ((run env ρ e1).run w = some (.ok (.lit (.bool d)), w') ∧ l = .bool d) ∨
    (∃ c w₁, (run env ρ e1).run w = some (.ok (.lit (.bool !d)), w₁) ∧
      (run env ρ e2).run w₁ = some (.ok (.lit l), w') ∧ l = .bool c) := by
  rw [run_infixExpr, infixSem_boolOp] at hrun
  obtain ⟨o, w₁, h1, h⟩ := Comp.bind_eq_ok hrun
  clear hrun
  cases o with
  | ret o => cases h
  | lit l1 =>
      simp only [shortCircuit] at h
      cases hb : l1.getBool? with
      | none =>
          rw [hb] at h
          cases h
      | some b =>
          rw [hb] at h
          rw [Literal.eq_bool hb] at h h1
          dsimp only at h
          by_cases hbd : b = d
          · rw [if_pos hbd] at h
            subst hbd
            cases h
            exact Or.inl ⟨h1, rfl⟩
          · rw [if_neg hbd] at h
            obtain ⟨q, w₂, h2, h'⟩ := Comp.bind_eq_ok h
            clear h
            have hnot : b = !d := by
              cases b <;> cases d <;> simp_all
            subst hnot
            cases q with
            | ret q => cases h'
            | lit l2 =>
                simp only [boolOperand] at h'
                by_cases hbool : l2.isBool = true
                · rw [if_pos hbool] at h'
                  cases h'
                  obtain ⟨c, hc⟩ := Option.isSome_iff_exists.mp hbool
                  exact Or.inr ⟨c, w₁, h1, h2, Literal.eq_bool hc⟩
                · rw [if_neg hbool] at h'
                  cases h'

/-- What the operands of any other operator did that gave a literal. -/
theorem infixOp_lit {op : Infix} (hop : op ≠ .and ∧ op ≠ .or) {e1 e2 : CPExpr} {l : CPLiteral}
    (hrun : (run env ρ (.infixExpr op e1 e2)).run w = some (.ok (.lit l), w')) :
    ∃ l1 l2 w₁, (run env ρ e1).run w = some (.ok (.lit l1), w₁) ∧
      (run env ρ e2).run w₁ = some (.ok (.lit l2), w') ∧
      l1.evalInfix env.platform op l2 = .ok (some l) := by
  rw [run_infixExpr, infixSem_of_ne _ hop] at hrun
  obtain ⟨o, w₁, h1, hrun⟩ := Comp.bind_eq_ok hrun
  obtain ⟨q, w₂, h2, h⟩ := Comp.bind_eq_ok hrun
  clear hrun
  cases o with
  | ret o => cases h
  | lit l1 =>
      cases q with
      | ret q => cases h
      | lit l2 =>
          refine ⟨l1, l2, w₁, h1, ?_⟩
          simp only [infixOp] at h
          cases hval : l1.evalInfix env.platform op l2 with
          | error e =>
              rw [hval] at h
              cases h
          | ok r =>
              rw [hval] at h
              cases r with
              | none => cases h
              | some r =>
                  cases h
                  exact ⟨h2, rfl⟩

theorem not_lit_of_isReturn {e : CPExpr} (he : e.isReturn = true) (l : CPLiteral) :
    (run env ρ e).run w ≠ some (.ok (.lit l), w') := by
  intro h
  cases e with
  | returnExpr r =>
      rw [run_returnExpr, map_eq_pure_bind] at h
      obtain ⟨o, w₁, -, h⟩ := Comp.bind_eq_ok h
      cases h
  | _ => cases he

theorem run_lit {l l' : CPLiteral}
    (h : (run env ρ (.litExpr l)).run w = some (.ok (.lit l'), w')) : l = l' ∧ w = w' := by
  rw [run_litExpr] at h
  cases h
  exact ⟨rfl, rfl⟩

/-- What the operands of an operator on numbers did that gave a literal. -/
theorem Arith.operands {op : Infix} (hop : Arith op) {e1 e2 : CPExpr} {l : CPLiteral}
    (hrun : (run env ρ (.infixExpr op e1 e2)).run w = some (.ok (.lit l), w')) :
    ∃ i j w₁, (run env ρ e1).run w = some (.ok (.lit (.int i)), w₁) ∧
      (run env ρ e2).run w₁ = some (.ok (.lit (.int j)), w') ∧ l = .int (number op i j) ∧
      (op = .divide → j ≠ 0) := by
  obtain ⟨l1, l2, w₁, h1, h2, hval⟩ := infixOp_lit hop.ne hrun
  obtain ⟨i, j, rfl, rfl, hl, hj⟩ := hop.evalInfix hval
  exact ⟨i, j, w₁, h1, h2, hl, hj⟩

theorem Arith.of_plus {op : Infix} (hop : op = .plus ∨ op = .minus) : Arith op :=
  hop.elim Or.inl (fun h => Or.inr (Or.inl h))

theorem Arith.of_multiply {op : Infix} (hop : op = .multiply ∨ op = .divide) : Arith op :=
  Or.inr (Or.inr hop)

/-- A float is no operand of an operator that gives a literal. -/
theorem Arith.no_float {op : Infix} (hop : Arith op) {e1 e2 : CPExpr} {l : CPLiteral} {f : F64}
    (hrun : (run env ρ (.infixExpr op e1 e2)).run w = some (.ok (.lit l), w')) :
    isLit e1 (floatLit f) = false ∧ isLit e2 (floatLit f) = false := by
  obtain ⟨i, j, w₁, h1, h2, -, -⟩ := hop.operands hrun
  constructor
  · refine Bool.eq_false_iff.mpr (fun h => ?_)
    obtain ⟨g, rfl⟩ := isLit_float h
    cases (run_lit h1).1
  · refine Bool.eq_false_iff.mpr (fun h => ?_)
    obtain ⟨g, rfl⟩ := isLit_float h
    cases (run_lit h2).1

/-! ## Operands that are safe to simplify -/

/-- The operands evaluate to two literals, one after the other. -/
def Operands (env : Env CPFlatLiteral) (ρ : List CPOutcome) (w : World CPFlatLiteral)
    (e1 e2 : CPExpr) (l1 l2 : CPLiteral) : Prop :=
  ∃ w₁ w₂, (run env ρ e1).run w = some (.ok (.lit l1), w₁) ∧
    (run env ρ e2).run w₁ = some (.ok (.lit l2), w₂)

/-- No rule of `simplify` that is wrong for an operator meets operands for which it matters. -/
structure SafeOperands (env : Env CPFlatLiteral) (ρ : List CPOutcome) (w : World CPFlatLiteral)
    (op : Infix) (e1 e2 : CPExpr) : Prop where
  /-- expressions that are equal have equal values -/
  equal : op = .equal → (e1 == e2) = true → ∀ l1 l2, Operands env ρ w e1 e2 l1 l2 →
    l1.evalInfix env.platform .equal l2 = .ok (some (.bool true))
  /-- expressions that differ have different values -/
  notEqual : op = .notEqual → (e1 != e2) = true → ∀ l1 l2, Operands env ρ w e1 e2 l1 l2 →
    l1.evalInfix env.platform .notEqual l2 = .ok (some (.bool true))
  /-- what is subtracted from zero is its own negation -/
  minus : op = .minus → isLit e1 (.int 0) = true → ∀ l1 l2, Operands env ρ w e1 e2 l1 l2 →
    l2 = .int 0 ∨ l2 = .int Int64.minValue
  /-- what one is divided by is its own inverse -/
  divide : op = .divide → isLit e1 (.int 1) = true → ∀ l1 l2, Operands env ρ w e1 e2 l1 l2 →
    l2 = .int 1 ∨ l2 = .int (-1)
  /-- a return on the right is not jumped over, but by a literal that `&&` looks for first -/
  returns : op = .and ∨ op = .or → e2.isReturn = true → op = .and ∧ isLit e1 (.bool false) = true

theorem Operands.eq {e1 e2 : CPExpr} {l1 l2 l1' l2' : CPLiteral}
    (h : Operands env ρ w e1 e2 l1 l2) (h' : Operands env ρ w e1 e2 l1' l2') :
    l1 = l1' ∧ l2 = l2' := by
  obtain ⟨w₁, w₂, h1, h2⟩ := h
  obtain ⟨w₁', w₂', h1', h2'⟩ := h'
  cases h1.symm.trans h1'
  cases h2.symm.trans h2'
  exact ⟨rfl, rfl⟩

theorem int_injective {i j : Int64} (h : (.int i : CPLiteral) = .int j) : i = j := by
  cases h
  rfl

theorem leftNeutral_keeps {r : Ring} (hr : r ∈ rings) {op : Infix} {u : CPLiteral}
    (hu : r.Neutral op u) {e1 e2 : CPExpr} (h : isLit e1 u = true)
    (safe : SafeOperands env ρ w op e1 e2) {l : CPLiteral}
    (hrun : (run env ρ (.infixExpr op e1 e2)).run w = some (.ok (.lit l), w')) :
    ∃ w'', (run env ρ e2).run w = some (.ok (.lit l), w'') := by
  rcases neutral_cases hr hu with ⟨d, rfl, rfl⟩ | ⟨hop, rfl⟩ | ⟨hop, rfl⟩ | ⟨hop, f, rfl⟩
  · rw [isLit_bool h] at hrun
    rcases boolOp_lit hrun with ⟨h1, -⟩ | ⟨c, w₁, h1, h2, -⟩
    · have hd := bool_injective (run_lit h1).1
      cases d <;> cases hd
    · rw [← (run_lit h1).2] at h2
      exact ⟨w', h2⟩
  · have he1 := isLit_int h
    subst he1
    obtain ⟨i, j, w₁, h1, h2, rfl, -⟩ := (Arith.of_plus hop).operands hrun
    obtain ⟨hi, rfl⟩ := run_lit h1
    rw [← int_injective hi]
    rcases hop with rfl | rfl
    · rw [number_plus_zero]
      exact ⟨w', h2⟩
    · have hj : number .minus 0 j = j := by
        refine (number_zero_minus j).mpr ?_
        rcases safe.minus rfl h _ _ ⟨w, w', h1, h2⟩ with hj | hj
        · exact Or.inl (int_injective hj)
        · exact Or.inr (int_injective hj)
      rw [hj]
      exact ⟨w', h2⟩
  · have he1 := isLit_int h
    subst he1
    obtain ⟨i, j, w₁, h1, h2, rfl, hzero⟩ := (Arith.of_multiply hop).operands hrun
    obtain ⟨hi, rfl⟩ := run_lit h1
    rw [← int_injective hi]
    rcases hop with rfl | rfl
    · rw [number_multiply_one]
      exact ⟨w', h2⟩
    · have hj : number .divide 1 j = j := by
        refine (number_one_divide (hzero rfl)).mpr ?_
        rcases safe.divide rfl h _ _ ⟨w, w', h1, h2⟩ with hj | hj
        · exact Or.inl (int_injective hj)
        · exact Or.inr (int_injective hj)
      rw [hj]
      exact ⟨w', h2⟩
  · rw [(hop.no_float hrun).1] at h
    cases h

theorem rightNeutral_keeps {r : Ring} (hr : r ∈ rings) {op : Infix} {u : CPLiteral}
    (hu : r.Neutral op u) {e1 e2 : CPExpr} (h : isLit e2 u = true) {l : CPLiteral}
    (hrun : (run env ρ (.infixExpr op e1 e2)).run w = some (.ok (.lit l), w')) :
    ∃ w'', (run env ρ e1).run w = some (.ok (.lit l), w'') := by
  rcases neutral_cases hr hu with ⟨d, rfl, rfl⟩ | ⟨hop, rfl⟩ | ⟨hop, rfl⟩ | ⟨hop, f, rfl⟩
  · rw [isLit_bool h] at hrun
    rcases boolOp_lit hrun with ⟨h1, rfl⟩ | ⟨c, w₁, h1, h2, -⟩
    · exact ⟨w', h1⟩
    · rw [← (run_lit h2).1]
      exact ⟨w₁, h1⟩
  · rw [isLit_int h] at hrun
    obtain ⟨i, j, w₁, h1, h2, rfl, -⟩ := (Arith.of_plus hop).operands hrun
    rw [← int_injective (run_lit h2).1, (number_rightNeutral i).1 hop]
    exact ⟨w₁, h1⟩
  · rw [isLit_int h] at hrun
    obtain ⟨i, j, w₁, h1, h2, rfl, -⟩ := (Arith.of_multiply hop).operands hrun
    rw [← int_injective (run_lit h2).1, (number_rightNeutral i).2 hop]
    exact ⟨w₁, h1⟩
  · rw [(hop.no_float hrun).2] at h
    cases h

theorem leftAbsorbing_keeps {r : Ring} (hr : r ∈ rings) {op : Infix} {u : CPLiteral}
    (hu : r.Absorbing op u) {e1 e2 : CPExpr} (h : isLit e1 u = true) {l : CPLiteral}
    (hrun : (run env ρ (.infixExpr op e1 e2)).run w = some (.ok (.lit l), w')) :
    ∃ w'', (run env ρ e1).run w = some (.ok (.lit l), w'') := by
  rcases absorbing_cases hr hu with ⟨d, rfl, rfl⟩ | ⟨hop, rfl⟩ | ⟨hop, f, rfl⟩
  · rw [isLit_bool h] at hrun ⊢
    rcases boolOp_lit hrun with ⟨h1, rfl⟩ | ⟨c, w₁, h1, -, -⟩
    · exact ⟨w', h1⟩
    · have hd := bool_injective (run_lit h1).1
      cases d <;> cases hd
  · rw [isLit_int h] at hrun ⊢
    obtain ⟨i, j, w₁, h1, h2, rfl, -⟩ := (Arith.of_multiply hop).operands hrun
    rw [← int_injective (run_lit h1).1, number_absorbing hop, run_litExpr]
    exact ⟨w, rfl⟩
  · rw [(hop.no_float hrun).1] at h
    cases h

theorem rightAbsorbing_keeps {r : Ring} (hr : r ∈ rings) {op : Infix} {u : CPLiteral}
    (hu : r.Absorbing op u) {e1 e2 : CPExpr} (h : isLit e2 u = true)
    (hzero : op = .divide → isLit e2 (.int 0) = false) {l : CPLiteral}
    (hrun : (run env ρ (.infixExpr op e1 e2)).run w = some (.ok (.lit l), w')) :
    ∃ w'', (run env ρ e2).run w = some (.ok (.lit l), w'') := by
  rcases absorbing_cases hr hu with ⟨d, rfl, rfl⟩ | ⟨hop, rfl⟩ | ⟨hop, f, rfl⟩
  · rw [isLit_bool h] at hrun ⊢
    rw [run_litExpr]
    rcases boolOp_lit hrun with ⟨-, rfl⟩ | ⟨c, w₁, -, h2, -⟩
    · exact ⟨w, rfl⟩
    · rw [(run_lit h2).1]
      exact ⟨w, rfl⟩
  · rcases hop with rfl | rfl
    · rw [isLit_int h] at hrun ⊢
      obtain ⟨i, j, w₁, h1, h2, rfl, -⟩ := (Arith.of_multiply (Or.inl rfl)).operands hrun
      rw [← int_injective (run_lit h2).1, number_multiply_zero, run_litExpr]
      exact ⟨w, rfl⟩
    · rw [hzero rfl] at h
      cases h
  · rw [(hop.no_float hrun).2] at h
    cases h

/-- Ring rules on safe operands. -/
theorem Ring.Applied.keeps {r : Ring} (hr : r ∈ rings) {op : Infix} {e1 e2 z : CPExpr}
    (h : r.Applied op e1 e2 z) (hzero : op = .divide → isLit e2 (.int 0) = false)
    (safe : SafeOperands env ρ w op e1 e2) (hleft : ¬(op = .and ∧ isLit e1 (.bool false) = true))
    {l : CPLiteral} (hrun : (run env ρ (.infixExpr op e1 e2)).run w = some (.ok (.lit l), w')) :
    ∃ w'', (run env ρ z).run w = some (.ok (.lit l), w'') := by
  cases h with
  | leftReturn h =>
      rcases boolOp_or_ne op with ⟨d, rfl⟩ | hop
      · rcases boolOp_lit hrun with ⟨h1, -⟩ | ⟨c, w₁, h1, -, -⟩ <;>
          exact absurd h1 (not_lit_of_isReturn h _)
      · obtain ⟨l1, l2, w₁, h1, -, -⟩ := infixOp_lit hop hrun
        exact absurd h1 (not_lit_of_isReturn h _)
  | rightReturn h =>
      rcases boolOp_or_ne op with ⟨d, rfl⟩ | hop
      · exact absurd (safe.returns (boolOp_eq d) h) hleft
      · obtain ⟨l1, l2, w₁, -, h2, -⟩ := infixOp_lit hop hrun
        exact absurd h2 (not_lit_of_isReturn h _)
  | leftNeutral u hu h => exact leftNeutral_keeps hr hu h safe hrun
  | rightNeutral u hu h => exact rightNeutral_keeps hr hu h hrun
  | leftAbsorbing u hu h => exact leftAbsorbing_keeps hr hu h hrun
  | rightAbsorbing u hu h => exact rightAbsorbing_keeps hr hu h hzero hrun

/-! ## The rules that matter, one by one -/

theorem simplify_equal {b1 b2 : Bool} {e1 e2 : CPExpr} (h : (e1 == e2) = true) :
    simplify .equal b1 e1 b2 e2 = .ok (b1 && b2, .litExpr (.bool true)) := by
  unfold simplify
  rw [if_neg (by simp), if_pos ⟨rfl, h⟩]

theorem simplify_notEqual {b1 b2 : Bool} {e1 e2 : CPExpr} (h : (e1 != e2) = true) :
    simplify .notEqual b1 e1 b2 e2 = .ok (b1 && b2, .litExpr (.bool true)) := by
  unfold simplify
  rw [if_neg (by simp), if_neg (by simp), if_pos ⟨rfl, h⟩]

theorem simplify_minus (b1 b2 : Bool) (e2 : CPExpr) :
    simplify .minus b1 (.litExpr (.int 0)) b2 e2 = .ok (b2, e2) := rfl

theorem simplify_divide {b1 b2 b : Bool} {e2 z : CPExpr}
    (h : simplify .divide b1 (.litExpr (.int 1)) b2 e2 = .ok (b, z)) : z = e2 := by
  unfold simplify at h
  by_cases hzero : isLit e2 (.int 0) = true ∨ isLit e2 (floatLit .zero) = true
  · rw [if_pos ⟨rfl, hzero⟩] at h
    cases h
  · rw [if_neg (fun hdiv => hzero hdiv.2), if_neg (by simp), if_neg (by simp)] at h
    exact (congrArg Prod.snd (Except.ok.inj h)).symm

theorem simplify_and_false (b1 b2 : Bool) (e2 : CPExpr) :
    simplify .and b1 (.litExpr (.bool false)) b2 e2 = .ok (b1, .litExpr (.bool false)) := rfl

/-- A return on the right takes the place of the operator. -/
theorem simplify_returns {op : Infix} (hop : op = .and ∨ op = .or) {b1 b2 : Bool}
    {e1 e2 : CPExpr} (h1 : e1.isReturn = false) (h2 : e2.isReturn = true)
    (hleft : ¬(op = .and ∧ isLit e1 (.bool false) = true)) :
    simplify op b1 e1 b2 e2 = .ok (b2, e2) := by
  have hring : orRing.simplify op b1 e1 b2 e2 = (true, b2, e2) := by
    unfold Ring.simplify
    rcases hop with rfl | rfl
    · have hzero : isLit e1 orRing.zero = false :=
        Bool.eq_false_iff.mpr (fun h => hleft ⟨rfl, h⟩)
      rw [if_neg (by decide), if_pos (by decide), h1, hzero, h2]
      simp
    · rw [if_pos (by decide), h1, if_neg (by simp), h2]
      simp
  have hrings : simplifyRings op b1 e1 b2 e2 rings = (b2, e2) := by
    rw [rings, simplifyRings, hring]
    rfl
  unfold simplify
  rcases hop with rfl | rfl
  · rw [if_neg (by simp), if_neg (by simp), if_neg (by simp)]
    exact congrArg Except.ok hrings
  · rw [if_neg (by simp), if_neg (by simp), if_neg (by simp)]
    exact congrArg Except.ok hrings

theorem lit_unique {m : CPEvalM CPOutcome} {l l' : CPLiteral} {w'' : World CPFlatLiteral}
    (h : m.run w = some (.ok (.lit l), w')) (h' : m.run w = some (.ok (.lit l'), w'')) :
    l = l' := by
  rw [h] at h'
  cases h'
  rfl

theorem not_return_of_lit {op : Infix} {e1 e2 : CPExpr} {l : CPLiteral}
    (hrun : (run env ρ (.infixExpr op e1 e2)).run w = some (.ok (.lit l), w')) :
    e1.isReturn = false := by
  refine Bool.eq_false_iff.mpr (fun h => ?_)
  rcases boolOp_or_ne op with ⟨d, rfl⟩ | hop
  · rcases boolOp_lit hrun with ⟨h1, -⟩ | ⟨c, w₁, h1, -, -⟩ <;>
      exact not_lit_of_isReturn h _ h1
  · obtain ⟨l1, l2, w₁, h1, -, -⟩ := infixOp_lit hop hrun
    exact not_lit_of_isReturn h _ h1

/-- A comparison that is simplified to `true`. -/
theorem compared_iff {op : Infix} (hop : op ≠ .and ∧ op ≠ .or) {e1 e2 : CPExpr} {l : CPLiteral}
    (hrun : (run env ρ (.infixExpr op e1 e2)).run w = some (.ok (.lit l), w')) :
    l = .bool true ↔ ∀ l1 l2, Operands env ρ w e1 e2 l1 l2 →
      l1.evalInfix env.platform op l2 = .ok (some (.bool true)) := by
  obtain ⟨l1, l2, w₁, h1, h2, hval⟩ := infixOp_lit hop hrun
  constructor
  · rintro rfl l1' l2' hops
    obtain ⟨rfl, rfl⟩ := hops.eq ⟨w₁, w', h1, h2⟩
    exact hval
  · intro h
    have htrue := h l1 l2 ⟨w₁, w', h1, h2⟩
    rw [hval] at htrue
    exact Option.some.inj (Except.ok.inj htrue)

/-- The value of an operator is kept exactly if no rule that is wrong for it matters. -/
theorem simplify_keeps_iff (env : Env CPFlatLiteral) {op : Infix} {b1 b2 b : Bool}
    {e1 e2 z : CPExpr} (hs : simplify op b1 e1 b2 e2 = .ok (b, z)) {ρ : List CPOutcome}
    {w w' : World CPFlatLiteral} {l : CPLiteral}
    (hrun : (run env ρ (.infixExpr op e1 e2)).run w = some (.ok (.lit l), w')) :
    (∃ w'', (run env ρ z).run w = some (.ok (.lit l), w'')) ↔
      SafeOperands env ρ w op e1 e2 := by
  constructor
  · rintro ⟨w'', hz⟩
    refine ⟨?_, ?_, ?_, ?_, ?_⟩
    · rintro rfl heq
      cases (simplify_equal heq).symm.trans hs
      exact (compared_iff (by simp) hrun).mp (run_lit hz).1.symm
    · rintro rfl hne
      cases (simplify_notEqual hne).symm.trans hs
      exact (compared_iff (by simp) hrun).mp (run_lit hz).1.symm
    · rintro rfl hzero l1 l2 hops
      have he1 := isLit_int hzero
      subst he1
      cases (simplify_minus b1 b2 e2).symm.trans hs
      have hop : Arith .minus := Or.inr (Or.inl rfl)
      obtain ⟨i, j, w₁, h1, h2, rfl, -⟩ := hop.operands hrun
      obtain ⟨-, rfl⟩ := hops.eq ⟨w₁, w', h1, h2⟩
      obtain ⟨hi, rfl⟩ := run_lit h1
      have hj := int_injective (lit_unique hz h2)
      rw [← int_injective hi] at hj
      exact ((number_zero_minus j).mp hj).imp (congrArg _) (congrArg _)
    · rintro rfl hone l1 l2 hops
      have he1 := isLit_int hone
      subst he1
      have hze2 := simplify_divide hs
      subst hze2
      have hop : Arith .divide := Or.inr (Or.inr (Or.inr rfl))
      obtain ⟨i, j, w₁, h1, h2, rfl, hzero⟩ := hop.operands hrun
      obtain ⟨-, rfl⟩ := hops.eq ⟨w₁, w', h1, h2⟩
      obtain ⟨hi, rfl⟩ := run_lit h1
      have hj := int_injective (lit_unique hz h2)
      rw [← int_injective hi] at hj
      exact ((number_one_divide (hzero rfl)).mp hj).imp (congrArg _) (congrArg _)
    · intro hop h2
      by_contra hleft
      cases (simplify_returns hop (not_return_of_lit hrun) h2 hleft).symm.trans hs
      exact not_lit_of_isReturn h2 l hz
  · intro safe
    by_cases hleft : op = .and ∧ isLit e1 (.bool false) = true
    · obtain ⟨rfl, hfalse⟩ := hleft
      have he1 := isLit_bool hfalse
      subst he1
      cases (simplify_and_false b1 b2 e2).symm.trans hs
      rcases boolOp_lit (d := false) hrun with ⟨h1, rfl⟩ | ⟨c, w₁, h1, -, -⟩
      · exact ⟨w', h1⟩
      · cases bool_injective (run_lit h1).1
    · rcases simplify_cases hs with ⟨rfl, heq, rfl⟩ | ⟨rfl, hne, rfl⟩ | rfl | ⟨hzero, r, hr, h⟩
      · rw [(compared_iff (by simp) hrun).mpr (safe.equal rfl heq), run_litExpr]
        exact ⟨w, rfl⟩
      · rw [(compared_iff (by simp) hrun).mpr (safe.notEqual rfl hne), run_litExpr]
        exact ⟨w, rfl⟩
      · exact ⟨w', hrun⟩
      · exact h.keeps hr hzero safe hleft hrun

end

/-- `1 - x` is kept. -/
theorem one_minus_kept :
    SafeOperands emptyEnv [.lit (.int 1)] default .minus (.litExpr (.int 1)) (.bvar "x" 0) := by
  have hx : run emptyEnv [.lit (.int 1)] (.bvar "x" 0) = pure (.lit (.int 1)) :=
    run_bvar emptyEnv "x" rfl
  have hrun : (run emptyEnv [.lit (.int 1)]
      (.infixExpr .minus (.litExpr (.int 1)) (.bvar "x" 0))).run default =
        some (.ok (.lit (.int 0)), default) := by
    rw [run_infixExpr, run_litExpr, hx]
    rfl
  have hs : simplify .minus true (.litExpr (.int 1)) false (.bvar "x" 0) =
      .ok (false, .infixExpr .minus (.litExpr (.int 1)) (.bvar "x" 0)) := rfl
  exact (simplify_keeps_iff emptyEnv hs hrun).mp ⟨default, hrun⟩

/-- `0 - x` is simplified to `x`, and `x != y` to `true`. -/
theorem minus_and_notEqual_changed :
    (∃ z, simplify .minus true (.litExpr (.int 0)) false (.bvar "x" 0) = .ok (false, z) ∧
      (run emptyEnv [.lit (.int 1)]
        (.infixExpr .minus (.litExpr (.int 0)) (.bvar "x" 0))).run default =
          some (.ok (.lit (.int (-1))), default) ∧
      (run emptyEnv [.lit (.int 1)] z).run default = some (.ok (.lit (.int 1)), default)) ∧
    ∃ z, simplify .notEqual false (.bvar "x" 0) false (.bvar "y" 1) = .ok (false, z) ∧
      (run emptyEnv [.lit (.int 1), .lit (.int 1)]
        (.infixExpr .notEqual (.bvar "x" 0) (.bvar "y" 1))).run default =
          some (.ok (.lit (.bool false)), default) ∧
      (run emptyEnv [.lit (.int 1), .lit (.int 1)] z).run default =
        some (.ok (.lit (.bool true)), default) := by
  have hx : run emptyEnv [.lit (.int 1)] (.bvar "x" 0) = pure (.lit (.int 1)) :=
    run_bvar emptyEnv "x" rfl
  refine ⟨⟨_, rfl, ?_, ?_⟩, ⟨_, rfl, ?_, ?_⟩⟩
  · rw [run_infixExpr, run_litExpr, hx]
    rfl
  · rw [hx]
    rfl
  · rw [run_infixExpr, run_bvar emptyEnv "x" rfl, run_bvar emptyEnv "y" rfl]
    rfl
  · rw [run_litExpr]
    rfl

end Armour.Control
