import Armour.Lang.Compose
import Armour.Lang.ControlPlane

/-! # Conditions

Expressions built from `!`, `&&`, `||` and comparisons over others that evaluate to Booleans or
integers, and the standard reading of the operators.  The `!` of the interpreter returns its
operand, so a condition is evaluated as it reads, with every condition in it, just when it has
no negation.
-/

namespace Armour.Lang

open Armour.Lib

/-- The comparisons of integers. -/
inductive Comparison where
  | equal | notEqual | lessThan | lessThanEqual | greaterThan | greaterThanEqual

namespace Comparison

def op : Comparison → Infix
  | equal => .equal
  | notEqual => .notEqual
  | lessThan => .lessThan
  | lessThanEqual => .lessThanEqual
  | greaterThan => .greaterThan
  | greaterThanEqual => .greaterThanEqual

def holds : Comparison → Int → Int → Bool
  | equal, i, j => i = j
  | notEqual, i, j => i ≠ j
  | lessThan, i, j => i < j
  | lessThanEqual, i, j => i ≤ j
  | greaterThan, i, j => j < i
  | greaterThanEqual, i, j => j ≤ i

end Comparison

/-- A condition over other expressions. -/
inductive Condition (FL : Type) where
  | atom (e : Expr FL)
  | not (c : Condition FL)
  | and (c d : Condition FL)
  | or (c d : Condition FL)
  | equal (c d : Condition FL)
  | notEqual (c d : Condition FL)
  | compare (op : Comparison) (e1 e2 : Expr FL)

namespace Condition

variable {FL : Type}

def toExpr : Condition FL → Expr FL
  | atom e => e
  | not c => .prefixExpr .not c.toExpr
  | and c d => .infixExpr .and c.toExpr d.toExpr
  | or c d => .infixExpr .or c.toExpr d.toExpr
  | equal c d => .infixExpr .equal c.toExpr d.toExpr
  | notEqual c d => .infixExpr .notEqual c.toExpr d.toExpr
  | compare op e1 e2 => .infixExpr op.op e1 e2

/-- The condition and the conditions in it. -/
def parts : Condition FL → List (Condition FL)
  | atom e => [atom e]
  | not c => not c :: c.parts
  | and c d => and c d :: (c.parts ++ d.parts)
  | or c d => or c d :: (c.parts ++ d.parts)
  | equal c d => equal c d :: (c.parts ++ d.parts)
  | notEqual c d => notEqual c d :: (c.parts ++ d.parts)
  | compare op e1 e2 => [compare op e1 e2]

/-- The condition has no negation. -/
def Plain : Condition FL → Prop
  | atom _ => True
  | not _ => False
  | and c d => c.Plain ∧ d.Plain
  | or c d => c.Plain ∧ d.Plain
  | equal c d => c.Plain ∧ d.Plain
  | notEqual c d => c.Plain ∧ d.Plain
  | compare _ _ _ => True

/-- What is not plain holds a negation of a condition that is. -/
theorem exists_not_plain {c : Condition FL} (h : ¬c.Plain) :
    ∃ d : Condition FL, d.not ∈ c.parts ∧ d.Plain := by
  have both : ∀ {c d : Condition FL}, ¬(c.Plain ∧ d.Plain) →
      (¬c.Plain → ∃ e : Condition FL, e.not ∈ c.parts ∧ e.Plain) →
      (¬d.Plain → ∃ e : Condition FL, e.not ∈ d.parts ∧ e.Plain) →
      ∃ e : Condition FL, e.not ∈ c.parts ++ d.parts ∧ e.Plain := by
    intro c d hcd ihc ihd
    by_cases hc : c.Plain
    · obtain ⟨e, he, hplain⟩ := ihd (fun hd => hcd ⟨hc, hd⟩)
      exact ⟨e, List.mem_append_right _ he, hplain⟩
    · obtain ⟨e, he, hplain⟩ := ihc hc
      exact ⟨e, List.mem_append_left _ he, hplain⟩
  induction c with
  | atom e => exact absurd trivial h
  | compare op e1 e2 => exact absurd trivial h
  | not c ih =>
      by_cases hc : c.Plain
      · exact ⟨c, List.mem_cons_self, hc⟩
      · obtain ⟨d, hd, hplain⟩ := ih hc
        exact ⟨d, List.mem_cons_of_mem _ hd, hplain⟩
  | and c d ihc ihd | or c d ihc ihd | equal c d ihc ihd | notEqual c d ihc ihd =>
      obtain ⟨e, he, hplain⟩ := both h ihc ihd
      exact ⟨e, List.mem_cons_of_mem _ he, hplain⟩

theorem Plain.of_mem {c d : Condition FL} (h : c.Plain) (hd : d ∈ c.parts) : d.Plain := by
  induction c with
  | atom e =>
      rw [List.mem_singleton.mp hd]
      exact h
  | compare op e1 e2 =>
      rw [List.mem_singleton.mp hd]
      exact h
  | not c _ => exact h.elim
  | and c d ihc ihd | or c d ihc ihd | equal c d ihc ihd | notEqual c d ihc ihd =>
      rcases List.mem_cons.mp hd with rfl | hd
      · exact h
      · rcases List.mem_append.mp hd with hd | hd
        · exact ihc h.1 hd
        · exact ihd h.2 hd

end Condition

section

variable {FT FL : Type} [TFlatTyp FT] [TFlatLiteral FT FL]

/-! ## The standard reading -/

/-- The Boolean that an evaluation gives. -/
def asBool : Outcome FL → EvalM FL Bool
  | .lit l =>
      match l.getBool? with
      | some b => pure b
      | none => Comp.throw (.notBool l)
  | .ret _ => Comp.throw (.text "not a Boolean")

/-- The integer that an evaluation gives. -/
def asInt : Outcome FL → EvalM FL Int
  | .lit l =>
      match l.dp? with
      | some (.int i) => pure i.toInt
      | _ => Comp.throw (.text "not an integer")
  | .ret _ => Comp.throw (.text "not an integer")

/-- The result that a Boolean is. -/
def ofBool (b : Bool) : Outcome FL := .lit (.bool b)

@[simp] theorem asBool_ofBool (b : Bool) : asBool (ofBool b : Outcome FL) = pure b := by
  simp [asBool, ofBool]

@[simp] theorem asInt_int (i : Int64) :
    asInt (.lit (.int i) : Outcome FL) = pure i.toInt := by
  simp [asInt, Literal.int]

/-- In every world the evaluation ends with a literal of the kind. -/
def Gives (m : EvalM FL (Outcome FL)) (kind : Literal FL → Prop) : Prop :=
  ∀ w, ∃ l w', m.run w = some (.ok (.lit l), w') ∧ kind l

def IsBoolean (l : Literal FL) : Prop := ∃ b : Bool, l = .bool b

def IsInteger (l : Literal FL) : Prop := ∃ i : Int64, l = .int i

theorem Gives.ofBool_asBool {m : EvalM FL (Outcome FL)} (h : Gives m IsBoolean) :
    ofBool <$> (m >>= asBool) = m := by
  refine Comp.ext_run (fun w => ?_)
  obtain ⟨l, w', hrun, b, rfl⟩ := h w
  have hb : (m >>= asBool).run w = some (.ok b, w') := by
    rw [Comp.run_bind_ok hrun]
    exact congrArg (fun m => m.run w') (asBool_ofBool b)
  rw [← bind_pure_comp, Comp.run_bind_ok hb, hrun]
  rfl

/-- What an integer operand is handed to. -/
theorem Gives.bind_int {α : Type} {m : EvalM FL (Outcome FL)} (h : Gives m IsInteger)
    {f : Outcome FL → EvalM FL α} {g : Int → EvalM FL α}
    (hfg : ∀ i : Int64, f (.lit (.int i)) = g i.toInt) : m >>= f = m >>= asInt >>= g := by
  refine Comp.ext_run (fun w => ?_)
  obtain ⟨l, w', hrun, i, rfl⟩ := h w
  have hi : (m >>= asInt).run w = some (.ok i.toInt, w') := by
    rw [Comp.run_bind_ok hrun, asInt_int]
    rfl
  rw [Comp.run_bind_ok hrun, Comp.run_bind_ok hi, hfg]

variable [TInterpret FL]

namespace Condition

/-- What the condition says: the right operands of `and` and `or` are read when the left ones
do not decide. -/
noncomputable def reading (env : Env FL) (ρ : List (Outcome FL)) : Condition FL → EvalM FL Bool
  | atom e => run env ρ e >>= asBool
  | not c => do
      let b ← c.reading env ρ
      pure !b
  | and c d => do if ← c.reading env ρ then d.reading env ρ else pure false
  | or c d => do if ← c.reading env ρ then pure true else d.reading env ρ
  | equal c d => do
      let a ← c.reading env ρ
      let b ← d.reading env ρ
      pure (a == b)
  | notEqual c d => do
      let a ← c.reading env ρ
      let b ← d.reading env ρ
      pure (a != b)
  | compare op e1 e2 => do
      let i ← run env ρ e1 >>= asInt
      let j ← run env ρ e2 >>= asInt
      pure (op.holds i j)

/-- The expressions under the operators evaluate to Booleans, those under comparisons to
integers. -/
def Evaluates (env : Env FL) (ρ : List (Outcome FL)) : Condition FL → Prop
  | atom e => Gives (run env ρ e) IsBoolean
  | not c => c.Evaluates env ρ
  | and c d => c.Evaluates env ρ ∧ d.Evaluates env ρ
  | or c d => c.Evaluates env ρ ∧ d.Evaluates env ρ
  | equal c d => c.Evaluates env ρ ∧ d.Evaluates env ρ
  | notEqual c d => c.Evaluates env ρ ∧ d.Evaluates env ρ
  | compare _ e1 e2 => Gives (run env ρ e1) IsInteger ∧ Gives (run env ρ e2) IsInteger

/-- The condition is evaluated as it reads: the same Boolean with the same effects. -/
def Reads (env : Env FL) (ρ : List (Outcome FL)) (c : Condition FL) : Prop :=
  run env ρ c.toExpr = ofBool <$> c.reading env ρ

/-- Every condition in the condition is evaluated as it reads, and those with a negation obey
the Boolean laws. -/
structure Standard (env : Env FL) (ρ : List (Outcome FL)) (c : Condition FL) : Prop where
  reads : ∀ d ∈ c.parts, d.Reads env ρ
  double : ∀ d : Condition FL, d.not.not ∈ c.parts →
    run env ρ d.not.not.toExpr = run env ρ d.toExpr
  notAnd : ∀ d e : Condition FL, (d.and e).not ∈ c.parts →
    run env ρ (d.and e).not.toExpr = run env ρ (d.not.or e.not).toExpr
  notOr : ∀ d e : Condition FL, (d.or e).not ∈ c.parts →
    run env ρ (d.or e).not.toExpr = run env ρ (d.not.and e.not).toExpr
  branches : ∀ d : Condition FL, d.not ∈ c.parts → ∀ t a : Expr FL,
    run env ρ (.ifExpr d.not.toExpr t (some a)) = run env ρ (.ifExpr d.toExpr a (some t))

end Condition

end

/-! ## The operators of the planes -/

/-- The operators on Booleans and integers. -/
class Operates (FL : Type) {FT : Type} [TFlatTyp FT] [TFlatLiteral FT FL] [TInterpret FL] :
    Prop where
  not : ∀ (pf : Platform) (b : Bool),
    (Literal.bool b : Literal FL).evalPrefix pf .not = .ok (some (.bool b))
  equal : ∀ (pf : Platform) (a b : Bool),
    (Literal.bool a : Literal FL).evalInfix pf .equal (.bool b) = .ok (some (.bool (a == b)))
  notEqual : ∀ (pf : Platform) (a b : Bool),
    (Literal.bool a : Literal FL).evalInfix pf .notEqual (.bool b) = .ok (some (.bool (a != b)))
  compare : ∀ (pf : Platform) (op : Comparison) (i j : Int64),
    (Literal.int i : Literal FL).evalInfix pf op.op (.int j) =
      .ok (some (.bool (op.holds i.toInt j.toInt)))

theorem evalInfix_comparison (pf : Platform) (op : Comparison) (i j : Int64) :
    DPFlatLiteral.evalInfix pf (.int i) op.op (.int j) =
      .ok (some (.bool (op.holds i.toInt j.toInt))) := by
  have heq : (i = j) ↔ i.toInt = j.toInt := Int64.toInt_inj.symm
  have hlt : (i < j) ↔ i.toInt < j.toInt := Int64.lt_iff_toInt_lt
  have hle : (i ≤ j) ↔ i.toInt ≤ j.toInt := Int64.le_iff_toInt_le
  have hgt : (j < i) ↔ j.toInt < i.toInt := Int64.lt_iff_toInt_lt
  have hge : (j ≤ i) ↔ j.toInt ≤ i.toInt := Int64.le_iff_toInt_le
  cases op with
  | equal => simp [Comparison.op, Comparison.holds, DPFlatLiteral.evalInfix, DPFlatLiteral.beq, heq]
  | notEqual =>
      simp [Comparison.op, Comparison.holds, DPFlatLiteral.evalInfix, DPFlatLiteral.beq, heq]
  | lessThan => simp [Comparison.op, Comparison.holds, DPFlatLiteral.evalInfix, hlt]
  | lessThanEqual => simp [Comparison.op, Comparison.holds, DPFlatLiteral.evalInfix, hle]
  | greaterThan => simp [Comparison.op, Comparison.holds, DPFlatLiteral.evalInfix, hgt]
  | greaterThanEqual => simp [Comparison.op, Comparison.holds, DPFlatLiteral.evalInfix, hge]

instance : Operates DPFlatLiteral where
  not _ _ := rfl
  equal _ a b := by cases a <;> cases b <;> rfl
  notEqual _ a b := by cases a <;> cases b <;> rfl
  compare pf op i j := evalInfix_comparison pf op i j

instance : Operates CPFlatLiteral where
  not _ _ := rfl
  equal _ a b := by cases a <;> cases b <;> rfl
  notEqual _ a b := by cases a <;> cases b <;> rfl
  compare pf op i j := by
    have h := evalInfix_comparison pf op i j
    cases op with
    | equal => exact congrArg CPFlatLiteral.ofChecked h
    | notEqual => exact congrArg CPFlatLiteral.ofChecked h
    | lessThan => exact congrArg CPFlatLiteral.ofChecked h
    | lessThanEqual => exact congrArg CPFlatLiteral.ofChecked h
    | greaterThan => exact congrArg CPFlatLiteral.ofChecked h
    | greaterThanEqual => exact congrArg CPFlatLiteral.ofChecked h

/-! ## What is evaluated -/

section

variable {FT FL : Type} [TFlatTyp FT] [TFlatLiteral FT FL] [TInterpret FL] {env : Env FL}
  {ρ : List (Outcome FL)}

omit [TInterpret FL] in
theorem shortCircuit_ofBool (decided b : Bool) (m : EvalM FL Bool) :
    shortCircuit decided (ofBool <$> m) (ofBool b) =
      if b = decided then pure (ofBool b) else ofBool <$> m := by
  have hb : (Literal.bool b : Literal FL).getBool? = some b := Literal.getBool?_bool b
  have hoperand : ∀ a : Bool, boolOperand (ofBool a : Outcome FL) = pure (ofBool a) := by
    intro a
    simp [boolOperand, ofBool, Literal.isBool]
  unfold ofBool shortCircuit
  simp only [hb]
  split_ifs
  · rfl
  · rw [bind_map_left]
    exact (bind_congr hoperand).trans (bind_pure_comp _ _)

variable [Operates FL]

theorem prefixOp_not (pf : Platform) (b : Bool) :
    prefixOp pf .not (ofBool b : Outcome FL) = pure (ofBool b) := by
  unfold prefixOp ofBool
  simp only [Operates.not, EvalM.lift, map_pure]

theorem infixOp_equal (pf : Platform) (a b : Bool) :
    infixOp pf .equal (ofBool a : Outcome FL) (ofBool b) = pure (ofBool (a == b)) := by
  unfold infixOp ofBool
  simp only [Operates.equal, EvalM.lift, map_pure]

theorem infixOp_notEqual (pf : Platform) (a b : Bool) :
    infixOp pf .notEqual (ofBool a : Outcome FL) (ofBool b) = pure (ofBool (a != b)) := by
  unfold infixOp ofBool
  simp only [Operates.notEqual, EvalM.lift, map_pure]

theorem infixOp_comparison (pf : Platform) (op : Comparison) (i j : Int64) :
    infixOp pf op.op (.lit (.int i) : Outcome FL) (.lit (.int j)) =
      pure (ofBool (op.holds i.toInt j.toInt)) := by
  unfold infixOp ofBool
  simp only [Operates.compare, EvalM.lift, map_pure]

namespace Condition

/-- The negation of a condition that is evaluated as it reads has the value of the condition. -/
theorem Reads.run_not {c : Condition FL} (h : c.Reads env ρ) :
    run env ρ c.not.toExpr = run env ρ c.toExpr := by
  unfold Reads at h
  rw [toExpr, run_prefixExpr, h, bind_map_left]
  exact (bind_congr (prefixOp_not env.platform)).trans (bind_pure_comp _ _)

/-- A conditional on it takes the branch of the condition without the negation. -/
theorem Reads.run_ifExpr_not {c : Condition FL} (h : c.Reads env ρ) (t : Expr FL)
    (a : Option (Expr FL)) :
    run env ρ (.ifExpr c.not.toExpr t a) = run env ρ (.ifExpr c.toExpr t a) := by
  rw [run_ifExpr, run_ifExpr, h.run_not]

omit [Operates FL] in
theorem Evaluates.of_mem {c d : Condition FL} (h : c.Evaluates env ρ) (hd : d ∈ c.parts) :
    d.Evaluates env ρ := by
  induction c with
  | atom e =>
      rw [List.mem_singleton.mp hd]
      exact h
  | compare op e1 e2 =>
      rw [List.mem_singleton.mp hd]
      exact h
  | not c ih =>
      rcases List.mem_cons.mp hd with rfl | hd
      · exact h
      · exact ih h hd
  | and c d ihc ihd | or c d ihc ihd | equal c d ihc ihd | notEqual c d ihc ihd =>
      rcases List.mem_cons.mp hd with rfl | hd
      · exact h
      · rcases List.mem_append.mp hd with hd | hd
        · exact ihc h.1 hd
        · exact ihd h.2 hd

/-- A condition without negations is evaluated as it reads. -/
theorem Evaluates.reads {c : Condition FL} (h : c.Evaluates env ρ) (hc : c.Plain) :
    c.Reads env ρ := by
  induction c with
  | atom e => exact (Gives.ofBool_asBool h).symm
  | not c _ => exact hc.elim
  | and c d ihc ihd =>
      have hrc : run env ρ c.toExpr = _ := ihc h.1 hc.1
      have hrd : run env ρ d.toExpr = _ := ihd h.2 hc.2
      show run env ρ (.infixExpr .and c.toExpr d.toExpr) = _
      rw [run_infixExpr, infixSem, hrc, hrd, bind_map_left, reading, map_bind]
      refine bind_congr (fun b => ?_)
      rw [shortCircuit_ofBool]
      cases b
      · exact (map_pure _ _).symm
      · rfl
  | or c d ihc ihd =>
      have hrc : run env ρ c.toExpr = _ := ihc h.1 hc.1
      have hrd : run env ρ d.toExpr = _ := ihd h.2 hc.2
      show run env ρ (.infixExpr .or c.toExpr d.toExpr) = _
      rw [run_infixExpr, infixSem, hrc, hrd, bind_map_left, reading, map_bind]
      refine bind_congr (fun b => ?_)
      rw [shortCircuit_ofBool]
      cases b
      · rfl
      · exact (map_pure _ _).symm
  | equal c d ihc ihd =>
      have hrc : run env ρ c.toExpr = _ := ihc h.1 hc.1
      have hrd : run env ρ d.toExpr = _ := ihd h.2 hc.2
      show run env ρ (.infixExpr .equal c.toExpr d.toExpr) = _
      rw [run_infixExpr, infixSem, hrc, hrd, bind_map_left, reading, map_bind]
      · refine bind_congr (fun a => ?_)
        rw [bind_map_left, map_bind]
        exact bind_congr (fun b => infixOp_equal env.platform a b)
      · intro h
        cases h
      · intro h
        cases h
  | notEqual c d ihc ihd =>
      have hrc : run env ρ c.toExpr = _ := ihc h.1 hc.1
      have hrd : run env ρ d.toExpr = _ := ihd h.2 hc.2
      show run env ρ (.infixExpr .notEqual c.toExpr d.toExpr) = _
      rw [run_infixExpr, infixSem, hrc, hrd, bind_map_left, reading, map_bind]
      · refine bind_congr (fun a => ?_)
        rw [bind_map_left, map_bind]
        exact bind_congr (fun b => infixOp_notEqual env.platform a b)
      · intro h
        cases h
      · intro h
        cases h
  | compare op e1 e2 =>
      have hop : infixSem env.platform op.op (run env ρ e1) (run env ρ e2) =
          run env ρ e1 >>= fun r1 => run env ρ e2 >>= fun r2 =>
            infixOp env.platform op.op r1 r2 := by
        cases op <;> rfl
      show run env ρ (.infixExpr op.op e1 e2) = _
      rw [run_infixExpr, hop, reading, map_bind]
      refine h.1.bind_int (fun i => ?_)
      rw [map_bind]
      exact h.2.bind_int (fun j => infixOp_comparison env.platform op i j)

omit [Operates FL] in
/-- The reading of a condition ends with a Boolean. -/
theorem Evaluates.ends {c : Condition FL} (h : c.Evaluates env ρ) (w : World FL) :
    ∃ b w', (c.reading env ρ).run w = some (.ok b, w') := by
  induction c generalizing w with
  | atom e =>
      obtain ⟨l, w', hrun, b, rfl⟩ := h w
      refine ⟨b, w', ?_⟩
      rw [reading, Comp.run_bind_ok hrun]
      exact congrArg (fun m => m.run w') (asBool_ofBool b)
  | not c ih =>
      obtain ⟨b, w', hrun⟩ := ih h w
      exact ⟨!b, w', by rw [reading, Comp.run_bind_ok hrun]; rfl⟩
  | and c d ihc ihd =>
      obtain ⟨a, w₁, hc⟩ := ihc h.1 w
      obtain ⟨b, w₂, hd⟩ := ihd h.2 w₁
      rw [reading, Comp.run_bind_ok hc]
      cases a
      · exact ⟨false, w₁, rfl⟩
      · exact ⟨b, w₂, hd⟩
  | or c d ihc ihd =>
      obtain ⟨a, w₁, hc⟩ := ihc h.1 w
      obtain ⟨b, w₂, hd⟩ := ihd h.2 w₁
      rw [reading, Comp.run_bind_ok hc]
      cases a
      · exact ⟨b, w₂, hd⟩
      · exact ⟨true, w₁, rfl⟩
  | equal c d ihc ihd =>
      obtain ⟨a, w₁, hc⟩ := ihc h.1 w
      obtain ⟨b, w₂, hd⟩ := ihd h.2 w₁
      exact ⟨a == b, w₂, by rw [reading, Comp.run_bind_ok hc, Comp.run_bind_ok hd]; rfl⟩
  | notEqual c d ihc ihd =>
      obtain ⟨a, w₁, hc⟩ := ihc h.1 w
      obtain ⟨b, w₂, hd⟩ := ihd h.2 w₁
      exact ⟨a != b, w₂, by rw [reading, Comp.run_bind_ok hc, Comp.run_bind_ok hd]; rfl⟩
  | compare op e1 e2 =>
      obtain ⟨_, w₁, h1, i, rfl⟩ := h.1 w
      obtain ⟨_, w₂, h2, j, rfl⟩ := h.2 w₁
      have hi : (run env ρ e1 >>= asInt).run w = some (.ok i.toInt, w₁) := by
        rw [Comp.run_bind_ok h1, asInt_int]
        rfl
      have hj : (run env ρ e2 >>= asInt).run w₁ = some (.ok j.toInt, w₂) := by
        rw [Comp.run_bind_ok h2, asInt_int]
        rfl
      exact ⟨op.holds i.toInt j.toInt, w₂, by
        rw [reading, Comp.run_bind_ok hi, Comp.run_bind_ok hj]
        rfl⟩

/-- A negation is not evaluated as it reads. -/
theorem Reads.not_reads_not {c : Condition FL} (h : c.Reads env ρ) (hc : c.Evaluates env ρ) :
    ¬c.not.Reads env ρ := by
  intro hnot
  obtain ⟨b, w, hrun⟩ := hc.ends default
  have hvalue : (run env ρ c.toExpr).run default = some (.ok (ofBool b), w) := by
    rw [h, ← bind_pure_comp, Comp.run_bind_ok hrun]
    rfl
  have hother : (run env ρ c.toExpr).run default = some (.ok (ofBool !b), w) := by
    have hn : (c.not.reading env ρ).run default = some (.ok !b, w) := by
      rw [reading, Comp.run_bind_ok hrun]
      rfl
    rw [← h.run_not, hnot, ← bind_pure_comp, Comp.run_bind_ok hn]
    rfl
  rw [hvalue] at hother
  have hlit : (Literal.bool b : Literal FL) = .bool !b := by
    injection hother with hother
    injection hother with hother
    injection hother with hother
    injection hother
  have hb := congrArg Literal.getBool? hlit
  simp at hb

theorem standard_iff {c : Condition FL} (hc : c.Evaluates env ρ) :
    c.Standard env ρ ↔ c.Plain := by
  constructor
  · intro h
    by_contra hplain
    obtain ⟨d, hd, hdplain⟩ := exists_not_plain hplain
    have heval : d.Evaluates env ρ := (hc.of_mem hd : d.not.Evaluates env ρ)
    exact (heval.reads hdplain).not_reads_not heval (h.reads _ hd)
  · intro h
    have hnone : ∀ d : Condition FL, d.not ∉ c.parts := fun d hd => h.of_mem hd
    exact {
      reads := fun d hd => (hc.of_mem hd).reads (h.of_mem hd)
      double := fun d hd => absurd hd (hnone _)
      notAnd := fun d e hd => absurd hd (hnone _)
      notOr := fun d e hd => absurd hd (hnone _)
      branches := fun d hd => absurd hd (hnone _) }

end Condition

end

/-! ## Both planes -/

/-- In each plane, a condition over expressions that evaluate to Booleans and integers is
evaluated as it reads, and obeys the Boolean laws, exactly when it has no negation. -/
theorem conditions_standard_iff (env : Env DPFlatLiteral) (ρ : List (Outcome DPFlatLiteral))
    {c : Condition DPFlatLiteral} (hc : c.Evaluates env ρ) (env' : Env CPFlatLiteral)
    (ρ' : List (Outcome CPFlatLiteral)) {c' : Condition CPFlatLiteral}
    (hc' : c'.Evaluates env' ρ') :
    (c.Standard env ρ ↔ c.Plain) ∧ (c'.Standard env' ρ' ↔ c'.Plain) :=
  ⟨Condition.standard_iff hc, Condition.standard_iff hc'⟩

section

/-- A program without functions, with nothing beyond it. -/
def Env.alone (FL : Type) : Env FL where
  rpc _ _ _ := .error "unreachable"
  platform := .offline
  builtin f args := Comp.throw (.unknownCall f args)
  internal := ∅
  sockets := ∅

variable {FT FL : Type} [TFlatTyp FT] [TFlatLiteral FT FL] [TInterpret FL]

theorem gives_int (env : Env FL) (ρ : List (Outcome FL)) (i : Int64) :
    Gives (run env ρ (.litExpr (.int i))) IsInteger := by
  intro w
  rw [run_litExpr]
  exact ⟨.int i, w, rfl, i, rfl⟩

theorem gives_bool (env : Env FL) (ρ : List (Outcome FL)) (b : Bool) :
    Gives (run env ρ (.litExpr (.bool b))) IsBoolean := by
  intro w
  rw [run_litExpr]
  exact ⟨.bool b, w, rfl, b, rfl⟩

end

/-- `true && 1 < 2`. -/
theorem conjunction_standard :
    ((Condition.atom (.litExpr (.bool true))).and
        (.compare .lessThan (.litExpr (.int 1)) (.litExpr (.int 2)))).Standard
      (Env.alone DPFlatLiteral) [] ∧
    ((Condition.atom (.litExpr (.bool true))).and
        (.compare .lessThan (.litExpr (.int 1)) (.litExpr (.int 2)))).Standard
      (Env.alone CPFlatLiteral) [] := by
  have hproxy : ((Condition.atom (.litExpr (.bool true))).and
      (.compare .lessThan (.litExpr (.int 1)) (.litExpr (.int 2)))).Evaluates
      (Env.alone DPFlatLiteral) [] :=
    ⟨gives_bool _ _ true, gives_int _ _ 1, gives_int _ _ 2⟩
  have hcontrol : ((Condition.atom (.litExpr (.bool true))).and
      (.compare .lessThan (.litExpr (.int 1)) (.litExpr (.int 2)))).Evaluates
      (Env.alone CPFlatLiteral) [] :=
    ⟨gives_bool _ _ true, gives_int _ _ 1, gives_int _ _ 2⟩
  have h := conditions_standard_iff _ _ hproxy _ _ hcontrol
  exact ⟨h.1.mpr ⟨trivial, trivial⟩, h.2.mpr ⟨trivial, trivial⟩⟩

/-- `!true` is true, and a conditional on it takes its first branch. -/
theorem not_true_true :
    (∀ (env : Env DPFlatLiteral) (ρ : List (Outcome DPFlatLiteral)),
      run env ρ (Condition.atom (.litExpr (.bool true))).not.toExpr = pure (ofBool true) ∧
      (Condition.atom (.litExpr (.bool true))).not.reading env ρ = pure false ∧
      run env ρ (.ifExpr (Condition.atom (.litExpr (.bool true))).not.toExpr
        (.litExpr (.int 1)) (some (.litExpr (.int 2)))) = pure (.lit (.int 1)) ∧
      ¬(Condition.atom (.litExpr (.bool true))).not.Standard env ρ) ∧
    (∀ (env : Env CPFlatLiteral) (ρ : List (Outcome CPFlatLiteral)),
      run env ρ (Condition.atom (.litExpr (.bool true))).not.toExpr = pure (ofBool true) ∧
      (Condition.atom (.litExpr (.bool true))).not.reading env ρ = pure false ∧
      ¬(Condition.atom (.litExpr (.bool true))).not.Standard env ρ) := by
  refine ⟨fun env ρ => ?_, fun env ρ => ?_⟩
  · have hatom : (Condition.atom (.litExpr (.bool true))).Evaluates env ρ := gives_bool env ρ true
    have hreads := hatom.reads trivial
    have htrue : run env ρ (Condition.atom (.litExpr (.bool true))).toExpr =
        pure (ofBool true) := run_litExpr ρ _
    refine ⟨?_, ?_, ?_, ?_⟩
    · rw [hreads.run_not, htrue]
    · rw [Condition.reading, Condition.reading, run_litExpr]
      rfl
    · rw [hreads.run_ifExpr_not, run_ifExpr, htrue]
      show run env ρ (.litExpr (.int 1)) = _
      rw [run_litExpr]
    · exact fun h => hreads.not_reads_not hatom (h.reads _ List.mem_cons_self)
  · have hatom : (Condition.atom (.litExpr (.bool true))).Evaluates env ρ := gives_bool env ρ true
    have hreads := hatom.reads trivial
    have htrue : run env ρ (Condition.atom (.litExpr (.bool true))).toExpr =
        pure (ofBool true) := run_litExpr ρ _
    refine ⟨?_, ?_, ?_⟩
    · rw [hreads.run_not, htrue]
    · rw [Condition.reading, Condition.reading, run_litExpr]
      rfl
    · exact fun h => hreads.not_reads_not hatom (h.reads _ List.mem_cons_self)

end Armour.Lang
