import Armour.Control.Peval
import Armour.Lib.Simulate
import Mathlib.Data.Setoid.Basic

/-! # Where the specializer keeps the meaning

The specializer drops operands, bindings and branches, puts arguments and accumulators into
bodies unevaluated, and takes syntactic difference for difference of values.  `Faithful` follows
a run of it, one rule for each branch, and admits a branch of these kinds only where what it does
is justified.  A part that the answer does not contain only has to be specialized.  To every
judgement belong the assignments and the worlds in which the expression and its residual are
evaluated: a binder is given the values that its subject has there, a part is judged where the
parts before it have been evaluated, and a call that is kept has to answer alike if something
before it was dropped.
-/

namespace Armour.Control

open Armour.Lib Armour.Lang

/-- An outcome or an assignment of outcomes to indices. -/
abbrev CPOutcome := Outcome CPFlatLiteral

abbrev CPWorld := World CPFlatLiteral

/-- What is compared of the runs of an expression and its residual: the worlds, up to an
equivalence, and failures if `strict`. -/
structure View where
  worlds : Setoid CPWorld
  strict : Bool

namespace View

/-- Results and worlds, and with `strict` failures. -/
def all (strict : Bool) : View := ⟨⟨Eq, eq_equivalence⟩, strict⟩

variable (V : View) {α : Type}

/-- From `s`, `m` is matched by `m'` from `t`. -/
abbrev Sim (m : CPEvalM α) (s : CPWorld) (m' : CPEvalM α) (t : CPWorld) : Prop :=
  Comp.Sim V.worlds.r V.strict Eq m s m' t

/-- From `s`, `m` can be left out, with a value in `T`, if the other side is in `t`. -/
abbrev Skips (T : α → Prop) (m : CPEvalM α) (s t : CPWorld) : Prop :=
  Comp.Skips V.worlds.r V.strict T m s t

theorem refl (s : CPWorld) : V.worlds.r s s := V.worlds.iseqv.refl s

theorem trans {s t u : CPWorld} (h : V.worlds.r s t) (h' : V.worlds.r t u) : V.worlds.r s u :=
  V.worlds.iseqv.trans h h'

variable {V} in
theorem Sim.trans {m m₁ m' : CPEvalM α} {s s₁ t : CPWorld} (h : V.Sim m s m₁ s₁)
    (h' : V.Sim m₁ s₁ m' t) : V.Sim m s m' t :=
  Comp.Sim.trans (R := V.worlds.r) (fun _ _ _ => V.trans) h h'

end View

/-! ## Where an expression and its residual are evaluated -/

/-- An assignment of the indices, and the worlds of the expression and of the residual. -/
abbrev Pre := List CPOutcome → CPWorld → CPWorld → Prop

/-- The same, and the arguments that both are applied to. -/
abbrev Asg := List CPOutcome → Pre

namespace Pre

/-- One assignment, and the same world for both. -/
def start (ρ : List CPOutcome) (s : CPWorld) : Pre := fun ρ' s' t' => ρ' = ρ ∧ s' = s ∧ t' = s

variable {α : Type} (P : Pre) (m m' : List CPOutcome → CPEvalM α)

/-- `m` and `m'` have been evaluated, with the same value. -/
def both (a : α) : Pre := fun ρ s t =>
  ∃ s₀ t₀, P ρ s₀ t₀ ∧ (m ρ).run s₀ = some (.ok a, s) ∧ (m' ρ).run t₀ = some (.ok a, t)

/-- `m` has been evaluated; in the residual, nothing is left of it. -/
def past (a : α) : Pre := fun ρ s t => ∃ s₀, P ρ s₀ t ∧ (m ρ).run s₀ = some (.ok a, s)

end Pre

/-- With a value that satisfies `Q`. -/
def given {α : Type} (G : α → Pre) (Q : α → Prop) : Pre := fun ρ s t => ∃ a, Q a ∧ G a ρ s t

/-- With any value. -/
def after {α : Type} (G : α → Pre) : Pre := fun ρ s t => ∃ a, G a ρ s t

namespace Asg

/-- No arguments. -/
def here (P : Pre) : Asg := fun os ρ s t => os = [] ∧ P ρ s t

/-- The first argument is moved to the assignment. -/
def enter (A : Asg) : Asg := fun os ρ s t => ∃ o ρ', ρ = o :: ρ' ∧ A (o :: os) ρ' s t

/-- One list of arguments, one assignment and one pair of worlds. -/
def only (os ρ : List CPOutcome) (s t : CPWorld) : Asg := fun os' ρ' s' t' =>
  os' = os ∧ ρ' = ρ ∧ s' = s ∧ t' = t

end Asg

section

variable (env : Env CPFlatLiteral)

noncomputable abbrev sem (e : CPExpr) (ρ : List CPOutcome) : CPEvalM CPOutcome := run env ρ e

noncomputable abbrev sems (es : List CPExpr) (ρ : List CPOutcome) : CPEvalM (List CPOutcome) :=
  Comp.traverse (run env ρ) es

/-- The subjects of an `if match`. -/
noncomputable abbrev subjectSems (ms : List (CPExpr × Pattern)) (ρ : List CPOutcome) :
    CPEvalM (List (CPOutcome × Option (List (String × CPLiteral)))) :=
  Comp.traverse (fun m => do matchSubject "eval" env.platform m.2 (← run env ρ m.1)) ms

noncomputable abbrev accSems (acc : Option CPExpr) (ρ : List CPOutcome) :
    CPEvalM (Option CPOutcome) :=
  accSem (acc.map (run env ρ))

noncomputable abbrev loopSems (vs : List String) (e2 : CPExpr) (lits : List CPLiteral)
    (acc : Option CPOutcome) (ρ : List CPOutcome) :
    CPEvalM (List CPOutcome × Option CPOutcome) :=
  loopSem vs (runApp env ρ e2) lits acc

end

/-- What the body of a `let` is run on. -/
def letAsg (G : CPOutcome → Pre) (vs : List String) : Asg := fun os ρ s t =>
  ∃ l, G (.lit l) ρ s t ∧ letArgs "eval" vs l = ⟨os, none⟩

/-- What the body `e2` of an iterator and the body `e2'` of its residual are run on. -/
def iterAsg (env : Env CPFlatLiteral) (G : CPOutcome → Pre) (vs : List String) (e2 e2' : CPExpr)
    (acc acc' : Option CPExpr) : Asg := fun os ρ s t =>
  ∃ pre l post a₀ p,
    Pre.both (Pre.both (G (.lit (.list (pre ++ l :: post)))) (accSems env acc) (accSems env acc') a₀)
      (loopSems env vs e2 pre a₀) (loopSems env vs e2' pre a₀) p ρ s t ∧
    iterArgs "eval" vs p.2 l = ⟨os, none⟩

/-- What the body of an `if let` is run under. -/
def someAsg (G : CPOutcome → Pre) : Pre := fun ρ s t =>
  ∃ l ρ', ρ = .lit l :: ρ' ∧ G (.lit (.tuple [l])) ρ' s t

/-! ## Runs of the specializer -/

section

variable (env : Env CPFlatLiteral) (so : Bool)

/-- Specialized in the world `w`, the expression leaves the residual `r` and the world `w'`. -/
def Leaves (e : CPExpr) (w : CPWorld) (r : Residual) (w' : CPWorld) : Prop :=
  (peval env so e).run w = some (.ok r, w')

/-- `Leaves` for elements and arguments. -/
def LeavesAll (es : List CPExpr) (w : CPWorld) (rs : List Residual) (w' : CPWorld) : Prop :=
  (Comp.traverse (peval env so) es).run w = some (.ok rs, w')

/-- `Leaves` for the iterations over a list, with the accumulators before and after it. -/
def LeavesIter (vs : List String) (e2 : CPExpr) (lits : List CPLiteral) (acc : Option Residual)
    (w : CPWorld) (rs : List Residual) (last : Option Residual) (w' : CPWorld) : Prop :=
  (pevalIter (fun p => peval env p.1 p.2) so vs e2 lits acc).run w = some (.ok (rs, last), w')

/-- `Leaves` for the subjects of an `if match`. -/
def LeavesSubjects (ms : List (CPExpr × Pattern)) (w : CPWorld)
    (rs : List (Residual × Option (List (String × CPLiteral)))) (w' : CPWorld) : Prop :=
  (Comp.traverse (fun m => do pevalSubject env.platform m.2 (← peval env so m.1)) ms).run w =
    some (.ok rs, w')

end

/-! ## What may be dropped -/

section

variable (V : View) (P : Pre) {α : Type} (m m' : List CPOutcome → CPEvalM α)

/-- `m` can be left out, and its values satisfy `T`. -/
def Skipped (T : α → Prop) : Prop := ∀ ρ s t, P ρ s t → V.Skips T (m ρ) s t

/-- What is kept runs alike in the two worlds. -/
def Agrees : Prop := ∀ ρ s t, P ρ s t → V.Sim (m ρ) s (m ρ) t

/-- In the world of the expression, `m` runs as `m'`. -/
def RunsAs : Prop := ∀ ρ s t, P ρ s t → V.Sim (m ρ) s (m' ρ) s

/-- Evaluation of an expression can be left out. -/
def Droppable (env : Env CPFlatLiteral) (e : CPExpr) : Prop :=
  Skipped V P (sem env e) (fun o => o.isReturn = false)

end

/-- No outcome is a return. -/
def NoneReturns (os : List CPOutcome) : Prop := ∀ o ∈ os, o.isReturn = false

/-- No residual is a return. -/
def NoReturns (rs : List Residual) : Prop := ∀ r ∈ rs, r.isReturn = false

/-! ## Operators -/

/-- What an operator does after its left operand. -/
def infixRest (pf : Platform) (op : Infix) (m2 : CPEvalM CPOutcome) (o : CPOutcome) :
    CPEvalM CPOutcome :=
  match op with
  | .and => shortCircuit false m2 o
  | .or => shortCircuit true m2 o
  | op => do infixOp pf op o (← m2)

/-- After this outcome of the left operand, the right one is evaluated. -/
def ReachesRight (op : Infix) (o : CPOutcome) : Prop :=
  (op = .and → o = .lit (.bool true)) ∧ (op = .or → o = .lit (.bool false))

section

variable (env : Env CPFlatLiteral) (V : View) (P : Pre) (op : Infix) (e1 e2 : CPExpr)

/-- After the left operand, whose residual is `x`, the rest of the operator can be left out and
has the outcome of the left operand. -/
def LeftStands (x : CPExpr) : Prop :=
  ∀ o, Skipped V (P.both (sem env e1) (sem env x) o)
    (fun ρ => infixRest env.platform op (run env ρ e2) o) (· = o)

/-- The left operand can be left out, and after each of its literals the operator runs as the
right operand. -/
def RightStands : Prop :=
  Droppable V P env e1 ∧ ∀ l, RunsAs V (P.past (sem env e1) (.lit l))
    (fun ρ => infixRest env.platform op (run env ρ e2) (.lit l)) (sem env e2)

/-- The operator holds of its operands, which can be left out. -/
def AlwaysTrue : Prop :=
  Skipped V P (fun ρ => infixSem env.platform op (run env ρ e1) (run env ρ e2))
    (· = .lit (.bool true))

end

/-! ## Bindings -/

/-- The literal of a `let` binds all of its variables. -/
def BindsAll (vs : List String) (l : CPLiteral) : Prop :=
  ∃ ls, letArgs "eval" vs l = .ofLits ls ∧ ls.length = vs.length

/-- `let`: some variable is used. -/
def LetLive (vs : List String) (e2 : CPExpr) : Prop :=
  ∃ body, e2.atDepth vs.length = some body ∧ (List.range vs.length).all body.isFree = false

section

variable (env : Env CPFlatLiteral) (V : View) (P : Pre)

/-- The literals of `e1` bind all variables, or nothing comes of the body. -/
def Binds (vs : List String) (e1 e2 : CPExpr) : Prop :=
  ∀ l, BindsAll vs l ∨ Skipped V (P.past (sem env e1) (.lit l))
    (fun ρ => runApp env ρ e2 (letArgs "eval" vs l)) (fun _ => False)

/-! ## Iterators over a static list -/

/-- The first iteration of a fold with the accumulator `a`. -/
noncomputable def firstSem (vs : List String) (e2 a : CPExpr) (l : CPLiteral)
    (ρ : List CPOutcome) : CPEvalM CPOutcome := do
  runApp env ρ e2 (iterArgs "eval" vs (some (← run env ρ a)) l)

/-- What a fold does from an iteration with the outcome `o` on, if it ends at the first return. -/
noncomputable def foldRest (vs : List String) (body : Args CPFlatLiteral → CPEvalM CPOutcome) :
    CPOutcome → List CPLiteral → CPEvalM CPOutcome
  | .ret q, _ => pure (.ret q)
  | .lit v, [] => pure (.lit v)
  | .lit v, l :: ls => do foldRest vs body (← body (iterArgs "eval" vs (some (.lit v)) l)) ls

/-- The iterations of a fold run as `e`, which has the accumulators put in unevaluated. -/
def PutIn (vs : List String) (e2 a : CPExpr) (l : CPLiteral) (lits : List CPLiteral) (e : CPExpr) :
    Prop :=
  RunsAs V P
    (fun ρ => do foldRest vs (runApp env ρ e2) (← firstSem env vs e2 a l ρ) lits) (sem env e)

/-- From an iteration with the outcome `o` on, what follows the first return can be left out. -/
def QuietAfter (vs : List String) (body : Args CPFlatLiteral → CPEvalM CPOutcome) :
    CPOutcome → List CPLiteral → CPWorld → Prop
  | .ret q, ls, s => V.Skips (fun _ => True) (loopSem vs body ls (some (.ret q))) s s
  | .lit _, [], _ => True
  | .lit v, l :: ls, s => ∀ o s₁,
      (body (iterArgs "eval" vs (some (.lit v)) l)).run s = some (.ok o, s₁) →
        QuietAfter vs body o ls s₁

/-- In a fold, what follows the first return can be left out. -/
def ReturnsLast (vs : List String) (e2 a : CPExpr) (l : CPLiteral) (lits : List CPLiteral) :
    Prop :=
  ∀ o ρ s t, P.past (firstSem env vs e2 a l) o ρ s t →
    QuietAfter V vs (runApp env ρ e2) o lits s

end

/-- The iterations of a fold over a static list, each with the residual of the one before
as its accumulator. -/
def FoldChain (vs : List String) (e2 : CPExpr) :
    CPExpr → List CPLiteral → List CPExpr → List Residual → Prop
  | _, [], [], [] => True
  | a, l :: ls, e :: es, r :: rs =>
      bindIter "peval" vs (some a) l e2 = .ok e ∧ FoldChain vs e2 r.2 ls es rs
  | _, _, _, _ => False

/-! ## Calls -/

/-- A call of the function `fe` on `es` runs as the body `e`, which has the arguments put in
unevaluated; with `strip` an outermost return of the body is taken off. -/
def Inlines (env : Env CPFlatLiteral) (V : View) (P : Pre) (fe : CPExpr) (es : List CPExpr)
    (e : CPExpr) (strip : Bool) : Prop :=
  RunsAs V P
    (fun ρ => do
      onLiterals (← Comp.traverse (run env ρ) es)
        (fun ls => Outcome.stripReturn <$> runApp env ρ fe (.ofLits ls)))
    (fun ρ => if strip then Outcome.stripReturn <$> run env ρ e else run env ρ e)

/-! ## The judgement -/

/-- `Faithful env V A so e w r w'`: specialized in `w`, `e` leaves `r` and `w'` through branches
that keep its meaning under the arguments, assignments and worlds of `A`. -/
inductive Faithful (env : Env CPFlatLiteral) (V : View) :
    Asg → Bool → CPExpr → CPWorld → Residual → CPWorld → Prop
  | weaken {A A' so e w r w'} (h : Faithful env V A so e w r w')
      (hA : ∀ os ρ s t, A' os ρ s t → A os ρ s t) : Faithful env V A' so e w r w'
  | pointwise {A so e w r w'} (hrun : Leaves env so e w r w')
      (h : ∀ os ρ s t, A os ρ s t → Faithful env V (.only os ρ s t) so e w r w') :
      Faithful env V A so e w r w'
  -- Nothing is asked of what has no outcome.
  | idle {A so e w r w'} (hrun : Leaves env so e w r w')
      (h : ∀ os ρ s t, A os ρ s t → V.Skips (fun _ => False) (runApp env ρ e ⟨os, none⟩) s t) :
      Faithful env V A so e w r w'
  -- What is not a closure cannot be applied, neither before nor after.
  | unapplied {A so e w r w'} (hrun : Leaves env so e w r w') (he : e.isClosure = false)
      (hr : r.2.isClosure = false) (h : ∀ os ρ s t, A os ρ s t → os ≠ []) :
      Faithful env V A so e w r w'
  | var {P so x w} : Faithful env V (.here P) so (.var x) w (false, .var x) w
  | bvar {P so x i w} : Faithful env V (.here P) so (.bvar x i) w (false, .bvar x i) w
  | litExpr {P so l w} : Faithful env V (.here P) so (.litExpr l) w (true, .litExpr l) w
  -- A closure whose variable is not used is taken off, so that it can no longer be applied.
  | closure {A so x e w b e' w'} (h : Faithful env V (Asg.enter A) so e w (b, e') w')
      (used : e'.isFree 0 = false) :
      Faithful env V A so (.closure x e) w (false, .closure x e') w'
  | returnExpr {P so e w b e' w'} (h : Faithful env V (.here P) so e w (b, e') w') :
      Faithful env V (.here P) so (.returnExpr e) w (b, .returnExpr e') w'
  | prefixReturn {P so p e w r w'}
      (h : Faithful env V (.here P) so e w (true, .returnExpr r) w') :
      Faithful env V (.here P) so (.prefixExpr p e) w (true, .returnExpr r) w'
  | prefixStatic {P so p e w l r w'}
      (h : Faithful env V (.here P) so e w (true, .litExpr l) w')
      (hr : l.evalPrefix env.platform p = .ok (some r)) :
      Faithful env V (.here P) so (.prefixExpr p e) w (true, .litExpr r) w'
  | prefixDynamic {P so p e w e' w'} (h : Faithful env V (.here P) so e w (false, e') w') :
      Faithful env V (.here P) so (.prefixExpr p e) w (false, .prefixExpr p e') w'
  | infixKeep {P so op e1 e2 w b1 x w₁ b2 y w' b}
      (h1 : Faithful env V (.here P) so e1 w (b1, x) w₁)
      (h2 : Faithful env V (.here (given (P.both (sem env e1) (sem env x)) (ReachesRight op))) so
        e2 w₁ (b2, y) w')
      (hz : pevalInfix env.platform op (b1, x) (b2, y) = pure (b, .infixExpr op x y)) :
      Faithful env V (.here P) so (.infixExpr op e1 e2) w (b, .infixExpr op x y) w'
  | infixStatic {P so op e1 e2 w l1 w₁ l2 w' l}
      (h1 : Faithful env V (.here P) so e1 w (true, .litExpr l1) w₁)
      (h2 : Faithful env V (.here (given (P.past (sem env e1)) (ReachesRight op))) so e2 w₁
        (true, .litExpr l2) w')
      (hl : l1.evalInfix env.platform op l2 = .ok (some l)) :
      Faithful env V (.here P) so (.infixExpr op e1 e2) w (true, .litExpr l) w'
  -- A return, a neutral right operand, an absorbing left one.
  | infixLeft {P so op e1 e2 w b1 x w₁ r2 w' b}
      (h1 : Faithful env V (.here P) so e1 w (b1, x) w₁) (h2 : Leaves env so e2 w₁ r2 w')
      (hz : pevalInfix env.platform op (b1, x) r2 = pure (b, x))
      (ok : LeftStands env V P op e1 e2 x) :
      Faithful env V (.here P) so (.infixExpr op e1 e2) w (b, x) w'
  | infixRight {P so op e1 e2 w r1 w₁ b2 y w' b} (h1 : Leaves env so e1 w r1 w₁)
      (h2 : Faithful env V (.here (after (P.past (sem env e1)))) so e2 w₁ (b2, y) w')
      (hz : pevalInfix env.platform op r1 (b2, y) = pure (b, y))
      (ok : RightStands env V P op e1 e2) :
      Faithful env V (.here P) so (.infixExpr op e1 e2) w (b, y) w'
  -- `==` and `!=` on residuals that are not both literals are answered with `true`.
  | infixCompared {P so op e1 e2 w r1 w₁ r2 w' b} (h1 : Leaves env so e1 w r1 w₁)
      (h2 : Leaves env so e2 w₁ r2 w')
      (hz : pevalInfix env.platform op r1 r2 = pure (b, .litExpr (.bool true)))
      (ok : AlwaysTrue env V P op e1 e2) :
      Faithful env V (.here P) so (.infixExpr op e1 e2) w (b, .litExpr (.bool true)) w'
  | listNil {P so w} :
      Faithful env V (.here P) so (.blockExpr .list []) w (true, .litExpr (.list [])) w
  | blockNil {P so b w} (hb : b ≠ .list) :
      Faithful env V (.here P) so (.blockExpr b []) w (true, .litExpr .unit) w
  | blockLast {P so e es w b e' w'} (h : Faithful env V (.here P) so e w (b, e') w')
      (last : e'.isReturn = true ∨ es = []) :
      Faithful env V (.here P) so (.blockExpr .block (e :: es)) w (b, e') w'
  | blockStatic {P so e es w x w₁ r w'} (h : Leaves env so e w (true, x) w₁)
      (hx : x.isReturn = false) (hes : es ≠ []) (drop : Droppable V P env e)
      (hrest : Faithful env V (.here (after (P.past (sem env e)))) so (.blockExpr .block es) w₁
        r w') :
      Faithful env V (.here P) so (.blockExpr .block (e :: es)) w r w'
  | blockDynamic {P so e es w x w₁ b rest w'}
      (h : Faithful env V (.here P) so e w (false, x) w₁)
      (hx : x.isReturn = false) (hes : es ≠ [])
      (hrest : Faithful env V (.here (given (P.both (sem env e) (sem env x))
        (fun o => o.isReturn = false))) true (.blockExpr .block es) w₁ (b, rest) w') :
      Faithful env V (.here P) so (.blockExpr .block (e :: es)) w
        (false, consBlock x rest) w'
  | elements {P so b es rs ls w w'} {ws : Nat → CPWorld} (hb : b ≠ .block) (hes : es ≠ [])
      (hlen : es.length = rs.length)
      (h : ∀ (i : Nat) e r, es[i]? = some e → rs[i]? = some r →
        Faithful env V (.here (after (P.past (sems env (es.take i))))) so e (ws i) r (ws (i + 1)))
      (first : ws 0 = w) (last : ws es.length = w')
      (hls : rs.map Prod.snd = ls.map .litExpr) :
      Faithful env V (.here P) so (.blockExpr b es) w
        (allStatic rs, .litExpr (if b = .list then .list ls else .tuple ls)) w'
  | elementsReturn {P so b pre e post w rpre w₁ r w₂ rpost w'} (hb : b ≠ .block)
      (hpre : LeavesAll env so pre w rpre w₁) (noRet : NoReturns rpre)
      (h : Faithful env V (.here (after (P.past (sems env pre)))) so e w₁ r w₂)
      (hr : r.isReturn = true) (hpost : LeavesAll env so post w₂ rpost w')
      (drop : Skipped V P (sems env pre) NoneReturns)
      (quiet : Skipped V (after ((after (P.past (sems env pre))).both (sem env e) (sem env r.2)))
        (sems env post) (fun _ => True)) :
      Faithful env V (.here P) so (.blockExpr b (pre ++ e :: post)) w
        (allStatic (rpre ++ r :: rpost), r.2) w'
  -- The bound expression is dropped without having been looked at.
  | letDead {P so vs e1 e2 body e w r w'} (hbody : e2.atDepth vs.length = some body)
      (hfree : (List.range vs.length).all body.isFree = true)
      (happ : applyAll e2 (List.replicate vs.length (.litExpr .unit)) = .ok e)
      (h : Faithful env V (.here (after (P.past (sem env e1)))) so e w r w')
      (drop : Droppable V P env e1) (binds : Binds env V P vs e1 e2) :
      Faithful env V (.here P) so (.letExpr vs e1 e2) w r w'
  | letReturn {P so vs e1 e2 w b r w'} (live : LetLive vs e2)
      (h : Faithful env V (.here P) so e1 w (b, .returnExpr r) w') :
      Faithful env V (.here P) so (.letExpr vs e1 e2) w (b, .returnExpr r) w'
  | letStatic {P so vs e1 e2 l e w w₁ r w'} (live : LetLive vs e2)
      (h1 : Faithful env V (.here P) so e1 w (true, .litExpr l) w₁)
      (hbind : bindLet "peval" vs l e2 = .ok e)
      (h : Faithful env V (.here (after (P.past (sem env e1)))) so e w₁ r w') :
      Faithful env V (.here P) so (.letExpr vs e1 e2) w r w'
  | letDynamic {P so vs e1 e2 w e1' w₁ b e2' w'} (live : LetLive vs e2)
      (h1 : Faithful env V (.here P) so e1 w (false, e1') w₁) (hr : e1'.isReturn = false)
      (h2 : Faithful env V (letAsg (P.both (sem env e1) (sem env e1')) vs) so e2 w₁ (b, e2') w') :
      Faithful env V (.here P) so (.letExpr vs e1 e2) w (false, .letExpr vs e1' e2') w'
  -- The flag of the return is not passed on.
  | iterReturn {P so op vs e1 e2 acc w b r w'}
      (h : Faithful env V (.here P) so e1 w (b, .returnExpr r) w') :
      Faithful env V (.here P) so (.iter op vs e1 e2 acc) w (true, .returnExpr r) w'
  | iterDynamic {P so op vs e1 e2 w e1' w₁ b e2' w'}
      (h1 : Faithful env V (.here P) so e1 w (false, e1') w₁) (hr : e1'.isReturn = false)
      (h2 : Faithful env V
        (iterAsg env (P.both (sem env e1) (sem env e1')) vs e2 e2' none none) so e2 w₁
        (b, e2') w') :
      Faithful env V (.here P) so (.iter op vs e1 e2 none) w
        (false, .iter op vs e1' e2' none) w'
  | foldDynamic {P so op vs e1 e2 x a w e1' w₁ b e2' w₂ b' a' w'}
      (h1 : Faithful env V (.here P) so e1 w (false, e1') w₁) (hr : e1'.isReturn = false)
      (h2 : Faithful env V
        (iterAsg env (P.both (sem env e1) (sem env e1')) vs e2 e2' (some a) (some a')) so e2 w₁
        (b, e2') w₂)
      (ha : Faithful env V (.here (given (P.both (sem env e1) (sem env e1'))
        (fun o => ∃ ls, o = .lit (.list ls)))) so a w₂ (b', a') w') :
      Faithful env V (.here P) so (.iter op vs e1 e2 (some (x, a))) w
        (false, .iter op vs e1' e2' (some (x, a'))) w'
  | iterElementReturn {P so op vs e1 e2 lits w w₁ pre e post rpre w₂ r w₃ rpost w'}
      (h1 : Faithful env V (.here P) so e1 w (true, .litExpr (.list lits)) w₁)
      (hes : List.Forall₂ (fun l e => bindIter "peval" vs none l e2 = .ok e) lits
        (pre ++ e :: post))
      (hpre : LeavesAll env so pre w₁ rpre w₂) (noRet : NoReturns rpre)
      (h : Faithful env V (.here (after ((after (P.past (sem env e1))).past (sems env pre)))) so e
        w₂ r w₃)
      (hr : r.isReturn = true) (hpost : LeavesAll env so post w₃ rpost w')
      (drop : Skipped V (after (P.past (sem env e1))) (sems env pre) NoneReturns)
      (quiet : Skipped V (after ((after ((after (P.past (sem env e1))).past (sems env pre))).both
        (sem env e) (sem env r.2))) (sems env post) (fun _ => True)) :
      Faithful env V (.here P) so (.iter op vs e1 e2 none) w
        (allStatic (rpre ++ r :: rpost), r.2) w'
  -- The source drops the results of the iterations and computes that of the empty list.
  | iterStatic {P so op vs e1 e2 lits w w₁ rs last l w'}
      (h1 : Faithful env V (.here P) so e1 w (true, .litExpr (.list lits)) w₁)
      (hiter : LeavesIter env so vs e2 lits none w₁ rs last w') (noRet : NoReturns rs)
      (static : allStatic rs = true) (hop : op ≠ .fold) (hl : iterResult op lits [] = .ok l)
      (drop : Skipped V (after (P.past (sem env e1)))
        (fun ρ => iterSem op vs (runApp env ρ e2) none (.list lits)) (· = .lit l)) :
      Faithful env V (.here P) so (.iter op vs e1 e2 none) w (true, .litExpr l) w'
  | iterKeep {P so op vs e1 e2 lits w w₁ rs last w'}
      (h1 : Faithful env V (.here P) so e1 w (true, .litExpr (.list lits)) w₁)
      (hiter : LeavesIter env so vs e2 lits none w₁ rs last w') (noRet : NoReturns rs)
      (dynamic : allStatic rs = false) (hop : op ≠ .fold)
      (agree : Agrees V (after (P.past (sem env e1))) (loopSems env vs e2 lits none)) :
      Faithful env V (.here P) so (.iter op vs e1 e2 none) w
        (false, .iter op vs (.litExpr (.list lits)) e2 none) w'
  | foldAccDynamic {P so op vs e1 e2 x a lits w w₁ a' w'}
      (h1 : Faithful env V (.here P) so e1 w (true, .litExpr (.list lits)) w₁)
      (ha : Faithful env V (.here (after (P.past (sem env e1)))) so a w₁ (false, a') w')
      (agree : ∀ o, Agrees V ((after (P.past (sem env e1))).both (sem env a) (sem env a') o)
        (loopSems env vs e2 lits (some o))) :
      Faithful env V (.here P) so (.iter op vs e1 e2 (some (x, a))) w
        (false, .iter op vs (.litExpr (.list lits)) e2 (some (x, a'))) w'
  | foldNil {P so vs e1 e2 x a w w₁ a' w'}
      (h1 : Faithful env V (.here P) so e1 w (true, .litExpr (.list [])) w₁)
      (ha : Faithful env V (.here (after (P.past (sem env e1)))) so a w₁ (true, a') w')
      (noRet : V.strict = true → ∀ o ρ s t,
        (after (P.past (sem env e1))).past (sem env a) o ρ s t → o.isReturn = false) :
      Faithful env V (.here P) so (.iter .fold vs e1 e2 (some (x, a))) w (true, a') w'
  -- The answer is the first return among the iterations; of a fold, or else the last iteration.
  -- The accumulator and the iterations in front of it are only put in.
  | fold {P so op vs e1 e2 x a l lits post w w₁ a' w₂ e es rs w₃ rpost last w' b}
      {ws : Nat → CPWorld}
      (h1 : Faithful env V (.here P) so e1 w (true, .litExpr (.list (l :: lits ++ post))) w₁)
      (ha : Leaves env so a w₁ (true, a') w₂)
      (chain : FoldChain vs e2 a' (l :: lits) (e :: es) rs)
      (hrs : ∀ (i : Nat) e' r, (e :: es)[i]? = some e' → rs[i]? = some r →
        Leaves env so e' (ws i) r (ws (i + 1)))
      (first : ws 0 = w₂) (next : ws rs.length = w₃)
      (h : Faithful env V (.here (after (P.past (sem env e1)))) so (es.getLastD e)
        (ws es.length) (rs.getLastD (true, a')) w₃)
      (hpost : LeavesIter env so vs e2 post (some (rs.getLastD (true, a'))) w₃ rpost last w')
      (answer : finishPevalIter op vs (l :: lits ++ post) e2 (some x) (rs ++ rpost) last =
        pure (b, (rs.getLastD (true, a')).2))
      (hlast : (rs.getLastD (true, a')).isReturn = true ∨ op = .fold ∧ post = [])
      (putIn : PutIn env V (after (P.past (sem env e1))) vs e2 a l lits (es.getLastD e))
      (returns : ReturnsLast env V (after (P.past (sem env e1))) vs e2 a l (lits ++ post)) :
      Faithful env V (.here P) so (.iter op vs e1 e2 (some (x, a))) w
        (b, (rs.getLastD (true, a')).2) w'
  | ifReturn {P so c t a w b r w'}
      (h : Faithful env V (.here P) so c w (b, .returnExpr r) w') :
      Faithful env V (.here P) so (.ifExpr c t a) w (b, .returnExpr r) w'
  | ifTrue {P so c t a w l w₁ r w'}
      (h : Faithful env V (.here P) so c w (true, .litExpr l) w₁)
      (hl : l.getBool? = some true)
      (ht : Faithful env V (.here (after (P.past (sem env c)))) so t w₁ r w') :
      Faithful env V (.here P) so (.ifExpr c t a) w r w'
  | ifFalse {P so c t a w l w₁ r w'}
      (h : Faithful env V (.here P) so c w (true, .litExpr l) w₁)
      (hl : l.getBool? = some false)
      (ha : Faithful env V (.here (after (P.past (sem env c)))) so a w₁ r w') :
      Faithful env V (.here P) so (.ifExpr c t (some a)) w r w'
  | ifFalseNone {P so c t w l w'}
      (h : Faithful env V (.here P) so c w (true, .litExpr l) w')
      (hl : l.getBool? = some false) :
      Faithful env V (.here P) so (.ifExpr c t none) w (true, .litExpr .unit) w'
  | ifDynamicNone {P so c t w c' w₁ b t' w'}
      (h : Faithful env V (.here P) so c w (false, c') w₁) (hr : c'.isReturn = false)
      (ht : Faithful env V (.here (P.both (sem env c) (sem env c') (.lit (.bool true)))) so t w₁
        (b, t') w') :
      Faithful env V (.here P) so (.ifExpr c t none) w (false, .ifExpr c' t' none) w'
  | ifDynamic {P so c t a w c' w₁ b t' w₂ b' a' w'}
      (h : Faithful env V (.here P) so c w (false, c') w₁) (hr : c'.isReturn = false)
      (ht : Faithful env V (.here (P.both (sem env c) (sem env c') (.lit (.bool true)))) so t w₁
        (b, t') w₂)
      (ha : Faithful env V (.here (P.both (sem env c) (sem env c') (.lit (.bool false)))) so a w₂
        (b', a') w') (hne : (a' == t') = false) :
      Faithful env V (.here P) so (.ifExpr c t (some a)) w
        (false, .ifExpr c' t' (some a')) w'
  -- Branches with equal residuals: the condition is dropped, and so is the alternative.
  | ifEqual {P so c t a w c' w₁ b t' w₂ b' a' w'} (h : Leaves env so c w (false, c') w₁)
      (hr : c'.isReturn = false)
      (ht : Faithful env V (.here (P.past (sem env c) (.lit (.bool true)))) so t w₁ (b, t') w₂)
      (ha : Faithful env V (.here (P.past (sem env c) (.lit (.bool false)))) so a w₂ (b', a') w')
      (heq : (a' == t') = true) (drop : Droppable V P env c)
      (bools : V.strict = true →
        ∀ l ρ s t, P.past (sem env c) (.lit l) ρ s t → l.isBool = true)
      (same : ∀ ρ s t, P.past (sem env c) (.lit (.bool false)) ρ s t →
        V.Sim (run env ρ a') t (run env ρ t') t) :
      Faithful env V (.here P) so (.ifExpr c t (some a)) w (b, t') w'
  | ifSomeReturn {P so e t a w b r w'}
      (h : Faithful env V (.here P) so e w (b, .returnExpr r) w') :
      Faithful env V (.here P) so (.ifSomeMatchExpr e t a) w (b, .returnExpr r) w'
  | ifSomeTaken {P so e t a w l w₁ t₁ r w'}
      (h : Faithful env V (.here P) so e w (true, .litExpr (.tuple [l])) w₁)
      (happ : applyTo t (.litExpr l) = .ok t₁)
      (ht : Faithful env V (.here (after (P.past (sem env e)))) so t₁ w₁ r w') :
      Faithful env V (.here P) so (.ifSomeMatchExpr e t a) w r w'
  | ifSomeFailed {P so e t a w ls w₁ r w'}
      (h : Faithful env V (.here P) so e w (true, .litExpr (.tuple ls)) w₁)
      (hls : ls.length ≠ 1)
      (ha : Faithful env V (.here (after (P.past (sem env e)))) so a w₁ r w') :
      Faithful env V (.here P) so (.ifSomeMatchExpr e t (some a)) w r w'
  | ifSomeFailedNone {P so e t w ls w'}
      (h : Faithful env V (.here P) so e w (true, .litExpr (.tuple ls)) w')
      (hls : ls.length ≠ 1) :
      Faithful env V (.here P) so (.ifSomeMatchExpr e t none) w (true, .litExpr .unit) w'
  | ifSomeDynamicNone {P so e v c w e' w₁ b c' w'}
      (h : Faithful env V (.here P) so e w (false, e') w₁) (hr : e'.isReturn = false)
      (hc : Faithful env V (.here (someAsg (P.both (sem env e) (sem env e')))) so c w₁
        (b, c') w') :
      Faithful env V (.here P) so (.ifSomeMatchExpr e (.closure v c) none) w
        (false, .ifSomeMatchExpr e' (.closure v c') none) w'
  | ifSomeDynamic {P so e v c a w e' w₁ b c' w₂ b' a' w'}
      (h : Faithful env V (.here P) so e w (false, e') w₁) (hr : e'.isReturn = false)
      (hc : Faithful env V (.here (someAsg (P.both (sem env e) (sem env e')))) so c w₁
        (b, c') w₂)
      (ha : Faithful env V (.here (given (P.both (sem env e) (sem env e'))
        (fun o => ∃ ls, o = .lit (.tuple ls) ∧ ls.length ≠ 1))) so a w₂ (b', a') w')
      (hne : c'.isFree 0 = false ∨ (c'.subst 0 (.litExpr .unit) true == a') = false) :
      Faithful env V (.here P) so (.ifSomeMatchExpr e (.closure v c) (some a)) w
        (false, .ifSomeMatchExpr e' (.closure v c') (some a')) w'
  -- The same for `if let`; here the consequence is dropped.
  | ifSomeEqual {P so e v c a w e' w₁ b c' w₂ b' a' w'} (h : Leaves env so e w (false, e') w₁)
      (hr : e'.isReturn = false)
      (hc : Faithful env V (.here (someAsg (P.past (sem env e)))) so c w₁ (b, c') w₂)
      (ha : Faithful env V (.here (given (P.past (sem env e))
        (fun o => ∃ ls, o = .lit (.tuple ls) ∧ ls.length ≠ 1))) so a w₂ (b', a') w')
      (hfree : c'.isFree 0 = true) (heq : (c'.subst 0 (.litExpr .unit) true == a') = true)
      (drop : Droppable V P env e)
      (options : V.strict = true →
        ∀ l ρ s t, P.past (sem env e) (.lit l) ρ s t → ∃ ls, l = .tuple ls)
      (same : ∀ l ρ s t, P.past (sem env e) (.lit (.tuple [l])) ρ s t →
        V.Sim (run env ρ (c'.subst 0 (.litExpr .unit) true)) t (run env ρ a') t) :
      Faithful env V (.here P) so (.ifSomeMatchExpr e (.closure v c) (some a)) w (b', a') w'
  | matchKeep {P so vs ms t a w rs w'} (hrs : LeavesSubjects env so ms w rs w')
      (dynamic : allStatic (rs.map Prod.fst) = false)
      (agree : Agrees V P (sem env (.ifMatchExpr vs ms t a))) :
      Faithful env V (.here P) so (.ifMatchExpr vs ms t a) w
        (false, .ifMatchExpr vs ms t a) w'
  | matchReturn {P so vs pre m post t a w rpre w₁ b r w₂ rpost w'}
      (hpre : LeavesSubjects env so pre w rpre w₁) (noRet : NoReturns (rpre.map Prod.fst))
      (h : Faithful env V (.here (after (P.past (subjectSems env pre)))) so m.1 w₁
        (b, .returnExpr r) w₂)
      (hpost : LeavesSubjects env so post w₂ rpost w')
      (static : allStatic ((rpre ++ ((b, .returnExpr r), none) :: rpost).map Prod.fst) = true)
      (drop : Skipped V P (subjectSems env pre) (fun qs => NoneReturns (qs.map Prod.fst)))
      (quiet : Skipped V
        (after ((after (P.past (subjectSems env pre))).both (sem env m.1) (sem env (.returnExpr r))))
        (subjectSems env post) (fun _ => True)) :
      Faithful env V (.here P) so (.ifMatchExpr vs (pre ++ m :: post) t a) w
        (true, .returnExpr r) w'
  | matchFailed {P so vs ms t a rs w w₁ r w'} {ls : List CPLiteral} {ws : Nat → CPWorld}
      (hlen : ms.length = rs.length)
      (h : ∀ (i : Nat) m q, ms[i]? = some m → rs[i]? = some q →
        Faithful env V (.here (after (P.past (subjectSems env (ms.take i))))) so m.1 (ws i) q.1
          (ws (i + 1)))
      (first : ws 0 = w) (next : ws ms.length = w₁)
      (hrs : List.Forall₂ (fun m q => pevalSubject env.platform m.2 q.1 = pure q) ms rs)
      (hls : rs.map Prod.fst = ls.map (fun l => (true, .litExpr l)))
      (hcaps : allCaptures rs = none)
      (ha : Faithful env V (.here (after (P.past (subjectSems env ms)))) so a w₁ r w')
      (shape : matchBranch r = pure r) :
      Faithful env V (.here P) so (.ifMatchExpr vs ms t (some a)) w r w'
  | matchFailedNone {P so vs ms t rs w w'} {ls : List CPLiteral} {ws : Nat → CPWorld}
      (hlen : ms.length = rs.length)
      (h : ∀ (i : Nat) m q, ms[i]? = some m → rs[i]? = some q →
        Faithful env V (.here (after (P.past (subjectSems env (ms.take i))))) so m.1 (ws i) q.1
          (ws (i + 1)))
      (first : ws 0 = w) (last : ws ms.length = w')
      (hrs : List.Forall₂ (fun m q => pevalSubject env.platform m.2 q.1 = pure q) ms rs)
      (hls : rs.map Prod.fst = ls.map (fun l => (true, .litExpr l)))
      (hcaps : allCaptures rs = none) :
      Faithful env V (.here P) so (.ifMatchExpr vs ms t none) w (true, .litExpr .unit) w'
  | matchTaken {P so vs ms t a rs caps t₁ w w₁ r w'} {ls : List CPLiteral} {ws : Nat → CPWorld}
      (hlen : ms.length = rs.length)
      (h : ∀ (i : Nat) m q, ms[i]? = some m → rs[i]? = some q →
        Faithful env V (.here (after (P.past (subjectSems env (ms.take i))))) so m.1 (ws i) q.1
          (ws (i + 1)))
      (first : ws 0 = w) (next : ws ms.length = w₁)
      (hrs : List.Forall₂ (fun m q => pevalSubject env.platform m.2 q.1 = pure q) ms rs)
      (hls : rs.map Prod.fst = ls.map (fun l => (true, .litExpr l)))
      (hcaps : allCaptures rs = some caps) (happ : bindCaptures "peval" caps vs t = .ok t₁)
      (ht : Faithful env V (.here (after (P.past (subjectSems env ms)))) so t₁ w₁ r w')
      (shape : matchBranch r = pure r) :
      Faithful env V (.here P) so (.ifMatchExpr vs ms t a) w r w'
  | callReturn {P so f pre e post isAsync w rpre w₁ r w₂ rpost w'}
      (hpre : LeavesAll env so pre w rpre w₁) (noRet : NoReturns rpre)
      (h : Faithful env V (.here (after (P.past (sems env pre)))) so e w₁ r w₂)
      (hr : r.isReturn = true) (hpost : LeavesAll env so post w₂ rpost w')
      (drop : Skipped V P (sems env pre) NoneReturns)
      (quiet : Skipped V (after ((after (P.past (sems env pre))).both (sem env e) (sem env r.2)))
        (sems env post) (fun _ => True)) :
      Faithful env V (.here P) so (.callExpr f (pre ++ e :: post) isAsync) w
        (allStatic (rpre ++ r :: rpost), r.2) w'
  -- The arguments are only put in.
  | callUser {P so f es isAsync rs fe e w w₁ b e' w'} (hrs : LeavesAll env so es w rs w₁)
      (noRet : NoReturns rs)
      (hf : env.get f = some fe) (happ : applyAll fe (rs.map Prod.snd) = .ok e)
      (he : Faithful env V (.here P) so e w₁ (b, e') w')
      (inlines : Inlines env V P fe es e e'.isReturn) :
      Faithful env V (.here P) so (.callExpr f es isAsync) w
        (allStatic rs && !so && b, e'.stripReturn) w'
  -- A built-in is run by the specializer.
  | callBuiltin {P f es isAsync rs} {ls : List CPLiteral} {l w w₁ w'}
      {ws : Nat → CPWorld} (hlen : es.length = rs.length)
      (h : ∀ (i : Nat) e r, es[i]? = some e → rs[i]? = some r →
        Faithful env V (.here (after (P.past (sems env (es.take i))))) false e (ws i) r
          (ws (i + 1)))
      (first : ws 0 = w) (next : ws es.length = w₁) (static : allStatic rs = true)
      (hls : rs.map Prod.snd = ls.map .litExpr) (hf : env.get f = none)
      (hb : Headers.isBuiltin CPFlatTyp f = true)
      (hl : (env.builtin f ls).run w₁ = some (.ok l, w'))
      (constant : Skipped V (after (P.past (sems env es))) (fun _ => env.builtin f ls) (· = l)) :
      Faithful env V (.here P) false (.callExpr f es isAsync) w (true, .litExpr l) w'
  | callKeep {P f es isAsync rs w w'} (hrs : LeavesAll env false es w rs w')
      (noRet : NoReturns rs) (static : allStatic rs = true) (hf : env.get f = none)
      (hb : Headers.isBuiltin CPFlatTyp f = false) (hs : (Headers.split f).isSome = true)
      (agree : Agrees V P (sem env (.callExpr f es isAsync))) :
      Faithful env V (.here P) false (.callExpr f es isAsync) w
        (false, .callExpr f es isAsync) w'
  | callDynamic {P so f es isAsync rs w w'} {ws : Nat → CPWorld} (hlen : es.length = rs.length)
      (h : ∀ (i : Nat) e r, es[i]? = some e → rs[i]? = some r →
        Faithful env V (.here (after (P.both (sems env (es.take i))
          (sems env ((rs.map Prod.snd).take i))))) so e (ws i) r (ws (i + 1)))
      (first : ws 0 = w) (last : ws es.length = w') (noRet : NoReturns rs)
      (dynamic : (allStatic rs && !so) = false) (hf : env.get f = none)
      (agree : ∀ os, Agrees V (P.both (sems env es) (sems env (rs.map Prod.snd)) os)
        (fun _ => onLiterals os (Lang.evalCall env (eval env) f isAsync))) :
      Faithful env V (.here P) so (.callExpr f es isAsync) w
        (false, .callExpr f (rs.map Prod.snd) isAsync) w'

end Armour.Control
