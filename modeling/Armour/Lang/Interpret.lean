import Armour.Lang.Builtins
import Armour.Lang.Program
import Armour.Lib.Fuel

/-! # The interpreter

`TExprInterpreter::eval` of `armour-lang/src/interpret.rs` and the `Ingress`/`Egress`
actor of `meta.rs`.  One unfolding of `eval` is `evalStep`, in which the recursive calls
are a parameter; a run iterates it.  Evaluation acts on a `World`: the metadata of the
request and the sequence of effectful calls made so far.
-/

namespace Armour.Lang

open Armour.Lib

/-! ## Errors and results -/

/-- What evaluation can fail with; the source formats these as texts. -/
inductive Error (FL : Type) where
  /-- A fixed text. -/
  | text (s : String)
  /-- "eval prefix: type error" -/
  | prefixType (p : Prefix) (l : Literal FL)
  /-- "eval, infix: type error" -/
  | infixType (op : Infix) (l1 l2 : Literal FL)
  /-- "eval, call(n): type error" -/
  | callType (f : String) (args : List (Literal FL))
  /-- "eval, call: f: args" -/
  | unknownCall (f : String) (args : List (Literal FL))
  /-- "eval, if-let-expression: r" -/
  | ifLet (l : Literal FL)
  /-- An error of an external service, of its connection, or of the metadata. -/
  | external (s : String)
  /-- A panic of integer arithmetic. -/
  | overflow (s : String)
  /-- The panic of `get_bool` on a literal that is not Boolean. -/
  | notBool (l : Literal FL)
  /-- Any other panic. -/
  | panic (s : String)

/-- The form of the expressions that evaluation returns: a literal under returns. -/
inductive Outcome (FL : Type) where
  | lit (l : Literal FL)
  | ret (o : Outcome FL)

namespace Outcome

variable {FL : Type}

def toExpr : Outcome FL → Expr FL
  | lit l => .litExpr l
  | ret o => .returnExpr o.toExpr

def isReturn : Outcome FL → Bool
  | ret _ => true
  | lit _ => false

/-- `strip_return`: one return is removed. -/
def stripReturn : Outcome FL → Outcome FL
  | ret o => o
  | o => o

/-- The first return among the results, or else their literals (`literal_vector`). -/
def literals : List (Outcome FL) → Except (Outcome FL) (List (Literal FL))
  | [] => .ok []
  | ret o :: _ => .error (ret o)
  | lit l :: rs => (literals rs).map (l :: ·)

end Outcome

/-! ## Metadata -/

/-- Metadata of one direction of a request. -/
structure Meta where
  id : Option Label
  data : List Bytes
  labels : BTreeSet Label

/-- `Meta::default`. -/
def Meta.empty : Meta := ⟨none, [], ∅⟩

structure IngressEgress where
  ingress : Meta
  egress : Meta
  egressId : Label

/-- A call that leaves the interpreter. -/
structure Effect (FL : Type) where
  external : String
  method : String
  args : List (Literal FL)
  isAsync : Bool

/-- What evaluation acts on; `trace` lists the effectful calls made, oldest first. -/
structure World (FL : Type) where
  metadata : IngressEgress
  trace : List (Effect FL)

instance {FL : Type} : Inhabited (World FL) := ⟨⟨.empty, .empty, ⟨[]⟩⟩, []⟩

/-- Computations of the interpreter. -/
abbrev EvalM (FL : Type) := Comp (Error FL) (World FL)

namespace Meta

variable {FT FL : Type} [TFlatTyp FT] [TFlatLiteral FT FL]

def hasLabel (m : Meta) (l : Label) : Bool := m.labels.elems.any l.matchesWith
def findLabel (m : Meta) (l : Label) : Option Label := m.labels.elems.find? l.matchesWith

/-- `remove_label`: every label that the given one matches goes. -/
def removeLabel (m : Meta) (l : Label) : Meta :=
  { m with labels := ⟨m.labels.elems.filter (fun x => !l.matchesWith x),
      m.labels.sorted.sublist List.filter_sublist⟩ }

/-- One metadata call: the new metadata and the result, `none` for an unknown call. -/
def call (egressId : Label) (m : Meta) (method : String) (args : List (Literal FL)) :
    Option (Meta × Literal FL) :=
  match method, args with
  | "id", [] => some (m, .ofOption (m.id.map .label))
  | "data", [] => some (m, .list (m.data.map .data))
  | "set_id", [] => some ({ m with id := some egressId }, .unit)
  | "pop", [] => some ({ m with data := m.data.dropLast }, .ofOption (m.data.getLast?.map .data))
  | "wipe", [] => some (⟨none, [], ∅⟩, .unit)
  | method, [l] =>
      match method, l.dp? with
      | "push", some (.data d) => some ({ m with data := m.data ++ [d] }, .unit)
      | "add_label", some (.label l) => some ({ m with labels := m.labels.insert l }, .unit)
      | "remove_label", some (.label l) => some (m.removeLabel l, .unit)
      | "has_label", some (.label l) => some (m, .bool (m.hasLabel l))
      | "find_label", some (.label l) => some (m, .ofOption ((m.findLabel l).map .label))
      | _, _ => none
  | _, _ => none

end Meta

/-- What evaluation reaches beyond the program. -/
structure Runtime (FL : Type) where
  /-- Behaviour of the external services: the calls made before, the socket and the call
  determine the answer. -/
  rpc : List (Effect FL) → String → Effect FL → Except String (Literal FL)
  platform : Platform
  /-- `eval_call` of the plane: a built-in function on literals. -/
  builtin : String → List (Literal FL) → EvalM FL (Literal FL)

/-- `Env`: the program's functions and what its calls reach. -/
structure Env (FL : Type) extends Runtime FL where
  internal : BTreeMap String (Expr FL)
  sockets : BTreeMap String String

/-- `Env::new`. -/
def Env.new {FT FL : Type} (rt : Runtime FL) (p : Program FT FL) : Env FL :=
  { rt with internal := p.code, sockets := p.externals.sockets }

def Env.get {FL : Type} (env : Env FL) (f : String) : Option (Expr FL) := env.internal.get? f

namespace EvalM

variable {FT FL : Type} [TFlatTyp FT] [TFlatLiteral FT FL]

/-- Result of an operator or built-in: `err` stands for the `None` of the source. -/
def lift (err : Error FL) : Checked (Option (Literal FL)) → EvalM FL (Literal FL)
  | .ok (some l) => pure l
  | .ok none => Comp.throw err
  | .error msg => Comp.throw (.overflow msg)

/-- Append to the trace. -/
def log (c : Effect FL) : EvalM FL Unit := do
  let w ← Comp.get
  Comp.set { w with trace := w.trace ++ [c] }

/-- The `IngressEgress` actor's handling of a call. -/
def metaCall (external method : String) (args : List (Literal FL)) : EvalM FL (Literal FL) := do
  log ⟨external, method, args, false⟩
  let w ← Comp.get
  let m := if external = "Ingress" then w.metadata.ingress else w.metadata.egress
  match m.call w.metadata.egressId method args with
  | none => Comp.throw (.external s!"eval, call: {external}::{method}")
  | some (m', l) => do
      Comp.set { w with metadata :=
        if external = "Ingress" then { w.metadata with ingress := m' }
        else { w.metadata with egress := m' } }
      pure l

/-- `Externals::call`. -/
def externalCall (env : Env FL) (c : Effect FL) : EvalM FL (Literal FL) := do
  let w ← Comp.get
  log c
  match env.sockets.get? c.external with
  | none => Comp.throw (.external s!"failed to get external: {c.external}::{c.method}")
  | some socket => match env.rpc w.trace socket c with
    | .ok l => pure l
    | .error msg => Comp.throw (.external msg)

end EvalM

/-! ## Binding -/

section

variable {FL : Type}

/-- `apply`, with its error. -/
def applyTo (e u : Expr FL) : Except (Error FL) (Expr FL) :=
  match e.apply u with
  | some e => .ok e
  | none => .error (.text "apply: expression is not a closure")

/-- Apply to several arguments, the first one first. -/
def applyAll : Expr FL → List (Expr FL) → Except (Error FL) (Expr FL)
  | e, [] => .ok e
  | e, u :: us => do applyAll (← applyTo e u) us

/-- The components of a tuple whose variable is not the wildcard. -/
def boundComponents (vs : List String) (ls : List (Literal FL)) : List (Literal FL) :=
  (vs.zip ls).filterMap (fun p => if p.1 = "_" then none else some p.2)

/-- Bind the literal of a `let`; `who` is `"eval"` or `"peval"`. -/
def bindLet (who : String) (vs : List String) (l : Literal FL) (e2 : Expr FL) :
    Except (Error FL) (Expr FL) :=
  match l with
  | .tuple ls =>
      if 1 < ls.length ∧ vs.length = ls.length then
        applyAll e2 ((boundComponents vs ls).map .litExpr)
      else if vs.length = 1 then applyTo e2 (.litExpr (.tuple ls))
      else .error (.text (who ++ ", let-expression (tuple length mismatch)"))
  | l =>
      if vs.length = 1 then applyTo e2 (.litExpr l)
      else .error (.text (who ++ ", let-expression (literal not a tuple)"))

/-- Bind an element of the list that an iterator runs over. -/
def bindElement (who : String) (vs : List String) (l : Literal FL) (e : Expr FL) :
    Except (Error FL) (Expr FL) :=
  match l, vs with
  | l, [v] => if v = "_" then .ok e else applyTo e (.litExpr l)
  | .tuple ls, vs =>
      if vs.length = ls.length then applyAll e ((boundComponents vs ls).map .litExpr)
      else .error (.text (who ++ ", iter-expression (tuple length mismatch)"))
  | _, _ => .error (.text (who ++ ", iter-expression (not a tuple list)"))

/-- Body of one iteration: the accumulator, if any, is bound first. -/
def bindIter (who : String) (vs : List String) (acc : Option (Expr FL)) (l : Literal FL)
    (e : Expr FL) : Except (Error FL) (Expr FL) := do
  let e ← match acc with
    | some a => applyTo e a
    | none => .ok e
  bindElement who vs l e

/-- Bind the captures of an `if match`, in the order of its variables. -/
def bindCaptures (who : String) (caps : BTreeMap String (Literal FL)) :
    List String → Expr FL → Except (Error FL) (Expr FL)
  | [], e => .ok e
  | v :: vs, e =>
      match caps.get? v with
      | some l => do bindCaptures who caps vs (← applyTo e (.litExpr l))
      | none => .error (.text (who ++ ", if-match-expression: missing bind"))

end

/-! ## Iterators -/

section

variable {FT FL : Type} [TFlatTyp FT] [TFlatLiteral FT FL]

/-- `get_bool`. -/
def getBool (l : Literal FL) : Except (Error FL) Bool :=
  match l.getBool? with
  | some b => .ok b
  | none => .error (.notBool l)

/-- `iter().all(|l| l.get_bool())`. -/
def allBool : List (Literal FL) → Except (Error FL) Bool
  | [] => .ok true
  | l :: ls => do if ← getBool l then allBool ls else .ok false

/-- `iter().any(|l| l.get_bool())`. -/
def anyBool : List (Literal FL) → Except (Error FL) Bool
  | [] => .ok false
  | l :: ls => do if ← getBool l then .ok true else anyBool ls

/-- The elements whose Boolean is true. -/
def filterBool : List (Literal FL × Literal FL) → Except (Error FL) (List (Literal FL))
  | [] => .ok []
  | (l, b) :: rest => do
      let keep ← getBool b
      let ls ← filterBool rest
      .ok (if keep then l :: ls else ls)

/-- Result of an iterator other than `fold`, from the elements and the literals of the
iterations. -/
def iterResult (op : Iter) (lits rs : List (Literal FL)) : Except (Error FL) (Literal FL) :=
  match op with
  | .map => .ok (.list rs)
  | .forEach => .ok .unit
  | .filter => (filterBool (lits.zip rs)).map .list
  | .filterMap => .ok (.list (rs.filterMap Literal.destSome))
  | .fold => .error (.panic "internal error: entered unreachable code")
  | .all => (allBool rs).map .bool
  | .any => (anyBool rs).map .bool

end

/-! ## One unfolding of `eval` -/

section

variable {FT FL : Type} [TFlatTyp FT] [TFlatLiteral FT FL] [TInterpret FL]

/-- A prefix operator on an evaluated operand. -/
def prefixOp (pf : Platform) (p : Prefix) : Outcome FL → EvalM FL (Outcome FL)
  | .ret o => pure (.ret o)
  | .lit l => .lit <$> EvalM.lift (.prefixType p l) (l.evalPrefix pf p)

/-- An infix operator on two evaluated operands: the first return wins. -/
def infixOp (pf : Platform) (op : Infix) : Outcome FL → Outcome FL → EvalM FL (Outcome FL)
  | .ret o, _ => pure (.ret o)
  | _, .ret o => pure (.ret o)
  | .lit l1, .lit l2 => .lit <$> EvalM.lift (.infixType op l1 l2) (l1.evalInfix pf op l2)

/-- Right operand of `&&` and `||`. -/
def boolOperand : Outcome FL → EvalM FL (Outcome FL)
  | .ret o => pure (.ret o)
  | .lit l => if l.isBool then pure (.lit l) else Comp.throw (.text "eval, infix")

/-- `&&` (`decided = false`) and `||` (`decided = true`): the right operand is evaluated
when the left one is not the deciding Boolean. -/
def shortCircuit (decided : Bool) (right : EvalM FL (Outcome FL)) :
    Outcome FL → EvalM FL (Outcome FL)
  | .ret o => pure (.ret o)
  | .lit l =>
      match l.getBool? with
      | some b => if b = decided then pure (.lit l) else do boolOperand (← right)
      | none => Comp.throw (.text "eval, infix")

/-- The alternative of a conditional; without one the result is unit. -/
def evalAlternative (ev : Expr FL → EvalM FL (Outcome FL)) :
    Option (Expr FL) → EvalM FL (Outcome FL)
  | some e => ev e
  | none => pure (.lit .unit)

/-- The initial accumulator of an iterator. -/
def evalAcc (ev : Expr FL → EvalM FL (Outcome FL)) :
    Option (String × Expr FL) → EvalM FL (Option (Outcome FL))
  | some (_, e) => some <$> ev e
  | none => pure none

/-- The iterations of an iterator, all of them, with the results in order and the last
accumulator. -/
def evalIter (ev : Expr FL → EvalM FL (Outcome FL)) (vs : List String) (e2 : Expr FL) :
    List (Literal FL) → Option (Outcome FL) →
      EvalM FL (List (Outcome FL) × Option (Outcome FL))
  | [], acc => pure ([], acc)
  | l :: ls, acc => do
      let e ← Comp.ofExcept (bindIter "eval" vs (acc.map Outcome.toExpr) l e2)
      let r ← ev e
      let (rs, acc) ← evalIter ev vs e2 ls (acc.map (fun _ => r))
      pure (r :: rs, acc)

/-- Result of an iterator from its iterations. -/
def finishIter (op : Iter) (lits : List (Literal FL)) (rs : List (Outcome FL))
    (acc : Option (Outcome FL)) : EvalM FL (Outcome FL) :=
  match Outcome.literals rs with
  | .error r => pure r
  | .ok ls =>
      if op = .fold then
        match acc with
        | some (.lit l) => pure (.lit l)
        | some (.ret _) => Comp.throw (.text "arg is not a literal")
        | none => Comp.throw (.panic "called `Option::unwrap()` on a `None` value")
      else .lit <$> Comp.ofExcept (iterResult op lits ls)

/-- A subject of an `if match`: the result and, on a match, its captures. -/
def matchSubject (who : String) (pf : Platform) (p : Pattern) :
    Outcome FL → EvalM FL (Outcome FL × Option (List (String × Literal FL)))
  | .ret o => pure (.ret o, none)
  | .lit l =>
      match l.performMatch pf p with
      | .ok (some caps) => pure (.lit l, caps)
      | .ok none => Comp.throw (.text (who ++ ", if-match-expression: type error"))
      | .error msg => Comp.throw (.panic msg)

/-- All captures of an `if match`, `none` when a subject did not match. -/
def allCaptures {α : Type} (rs : List (α × Option (List (String × Literal FL)))) :
    Option (BTreeMap String (Literal FL)) :=
  if rs.any (fun r => r.2.isNone) then none
  else some (BTreeMap.ofList (rs.flatMap (fun r => r.2.getD [])))

/-- A call on evaluated arguments: user functions come first. -/
def evalCall (env : Env FL) (ev : Expr FL → EvalM FL (Outcome FL)) (f : String)
    (isAsync : Bool) (args : List (Literal FL)) : EvalM FL (Outcome FL) :=
  match env.get f with
  | some e => do
      let e ← Comp.ofExcept (applyAll e (args.map .litExpr))
      return (← ev e).stripReturn
  | none =>
      if Headers.isBuiltin FT f then .lit <$> env.builtin f args
      else match Headers.split f with
        | some (external, method) =>
            if external = "Ingress" ∨ external = "Egress" then
              .lit <$> EvalM.metaCall external method args
            else if isAsync then do
              EvalM.log ⟨external, method, args, true⟩
              pure (.lit .unit)
            else .lit <$> EvalM.externalCall env ⟨external, method, args, false⟩
        | none => Comp.throw (.unknownCall f args)

/-- `eval`, with the recursive calls as the parameter `ev`. -/
def evalStep (env : Env FL) : Comp.Functional (Error FL) (World FL) (Expr FL) (Outcome FL) :=
  fun ev e => match e with
  | .var _ | .bvar _ _ => Comp.throw (.text "eval variable")
  | .litExpr l => pure (.lit l)
  | .closure _ _ => Comp.throw (.text "eval, closure")
  | .returnExpr e => .ret <$> ev e
  | .prefixExpr p e => do prefixOp env.platform p (← ev e)
  | .infixExpr .and e1 e2 => do shortCircuit false (ev e2) (← ev e1)
  | .infixExpr .or e1 e2 => do shortCircuit true (ev e2) (← ev e1)
  | .infixExpr op e1 e2 => do
      let r1 ← ev e1
      let r2 ← ev e2
      infixOp env.platform op r1 r2
  | .blockExpr .list [] => pure (.lit (.list []))
  | .blockExpr _ [] => pure (.lit .unit)
  | .blockExpr .block (e :: es) => do
      let res ← ev e
      if res.isReturn || es.isEmpty then pure res else ev (.blockExpr .block es)
  | .blockExpr b es => do
      let rs ← Comp.traverse ev es
      match Outcome.literals rs with
      | .error r => pure r
      | .ok ls => pure (.lit (if b = .list then .list ls else .tuple ls))
  | .letExpr vs e1 e2 => do
      match ← ev e1 with
      | .ret o => pure (.ret o)
      | .lit l => ev (← Comp.ofExcept (bindLet "eval" vs l e2))
  | .iter op vs e1 e2 acc => do
      match ← ev e1 with
      | .ret o => pure (.ret o)
      | .lit (.list lits) => do
          let acc ← evalAcc ev acc
          let (rs, acc) ← evalIter ev vs e2 lits acc
          finishIter op lits rs acc
      | .lit _ => Comp.throw (.text "eval, map-expression")
  | .ifExpr cond consequence alternative => do
      match ← ev cond with
      | .ret o => pure (.ret o)
      | .lit l => match l.getBool? with
        | some true => ev consequence
        | some false => evalAlternative ev alternative
        | none => Comp.throw (.text "eval, if-expression")
  | .ifSomeMatchExpr expr consequence alternative => do
      match ← ev expr with
      | .ret o => pure (.ret o)
      | .lit (.tuple [l]) => do ev (← Comp.ofExcept (applyTo consequence (.litExpr l)))
      | .lit (.tuple _) => evalAlternative ev alternative
      | .lit l => Comp.throw (.ifLet l)
  | .ifMatchExpr vars subjects consequence alternative => do
      let rs ← Comp.traverse (fun m => do matchSubject "eval" env.platform m.2 (← ev m.1))
        subjects
      match Outcome.literals (rs.map Prod.fst) with
      | .error r => pure r
      | .ok _ => match allCaptures rs with
        | none => evalAlternative ev alternative
        | some caps => do ev (← Comp.ofExcept (bindCaptures "eval" caps vars consequence))
  | .callExpr f args isAsync => do
      let rs ← Comp.traverse ev args
      match Outcome.literals rs with
      | .error r => pure r
      | .ok ls => evalCall env ev f isAsync ls

/-- `eval` with fuel for `n` nested unfoldings. -/
def evalN (env : Env FL) (n : Nat) : Expr FL → EvalM FL (Outcome FL) :=
  Comp.iterate (evalStep env) n

/-- `eval_call` where a plane does not override it: a built-in function on up to four
literals. -/
def evalBuiltin (pf : Platform) (f : String) (args : List (Literal FL)) : EvalM FL (Literal FL) :=
  match args with
  | [] => EvalM.lift (.callType f args) (.ok (TInterpret.evalCall0 pf f))
  | [l] => EvalM.lift (.callType f args) (l.evalCall1 pf f)
  | [l1, l2] => EvalM.lift (.callType f args) (l1.evalCall2 pf f l2)
  | [l1, l2, l3] => EvalM.lift (.callType f args) (.ok (l1.evalCall3 f l2 l3))
  | [l1, l2, l3, l4] => EvalM.lift (.callType f args) (.ok (l1.evalCall4 f l2 l3 l4))
  | _ => Comp.throw (.unknownCall f args)

/-- `evaluate`: a return at the top of the result is stripped. -/
def evaluateN (env : Env FL) (n : Nat) (e : Expr FL) : EvalM FL (Outcome FL) :=
  Outcome.stripReturn <$> evalN env n e

end

end Armour.Lang
