import Armour.Control.Interpret
import Armour.Lang.Convert

/-! # The specializer

`armour-control/src/specialize.rs`: partial evaluation of global policies.  Each branch
answers with a flag, whether the result is static, and the residual expression.  As for
the interpreter, `pevalStep` is one unfolding, with the recursive calls as a parameter;
its first component is `simplification_only`.
-/

namespace Armour.Control

open Armour.Lib Armour.Lang

/-- A static flag and a residual. -/
abbrev Residual := Bool × CPExpr

namespace Residual

def isReturn (r : Residual) : Bool := r.2.isReturn

end Residual

/-! ## Simplification of operators -/

def isLit (e : CPExpr) (l : CPLiteral) : Bool :=
  match e with
  | .litExpr x => x == l
  | _ => false

/-- The neutral and absorbing literals of a pair of operators, and their operators: what
`ring_simplification!` is applied to. -/
structure Ring where
  plus1 : Infix
  multiply1 : Infix
  plus2 : Infix
  multiply2 : Infix
  zero : CPLiteral
  one : CPLiteral

/-- `ring_simplification!`; the first component tells whether it applied. -/
def Ring.simplify (r : Ring) (op : Infix) (b1 : Bool) (e1 : CPExpr) (b2 : Bool) (e2 : CPExpr) :
    Bool × Residual :=
  if op = r.plus1 ∨ op = r.plus2 then
    if e1.isReturn then (true, b1, e1)
    else if isLit e1 r.zero then (true, b2, e2)
    else if e2.isReturn then (true, b2, e2)
    else if isLit e2 r.zero then (true, b1, e1)
    else (false, b1 && b2, .infixExpr op e1 e2)
  else if op = r.multiply1 ∨ op = r.multiply2 then
    if e1.isReturn then (true, b1, e1)
    else if isLit e1 r.zero then (true, b1, e1)
    else if isLit e1 r.one then (true, b2, e2)
    else if e2.isReturn then (true, b2, e2)
    else if isLit e2 r.zero then (true, b2, e2)
    else if isLit e2 r.one then (true, b1, e1)
    else (false, b1 && b2, .infixExpr op e1 e2)
  else (false, b1 && b2, .infixExpr op e1 e2)

def floatLit (f : F64) : CPLiteral := .dp (.float f)

def orRing : Ring := ⟨.or, .and, .or, .and, .bool false, .bool true⟩
def andRing : Ring := ⟨.and, .or, .and, .or, .bool true, .bool false⟩
def intRing : Ring := ⟨.plus, .multiply, .minus, .divide, .int 0, .int 1⟩
def floatRing : Ring := ⟨.plus, .multiply, .minus, .divide, floatLit .zero, floatLit .one⟩

/-- `combine_simplification`: the first ring that applies. -/
def simplifyRings (op : Infix) (b1 : Bool) (e1 : CPExpr) (b2 : Bool) (e2 : CPExpr) :
    List Ring → Residual
  | [] => (b1 && b2, .infixExpr op e1 e2)
  | r :: rs =>
      let t := r.simplify op b1 e1 b2 e2
      if t.1 then t.2 else simplifyRings op b1 e1 b2 e2 rs

/-- `simplify`: note that two expressions that differ are taken to have different values. -/
def simplify (op : Infix) (b1 : Bool) (e1 : CPExpr) (b2 : Bool) (e2 : CPExpr) :
    Except (Error CPFlatLiteral) Residual :=
  if op = .divide ∧ (isLit e2 (.int 0) ∨ isLit e2 (floatLit .zero)) then
    .error (.text "peval, can not divide by zero")
  else if op = .equal ∧ e1 == e2 then .ok (b1 && b2, .litExpr (.bool true))
  else if op = .notEqual ∧ e1 != e2 then .ok (b1 && b2, .litExpr (.bool true))
  else .ok (simplifyRings op b1 e1 b2 e2 [orRing, andRing, intRing, floatRing])

/-! ## Parts of `peval` on residuals -/

/-- A static prefix or infix result. -/
def liftStatic (msg : String) (r : Checked (Option CPLiteral)) : CPEvalM Residual :=
  (fun l => (true, .litExpr l)) <$> EvalM.lift (.text msg) r

def pevalPrefix (pf : Platform) (p : Prefix) : Residual → CPEvalM Residual
  | (true, .returnExpr r) => pure (true, .returnExpr r)
  | (true, .litExpr l) => liftStatic "peval prefix: type error" (l.evalPrefix pf p)
  | (false, e) => pure (false, .prefixExpr p e)
  | _ => Comp.throw (.text "peval, prefix")

def pevalInfix (pf : Platform) (op : Infix) : Residual → Residual → CPEvalM Residual
  | (true, x), (true, y) =>
      if x.isReturn then pure (true, x)
      else if y.isReturn then pure (true, y)
      else match x, y with
        | .litExpr l1, .litExpr l2 =>
            liftStatic "peval, infix: type error" (l1.evalInfix pf op l2)
        | _, _ => Comp.throw (.text "peval, infix: failed")
  | (b1, x), (b2, y) => Comp.ofExcept (simplify op b1 x b2 y)

/-- The residual of a block head in front of the residual of the rest. -/
def consBlock (res : CPExpr) : CPExpr → CPExpr
  | .blockExpr _ es => .blockExpr .block (res :: es)
  | e => .blockExpr .block [res, e]

/-- `literal_vector`. -/
def literalVector : List CPExpr → Except (Error CPFlatLiteral) (List CPLiteral)
  | [] => .ok []
  | .litExpr l :: es => (literalVector es).map (l :: ·)
  | _ :: _ => .error (.text "arg is not a literal")

/-- All results are static. -/
def allStatic (rs : List Residual) : Bool := rs.all Prod.fst

/-- A list or tuple from the residuals of its elements. -/
def pevalList (b : Block) (rs : List Residual) : CPEvalM Residual :=
  match rs.find? Residual.isReturn with
  | some r => pure (allStatic rs, r.2)
  | none => do
      let lits ← Comp.ofExcept (literalVector (rs.map Prod.snd))
      pure (allStatic rs, .litExpr (if b = .list then .list lits else .tuple lits))

/-- The iterations over a static list. -/
def pevalIter (pe : Bool × CPExpr → CPEvalM Residual) (so : Bool) (vs : List String)
    (e2 : CPExpr) : List CPLiteral → Option Residual →
      CPEvalM (List Residual × Option Residual)
  | [], acc => pure ([], acc)
  | l :: ls, acc => do
      let e ← Comp.ofExcept (bindIter "peval" vs (acc.map Prod.snd) l e2)
      let r ← pe (so, e)
      let (rs, acc) ← pevalIter pe so vs e2 ls (acc.map (fun _ => r))
      pure (r :: rs, acc)

/-- Result of an iterator over a static list; `x` is the name of the accumulator. -/
def finishPevalIter (op : Iter) (vs : List String) (lits : List CPLiteral) (e2 : CPExpr)
    (x : Option String) (rs : List Residual) (acc : Option Residual) : CPEvalM Residual :=
  match rs.find? Residual.isReturn with
  | some r => pure (allStatic rs, r.2)
  | none =>
      if op = .fold then
        match acc with
        | some r => pure r
        | none => Comp.throw (.panic "called `Option::unwrap()` on a `None` value")
      else if allStatic rs then do
        -- The search for a return has used up the iterator over the results.
        let l ← Comp.ofExcept (iterResult op lits [])
        pure (true, .litExpr l)
      else pure (false, .iter op vs (.litExpr (.list lits)) e2
        (acc.bind (fun r => x.map (fun x => (x, r.2)))))

/-- The alternative of a conditional that is known to be taken. -/
def pevalAlternative (pe : Bool × CPExpr → CPEvalM Residual) (so : Bool) :
    Option CPExpr → CPEvalM Residual
  | some e => pe (so, e)
  | none => pure (true, .litExpr .unit)

/-- The parts of an `if` with a dynamic condition; equal branches replace it. -/
def residualIf (cond : CPExpr) (consequence : Residual) : Option CPExpr → Residual
  | some a =>
      if a == consequence.2 then consequence
      else (false, .ifExpr cond consequence.2 (some a))
  | none => (false, .ifExpr cond consequence.2 none)

/-- The parts of an `if let` with a dynamic subject, `c` being the body of the consequence;
equal branches replace it. -/
def residualIfSome (expr : CPExpr) (v : String) (c : CPExpr) :
    Option Residual → Except (Error CPFlatLiteral) Residual
  | some (b, a) =>
      if c.isFree 0 then do
        let c' ← applyTo (.closure v c) (.litExpr .unit)
        if c' == a then .ok (b, a)
        else .ok (false, .ifSomeMatchExpr expr (.closure v c) (some a))
      else .ok (false, .ifSomeMatchExpr expr (.closure v c) (some a))
  | none => .ok (false, .ifSomeMatchExpr expr (.closure v c) none)

/-- A subject of an `if match`: the residual and, on a match, its captures. -/
def pevalSubject (pf : Platform) (p : Pattern) :
    Residual → CPEvalM (Residual × Option (List (String × CPLiteral)))
  | (f, .returnExpr r) => pure ((f, .returnExpr r), none)
  | (f, .litExpr l) => do
      let m ← matchSubject "peval" pf p (.lit l)
      pure ((f, .litExpr l), m.2)
  | _ => Comp.throw (.text "peval, if-match-expression: type error")

/-- A branch of an `if match` has to be a literal or a return. -/
def matchBranch : Residual → CPEvalM Residual
  | (f, .returnExpr r) => pure (f, .returnExpr r)
  | (f, .litExpr l) => pure (f, .litExpr l)
  | _ => Comp.throw (.text "peval, if-match-expression")

/-- `pevaluate` of a function applied to residual arguments. -/
def pevalInlined (pe : Bool × CPExpr → CPEvalM Residual) (so : Bool) (args : List CPExpr)
    (e : CPExpr) : CPEvalM Residual := do
  let e ← Comp.ofExcept (applyAll e args)
  let (b, e) ← pe (so, e)
  pure (b, e.stripReturn)

/-- A call on residual arguments none of which is a return. -/
def pevalCall (env : Env CPFlatLiteral) (pe : Bool × CPExpr → CPEvalM Residual) (so : Bool)
    (f : String) (arguments : List CPExpr) (isAsync : Bool) (args : List Residual) :
    CPEvalM Residual :=
  if allStatic args && !so then
    match env.get f with
    | some e => pevalInlined pe so (args.map Prod.snd) e
    | none =>
        if Headers.isBuiltin CPFlatTyp f then
          match literalVector (args.map Prod.snd) with
          | .ok lits => do
              let l ← env.builtin f lits
              pure (true, .litExpr l)
          | .error _ => Comp.throw (.text ("eval, call: " ++ f))
        else match Headers.split f with
          | some _ => pure (false, .callExpr f arguments isAsync)
          | none => Comp.throw (.text ("peval, call: " ++ f))
  else
    match env.get f with
    | some e => do
        let (_, e) ← pevalInlined pe so (args.map Prod.snd) e
        pure (false, e)
    | none => pure (false, .callExpr f (args.map Prod.snd) isAsync)

/-- `peval`, with the recursive calls as the parameter `pe`. -/
def pevalStep (env : Env CPFlatLiteral) :
    Comp.Functional (Error CPFlatLiteral) (World CPFlatLiteral) (Bool × CPExpr) Residual :=
  fun pe (so, e) => match e with
  | .var x => pure (false, .var x)
  | .bvar x i => pure (false, .bvar x i)
  | .litExpr l => pure (true, .litExpr l)
  | .closure x e => do
      let (_, e) ← pe (so, e)
      if e.isFree 0 then pure (true, e) else pure (false, .closure x e)
  | .returnExpr e => do
      let (b, e) ← pe (so, e)
      pure (b, .returnExpr e)
  | .prefixExpr p e => do pevalPrefix env.platform p (← pe (so, e))
  | .infixExpr op e1 e2 => do
      let r1 ← pe (so, e1)
      let r2 ← pe (so, e2)
      pevalInfix env.platform op r1 r2
  | .blockExpr .list [] => pure (true, .litExpr (.list []))
  | .blockExpr _ [] => pure (true, .litExpr .unit)
  | .blockExpr .block (e :: es) => do
      let (f, res) ← pe (so, e)
      if res.isReturn || es.isEmpty then pure (f, res)
      else if f then pe (so, .blockExpr .block es)
      else do
        let (_, rest) ← pe (true, .blockExpr .block es)
        pure (false, consBlock res rest)
  | .blockExpr b es => do
      let rs ← Comp.traverse (fun e => pe (so, e)) es
      pevalList b rs
  | .letExpr vs e1 e2 =>
      match e2.atDepth vs.length with
      | none => Comp.throw (.panic "called `Option::unwrap()` on a `None` value")
      | some body =>
          if (List.range vs.length).all body.isFree then do
            let e ← Comp.ofExcept (applyAll e2 (List.replicate vs.length (.litExpr .unit)))
            pe (so, e)
          else do
            match ← pe (so, e1) with
            | (flag, .returnExpr r) => pure (flag, .returnExpr r)
            | (true, .litExpr l) => do
                let e ← Comp.ofExcept (bindLet "peval" vs l e2)
                pe (so, e)
            | (false, e1) => do
                let (_, e2) ← pe (so, e2)
                pure (false, .letExpr vs e1 e2)
            | _ => Comp.throw (.text "peval, let-expression")
  | .iter op vs e1 e2 acc => do
      match ← pe (so, e1) with
      | (_, .returnExpr r) => pure (true, .returnExpr r)
      | (false, e1) => do
          let (_, e2) ← pe (so, e2)
          match acc with
          | some (x, a) => do
              let (_, a) ← pe (so, a)
              pure (false, .iter op vs e1 e2 (some (x, a)))
          | none => pure (false, .iter op vs e1 e2 none)
      | (true, .litExpr (.list lits)) =>
          match acc with
          | some (x, a) => do
              let (b, a) ← pe (so, a)
              if b then do
                let (rs, last) ← pevalIter pe so vs e2 lits (some (true, a))
                finishPevalIter op vs lits e2 (some x) rs last
              else pure (false, .iter op vs (.litExpr (.list lits)) e2 (some (x, a)))
          | none => do
              let (rs, last) ← pevalIter pe so vs e2 lits none
              finishPevalIter op vs lits e2 none rs last
      | _ => Comp.throw (.text "peval, map-expression")
  | .ifExpr cond consequence alternative => do
      match ← pe (so, cond) with
      | (flag, .returnExpr r) => pure (flag, .returnExpr r)
      | (true, .litExpr l) =>
          match l.getBool? with
          | some true => pe (so, consequence)
          | some false => pevalAlternative pe so alternative
          | none => Comp.throw (.text "peval, if-expression")
      | (true, _) => Comp.throw (.text "peval, if-expression")
      | (false, cond) => do
          let c ← pe (so, consequence)
          match alternative with
          | some alt => do
              let (_, a) ← pe (so, alt)
              pure (residualIf cond c (some a))
          | none => pure (residualIf cond c none)
  | .ifSomeMatchExpr expr consequence alternative => do
      match ← pe (so, expr) with
      | (flag, .returnExpr r) => pure (flag, .returnExpr r)
      | (true, .litExpr (.tuple [l])) => do
          let e ← Comp.ofExcept (applyTo consequence (.litExpr l))
          pe (so, e)
      | (true, .litExpr (.tuple _)) => pevalAlternative pe so alternative
      | (false, expr) =>
          match consequence with
          | .closure v c => do
              let (_, c) ← pe (so, c)
              match alternative with
              | some alt => do
                  let a ← pe (so, alt)
                  Comp.ofExcept (residualIfSome expr v c (some a))
              | none => Comp.ofExcept (residualIfSome expr v c none)
          | _ => Comp.throw (.panic "internal error: entered unreachable code")
      | _ => Comp.throw (.text "peval, if-let-expression")
  | .ifMatchExpr vars subjects consequence alternative => do
      let rs ← Comp.traverse (fun m => do pevalSubject env.platform m.2 (← pe (so, m.1)))
        subjects
      if !allStatic (rs.map Prod.fst) then
        pure (false, .ifMatchExpr vars subjects consequence alternative)
      else match (rs.map Prod.fst).find? Residual.isReturn with
        | some r => pure (true, r.2)
        | none => match allCaptures rs with
          | none => match alternative with
            | none => pure (true, .litExpr .unit)
            | some alt => do matchBranch (← pe (so, alt))
          | some caps => do
              let e ← Comp.ofExcept (bindCaptures "peval" caps vars consequence)
              matchBranch (← pe (so, e))
  | .callExpr f arguments isAsync => do
      let args ← Comp.traverse (fun e => pe (so, e)) arguments
      match args.find? Residual.isReturn with
      | some r => pure (allStatic args, r.2)
      | none => pevalCall env pe so f arguments isAsync args

/-- `peval` with fuel for `n` nested unfoldings. -/
def pevalN (env : Env CPFlatLiteral) (n : Nat) (so : Bool) (e : CPExpr) : CPEvalM Residual :=
  Comp.iterate (pevalStep env) n (so, e)

/-- `pevaluate`. -/
def pevaluateN (env : Env CPFlatLiteral) (n : Nat) (so : Bool) (e : CPExpr) :
    CPEvalM Residual := do
  let (b, e) ← pevalN env n so e
  pure (b, e.stripReturn)

/-! ## Compilation of a global policy -/

/-- The global signature of an entry function that `check_header` asks for. -/
def expectedSig (function : String) : Option CPSignature :=
  if function = allowRestRequest then some (.new [.id, .id, .httpRequest, .data] .bool)
  else if function = allowRestResponse then some (.new [.id, .id, .httpResponse, .data] .bool)
  else if function = allowTcpConnection then some (.new [.id, .id, .connection] .bool)
  else if function = onTcpDisconnect then
    some (.new [.id, .id, .connection, .i64, .i64] .bool)
  else none

/-- `check_header`: the number of arguments of the function. -/
def checkHeader (pol : GlobalPolicy) (function : String) : Except (Error CPFlatLiteral) Nat :=
  match expectedSig function with
  | none => .error (.text ("unknown main function to specialize: " ++ function))
  | some expected =>
      match BTreeMap.get? pol.program.headers function with
      | none => .error (.text ("specialization  checking headers, " ++ function
          ++ " is undefined in global policy"))
      | some sig =>
          if sig ≠ expected then
            .error (.text ("specialization  checking headers, " ++ function
              ++ " has a wrong signature"))
          else .ok ((expected.args.getD []).length)

/-- The local signature of an entry function, with the declared return type. -/
def localSig (function : String) (ret : CPTyp) : Option CPSignature :=
  if function = allowRestRequest then some (.new [.httpRequest, .data] ret)
  else if function = allowRestResponse then some (.new [.httpResponse, .data] ret)
  else if function = allowTcpConnection then some (.new [.connection] ret)
  else if function = onTcpDisconnect then some (.new [.connection, .i64, .i64] ret)
  else none

/-- `compile_helper`. -/
def compileHelper (pol : GlobalPolicy) (function : String) (nPol : GlobalPolicy) :
    Except (Error CPFlatLiteral) GlobalPolicy :=
  match Headers.returnTyp pol.program.headers function with
  | none => .error (.panic "called `Result::unwrap()` on an `Err` value")
  | some ret =>
      match localSig function ret with
      | none => .error (.text ("unknown main function to specialize: " ++ function))
      | some sig =>
          let program := { nPol.program with
            headers := BTreeMap.insert nPol.program.headers function sig }
          match program.deadcodeElim [function] with
          | none => .error (.panic "called `Option::unwrap()` on a `None` value")
          | some program => .ok
              ⟨program, nPol.fnPolicies.setArgs function
                (UInt8.ofNat (sig.args.getD []).length)⟩

/-- The direction in which the local function looks up the other identity. -/
def direction (egress : Bool) : String := if egress then "to" else "from"

/-- The local function of a specialized body: the index of the other identity becomes a
call on the local request or connection, and the local arguments are bound. -/
def wrap (egress : Bool) (function : String) (e : CPExpr) :
    Except (Error CPFlatLiteral) CPExpr :=
  if function = allowRestRequest ∨ function = allowRestResponse then
    let get := (if function = allowRestRequest then "HttpRequest::" else "HttpResponse::")
      ++ direction egress
    let e := e.subst 2 (.call get [.bvar "req" 1]) false
    .ok (.closure "req" (.closure "payload" e))
  else if function = allowTcpConnection then
    let e := e.subst 1 (.call ("Connection::" ++ direction egress) [.bvar "conn" 0]) false
    .ok (.closure "con" e)
  else if function = onTcpDisconnect then
    let e := Expr.closure (direction egress)
      (.closure "req" (.closure "i" (.closure "j" e)))
    let e := e.subst 3 (.call ("Connection::" ++ direction egress) [.bvar "conn" 2]) false
    .ok (.closure "conn" (.closure "i" (.closure "j" e)))
  else .error (.text ("unknown main function to specialize: " ++ function))

/-- The body that is specialized: the identity of the service replaces the first
argument (egress) or the second one (ingress), the others stay free. -/
def serviceBody (egress : Bool) (nArgs : Nat) (id : ID) (fexpr : CPExpr) : Option CPExpr :=
  (fexpr.propagateSubst (if egress then nArgs - 1 else nArgs - 2) (if egress then 0 else 1)
    (.litExpr (.id id))).atDepth (nArgs - 1)

/-- Specialization of one entry function of a policy. -/
def compilePolicy (rt : Runtime CPFlatLiteral) (n : Nat) (egress : Bool) (pol : GlobalPolicy)
    (function : String) (id : ID) (fexpr : CPExpr) : CPEvalM GlobalPolicy := do
  let nArgs ← Comp.ofExcept (checkHeader pol function)
  match serviceBody egress nArgs id fexpr with
  | none => Comp.throw (.panic "check_header prevent this from happening")
  | some body => do
      let (_, e) ← pevaluateN (Env.new rt pol.program) n false body
      let e ← Comp.ofExcept (wrap egress function e)
      let program := { (Policy.empty : GlobalPolicy).program with
        code := BTreeMap.insert ∅ function e }
      Comp.ofExcept (compileHelper pol function ⟨program, ∅⟩)

/-- The policies of a global policy, specialized where they define the function. -/
def compilePolicies (rt : Runtime CPFlatLiteral) (n : Nat) (egress : Bool) (function : String)
    (id : ID) : List (Protocol × GlobalPolicy) → GlobalPolicies → CPEvalM GlobalPolicies
  | [], new => pure new
  | (proto, pol) :: rest, new => do
      match pol.program.code.get? function with
      | none => compilePolicies rt n egress function id rest new
      | some fexpr => do
          let nPol ← compilePolicy rt n egress pol function id fexpr
          compilePolicies rt n egress function id rest (new.insert proto nPol)

/-- `compile_egress_ingress`. -/
def compileEgressIngress (rt : Runtime CPFlatLiteral) (n : Nat) (egress : Bool)
    (globalPol : GlobalPolicies) (function : String) (id : ID) : CPEvalM DPPolicies := do
  let new ← compilePolicies rt n egress function id globalPol.entries ∅
  match new.toDP? with
  | some pols => pure pols
  | none => Comp.throw (.panic "can not be converted to a DPFlatLiteral")

/-- What the interpreter of a control plane reaches. -/
def controlPlane (st : State)
    (rpc : List CPEffect → String → CPEffect → Except String CPLiteral) (pf : Platform)
    (compile : Compiler) : Runtime CPFlatLiteral :=
  ⟨rpc, pf, evalCall st compile pf⟩

/-- `compile_egress` and `compile_ingress` on a control plane; its built-ins compile the
stored global policy in turn. -/
def compileN (st : State) (rpc : List CPEffect → String → CPEffect → Except String CPLiteral)
    (pf : Platform) : Nat → Compiler
  | 0 => fun _ _ _ _ => Comp.diverge
  | n + 1 => compileEgressIngress (controlPlane st rpc pf (compileN st rpc pf n)) (n + 1)

end Armour.Control
