import Armour.Lang.Parser
import Armour.Lang.Headers

/-! # The type checker

`from_loc_expr`, `from_block_stmt` and what calls them in `armour-lang/src/expressions.rs`, from
surface expressions to core expressions with their types, less the positions.  The checker writes
one thing besides its result, the type that a function returns; what is done with the type of a
`return` is left open here, and `setReturn` is what the source does.
-/

namespace Armour.Lang

open Armour.Lib

variable {FT FL : Type} [TFlatTyp FT]

/-- What the checker refuses a program for; the messages end with a position in the source.
`panic` is an `unwrap` that fails. -/
inductive CheckError (FT : Type) where
  | mismatch (s : String) (t1 t2 : Typ FT)
  | args (s : String) (len1 len2 : Nat)
  | message (s : String)
  | pattern (e : MatchError)
  | panic (s : String)

/-- `Context`: the types of the variables in scope. -/
structure Context (FT : Type) where
  vars : BTreeMap String (Typ FT)
  asyncTag : Bool

namespace Context

omit [TFlatTyp FT] in
/-- `Context::new`. -/
def new : Context FT := ⟨∅, false⟩

omit [TFlatTyp FT] in
def addVar (ctxt : Context FT) (name : String) (typ : Typ FT) : Context FT :=
  { ctxt with vars := ctxt.vars.insert name typ }

omit [TFlatTyp FT] in
def updateAsyncTag (ctxt : Context FT) (b : Bool) : Context FT :=
  { ctxt with asyncTag := ctxt.asyncTag || b }

omit [TFlatTyp FT] in
def var (ctxt : Context FT) (name : String) : Option (Typ FT) := ctxt.vars.get? name

omit [TFlatTyp FT] in
def addVars (ctxt : Context FT) (vars : List (String × Typ FT)) : Context FT :=
  vars.foldl (fun ctxt v => ctxt.addVar v.1 v.2) ctxt

/-- The variables of a `let` or an iterator: one variable for the value, or one for each component
of a tuple. -/
def bindIdents (ctxt : Context FT) (ids : List String) (typ : Typ FT) : Option (Context FT) :=
  match ids with
  | [id] => some (ctxt.addVar id typ)
  | ids =>
      match typ with
      | .tuple tys => if ids.length = tys.length then some (ctxt.addVars (ids.zip tys)) else none
      | _ => none

end Context

/-- A checked expression; the names of the functions that it calls are a set in the source. -/
structure ExprAndMeta (FT FL : Type) where
  expr : Expr FL
  calls : List String
  typ : Typ FT

/-! ## Types of operators, iterators and literals -/

/-- `Prefix::typ`. -/
def Prefix.typ : Prefix → Typ FT × Typ FT
  | .not => (.bool, .bool)
  | .minus => (.i64, .i64)

/-- `Infix::typ`, a panic on the operators of names. -/
def Infix.typ : Infix → Option (Typ FT × Typ FT × Typ FT)
  | .concat => some (.list .rreturn, .list .rreturn, .list .rreturn)
  | .concatStr => some (.str, .str, .str)
  | .equal | .notEqual => some (.rreturn, .rreturn, .bool)
  | .isIn => some (.rreturn, .list .rreturn, .bool)
  | .and | .or => some (.bool, .bool, .bool)
  | .divide | .remainder | .minus | .plus | .multiply => some (.i64, .i64, .i64)
  | .greaterThan | .greaterThanEqual | .lessThan | .lessThanEqual => some (.i64, .i64, .bool)
  | .module | .dot => none

def Iter.display : Iter → String
  | .all => "all"
  | .any => "any"
  | .filter => "filter"
  | .filterMap => "filter_map"
  | .map => "map"
  | .forEach => "foreach"
  | .fold => "fold"

namespace Parser.Lit

/-- `Literal::typ`, on the literals that the parser builds. -/
def typ : Lit F64 → Typ FT
  | bool _ => .bool
  | data _ => .data
  | float _ => .flatTyp (TFlatTyp.dp .f64)
  | int _ => .i64
  | label _ => .label
  | none => .anyOption
  | regex _ => .regex
  | str _ => .str
  | unit => .unit

def toLiteral [TFlatLiteral FT FL] : Lit F64 → Literal FL
  | bool b => .bool b
  | data d => .data d
  | float f => .dp (.float f)
  | int i => .int i
  | label l => .label l
  | none => .none
  | regex r => .dp (.regex r)
  | str s => .str s
  | unit => .unit

end Parser.Lit

/-! ## Checks -/

section

variable {σ : Type}

/-- The first two types that do not unify. -/
def firstMismatch : List (Typ FT) → List (Typ FT) → Option (Typ FT × Typ FT)
  | t1 :: v1, t2 :: v2 => if t1.canUnify t2 then firstMismatch v1 v2 else some (t1, t2)
  | _, _ => none

/-- `type_check`. -/
def check (s : String) (v1 v2 : List (Typ FT)) : Comp (CheckError FT) σ Unit :=
  if v1.length = v2.length then
    match firstMismatch v1 v2 with
    | some (t1, t2) => Comp.throw (.mismatch s t1 t2)
    | none => pure ()
  else Comp.throw (.args s v1.length v2.length)

/-- An `unwrap` or a result with an error of its own. -/
def orThrow {α : Type} (e : CheckError FT) : Option α → Comp (CheckError FT) σ α
  | some a => pure a
  | none => Comp.throw e

/-- The variables of the patterns of an `if match`, and the patterns compiled. -/
def checkMatches (pk : Packages) (ps : List SurfacePattern) :
    Comp (CheckError FT) σ (List Pattern × BTreeMap String As) :=
  match checkPatterns pk (ps.map (fun p => ("", p))) ∅ with
  | .ok r => pure r
  | .error e => Comp.throw (.pattern e)

/-- `Pattern::typ`. -/
def SurfacePattern.typ : SurfacePattern → Typ FT
  | regex _ => .str
  | label _ => .label

/-- The operand types of an infix operator. -/
def checkInfix (op : Infix) (typ1 typ2 : Typ FT) : Comp (CheckError FT) σ (Typ FT) := do
  let (t1, t2, typ) ← orThrow (.panic "explicit panic") op.typ
  if t1 = .rreturn then
    if t2 = .rreturn then check "equality/inequality/concat" [typ1] [typ2]
    else check "in" [.list typ1] [typ2]
  else check "infix" [typ1, typ2] [t1, t2]
  return typ

/-- The check of the body of an iterator. -/
def checkIterBody (op : Iter) (typ2 : Typ FT) : Comp (CheckError FT) σ Unit :=
  if op = .filterMap then check "filter_map-expression" [typ2] [.anyOption]
  else if op ≠ .map ∧ op ≠ .forEach ∧ op ≠ .fold then
    check "all/any/filter-expression" [typ2] [.bool]
  else pure ()

/-- The type of an iterator over a list of type `typ1` with a body of type `typ2`. -/
def iterTyp (op : Iter) (typ1 typ2 : Typ FT) : Comp (CheckError FT) σ (Typ FT) :=
  match op with
  | .all | .any => pure .bool
  | .filter => pure typ1
  | .filterMap => do
      let t ← orThrow (.panic "called `Result::unwrap()` on an `Err` value") typ2.destOption
      return .list t
  | .forEach => pure .unit
  | .fold => Comp.throw (.message ("fold can not be defined without an accumulator"))
  | .map => pure (.list typ2)

/-- The type of a call: that of the signature, but for functions that are generic. -/
def callTyp (function : String) (types : List (Typ FT)) (typ : Typ FT) :
    Comp (CheckError FT) σ (Typ FT) :=
  let unwrap := orThrow (.panic "called `Option::unwrap()` on a `None` value")
  match function with
  | "list::reduce" => do
      let t ← unwrap (types.head?.bind Typ.destList)
      return t.option
  | "list::difference" | "list::intersection" => unwrap types.head?
  | _ => pure typ

/-- The call of a function of the headers, or a component of a tuple. -/
def checkCall (h : Headers FT) (asyncTag : Bool) (function : String)
    (ms : List (ExprAndMeta FT FL)) : Comp (CheckError FT) σ (ExprAndMeta FT FL) :=
  let types := ms.map ExprAndMeta.typ
  let expressions := ms.map ExprAndMeta.expr
  let calls := ms.flatMap ExprAndMeta.calls
  let function := Headers.resolve function types
  match h.typ function with
  | some sig => do
      match sig.args with
      | some args => check function types args
      | none => pure ()
      let typ ← callTyp function types sig.typ
      return ⟨.callExpr function expressions (decide (typ = .unit) && asyncTag),
        calls ++ [function], typ⟩
  | none =>
      match Text.parseUsize function with
      | some i =>
          match types with
          | [.tuple l] =>
              match l[i]? with
              | some t => pure ⟨.call function expressions, calls, t⟩
              | none => Comp.throw (.message ("tuple index function \"" ++ function ++
                  "\" called on tuple with just " ++ toString l.length ++ " elements"))
          | types => Comp.throw (.message ("tuple index function \"" ++ function ++
              "\" called on non-tuple (" ++ ",".intercalate (types.map Typ.display) ++ ")"))
      | none => Comp.throw (.message ("undeclared function \"" ++ function ++ "\""))

/-! ## Expressions and statements -/

variable [TFlatLiteral FT FL] (pk : Packages) (order : List String → List String)
variable (onReturn : Typ FT → Comp (CheckError FT) σ Unit) (h : Headers FT)

mutual
/-- `from_loc_expr`.  `order` is the order of the keys of a `HashMap`. -/
def fromLocExpr (ctxt : Context FT) :
    Parser.Expr F64 → Comp (CheckError FT) σ (ExprAndMeta FT FL)
  | .identExpr id =>
      match ctxt.var id with
      | some typ => pure ⟨.var id, [], typ⟩
      | none => Comp.throw (.message ("undeclared variable \"" ++ id ++ "\""))
  | .litExpr l => pure ⟨.litExpr l.toLiteral, [], l.typ⟩
  | .listExpr es => do
      let (ms, typ) ← fromElements ctxt .rreturn es
      return ⟨.blockExpr .list (ms.map ExprAndMeta.expr), ms.flatMap ExprAndMeta.calls,
        .list typ⟩
  | .tupleExpr es => do
      let ms ← fromLocExprs ctxt es
      return ⟨.blockExpr .tuple (ms.map ExprAndMeta.expr), ms.flatMap ExprAndMeta.calls,
        .tuple (ms.map ExprAndMeta.typ)⟩
  | .prefixExpr p e1 => do
      let m ← fromLocExpr ctxt e1
      check "prefix" [m.typ] [p.typ.1]
      return ⟨.prefixExpr p m.expr, m.calls, p.typ.2⟩
  | .infixExpr op e1 e2 => do
      let m1 ← fromLocExpr ctxt e1
      let m2 ← fromLocExpr ctxt e2
      let typ ← checkInfix op m1.typ m2.typ
      return ⟨.infixExpr op m1.expr m2.expr, m1.calls ++ m2.calls, typ⟩
  | .ifExpr cond consequence none => do
      let m1 ← fromLocExpr ctxt cond
      let m2 ← fromBlockStmt ctxt consequence
      check "if-expression" [m1.typ, m2.typ] [.bool, .unit]
      return ⟨.ifExpr m1.expr m2.expr none, m1.calls ++ m2.calls, .unit⟩
  | .ifExpr cond consequence (some alt) => do
      let m1 ← fromLocExpr ctxt cond
      let m2 ← fromBlockStmt ctxt consequence
      let m3 ← fromBlockStmt ctxt alt
      check "if-else-expression" [m1.typ, m2.typ] [.bool, m3.typ]
      return ⟨.ifExpr m1.expr m2.expr (some m3.expr), m1.calls ++ m2.calls ++ m3.calls,
        m2.typ.unify m3.typ⟩
  | .ifSomeMatchExpr var expr consequence none => do
      let m1 ← fromLocExpr ctxt expr
      let typ1 ← orThrow (.message "expecting option type in if-let") m1.typ.destOption
      let m2 ← fromBlockStmt (ctxt.addVar var typ1) consequence
      check "if-let-expression" [m2.typ] [.unit]
      return ⟨.ifSomeMatchExpr m1.expr (m2.expr.closureExpr var) none, m1.calls ++ m2.calls,
        .unit⟩
  | .ifSomeMatchExpr var expr consequence (some alt) => do
      let m1 ← fromLocExpr ctxt expr
      let typ1 ← orThrow (.message "expecting option type in if-let") m1.typ.destOption
      let m2 ← fromBlockStmt (ctxt.addVar var typ1) consequence
      let m3 ← fromBlockStmt ctxt alt
      check "if-let-else-expression" [m2.typ] [m3.typ]
      return ⟨.ifSomeMatchExpr m1.expr (m2.expr.closureExpr var) (some m3.expr),
        m1.calls ++ m2.calls ++ m3.calls, m2.typ.unify m3.typ⟩
  | .ifMatchExpr subjects consequence alternative => do
      let ms ← fromSubjects ctxt subjects
      check "if-match-expression" (ms.map ExprAndMeta.typ) (subjects.map (fun s => s.2.typ))
      let (ps, map) ← checkMatches pk (subjects.map Prod.snd)
      let extendVars := ctxt.addVars (map.entries.map (fun v => (v.1, .flatTyp (TFlatTyp.dp v.2.typ))))
      let m1 ← fromBlockStmt extendVars consequence
      let vs := order map.keys
      let expr1 := m1.expr.closureExprs vs
      let calls := ms.flatMap ExprAndMeta.calls ++ m1.calls
      match alternative with
      | none => do
          check "if-match-expression" [m1.typ] [.unit]
          return ⟨.ifMatchExpr vs ((ms.map ExprAndMeta.expr).zip ps) expr1 none, calls,
            .unit⟩
      | some a => do
          let m2 ← fromBlockStmt ctxt a
          check "if-match-else-expression" [m1.typ] [m2.typ]
          return ⟨.ifMatchExpr vs ((ms.map ExprAndMeta.expr).zip ps) expr1
            (some m2.expr), calls ++ m2.calls, m1.typ.unify m2.typ⟩
  | .iterExpr op idents expr body accumulator => do
      let m1 ← fromLocExpr ctxt expr
      let notList : CheckError FT :=
        .message (op.display ++ " over expression of type " ++ m1.typ.display)
      let lty ← orThrow notList m1.typ.destList
      let iterVars ← orThrow notList (ctxt.bindIdents idents lty)
      match accumulator with
      | none => do
          let m2 ← fromBlockStmt iterVars body
          checkIterBody op m2.typ
          let typ ← iterTyp op m1.typ m2.typ
          return ⟨m2.expr.mkIter op idents m1.expr none, m1.calls ++ m2.calls, typ⟩
      | some (accName, acc) =>
          if op = .fold then do
            -- the accumulator is checked before the body, for its type, and after it
            let ma ← fromLocExpr ctxt acc
            let m2 ← fromBlockStmt (iterVars.addVar accName ma.typ) body
            checkIterBody op m2.typ
            let ma ← fromLocExpr ctxt acc
            check "fold-expression" [m2.typ] [ma.typ]
            return ⟨m2.expr.mkIter op idents m1.expr (some (accName, ma.expr)),
              m1.calls ++ m2.calls ++ ma.calls, ma.typ⟩
          else do
            let m2 ← fromBlockStmt iterVars body
            checkIterBody op m2.typ
            Comp.throw (.message (op.display ++ " can have an accumulator"))
  | .callExpr function arguments => do
      let ms ← fromLocExprs ctxt arguments
      match ms with
      | [m] =>
          if function = "option::Some" then
            return ⟨.call function [m.expr], m.calls, .tuple [m.typ]⟩
          else checkCall h ctxt.asyncTag function [m]
      | ms => checkCall h ctxt.asyncTag function ms

/-- Expressions in their order. -/
def fromLocExprs (ctxt : Context FT) :
    List (Parser.Expr F64) → Comp (CheckError FT) σ (List (ExprAndMeta FT FL))
  | [] => pure []
  | e :: es => do
      let m ← fromLocExpr ctxt e
      let ms ← fromLocExprs ctxt es
      return m :: ms

/-- The elements of a list: each is checked against the type of those before it. -/
def fromElements (ctxt : Context FT) (typ : Typ FT) :
    List (Parser.Expr F64) → Comp (CheckError FT) σ (List (ExprAndMeta FT FL) × Typ FT)
  | [] => pure ([], typ)
  | e :: es => do
      let m ← fromLocExpr ctxt e
      check "list" [m.typ] [typ]
      let (ms, typ) ← fromElements ctxt (typ.unify m.typ) es
      return (m :: ms, typ)

/-- The subjects of an `if match`. -/
def fromSubjects (ctxt : Context FT) :
    List (Parser.Expr F64 × SurfacePattern) → Comp (CheckError FT) σ (List (ExprAndMeta FT FL))
  | [] => pure []
  | (e, _) :: ss => do
      let m ← fromLocExpr ctxt e
      let ms ← fromSubjects ctxt ss
      return m :: ms

/-- `from_block_stmt`. -/
def fromBlockStmt (ctxt : Context FT) :
    Parser.BlockStmt F64 → Comp (CheckError FT) σ (ExprAndMeta FT FL)
  | .mk statements asyncTag => fromStmts (ctxt.updateAsyncTag asyncTag) statements

/-- The statements of a block, in a context that has the tag of the block. -/
def fromStmts (ctxt : Context FT) :
    List (Parser.Stmt F64) → Comp (CheckError FT) σ (ExprAndMeta FT FL)
  | [] => pure ⟨.blockExpr .block [], [], .unit⟩
  | .returnStmt re :: rest =>
      if rest.isEmpty then do
        let m ← fromLocExpr ctxt re
        onReturn m.typ
        return ⟨.blockExpr .block [.returnExpr m.expr], m.calls, .rreturn⟩
      else Comp.throw (.message "unreachable code after return")
  | .exprStmt exp asyncTag semi :: rest => do
      let m1 ← fromLocExpr (ctxt.updateAsyncTag asyncTag) exp
      if rest.isEmpty then return ⟨m1.expr, m1.calls, if semi then .unit else m1.typ⟩
      else if !semi then Comp.throw (.message "missing semi-colon after expression")
      else do
        let m2 ← fromStmts ctxt rest
        match m2.expr with
        | .blockExpr .block b =>
            return ⟨.blockExpr .block (m1.expr :: b), m1.calls ++ m2.calls, m2.typ⟩
        | expr2 => return ⟨.blockExpr .block [m1.expr, expr2], m1.calls ++ m2.calls, m2.typ⟩
  | .letStmt ids le :: rest => do
      let m1 ← fromLocExpr ctxt le
      let letVars ← orThrow (.message (toString ids.length ++
        " variables in let expression of type " ++ m1.typ.display)) (ctxt.bindIdents ids m1.typ)
      let m2 ← fromStmts letVars rest
      return ⟨m2.expr.mkLet ids m1.expr, m1.calls ++ m2.calls, m2.typ⟩
end

end

/-! ## Functions -/

/-- `ReturnType`: the type of the first `return` of a function. -/
abbrev ReturnType (FT : Type) := Option (Typ FT)

/-- A `return` of a type: the first one sets the type that the others are checked against. -/
def setReturn (typ : Typ FT) : Comp (CheckError FT) (ReturnType FT) Unit := do
  match ← Comp.get with
  | some rtype => check "return" [typ] [rtype]
  | none => Comp.set (some typ)

section

variable [TFlatLiteral FT FL] (pk : Packages) (order : List String → List String)
variable (h : Headers FT)

/-- `check_from_block_stmt`, from a return type that is not set. -/
def checkFromBlockStmt (ctxt : Context FT) (name : Option String) (block : Parser.BlockStmt F64) :
    Comp (CheckError FT) (ReturnType FT) (ExprAndMeta FT FL) := do
  let em ← fromBlockStmt pk order setReturn h ctxt block
  match ← Comp.get with
  | some rtype => check (name.getD "REPL") [em.typ] [rtype]
  | none => pure ()
  match name with
  | some name => do
      let typ ← orThrow (.message ("no current function")) (h.returnTyp name)
      check name [em.typ] [typ]
  | none => pure ()
  return em

/-- `from_decl`, with the types of the parameters: the checked body closed over them. -/
def fromDecl (name : String) (args : List (String × Typ FT)) (body : Parser.BlockStmt F64) :
    Comp (CheckError FT) (ReturnType FT) (Expr FL × List String) := do
  let em : ExprAndMeta FT FL ←
    checkFromBlockStmt pk order h (Context.new.addVars args.reverse) (some name) body
  return (em.expr.closureExprs (args.map Prod.fst), em.calls)

end

end Armour.Lang
