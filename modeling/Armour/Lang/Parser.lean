import Armour.Lang.Lexer
import Armour.Lang.Matching
import Armour.Lib.Pratt

/-! # The parser

`armour-lang/src/parser.rs`, from the tokens of a text to surface expressions, less the
positions.  Lists of tokens end with `EOF`, past which no parser reads, so the input that is
too short (`Incomplete`) and the input that is wrong are one failure here, and `complete!` says
nothing.
-/

namespace Armour.Lang.Parser

open Armour.Lib Parse
open Armour.Lib.Pratt (Assoc)

/-! ## Syntax -/

/-- The literals that the parser builds, over a type of floating-point numbers. -/
inductive Lit (F : Type) where
  | bool (b : Bool)
  | data (d : Bytes)
  | float (f : F)
  | int (i : Int64)
  | label (l : Label)
  | none
  | regex (r : PolicyRegex)
  | str (s : String)
  | unit

mutual
/-- `parser::Expr`. -/
inductive Expr (F : Type) where
  | identExpr (id : String)
  | litExpr (l : Lit F)
  | listExpr (es : List (Expr F))
  | tupleExpr (es : List (Expr F))
  | prefixExpr (p : Prefix) (e : Expr F)
  | infixExpr (op : Infix) (e1 e2 : Expr F)
  | iterExpr (op : Iter) (idents : List String) (expr : Expr F) (body : BlockStmt F)
      (accumulator : Option (String × Expr F))
  | ifExpr (cond : Expr F) (consequence : BlockStmt F) (alternative : Option (BlockStmt F))
  | ifMatchExpr (subjects : List (Expr F × SurfacePattern)) (consequence : BlockStmt F)
      (alternative : Option (BlockStmt F))
  | ifSomeMatchExpr (var : String) (expr : Expr F) (consequence : BlockStmt F)
      (alternative : Option (BlockStmt F))
  | callExpr (function : String) (arguments : List (Expr F))

inductive Stmt (F : Type) where
  | letStmt (ids : List String) (e : Expr F)
  | returnStmt (e : Expr F)
  | exprStmt (e : Expr F) (asyncTag semi : Bool)

inductive BlockStmt (F : Type) where
  | mk (statements : List (Stmt F)) (asyncTag : Bool)
end

/-- `From<LocExpr> for BlockStmt`. -/
def BlockStmt.ofExpr {F : Type} (e : Expr F) : BlockStmt F := .mk [.exprStmt e false false] false

/-- The name of a function: an identifier, or identifiers of modules. -/
def Expr.evalCallFunction {F : Type} : Expr F → Option String
  | identExpr id => some id
  | infixExpr .module e1 e2 =>
      match e1.evalCallFunction, e2.evalCallFunction with
      | some s1, some s2 => some (s1 ++ "::" ++ s2)
      | _, _ => none
  | _ => none

inductive Precedence where
  | PLowest | POr | PAnd | PEquals | PLessGreater | PIn | PSum | PProduct | PDot | PCall
  | PModule
deriving DecidableEq, Repr

/-- The order of the variants (`PartialOrd`). -/
def Precedence.toNat : Precedence → Nat
  | PLowest => 0
  | POr => 1
  | PAnd => 2
  | PEquals => 3
  | PLessGreater => 4
  | PIn => 5
  | PSum => 6
  | PProduct => 7
  | PDot => 8
  | PCall => 9
  | PModule => 10

section

variable {F : Type}

def infixOp : Token F → Precedence × Option (Assoc × Infix)
  | .equal => (.PEquals, some (.right, .equal))
  | .notEqual => (.PEquals, some (.right, .notEqual))
  | .lessThanEqual => (.PLessGreater, some (.right, .lessThanEqual))
  | .greaterThanEqual => (.PLessGreater, some (.right, .greaterThanEqual))
  | .lessThan => (.PLessGreater, some (.right, .lessThan))
  | .greaterThan => (.PLessGreater, some (.right, .greaterThan))
  | .or => (.POr, some (.right, .or))
  | .and => (.PAnd, some (.right, .and))
  | .plus => (.PSum, some (.left, .plus))
  | .minus => (.PSum, some (.left, .minus))
  | .atTok => (.PSum, some (.right, .concat))
  | .plusPlus => (.PSum, some (.right, .concatStr))
  | .multiply => (.PProduct, some (.left, .multiply))
  | .divide => (.PProduct, some (.left, .divide))
  | .percent => (.PProduct, some (.left, .remainder))
  | .inTok => (.PIn, some (.left, .isIn))
  | .dot => (.PDot, none)
  | .lParen => (.PCall, none)
  | .colonColon => (.PModule, some (.right, .module))
  | _ => (.PLowest, none)

/-! ## Tokens with a value -/

def parseIdent : Parse (Token F) String :=
  token (fun | .ident name => some name | _ => none)

def parseIntLiteral : Parse (Token F) Int64 :=
  token (fun | .intLiteral i => some i | _ => none)

def parseLabelLiteral : Parse (Token F) Label :=
  token (fun | .labelLiteral l => some l | _ => none)

/-- The tokens that are literals. -/
def Token.literal : Token F → Option (Lit F)
  | .boolLiteral b => some (.bool b)
  | .dataLiteral d => some (.data d)
  | .floatLiteral f => some (.float f)
  | .ident s => if s = "None" then some .none else none
  | .intLiteral i => some (.int i)
  | .labelLiteral l => some (.label l)
  | .stringLiteral s => some (.str s)
  | _ => none

def parseLiteral : Parse (Token F) (Lit F) := token Token.literal

def parsePatLiteral : Parse (Token F) Pat :=
  token (fun | .stringLiteral s => some (.lit s) | _ => none)

def classes : List String := ["alpha", "alphanum", "base64", "digit", "hex_digit", "s"]

def parsePatClass : Parse (Token F) Pat :=
  token (fun | .ident name => if name ∈ classes then some (.cls name) else none | _ => none)

def parsePatTyp : Parse (Token F) As :=
  token (fun
    | .ident s =>
        if s = "i64" then some .i64
        else if s = "base64" then some .base64
        else if s = "str" then some .str
        else none
    | _ => none)

variable [DecidableEq F]

/-! ## Binders and patterns -/

def tupleIdent : Parse (Token F) String := choice [value "_" .underscore, parseIdent]

def parseIdents : Parse (Token F) (List String) :=
  choice [
    delimited (tag .lParen) (do
      let id ← tupleIdent
      let ids ← many1 (do tag .comma; tupleIdent)
      pure (id :: ids)) (tag .rParen),
    (do
      let id ← parseIdent
      pure [id]),
    value ["_"] .underscore]

def parseAsPat : Parse (Token F) Pat := do
  tag .lBracket
  let i ← parseIdent
  let j ← opt (do tag .asTok; parsePatTyp)
  tag .rBracket
  pure (.as i (j.getD .str))

section

variable (pat : Unit → Parse (Token F) Pat)

def parseAtomPat : Parse (Token F) Pat :=
  choice [parsePatLiteral, value .any .dot, delimited (tag .colon) parsePatClass (tag .colon),
    parseAsPat, delimited (tag .lParen) (pat ()) (tag .rParen)]

def parsePostfixPat : Parse (Token F) Pat := do
  let a ← parseAtomPat pat
  let marks ← many0 (choice [value Pat.star .multiply, value Pat.plus .plus,
    value Pat.opt .questionMark, value Pat.caseInsensitive .not,
    value Pat.ignoreWhitespace .percent])
  pure (marks.foldl (fun r mark => mark r) a)

def parsePatSeq : Parse (Token F) Pat := do
  let ps ← many1 (parsePostfixPat pat)
  pure (match ps with
    | [p] => p
    | ps => .seq ps)

/-- `parse_pat`, given the parser for patterns in parentheses. -/
def patStep : Comp.Functional Fault (List (Token F)) Unit Pat := fun pat _ => do
  let p ← parsePatSeq pat
  let ps ← many0 (do tag .bar; parsePatSeq pat)
  pure (if ps = [] then p else .alt (p :: ps))

end

noncomputable def parsePat : Parse (Token F) Pat := Comp.fix patStep ()

mutual
/-- `Pat::has_as`. -/
def hasAs : Pat → Bool
  | .any | .lit _ | .cls _ => false
  | .as _ _ => true
  | .alt ps | .seq ps => hasAsList ps
  | .opt p | .star p | .plus p | .caseInsensitive p | .ignoreWhitespace p => hasAs p

def hasAsList : List Pat → Bool
  | [] => false
  | p :: ps => hasAs p || hasAsList ps
end

/-- `PolicyRegex::from_pat`, of a pattern without captures. -/
noncomputable def parsePatNoBind (rd : Reading F) : Parse (Token F) PolicyRegex := do
  let p ← parsePat
  if hasAs p then error
  else if rd.compiles p then pure ⟨p⟩
  else error

noncomputable def parsePattern : Parse (Token F) SurfacePattern :=
  choice [.regex <$> parsePat, .label <$> parseLabelLiteral]

/-! ## Expressions -/

/-- The recursive calls among parsers of expressions. -/
inductive Call (F : Type) where
  | pratt (precedence : Precedence)
  | climb (precedence : Precedence) (left : Expr F)
  | ifExpr

section

variable (call : Call F → Parse (Token F) (Expr F))

def parseExpr : Parse (Token F) (Expr F) := call (.pratt .PLowest)

def parseLetStmt : Parse (Token F) (Stmt F) := do
  tag .letTok
  let ids ← parseIdents
  tag .assign
  let e ← parseExpr call
  tag .semiColon
  pure (.letStmt ids e)

def parseReturnStmt : Parse (Token F) (Stmt F) := do
  tag .returnTok
  let e ← parseExpr call
  pure (.returnStmt e)

def parseExprStmt : Parse (Token F) (Stmt F) := do
  let asyncTag ← opt (tag .asyncTok)
  let e ← parseExpr call
  let semi ← opt (tag .semiColon)
  pure (.exprStmt e asyncTag.isSome semi.isSome)

def parseStmt : Parse (Token F) (Stmt F) :=
  choice [parseLetStmt call, parseReturnStmt call, parseExprStmt call]

def parseBlockStmt : Parse (Token F) (BlockStmt F) := do
  let asyncTag ← opt (tag .asyncTok)
  let statements ← delimited (tag .lBrace) (many0 (parseStmt call)) (tag .rBrace)
  pure (.mk statements asyncTag.isSome)

def parseExprs : Parse (Token F) (List (Expr F)) := sepBy1 (tag .comma) (parseExpr call)

def parseIterExpr : Parse (Token F) (Expr F) := do
  let op ← choice [value Iter.all .all, value Iter.any .any, value Iter.filter .filter,
    value Iter.filterMap .filterMap, value Iter.forEach .forEach, value Iter.map .map]
  let idents ← parseIdents
  tag .inTok
  let e ← parseExpr call
  let body ← parseBlockStmt call
  pure (.iterExpr op idents e body none)

def parseIterAccExpr : Parse (Token F) (Expr F) := do
  tag .fold
  let idents ← parseIdents
  tag .inTok
  let e ← parseExpr call
  let body ← parseBlockStmt call
  tag .whereTok
  let accIdent ← parseIdent
  tag .assign
  let accExpr ← parseExpr call
  pure (.iterExpr .fold idents e body (some (accIdent, accExpr)))

def parseListExpr : Parse (Token F) (Expr F) := do
  let items ← delimited (tag .lBracket) (opt (parseExprs call)) (tag .rBracket)
  pure (.listExpr (items.getD []))

/-- `all` or `any` of a list of conditions. -/
def parseAllAnyExpr : Parse (Token F) (Expr F) := do
  let op ← choice [value Iter.all .all, value Iter.any .any]
  let e ← parseListExpr call
  pure (.iterExpr op ["x"] e (BlockStmt.ofExpr (.identExpr "x")) none)

/-- What parentheses around expressions stand for. -/
def Expr.ofParens : List (Expr F) → Expr F
  | [] => .litExpr .unit
  | [e] => e
  | es => .tupleExpr es

def parseParenExpr : Parse (Token F) (Expr F) := do
  let es ← delimited (tag .lParen) (opt (parseExprs call)) (tag .rParen)
  pure (Expr.ofParens (es.getD []))

/-- A fraction without a whole part, from the integer that its digits were read as. -/
def parseDecimal (rd : Reading F) : Parse (Token F) (Expr F) := do
  tag .dot
  let i ← parseIntLiteral
  match rd.parseF64 ("." ++ toString i.toInt) with
  | some f => pure (.litExpr (.float f))
  | none => Comp.throw (.panic "called `Result::unwrap()` on an `Err` value")

noncomputable def parseLitExpr (rd : Reading F) : Parse (Token F) (Expr F) :=
  choice [
    parseDecimal rd,
    .litExpr <$> parseLiteral,
    (do
      tag .regexTok
      let regex ← delimited (tag .lParen) (parsePatNoBind rd) (tag .rParen)
      pure (.litExpr (.regex regex)))]

def parseIdentExpr : Parse (Token F) (Expr F) :=
  choice [.identExpr <$> parseIdent, value (.identExpr "option::Some") .someTok]

def parsePrefixExpr : Parse (Token F) (Expr F) := do
  let p ← choice [value Prefix.minus .minus, value Prefix.not .not]
  let e ← parseExpr call
  pure (.prefixExpr p e)

def parseMatchExpr (pattern : Parse (Token F) SurfacePattern) :
    Parse (Token F) (Expr F × SurfacePattern) := do
  let e ← parseExpr call
  tag .matchesTok
  let pat ← pattern
  pure (e, pat)

def parseSomeMatch : Parse (Token F) (String × Expr F) := do
  tag .letTok
  tag .someTok
  let id ← delimited (tag .lParen) parseIdent (tag .rParen)
  tag .assign
  let e ← parseExpr call
  pure (id, e)

def parseElseExpr : Parse (Token F) (BlockStmt F) := do
  tag .elseTok
  choice [parseBlockStmt call, BlockStmt.ofExpr <$> call .ifExpr]

/-- `LocExprOrMatches`: the condition, as what it makes of the two blocks. -/
noncomputable def parseCondition :
    Parse (Token F) (BlockStmt F → Option (BlockStmt F) → Expr F) :=
  choice [
    Expr.ifMatchExpr <$> sepBy1 (tag .and) (parseMatchExpr call parsePattern),
    (fun m => Expr.ifSomeMatchExpr m.1 m.2) <$> parseSomeMatch call,
    Expr.ifExpr <$> parseExpr call]

noncomputable def parseIfExpr : Parse (Token F) (Expr F) := do
  tag .ifTok
  let b ← parseCondition call
  let consequence ← parseBlockStmt call
  let alternative ← opt (parseElseExpr call)
  pure (b consequence alternative)

noncomputable def parseAtomExpr (rd : Reading F) : Parse (Token F) (Expr F) :=
  choice [parseLitExpr rd, parseIdentExpr, parsePrefixExpr call, parseParenExpr call,
    parseListExpr call, parseIfExpr call, parseIterExpr call, parseIterAccExpr call,
    parseAllAnyExpr call]

def parseCallExpr (fnHandle : Expr F) : Parse (Token F) (Expr F) := do
  let arguments ← delimited (tag .lParen) (opt (parseExprs call)) (tag .rParen)
  match fnHandle.evalCallFunction with
  | some function => pure (.callExpr function (arguments.getD []))
  | none => error

/-- `parse_dot_expr`: the part of a tuple, or a call of a method. -/
def parseDotExpr (left : Expr F) : Parse (Token F) (Expr F) :=
  choice [
    (do
      tag .dot
      let i ← parseIntLiteral
      pure (.callExpr (toString i.toInt) [left])),
    (do
      tag .dot
      let id ← parseIdentExpr
      let c ← parseCallExpr call id
      match c with
      | .callExpr function arguments => pure (.callExpr (".::" ++ function) (left :: arguments))
      | _ => Comp.throw (.panic "internal error: entered unreachable code"))]

def parseInfixExpr (left : Expr F) : Parse (Token F) (Expr F) := do
  let next ← token some
  match infixOp next with
  | (_, none) => error
  | (precedence, some (_, op)) =>
      let right ← call (.pratt precedence)
      pure (.infixExpr op left right)

/-- An operator comes next, which goes on the operand on the left, or the operand ends. -/
def goParseNext (precedence : Precedence) (left : Expr F) :
    Precedence × Option (Assoc × Infix) → Parse (Token F) (Expr F)
  | (peekPrecedence, op) =>
      if peekPrecedence = .PDot ∧ precedence.toNat < Precedence.PDot.toNat then do
        let left2 ← parseDotExpr call left
        call (.climb precedence left2)
      else if peekPrecedence = .PCall ∧ precedence.toNat < Precedence.PCall.toNat then do
        let left2 ← parseCallExpr call left
        call (.climb precedence left2)
      else if op.map Prod.fst = some .right ∧ precedence.toNat ≤ peekPrecedence.toNat then do
        let left2 ← parseInfixExpr call left
        call (.climb precedence left2)
      else if precedence.toNat < peekPrecedence.toNat then do
        let left2 ← parseInfixExpr call left
        call (.climb precedence left2)
      else pure left

def goParsePrattExpr (precedence : Precedence) (left : Expr F) : Parse (Token F) (Expr F) := do
  let preview ← peek
  goParseNext call precedence left (infixOp preview)

end

/-- The parsers of expressions, given those for the recursive calls. -/
noncomputable def parseStep (rd : Reading F) :
    Comp.Functional Fault (List (Token F)) (Call F) (Expr F) := fun call c =>
  match c with
  | .pratt precedence => do
      let left ← parseAtomExpr call rd
      call (.climb precedence left)
  | .climb precedence left => goParsePrattExpr call precedence left
  | .ifExpr => parseIfExpr call

noncomputable def parse (rd : Reading F) : Call F → Parse (Token F) (Expr F) :=
  Comp.fix (parseStep rd)

/-- `parse_expr_eof`. -/
noncomputable def parseExprEof (rd : Reading F) : Parse (Token F) (Expr F) := do
  let e ← parseExpr (parse rd)
  tag .eof
  pure e

/-! ## Unfolding the parsers -/

section

variable {f : Nat → Call F → Parse (Token F) (Expr F)} {m : Call F → Parse (Token F) (Expr F)}
  (h : ∀ c, Comp.Limit (fun n => f n c) (m c))

include h

theorem parseBlockStmt_limit :
    Comp.Limit (fun n => parseBlockStmt (f n)) (parseBlockStmt m) := by
  have hexpr := h (.pratt .PLowest)
  have hlet : Comp.Limit (fun n => parseLetStmt (f n)) (parseLetStmt m) :=
    (Comp.Limit.const _).bind (fun _ => (Comp.Limit.const _).bind (fun _ =>
      (Comp.Limit.const _).bind (fun _ => hexpr.bind (fun _ => Comp.Limit.const _))))
  have hreturn : Comp.Limit (fun n => parseReturnStmt (f n)) (parseReturnStmt m) :=
    (Comp.Limit.const _).bind (fun _ => hexpr.bind (fun _ => Comp.Limit.const _))
  have hstmt : Comp.Limit (fun n => parseExprStmt (f n)) (parseExprStmt m) :=
    (Comp.Limit.const _).bind (fun _ => hexpr.bind (fun _ => Comp.Limit.const _))
  have hall : Comp.Limit (fun n => parseStmt (f n)) (parseStmt m) :=
    Comp.Limit.choice_cons hlet <| Comp.Limit.choice_cons hreturn <|
    Comp.Limit.choice_cons hstmt Comp.Limit.choice_nil
  exact (Comp.Limit.const _).bind (fun _ => (hall.many0.delimited _ _).bind
    (fun _ => Comp.Limit.const _))

theorem parseExprs_limit : Comp.Limit (fun n => parseExprs (f n)) (parseExprs m) :=
  (h _).sepBy1 _

theorem parseListExpr_limit :
    Comp.Limit (fun n => parseListExpr (f n)) (parseListExpr m) :=
  ((parseExprs_limit h).parseOpt.delimited _ _).bind (fun _ => Comp.Limit.const _)

theorem parseCallExpr_limit (e : Expr F) :
    Comp.Limit (fun n => parseCallExpr (f n) e) (parseCallExpr m e) :=
  ((parseExprs_limit h).parseOpt.delimited _ _).bind (fun _ => Comp.Limit.const _)

theorem parseIfExpr_limit : Comp.Limit (fun n => parseIfExpr (f n)) (parseIfExpr m) := by
  have hexpr := h (.pratt .PLowest)
  have hmatch : Comp.Limit (fun n => parseMatchExpr (f n) parsePattern)
      (parseMatchExpr m parsePattern) :=
    hexpr.bind (fun _ => Comp.Limit.const _)
  have hsome : Comp.Limit (fun n => parseSomeMatch (f n)) (parseSomeMatch m) :=
    (Comp.Limit.const _).bind (fun _ => (Comp.Limit.const _).bind (fun _ =>
      (Comp.Limit.const _).bind (fun _ => (Comp.Limit.const _).bind (fun _ =>
        hexpr.bind (fun _ => Comp.Limit.const _)))))
  have hcond : Comp.Limit (fun n => parseCondition (f n)) (parseCondition m) :=
    Comp.Limit.choice_cons ((hmatch.sepBy1 _).map _) <| Comp.Limit.choice_cons (hsome.map _) <|
    Comp.Limit.choice_cons (hexpr.map _) Comp.Limit.choice_nil
  have helse : Comp.Limit (fun n => parseElseExpr (f n)) (parseElseExpr m) :=
    (Comp.Limit.const _).bind (fun _ => Comp.Limit.choice_cons (parseBlockStmt_limit h) <|
      Comp.Limit.choice_cons ((h .ifExpr).map _) Comp.Limit.choice_nil)
  exact (Comp.Limit.const _).bind (fun _ => hcond.bind (fun _ =>
    (parseBlockStmt_limit h).bind (fun _ => helse.parseOpt.bind (fun _ => Comp.Limit.const _))))

theorem parseAtomExpr_limit (rd : Reading F) :
    Comp.Limit (fun n => parseAtomExpr (f n) rd) (parseAtomExpr m rd) := by
  have hexpr := h (.pratt .PLowest)
  have hblock := parseBlockStmt_limit h
  have hprefix : Comp.Limit (fun n => parsePrefixExpr (f n)) (parsePrefixExpr m) :=
    (Comp.Limit.const _).bind (fun _ => hexpr.bind (fun _ => Comp.Limit.const _))
  have hparen : Comp.Limit (fun n => parseParenExpr (f n)) (parseParenExpr m) :=
    ((parseExprs_limit h).parseOpt.delimited _ _).bind (fun _ => Comp.Limit.const _)
  have hiter : Comp.Limit (fun n => parseIterExpr (f n)) (parseIterExpr m) :=
    (Comp.Limit.const _).bind (fun _ => (Comp.Limit.const _).bind (fun _ =>
      (Comp.Limit.const _).bind (fun _ => hexpr.bind (fun _ => hblock.bind
        (fun _ => Comp.Limit.const _)))))
  have hfold : Comp.Limit (fun n => parseIterAccExpr (f n)) (parseIterAccExpr m) :=
    (Comp.Limit.const _).bind (fun _ => (Comp.Limit.const _).bind (fun _ =>
      (Comp.Limit.const _).bind (fun _ => hexpr.bind (fun _ => hblock.bind (fun _ =>
        (Comp.Limit.const _).bind (fun _ => (Comp.Limit.const _).bind (fun _ =>
          (Comp.Limit.const _).bind (fun _ => hexpr.bind (fun _ => Comp.Limit.const _)))))))))
  have hallAny : Comp.Limit (fun n => parseAllAnyExpr (f n)) (parseAllAnyExpr m) :=
    (Comp.Limit.const _).bind (fun _ => (parseListExpr_limit h).bind (fun _ => Comp.Limit.const _))
  exact Comp.Limit.choice_cons (Comp.Limit.const _) <|
    Comp.Limit.choice_cons (Comp.Limit.const _) <| Comp.Limit.choice_cons hprefix <|
    Comp.Limit.choice_cons hparen <| Comp.Limit.choice_cons (parseListExpr_limit h) <|
    Comp.Limit.choice_cons (parseIfExpr_limit h) <| Comp.Limit.choice_cons hiter <|
    Comp.Limit.choice_cons hfold <| Comp.Limit.choice_cons hallAny Comp.Limit.choice_nil

theorem goParsePrattExpr_limit (p : Precedence) (left : Expr F) :
    Comp.Limit (fun n => goParsePrattExpr (f n) p left) (goParsePrattExpr m p left) := by
  have hdot : Comp.Limit (fun n => parseDotExpr (f n) left) (parseDotExpr m left) :=
    Comp.Limit.choice_cons (Comp.Limit.const _) <|
    Comp.Limit.choice_cons ((Comp.Limit.const _).bind (fun _ => (Comp.Limit.const _).bind
      (fun id => (parseCallExpr_limit h id).bind (fun _ => Comp.Limit.const _))))
    Comp.Limit.choice_nil
  have hinfix : Comp.Limit (fun n => parseInfixExpr (f n) left) (parseInfixExpr m left) := by
    refine (Comp.Limit.const _).bind (fun next => ?_)
    rcases infixOp next with ⟨q, _ | ⟨_, op⟩⟩
    · exact Comp.Limit.const _
    · exact (h (.pratt q)).bind (fun _ => Comp.Limit.const _)
  have hnext : ∀ e, Comp.Limit (fun n => f n (.climb p e)) (m (.climb p e)) :=
    fun e => h (.climb p e)
  refine (Comp.Limit.const _).bind (fun preview => ?_)
  rcases infixOp preview with ⟨q, op⟩
  simp only [goParseNext]
  split_ifs
  · exact hdot.bind hnext
  · exact (parseCallExpr_limit h left).bind hnext
  · exact hinfix.bind hnext
  · exact hinfix.bind hnext
  · exact Comp.Limit.const _

end

theorem parseStep_continuous (rd : Reading F) : Comp.Continuous (parseStep rd) := by
  intro f m h c
  cases c with
  | pratt p => exact (parseAtomExpr_limit h rd).bind (fun e => h (.climb p e))
  | climb p left => exact goParsePrattExpr_limit h p left
  | ifExpr => exact parseIfExpr_limit h

theorem parse_eq (rd : Reading F) (c : Call F) : parse rd c = parseStep rd (parse rd) c :=
  Comp.Continuous.fix_eq (parseStep_continuous rd) c

end

end Armour.Lang.Parser
