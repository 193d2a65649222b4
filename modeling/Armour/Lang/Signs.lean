import Armour.Lang.Parser
import Armour.Lib.Count

/-! # The signs of an expression

Every plus and every minus among the tokens of an expression is one of its tree.
-/

namespace Armour.Lang.Parser

open Armour.Lib Parse

/-! ## Signs -/

mutual
/-- The postfix pluses of a pattern. -/
def patSigns : Pat → Nat
  | .any | .lit _ | .cls _ | .as _ _ => 0
  | .alt ps | .seq ps => patsSigns ps
  | .opt p | .star p | .caseInsensitive p | .ignoreWhitespace p => patSigns p
  | .plus p => patSigns p + 1

def patsSigns : List Pat → Nat
  | [] => 0
  | p :: ps => patSigns p + patsSigns ps
end

theorem patsSigns_eq (ps : List Pat) : patsSigns ps = total patSigns ps := by
  induction ps with
  | nil => rfl
  | cons p ps ih => rw [patsSigns, ih, total_cons]

def patternSigns : SurfacePattern → Nat
  | .regex p => patSigns p
  | .label _ => 0

def prefixSigns : Prefix → Nat
  | .minus => 1
  | .not => 0

def infixSigns : Infix → Nat
  | .plus | .minus => 1
  | _ => 0

variable {F : Type}

def Lit.signs : Lit F → Nat
  | .regex r => patSigns r.pat
  | _ => 0

mutual
def Expr.signs : Expr F → Nat
  | .identExpr _ => 0
  | .litExpr l => l.signs
  | .listExpr es | .tupleExpr es | .callExpr _ es => exprsSigns es
  | .prefixExpr p e => prefixSigns p + e.signs
  | .infixExpr op e1 e2 => infixSigns op + e1.signs + e2.signs
  | .iterExpr _ _ e b acc => e.signs + b.signs + accSigns acc
  | .ifExpr e b b? => e.signs + b.signs + blockSigns? b?
  | .ifMatchExpr ms b b? => matchesSigns ms + b.signs + blockSigns? b?
  | .ifSomeMatchExpr _ e b b? => e.signs + b.signs + blockSigns? b?

def exprsSigns : List (Expr F) → Nat
  | [] => 0
  | e :: es => e.signs + exprsSigns es

def matchesSigns : List (Expr F × SurfacePattern) → Nat
  | [] => 0
  | (e, p) :: ms => e.signs + patternSigns p + matchesSigns ms

def accSigns : Option (String × Expr F) → Nat
  | none => 0
  | some (_, e) => e.signs

def blockSigns? : Option (BlockStmt F) → Nat
  | none => 0
  | some b => b.signs

def Stmt.signs : Stmt F → Nat
  | .letStmt _ e | .returnStmt e | .exprStmt e _ _ => e.signs

def stmtsSigns : List (Stmt F) → Nat
  | [] => 0
  | s :: ss => s.signs + stmtsSigns ss

def BlockStmt.signs : BlockStmt F → Nat
  | .mk ss _ => stmtsSigns ss
end

attribute [simp] Expr.signs exprsSigns matchesSigns accSigns blockSigns? Stmt.signs stmtsSigns
  BlockStmt.signs

theorem exprsSigns_eq (es : List (Expr F)) : exprsSigns es = total Expr.signs es := by
  induction es with
  | nil => rfl
  | cons e es ih => rw [exprsSigns, ih, total_cons]

theorem stmtsSigns_eq (ss : List (Stmt F)) : stmtsSigns ss = total Stmt.signs ss := by
  induction ss with
  | nil => rfl
  | cons s ss ih => rw [stmtsSigns, ih, total_cons]

theorem matchesSigns_eq (ms : List (Expr F × SurfacePattern)) :
    matchesSigns ms = total (fun m => m.1.signs + patternSigns m.2) ms := by
  induction ms with
  | nil => rfl
  | cons m ms ih => rw [matchesSigns, ih, total_cons]

def Token.signs : Token F → Nat
  | .plus | .minus => 1
  | _ => 0

theorem signs_ofParens (es : List (Expr F)) : (Expr.ofParens es).signs = exprsSigns es := by
  unfold Expr.ofParens
  split
  · rfl
  · rw [exprsSigns, exprsSigns, Nat.add_zero]
  · rfl

/-- The name of a function has no signs. -/
theorem signs_of_evalCallFunction {e : Expr F} {f : String} (h : e.evalCallFunction = some f) :
    e.signs = 0 := by
  fun_induction Expr.evalCallFunction e generalizing f with
  | case1 id => rfl
  | case2 e1 e2 s1 s2 h1 h2 ih1 ih2 =>
      rw [Expr.signs, ih2 h1, ih1 h2]
      rfl
  | case3 => cases h
  | case4 => cases h

/-- The sign of an infix operator is that of its token. -/
theorem infixSigns_infixOp {t : Token F} {p : Precedence} {o : Pratt.Assoc × Infix}
    (h : infixOp t = (p, some o)) : infixSigns o.2 = t.signs := by
  cases t <;> cases h <;> rfl

/-! ## Binders and patterns -/

theorem costs_ident : Costs Token.signs (fun _ => 0) (parseIdent (F := F)) := by
  refine .token (fun t x ht => ?_)
  cases t <;> first | rfl | cases ht

variable [DecidableEq F]

theorem costs_tupleIdent : Costs Token.signs (fun _ => 0) (tupleIdent (F := F)) :=
  Costs.choice_two (.value rfl) costs_ident

theorem costs_idents : Costs Token.signs (fun _ => 0) (parseIdents (F := F)) := by
  have hrest : Costs Token.signs (fun _ => 0) (do tag (.comma : Token F); tupleIdent) :=
    costs_tupleIdent.skip rfl
  have htuple : Costs Token.signs (fun _ => 0) (do
      let id ← tupleIdent (F := F)
      let ids ← many1 (do tag .comma; tupleIdent)
      pure (id :: ids)) :=
    costs_tupleIdent.andThen (fun _ => hrest.many1.andThen (fun ids => .pure (by simp)))
  refine Costs.choice ?_
  simp only [List.forall_mem_cons]
  exact ⟨htuple.delimited rfl rfl, costs_ident.andThen (fun _ => .pure rfl), .value rfl,
    fun _ h => absurd h List.not_mem_nil⟩

theorem costs_atomPat {pat : Unit → Parse (Token F) Pat}
    (h : Costs Token.signs patSigns (pat ())) :
    Costs Token.signs patSigns (parseAtomPat pat) := by
  have hlit : Costs Token.signs patSigns (parsePatLiteral (F := F)) := by
    refine .token (fun t x ht => ?_)
    cases t <;> cases ht
    rfl
  have hclass : Costs Token.signs patSigns (parsePatClass (F := F)) := by
    refine .token (fun t x ht => ?_)
    cases t <;> simp at ht
    rw [← ht.2]
    rfl
  have htyp : Costs Token.signs (fun _ => 0) (do tag (.asTok : Token F); parsePatTyp) := by
    refine Costs.skip (.token (fun t x ht => ?_)) rfl
    cases t <;> first | rfl | cases ht
  have has : Costs Token.signs patSigns (parseAsPat (F := F)) := by
    refine Weighs.skip (costs_ident.andThen (fun _ => htyp.opt.andThen (fun j =>
      Weighs.skip (.pure ?_) rfl))) rfl
    cases j <;> rfl
  refine Costs.choice ?_
  simp only [List.forall_mem_cons]
  exact ⟨hlit, .value rfl, hclass.delimited rfl rfl, has, h.delimited rfl rfl,
    fun _ h => absurd h List.not_mem_nil⟩

/-- A mark adds its signs to those of the pattern before it. -/
def MarkSigns (f : Pat → Pat) (n : Nat) : Prop := ∀ p, patSigns (f p) = patSigns p + n

theorem MarkSigns.value {f : Pat → Pat} {t : Token F} (h : MarkSigns f t.signs) :
    Weighs Token.signs 0 MarkSigns (Parse.value f t) := by
  refine (Weighs.tag t).bind ?_
  rintro _ n rfl
  exact .pure (by rwa [Nat.zero_add])

theorem patSigns_foldl {fs : List (Pat → Pat)} {n : Nat} (h : Sums MarkSigns fs n) (p : Pat) :
    patSigns (fs.foldl (fun r mark => mark r) p) = patSigns p + n := by
  induction fs generalizing n p with
  | nil =>
      cases h
      rfl
  | cons f fs ih =>
      obtain ⟨i, j, hi, hj, rfl⟩ := h
      rw [List.foldl_cons, ih hj, hi, Nat.add_assoc]

theorem costs_parsePat : Costs Token.signs patSigns (parsePat (F := F)) := by
  refine Weighs.fix (k := fun _ => 0) (R := fun _ p n => n = patSigns p) (fun pat h c => ?_) ()
  have hatom := costs_atomPat (h ())
  have hmark : Weighs Token.signs 0 MarkSigns
      (choice [value Pat.star Token.multiply, value Pat.plus Token.plus,
        value Pat.opt Token.questionMark, value Pat.caseInsensitive Token.not,
        value Pat.ignoreWhitespace Token.percent] : Parse (Token F) (Pat → Pat)) := by
    refine .choice ?_
    simp only [List.forall_mem_cons]
    exact ⟨MarkSigns.value (fun _ => rfl), MarkSigns.value (fun _ => rfl),
      MarkSigns.value (fun _ => rfl), MarkSigns.value (fun _ => rfl),
      MarkSigns.value (fun _ => rfl), fun _ h => absurd h List.not_mem_nil⟩
  have hpostfix : Costs Token.signs patSigns (parsePostfixPat pat) :=
    hatom.andThen (fun a => Weighs.andThen hmark.many0 (fun fs n hn => .pure (by
      rw [patSigns_foldl hn, Nat.zero_add])))
  have hseq : Costs Token.signs patSigns (parsePatSeq pat) := by
    refine hpostfix.many1.andThen (fun ps => .pure ?_)
    split
    · simp
    · rw [patSigns, patsSigns_eq, Nat.zero_add]
  have halt : Costs Token.signs patSigns (do tag (.bar : Token F); parsePatSeq pat) :=
    hseq.skip rfl
  refine hseq.andThen (fun p => halt.many0.andThen (fun ps => .pure ?_))
  split_ifs with hps
  · rw [hps, Nat.zero_add]
    rfl
  · rw [patSigns, patsSigns, patsSigns_eq, Nat.zero_add]

theorem costs_pattern : Costs Token.signs patternSigns (parsePattern (F := F)) := by
  have hlabel : Costs Token.signs (fun _ => 0) (parseLabelLiteral (F := F)) := by
    refine .token (fun t x ht => ?_)
    cases t <;> first | rfl | cases ht
  exact Costs.choice_two (costs_parsePat.map (fun _ => rfl)) (hlabel.map (fun _ => rfl))

/-! ## Expressions -/

theorem costs_litExpr (rd : Reading F) : Costs Token.signs Expr.signs (parseLitExpr rd) := by
  have hint : Costs Token.signs (fun _ => 0) (parseIntLiteral (F := F)) := by
    refine .token (fun t x ht => ?_)
    cases t <;> first | rfl | cases ht
  have hdecimal : Costs Token.signs Expr.signs (parseDecimal rd) := by
    refine Weighs.skip (hint.andThen (fun i => ?_)) rfl
    split
    · exact .pure rfl
    · exact .throw _
  have hlit : Costs Token.signs Lit.signs (parseLiteral (F := F)) := by
    refine .token (fun t l ht => ?_)
    cases t with
    | ident s =>
        by_cases hs : s = "None"
        · cases (if_pos hs).symm.trans ht
          rfl
        · cases (if_neg hs).symm.trans ht
    | _ => first | cases ht; rfl | cases ht
  have hpat : Costs Token.signs (fun r => patSigns r.pat) (parsePatNoBind rd) := by
    refine costs_parsePat.andThen (fun p => ?_)
    split_ifs
    · exact .error
    · exact .pure (Nat.zero_add _)
    · exact .error
  refine Costs.choice ?_
  simp only [List.forall_mem_cons]
  exact ⟨hdecimal, hlit.map (fun _ => rfl),
    Costs.skip ((hpat.delimited rfl rfl).andThen (fun _ => .pure (by exact Nat.zero_add _))) rfl,
    fun _ h => absurd h List.not_mem_nil⟩

theorem costs_identExpr : Costs Token.signs Expr.signs (parseIdentExpr (F := F)) :=
  Costs.choice_two (costs_ident.map (fun _ => rfl)) (.value rfl)

section

variable {call : Call F → Parse (Token F) (Expr F)}

/-- The signs that a recursive call is given, those of the operand on the left. -/
def Call.before : Call F → Nat
  | .climb _ left => left.signs
  | _ => 0

variable (h : ∀ c, Weighs Token.signs (Call.before c) (fun e n => n = e.signs) (call c))

include h

theorem costs_blockStmt : Costs Token.signs BlockStmt.signs (parseBlockStmt call) := by
  have hexpr : Costs Token.signs Expr.signs (parseExpr call) := h (.pratt .PLowest)
  have htag : ∀ t : Token F, t.signs = 0 → Costs Token.signs (fun _ => 0) (tag t) := by
    intro t ht
    refine (Weighs.tag t).mono ?_
    rintro _ n rfl
    rw [ht]
  have hstmt : Costs Token.signs Stmt.signs (parseStmt call) := by
    refine Costs.choice ?_
    simp only [List.forall_mem_cons]
    refine ⟨Costs.skip (costs_idents.andThen (fun ids => Weighs.skip (hexpr.andThen (fun e =>
        Weighs.skip (.pure ?_) rfl)) rfl)) rfl,
      Costs.skip (hexpr.andThen (fun e => .pure (by exact Nat.zero_add _))) rfl,
      (htag .asyncTok rfl).opt.andThen (fun a? => hexpr.andThen (fun e =>
        (htag .semiColon rfl).opt.andThen (fun s? => .pure ?_))),
      fun _ h => absurd h List.not_mem_nil⟩
    · exact Nat.zero_add _
    · cases a? <;> cases s? <;> exact Nat.zero_add _
  refine (htag .asyncTok rfl).opt.andThen (fun a? => (hstmt.many0.delimited rfl rfl).andThen
    (fun ss => .pure ?_))
  show _ = stmtsSigns ss
  rw [stmtsSigns_eq]
  cases a? <;> exact Nat.zero_add _

theorem costs_exprs : Costs Token.signs exprsSigns (parseExprs call) := by
  have hexpr : Costs Token.signs Expr.signs (parseExpr call) := h (.pratt .PLowest)
  refine (hexpr.sepBy1 rfl).mono ?_
  rintro es n rfl
  exact (exprsSigns_eq es).symm

/-- Expressions in brackets, which may be missing. -/
theorem costs_args {o c : Token F} (ho : o.signs = 0) (hc : c.signs = 0) :
    Costs Token.signs (fun es? => exprsSigns (es?.getD []))
      (delimited (tag o) (opt (parseExprs call)) (tag c)) := by
  refine ((costs_exprs h).opt.delimited ho hc).mono ?_
  rintro es? n rfl
  cases es? <;> rfl

theorem costs_listExpr : Costs Token.signs Expr.signs (parseListExpr call) :=
  (costs_args h rfl rfl).andThen (fun _ => .pure (by exact Nat.zero_add _))

theorem costs_ifExpr : Costs Token.signs Expr.signs (parseIfExpr call) := by
  have hexpr : Costs Token.signs Expr.signs (parseExpr call) := h (.pratt .PLowest)
  have hblock := costs_blockStmt h
  have hmatch : Costs Token.signs (fun m => m.1.signs + patternSigns m.2)
      (parseMatchExpr call parsePattern) :=
    hexpr.andThen (fun e => Weighs.skip (costs_pattern.andThen (fun p =>
      .pure (by rw [Nat.zero_add]))) rfl)
  have hsome : Costs Token.signs (fun m : String × Expr F => m.2.signs) (parseSomeMatch call) :=
    Costs.skip (Costs.skip ((costs_ident.delimited rfl rfl).andThen (fun id =>
      Weighs.skip (hexpr.andThen (fun e => .pure (by exact Nat.zero_add _))) rfl)) rfl) rfl
  have hcond : Weighs Token.signs 0
      (fun f n => ∀ b b?, (f b b?).signs = n + BlockStmt.signs b + blockSigns? b?)
      (parseCondition call) := by
    refine Weighs.choice ?_
    simp only [List.forall_mem_cons]
    refine ⟨Weighs.map (hmatch.sepBy1 rfl) ?_, Weighs.map hsome ?_, Weighs.map hexpr ?_,
      fun _ h => absurd h List.not_mem_nil⟩
    · rintro ms n rfl b b?
      rw [Expr.signs, matchesSigns_eq]
    · rintro m n rfl b b?
      rfl
    · rintro e n rfl b b?
      rfl
  have helse : Costs Token.signs BlockStmt.signs (parseElseExpr call) := by
    have hif : Costs Token.signs Expr.signs (call .ifExpr) := h .ifExpr
    refine Costs.skip (Costs.choice_two hblock (hif.map (fun e => ?_))) rfl
    exact Nat.add_zero _
  refine Costs.skip (Weighs.andThen hcond (fun f n hf => hblock.andThen (fun b =>
    helse.opt.andThen (fun b? => .pure ?_)))) rfl
  rw [hf b b?, Nat.zero_add]
  cases b? <;> rfl

theorem costs_prefixExpr : Costs Token.signs Expr.signs (parsePrefixExpr call) := by
  have hexpr : Costs Token.signs Expr.signs (parseExpr call) := h (.pratt .PLowest)
  have hop : Costs Token.signs prefixSigns
      (choice [value Prefix.minus (Token.minus (F := F)), value Prefix.not .not]) :=
    Costs.choice_two (.value rfl) (.value rfl)
  refine hop.andThen (fun p => hexpr.andThen (fun e => .pure ?_))
  rw [Nat.zero_add]
  rfl

theorem costs_parenExpr : Costs Token.signs Expr.signs (parseParenExpr call) := by
  refine (costs_args h rfl rfl).andThen (fun es? => .pure ?_)
  rw [signs_ofParens, Nat.zero_add]

omit h in
/-- The names of iterators, none of which is a sign. -/
theorem costs_iter {v : List (Iter × Token F)} (hv : ∀ x ∈ v, x.2.signs = 0) :
    Costs Token.signs (fun _ => 0) (choice (v.map (fun x => value x.1 x.2))) := by
  refine Costs.choice (fun p hp => ?_)
  obtain ⟨x, hx, rfl⟩ := List.mem_map.mp hp
  exact .value (hv x hx)

theorem costs_iterExpr : Costs Token.signs Expr.signs (parseIterExpr call) := by
  have hexpr : Costs Token.signs Expr.signs (parseExpr call) := h (.pratt .PLowest)
  have hop := costs_iter (v := [(Iter.all, (Token.all : Token F)), (.any, .any), (.filter, .filter),
    (.filterMap, .filterMap), (.forEach, .forEach), (.map, .map)]) (by simp [Token.signs])
  refine hop.andThen (fun op => costs_idents.andThen (fun ids => Weighs.skip
    (hexpr.andThen (fun e => (costs_blockStmt h).andThen (fun b => .pure ?_))) rfl))
  rw [Expr.signs, accSigns]
  omega

theorem costs_iterAccExpr : Costs Token.signs Expr.signs (parseIterAccExpr call) := by
  have hexpr : Costs Token.signs Expr.signs (parseExpr call) := h (.pratt .PLowest)
  refine Costs.skip (costs_idents.andThen (fun ids => Weighs.skip (hexpr.andThen (fun e =>
    (costs_blockStmt h).andThen (fun b => Weighs.skip (costs_ident.andThen (fun id =>
      Weighs.skip (hexpr.andThen (fun acc => .pure ?_)) rfl)) rfl))) rfl)) rfl
  rw [Expr.signs, accSigns]
  omega

theorem costs_allAnyExpr : Costs Token.signs Expr.signs (parseAllAnyExpr call) := by
  have hop := costs_iter (v := [(Iter.all, (Token.all : Token F)), (.any, .any)])
    (by simp [Token.signs])
  refine hop.andThen (fun op => (costs_listExpr h).andThen (fun e => .pure ?_))
  show _ = e.signs + (0 + 0) + 0
  omega

theorem costs_atomExpr (rd : Reading F) :
    Costs Token.signs Expr.signs (parseAtomExpr call rd) := by
  refine Costs.choice ?_
  simp only [List.forall_mem_cons]
  exact ⟨costs_litExpr rd, costs_identExpr, costs_prefixExpr h, costs_parenExpr h,
    costs_listExpr h, costs_ifExpr h, costs_iterExpr h, costs_iterAccExpr h, costs_allAnyExpr h,
    fun _ h => absurd h List.not_mem_nil⟩

/-- The function of a call has no signs, so those of the call are those of the arguments. -/
theorem weighs_callExpr (e : Expr F) :
    Weighs Token.signs e.signs (fun c n => n = c.signs) (parseCallExpr call e) := by
  refine (costs_args h rfl rfl).andThen (fun es? => ?_)
  split
  · rename_i f hf
    refine .pure ?_
    rw [signs_of_evalCallFunction hf, Nat.zero_add]
    rfl
  · exact .error

theorem weighs_dotExpr (left : Expr F) :
    Weighs Token.signs left.signs (fun e n => n = e.signs) (parseDotExpr call left) := by
  have hint : Costs Token.signs (fun _ => 0) (parseIntLiteral (F := F)) := by
    refine .token (fun t x ht => ?_)
    cases t <;> first | rfl | cases ht
  refine .choice_two (Weighs.skip (hint.andThen (fun i => .pure ?_)) rfl) ?_
  · show _ = left.signs + 0
    rfl
  · refine Weighs.skip (costs_identExpr.andThen (fun id => ?_)) rfl
    refine ((weighs_callExpr h id).shift left.signs).bind ?_
    rintro c n ⟨i, rfl, rfl⟩
    split
    · exact .pure rfl
    · exact .throw _

omit [DecidableEq F] in
theorem weighs_infixExpr (left : Expr F) :
    Weighs Token.signs left.signs (fun e n => n = e.signs) (parseInfixExpr call left) := by
  have hnext : Weighs Token.signs left.signs (fun t n => n = left.signs + t.signs)
      (token some : Parse (Token F) (Token F)) := by
    refine .token (fun t u ht => ?_)
    cases ht
    rfl
  refine hnext.bind (fun t n hn => ?_)
  rcases ht : infixOp t with ⟨p, _ | o⟩
  · exact .error
  · refine Weighs.bind ((h (.pratt p)).shift n) ?_
    rintro right m ⟨i, rfl, rfl⟩
    refine .pure ?_
    rw [Expr.signs, infixSigns_infixOp ht, hn, Nat.add_comm left.signs]

theorem weighs_goParse (p : Precedence) (left : Expr F) :
    Weighs Token.signs left.signs (fun e n => n = e.signs) (goParsePrattExpr call p left) := by
  have hclimb : ∀ {q : Parse (Token F) (Expr F)},
      Weighs Token.signs left.signs (fun e n => n = e.signs) q →
      Weighs Token.signs left.signs (fun e n => n = e.signs)
        (q >>= fun left2 => call (.climb p left2)) := by
    intro q hq
    refine hq.bind ?_
    rintro left2 n rfl
    exact h (.climb p left2)
  refine Weighs.peek.bind ?_
  rintro preview n rfl
  rcases infixOp preview with ⟨q, op⟩
  simp only [goParseNext]
  split_ifs
  · exact hclimb (weighs_dotExpr h left)
  · exact hclimb (weighs_callExpr h left)
  · exact hclimb (weighs_infixExpr h left)
  · exact hclimb (weighs_infixExpr h left)
  · exact .pure rfl

end

theorem weighs_parse (rd : Reading F) (c : Call F) :
    Weighs Token.signs c.before (fun e n => n = e.signs) (parse rd c) := by
  refine Weighs.fix (k := Call.before) (R := fun _ (e : Expr F) n => n = e.signs)
    (fun call h c => ?_) c
  cases c with
  | pratt p =>
      refine (costs_atomExpr h rd).andThen (fun e => ?_)
      rw [show (Call.pratt p).before + e.signs = e.signs from Nat.zero_add _]
      exact h (.climb p e)
  | climb p left => exact weighs_goParse h p left
  | ifExpr => exact costs_ifExpr h

/-- The signs of the tokens of an expression are those of the expression. -/
theorem signs_of_parse {rd : Reading F} {ts : List (Token F)} {e : Expr F}
    (h : (parseExprEof rd).run ts = some (.ok e, [])) : total Token.signs ts = e.signs := by
  have heof : Costs Token.signs Expr.signs (parseExprEof rd) := by
    have hexpr : Costs Token.signs Expr.signs (parseExpr (parse rd)) :=
      weighs_parse rd (.pratt .PLowest)
    exact hexpr.andThen (fun e => Weighs.skip (.pure (by exact Nat.zero_add _)) rfl)
  obtain ⟨n, rfl, htotal⟩ := heof ts e [] h
  rwa [Nat.zero_add] at htotal

end Armour.Lang.Parser
