import Armour.Lang.Parser

/-! # Operator precedence

The parser of expressions on sequences of atoms and operators.  Its climbing loop admits an
operator at a level exactly as the table of precedences does, so it makes of a sequence the tree
that the table determines.
-/

namespace Armour.Lang.Parser

open Armour.Lib Parse Pratt

variable {F : Type}

/-! ## Operators -/

/-- A token that is an infix operator. -/
structure Operator (F : Type) where
  token : Token F
  prec : Precedence
  assoc : Assoc
  op : Infix
  isInfix : infixOp token = (prec, some (assoc, op))

/-- The levels of operators, and those that have the other parsers of the loop. -/
theorem infixOp_prec {t : Token F} {p : Precedence} {a : Assoc} {op : Infix}
    (h : infixOp t = (p, some (a, op))) : 0 < p.toNat ∧ p ≠ .PDot ∧ p ≠ .PCall := by
  cases t <;> cases h <;> decide

/-- The declared precedences and associativities. -/
def table : Operators (Operator F) where
  prec o := o.prec.toNat
  assoc o := o.assoc
  pos o := (infixOp_prec o.isInfix).1

theorem table_admits {n : Nat} {o : Operator F} :
    table.Admits n o ↔ n < o.prec.toNat ∨ o.assoc = .right ∧ n ≤ o.prec.toNat := by
  have hassoc : table.assoc o = o.assoc := rfl
  have hprec : table.prec o = o.prec.toNat := rfl
  unfold Pratt.Operators.Admits
  rw [hassoc, hprec]
  cases o.assoc with
  | left => simp
  | right =>
      simp only [true_and]
      omega

/-- A token that ends an expression, the end of the text for one. -/
def Token.Ends (t : Token F) : Prop := (infixOp t).1 = .PLowest

theorem Token.Ends.infixOp {t : Token F} (h : t.Ends) : infixOp t = (.PLowest, none) := by
  cases t <;> first | rfl | cases h

variable [DecidableEq F] {rd : Reading F}

/-! ## Atoms -/

/-- The tokens, followed by the others, are an identifier, a literal or an expression in
parentheses. -/
inductive IsAtom (rd : Reading F) : List (Token F) → Expr F → List (Token F) → Prop where
  | ident (x : String) (hx : x ≠ "None") (rest : List (Token F)) :
      IsAtom rd [.ident x] (.identExpr x) rest
  | someFn (rest : List (Token F)) : IsAtom rd [.someTok] (.identExpr "option::Some") rest
  | lit {t : Token F} {l : Lit F} (h : t.literal = some l) (rest : List (Token F)) :
      IsAtom rd [t] (.litExpr l) rest
  | decimal {i : Int64} {f : F} (h : rd.parseF64 ("." ++ toString i.toInt) = some f)
      (rest : List (Token F)) : IsAtom rd [.dot, .intLiteral i] (.litExpr (.float f)) rest
  | regex {ts : List (Token F)} {e : Expr F} {rest : List (Token F)}
      (h : (parseLitExpr rd).run (.regexTok :: ts ++ rest) = some (.ok e, rest)) :
      IsAtom rd (.regexTok :: ts) e rest
  | paren {ts : List (Token F)} {e : Expr F} {rest : List (Token F)}
      (h : (parseParenExpr (parse rd)).run (.lParen :: ts ++ rest) = some (.ok e, rest)) :
      IsAtom rd (.lParen :: ts) e rest

theorem fails_parseLitExpr {t : Token F} (hdot : t ≠ .dot) (hlit : t.literal = none)
    (hregex : t ≠ .regexTok) (ts : List (Token F)) : (parseLitExpr rd).Fails (t :: ts) :=
  fails_orElse ((fails_tag hdot ts).bind _) <|
    fails_orElse ((fails_token hlit ts).map _) <|
    fails_orElse ((fails_tag hregex ts).bind _) (fails_error _)

theorem fails_parseIdentExpr {t : Token F} (hident : ∀ x, t ≠ .ident x) (hsome : t ≠ .someTok)
    (ts : List (Token F)) : (parseIdentExpr (F := F)).Fails (t :: ts) := by
  have hnone : (parseIdent (F := F)).Fails (t :: ts) := by
    refine fails_token ?_ ts
    cases t <;> first | rfl | exact absurd rfl (hident _)
  exact fails_orElse (hnone.map _) <|
    fails_orElse ((fails_tag hsome ts).bind _) (fails_error _)

omit [DecidableEq F] in
theorem run_parseIdent (x : String) (ts : List (Token F)) :
    parseIdent.run (.ident x :: ts) = some (.ok x, ts) := rfl

omit [DecidableEq F] in
theorem run_parseIntLiteral (i : Int64) (ts : List (Token F)) :
    parseIntLiteral.run (.intLiteral i :: ts) = some (.ok i, ts) := rfl

/-- An atom is what the parser of atoms reads. -/
theorem IsAtom.run {ts : List (Token F)} {e : Expr F} {rest : List (Token F)}
    (h : IsAtom rd ts e rest) :
    (parseAtomExpr (parse rd) rd).run (ts ++ rest) = some (.ok e, rest) := by
  cases h with
  | ident x hx =>
      have hlit : (parseLitExpr rd).Fails (.ident x :: rest) :=
        fails_parseLitExpr (t := .ident x) nofun (if_neg hx) nofun rest
      have hident : parseIdentExpr.run (.ident x :: rest) = some (.ok (.identExpr x), rest) :=
        run_orElse_of_ok (run_map_ok (run_parseIdent x rest) _)
      exact (run_orElse_of_fails hlit).trans (run_orElse_of_ok hident)
  | someFn =>
      have hlit : (parseLitExpr rd).Fails (.someTok :: rest) :=
        fails_parseLitExpr (t := .someTok) nofun rfl nofun rest
      have hident : parseIdentExpr.run (.someTok :: rest)
          = some (.ok (.identExpr "option::Some"), rest) := rfl
      exact (run_orElse_of_fails hlit).trans (run_orElse_of_ok hident)
  | @lit t l hlit =>
      have hdot : (parseDecimal rd).Fails (t :: rest) := by
        refine (fails_tag ?_ rest).bind _
        rintro rfl
        cases hlit
      have hrun : parseLiteral.run (t :: rest) = some (.ok l, rest) := run_token_some hlit rest
      exact run_orElse_of_ok ((run_orElse_of_fails hdot).trans
        (run_orElse_of_ok (run_map_ok hrun _)))
  | @decimal i f hf =>
      have hrun : (parseDecimal rd).run (.dot :: .intLiteral i :: rest)
          = some (.ok (.litExpr (.float f)), rest) := by
        rw [parseDecimal, Comp.run_bind_ok (run_tag _ _),
          Comp.run_bind_ok (run_parseIntLiteral i rest)]
        simp only [hf]
        rfl
      exact run_orElse_of_ok (run_orElse_of_ok hrun)
  | regex hrun => exact run_orElse_of_ok hrun
  | @paren ts e _ hrun =>
      have hlit : (parseLitExpr rd).Fails (.lParen :: (ts ++ rest)) :=
        fails_parseLitExpr (t := .lParen) nofun rfl nofun _
      have hident : (parseIdentExpr (F := F)).Fails (.lParen :: (ts ++ rest)) :=
        fails_parseIdentExpr (t := .lParen) nofun nofun _
      have hprefix : (parsePrefixExpr (parse rd)).Fails (.lParen :: (ts ++ rest)) := ⟨_, rfl⟩
      exact (run_orElse_of_fails hlit).trans <| (run_orElse_of_fails hident).trans <|
        (run_orElse_of_fails hprefix).trans (run_orElse_of_ok hrun)

/-- The tokens and the expression of an atom. -/
structure Atom (F : Type) where
  tokens : List (Token F)
  expr : Expr F

/-! ## Sequences and trees -/

section

variable {υ : Type} (pre : υ → Prefix)

/-- The token of a prefix operator. -/
def prefixToken : Prefix → Token F
  | .minus => .minus
  | .not => .not

/-- The tokens of a sequence; `pre` says which prefix operators it may hold. -/
def tokens : Chain (Atom F) υ (Operator F) → List (Token F)
  | .last a => a.tokens
  | .step a o c => a.tokens ++ o.token :: tokens c
  | .pre u c => prefixToken (pre u) :: tokens c

/-- In the sequence, followed by the other tokens, the atoms are atoms. -/
def Reads (rd : Reading F) : Chain (Atom F) υ (Operator F) → List (Token F) → Prop
  | .last a, rest => IsAtom rd a.tokens a.expr rest
  | .step a o c, rest =>
      IsAtom rd a.tokens a.expr (o.token :: (tokens pre c ++ rest)) ∧ Reads rd c rest
  | .pre _ c, rest => Reads rd c rest

/-- The expression of a tree. -/
def toExpr : Tree (Atom F) υ (Operator F) → Expr F
  | .leaf a => a.expr
  | .pre u t => .prefixExpr (pre u) (toExpr t)
  | .node l o r => .infixExpr o.op (toExpr l) (toExpr r)

omit [DecidableEq F] in
theorem tokens_append (c : Chain (Atom F) υ (Operator F)) (o : Operator F)
    (d : Chain (Atom F) υ (Operator F)) :
    tokens pre (c.append o d) = tokens pre c ++ o.token :: tokens pre d := by
  induction c with
  | last a => rfl
  | step a o' c ih => simp only [Chain.append, tokens, ih, List.append_assoc, List.cons_append]
  | pre u c ih => simp only [Chain.append, tokens, ih, List.cons_append]

theorem reads_append {c : Chain (Atom F) υ (Operator F)} {o : Operator F}
    {d : Chain (Atom F) υ (Operator F)} {rest : List (Token F)} :
    Reads pre rd (c.append o d) rest ↔
      Reads pre rd c (o.token :: (tokens pre d ++ rest)) ∧ Reads pre rd d rest := by
  induction c with
  | last a => rfl
  | step a o' c ih =>
      simp only [Chain.append, Reads, ih, tokens_append, List.append_assoc, List.cons_append,
        and_assoc]
  | pre u c ih => exact ih

/-! ## The climbing loop -/

/-- The loop at a token. -/
theorem run_climb {p q : Precedence} {op : Option (Assoc × Infix)} {t : Token F}
    (h : infixOp t = (q, op)) (hdot : q ≠ .PDot) (hcall : q ≠ .PCall) (e : Expr F)
    (ts : List (Token F)) :
    (parse rd (.climb p e)).run (t :: ts) =
      if op.map Prod.fst = some .right ∧ p.toNat ≤ q.toNat ∨ p.toNat < q.toNat then
        (parseInfixExpr (parse rd) e >>= fun e' => parse rd (.climb p e')).run (t :: ts)
      else some (.ok e, t :: ts) := by
  have hloop : (parse rd (.climb p e)).run (t :: ts)
      = (goParseNext (parse rd) p e (infixOp t)).run (t :: ts) := by
    rw [parse_eq]
    rfl
  rw [hloop, h, goParseNext, if_neg (fun h => hdot h.1), if_neg (fun h => hcall h.1)]
  by_cases hright : op.map Prod.fst = some .right ∧ p.toNat ≤ q.toNat
  · rw [if_pos hright, if_pos (Or.inl hright)]
  · by_cases hlt : p.toNat < q.toNat
    · rw [if_neg hright, if_pos hlt, if_pos (Or.inr hlt)]
    · rw [if_neg hright, if_neg hlt, if_neg (not_or.mpr ⟨hright, hlt⟩)]
      rfl

/-- What comes after an operand: the operator, or a token that ends the expression. -/
def Follows (next : Option (Operator F)) (rest : List (Token F)) : Prop :=
  match next with
  | some o => ∃ ts, rest = o.token :: ts
  | none => ∃ t ts, rest = t :: ts ∧ t.Ends

theorem climb_of_stops {p : Precedence} {next : Option (Operator F)} {rest : List (Token F)}
    (hrest : Follows next rest) (hstop : table.Stops p.toNat next) (e : Expr F) :
    (parse rd (.climb p e)).run rest = some (.ok e, rest) := by
  cases next with
  | none =>
      obtain ⟨t, ts, rfl, ht⟩ := hrest
      rw [run_climb ht.infixOp nofun nofun, if_neg]
      rintro (⟨h, -⟩ | h)
      · cases h
      · exact Nat.not_lt_zero _ h
  | some o =>
      obtain ⟨ts, rfl⟩ := hrest
      obtain ⟨-, hdot, hcall⟩ := infixOp_prec o.isInfix
      rw [run_climb o.isInfix hdot hcall, if_neg]
      intro h
      refine hstop o rfl (table_admits.mpr ?_)
      rcases h with ⟨hright, hle⟩ | hlt
      · exact Or.inr ⟨Option.some.inj hright, hle⟩
      · exact Or.inl hlt

/-- An operator that is admitted goes on the operand, with its own operand on the right. -/
theorem climb_of_admits {p : Precedence} {o : Operator F} (h : table.Admits p.toNat o)
    (e : Expr F) {e' : Expr F} {ts rest : List (Token F)}
    (hright : (parse rd (.pratt o.prec)).run ts = some (.ok e', rest)) :
    (parse rd (.climb p e)).run (o.token :: ts) =
      (parse rd (.climb p (.infixExpr o.op e e'))).run rest := by
  obtain ⟨-, hdot, hcall⟩ := infixOp_prec o.isInfix
  have hcond : (some (o.assoc, o.op)).map Prod.fst = some Assoc.right ∧ p.toNat ≤ o.prec.toNat ∨
      p.toNat < o.prec.toNat := by
    rcases table_admits.mp h with hlt | ⟨ha, hle⟩
    · exact Or.inr hlt
    · exact Or.inl ⟨congrArg some ha, hle⟩
  have hinfix : (parseInfixExpr (parse rd) e).run (o.token :: ts)
      = some (.ok (.infixExpr o.op e e'), rest) := by
    have hnext : ((token some : Parse (Token F) (Token F))).run (o.token :: ts) =
        some (.ok o.token, ts) := rfl
    unfold parseInfixExpr
    rw [Comp.run_bind_ok hnext, o.isInfix]
    show (parse rd (.pratt o.prec) >>= fun e' => pure (Expr.infixExpr o.op e e')).run ts = _
    rw [Comp.run_bind_ok hright]
    rfl
  rw [run_climb o.isInfix hdot hcall, if_pos hcond, Comp.run_bind_ok hinfix]

theorem run_pratt {p : Precedence} {e : Expr F} {ts rest : List (Token F)}
    (h : (parseAtomExpr (parse rd) rd).run ts = some (.ok e, rest)) :
    (parse rd (.pratt p)).run ts = (parse rd (.climb p e)).run rest := by
  rw [parse_eq]
  exact Comp.run_bind_ok h

theorem run_prefixToken {u : Prefix} {e : Expr F} {ts rest : List (Token F)}
    (h : (parse rd (.pratt .PLowest)).run ts = some (.ok e, rest)) :
    (parseAtomExpr (parse rd) rd).run (prefixToken u :: ts) =
      some (.ok (.prefixExpr u e), rest) := by
  have hlit : (parseLitExpr rd).Fails (prefixToken u :: ts) := by
    cases u
    · exact fails_parseLitExpr (t := .not) nofun rfl nofun ts
    · exact fails_parseLitExpr (t := .minus) nofun rfl nofun ts
  have hident : (parseIdentExpr (F := F)).Fails (prefixToken u :: ts) := by
    cases u
    · exact fails_parseIdentExpr (t := .not) nofun nofun ts
    · exact fails_parseIdentExpr (t := .minus) nofun nofun ts
  have hprefix : (parsePrefixExpr (parse rd)).run (prefixToken u :: ts)
      = (parse rd (.pratt .PLowest) >>= fun e => pure (Expr.prefixExpr u e)).run ts := by
    cases u <;> rfl
  rw [Comp.run_bind_ok h] at hprefix
  exact (run_orElse_of_fails hlit).trans <| (run_orElse_of_fails hident).trans <|
    run_orElse_of_ok hprefix

/-- The operand at a level: the parser reads the tree and goes on after it. -/
theorem run_spine {p : Precedence} {t : Tree (Atom F) υ (Operator F)}
    {next : Option (Operator F)} {rest : List (Token F)} (ht : t.Spine table p.toNat next)
    (hatoms : Reads pre rd t.chain rest) (hrest : Follows next rest) :
    (parse rd (.pratt p)).run (tokens pre t.chain ++ rest) =
      (parse rd (.climb p (toExpr pre t))).run rest := by
  induction t generalizing p next rest with
  | leaf a => exact run_pratt (IsAtom.run hatoms)
  | pre u t ih =>
      obtain ⟨rfl, ht⟩ := ht
      have hbody := ih (p := .PLowest) ht hatoms hrest
      rw [climb_of_stops hrest (Operators.stops_none _)] at hbody
      exact run_pratt (run_prefixToken hbody)
  | node l o r ihl ihr =>
      obtain ⟨hadm, hl, hr, hstop⟩ := ht
      obtain ⟨hleft, hright⟩ := (reads_append pre).mp hatoms
      have htokens : tokens pre (Pratt.Tree.node l o r).chain ++ rest
          = tokens pre l.chain ++ o.token :: (tokens pre r.chain ++ rest) := by
        rw [Pratt.Tree.chain, tokens_append, List.append_assoc, List.cons_append]
      have hr' := ihr (p := o.prec) hr hright hrest
      rw [climb_of_stops hrest hstop] at hr'
      rw [htokens, ihl hl hleft ⟨_, rfl⟩, climb_of_admits hadm _ hr']
      rfl

/-- The parser makes of a sequence the tree that the table determines. -/
theorem run_sequence {c : Chain (Atom F) υ (Operator F)} {rest : List (Token F)}
    (hatoms : Reads pre rd c rest) (hrest : Follows (F := F) none rest) :
    (parseExpr (parse rd)).run (tokens pre c ++ rest) =
      some (.ok (toExpr pre (c.build table)), rest) := by
  have hchain := c.chain_build (T := table)
  have hrun := run_spine pre (p := .PLowest) (t := c.build table) c.full_build.1
    (by rwa [hchain]) hrest
  rw [hchain, climb_of_stops hrest (Operators.stops_none _)] at hrun
  exact hrun

theorem parseExprEof_sequence {c : Chain (Atom F) υ (Operator F)}
    (hatoms : Reads pre rd c [.eof]) :
    (parseExprEof rd).run (tokens pre c ++ [.eof]) =
      some (.ok (toExpr pre (c.build table)), []) := by
  rw [parseExprEof, Comp.run_bind_ok (run_sequence pre hatoms ⟨.eof, [], rfl, rfl⟩)]
  rfl

/-- A sequence in parentheses is an atom. -/
theorem IsAtom.sequence {c : Chain (Atom F) υ (Operator F)} {rest : List (Token F)}
    (hatoms : Reads pre rd c (.rParen :: rest)) :
    IsAtom rd (.lParen :: (tokens pre c ++ [.rParen])) (toExpr pre (c.build table)) rest := by
  have hexpr := run_sequence pre hatoms ⟨.rParen, rest, rfl, rfl⟩
  have hmore : (many0 (do tag .comma; parseExpr (parse rd))).run (.rParen :: rest)
      = some (.ok [], .rParen :: rest) := by
    have hcomma := fails_tag (t := (.comma : Token F)) (u := .rParen) nofun rest
    exact run_many0_of_fails (hcomma.bind _)
  have hexprs : (parseExprs (parse rd)).run (tokens pre c ++ .rParen :: rest)
      = some (.ok [toExpr pre (c.build table)], .rParen :: rest) := by
    rw [parseExprs, sepBy1, Comp.run_bind_ok hexpr, Comp.run_bind_ok hmore]
    rfl
  refine IsAtom.paren ?_
  rw [List.cons_append, List.append_assoc, List.singleton_append, parseParenExpr, delimited,
    bind_assoc, Comp.run_bind_ok (run_tag _ _), bind_assoc,
    Comp.run_bind_ok (run_opt_of_ok hexprs)]
  rfl

end

/-- A sequence of atoms and infix operators is read to its end, the in-order flattening of the
tree is the sequence, and where no level mixes associativities the tree is the one whose nodes
respect the precedences. -/
theorem parse_sequence {c : Chain (Atom F) Empty (Operator F)} {t : Token F}
    {ts : List (Token F)} (hatoms : Reads Empty.elim rd c (t :: ts)) (ht : t.Ends) :
    ∃ tree : Tree (Atom F) Empty (Operator F),
      (parseExpr (parse rd)).run (tokens Empty.elim c ++ t :: ts) =
        some (.ok (toExpr Empty.elim tree), t :: ts) ∧
      tree.chain = c ∧
      (Uniform table c.ops → tree.Respects table ∧
        ∀ tree' : Tree (Atom F) Empty (Operator F), tree'.chain = c → tree'.Respects table →
          tree' = tree) := by
  refine ⟨c.build table, run_sequence _ hatoms ⟨t, ts, rfl, ht⟩, c.chain_build, fun hu => ?_⟩
  refine ⟨((Chain.respects_iff hu).mpr rfl).2, fun tree' hchain hrespects => ?_⟩
  exact (Chain.respects_iff hu).mp ⟨hchain, hrespects⟩

/-- `a - b - (c ++ d)`. -/
theorem parse_sequence_minus :
    let minus : Operator F64 := ⟨.minus, .PSum, .left, .minus, rfl⟩
    let plusPlus : Operator F64 := ⟨.plusPlus, .PSum, .right, .concatStr, rfl⟩
    let rd : Reading F64 := Reading.ascii (fun _ => none)
    let inner : Chain (Atom F64) Empty (Operator F64) :=
      .step ⟨[.ident "c"], .identExpr "c"⟩ plusPlus (.last ⟨[.ident "d"], .identExpr "d"⟩)
    let c : Chain (Atom F64) Empty (Operator F64) :=
      .step ⟨[.ident "a"], .identExpr "a"⟩ minus (.step ⟨[.ident "b"], .identExpr "b"⟩ minus
        (.last ⟨.lParen :: (tokens Empty.elim inner ++ [.rParen]),
          toExpr Empty.elim (inner.build table)⟩))
    ∃ tree : Tree (Atom F64) Empty (Operator F64),
      (parseExpr (parse rd)).run (tokens Empty.elim c ++ [.eof]) =
        some (.ok (toExpr Empty.elim tree), [.eof]) ∧
      tree.chain = c ∧
      (Uniform table c.ops → tree.Respects table ∧
        ∀ tree' : Tree (Atom F64) Empty (Operator F64), tree'.chain = c → tree'.Respects table →
          tree' = tree) := by
  intro minus plusPlus rd inner c
  have hinner : Reads Empty.elim rd inner [.rParen, .eof] :=
    ⟨.ident "c" (by decide) _, .ident "d" (by decide) _⟩
  exact parse_sequence ⟨.ident "a" (by decide) _, .ident "b" (by decide) _,
    IsAtom.sequence _ hinner⟩ rfl

end Armour.Lang.Parser
