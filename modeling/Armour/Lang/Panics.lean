import Armour.Lang.Digits
import Armour.Lang.Parser

/-! # Where the lexer and the parser panic

The parser panics on a dot before an integer literal that cannot be read as a fraction; the lexer
on whole digits before a dot that do not fit an `i64`.
-/

namespace Armour.Lang.Parser

open Armour.Lib Parse

variable {F : Type}

/-! ## The parser -/

/-- If the token is an integer, its digits after a point are a number. -/
def Readable (rd : Reading F) (t : Token F) : Prop :=
  ∀ i, t = .intLiteral i → ∃ f, rd.parseF64 ("." ++ toString i.toInt) = some f

variable [DecidableEq F] {P : Token F → Prop}

theorem tupleIdent_calm : Calm P (fun _ => True) (tupleIdent (F := F)) :=
  .choice_two (.value _ _) (.token (fun _ _ _ _ => trivial))

theorem parseIdents_calm : Calm P (fun _ => True) (parseIdents (F := F)) := by
  refine .choice ?_
  simp only [List.forall_mem_cons]
  refine ⟨.delimited (.tag _) (tupleIdent_calm.andThen (fun _ => ?_)) (.tag _), ?_,
    .value _ _, fun _ h => absurd h List.not_mem_nil⟩
  · have hrest := Calm.many1 ((Calm.tag (P := P) Token.comma).andThen (fun _ => tupleIdent_calm))
    exact hrest.andThen (fun _ => .pure trivial)
  · exact Calm.andThen (.token (Q := fun _ => True) (fun _ _ _ _ => trivial))
      (fun _ => .pure trivial)

theorem parsePat_calm : Calm P (fun _ => True) (parsePat (F := F)) := by
  refine Calm.fix (fun pat h c => ?_) ()
  have htoken : ∀ {α : Type} (f : Token F → Option α), Calm P (fun _ => True) (token f) :=
    fun f => .token (fun _ _ _ _ => trivial)
  have has : Calm P (fun _ => True) (parseAsPat (F := F)) :=
    (Calm.tag _).andThen (fun _ => (htoken _).andThen (fun _ =>
      (Calm.opt ((Calm.tag _).andThen (fun _ => htoken _))).andThen (fun _ =>
        (Calm.tag _).andThen (fun _ => .pure trivial))))
  have hatom : Calm P (fun _ => True) (parseAtomPat pat) := by
    refine .choice ?_
    simp only [List.forall_mem_cons]
    exact ⟨htoken _, .value _ _, .delimited (.tag _) (htoken _) (.tag _), has,
      .delimited (.tag _) (h ()) (.tag _), fun _ h => absurd h List.not_mem_nil⟩
  have hmark : ∀ p ∈ [value Pat.star Token.multiply, value Pat.plus Token.plus,
      value Pat.opt Token.questionMark, value Pat.caseInsensitive Token.not,
      value Pat.ignoreWhitespace Token.percent], Calm P (fun _ => True) p := by
    simp only [List.forall_mem_cons]
    exact ⟨.value _ _, .value _ _, .value _ _, .value _ _, .value _ _,
      fun _ h => absurd h List.not_mem_nil⟩
  have hpostfix : Calm P (fun _ => True) (parsePostfixPat pat) :=
    hatom.andThen (fun _ => (Calm.many0 (.choice hmark)).andThen (fun _ => .pure trivial))
  have hseq : Calm P (fun _ => True) (parsePatSeq pat) :=
    hpostfix.many1.andThen (fun _ => .pure trivial)
  exact hseq.andThen (fun _ => (Calm.many0 ((Calm.tag _).andThen (fun _ => hseq))).andThen
    (fun _ => .pure trivial))

theorem parsePattern_calm : Calm P (fun _ => True) (parsePattern (F := F)) := by
  have hlabel : Calm P (fun _ => True) (parseLabelLiteral (F := F)) :=
    .token (fun _ _ _ _ => trivial)
  exact .choice_two (parsePat_calm.map (fun _ _ => trivial)) (hlabel.map (fun _ _ => trivial))

theorem parseLitExpr_calm (rd : Reading F) :
    Calm (Readable rd) (fun _ => True) (parseLitExpr rd) := by
  have hint : Calm (Readable rd) (fun i => ∃ f, rd.parseF64 ("." ++ toString i.toInt) = some f)
      parseIntLiteral := by
    refine .token (fun t i ht hi => ?_)
    cases t <;> cases hi
    exact ht _ rfl
  have hdecimal : Calm (Readable rd) (fun _ => True) (parseDecimal rd) := by
    refine (Calm.tag _).andThen (fun _ => hint.bind (fun i hi => ?_))
    obtain ⟨f, hf⟩ := hi
    rw [hf]
    exact .pure trivial
  have hpat : Calm (Readable rd) (fun _ => True) (parsePatNoBind rd) := by
    refine parsePat_calm.andThen (fun p => ?_)
    split_ifs
    · exact .error
    · exact .pure trivial
    · exact .error
  refine .choice ?_
  simp only [List.forall_mem_cons]
  exact ⟨hdecimal, Calm.map (.token (fun _ _ _ _ => trivial)) (fun _ (_ : True) => trivial),
    (Calm.tag _).andThen (fun _ => (Calm.delimited (.tag _) hpat (.tag _)).andThen
      (fun _ => .pure trivial)), fun _ h => absurd h List.not_mem_nil⟩

theorem parseIdentExpr_calm : Calm P (fun _ => True) (parseIdentExpr (F := F)) := by
  have hident : Calm P (fun _ => True) (parseIdent (F := F)) := .token (fun _ _ _ _ => trivial)
  exact .choice_two (hident.map (fun _ _ => trivial)) (.value _ _)

section

variable {call : Call F → Parse (Token F) (Expr F)} (h : ∀ c, Calm P (fun _ => True) (call c))

include h

theorem parseBlockStmt_calm : Calm P (fun _ => True) (parseBlockStmt call) := by
  have hexpr := h (.pratt .PLowest)
  have hstmt : Calm P (fun _ => True) (parseStmt call) := by
    refine .choice ?_
    simp only [List.forall_mem_cons]
    exact ⟨(Calm.tag _).andThen (fun _ => parseIdents_calm.andThen (fun _ =>
        (Calm.tag _).andThen (fun _ => hexpr.andThen (fun _ =>
          (Calm.tag _).andThen (fun _ => .pure trivial))))),
      (Calm.tag _).andThen (fun _ => hexpr.andThen (fun _ => .pure trivial)),
      (Calm.opt (.tag _)).andThen (fun _ => hexpr.andThen (fun _ =>
        (Calm.opt (.tag _)).andThen (fun _ => .pure trivial))),
      fun _ h => absurd h List.not_mem_nil⟩
  exact (Calm.opt (.tag _)).andThen (fun _ =>
    (Calm.delimited (.tag _) hstmt.many0 (.tag _)).andThen (fun _ => .pure trivial))

theorem parseExprs_calm : Calm P (fun _ => True) (parseExprs call) :=
  .sepBy1 (.tag _) (h (.pratt .PLowest))

theorem parseListExpr_calm : Calm P (fun _ => True) (parseListExpr call) :=
  (Calm.delimited (.tag _) (parseExprs_calm h).opt (.tag _)).andThen (fun _ => .pure trivial)

theorem parseIfExpr_calm : Calm P (fun _ => True) (parseIfExpr call) := by
  have hexpr := h (.pratt .PLowest)
  have hmatch : Calm P (fun _ => True) (parseMatchExpr call parsePattern) :=
    hexpr.andThen (fun _ => (Calm.tag _).andThen (fun _ =>
      parsePattern_calm.andThen (fun _ => .pure trivial)))
  have hident : Calm P (fun _ => True) (parseIdent (F := F)) := .token (fun _ _ _ _ => trivial)
  have hsome : Calm P (fun _ => True) (parseSomeMatch call) :=
    (Calm.tag _).andThen (fun _ => (Calm.tag _).andThen (fun _ =>
      (Calm.delimited (.tag _) hident (.tag _)).andThen (fun _ =>
        (Calm.tag _).andThen (fun _ => hexpr.andThen (fun _ => .pure trivial)))))
  have hcond : Calm P (fun _ => True) (parseCondition call) := by
    refine .choice ?_
    simp only [List.forall_mem_cons]
    exact ⟨(Calm.sepBy1 (.tag _) hmatch).map (fun _ _ => trivial),
      hsome.map (fun _ _ => trivial), hexpr.map (fun _ _ => trivial),
      fun _ h => absurd h List.not_mem_nil⟩
  have helse : Calm P (fun _ => True) (parseElseExpr call) :=
    (Calm.tag _).andThen (fun _ => .choice_two (parseBlockStmt_calm h)
      ((h .ifExpr).map (fun _ _ => trivial)))
  exact (Calm.tag _).andThen (fun _ => hcond.andThen (fun _ => (parseBlockStmt_calm h).andThen
    (fun _ => helse.opt.andThen (fun _ => .pure trivial))))

/-- A call is a call. -/
theorem parseCallExpr_calm (e : Expr F) :
    Calm P (fun c => ∃ f es, c = .callExpr f es) (parseCallExpr call e) := by
  refine (Calm.delimited (.tag _) (parseExprs_calm h).opt (.tag _)).andThen (fun es => ?_)
  split
  · exact .pure ⟨_, _, rfl⟩
  · exact .error

theorem parseDotExpr_calm (left : Expr F) : Calm P (fun _ => True) (parseDotExpr call left) := by
  refine .choice_two ?_ ?_
  · exact (Calm.tag _).andThen (fun _ =>
      Calm.andThen (.token (Q := fun _ => True) (fun _ _ _ _ => trivial))
        (fun _ => .pure trivial))
  · refine (Calm.tag _).andThen (fun _ => parseIdentExpr_calm.andThen (fun id => ?_))
    refine (parseCallExpr_calm h id).bind (fun c hc => ?_)
    obtain ⟨f, es, rfl⟩ := hc
    exact .pure trivial

omit [DecidableEq F] in
theorem parseInfixExpr_calm (left : Expr F) :
    Calm P (fun _ => True) (parseInfixExpr call left) := by
  refine Calm.andThen (.token (Q := fun _ => True) (fun _ _ _ _ => trivial)) (fun next => ?_)
  split
  · exact .error
  · exact (h _).andThen (fun _ => .pure trivial)

theorem goParsePrattExpr_calm (p : Precedence) (left : Expr F) :
    Calm P (fun _ => True) (goParsePrattExpr call p left) := by
  have hnext := fun e => h (.climb p e)
  refine Calm.peek.andThen (fun preview => ?_)
  rcases infixOp preview with ⟨q, op⟩
  simp only [goParseNext]
  split_ifs
  · exact (parseDotExpr_calm h left).andThen hnext
  · exact (parseCallExpr_calm h left).andThen hnext
  · exact (parseInfixExpr_calm h left).andThen hnext
  · exact (parseInfixExpr_calm h left).andThen hnext
  · exact .pure trivial

end

theorem parseAtomExpr_calm {rd : Reading F} {call : Call F → Parse (Token F) (Expr F)}
    (h : ∀ c, Calm (Readable rd) (fun _ => True) (call c)) :
    Calm (Readable rd) (fun _ => True) (parseAtomExpr call rd) := by
  have hexpr := h (.pratt .PLowest)
  have hblock := parseBlockStmt_calm h
  have hvalues : ∀ {α : Type} (vs : List (α × Token F)),
      Calm (Readable rd) (fun _ => True) (choice (vs.map (fun v => value v.1 v.2))) := by
    intro α vs
    refine .choice (fun p hp => ?_)
    obtain ⟨v, -, rfl⟩ := List.mem_map.mp hp
    exact .value _ _
  have hprefix : Calm (Readable rd) (fun _ => True) (parsePrefixExpr call) :=
    (hvalues [(Prefix.minus, .minus), (.not, .not)]).andThen (fun _ =>
      hexpr.andThen (fun _ => .pure trivial))
  have hparen : Calm (Readable rd) (fun _ => True) (parseParenExpr call) :=
    (Calm.delimited (.tag _) (parseExprs_calm h).opt (.tag _)).andThen (fun _ => .pure trivial)
  have hiter : Calm (Readable rd) (fun _ => True) (parseIterExpr call) :=
    (hvalues [(Iter.all, .all), (.any, .any), (.filter, .filter), (.filterMap, .filterMap),
      (.forEach, .forEach), (.map, .map)]).andThen (fun _ => parseIdents_calm.andThen (fun _ =>
        (Calm.tag _).andThen (fun _ => hexpr.andThen (fun _ => hblock.andThen
          (fun _ => .pure trivial)))))
  have hident : Calm (Readable rd) (fun _ => True) (parseIdent (F := F)) :=
    .token (fun _ _ _ _ => trivial)
  have hfold : Calm (Readable rd) (fun _ => True) (parseIterAccExpr call) :=
    (Calm.tag _).andThen (fun _ => parseIdents_calm.andThen (fun _ =>
      (Calm.tag _).andThen (fun _ => hexpr.andThen (fun _ => hblock.andThen (fun _ =>
        (Calm.tag _).andThen (fun _ => hident.andThen (fun _ => (Calm.tag _).andThen (fun _ =>
          hexpr.andThen (fun _ => .pure trivial)))))))))
  have hallAny : Calm (Readable rd) (fun _ => True) (parseAllAnyExpr call) :=
    (hvalues [(Iter.all, .all), (.any, .any)]).andThen (fun _ =>
      (parseListExpr_calm h).andThen (fun _ => .pure trivial))
  refine .choice ?_
  simp only [List.forall_mem_cons]
  exact ⟨parseLitExpr_calm rd, parseIdentExpr_calm, hprefix, hparen, parseListExpr_calm h,
    parseIfExpr_calm h, hiter, hfold, hallAny, fun _ h => absurd h List.not_mem_nil⟩

theorem parse_calm (rd : Reading F) (c : Call F) :
    Calm (Readable rd) (fun _ => True) (parse rd c) := by
  refine Calm.fix (fun call h c => ?_) c
  cases c with
  | pratt p => exact (parseAtomExpr_calm h).andThen (fun e => h (.climb p e))
  | climb p left => exact goParsePrattExpr_calm h p left
  | ifExpr => exact parseIfExpr_calm h

/-- The parser does not panic on tokens whose integers can be read as fractions. -/
theorem parseExprEof_calm (rd : Reading F) :
    Calm (Readable rd) (fun _ => True) (parseExprEof rd) :=
  (parse_calm rd (.pratt .PLowest)).andThen (fun _ => (Calm.tag _).andThen (fun _ =>
    .pure trivial))

/-! ## The lexer -/

section

omit [DecidableEq F]

/-- What is not a failure comes from one of the alternatives. -/
theorem alt_eq {ls : List (List Char → Lexed F)} {s : List Char}
    {r : Except Fault (Token F × List Char)} (h : alt ls s = r) (hr : r ≠ .error .error) :
    ∃ l ∈ ls, l s = r := by
  induction ls with
  | nil => exact absurd h.symm hr
  | cons l ls ih =>
      rw [alt] at h
      split at h
      · obtain ⟨l', hl', heq⟩ := ih h
        exact ⟨l', List.mem_cons_of_mem _ hl', heq⟩
      · exact ⟨l, List.mem_cons_self, h⟩

theorem lexOption_no_panic {second : Char} {long short : Token F} {s : List Char} {msg : String} :
    lexOption second long short s ≠ .error (.panic msg) := by
  intro h
  cases s with
  | nil => cases h
  | cons c s =>
      rw [lexOption] at h
      split_ifs at h

theorem lexSlash_no_panic {s : List Char} {msg : String} :
    lexSlash (F := F) s ≠ .error (.panic msg) := by
  unfold lexSlash
  split
  · nofun
  · split <;> nofun
  · nofun

theorem lexOperator_no_panic {s : List Char} {msg : String} :
    lexOperator (F := F) s ≠ .error (.panic msg) := by
  unfold lexOperator
  split
  all_goals first
    | exact lexOption_no_panic
    | exact lexSlash_no_panic
    | nofun

/-- Only numbers make the lexer panic. -/
theorem lexToken_panic {rd : Reading F} {s : List Char} {msg : String}
    (h : lexToken rd s = .error (.panic msg)) : lexNumber rd s = .error (.panic msg) := by
  obtain ⟨l, hl, hpanic⟩ := alt_eq h nofun
  have hstring : lexString (F := F) s ≠ .error (.panic msg) := by
    unfold lexString
    split
    · split <;> nofun
    · split <;> nofun
    · nofun
  have hlabel : lexLabel (F := F) s ≠ .error (.panic msg) := by
    unfold lexLabel
    split
    · split
      · split <;> nofun
      · nofun
    · nofun
  have hident : lexReservedIdent rd s ≠ .error (.panic msg) := by
    unfold lexReservedIdent
    split <;> nofun
  have hillegal : lexIllegal (F := F) s ≠ .error (.panic msg) := by
    cases s <;> nofun
  simp only [List.mem_cons, List.not_mem_nil, or_false] at hl
  rcases hl with rfl | rfl | rfl | rfl | rfl | rfl
  · exact hpanic
  · exact absurd hpanic hstring
  · exact absurd hpanic hlabel
  · exact absurd hpanic hident
  · exact absurd hpanic lexOperator_no_panic
  · exact absurd hpanic hillegal

theorem getLast_exponent {e : List Char} (he : IsExponent e) : e.getLast? ≠ some '.' := by
  cases he with
  | absent => nofun
  | @present c hc sg hsg ds =>
      intro h
      have hmem : '.' ∈ ds.chars := by
        have hne := ds.ne_nil
        rw [← List.cons_append, List.getLast?_append_of_ne_nil _ hne] at h
        exact List.mem_of_getLast? h
      exact absurd rfl (ne_of_isDigit (ds.isDigit _ hmem) (by decide))

/-- A number with a dot at its end that begins with digits is digits and the dot. -/
theorem dot_of_getLast {s float rest ds s' : List Char}
    (h : recognizeFloat s = some (float, rest)) (hdot : float.getLast? = some '.')
    (hds : digits s = (ds, s')) (hne : ds ≠ []) : s'.head? = some '.' := by
  have htext := digits_append s
  rw [hds] at htext
  have hdigit := isDigit_of_digits hds
  by_contra hno
  have hm : mantissa s = some (ds, s') := by
    have hm := mantissa_whole ⟨ds, hne, hdigit⟩ (ended_of_digits hds) hno
    rwa [htext] at hm
  have hsign : sign s = ([], s) := by
    have hs := (IsMantissa.whole ⟨ds, hne, hdigit⟩).sign (s := s')
    rwa [htext] at hs
  unfold recognizeFloat at h
  rw [hsign] at h
  dsimp only at h
  rw [hm] at h
  rcases he : exponent s' with _ | ⟨e, s₂⟩
  · simp [he] at h
  · simp only [he, Option.bind_eq_bind, Option.bind_some, List.nil_append, Option.some.injEq,
      Prod.mk.injEq] at h
    rw [← h.1] at hdot
    cases hempty : e with
    | nil =>
        rw [hempty, List.append_nil] at hdot
        have hmem : '.' ∈ ds := List.mem_of_getLast? hdot
        exact absurd rfl (ne_of_isDigit (hdigit _ hmem) (by decide))
    | cons c cs =>
        rw [List.getLast?_append_of_ne_nil _ (by rw [hempty]; exact List.cons_ne_nil _ _)] at hdot
        exact getLast_exponent (isExponent_of he) hdot

/-- The lexer panics at a number only on whole digits before a dot that do not fit. -/
theorem lexNumber_panic {rd : Reading F} {s : List Char} {msg : String}
    (htotal : ∀ {s float rest}, recognizeFloat s = some (float, rest) →
      ∃ f, rd.parseF64 (String.ofList float) = some f)
    (h : lexNumber rd s = .error (.panic msg)) :
    ∃ (n : Digits) (s' : List Char), s = n.chars ++ '.' :: s' ∧ 2 ^ 63 ≤ n.value := by
  unfold lexNumber at h
  split at h
  · cases h
  · rename_i float rest hfloat
    have hskip : ∀ {t : Token F} {s : List Char}, skipDigits t s ≠ .error (.panic msg) := by
      intro t s
      unfold skipDigits
      split <;> nofun
    obtain ⟨f, hf⟩ := htotal hfloat
    split_ifs at h with hdot hminus hfraction hsign
    · split at h
      · cases h
      · rename_i ds s₁ hne hds
        have hdigit := isDigit_of_digits hds
        have htext := digits_append s
        rw [hds] at htext
        rw [parseI64_digits hne hdigit] at h
        by_cases hfits : Text.digitsValue ds < 2 ^ 63
        · rw [if_pos hfits] at h
          cases h
        · have hhead := dot_of_getLast hfloat hdot hds hne
          cases hs₁ : s₁ with
          | nil =>
              rw [hs₁] at hhead
              cases hhead
          | cons c s₂ =>
              rw [hs₁] at hhead htext
              cases hhead
              exact ⟨⟨ds, hne, hdigit⟩, s₂, htext.symm, Nat.le_of_not_lt hfits⟩
    · split at h
      · exact absurd h hskip
      · rw [hf] at h
        cases h
    · split at h
      · exact absurd h hskip
      · rw [hf] at h
        cases h

theorem parseReserved_ne_int {s : String} {i : Int64} :
    (parseReserved s : Token F) ≠ .intLiteral i := by
  unfold parseReserved
  split <;> nofun

theorem lexOption_ne_int {second : Char} {long short : Token F} {s s' : List Char} {i : Int64}
    (hlong : long ≠ .intLiteral i) (hshort : short ≠ .intLiteral i) :
    lexOption second long short s ≠ .ok (.intLiteral i, s') := by
  cases s with
  | nil => nofun
  | cons c s =>
      rw [lexOption]
      split_ifs
      · exact fun h => hlong (congrArg Prod.fst (Except.ok.inj h))
      · exact fun h => hshort (congrArg Prod.fst (Except.ok.inj h))

theorem lexSlash_ne_int {s s' : List Char} {i : Int64} :
    lexSlash (F := F) s ≠ .ok (.intLiteral i, s') := by
  unfold lexSlash
  split
  · nofun
  · split <;> nofun
  · nofun

theorem lexOperator_ne_int {s s' : List Char} {i : Int64} :
    lexOperator (F := F) s ≠ .ok (.intLiteral i, s') := by
  unfold lexOperator
  split
  all_goals first
    | exact lexOption_ne_int nofun nofun
    | exact lexSlash_ne_int
    | nofun

/-- Only numbers are integers. -/
theorem lexToken_int {rd : Reading F} {s s' : List Char} {i : Int64}
    (h : lexToken rd s = .ok (.intLiteral i, s')) : lexNumber rd s = .ok (.intLiteral i, s') := by
  obtain ⟨l, hl, hok⟩ := alt_eq h nofun
  have hstring : lexString (F := F) s ≠ .ok (.intLiteral i, s') := by
    unfold lexString
    split
    · split <;> nofun
    · split <;> nofun
    · nofun
  have hlabel : lexLabel (F := F) s ≠ .ok (.intLiteral i, s') := by
    unfold lexLabel
    split
    · split
      · split <;> nofun
      · nofun
    · nofun
  have hident : lexReservedIdent rd s ≠ .ok (.intLiteral i, s') := by
    unfold lexReservedIdent
    split
    · nofun
    · nofun
    · exact fun h => parseReserved_ne_int (congrArg Prod.fst (Except.ok.inj h))
  have hillegal : lexIllegal (F := F) s ≠ .ok (.intLiteral i, s') := by
    cases s <;> nofun
  simp only [List.mem_cons, List.not_mem_nil, or_false] at hl
  rcases hl with rfl | rfl | rfl | rfl | rfl | rfl
  · exact hok
  · exact absurd hok hstring
  · exact absurd hok hlabel
  · exact absurd hok hident
  · exact absurd hok lexOperator_ne_int
  · exact absurd hok hillegal

theorem skipDigits_eq_ok {t t' : Token F} {s s' : List Char} (h : skipDigits t s = .ok (t', s')) :
    t' = t ∧ (digits s).1 ≠ [] := by
  unfold skipDigits at h
  split at h
  · cases h
  · rename_i hne hd
    cases h
    rw [hd]
    exact ⟨rfl, hne⟩

theorem parseI64_nonneg {s : List Char} {i : Int64} (h : Text.parseI64 (String.ofList s) = some i)
    (hs : s.head? ≠ some '-') : 0 ≤ i.toInt := by
  have hval : ∀ {ds : List Char}, ((Text.parseDigits ds).filter (· < 2 ^ 63)).map
      (fun n => Int64.ofInt n) = some i → 0 ≤ i.toInt := by
    intro ds h
    obtain ⟨_, hn, rfl⟩ := Option.map_eq_some_iff.mp h
    obtain ⟨n, hm, heq⟩ := Option.bind_eq_some_iff.mp hn
    cases heq
    have hlt := of_decide_eq_true (Option.filter_eq_some_iff.mp hm).2
    rw [Int64.toInt_ofInt_of_le (by omega) (by omega)]
    exact Int.natCast_nonneg n
  unfold Text.parseI64 at h
  rw [String.toList_ofList] at h
  split at h
  · exact absurd rfl hs
  · exact hval h
  · exact hval h

/-- An integer below zero has a sign and a digit in front. -/
theorem lexNumber_int {rd : Reading F} {s s' : List Char} {i : Int64}
    (h : lexNumber rd s = .ok (.intLiteral i, s')) (hi : i.toInt < 0) :
    ∃ d s', s = '-' :: d :: s' ∧ d.isDigit = true := by
  unfold lexNumber at h
  split at h
  · cases h
  · rename_i float rest hfloat
    obtain ⟨htext, hne⟩ := recognizeFloat_append hfloat
    split_ifs at h with hdot hminus hfraction hsign
    · cases h
    · split at h
      · cases h
      · rename_i ds s₁ hne hds
        have hdigit := isDigit_of_digits hds
        split at h
        · rename_i j hj
          cases h
          have hhead : ds.head? ≠ some '-' := by
            have hh := head_ne hdigit [] hne (d := '-') (by decide)
            rwa [List.append_nil] at hh
          have hpos := parseI64_nonneg hj hhead
          omega
        · cases h
    · cases h
    · -- the sign is in front of the text, and digits come after it
      split at h
      · obtain ⟨-, hdigits⟩ := skipDigits_eq_ok h
        have hall : ∀ c ∈ (digits s.tail).1, c.isDigit = true := isDigit_of_digits rfl
        have happ := digits_append s.tail
        cases hs : s with
        | nil =>
            rw [hs] at hsign
            cases hsign
        | cons c cs =>
            rw [hs] at hsign hdigits hall happ
            cases hsign
            cases hds : (digits cs).1 with
            | nil => exact absurd hds hdigits
            | cons d ds =>
                rw [List.tail_cons, hds] at happ hall
                exact ⟨d, ds ++ (digits cs).2, congrArg _ happ.symm, hall d List.mem_cons_self⟩
      · split at h <;> cases h
    · split at h
      · rename_i j hj
        obtain ⟨heq, -⟩ := skipDigits_eq_ok h
        cases heq
        have hhead : float.head? ≠ some '-' := by
          rw [← htext, List.head?_append_of_ne_nil _ hne] at hsign
          exact hsign
        have hpos := parseI64_nonneg hj hhead
        omega
      · split at h <;> cases h

end

end Armour.Lang.Parser
