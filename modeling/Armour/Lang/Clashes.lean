import Armour.Lang.Precedence
import Armour.Lang.Signs
import Armour.Lang.Spacing

/-! # Operators next to numbers

Where two lexemes clash the text without a gap between them has another number of signs than the
one with a gap, so it is another expression or none.
-/

namespace Armour.Lang.Parser

open Armour.Lib Parse

variable {F : Type} {R : Reading F}

/-! ## Lexing lexemes that clash -/

theorem signs_of_read {n : Numeral} {t : Token F} (h : n.read R = .ok t) : t.signs = 0 := by
  rcases Numeral.literal_of_read h with ⟨i, rfl⟩ | ⟨f, rfl⟩ <;> rfl

/-- One more token, or a panic. -/
theorem lexTokens_step {p rest : List Char} (hp : ∃ c q, p = c :: q ∧ isBlank c = false)
    {r : Except Fault (Token F)} (hr : r ≠ .error .error)
    (h : lexToken R (p ++ rest) = r.map (fun t => (t, rest))) {ts : List (Token F)}
    (hts : lexTokens R (p ++ rest) = .ok ts) :
    ∃ t us, r = .ok t ∧ lexTokens R rest = .ok us ∧ ts = t :: us := by
  obtain ⟨c, q, rfl, hc⟩ := hp
  cases r with
  | error e =>
      cases e with
      | error => exact absurd rfl hr
      | panic msg => cases (lexTokens_of_panic hc h).symm.trans hts
  | ok t =>
      have hlexes : lexTokens R (c :: q ++ rest) = (lexTokens R rest).map ([t] ++ ·) :=
        LexesAs.token hc h
      rw [hlexes] at hts
      cases hus : lexTokens R rest with
      | error e =>
          rw [hus] at hts
          cases hts
      | ok us =>
          rw [hus] at hts
          cases hts
          exact ⟨t, us, rfl, rfl, rfl⟩

theorem Numeral.read_ne_error (n : Numeral) : n.read R ≠ .error .error := by
  unfold Numeral.read
  split
  · nofun
  · split <;> nofun

theorem lexToken_of_lexNumber {s : List Char} {r : Lexed F} (h : lexNumber R s = r)
    (hr : r ≠ .error .error) : lexToken R s = r := by
  cases r with
  | ok p => exact alt_of_ok h
  | error e =>
      cases e with
      | error => exact absurd rfl hr
      | panic msg =>
          show alt _ s = _
          rw [alt, h]

/-- A number has no signs among its tokens. -/
theorem signs_of_numeral {n : Numeral} {rest : List Char} (h : n.Stops rest)
    (hhead : ¬(n.text.head? = some '.' ∧ 'e' ∉ n.text))
    (hplus : n.sg = ['+'] → Text.parseI64 (String.ofList n.text) = none) {ts us : List (Token F)}
    (hts : lexTokens R (n.text ++ rest) = .ok ts) (hus : lexTokens R rest = .ok us) :
    total Token.signs ts = total Token.signs us := by
  have hnumber := lexNumber_numeral (R := R) n h hhead hplus
  have htoken : lexToken R (n.text ++ rest) = (n.read R).map (fun t => (t, rest)) := by
    refine lexToken_of_lexNumber hnumber ?_
    have hread := n.read_ne_error (R := R)
    revert hread
    cases n.read R with
    | ok t => exact fun _ => nofun
    | error e => exact fun hread heq => hread (congrArg Except.error (Except.error.inj heq))
  obtain ⟨t, us', hread, hus', rfl⟩ :=
    lexTokens_step n.head_not_blank n.read_ne_error htoken hts
  cases hus.symm.trans hus'
  rw [total_cons, signs_of_read hread, Nat.zero_add]

/-- Nor have whole digits with a dot after them. -/
theorem signs_of_point (d : Digits) {r : List Char}
    (hr : Ended r ∧ r.head? ≠ some 'e' ∧ r.head? ≠ some 'E') {ts us : List (Token F)}
    (hts : lexTokens R (d.chars ++ '.' :: r) = .ok ts) (hus : lexTokens R r = .ok us) :
    (∃ i, Text.parseI64 (String.ofList d.chars) = some i) ∧
      total Token.signs ts = total Token.signs us := by
  have hd : ∃ c q, d.chars = c :: q ∧ isBlank c = false := by
    obtain ⟨c, q, hcq, hc⟩ := d.numeral.head_not_blank
    rw [show d.numeral.text = d.chars from List.append_nil _] at hcq
    exact ⟨c, q, hcq, hc⟩
  have hnumber := lexNumber_point (R := R) d hr
  cases hparse : Text.parseI64 (String.ofList d.chars) with
  | none =>
      rw [hparse] at hnumber
      have htoken := lexToken_of_lexNumber hnumber nofun
      obtain ⟨t, us', heq, -⟩ := lexTokens_step (r := .error (.panic _)) hd nofun htoken hts
      cases heq
  | some i =>
      rw [hparse] at hnumber
      have htoken := lexToken_of_lexNumber hnumber nofun
      obtain ⟨t, us', heq, hus', rfl⟩ :=
        lexTokens_step (r := .ok (.intLiteral i)) hd nofun htoken hts
      cases heq
      have hdot : lexTokens R (['.'] ++ r) = (lexTokens R r).map ([.dot] ++ ·) :=
        LexesAs.token (by decide) (Lexeme.lexToken_dot hr.1)
      rw [show '.' :: r = ['.'] ++ r from rfl, hdot, hus] at hus'
      cases hus'
      refine ⟨⟨i, rfl⟩, ?_⟩
      simp [Token.signs]

/-- Nor has a number without a sign, though it may begin with a dot. -/
theorem signs_of_unsigned {n : Numeral} (hsg : n.sg = []) {s : List Char}
    {ts us : List (Token F)} (hts : lexTokens R (n.text ++ ' ' :: s) = .ok ts)
    (hus : lexTokens R (' ' :: s) = .ok us) : total Token.signs ts = total Token.signs us := by
  have hplus : ∀ m : Numeral, m.sg = [] →
      m.sg = ['+'] → Text.parseI64 (String.ofList m.text) = none := by
    intro m hm hm'
    rw [hm] at hm'
    cases hm'
  by_cases hhead : n.text.head? = some '.' ∧ 'e' ∉ n.text
  · have hstops : n.Stops (' ' :: s) := n.stops_of_blank (by decide) s
    have hnumber : lexNumber R (n.text ++ ' ' :: s) = .ok (.dot, (n.text ++ ' ' :: s).tail) := by
      unfold lexNumber
      rw [n.recognize hstops]
      dsimp only
      rw [if_neg (show n.text.getLast? ≠ some '.' from n.last), if_pos hhead]
    obtain ⟨sg, m, e, hsign, hm, he, hlast⟩ := n
    cases hsg
    cases hm with
    | whole d => exact absurd hhead.1 (head_ne d.isDigit e d.ne_nil (by decide))
    | @decimal d fs hfs =>
        have htext : d.chars ++ '.' :: fs ++ e = d.chars ++ ('.' :: fs ++ e) :=
          List.append_assoc _ _ _
        have hdot : (d.chars ++ ('.' :: fs ++ e)).head? = some '.' := htext ▸ hhead.1
        exact absurd hdot (head_ne d.isDigit _ d.ne_nil (by decide))
    | fraction d =>
        have hnumeral : (d.chars ++ e).getLast? ≠ some '.' := by
          have hne : d.chars ++ e ≠ [] := List.append_ne_nil_of_left_ne_nil d.ne_nil _
          intro h
          refine hlast ?_
          show ('.' :: (d.chars ++ e)).getLast? = _
          rw [List.getLast?_cons_of_ne_nil hne, h]
        have htoken : lexToken R (['.'] ++ (d.chars ++ e ++ ' ' :: s)) =
            .ok (.dot, d.chars ++ e ++ ' ' :: s) := alt_of_ok hnumber
        obtain ⟨t, us', heq, hus', rfl⟩ := lexTokens_step (r := .ok .dot)
          ⟨'.', [], rfl, by decide⟩ nofun htoken hts
        cases heq
        rw [total_cons]
        show 0 + total Token.signs us' = _
        rw [Nat.zero_add]
        refine signs_of_numeral (n := ⟨[], d.chars, e, Or.inl rfl, .whole d, he, hnumeral⟩)
          (Numeral.stops_of_blank _ (by decide) s) (fun h => ?_) (hplus _ rfl) hus' hus
        exact absurd h.1 (head_ne d.isDigit e d.ne_nil (by decide))
  · exact signs_of_numeral (n.stops_of_blank (by decide) s) hhead (hplus n hsg) hts hus

theorem Digits.last_fraction (d : Digits) : ([] ++ ('.' :: d.chars ++ [])).getLast? ≠ some '.' := by
  intro h
  rw [List.nil_append, List.append_nil, List.getLast?_cons_of_ne_nil d.ne_nil] at h
  have hdigit : '.'.isDigit = true := d.isDigit _ (List.mem_of_getLast? h)
  cases hdigit

/-- The number of a dot and the digits after it. -/
def Digits.point (d : Digits) : Numeral where
  sg := []
  m := '.' :: d.chars
  e := []
  isSign := d.numeral.isSign
  isMantissa := .fraction d
  isExponent := .absent
  last := d.last_fraction

theorem Numeral.parse_of_not_int {n : Numeral} {t : Token F} (h : n.read R = .ok t)
    (ht : ∀ i, t ≠ .intLiteral i) : Text.parseI64 (String.ofList n.text) = none := by
  cases hparse : Text.parseI64 (String.ofList n.text) with
  | none => rfl
  | some i =>
      rw [Numeral.read, hparse] at h
      cases h
      exact absurd rfl (ht i)

/-- A number that an operator has become the sign of. -/
theorem signs_of_signed {c : Char} {n : Numeral} (hc : [c] = ['+'] ∨ [c] = ['-'])
    (hplus : [c] = ['+'] → Text.parseI64 (String.ofList (c :: (n.m ++ n.e))) = none)
    {s : List Char} {ts us : List (Token F)}
    (hts : lexTokens R (c :: (n.m ++ n.e) ++ ' ' :: s) = .ok ts)
    (hus : lexTokens R (' ' :: s) = .ok us) : total Token.signs ts = total Token.signs us := by
  refine signs_of_numeral (n := n.signed [c] (Or.inr hc)) (Numeral.stops_of_blank _ (by decide) s)
    (fun h => ?_) hplus hts hus
  have hdot : some c = some '.' := h.1
  cases hdot
  rcases hc with hc | hc <;> cases hc

theorem ends_of_blank (s : List Char) :
    Ended (' ' :: s) ∧ (' ' :: s).head? ≠ some 'e' ∧ (' ' :: s).head? ≠ some 'E' := by
  refine ⟨?_, nofun, nofun⟩
  rintro c ⟨⟩
  decide

/-- Whole digits with a sign before them and a dot after them: the sign is an operator. -/
theorem signs_of_signed_point {c : Char} (hc : [c] = ['+'] ∨ [c] = ['-']) (d : Digits)
    {s : List Char} {ts us : List (Token F)}
    (hts : lexTokens R ([c] ++ (d.chars ++ '.' :: ' ' :: s)) = .ok ts)
    (hus : lexTokens R (' ' :: s) = .ok us) :
    total Token.signs ts = 1 + total Token.signs us := by
  have hfloat := recognize_point (Or.inr hc) d (ends_of_blank s)
  have hlast : ([c] ++ (d.chars ++ ['.'])).getLast? = some '.' := by
    rw [← List.append_assoc, List.getLast?_concat]
  have hoperator : ∃ t : Token F, t.signs = 1 ∧
      lexToken R ([c] ++ (d.chars ++ '.' :: ' ' :: s)) = .ok (t, d.chars ++ '.' :: ' ' :: s) := by
    rcases hc with hc | hc <;> cases hc
    · have hnumber : lexNumber R (['+'] ++ (d.chars ++ '.' :: ' ' :: s)) = .error .error := by
        unfold lexNumber
        rw [hfloat]
        dsimp only
        rw [if_pos hlast, if_neg (show (['+'] ++ (d.chars ++ ['.'])).head? ≠ some '-' from nofun)]
        rfl
      refine ⟨.plus, rfl, lexToken_symbol (s := "+") rfl ?_ (fun _ => hnumber)⟩
      rintro e ⟨⟩
      exact ⟨List.append_ne_nil_of_left_ne_nil d.ne_nil _,
        head_ne d.isDigit _ d.ne_nil (by decide)⟩
    · refine ⟨.minus, rfl, alt_of_ok ?_⟩
      unfold lexNumber
      rw [hfloat]
      dsimp only
      rw [if_pos hlast, if_pos (show (['-'] ++ (d.chars ++ ['.'])).head? = some '-' from rfl)]
      rfl
  obtain ⟨t, ht, htoken⟩ := hoperator
  have hc' : isBlank c = false := by rcases hc with hc | hc <;> cases hc <;> decide
  obtain ⟨t', us', heq, hus', rfl⟩ := lexTokens_step (r := .ok t) ⟨c, [], rfl, hc'⟩ nofun htoken hts
  cases heq
  rw [total_cons, ht, (signs_of_point d (ends_of_blank s) hus' hus).2]

/-- Two lexemes that clash have another number of signs when no gap is between them. -/
theorem signs_of_clash {before : Option (Lexeme R)} {u v : Lexeme R} (h : Clash before u v)
    {s : List Char} {ts us : List (Token F)}
    (hts : lexTokens R (u.text ++ (v.text ++ ' ' :: s)) = .ok ts)
    (hus : lexTokens R (' ' :: s) = .ok us) :
    total Token.signs ts ≠ total Token.signs (u.tokens ++ v.tokens ++ us) := by
  have hunsigned : ∀ {n : Numeral}, n.sg = [] → n.text = n.m ++ n.e := by
    intro n hsg
    rw [Numeral.text, hsg]
    rfl
  have hpoint : ∀ d : Digits, d.point.m ++ d.point.e = '.' :: d.chars :=
    fun d => List.append_nil _
  unfold Clash at h
  split at h
  · -- a minus and a number without a sign
    rename_i s' hs' n t hn
    cases hs'
    rw [signs_of_signed (n := n) (Or.inr rfl) (fun h => by cases h)
      (by rw [← hunsigned h.1]; exact hts) hus]
    show _ ≠ total Token.signs (.minus :: t :: us)
    rw [total_cons, total_cons, signs_of_read hn.read]
    show _ ≠ 1 + (0 + _)
    omega
  · -- a minus and a fraction
    rename_i s' hs' d i hi
    cases hs'
    rw [signs_of_signed (n := d.point) (Or.inr rfl) (fun h => by cases h)
      (by rw [hpoint]; exact hts) hus]
    show _ ≠ total Token.signs (.minus :: .dot :: .intLiteral i :: us)
    rw [total_cons, total_cons, total_cons]
    show _ ≠ 1 + (0 + (0 + _))
    omega
  · -- a plus and a number with a plus, or with a point or an exponent
    rename_i s' hs' n t hn
    cases hs'
    have hlight : total Token.signs ts = total Token.signs us := by
      rcases h with hsg | ⟨hsg, hint⟩
      · have htext : n.text = '+' :: (n.m ++ n.e) := by rw [Numeral.text, hsg]; rfl
        have hplus : lexToken R (['+', '+'] ++ (n.m ++ n.e ++ ' ' :: s)) =
            .ok (.plusPlus, n.m ++ n.e ++ ' ' :: s) :=
          lexToken_symbol (t := .plusPlus) (s := "++") rfl (fun _ h => by cases h)
            (fun h => by rcases h with h | h | h <;> cases h)
        have hts' : lexTokens R (['+'] ++ (n.text ++ ' ' :: s)) = .ok ts := hts
        rw [htext] at hts'
        obtain ⟨t', us', heq, hus', rfl⟩ := lexTokens_step (r := .ok .plusPlus)
          ⟨'+', ['+'], rfl, by decide⟩ (fun h => by cases h) hplus hts'
        cases heq
        rw [total_cons, signs_of_unsigned (n := n.signed [] (Or.inl rfl)) rfl hus' hus]
        exact Nat.zero_add _
      · refine signs_of_signed (n := n) (Or.inl rfl) (fun _ => ?_)
          (by rw [← hunsigned hsg]; exact hts) hus
        rw [parseI64_plus n.head, ← hunsigned hsg]
        exact n.parse_of_not_int hn.read hint
    rw [hlight]
    show _ ≠ total Token.signs (.plus :: t :: us)
    rw [total_cons, total_cons, signs_of_read hn.read]
    show _ ≠ 1 + (0 + _)
    omega
  · -- a plus and a fraction
    rename_i s' hs' d i hi
    cases hs'
    have hnone : Text.parseI64 (String.ofList ('+' :: (d.point.m ++ d.point.e))) = none := by
      rw [hpoint]
      exact parseI64_dot (List.mem_cons_of_mem _ List.mem_cons_self)
    rw [signs_of_signed (n := d.point) (Or.inl rfl) (fun _ => hnone)
      (by rw [hpoint]; exact hts) hus]
    show _ ≠ total Token.signs (.plus :: .dot :: .intLiteral i :: us)
    rw [total_cons, total_cons, total_cons]
    show _ ≠ 1 + (0 + (0 + _))
    omega
  · -- whole digits and a dot
    rename_i n t hn s' hs'
    cases hs'
    obtain ⟨hwhole, hint⟩ := h
    obtain ⟨d, hm, htext⟩ := n.whole_digits hwhole
    have hts' : lexTokens R (n.text ++ '.' :: ' ' :: s) = .ok ts := hts
    rw [htext, List.append_assoc] at hts'
    show _ ≠ total Token.signs (t :: .dot :: us)
    rw [total_cons, total_cons, signs_of_read hn.read]
    show _ ≠ 0 + (0 + _)
    rcases n.isSign with hsg | hsg | hsg
    · rw [hsg, List.nil_append] at hts'
      obtain ⟨i, hi⟩ := (signs_of_point d (ends_of_blank s) hts' hus).1
      rw [hsg, List.nil_append] at htext
      have hnone := n.parse_of_not_int hn.read (hint.resolve_left (fun hne => hne hsg))
      rw [htext, hi] at hnone
      cases hnone
    · rw [hsg] at hts'
      rw [signs_of_signed_point (Or.inl rfl) d hts' hus]
      omega
    · rw [hsg] at hts'
      rw [signs_of_signed_point (Or.inr rfl) d hts' hus]
      omega
  · exact h.elim

namespace Spaced

/-! ## Reading texts -/

/-- The gap may be closed all the same. -/
theorem loose_of_clash {before : Option (Lexeme R)} {u v : Lexeme R} (h : Clash before u v)
    (s : List Char) : Loose before u v (' ' :: s) := by
  unfold Clash at h
  split at h
  · exact ⟨fun _ _ => h.2, fun h => by cases h⟩
  · exact fun _ => h
  · exact ⟨fun h => (by cases h), fun h => (by cases h)⟩
  · exact fun h => by cases h
  · rename_i n t hn s' hs'
    cases hs'
    refine ⟨?_, fun _ => ⟨fun h => (by cases h), fun h => (by cases h)⟩, ?_⟩
    · rintro c ⟨⟩
      decide
    · rintro _ r ⟨⟩
      exact ends_of_blank s
  · exact h.elim

/-- In front of lexemes that clash the others are kept apart. -/
theorem exists_clash {before : Option (Lexeme R)} {us : List (Lexeme R)}
    (h : Clashes before us) : ∃ b u v pre post, us = pre ++ u :: v :: post ∧ Clash b u v ∧
      ∀ l, Allowed b l → Allowed before (apart pre ++ l) := by
  induction us generalizing before with
  | nil => exact h.elim
  | cons w us ih =>
      cases us with
      | nil => exact h.elim
      | cons w' us =>
          rcases h with h | h
          · exact ⟨before, w, w', [], us, rfl, h, fun l hl => hl⟩
          · obtain ⟨b, u, v, pre, post, heq, hclash, hallowed⟩ := ih h
            refine ⟨b, u, v, w :: pre, post, congrArg (w :: ·) heq, hclash, fun l hl => ?_⟩
            exact (hallowed l hl).cons

end Spaced

section

variable [DecidableEq F]

/-- Only the significant tokens count. -/
theorem readExpr_of_lexTokens {s : List Char} {ts : List (Token F)}
    (h : lexTokens R s = .ok ts) :
    readExpr R s = answer ((parseExprEof R).run (significant ts ++ [.eof])) := by
  have hlex : lex R (String.ofList s) = .ok (significant ts ++ [.eof]) := by
    rw [lex, String.toList_ofList, h]
    show Except.ok ((ts ++ [Token.eof]).filter _) = _
    rw [List.filter_append]
    rfl
  rw [readExpr, hlex]

/-- A text that is an expression has the signs of the expression. -/
theorem signs_of_readExpr {s : List Char} {e : Expr F} (h : readExpr R s = some e) :
    ∃ ts, lexTokens R s = .ok ts ∧ total Token.signs ts = e.signs := by
  cases hts : lexTokens R s with
  | error f =>
      have hlex : lex R (String.ofList s) = .error f := by
        rw [lex, String.toList_ofList, hts]
        rfl
      rw [readExpr, hlex] at h
      cases h
  | ok ts =>
      rw [readExpr_of_lexTokens hts] at h
      unfold answer at h
      split at h
      · rename_i e' hrun
        cases h
        refine ⟨ts, rfl, ?_⟩
        have hsigns := signs_of_parse hrun
        have hcomment : ∀ t : Token F, (!isComment t) = false → t.signs = 0 := by
          intro t ht
          cases t <;> first | rfl | cases ht
        rw [total_append, significant, total_filter hcomment] at hsigns
        exact hsigns
      · cases h

/-- The gaps between the lexemes of an expression do not matter exactly if no two of the
lexemes clash. -/
theorem readExpr_spacing_iff {us : List (Lexeme R)}
    (h : (readExpr R (Spaced.apart us).text).isSome) :
    (∀ l : Spaced R, l.lexemes = us → Spaced.Allowed none l →
      readExpr R l.text = readExpr R (Spaced.apart us).text) ↔ ¬Clashes none us := by
  constructor
  · intro hall hclashes
    obtain ⟨b, u, v, pre, post, rfl, hclash, hallowed⟩ := Spaced.exists_clash hclashes
    have hpost : Spaced.Allowed (some u) ((v, [' ']) :: Spaced.apart post) :=
      Spaced.allowed_apart _ (v :: post)
    have hclosed : Spaced.Allowed b ((u, []) :: (v, [' ']) :: Spaced.apart post) :=
      ⟨Spaced.isGap_nil, fun _ => Spaced.loose_of_clash hclash _, hpost⟩
    have hlexemes : (Spaced.apart pre ++ (u, []) :: (v, [' ']) :: Spaced.apart post).lexemes =
        pre ++ u :: v :: post := by
      show List.map Prod.fst _ = _
      rw [List.map_append]
      exact congrArg₂ (· ++ ·) (Spaced.lexemes_apart pre)
        (congrArg (fun us => u :: v :: us) (Spaced.lexemes_apart post))
    obtain ⟨e, he⟩ := Option.isSome_iff_exists.mp h
    have hsame := (hall _ hlexemes (hallowed _ hclosed)).trans he
    obtain ⟨ts, hts, hsigns⟩ := signs_of_readExpr he
    obtain ⟨ts', hts', hsigns'⟩ := signs_of_readExpr hsame
    cases (Spaced.lexTokens_apart _).symm.trans hts
    -- the closed text is read as the lexemes before the clash, and then in another way
    have hlexes := Spaced.lexes_apart (R := R) pre
      (u.text ++ (v.text ++ ' ' :: (Spaced.apart post).text))
    have htext : (Spaced.apart pre ++ (u, []) :: (v, [' ']) :: Spaced.apart post).text =
        (Spaced.apart pre).text ++ (u.text ++ (v.text ++ ' ' :: (Spaced.apart post).text)) :=
      Spaced.text_append _ _
    unfold LexesAs at hlexes
    rw [htext, hlexes] at hts'
    cases hrest : lexTokens R (u.text ++ (v.text ++ ' ' :: (Spaced.apart post).text)) with
    | error f =>
        rw [hrest] at hts'
        cases hts'
    | ok us =>
        rw [hrest] at hts'
        cases hts'
        have hblank : lexTokens R (' ' :: (Spaced.apart post).text) =
            .ok (Spaced.tokens post) := by
          have hgap : LexesAs R [' '] [] (Spaced.apart post).text :=
            LexesAs.blanks (List.forall_mem_singleton.mpr (by decide)) _
          have hjoin : lexTokens R ([' '] ++ (Spaced.apart post).text) = _ := hgap
          rw [Spaced.lexTokens_apart] at hjoin
          exact hjoin
        have hne := signs_of_clash hclash hrest hblank
        refine hne ?_
        have htotal : total Token.signs (Spaced.tokens (pre ++ u :: v :: post)) =
            total Token.signs (Spaced.tokens pre) +
              total Token.signs (u.tokens ++ v.tokens ++ Spaced.tokens post) := by
          unfold Spaced.tokens
          rw [List.flatMap_append, total_append, List.flatMap_cons, List.flatMap_cons,
            List.append_assoc]
        rw [total_append] at hsigns'
        omega
  · intro hclash l hl hallowed
    subst hl
    obtain ⟨ts, hts, htokens⟩ := Spaced.lexes_of_allowed hallowed hclash
    rw [readExpr_of_lexTokens hts, readExpr_of_lexTokens (Spaced.lexTokens_apart _), htokens,
      Spaced.significant_tokens]

end

theorem isWord_letter (c : Char) (h : c.toNat < 128 ∧ c.isAlpha = true ∧ c.isDigit = false) :
    IsWord R [c] := by
  obtain ⟨hascii, hletter, hdigit⟩ := h
  refine ⟨?_, List.cons_ne_nil _ _, ?_⟩
  · intro d hd
    cases List.mem_singleton.mp hd
    rw [isWord_ascii R hascii, Char.isAlphanum, hletter]
    rfl
  · rintro d ⟨⟩
    refine ⟨?_, hdigit⟩
    rintro rfl
    exact absurd hletter (by decide)

/-- `a - b`, in which blanks and comments may stand anywhere and nowhere. -/
theorem readExpr_spacing_difference :
    let R : Reading ℚ := Reading.ascii exactF64
    let a : Lexeme R := .word ['a'] (isWord_letter 'a' (by decide))
    let b : Lexeme R := .word ['b'] (isWord_letter 'b' (by decide))
    ∀ l : Spaced R, l.lexemes = [a, .symbol .minus "-" rfl, b] → Spaced.Allowed none l →
      readExpr R l.text = some (.infixExpr .minus (.identExpr "a") (.identExpr "b")) := by
  intro R a b l hl hallowed
  have hread : readExpr R (Spaced.apart [a, .symbol .minus "-" rfl, b]).text =
      some (.infixExpr .minus (.identExpr "a") (.identExpr "b")) := by
    rw [readExpr_of_lexTokens (Spaced.lexTokens_apart _), Spaced.significant_tokens]
    have hrun : (parseExprEof R).run [.ident "a", .minus, .ident "b", .eof] = _ :=
      parseExprEof_sequence Empty.elim
        (c := .step ⟨[.ident "a"], .identExpr "a"⟩ ⟨.minus, .PSum, .left, .minus, rfl⟩
          (.last ⟨[.ident "b"], .identExpr "b"⟩))
        ⟨.ident "a" (by decide) _, .ident "b" (by decide) _⟩
    exact congrArg answer hrun
  rw [← hread]
  refine (readExpr_spacing_iff (by rw [hread]; rfl)).mpr ?_ l hl hallowed
  rintro (h | h | h) <;> exact h

/-- A minus is part of the number after it. -/
example : lexTokens (Reading.ascii exactF64) ['a', '-', '1'] =
    .ok [.ident "a", .intLiteral (-1)] := rfl

end Armour.Lang.Parser
