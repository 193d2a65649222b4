import Armour.Lang.Lexemes
import Armour.Lang.Parser

/-! # Blanks around operators

A text as lexemes with gaps of blanks and comments between them.  A gap next to an operator may
be closed unless the two lexemes make one word or one number.
-/

namespace Armour.Lang.Parser

open Armour.Lib Parse

variable {F : Type} {R : Reading F}

/-! ## Lexemes -/

/-- The number is the token. -/
structure IsNumber (R : Reading F) (n : Numeral) (t : Token F) : Prop where
  read : n.read R = .ok t
  head : ¬(n.text.head? = some '.' ∧ 'e' ∉ n.text)
  plus : n.sg = ['+'] → Text.parseI64 (String.ofList n.text) = none

inductive Lexeme (R : Reading F) where
  | word (w : List Char) (h : IsWord R w)
  | number (n : Numeral) (t : Token F) (h : IsNumber R n t)
  | fraction (d : Digits) (i : Int64) (h : Text.parseI64 (String.ofList d.chars) = some i)
  | string (b : List Char) (h : IsBody b)
  | data (b : List Char) (h : IsBody b)
  | label (b : List Char) (l : Label) (hb : '\x27' ∉ b)
      (h : Label.fromStr (String.ofList b) = .ok l)
  | symbol (t : Token F) (s : String) (h : t.symbol = some s)

namespace Lexeme

def text : Lexeme R → List Char
  | word w _ => w
  | number n _ _ => n.text
  | fraction d _ _ => '.' :: d.chars
  | string b _ => '\x22' :: (b ++ ['\x22'])
  | data b _ => 'b' :: '\x22' :: (b ++ ['\x22'])
  | label b _ _ _ => '\x27' :: (b ++ ['\x27'])
  | symbol _ s _ => s.toList

def tokens : Lexeme R → List (Token F)
  | word w _ => [parseReserved (String.ofList w)]
  | number _ t _ => [t]
  | fraction _ i _ => [.dot, .intLiteral i]
  | string b _ => [.stringLiteral (unescape (String.ofList b))]
  | data b _ => [.dataLiteral (unescape (String.ofList b)).toUTF8.toList]
  | label _ l _ _ => [.labelLiteral l]
  | symbol t _ _ => [t]

/-- An operator after the lexeme is an infix one. -/
def EndsOperand : Lexeme R → Prop
  | word w _ =>
      match parseReserved (F := F) (String.ofList w) with
      | .ident _ | .boolLiteral _ | .someTok => True
      | _ => False
  | symbol t _ _ => t = .rParen ∨ t = .rBracket ∨ t = .rBrace
  | _ => True

end Lexeme

/-- The first two lexemes stay apart with no gap between them, in front of the rest: they make
neither one word nor one number nor another operator.  A sign is part of a number unless an
operand is before it, and so is a dot. -/
def Loose (before : Option (Lexeme R)) (u v : Lexeme R) (rest : List Char) : Prop :=
  match u with
  | .word w _ => (∀ c ∈ v.text.head?, R.isWord c = false) ∧
      (w = ['b'] → v.text.head? ≠ some '\x22')
  | .number n _ _ => n.Stays (v.text ++ rest)
  | .fraction d _ _ => d.numeral.Stays (v.text ++ rest)
  | .symbol t _ _ =>
      match v with
      | .symbol t' s' _ => t.Apart s'.toList ∧ (t = .plus ∨ t = .minus → t' = .dot → Ended rest)
      | .number n _ _ =>
          (t = .minus → n.sg = [] → ∃ w ∈ before, w.EndsOperand) ∧
            (t = .dot → n.sg = [] ∧ n.Whole ∧ ∃ w ∈ before, w.EndsOperand)
      | .fraction _ _ _ => t = .minus → ∃ w ∈ before, w.EndsOperand
      | _ => True
  | _ => True

/-- Without a gap the lexer reads the two in another way: an operator that is also a sign is
taken for the one of the number after it, and a dot for a point. -/
def Clash (before : Option (Lexeme R)) (u v : Lexeme R) : Prop :=
  match u, v with
  | .symbol .minus _ _, .number n _ _ => n.sg = [] ∧ ∃ w ∈ before, w.EndsOperand
  | .symbol .minus _ _, .fraction _ _ _ => ∃ w ∈ before, w.EndsOperand
  | .symbol .plus _ _, .number n t _ => n.sg = ['+'] ∨ n.sg = [] ∧ ∀ i, t ≠ .intLiteral i
  | .symbol .plus _ _, .fraction _ _ _ => True
  | .number n t _, .symbol .dot _ _ => n.Whole ∧ (n.sg ≠ [] ∨ ∀ i, t ≠ .intLiteral i)
  | _, _ => False

/-- Two lexemes next to each other clash. -/
def Clashes : Option (Lexeme R) → List (Lexeme R) → Prop
  | before, u :: v :: us => Clash before u v ∨ Clashes (some u) (v :: us)
  | _, _ => False

/-! ## Texts -/

/-- Blanks, and comments to the end of their lines. -/
inductive Filler : List Char → Prop where
  | nil : Filler []
  | blank {c : Char} (hc : isBlank c = true) {g : List Char} (hg : Filler g) : Filler (c :: g)
  | comment {s : List Char} (hs : ∀ c ∈ s, c ≠ '\n' ∧ c ≠ '\r') {g : List Char} (hg : Filler g) :
      Filler ('/' :: '/' :: (s ++ '\n' :: g))

/-- A gap is empty or begins with a blank. -/
structure IsGap (g : List Char) : Prop where
  filler : Filler g
  head : ∀ c ∈ g.head?, isBlank c = true

/-- Lexemes, with the gaps after them. -/
abbrev Spaced (R : Reading F) := List (Lexeme R × List Char)

namespace Spaced

def text : Spaced R → List Char
  | [] => []
  | (u, g) :: l => u.text ++ (g ++ text l)

def lexemes (l : Spaced R) : List (Lexeme R) := l.map Prod.fst

/-- A blank after every lexeme. -/
def apart (us : List (Lexeme R)) : Spaced R := us.map (fun u => (u, [' ']))

/-- Gaps are closed between lexemes that stay apart only. -/
def Allowed : Option (Lexeme R) → Spaced R → Prop
  | _, [] => True
  | _, [(u, g)] => IsGap g ∧ (g = [] → ∀ t s h, u = .symbol t s h → t.second = none)
  | before, (u, g) :: (v, g') :: l =>
      IsGap g ∧ (g = [] → Loose before u v (g' ++ text l)) ∧ Allowed (some u) ((v, g') :: l)

end Spaced

/-- What a parse of everything answers. -/
def answer {τ α : Type} : Option (Except Fault α × List τ) → Option α
  | some (.ok a, []) => some a
  | _ => none

/-- The expression that the text is, if it is accepted. -/
noncomputable def readExpr [DecidableEq F] (R : Reading F) (s : List Char) : Option (Expr F) :=
  match lex R (String.ofList s) with
  | .ok ts => answer ((parseExprEof R).run ts)
  | .error _ => none

/-! ## Lexing one lexeme -/

/-- What comes after the lexeme leaves it as it is. -/
def Lexeme.Free : Lexeme R → List Char → Prop
  | .word w _, rest => (∀ c ∈ rest.head?, R.isWord c = false) ∧
      (w = ['b'] → rest.head? ≠ some '\x22')
  | .number n t _, rest => n.Stays rest ∧
      (n.Whole → rest.head? = some '.' → n.sg = [] ∧ ∃ i, t = .intLiteral i)
  | .fraction d _ _, rest => d.numeral.Stays rest
  | .symbol t s _, rest => lexToken R (s.toList ++ rest) = .ok (t, rest)
  | _, _ => True

namespace Lexeme

/-- A lexeme does not begin with a blank. -/
theorem text_cons (u : Lexeme R) : ∃ c p, u.text = c :: p ∧ isBlank c = false := by
  cases u with
  | word w h =>
      cases w with
      | nil => exact absurd rfl h.ne_nil
      | cons c p => exact ⟨c, p, rfl, isBlank_of_isWord (h.word c List.mem_cons_self)⟩
  | number n t h => exact n.head_not_blank
  | fraction d i h => exact ⟨'.', _, rfl, by decide⟩
  | string b h => exact ⟨'\x22', _, rfl, by decide⟩
  | data b h => exact ⟨'b', _, rfl, by decide⟩
  | label b l hb h => exact ⟨'\x27', _, rfl, by decide⟩
  | symbol t s h =>
      obtain ⟨c, p, hcp, -, hblank, -⟩ := symbol_head h
      exact ⟨c, p, hcp, hblank⟩

theorem lexes_of_token {u : Lexeme R} {t : Token F} {rest : List Char}
    (h : lexToken R (u.text ++ rest) = .ok (t, rest)) : LexesAs R u.text [t] rest := by
  obtain ⟨c, p, hcp, hc⟩ := u.text_cons
  rw [hcp] at h ⊢
  exact LexesAs.token hc h

end Lexeme

theorem IsNumber.lex {n : Numeral} {t : Token F} (h : IsNumber R n t) {rest : List Char}
    (hstays : n.Stays rest)
    (hpoint : n.Whole → rest.head? = some '.' → n.sg = [] ∧ ∃ i, t = .intLiteral i) :
    lexNumber R (n.text ++ rest) = .ok (t, rest) := by
  by_cases hdot : n.Whole ∧ rest.head? = some '.'
  · obtain ⟨hwhole, hhead⟩ := hdot
    obtain ⟨hsg, i, rfl⟩ := hpoint hwhole hhead
    obtain ⟨r, rfl⟩ := List.head?_eq_some_iff.mp hhead
    obtain ⟨d, hm, htext⟩ := n.whole_digits hwhole
    have hparse := n.parse_of_read h.read
    rw [htext, hsg, List.nil_append] at hparse ⊢
    rw [lexNumber_point d (hstays.point hwhole r rfl), hparse]
  · have hstops : n.Stops rest :=
      ⟨hstays.ended, fun hwhole hhead => hdot ⟨hwhole, hhead⟩, hstays.exponent⟩
    rw [lexNumber_numeral n hstops h.head h.plus, h.read]
    rfl

theorem Digits.isNumber {d : Digits} {i : Int64}
    (h : Text.parseI64 (String.ofList d.chars) = some i) :
    IsNumber R d.numeral (.intLiteral i) := by
  have htext : d.numeral.text = d.chars := List.append_nil _
  refine ⟨?_, ?_, nofun⟩
  · unfold Numeral.read
    rw [htext, h]
  · rintro ⟨hhead, -⟩
    rw [htext, ← List.append_nil d.chars] at hhead
    exact head_ne d.isDigit [] d.ne_nil (by decide) hhead

namespace Lexeme

theorem lexes {u : Lexeme R} {rest : List Char} (h : u.Free rest) :
    LexesAs R u.text u.tokens rest := by
  cases u with
  | word w hw => exact lexes_of_token (lexToken_word hw h.1 h.2)
  | number n t ht => exact lexes_of_token (alt_of_ok (ht.lex h.1 h.2))
  | fraction d i hi =>
      have hdot : LexesAs R ['.'] [.dot] (d.chars ++ rest) :=
        LexesAs.token (c := '.') (p := []) (by decide)
          (alt_of_ok (lexNumber_fraction d h.ended (h.exponent rfl)))
      have hnumber := (Digits.isNumber (R := R) hi).lex h (fun _ _ => ⟨rfl, i, rfl⟩)
      have hdigits : LexesAs R d.numeral.text [.intLiteral i] rest :=
        lexes_of_token (u := .number d.numeral _ (Digits.isNumber hi)) (alt_of_ok hnumber)
      rw [show d.numeral.text = d.chars from List.append_nil _] at hdigits
      exact hdot.append hdigits
  | string b hb =>
      refine lexes_of_token (u := .string b hb) ?_
      show lexToken R ('\x22' :: (b ++ ['\x22'] ++ rest)) = _
      rw [List.append_assoc]
      exact lexToken_string hb rest
  | data b hb =>
      refine lexes_of_token (u := .data b hb) ?_
      show lexToken R ('b' :: '\x22' :: (b ++ ['\x22'] ++ rest)) = _
      rw [List.append_assoc]
      exact lexToken_data hb rest
  | label b l hb hl =>
      refine lexes_of_token (u := .label b l hb hl) ?_
      show lexToken R ('\x27' :: (b ++ ['\x27'] ++ rest)) = _
      rw [List.append_assoc]
      exact lexToken_label hb hl rest
  | symbol t s hs => exact lexes_of_token (u := .symbol t s hs) h

/-- An operator in front of what makes it neither another one nor a number. -/
theorem free_symbol {t : Token F} {s : String} {hs : t.symbol = some s} {rest : List Char}
    (hapart : t.Apart rest)
    (hsign : t = .plus ∨ t = .minus → lexNumber R (s.toList ++ rest) = .error .error)
    (hdot : t = .dot → lexToken R ('.' :: rest) = .ok (.dot, rest)) :
    (symbol (R := R) t s hs).Free rest := by
  by_cases ht : t = .dot
  · subst ht
    cases hs
    exact hdot rfl
  · refine lexToken_symbol hs hapart (fun h => ?_)
    rcases h with h | h | h
    · exact hsign (Or.inl h)
    · exact hsign (Or.inr h)
    · exact absurd h ht

theorem lexToken_dot {rest : List Char} (h : Ended rest) :
    lexToken R ('.' :: rest) = .ok (.dot, rest) :=
  lexToken_symbol (t := .dot) (s := ".") rfl nofun
    (fun _ => lexNumber_of_mantissa (s := '.' :: rest) (mantissa_dot h))

theorem free_of_blank (u : Lexeme R) {c : Char} (hc : isBlank c = true) (s : List Char) :
    u.Free (c :: s) := by
  have hne : ∀ d : Char, isBlank d = false → c ≠ d := by
    rintro d hd rfl
    rw [hc] at hd
    cases hd
  have hdigit : c.isDigit = false := by
    simp only [isBlank, Bool.or_eq_true, decide_eq_true_eq] at hc
    rcases hc with ((rfl | rfl) | rfl) | rfl <;> decide
  have hended : Ended (c :: s) := by
    rintro d ⟨⟩
    exact hdigit
  have hstays : ∀ n : Numeral, n.Stays (c :: s) := by
    refine fun n => ⟨hended, fun _ => ⟨?_, ?_⟩, ?_⟩
    · rintro ⟨⟩
      exact hne 'e' (by decide) rfl
    · rintro ⟨⟩
      exact hne 'E' (by decide) rfl
    · rintro _ r ⟨⟩
      exact absurd rfl (hne '.' (by decide))
  cases u with
  | word w h =>
      refine ⟨?_, ?_⟩
      · rintro d ⟨⟩
        refine Bool.eq_false_iff.mpr (fun hw => ?_)
        rw [isBlank_of_isWord hw] at hc
        cases hc
      · rintro - ⟨⟩
        exact hne '\x22' (by decide) rfl
  | number n t h =>
      refine ⟨hstays n, ?_⟩
      rintro - ⟨⟩
      exact absurd rfl (hne '.' (by decide))
  | fraction d i h => exact hstays _
  | string b h => trivial
  | data b h => trivial
  | label b l hb h => trivial
  | symbol t s' h =>
      have hsecond : ∀ d ∈ t.second, isBlank d = false := by
        intro d hd
        cases t <;> cases hd <;> decide
      refine free_symbol (fun d hd => ⟨List.cons_ne_nil _ _, ?_⟩) (fun ht => ?_)
        (fun _ => lexToken_dot hended)
      · exact fun heq => hne d (hsecond d hd) (Option.some.inj heq)
      · have hmantissa : mantissa (c :: s) = none := by
          refine mantissa_of_head ?_
          rintro d ⟨⟩
          exact ⟨hdigit, hne '.' (by decide)⟩
        rcases ht with rfl | rfl <;> cases h <;> exact lexNumber_of_mantissa hmantissa

/-- At the end of the text no second character of an operator may be missed. -/
theorem free_nil (u : Lexeme R) (h : ∀ t s hs, u = .symbol t s hs → t.second = none) :
    u.Free [] := by
  have hstays : ∀ n : Numeral, n.Stays [] :=
    fun n => ⟨nofun, fun _ => ⟨nofun, nofun⟩, nofun⟩
  cases u with
  | word w hw => exact ⟨nofun, fun _ => nofun⟩
  | number n t hn => exact ⟨hstays n, fun _ => nofun⟩
  | fraction d i hi => exact hstays _
  | symbol t s hs =>
      have hsecond := h t s hs rfl
      refine free_symbol (fun d hd => ?_) (fun ht => ?_) (fun _ => lexToken_dot nofun)
      · rw [hsecond] at hd
        cases hd
      · rcases ht with rfl | rfl <;> cases hsecond
  | _ => trivial

end Lexeme

/-! ## Lexing two lexemes -/

namespace Lexeme

theorem head_append (v : Lexeme R) (rest : List Char) :
    (v.text ++ rest).head? = v.text.head? := by
  obtain ⟨c, p, hcp, -⟩ := v.text_cons
  rw [hcp]
  rfl

/-- An operator in front of a character that begins no number. -/
theorem free_symbol_of_head {t : Token F} {s : String} {hs : t.symbol = some s} {c : Char}
    {r : List Char} (hdigit : c.isDigit = false) (hdot : c ≠ '.') (hsecond : t.second ≠ some c) :
    (symbol (R := R) t s hs).Free (c :: r) := by
  have hmantissa : mantissa (c :: r) = none := by
    refine mantissa_of_head ?_
    rintro d ⟨⟩
    exact ⟨hdigit, hdot⟩
  refine free_symbol (fun d hd => ⟨List.cons_ne_nil _ _, ?_⟩) (fun ht => ?_)
    (fun _ => lexToken_dot ?_)
  · rintro ⟨⟩
    exact hsecond hd
  · rcases ht with rfl | rfl <;> cases hs <;> exact lexNumber_of_mantissa hmantissa
  · rintro d ⟨⟩
    exact hdigit

/-- A lexeme that begins with a dot is one, or goes on with a digit. -/
theorem dot_of_head {v : Lexeme R} (h : v.text.head? = some '.') :
    (∃ s hs, v = .symbol .dot s hs) ∨ ∃ c p, v.text = '.' :: c :: p ∧ c.isDigit = true := by
  have hdigits : ∀ (d : Digits) (s : List Char), ∃ c p, d.chars ++ s = c :: p ∧
      c.isDigit = true := by
    rintro ⟨_ | ⟨c, cs⟩, hne, hds⟩ s
    · exact absurd rfl hne
    · exact ⟨c, cs ++ s, rfl, hds c List.mem_cons_self⟩
  cases v with
  | word w hw =>
      exact absurd rfl (ne_of_isWord (hw.word '.' (List.mem_of_mem_head? h)) (by decide)
        (by decide))
  | number n t ht =>
      obtain ⟨sg, m, e, hsg, hm, he, hlast⟩ := n
      rcases hsg with rfl | rfl | rfl
      · cases hm with
        | whole d => exact absurd h (head_ne d.isDigit e d.ne_nil (by decide))
        | @decimal d fs hfs =>
            have htext : d.chars ++ '.' :: fs ++ e = d.chars ++ ('.' :: fs ++ e) :=
              List.append_assoc _ _ _
            have hhead : (d.chars ++ ('.' :: fs ++ e)).head? = some '.' := htext ▸ h
            exact absurd hhead (head_ne d.isDigit _ d.ne_nil (by decide))
        | fraction d =>
            obtain ⟨c, p, hcp, hc⟩ := hdigits d e
            exact Or.inr ⟨c, p, congrArg ('.' :: ·) hcp, hc⟩
      · cases h
      · cases h
  | fraction d i hi =>
      obtain ⟨c, p, hcp, hc⟩ := hdigits d []
      rw [List.append_nil] at hcp
      exact Or.inr ⟨c, p, congrArg ('.' :: ·) hcp, hc⟩
  | string b hb => cases h
  | data b hb => cases h
  | label b l hb hl => cases h
  | symbol t s hs =>
      obtain ⟨c, p, hcp, -, -, -, -, -, -, -, -, hdot⟩ := symbol_head hs
      rw [text, hcp] at h
      cases h
      cases hdot rfl
      exact Or.inl ⟨s, hs, rfl⟩

/-- The second characters of operators, none of which begins a word, a digit or a literal. -/
theorem second_cases {t : Token F} {c : Char} (h : t.second = some c) :
    c.toNat < 128 ∧ (c.isAlphanum || c = '_') = false ∧ c ≠ '.' ∧ c ≠ '\x22' ∧ c ≠ 'b' ∧
      c ≠ '\x27' ∧ c ≠ '-' ∧ (c = '+' → t = .plus) := by
  cases t <;> cases h <;> simp

/-- An operator in front of a number. -/
theorem free_before_number {before : Option (Lexeme R)} {t t' : Token F} {s : String}
    {hs : t.symbol = some s} {n : Numeral} {hn : IsNumber R n t'} {rest : List Char}
    (h : Loose before (.symbol t s hs) (.number n t' hn) rest)
    (hclash : ¬Clash before (.symbol t s hs) (.number n t' hn)) (hstays : n.Stays rest) :
    (symbol (R := R) t s hs).Free (n.text ++ rest) := by
  obtain ⟨c, p, hcp, hblank⟩ := n.head_not_blank
  by_cases hdot : t = .dot
  · subst hdot
    obtain ⟨hsg, hwhole, -⟩ := h.2 rfl
    obtain ⟨d, hm, htext⟩ := n.whole_digits hwhole
    cases hs
    rw [htext, hsg]
    exact alt_of_ok (lexNumber_fraction d hstays.ended (hstays.exponent hwhole.2))
  · rcases n.isSign with hsg | hsg | hsg
    · have hminus : t ≠ .minus := by
        rintro rfl
        exact hclash ⟨hsg, h.1 rfl hsg⟩
      have hhead : ∀ d ∈ t.second, (n.text ++ rest).head? ≠ some d := by
        intro d hd heq
        obtain ⟨-, hword, hpoint, -⟩ := second_cases hd
        obtain ⟨c', p', hcp', hc'⟩ := n.head_cases
        rw [Numeral.text, hsg, List.nil_append, hcp'] at heq
        cases heq
        rcases hc' with hc' | hc'
        · rw [Char.isAlphanum, hc', Bool.or_true] at hword
          cases hword
        · exact hpoint hc'
      refine free_symbol (fun d hd => ⟨by rw [hcp]; exact List.cons_ne_nil _ _, hhead d hd⟩)
        (fun ht => ?_) (fun ht => absurd ht hdot)
      rcases ht with rfl | rfl
      · cases hs
        by_cases hint : ∃ i, t' = .intLiteral i
        · obtain ⟨i, rfl⟩ := hint
          exact lexNumber_plus hsg hn.read hstays
        · exact absurd (Or.inr ⟨hsg, fun i hi => hint ⟨i, hi⟩⟩) hclash
      · exact absurd rfl hminus
    · have hplus : t ≠ .plus := by
        rintro rfl
        exact hclash (Or.inl hsg)
      have htext : n.text = '+' :: (n.m ++ n.e) := by rw [Numeral.text, hsg]; rfl
      rw [htext]
      refine free_symbol_of_head (by decide) (by decide) (fun hsecond => ?_)
      exact hplus ((second_cases hsecond).2.2.2.2.2.2.2 rfl)
    · have htext : n.text = '-' :: (n.m ++ n.e) := by rw [Numeral.text, hsg]; rfl
      rw [htext]
      refine free_symbol_of_head (by decide) (by decide) (fun hsecond => ?_)
      exact (second_cases hsecond).2.2.2.2.2.2.1 rfl

/-- What follows the lexeme, if that is a number, does not go on with it. -/
def Stays : Lexeme R → List Char → Prop
  | number n _ _, rest => n.Stays rest
  | _, _ => True

theorem free_of_loose {before : Option (Lexeme R)} {u v : Lexeme R} {rest : List Char}
    (h : Loose before u v rest) (hclash : ¬Clash before u v) (hv : v.Stays rest) :
    u.Free (v.text ++ rest) := by
  cases u with
  | word w hw =>
      refine ⟨?_, ?_⟩
      · rw [v.head_append]
        exact h.1
      · rw [v.head_append]
        exact h.2
  | number n t ht =>
      refine ⟨h, fun hwhole hhead => ?_⟩
      rw [v.head_append] at hhead
      rcases dot_of_head hhead with ⟨s, hs, rfl⟩ | ⟨c, p, hcp, hc⟩
      · by_contra hneg
        refine hclash ⟨hwhole, ?_⟩
        by_contra hsigned
        rw [not_or] at hsigned
        refine hneg ⟨not_not.mp hsigned.1, ?_⟩
        by_contra hint
        exact hsigned.2 (fun i hi => hint ⟨i, hi⟩)
      · have hended := (Numeral.Stays.point h hwhole (c :: p ++ rest) (by rw [hcp]; rfl)).1
        rw [hended c rfl] at hc
        cases hc
  | fraction d i hi => exact h
  | string b hb => trivial
  | data b hb => trivial
  | label b l hb hl => trivial
  | symbol t s hs =>
      have hplain : ∀ {c : Char} {p : List Char}, v.text = c :: p → c.isDigit = false →
          c ≠ '.' → t.second ≠ some c → (symbol (R := R) t s hs).Free (v.text ++ rest) := by
        intro c p hcp hdigit hdot hsecond
        rw [hcp]
        exact free_symbol_of_head hdigit hdot hsecond
      cases v with
      | word w hw =>
          cases w with
          | nil => exact absurd rfl hw.ne_nil
          | cons c p =>
              have hc := hw.word c List.mem_cons_self
              refine hplain rfl (hw.head c rfl).2 (ne_of_isWord hc (by decide) (by decide))
                (fun hsecond => ?_)
              obtain ⟨hascii, hword, -⟩ := second_cases hsecond
              exact ne_of_isWord hc hascii hword rfl
      | number n t' ht' => exact free_before_number h hclash hv
      | fraction d i hi =>
          refine free_symbol (fun d' hd' => ⟨List.cons_ne_nil _ _, ?_⟩) (fun ht => ?_)
            (fun _ => ?_)
          · rintro ⟨⟩
            exact (second_cases hd').2.2.1 rfl
          · rcases ht with rfl | rfl
            · exact absurd trivial hclash
            · exact absurd (h rfl) hclash
          · refine lexToken_dot ?_
            rintro c ⟨⟩
            decide
      | string b hb =>
          exact hplain rfl (by decide) (by decide) (fun hs => (second_cases hs).2.2.2.1 rfl)
      | data b hb =>
          exact hplain rfl (by decide) (by decide) (fun hs => (second_cases hs).2.2.2.2.1 rfl)
      | label b l hb hl =>
          exact hplain rfl (by decide) (by decide) (fun hs => (second_cases hs).2.2.2.2.2.1 rfl)
      | symbol t' s' hs' =>
          obtain ⟨c, p, hcp, hdigit, -, -, -, -, -, -, -, hdot⟩ := symbol_head hs'
          obtain ⟨hapart, hpoint⟩ := h
          by_cases hc : c = '.'
          · cases hdot hc
            cases hs'
            refine free_symbol (fun d hd => ⟨List.cons_ne_nil _ _, (hapart d hd).2⟩)
              (fun ht => ?_) (fun _ => lexToken_dot (by rintro d ⟨⟩; decide))
            have hmantissa : mantissa ('.' :: rest) = none := mantissa_dot (hpoint ht rfl)
            rcases ht with rfl | rfl <;> cases hs <;> exact lexNumber_of_mantissa hmantissa
          · refine hplain hcp hdigit hc (fun hsecond => (hapart c hsecond).2 ?_)
            rw [hcp]
            rfl

end Lexeme

/-! ## Lexing texts -/

theorem lexToken_comment {s : List Char} (hs : ∀ c ∈ s, c ≠ '\n' ∧ c ≠ '\r') (rest : List Char) :
    lexToken R ('/' :: '/' :: (s ++ '\n' :: rest)) =
      .ok (.comment (String.ofList s), '\n' :: rest) := by
  have hline : ∀ s : List Char, (∀ c ∈ s, c ≠ '\n' ∧ c ≠ '\r') →
      notLineEnding (s ++ '\n' :: rest) = some (s, '\n' :: rest) := by
    intro s hs
    induction s with
    | nil => rfl
    | cons c s ih =>
        have hc := hs c List.mem_cons_self
        show notLineEnding (c :: (s ++ '\n' :: rest)) = _
        rw [notLineEnding, ih (fun d hd => hs d (List.mem_cons_of_mem _ hd))]
        · rfl
        · exact fun h => hc.1 h
        · exact fun _ h => absurd h hc.2
        · exact fun h => hc.2 h
  have hoperator : lexOperator (F := F) ('/' :: '/' :: (s ++ '\n' :: rest)) =
      .ok (.comment (String.ofList s), '\n' :: rest) := by
    show lexSlash ('/' :: (s ++ '\n' :: rest)) = _
    rw [lexSlash, hline s hs]
  have hident : lexReservedIdent R ('/' :: '/' :: (s ++ '\n' :: rest)) = .error .error := by
    refine lexReservedIdent_fails (Or.inl ?_)
    rw [isWord_ascii R (by decide)]
    decide
  exact (alt_of_error (lexNumber_fails (by decide) (by decide) (fun h => absurd h (by decide)))).trans <|
    (alt_of_error (lexString_fails (by decide) (fun h => absurd h (by decide)))).trans <|
    (alt_of_error (lexLabel_fails (by decide))).trans <|
    (alt_of_error hident).trans (alt_of_ok hoperator)

/-- A gap is read as comments. -/
theorem Filler.lexes {g : List Char} (h : Filler g) (rest : List Char) :
    ∃ cs : List (Token F), (∀ t ∈ cs, isComment t = true) ∧ LexesAs R g cs rest := by
  induction h with
  | nil => exact ⟨[], nofun, LexesAs.nil rest⟩
  | @blank c hc g hg ih =>
      obtain ⟨cs, hcs, hlexes⟩ := ih
      have hblank : LexesAs R [c] [] (g ++ rest) :=
        LexesAs.blanks (List.forall_mem_singleton.mpr hc) _
      exact ⟨cs, hcs, hblank.append hlexes⟩
  | @comment s hs g hg ih =>
      obtain ⟨cs, hcs, hlexes⟩ := ih
      have hline : LexesAs R ['\n'] [] (g ++ rest) :=
        LexesAs.blanks (List.forall_mem_singleton.mpr (by decide)) _
      have htoken : LexesAs R ('/' :: '/' :: s) [.comment (String.ofList s)]
          ('\n' :: g ++ rest) :=
        LexesAs.token (by decide) (lexToken_comment hs _)
      refine ⟨.comment (String.ofList s) :: cs, ?_, htoken.append (hline.append hlexes)⟩
      exact List.forall_mem_cons.mpr ⟨rfl, hcs⟩

/-- A number is an integer or a floating-point literal. -/
theorem Numeral.literal_of_read {n : Numeral} {t : Token F} (h : n.read R = .ok t) :
    (∃ i, t = .intLiteral i) ∨ ∃ f, t = .floatLiteral f := by
  unfold Numeral.read at h
  split at h
  · cases h
    exact Or.inl ⟨_, rfl⟩
  · split at h
    · cases h
      exact Or.inr ⟨_, rfl⟩
    · cases h

namespace Lexeme

theorem not_comment (u : Lexeme R) : ∀ t ∈ u.tokens, isComment t = false := by
  intro t ht
  cases u with
  | word w hw =>
      cases List.mem_singleton.mp ht
      unfold parseReserved
      split <;> rfl
  | number n t' hn =>
      cases List.mem_singleton.mp ht
      rcases Numeral.literal_of_read hn.read with ⟨i, rfl⟩ | ⟨f, rfl⟩ <;> rfl
  | fraction d i hi =>
      rcases List.mem_cons.mp ht with rfl | ht
      · rfl
      · cases List.mem_singleton.mp ht
        rfl
  | symbol t' s hs =>
      cases List.mem_singleton.mp ht
      cases t <;> first | rfl | cases hs
  | _ =>
      cases List.mem_singleton.mp ht
      rfl

end Lexeme

/-- The tokens that the parser is given. -/
def significant (ts : List (Token F)) : List (Token F) := ts.filter (fun t => !isComment t)

theorem Lexeme.significant_tokens (u : Lexeme R) : significant u.tokens = u.tokens := by
  refine List.filter_eq_self.mpr (fun t ht => ?_)
  simp [u.not_comment t ht]

namespace Spaced

def tokens (us : List (Lexeme R)) : List (Token F) := us.flatMap Lexeme.tokens

theorem significant_tokens (us : List (Lexeme R)) : significant (tokens us) = tokens us := by
  refine List.filter_eq_self.mpr (fun t ht => ?_)
  obtain ⟨u, -, ht⟩ := List.mem_flatMap.mp ht
  simp [u.not_comment t ht]

theorem lexes_cons {u : Lexeme R} {g s : List Char} {ts : List (Token F)}
    (hu : u.Free (g ++ s)) (hg : Filler g) (hs : lexTokens R s = .ok ts) :
    ∃ ts', lexTokens R (u.text ++ (g ++ s)) = .ok ts' ∧
      significant ts' = u.tokens ++ significant ts := by
  obtain ⟨cs, hcs, hlexes⟩ := hg.lexes (R := R) s
  refine ⟨u.tokens ++ (cs ++ ts), ?_, ?_⟩
  · rw [Lexeme.lexes hu, hlexes, hs]
    rfl
  · have hnone : cs.filter (fun t => !isComment t) = [] := by
      refine List.filter_eq_nil_iff.mpr (fun t ht => ?_)
      simp [hcs t ht]
    have hall : significant u.tokens = u.tokens := u.significant_tokens
    unfold significant at *
    rw [List.filter_append, List.filter_append, hnone, hall, List.nil_append]

theorem text_append (l m : Spaced R) : text (l ++ m) = text l ++ text m := by
  induction l with
  | nil => rfl
  | cons p l ih =>
      show p.1.text ++ (p.2 ++ text (l ++ m)) = p.1.text ++ (p.2 ++ text l) ++ text m
      rw [ih, List.append_assoc, List.append_assoc]

theorem lexemes_apart (us : List (Lexeme R)) : lexemes (apart us) = us := by
  unfold lexemes apart
  rw [List.map_map]
  exact List.map_id us

theorem isGap_blank : IsGap [' '] := by
  refine ⟨.blank (by decide) .nil, ?_⟩
  rintro c ⟨⟩
  decide

theorem isGap_nil : IsGap [] := ⟨.nil, nofun⟩

theorem Allowed.cons {before : Option (Lexeme R)} {u : Lexeme R} {l : Spaced R}
    (h : Allowed (some u) l) : Allowed before ((u, [' ']) :: l) := by
  cases l with
  | nil => exact ⟨isGap_blank, nofun⟩
  | cons p l => exact ⟨isGap_blank, nofun, h⟩

theorem allowed_apart (before : Option (Lexeme R)) (us : List (Lexeme R)) :
    Allowed before (apart us) := by
  induction us generalizing before with
  | nil => trivial
  | cons u us ih => exact (ih (some u)).cons

/-- A number that is not loose from what follows is followed by a gap. -/
theorem stays_of_allowed {before : Option (Lexeme R)} {v : Lexeme R} {g : List Char}
    {l : Spaced R} (h : Allowed before ((v, g) :: l)) : v.Stays (g ++ text l) := by
  cases v with
  | number n t hn =>
      have hgap : ∀ {c : Char} {g' : List Char}, IsGap (c :: g') → n.Stays (c :: g' ++ text l) :=
        fun hg => ((Lexeme.number n t hn).free_of_blank (hg.head _ rfl) _).1
      cases l with
      | nil =>
          cases g with
          | nil => exact ⟨nofun, fun _ => ⟨nofun, nofun⟩, nofun⟩
          | cons c g => exact hgap h.1
      | cons w l =>
          cases g with
          | nil => exact h.2.1 rfl
          | cons c g => exact hgap h.1
  | _ => trivial

/-- Without clashes a text is read as its lexemes, whatever the gaps. -/
theorem lexes_of_allowed {before : Option (Lexeme R)} {l : Spaced R} (h : Allowed before l)
    (hclash : ¬Clashes before l.lexemes) :
    ∃ ts, lexTokens R (text l) = .ok ts ∧ significant ts = tokens l.lexemes := by
  induction l generalizing before with
  | nil => exact ⟨[], rfl, rfl⟩
  | cons p l ih =>
      obtain ⟨u, g⟩ := p
      have hgap : ∀ {c : Char} {g' : List Char}, IsGap (c :: g') → u.Free (c :: g' ++ text l) :=
        fun hg => u.free_of_blank (hg.head _ rfl) _
      cases l with
      | nil =>
          have hu : u.Free (g ++ []) := by
            cases g with
            | nil => exact u.free_nil (h.2 rfl)
            | cons c g => exact hgap h.1
          obtain ⟨ts, hts, htokens⟩ := lexes_cons hu h.1.filler (lexTokens_nil R)
          exact ⟨ts, hts, htokens⟩
      | cons q l =>
          obtain ⟨v, g'⟩ := q
          have hclash' : ¬Clash before u v ∧ ¬Clashes (some u) (v :: lexemes l) :=
            not_or.mp hclash
          obtain ⟨ts, hts, htokens⟩ := ih h.2.2 hclash'.2
          have hu : u.Free (g ++ text ((v, g') :: l)) := by
            cases g with
            | nil =>
                exact Lexeme.free_of_loose (h.2.1 rfl) hclash'.1 (stays_of_allowed h.2.2)
            | cons c g => exact hgap h.1
          obtain ⟨ts', hts', htokens'⟩ := lexes_cons hu h.1.filler hts
          refine ⟨ts', hts', ?_⟩
          rw [htokens', htokens]
          rfl

/-- With a blank after every lexeme there is nothing to clash. -/
theorem lexes_apart (us : List (Lexeme R)) (rest : List Char) :
    LexesAs R (text (apart us)) (tokens us) rest := by
  induction us with
  | nil => exact LexesAs.nil rest
  | cons u us ih =>
      have hblank : LexesAs R [' '] [] (text (apart us) ++ rest) :=
        LexesAs.blanks (List.forall_mem_singleton.mpr (by decide)) _
      have hu : LexesAs R u.text u.tokens ([' '] ++ text (apart us) ++ rest) :=
        Lexeme.lexes (u.free_of_blank (by decide) _)
      exact hu.append (hblank.append ih)

theorem lexTokens_apart (us : List (Lexeme R)) :
    lexTokens R (text (apart us)) = .ok (tokens us) := by
  have hlexes : lexTokens R (text (apart us) ++ []) = _ := lexes_apart us []
  rw [List.append_nil] at hlexes
  rw [hlexes]
  show Except.ok (tokens us ++ []) = _
  rw [List.append_nil]

end Spaced

end Armour.Lang.Parser
