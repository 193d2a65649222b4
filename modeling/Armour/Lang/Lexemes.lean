import Armour.Lang.Digits

/-! # Lexemes

What the lexer makes of a text whose first part is a word, a number, a literal in quotation marks
or an operator, by what comes after that part.
-/

namespace Armour.Lang.Parser

open Armour.Lib

variable {F : Type} {R : Reading F}

/-! ## Parts of a text -/

theorem lexTokens_multispace0 (R : Reading F) (s : List Char) :
    lexTokens R (multispace0 s) = lexTokens R s := by
  have hidem : multispace0 (multispace0 s) = multispace0 s := by
    refine multispace0_of_head (fun c hc => ?_)
    have h := List.head?_dropWhile_not isBlank s
    unfold multispace0 at hc
    rw [hc] at h
    simpa using h
  rw [lexTokens_eq R (multispace0 s), lexTokens_eq R s, hidem]

/-- In front of the rest, the part is read as the tokens. -/
def LexesAs (R : Reading F) (part : List Char) (ts : List (Token F)) (rest : List Char) : Prop :=
  lexTokens R (part ++ rest) = (lexTokens R rest).map (ts ++ ·)

theorem LexesAs.nil (rest : List Char) : LexesAs R [] [] rest := by
  show lexTokens R rest = (lexTokens R rest).map (fun ts => ts)
  cases lexTokens R rest <;> rfl

theorem LexesAs.append {p q : List Char} {ts us : List (Token F)} {rest : List Char}
    (hp : LexesAs R p ts (q ++ rest)) (hq : LexesAs R q us rest) :
    LexesAs R (p ++ q) (ts ++ us) rest := by
  unfold LexesAs at *
  rw [List.append_assoc, hp, hq]
  cases lexTokens R rest with
  | error e => rfl
  | ok vs => exact congrArg Except.ok (List.append_assoc _ _ _).symm

theorem LexesAs.blanks {p : List Char} (h : ∀ c ∈ p, isBlank c = true) (rest : List Char) :
    LexesAs R p [] rest := by
  have hdrop : multispace0 (p ++ rest) = multispace0 rest :=
    List.dropWhile_append_of_pos h
  show lexTokens R (p ++ rest) = _
  rw [← lexTokens_multispace0, hdrop, lexTokens_multispace0]
  exact LexesAs.nil rest

theorem LexesAs.token {c : Char} {p rest : List Char} {t : Token F} (hc : isBlank c = false)
    (h : lexToken R (c :: p ++ rest) = .ok (t, rest)) : LexesAs R (c :: p) [t] rest := by
  have hhead : multispace0 (c :: p ++ rest) = c :: p ++ rest := by
    refine multispace0_of_head ?_
    rintro d ⟨⟩
    exact hc
  show lexTokens R (c :: p ++ rest) = _
  have htoken : lexToken R (multispace0 (c :: p ++ rest)) = .ok (t, rest) := by
    rw [hhead]
    exact h
  rw [lexTokens_of_token htoken, lexTokens_multispace0]
  rfl

/-- A panic at the part is one of the lexer. -/
theorem lexTokens_of_panic {c : Char} {s : List Char} {msg : String} (hc : isBlank c = false)
    (h : lexToken R (c :: s) = .error (.panic msg)) :
    lexTokens R (c :: s) = .error (.panic msg) := by
  have hhead : multispace0 (c :: s) = c :: s := by
    refine multispace0_of_head ?_
    rintro d ⟨⟩
    exact hc
  rw [lexTokens_eq, hhead, h]

/-! ## Numbers -/

/-- A number that the lexer takes as a whole. -/
structure Numeral where
  sg : List Char
  m : List Char
  e : List Char
  isSign : sg = [] ∨ sg = ['+'] ∨ sg = ['-']
  isMantissa : IsMantissa m
  isExponent : IsExponent e
  last : (sg ++ (m ++ e)).getLast? ≠ some '.'

namespace Numeral

def text (n : Numeral) : List Char := n.sg ++ (n.m ++ n.e)

/-- Digits alone, after the sign. -/
def Whole (n : Numeral) : Prop := '.' ∉ n.m ∧ n.e = []

instance (n : Numeral) : Decidable n.Whole :=
  inferInstanceAs (Decidable ('.' ∉ n.m ∧ n.e = []))

/-- The rest does not go on with the number. -/
def Stops (n : Numeral) (rest : List Char) : Prop :=
  Ended rest ∧ (n.Whole → rest.head? ≠ some '.') ∧
    (n.e = [] → rest.head? ≠ some 'e' ∧ rest.head? ≠ some 'E')

end Numeral

theorem exponent_of_head {s : List Char} (h : s.head? ≠ some 'e' ∧ s.head? ≠ some 'E') :
    exponent s = some ([], s) := by
  cases s with
  | nil => rfl
  | cons c s =>
      rw [exponent, if_neg]
      rintro (rfl | rfl)
      · exact h.1 rfl
      · exact h.2 rfl

theorem IsExponent.run_append {e s : List Char} (h : IsExponent e) (hne : e ≠ []) (hs : Ended s) :
    exponent (e ++ s) = some (e, s) := by
  cases h with
  | absent => exact absurd rfl hne
  | @present c hc sg hsg ds =>
      have hsign : sign (sg ++ ds.chars ++ s) = (sg, ds.chars ++ s) := by
        rcases hsg with rfl | rfl | rfl
        · exact (IsMantissa.whole ds).sign
        · rfl
        · rfl
      have hdigits : digits (ds.chars ++ s) = (ds.chars, s) := digits_of_all ds.isDigit hs
      show exponent (c :: (sg ++ ds.chars ++ s)) = _
      rw [exponent, if_pos hc, hsign]
      dsimp only
      rw [hdigits]
      split
      · rename_i heq
        exact absurd (congrArg Prod.fst heq) ds.ne_nil
      · rename_i heq
        cases heq
        rfl

/-- A mantissa with a dot ends where its digits end. -/
theorem IsMantissa.run_dot {m s : List Char} (h : IsMantissa m) (hs : Ended s) (hdot : '.' ∈ m) :
    mantissa (m ++ s) = some (m, s) := by
  cases h with
  | whole n => exact absurd rfl (ne_of_isDigit (n.isDigit _ hdot) (by decide))
  | @decimal n fs hfs =>
      rw [List.append_assoc, List.cons_append]
      exact mantissa_decimal n hfs hs
  | fraction d => exact mantissa_fraction d hs

theorem Numeral.recognize (n : Numeral) {rest : List Char} (h : n.Stops rest) :
    recognizeFloat (n.text ++ rest) = some (n.text, rest) := by
  obtain ⟨sg, m, e, hsg, hm, he, hlast⟩ := n
  obtain ⟨hended, hdot, hexp⟩ := h
  have hmantissa : mantissa (m ++ (e ++ rest)) = some (m, e ++ rest) := by
    by_cases hne : e = []
    · rw [hne, List.nil_append]
      by_cases hmem : '.' ∈ m
      · exact hm.run_dot hended hmem
      · exact hm.run hended (hdot ⟨hmem, hne⟩)
    · have hhead : (e ++ rest).head? = e.head? := List.head?_append_of_ne_nil _ hne
      refine hm.run ?_ ?_
      · unfold Ended
        rw [hhead]
        exact he.ended.1
      · rw [hhead]
        exact he.ended.2
  have hexponent : exponent (e ++ rest) = some (e, rest) := by
    by_cases hne : e = []
    · rw [hne]
      exact exponent_of_head (hexp hne)
    · exact he.run_append hne hended
  have htext : sg ++ (m ++ e) ++ rest = sg ++ (m ++ (e ++ rest)) := by
    rw [List.append_assoc, List.append_assoc]
  show recognizeFloat (sg ++ (m ++ e) ++ rest) = some (sg ++ (m ++ e), rest)
  unfold recognizeFloat
  rw [htext, sign_mantissa hsg hm]
  dsimp only
  rw [hmantissa]
  show (exponent (e ++ rest) >>= _) = _
  rw [hexponent]
  show some (sg ++ m ++ e, rest) = _
  rw [List.append_assoc]

theorem Numeral.ne_nil (n : Numeral) : n.m ++ n.e ≠ [] := by
  obtain ⟨sg, m, e, hsg, hmantissa, he, hlast⟩ := n
  have hm : m ≠ [] := by
    cases hmantissa with
    | whole d => exact d.ne_nil
    | decimal d hfs => exact List.append_ne_nil_of_right_ne_nil _ (List.cons_ne_nil _ _)
    | fraction d => exact List.cons_ne_nil _ _
  exact List.append_ne_nil_of_left_ne_nil hm _

/-- There is no other sign after the one of a number. -/
theorem Numeral.head (n : Numeral) :
    (n.m ++ n.e).head? ≠ some '+' ∧ (n.m ++ n.e).head? ≠ some '-' := by
  have hdigits : ∀ (d : Digits) (s : List Char) {c : Char}, c.isDigit = false →
      (d.chars ++ s).head? ≠ some c := fun d s c hc => head_ne d.isDigit s d.ne_nil hc
  obtain ⟨sg, m, e, hsg, hm, he, hlast⟩ := n
  cases hm with
  | whole d => exact ⟨hdigits d _ (by decide), hdigits d _ (by decide)⟩
  | decimal d hfs =>
      dsimp only
      rw [List.append_assoc]
      exact ⟨hdigits d _ (by decide), hdigits d _ (by decide)⟩
  | fraction d => exact ⟨nofun, nofun⟩

/-- The text of an `i64` is digits after a sign. -/
theorem parseI64_signed {sg w : List Char} {i : Int64}
    (hsg : sg = [] ∨ sg = ['+'] ∨ sg = ['-'])
    (hw : w.head? ≠ some '+' ∧ w.head? ≠ some '-')
    (h : Text.parseI64 (String.ofList (sg ++ w)) = some i) : ∀ c ∈ w, c.isDigit = true := by
  have hdigits : ∀ {p : Nat → Bool} {f : Int → Int64},
      (((Text.parseDigits w).filter p).bind (fun n => some (n : Int))).map f = some i →
        ∀ c ∈ w, c.isDigit = true := by
    intro p f h
    obtain ⟨_, hn, -⟩ := Option.map_eq_some_iff.mp h
    obtain ⟨v, hv, -⟩ := Option.bind_eq_some_iff.mp hn
    have hparse := (Option.filter_eq_some_iff.mp hv).1
    unfold Text.parseDigits at hparse
    split_ifs at hparse with hall
    exact List.all_eq_true.mp (Bool.and_eq_true_iff.mp hall).2
  unfold Text.parseI64 at h
  rw [String.toList_ofList] at h
  rcases hsg with rfl | rfl | rfl
  · rw [List.nil_append] at h
    split at h
    · exact absurd rfl hw.2
    · exact absurd rfl hw.1
    · exact hdigits h
  · exact hdigits (p := (· < 2 ^ 63)) h
  · exact hdigits (p := (· ≤ 2 ^ 63)) h

/-- What the lexer reads a number as. -/
def Numeral.read (R : Reading F) (n : Numeral) : Except Fault (Token F) :=
  match Text.parseI64 (String.ofList n.text) with
  | some i => .ok (.intLiteral i)
  | none =>
      match R.parseF64 (String.ofList n.text) with
      | some f => .ok (.floatLiteral f)
      | none => .error (.panic "called `Result::unwrap()` on an `Err` value")

theorem lexNumber_numeral (n : Numeral) {rest : List Char} (h : n.Stops rest)
    (hhead : ¬(n.text.head? = some '.' ∧ 'e' ∉ n.text))
    (hplus : n.sg = ['+'] → Text.parseI64 (String.ofList n.text) = none) :
    lexNumber R (n.text ++ rest) = (n.read R).map (fun t => (t, rest)) := by
  unfold lexNumber
  rw [n.recognize h]
  dsimp only
  rw [if_neg (show n.text.getLast? ≠ some '.' from n.last), if_neg hhead]
  unfold Numeral.read
  cases hparse : Text.parseI64 (String.ofList n.text) with
  | none =>
      dsimp only
      cases R.parseF64 (String.ofList n.text) <;> rfl
  | some i =>
      have hdigit := parseI64_signed n.isSign n.head hparse
      have hdigits : digits (n.m ++ n.e ++ rest) = (n.m ++ n.e, rest) :=
        digits_of_all hdigit h.1
      have hskip : skipDigits (.intLiteral i : Token F) (n.m ++ n.e ++ rest) =
          .ok (.intLiteral i, rest) := by
        unfold skipDigits
        rw [hdigits]
        cases hme : n.m ++ n.e with
        | nil => exact absurd hme n.ne_nil
        | cons c cs => rfl
      have htext : n.text ++ rest = n.sg ++ (n.m ++ n.e ++ rest) := List.append_assoc _ _ _
      dsimp only
      rcases n.isSign with hsg | hsg | hsg
      · have hne : (n.m ++ n.e ++ rest).head? ≠ some '-' := by
          rw [List.head?_append_of_ne_nil _ n.ne_nil]
          exact n.head.2
        rw [htext, hsg, List.nil_append, if_neg hne, hskip]
        rfl
      · rw [hplus hsg] at hparse
        cases hparse
      · rw [htext, hsg]
        exact hskip

theorem mantissa_of_head {s : List Char} (h : ∀ c ∈ s.head?, c.isDigit = false ∧ c ≠ '.') :
    mantissa s = none := by
  have hdigits : digits s = ([], s) := by
    have hd : digits ([] ++ s) = ([], s) := digits_of_all nofun (fun c hc => (h c hc).1)
    exact hd
  unfold mantissa
  rw [hdigits]
  cases s with
  | nil => rfl
  | cons c s =>
      split
      · rename_i heq
        cases heq
        exact absurd rfl (h '.' rfl).2
      · rfl
      · rename_i hne heq
        cases heq
        exact absurd rfl (hne)
      · rename_i hne _ heq
        cases heq
        exact absurd rfl hne

/-- No number begins with the character. -/
theorem lexNumber_fails {c : Char} {s : List Char} (hc : c.isDigit = false) (hdot : c ≠ '.')
    (hsign : c = '+' ∨ c = '-' → ∀ d ∈ s.head?, d.isDigit = false ∧ d ≠ '.') :
    lexNumber R (c :: s) = .error .error := by
  have hmantissa : mantissa (sign (c :: s)).2 = none := by
    by_cases hplus : c = '+'
    · rw [hplus]
      exact mantissa_of_head (hsign (Or.inl hplus))
    · by_cases hminus : c = '-'
      · rw [hminus]
        exact mantissa_of_head (hsign (Or.inr hminus))
      · have hs : sign (c :: s) = ([], c :: s) := by
          unfold sign
          split
          · rename_i heq
            cases heq
            exact absurd rfl hplus
          · rename_i heq
            cases heq
            exact absurd rfl hminus
          · rfl
        rw [hs]
        refine mantissa_of_head ?_
        rintro d ⟨⟩
        exact ⟨hc, hdot⟩
  have hfloat : recognizeFloat (c :: s) = none := by
    unfold recognizeFloat
    rw [hmantissa]
    rfl
  unfold lexNumber
  rw [hfloat]

theorem alt_of_error {l : List Char → Lexed F} {ls : List (List Char → Lexed F)} {s : List Char}
    (h : l s = .error .error) : alt (l :: ls) s = alt ls s := by
  rw [alt, h]

theorem alt_of_ok {l : List Char → Lexed F} {ls : List (List Char → Lexed F)} {s : List Char}
    {r : Token F × List Char} (h : l s = .ok r) : alt (l :: ls) s = .ok r := by
  rw [alt, h]

/-! ## Signs and dots next to numbers -/

/-- The number of a fraction's digits. -/
def Digits.numeral (d : Digits) : Numeral where
  sg := []
  m := d.chars
  e := []
  isSign := Or.inl rfl
  isMantissa := .whole d
  isExponent := .absent
  last h := by
    rw [List.nil_append, List.append_nil] at h
    exact absurd (d.isDigit _ (List.mem_of_getLast? h)) (by decide)

/-- What comes after the number is no further part of it. -/
structure Numeral.Stays (n : Numeral) (rest : List Char) : Prop where
  ended : Ended rest
  exponent : n.e = [] → rest.head? ≠ some 'e' ∧ rest.head? ≠ some 'E'
  point : n.Whole → ∀ r, rest = '.' :: r →
    Ended r ∧ r.head? ≠ some 'e' ∧ r.head? ≠ some 'E'

theorem Numeral.whole_digits {n : Numeral} (h : n.Whole) :
    ∃ d : Digits, n.m = d.chars ∧ n.text = n.sg ++ d.chars := by
  obtain ⟨sg, m, e, hsg, hm, he, hlast⟩ := n
  obtain ⟨hdot, hexp⟩ := h
  cases hm with
  | whole d =>
      refine ⟨d, rfl, ?_⟩
      cases hexp
      show sg ++ (d.chars ++ []) = _
      rw [List.append_nil]
  | decimal d hfs => exact absurd (List.mem_append_right _ List.mem_cons_self) hdot
  | fraction d => exact absurd List.mem_cons_self hdot

/-- After its sign a number begins with a digit or a dot. -/
theorem Numeral.head_cases (n : Numeral) :
    ∃ c p, n.m ++ n.e = c :: p ∧ (c.isDigit = true ∨ c = '.') := by
  have hdigits : ∀ (d : Digits) (s : List Char), ∃ c p, d.chars ++ s = c :: p ∧
      (c.isDigit = true ∨ c = '.') := by
    rintro ⟨_ | ⟨c, cs⟩, hne, hds⟩ s
    · exact absurd rfl hne
    · exact ⟨c, cs ++ s, rfl, Or.inl (hds c List.mem_cons_self)⟩
  obtain ⟨sg, m, e, hsg, hm, he, hlast⟩ := n
  cases hm with
  | whole d => exact hdigits d e
  | @decimal d fs hfs =>
      dsimp only
      rw [List.append_assoc]
      exact hdigits d _
  | fraction d => exact ⟨'.', _, rfl, Or.inr rfl⟩

theorem Numeral.head_not_blank (n : Numeral) :
    ∃ c p, n.text = c :: p ∧ isBlank c = false := by
  obtain ⟨c, p, hcp, hc⟩ := n.head_cases
  unfold Numeral.text
  rcases n.isSign with hsg | hsg | hsg
  · refine ⟨c, p, by rw [hsg, hcp]; rfl, Bool.eq_false_iff.mpr (fun hblank => ?_)⟩
    simp only [isBlank, Bool.or_eq_true, decide_eq_true_eq] at hblank
    rcases hblank with ((rfl | rfl) | rfl) | rfl <;> exact absurd hc (by decide)
  · exact ⟨'+', _, by rw [hsg]; rfl, by decide⟩
  · exact ⟨'-', _, by rw [hsg]; rfl, by decide⟩

/-- A number with a sign in front of it, which has none. -/
def Numeral.signed (n : Numeral) (sg : List Char) (h : sg = [] ∨ sg = ['+'] ∨ sg = ['-']) :
    Numeral where
  sg := sg
  m := n.m
  e := n.e
  isSign := h
  isMantissa := n.isMantissa
  isExponent := n.isExponent
  last := by
    have hlast := n.last
    rwa [List.getLast?_append_of_ne_nil _ n.ne_nil] at hlast ⊢

theorem Numeral.stops_of_blank (n : Numeral) {c : Char} (hc : isBlank c = true) (s : List Char) :
    n.Stops (c :: s) := by
  have hne : ∀ d : Char, isBlank d = false → (c :: s).head? ≠ some d := by
    rintro d hd ⟨⟩
    rw [hc] at hd
    cases hd
  refine ⟨?_, fun _ => hne '.' (by decide), fun _ => ⟨hne 'e' (by decide), hne 'E' (by decide)⟩⟩
  rintro d ⟨⟩
  simp only [isBlank, Bool.or_eq_true, decide_eq_true_eq] at hc
  rcases hc with ((rfl | rfl) | rfl) | rfl <;> decide

/-- A number that is an integer is one of the `i64`s. -/
theorem Numeral.parse_of_read {n : Numeral} {i : Int64} (h : n.read R = .ok (.intLiteral i)) :
    Text.parseI64 (String.ofList n.text) = some i := by
  unfold Numeral.read at h
  split at h
  · cases h
    assumption
  · split at h
    · cases h
    · cases h

/-- A number that is an integer has neither a point nor an exponent. -/
theorem Numeral.whole_of_read {n : Numeral} {i : Int64} (h : n.read R = .ok (.intLiteral i)) :
    n.Whole := by
  have hdigits := parseI64_signed n.isSign n.head (n.parse_of_read h)
  refine ⟨fun hdot => ?_, ?_⟩
  · exact absurd (hdigits '.' (List.mem_append_left _ hdot)) (by decide)
  · obtain ⟨sg, m, e, hsg, hm, he, hlast⟩ := n
    cases he with
    | absent => rfl
    | @present c hc sg' hsg' ds =>
        have hdigit := hdigits c (List.mem_append_right _ List.mem_cons_self)
        rcases hc with rfl | rfl <;> exact absurd hdigit (by decide)

/-- No number begins with the sign or the dot. -/
theorem lexNumber_of_mantissa {s : List Char} (h : mantissa (sign s).2 = none) :
    lexNumber R s = .error .error := by
  have hfloat : recognizeFloat s = none := by
    unfold recognizeFloat
    rw [h]
    rfl
  unfold lexNumber
  rw [hfloat]

theorem mantissa_dot {rest : List Char} (h : Ended rest) : mantissa ('.' :: rest) = none := by
  have hdot : digits ('.' :: rest) = ([], '.' :: rest) := rfl
  have hdigits : digits ([] ++ rest) = ([], rest) := digits_of_all nofun h
  rw [List.nil_append] at hdigits
  simp only [mantissa, hdot, hdigits]

/-- A dot before digits is a token of its own. -/
theorem lexNumber_fraction (d : Digits) {rest : List Char} (h : Ended rest)
    (hexp : rest.head? ≠ some 'e' ∧ rest.head? ≠ some 'E') :
    lexNumber R ('.' :: (d.chars ++ rest)) = .ok (.dot, d.chars ++ rest) := by
  have hfloat : recognizeFloat ('.' :: (d.chars ++ rest)) = some ('.' :: d.chars, rest) := by
    unfold recognizeFloat
    show (mantissa ('.' :: (d.chars ++ rest)) >>= _) = _
    rw [mantissa_fraction d h]
    show (exponent rest >>= _) = _
    rw [exponent_of_head hexp]
    show some ('.' :: d.chars ++ [], rest) = _
    rw [List.append_nil]
  have hlast : ('.' :: d.chars).getLast? ≠ some '.' := by
    intro hlast
    rw [List.getLast?_cons_of_ne_nil d.ne_nil] at hlast
    exact absurd (d.isDigit _ (List.mem_of_getLast? hlast)) (by decide)
  have hletter : 'e' ∉ '.' :: d.chars := by
    intro hmem
    rcases List.mem_cons.mp hmem with heq | hmem
    · cases heq
    · exact absurd (d.isDigit _ hmem) (by decide)
  unfold lexNumber
  rw [hfloat]
  dsimp only
  rw [if_neg hlast, if_pos ⟨rfl, hletter⟩]
  rfl

/-- Whole digits before a dot that is not their point. -/
theorem recognize_point {sg : List Char} (hsg : sg = [] ∨ sg = ['+'] ∨ sg = ['-']) (d : Digits)
    {r : List Char} (hr : Ended r ∧ r.head? ≠ some 'e' ∧ r.head? ≠ some 'E') :
    recognizeFloat (sg ++ (d.chars ++ '.' :: r)) = some (sg ++ (d.chars ++ ['.']), r) := by
  have hnone : ∀ c ∈ ([] : List Char), c.isDigit = true := nofun
  have hmantissa : mantissa (d.chars ++ '.' :: r) = some (d.chars ++ ['.'], r) :=
    mantissa_decimal d hnone hr.1
  have hsign : sign (sg ++ (d.chars ++ '.' :: r)) = (sg, d.chars ++ '.' :: r) := by
    rcases hsg with rfl | rfl | rfl
    · exact (IsMantissa.whole d).sign
    · rfl
    · rfl
  unfold recognizeFloat
  rw [hsign]
  dsimp only
  rw [hmantissa]
  show (exponent r >>= _) = _
  rw [exponent_of_head hr.2]
  show some (sg ++ (d.chars ++ ['.']) ++ [], r) = _
  rw [List.append_nil]

/-- The lexer reads them as an integer, or panics. -/
theorem lexNumber_point (d : Digits) {r : List Char}
    (hr : Ended r ∧ r.head? ≠ some 'e' ∧ r.head? ≠ some 'E') :
    lexNumber R (d.chars ++ '.' :: r) =
      match Text.parseI64 (String.ofList d.chars) with
      | some i => .ok (.intLiteral i, '.' :: r)
      | none => .error (.panic "called `Result::unwrap()` on an `Err` value") := by
  have hfloat := recognize_point (Or.inl rfl) d hr
  have hlast : (d.chars ++ ['.']).getLast? = some '.' := List.getLast?_concat
  have hminus : (d.chars ++ ['.']).head? ≠ some '-' := head_ne d.isDigit _ d.ne_nil (by decide)
  have hdot : Ended ('.' :: r) := by
    rintro c ⟨⟩
    decide
  have hdigits : digits (d.chars ++ '.' :: r) = (d.chars, '.' :: r) := digits_of_all d.isDigit hdot
  rw [List.nil_append, List.nil_append] at hfloat
  unfold lexNumber
  rw [hfloat]
  dsimp only
  rw [if_pos hlast, if_neg hminus, hdigits]
  obtain ⟨_ | ⟨c, cs⟩, hne, _⟩ := d
  · exact absurd rfl hne
  · rfl

/-- A plus in front of digits does not change the number. -/
theorem parseI64_plus {w : List Char} (hw : w.head? ≠ some '+' ∧ w.head? ≠ some '-') :
    Text.parseI64 (String.ofList ('+' :: w)) = Text.parseI64 (String.ofList w) := by
  unfold Text.parseI64
  rw [String.toList_ofList, String.toList_ofList]
  cases w with
  | nil => rfl
  | cons c w =>
      split
      · rename_i heq
        cases heq
      · rename_i heq
        cases heq
        split
        · rename_i heq
          cases heq
          exact absurd rfl hw.2
        · rename_i heq
          cases heq
          exact absurd rfl hw.1
        · rfl
      · rename_i hne
        exact absurd rfl (hne (c :: w))

/-- A plus before whole digits is an operator. -/
theorem lexNumber_plus {n : Numeral} {i : Int64} (hsg : n.sg = [])
    (hread : n.read R = .ok (.intLiteral i)) {rest : List Char} (h : n.Stays rest) :
    lexNumber R ('+' :: (n.text ++ rest)) = .error .error := by
  have hwhole := n.whole_of_read hread
  obtain ⟨d, hm, htext⟩ := n.whole_digits hwhole
  have hparse := n.parse_of_read hread
  rw [htext, hsg, List.nil_append] at hparse ⊢
  by_cases hdot : rest.head? = some '.'
  · obtain ⟨r, rfl⟩ := List.head?_eq_some_iff.mp hdot
    have hfloat := recognize_point (Or.inr (Or.inl rfl)) d (h.point hwhole r rfl)
    have hlast : (['+'] ++ (d.chars ++ ['.'])).getLast? = some '.' := by
      rw [← List.append_assoc, List.getLast?_concat]
    show lexNumber R (['+'] ++ (d.chars ++ '.' :: r)) = _
    unfold lexNumber
    rw [hfloat]
    dsimp only
    rw [if_pos hlast, if_neg (show (['+'] ++ (d.chars ++ ['.'])).head? ≠ some '-' from nofun)]
    rfl
  · have hstops : (d.numeral.signed ['+'] (Or.inr (Or.inl rfl))).Stops rest :=
      ⟨h.ended, fun _ => hdot, fun _ => h.exponent hwhole.2⟩
    have hfloat := Numeral.recognize _ hstops
    have hsigned : (d.numeral.signed ['+'] (Or.inr (Or.inl rfl))).text = '+' :: d.chars :=
      congrArg ('+' :: ·) (List.append_nil _)
    have hlast : ('+' :: d.chars).getLast? ≠ some '.' := by
      rw [← hsigned]
      exact Numeral.last _
    have hplus : Text.parseI64 (String.ofList ('+' :: d.chars)) = some i := by
      rw [parseI64_plus, hparse]
      rw [← List.append_nil d.chars]
      exact ⟨head_ne d.isDigit _ d.ne_nil (by decide), head_ne d.isDigit _ d.ne_nil (by decide)⟩
    rw [hsigned] at hfloat
    show lexNumber R ('+' :: d.chars ++ rest) = _
    unfold lexNumber
    rw [hfloat]
    dsimp only
    rw [if_neg hlast, if_neg (fun hp => nomatch hp.1), hplus]
    rfl

/-! ## Words -/

theorem isWord_ascii (R : Reading F) {c : Char} (h : c.toNat < 128) :
    R.isWord c = (c.isAlphanum || c = '_') := by
  unfold Reading.isWord
  rw [R.alphanumeric_ascii c h]

theorem ne_of_isWord {c d : Char} (hc : R.isWord c = true) (hd : d.toNat < 128)
    (hword : (d.isAlphanum || d = '_') = false) : c ≠ d := by
  rintro rfl
  rw [isWord_ascii R hd, hword] at hc
  cases hc

theorem isBlank_of_isWord {c : Char} (h : R.isWord c = true) : isBlank c = false := by
  refine Bool.eq_false_iff.mpr (fun hc => ?_)
  simp only [isBlank, Bool.or_eq_true, decide_eq_true_eq] at hc
  rcases hc with ((rfl | rfl) | rfl) | rfl <;>
    exact absurd rfl (ne_of_isWord h (by decide) (by decide))

/-- An identifier or a reserved word. -/
structure IsWord (R : Reading F) (w : List Char) : Prop where
  word : ∀ c ∈ w, R.isWord c = true
  ne_nil : w ≠ []
  head : ∀ c ∈ w.head?, c ≠ '_' ∧ c.isDigit = false

theorem lexString_fails {c : Char} {s : List Char} (hc : c ≠ '\x22')
    (hb : c = 'b' → s.head? ≠ some '\x22') : lexString (F := F) (c :: s) = .error .error := by
  unfold lexString
  split
  · rename_i heq
    cases heq
    exact absurd rfl (hb rfl)
  · rename_i heq
    cases heq
    exact absurd rfl hc
  · rfl

theorem lexLabel_fails {c : Char} {s : List Char} (hc : c ≠ '\x27') :
    lexLabel (F := F) (c :: s) = .error .error := by
  unfold lexLabel
  split
  · rename_i heq
    cases heq
    exact absurd rfl hc
  · rfl

theorem lexReservedIdent_fails {c : Char} {s : List Char}
    (hc : R.isWord c = false ∨ c = '_') : lexReservedIdent R (c :: s) = .error .error := by
  unfold lexReservedIdent
  rcases hc with hc | rfl
  · rw [List.takeWhile_cons_of_neg (by simp [hc])]
  · have hword : R.isWord '_' = true := by
      rw [isWord_ascii R (by decide)]
      decide
    rw [List.takeWhile_cons_of_pos hword]
    rfl

theorem lexToken_word {w rest : List Char} (hw : IsWord R w)
    (hrest : ∀ c ∈ rest.head?, R.isWord c = false)
    (hb : w = ['b'] → rest.head? ≠ some '\x22') :
    lexToken R (w ++ rest) = .ok (parseReserved (String.ofList w), rest) := by
  have htake : (w ++ rest).takeWhile R.isWord = w := by
    rw [List.takeWhile_append_of_pos hw.word]
    cases rest with
    | nil => simp
    | cons c rest => rw [List.takeWhile_cons_of_neg (by simp [hrest c rfl]), List.append_nil]
  have hdrop : (w ++ rest).dropWhile R.isWord = rest := by
    rw [List.dropWhile_append_of_pos hw.word]
    cases rest with
    | nil => rfl
    | cons c rest => exact List.dropWhile_cons_of_neg (by simp [hrest c rfl])
  have hident : lexReservedIdent R (w ++ rest) =
      .ok (parseReserved (String.ofList w), rest) := by
    unfold lexReservedIdent
    rw [htake, hdrop]
    split
    · exact absurd rfl hw.ne_nil
    · exact absurd rfl (hw.head '_' rfl).1
    · rfl
  cases w with
  | nil => exact absurd rfl hw.ne_nil
  | cons c cs =>
      have hc : R.isWord c = true := hw.word c List.mem_cons_self
      have hquote : c ≠ '\x22' := ne_of_isWord hc (by decide) (by decide)
      have hnumber : lexNumber R (c :: (cs ++ rest)) = .error .error := by
        refine lexNumber_fails (hw.head c rfl).2 (ne_of_isWord hc (by decide) (by decide)) ?_
        rintro (h | h)
        · exact absurd h (ne_of_isWord hc (by decide) (by decide))
        · exact absurd h (ne_of_isWord hc (by decide) (by decide))
      have hstring : lexString (F := F) (c :: (cs ++ rest)) = .error .error := by
        refine lexString_fails hquote (fun hcb => ?_)
        cases cs with
        | nil => exact hb (by rw [hcb])
        | cons d cs =>
            have hd : R.isWord d = true := hw.word d (List.mem_cons_of_mem _ List.mem_cons_self)
            intro h
            exact absurd (Option.some.inj h) (ne_of_isWord hd (by decide) (by decide))
      have hlabel : lexLabel (F := F) (c :: (cs ++ rest)) = .error .error :=
        lexLabel_fails (ne_of_isWord hc (by decide) (by decide))
      exact (alt_of_error hnumber).trans <| (alt_of_error hstring).trans <|
        (alt_of_error hlabel).trans (alt_of_ok hident)

/-! ## Operators -/

/-- The tokens of operators and punctuation. -/
def Token.symbol : Token F → Option String
  | .atTok => some "@"
  | .questionMark => some "?"
  | .dot => some "."
  | .underscore => some "_"
  | .multiply => some "*"
  | .percent => some "%"
  | .comma => some ","
  | .semiColon => some ";"
  | .lParen => some "("
  | .rParen => some ")"
  | .lBrace => some "\x7b"
  | .rBrace => some "\x7d"
  | .lBracket => some "["
  | .rBracket => some "]"
  | .plus => some "+"
  | .plusPlus => some "++"
  | .colon => some ":"
  | .colonColon => some "::"
  | .divide => some "/"
  | .bar => some "|"
  | .or => some "||"
  | .and => some "&&"
  | .minus => some "-"
  | .arrow => some "->"
  | .lessThan => some "<"
  | .lessThanEqual => some "<="
  | .greaterThan => some ">"
  | .greaterThanEqual => some ">="
  | .assign => some "="
  | .equal => some "=="
  | .not => some "!"
  | .notEqual => some "!="
  | _ => none

/-- The character that makes another token of an operator. -/
def Token.second : Token F → Option Char
  | .plus => some '+'
  | .colon => some ':'
  | .divide => some '/'
  | .bar => some '|'
  | .minus => some '>'
  | .lessThan => some '='
  | .greaterThan => some '='
  | .assign => some '='
  | .not => some '='
  | _ => none

/-- The rest leaves the operator as it is: one that a second character may follow is not at the
end of the text. -/
def Token.Apart (t : Token F) (rest : List Char) : Prop :=
  ∀ c ∈ t.second, rest ≠ [] ∧ rest.head? ≠ some c

theorem lexOption_short {second : Char} {long short : Token F} {rest : List Char}
    (h : rest ≠ [] ∧ rest.head? ≠ some second) :
    lexOption second long short rest = .ok (short, rest) := by
  cases rest with
  | nil => exact absurd rfl h.1
  | cons c rest =>
      rw [lexOption, if_neg]
      rintro rfl
      exact h.2 rfl

theorem lexSlash_short {rest : List Char} (h : rest ≠ [] ∧ rest.head? ≠ some '/') :
    lexSlash (F := F) rest = .ok (.divide, rest) := by
  cases rest with
  | nil => exact absurd rfl h.1
  | cons c rest =>
      unfold lexSlash
      split
      · rename_i heq
        cases heq
      · rename_i heq
        cases heq
        exact absurd rfl h.2
      · rfl

theorem lexOperator_symbol {t : Token F} {cs : String} {rest : List Char}
    (h : t.symbol = some cs) (hrest : t.Apart rest) :
    lexOperator (cs.toList ++ rest) = .ok (t, rest) := by
  cases t <;> cases h <;> first
    | rfl
    | exact lexOption_short (hrest _ rfl)
    | exact lexSlash_short (hrest _ rfl)

/-- The first character of an operator. -/
theorem symbol_head {t : Token F} {cs : String} (h : t.symbol = some cs) :
    ∃ c s, cs.toList = c :: s ∧ c.isDigit = false ∧ isBlank c = false ∧ c ≠ '\x22' ∧ c ≠ 'b' ∧
      c ≠ '\x27' ∧ c.toNat < 128 ∧ ((c.isAlphanum || c = '_') = false ∨ c = '_') ∧
      (c = '+' ∨ c = '-' → t = .plus ∨ t = .minus ∨ t = .plusPlus ∨ t = .arrow) ∧
      (c = '.' → t = .dot) := by
  cases t <;> cases h <;> refine ⟨_, _, rfl, ?_⟩ <;> simp <;> decide

theorem lexToken_symbol {t : Token F} {s : String} {rest : List Char} (h : t.symbol = some s)
    (hrest : t.Apart rest)
    (hnumber : t = .plus ∨ t = .minus ∨ t = .dot →
      lexNumber R (s.toList ++ rest) = .error .error) :
    lexToken R (s.toList ++ rest) = .ok (t, rest) := by
  have hoperator := lexOperator_symbol h hrest
  obtain ⟨c, q, hcs, hdigit, -, hquote, hb, hlabel, hascii, hword, hsign, hdot⟩ := symbol_head h
  have hnumber' : lexNumber R (s.toList ++ rest) = .error .error := by
    by_cases hdot' : c = '.'
    · exact hnumber (Or.inr (Or.inr (hdot hdot')))
    · by_cases hsigned : c = '+' ∨ c = '-'
      · rcases hsign hsigned with rfl | rfl | rfl | rfl
        · exact hnumber (Or.inl rfl)
        · exact hnumber (Or.inr (Or.inl rfl))
        · cases h
          exact lexNumber_fails (by decide) (by decide) (fun _ d hd => by cases hd; decide)
        · cases h
          exact lexNumber_fails (by decide) (by decide) (fun _ d hd => by cases hd; decide)
      · rw [hcs]
        exact lexNumber_fails hdigit hdot' (fun h => absurd h hsigned)
  have hident : lexReservedIdent R (c :: (q ++ rest)) = .error .error := by
    refine lexReservedIdent_fails (hword.imp (fun hw => ?_) id)
    rw [isWord_ascii R hascii, hw]
  rw [hcs] at hnumber' hoperator ⊢
  exact (alt_of_error hnumber').trans <|
    (alt_of_error (lexString_fails hquote (fun h => absurd h hb))).trans <|
    (alt_of_error (lexLabel_fails hlabel)).trans <|
    (alt_of_error hident).trans (alt_of_ok hoperator)

/-! ## Literals in quotation marks -/

theorem escaped_append_rest {s t s' : List Char} (rest : List Char)
    (h : escaped s = some (t, s')) : escaped (s ++ rest) = some (t, s' ++ rest) := by
  fun_induction escaped s generalizing t s' with
  | case1 s =>
      cases h
      rfl
  | case2 c s hc ih =>
      obtain ⟨⟨t₁, s₁⟩, hr, heq⟩ := Option.map_eq_some_iff.mp h
      cases heq
      show escaped ('\x5c' :: c :: (s ++ rest)) = _
      rw [escaped, if_pos hc, ih hr]
      rfl
  | case3 c s hc => cases h
  | case4 => cases h
  | case5 c s hquote hpair hback ih =>
      obtain ⟨⟨t₁, s₁⟩, hr, heq⟩ := Option.map_eq_some_iff.mp h
      cases heq
      have hnext : escaped (c :: (s ++ rest)) =
          (escaped (s ++ rest)).map (fun r => (c :: r.1, r.2)) := by
        rw [escaped]
        · exact hquote
        · intro d u hc hs
          cases s with
          | nil => exact hback hc rfl
          | cons e s => exact hpair e s hc rfl
        · intro hc hs
          cases s with
          | nil => exact hback hc rfl
          | cons e s => exact hpair e s hc rfl
      show escaped (c :: (s ++ rest)) = _
      rw [hnext, ih hr]
      rfl
  | case6 => cases h

/-- The text between quotation marks is read to its end. -/
def IsBody (b : List Char) : Prop := escaped (b ++ ['\x22']) = some (b, ['\x22'])

theorem IsBody.escaped {b : List Char} (h : IsBody b) (rest : List Char) :
    escaped (b ++ '\x22' :: rest) = some (b, '\x22' :: rest) := by
  have hrest := escaped_append_rest rest h
  rwa [List.append_assoc] at hrest

theorem lexToken_string {b : List Char} (h : IsBody b) (rest : List Char) :
    lexToken R ('\x22' :: (b ++ '\x22' :: rest)) =
      .ok (.stringLiteral (unescape (String.ofList b)), rest) := by
  have hstring : lexString (F := F) ('\x22' :: (b ++ '\x22' :: rest)) =
      .ok (.stringLiteral (unescape (String.ofList b)), rest) := by
    unfold lexString
    simp only [h.escaped]
  have hnumber : lexNumber R ('\x22' :: (b ++ '\x22' :: rest)) = .error .error :=
    lexNumber_fails (by decide) (by decide) (fun h => absurd h (by decide))
  exact (alt_of_error hnumber).trans (alt_of_ok hstring)

theorem lexToken_data {b : List Char} (h : IsBody b) (rest : List Char) :
    lexToken R ('b' :: '\x22' :: (b ++ '\x22' :: rest)) =
      .ok (.dataLiteral (unescape (String.ofList b)).toUTF8.toList, rest) := by
  have hstring : lexString (F := F) ('b' :: '\x22' :: (b ++ '\x22' :: rest)) =
      .ok (.dataLiteral (unescape (String.ofList b)).toUTF8.toList, rest) := by
    unfold lexString
    simp only [h.escaped]
  have hnumber : lexNumber R ('b' :: '\x22' :: (b ++ '\x22' :: rest)) = .error .error :=
    lexNumber_fails (by decide) (by decide) (fun h => absurd h (by decide))
  exact (alt_of_error hnumber).trans (alt_of_ok hstring)

theorem lexToken_label {b : List Char} {l : Label} (hb : '\x27' ∉ b)
    (hl : Label.fromStr (String.ofList b) = .ok l) (rest : List Char) :
    lexToken R ('\x27' :: (b ++ '\x27' :: rest)) = .ok (.labelLiteral l, rest) := by
  have hall : ∀ c ∈ b, (fun c => decide (c ≠ '\x27')) c = true := by
    intro c hc
    refine decide_eq_true ?_
    rintro rfl
    exact hb hc
  have hlabel : lexLabel (F := F) ('\x27' :: (b ++ '\x27' :: rest)) =
      .ok (.labelLiteral l, rest) := by
    have hdrop : (b ++ '\x27' :: rest).dropWhile (fun c => decide (c ≠ '\x27')) =
        '\x27' :: rest := by
      rw [List.dropWhile_append_of_pos hall, List.dropWhile_cons_of_neg (by decide)]
    have htake : (b ++ '\x27' :: rest).takeWhile (fun c => decide (c ≠ '\x27')) = b := by
      rw [List.takeWhile_append_of_pos hall, List.takeWhile_cons_of_neg (by decide),
        List.append_nil]
    unfold lexLabel
    simp only [hdrop, htake, hl]
  have hnumber : lexNumber R ('\x27' :: (b ++ '\x27' :: rest)) = .error .error :=
    lexNumber_fails (by decide) (by decide) (fun h => absurd h (by decide))
  exact (alt_of_error hnumber).trans <|
    (alt_of_error (lexString_fails (by decide) (fun h => absurd h (by decide)))).trans
      (alt_of_ok hlabel)

end Armour.Lang.Parser
