import Armour.Lang.Lexemes
import Armour.Lang.Panics
import Armour.Lang.Precedence
import Mathlib.Tactic.NormNum

/-! # Numeric literals

What the lexer and the parser make of `n`, `n.d` and `.d` for digits `n` and `d`, decimals being
exact rationals.  A fraction without a whole part is put together from the integer that its
digits were read as, which has lost the zeros in front; a whole part before a dot is read again,
and has to fit an `i64` then.
-/

namespace Armour.Lang.Parser

open Armour.Lib Parse

/-! ## The tokens of a numeral -/

section

variable {rd : Reading ℚ}

theorem getLast_ne_dot {ds : List Char} (hds : ∀ c ∈ ds, c.isDigit = true) :
    ds.getLast? ≠ some '.' := by
  intro h
  have hmem : '.' ∈ ds := List.mem_of_getLast? h
  exact absurd rfl (ne_of_isDigit (hds _ hmem) (by decide))

theorem recognizeFloat_mantissa {m : List Char} (hm : IsMantissa m) :
    recognizeFloat m = some (m, []) := by
  have h := @recognizeFloat_eq [] _ _ (Or.inl rfl) hm .absent
  rwa [List.nil_append, List.append_nil, List.nil_append, List.append_nil] at h

/-- A whole number is an integer where it fits, and else a floating-point number. -/
theorem lexNumber_whole (hrd : rd.parseF64 = exactF64) (n : Digits) :
    ∃ t : Token ℚ, lexNumber rd n.chars = .ok (t, []) ∧
      if n.value < 2 ^ 63 then t = .intLiteral (Int64.ofInt n.value)
      else ∃ q, t = .floatLiteral q := by
  have hhead : ∀ {d : Char}, d.isDigit = false → n.chars.head? ≠ some d := by
    intro d hd
    have h := head_ne n.isDigit [] n.ne_nil hd
    rwa [List.append_nil] at h
  have hskip : ∀ t : Token ℚ, skipDigits t n.chars = .ok (t, []) := by
    intro t
    rw [skipDigits, digits_self n.isDigit]
    split
    · rename_i heq
      exact absurd (congrArg Prod.fst heq) n.ne_nil
    · rename_i heq
      cases heq
      rfl
  unfold lexNumber
  rw [recognizeFloat_mantissa (.whole n)]
  dsimp only
  rw [if_neg (getLast_ne_dot n.isDigit), if_neg (fun h => hhead (by decide) h.1),
    if_neg (hhead (by decide)), parseI64_digits n.ne_nil n.isDigit]
  by_cases h : n.value < 2 ^ 63
  · rw [if_pos (show Text.digitsValue n.chars < 2 ^ 63 from h)]
    refine ⟨_, hskip _, ?_⟩
    rw [if_pos h]
    rfl
  · obtain ⟨q, hq⟩ := exactF64_recognized (recognizeFloat_mantissa (.whole n))
    rw [if_neg (show ¬Text.digitsValue n.chars < 2 ^ 63 from h), hrd, hq]
    refine ⟨_, rfl, ?_⟩
    rw [if_neg h]
    exact ⟨q, rfl⟩

theorem lexNumber_decimal (hrd : rd.parseF64 = exactF64) (n d : Digits) :
    lexNumber rd (n.chars ++ '.' :: d.chars) = .ok (.floatLiteral (n.value + d.fraction), []) := by
  have hlast : (n.chars ++ '.' :: d.chars).getLast? ≠ some '.' := by
    obtain ⟨_ | ⟨c, cs⟩, hne, hds⟩ := d
    · exact absurd rfl hne
    · rw [List.getLast?_append_cons, List.getLast?_cons_cons]
      exact getLast_ne_dot hds
  have hint : Text.parseI64 (String.ofList (n.chars ++ '.' :: d.chars)) = none :=
    parseI64_dot (List.mem_append_right _ List.mem_cons_self)
  unfold lexNumber
  rw [recognizeFloat_mantissa (.decimal n d.isDigit)]
  dsimp only
  rw [if_neg hlast, if_neg (fun h => head_ne n.isDigit _ n.ne_nil (by decide) h.1), hint, hrd,
    exactF64_decimal]

theorem not_isBlank_of_isDigit {c : Char} (h : c.isDigit = true) : isBlank c = false := by
  cases hb : isBlank c with
  | false => rfl
  | true =>
      rw [isBlank] at hb
      simp only [Bool.or_eq_true, decide_eq_true_eq] at hb
      rcases hb with ((rfl | rfl) | rfl) | rfl <;> cases h

theorem multispace0_digits (n : Digits) (s : List Char) :
    multispace0 (n.chars ++ s) = n.chars ++ s := by
  refine multispace0_of_head (fun c hc => ?_)
  cases hn : n.chars with
  | nil => exact absurd hn n.ne_nil
  | cons d ds =>
      rw [hn] at hc
      cases hc
      exact not_isBlank_of_isDigit (n.isDigit c (by rw [hn]; exact List.mem_cons_self))

/-- A text that is one token. -/
theorem lex_number {s : List Char} {t : Token ℚ} (h : lexNumber rd s = .ok (t, []))
    (hs : multispace0 s = s) (ht : isComment t = false) :
    lex rd (String.ofList s) = .ok [t, .eof] := by
  have htokens : lexTokens rd s = .ok [t] := by
    rw [lexTokens_of_token (by rw [hs]; exact lexToken_of_number h)]
    rfl
  rw [lex_ofList htokens]
  have heof : isComment (Token.eof : Token ℚ) = false := rfl
  simp [ht, heof]

theorem lex_whole (hrd : rd.parseF64 = exactF64) (n : Digits) :
    ∃ t : Token ℚ, lex rd (String.ofList n.chars) = .ok [t, .eof] ∧
      if n.value < 2 ^ 63 then t = .intLiteral (Int64.ofInt n.value)
      else ∃ q, t = .floatLiteral q := by
  obtain ⟨t, hlex, ht⟩ := lexNumber_whole hrd n
  have hcomment : isComment t = false := by
    split_ifs at ht
    · rw [ht]
      rfl
    · obtain ⟨q, rfl⟩ := ht
      rfl
  have hspace := multispace0_digits n []
  rw [List.append_nil] at hspace
  exact ⟨t, lex_number hlex hspace hcomment, ht⟩

theorem lex_decimal (hrd : rd.parseF64 = exactF64) (n d : Digits) :
    lex rd (String.ofList (n.chars ++ '.' :: d.chars)) =
      .ok [.floatLiteral (n.value + d.fraction), .eof] :=
  lex_number (lexNumber_decimal hrd n d) (multispace0_digits n _) rfl

theorem lex_fraction (hrd : rd.parseF64 = exactF64) (d : Digits) :
    ∃ t : Token ℚ, lex rd (String.ofList ('.' :: d.chars)) = .ok [.dot, t, .eof] ∧
      if d.value < 2 ^ 63 then t = .intLiteral (Int64.ofInt d.value)
      else ∃ q, t = .floatLiteral q := by
  obtain ⟨t, hlex, ht⟩ := lexNumber_whole hrd d
  refine ⟨t, ?_, ht⟩
  have hspace := multispace0_digits d []
  rw [List.append_nil] at hspace
  have hrest : lexTokens rd d.chars = .ok [t] := by
    rw [lexTokens_of_token (by rw [hspace]; exact lexToken_of_number hlex)]
    rfl
  have hdot : lexNumber rd ('.' :: d.chars) = .ok (.dot, d.chars) := by
    have hfraction : lexNumber rd ('.' :: (d.chars ++ [])) = .ok (.dot, d.chars ++ []) :=
      lexNumber_fraction d nofun ⟨nofun, nofun⟩
    rwa [List.append_nil] at hfraction
  have htokens : lexTokens rd ('.' :: d.chars) = .ok [.dot, t] := by
    rw [@lexTokens_of_token _ _ ('.' :: d.chars) d.chars .dot (lexToken_of_number hdot), hspace,
      hrest]
    rfl
  rw [lex_ofList htokens]
  split_ifs at ht
  · rw [ht]
    rfl
  · obtain ⟨q, rfl⟩ := ht
    rfl

/-! ## The value of a fraction -/

theorem digitsValue_cons (c : Char) (ds : List Char) :
    Text.digitsValue (c :: ds) = 10 ^ ds.length * (c.toNat - '0'.toNat) + Text.digitsValue ds := by
  have h := digitsValue_append [c] ds
  rw [List.singleton_append] at h
  rw [h]
  simp [Text.digitsValue]

theorem digitsValue_lt {ds : List Char} (h : ∀ c ∈ ds, c.isDigit = true) :
    Text.digitsValue ds < 10 ^ ds.length := by
  induction ds with
  | nil => decide
  | cons c ds ih =>
      have hds := ih (fun c hc => h c (List.mem_cons_of_mem _ hc))
      have hc := h c List.mem_cons_self
      have hle : c.toNat - '0'.toNat ≤ 9 := by
        simp only [Char.isDigit, Bool.and_eq_true, decide_eq_true_eq] at hc
        have h9 : c.toNat ≤ '9'.toNat := UInt32.le_iff_toNat_le.mp hc.2
        have h0 : '9'.toNat = 57 := rfl
        have h1 : '0'.toNat = 48 := rfl
        omega
      have hmul := Nat.mul_le_mul_left (10 ^ ds.length) hle
      rw [digitsValue_cons, List.length_cons, Nat.pow_succ]
      omega

/-- Written again, the value has as many digits, unless there are zeros in front. -/
theorem length_toDigits {c : Char} {cs : List Char} (hds : ∀ d ∈ c :: cs, d.isDigit = true)
    (h : Text.digitsValue (c :: cs) ≠ 0) :
    (Nat.toDigits 10 (Text.digitsValue (c :: cs))).length = cs.length + 1 ↔ c ≠ '0' := by
  have hlt := digitsValue_lt hds
  have hcs := digitsValue_lt (fun d hd => hds d (List.mem_cons_of_mem c hd))
  have hcons := digitsValue_cons c cs
  have hle : (Nat.toDigits 10 (Text.digitsValue (c :: cs))).length ≤ cs.length + 1 :=
    (Nat.length_toDigits_le_iff (by decide) (Nat.succ_pos _)).mpr hlt
  constructor
  · rintro hlen rfl
    rw [Nat.sub_self, Nat.mul_zero, Nat.zero_add] at hcons
    rw [hcons] at h hlen
    rcases Nat.eq_zero_or_pos cs.length with hempty | hpos
    · rw [hempty] at hcs
      exact h (Nat.lt_one_iff.mp hcs)
    · have hshort := (Nat.length_toDigits_le_iff (by decide) hpos).mpr hcs
      omega
  · intro hc
    have hone : 1 ≤ c.toNat - '0'.toNat := by
      have hdigit := hds c List.mem_cons_self
      simp only [Char.isDigit, Bool.and_eq_true, decide_eq_true_eq] at hdigit
      have h0 : '0'.toNat ≤ c.toNat := UInt32.le_iff_toNat_le.mp hdigit.1
      have hne : c.toNat ≠ '0'.toNat := fun heq => hc (Char.toNat_inj.mp heq)
      omega
    have hge : 10 ^ cs.length ≤ Text.digitsValue (c :: cs) := by
      have hmul := Nat.mul_le_mul_left (10 ^ cs.length) hone
      omega
    rcases Nat.eq_zero_or_pos cs.length with hempty | hpos
    · have hlen := Nat.length_toDigits_pos (b := 10) (n := Text.digitsValue (c :: cs))
      omega
    · have hlong := mt (Nat.length_toDigits_le_iff (by decide) hpos).mp (Nat.not_lt.mpr hge)
      omega

/-- What the parser makes of a dot and the integer of the digits. -/
theorem exactF64_toString {v : Nat} (hv : v < 2 ^ 63) :
    exactF64 ("." ++ toString (Int64.ofInt v).toInt) =
      some ((v : ℚ) / 10 ^ (Nat.toDigits 10 v).length) := by
  have hint : (Int64.ofInt v).toInt = v := Int64.toInt_ofInt_of_le (by omega) (by omega)
  have htext : "." ++ toString (v : Int) = String.ofList ('.' :: Nat.toDigits 10 v) := by
    show "." ++ Nat.repr v = _
    rw [Nat.repr_eq_ofList_toDigits]
    exact (@String.ofList_append ['.'] _).symm
  rw [hint, htext, exactF64_fraction Nat.toDigits_ne_nil
    (fun c hc => Nat.isDigit_of_mem_toDigits (by decide) (by decide) hc), digitsValue_eq,
    Nat.ofDigitChars_ten_toDigits]

/-- The fraction is the one that was written when no zero in front of its digits counts. -/
theorem fraction_eq_iff (d : Digits) :
    (d.value : ℚ) / 10 ^ (Nat.toDigits 10 d.value).length = d.fraction ↔
      (d.chars.head? = some '0' → d.value = 0) := by
  by_cases hv : d.value = 0
  · rw [Digits.fraction, hv]
    simp
  · have hlen : (d.value : ℚ) / 10 ^ (Nat.toDigits 10 d.value).length = d.fraction ↔
        (Nat.toDigits 10 d.value).length = d.chars.length := by
      have hne : (d.value : ℚ) ≠ 0 := Nat.cast_ne_zero.mpr hv
      have hpow : Function.Injective (fun k : Nat => (10 : ℚ) ^ k) :=
        pow_right_injective₀ (by norm_num) (by norm_num)
      rw [Digits.fraction, div_eq_mul_inv, div_eq_mul_inv, mul_right_inj' hne, inv_inj]
      exact hpow.eq_iff
    rw [hlen]
    obtain ⟨_ | ⟨c, cs⟩, hne, hds⟩ := d
    · exact absurd rfl hne
    · refine (length_toDigits hds hv).trans ?_
      show c ≠ '0' ↔ (some c = some '0' → _)
      constructor
      · exact fun hc h => absurd (Option.some.inj h) hc
      · rintro h rfl
        exact hv (h rfl)

/-! ## Texts -/

/-- The text is an expression that is a floating-point literal. -/
def ReadsAs (rd : Reading ℚ) (s : List Char) (q : ℚ) : Prop :=
  ∃ ts, lex rd (String.ofList s) = .ok ts ∧
    (parseExprEof rd).run ts = some (.ok (.litExpr (.float q)), [])

/-- Lexing the text panics, or parsing its tokens. -/
def Panics (rd : Reading ℚ) (s : List Char) : Prop :=
  (∃ msg, lex rd (String.ofList s) = .error (.panic msg)) ∨
    ∃ ts msg rest, lex rd (String.ofList s) = .ok ts ∧
      (parseExprEof rd).run ts = some (.error (.panic msg), rest)

theorem run_float (q : ℚ) :
    (parseExprEof rd).run [.floatLiteral q, .eof] = some (.ok (.litExpr (.float q)), []) :=
  parseExprEof_sequence Empty.elim (c := .last ⟨[.floatLiteral q], .litExpr (.float q)⟩)
    (.lit rfl _)

theorem run_decimal {i : Int64} {q : ℚ} (h : rd.parseF64 ("." ++ toString i.toInt) = some q) :
    (parseExprEof rd).run [.dot, .intLiteral i, .eof] = some (.ok (.litExpr (.float q)), []) :=
  parseExprEof_sequence Empty.elim
    (c := .last ⟨[.dot, .intLiteral i], .litExpr (.float q)⟩) (.decimal h _)

/-- A dot before a floating-point number begins no expression. -/
theorem fails_dot_float (q : ℚ) (ts : List (Token ℚ)) :
    (parseExprEof rd).Fails (.dot :: .floatLiteral q :: ts) := by
  have hdecimal : (parseDecimal rd).Fails (.dot :: .floatLiteral q :: ts) :=
    .bind_ok (run_tag _ _) (Fails.bind ⟨_, rfl⟩ _)
  have hlit : (parseLitExpr rd).Fails (.dot :: .floatLiteral q :: ts) :=
    fails_orElse hdecimal ⟨_, rfl⟩
  have hatom : (parseAtomExpr (parse rd) rd).Fails (.dot :: .floatLiteral q :: ts) :=
    fails_orElse hlit ⟨_, rfl⟩
  have hexpr : (parseExpr (parse rd)).Fails (.dot :: .floatLiteral q :: ts) := by
    unfold parseExpr
    rw [parse_eq]
    exact hatom.bind _
  exact hexpr.bind _

theorem readsAs_decimal (hrd : rd.parseF64 = exactF64) (n d : Digits) :
    ReadsAs rd (n.chars ++ '.' :: d.chars) (n.value + d.fraction) :=
  ⟨_, lex_decimal hrd n d, run_float _⟩

/-- A fraction without a whole part is read rightly when its digits fit an integer, and no zero
in front of them counts. -/
theorem readsAs_fraction (hrd : rd.parseF64 = exactF64) (d : Digits) :
    ReadsAs rd ('.' :: d.chars) d.fraction ↔
      d.value < 2 ^ 63 ∧ (d.chars.head? = some '0' → d.value = 0) := by
  obtain ⟨t, hlex, ht⟩ := lex_fraction hrd d
  by_cases hd : d.value < 2 ^ 63
  · rw [if_pos hd] at ht
    rw [ht] at hlex
    have hvalue := exactF64_toString hd
    have hrun := @run_decimal rd (Int64.ofInt d.value) _ (by rw [hrd, hvalue])
    rw [← fraction_eq_iff]
    constructor
    · rintro ⟨ts, hts, hparse⟩
      rw [hlex] at hts
      cases hts
      have heq := hrun.symm.trans hparse
      simp only [Option.some.injEq, Prod.mk.injEq, Except.ok.injEq, Expr.litExpr.injEq,
        Lit.float.injEq, and_true] at heq
      exact ⟨hd, heq⟩
    · rintro ⟨-, heq⟩
      rw [heq] at hrun
      exact ⟨_, hlex, hrun⟩
  · rw [if_neg hd] at ht
    obtain ⟨q, rfl⟩ := ht
    refine ⟨?_, fun h => absurd h.1 hd⟩
    rintro ⟨ts, hts, hparse⟩
    rw [hlex] at hts
    cases hts
    obtain ⟨rest, hfail⟩ := @fails_dot_float rd q [.eof]
    rw [hfail] at hparse
    cases hparse

/-! ## Texts that do not panic -/

/-- No digits in front of a dot are beyond an `i64`, and no sign is in front of a digit. -/
structure Harmless (s : List Char) : Prop where
  fits : ∀ (m : Digits) u, m.chars ++ '.' :: u <:+ s → m.value < 2 ^ 63
  unsigned : ∀ d u, '-' :: d :: u <:+ s → d.isDigit = false

theorem Harmless.not_panics (hrd : rd.parseF64 = exactF64) {s : List Char} (h : Harmless s) :
    ¬Panics rd s := by
  have hreadable : ∀ ts, lexTokens rd s = .ok ts → ∀ t ∈ ts, Readable rd t := by
    intro ts hts
    refine lexTokens_forall hts (fun u t u' hu ht => ?_)
    rintro i rfl
    have hnonneg : 0 ≤ i.toInt := by
      by_contra hneg
      obtain ⟨d, v, rfl, hd⟩ := lexNumber_int (lexToken_int ht) (Int.not_le.mp hneg)
      rw [h.unsigned d v hu] at hd
      cases hd
    obtain ⟨v, hv⟩ := Int.eq_ofNat_of_zero_le hnonneg
    have hlt : v < 2 ^ 63 := by
      have hmax := Int64.toInt_lt i
      omega
    have hi : i = Int64.ofInt v := by
      rw [← Int64.toInt_inj, hv, Int64.toInt_ofInt_of_le (by omega) (by omega)]
    rw [hi, hrd, exactF64_toString hlt]
    exact ⟨_, rfl⟩
  rintro (⟨msg, hlex⟩ | ⟨ts, msg, rest, hlex, hparse⟩)
  · rcases hts : lexTokens rd s with e | ts
    · rw [lex, String.toList_ofList, hts] at hlex
      cases hlex
      obtain ⟨u, hu, hpanic⟩ := lexTokens_panic hts
      obtain ⟨m, v, rfl, hm⟩ := lexNumber_panic
        (fun hfloat => by rw [hrd]; exact exactF64_recognized hfloat) (lexToken_panic hpanic)
      have hfits := h.fits m v hu
      omega
    · rw [lex_ofList hts] at hlex
      cases hlex
  · rcases hts : lexTokens rd s with e | us
    · rw [lex, String.toList_ofList, hts] at hlex
      cases hlex
    · rw [lex_ofList hts] at hlex
      cases hlex
      have hall : ∀ t ∈ (us ++ [Token.eof]).filter (fun t => !isComment t), Readable rd t := by
        intro t ht
        rcases List.mem_append.mp (List.mem_filter.mp ht).1 with hmem | hmem
        · exact hreadable us hts t hmem
        · rw [List.mem_singleton.mp hmem]
          intro i hi
          cases hi
      cases (parseExprEof_calm rd _ _ hall hparse).2

/-- A part at the end, without the last character. -/
theorem suffix_concat {u s : List Char} {c : Char} (h : u <:+ s ++ [c]) (hne : u ≠ []) :
    ∃ v, u = v ++ [c] ∧ v <:+ s := by
  rcases List.eq_nil_or_concat u with rfl | ⟨v, b, rfl⟩
  · exact absurd rfl hne
  · obtain ⟨w, hw⟩ := h
    rw [List.concat_eq_append, ← List.append_assoc] at hw
    obtain ⟨hs, hb⟩ := List.append_inj' hw rfl
    cases hb
    exact ⟨v, List.concat_eq_append, w, hs⟩

theorem Harmless.of_concat {s : List Char} {c : Char} (h : Harmless (s ++ [c])) : Harmless s where
  fits := by
    rintro m u ⟨v, rfl⟩
    refine h.fits m (u ++ [c]) ⟨v, ?_⟩
    simp
  unsigned := by
    rintro d u ⟨v, rfl⟩
    refine h.unsigned d (u ++ [c]) ⟨v, ?_⟩
    simp

/-- A part at the end that the item is not in ends before it. -/
theorem suffix_of_not_mem {m p d : List Char} {x : Char} (h : m <:+ p ++ x :: d) (hm : x ∉ m) :
    m <:+ d := by
  rcases List.suffix_or_suffix_of_suffix h (List.suffix_append p (x :: d)) with hshort | ⟨w, rfl⟩
  · rcases List.suffix_cons_iff.mp hshort with rfl | hd
    · exact absurd List.mem_cons_self hm
    · exact hd
  · exact absurd (List.mem_append_right _ List.mem_cons_self) hm

/-- Digits, or a dot between digits, the former possibly missing, before any character. -/
theorem harmless_concat {p d : List Char} (hp : ∀ c ∈ p, c.isDigit = true)
    (hd : ∀ c ∈ d, c.isDigit = true) (hpfits : Text.digitsValue p < 2 ^ 63)
    (hdfits : Text.digitsValue d < 2 ^ 63) {s : List Char} (hs : s = p ∨ s = p ++ '.' :: d)
    (c : Char) : Harmless (s ++ [c]) := by
  have hnot : ∀ {l : List Char} {x : Char}, (∀ c ∈ l, c.isDigit = true) → x.isDigit = false →
      x ∉ l :=
    fun hl hx hmem => absurd rfl (ne_of_isDigit (hl _ hmem) hx)
  constructor
  · intro m u hu
    have hdot := hnot m.isDigit (x := '.') (by decide)
    obtain ⟨v, hv, hvs⟩ := suffix_concat hu (by simp)
    rcases List.eq_nil_or_concat u with rfl | ⟨u', b, rfl⟩
    · -- the dot is the character after the text
      obtain ⟨rfl, -⟩ := List.append_inj' hv rfl
      rcases hs with rfl | rfl
      · exact lt_of_le_of_lt (digitsValue_suffix hvs) hpfits
      · exact lt_of_le_of_lt (digitsValue_suffix (suffix_of_not_mem hvs hdot)) hdfits
    · -- the dot is in the text
      rw [List.concat_eq_append, ← List.cons_append, ← List.append_assoc] at hv
      obtain ⟨rfl, -⟩ := List.append_inj' hv rfl
      obtain ⟨w, hw⟩ := hvs
      rcases hs with rfl | rfl
      · exact absurd (hw ▸ List.mem_append_right w (List.mem_append_right _ List.mem_cons_self))
          (hnot hp (by decide))
      · have hpre := (List.append_cons_inj_of_notMem (hnot hp (by decide))
          (hnot hd (by decide))).mp (hw.symm.trans (List.append_assoc _ _ _).symm)
        rw [hpre.1] at hpfits
        exact lt_of_le_of_lt (digitsValue_suffix (List.suffix_append w m.chars)) hpfits
  · intro d' u hu
    exfalso
    obtain ⟨v, hv, hvs⟩ := suffix_concat hu (by simp)
    have hmem : '-' ∈ s := by
      refine hvs.subset ?_
      cases v with
      | nil => cases hv
      | cons x v =>
          rw [(List.cons.inj hv).1]
          exact List.mem_cons_self
    rcases hs with rfl | rfl
    · exact hnot hp (by decide) hmem
    · rcases List.mem_append.mp hmem with hmem | hmem
      · exact hnot hp (by decide) hmem
      · exact hnot hd (by decide) (List.mem_of_ne_of_mem (by decide) hmem)

/-! ## Numeric literals -/

/-- The literals of the digits denote their values, and do not panic in front of a character. -/
structure Denotes (rd : Reading ℚ) (n d : Digits) : Prop where
  whole : n.value < 2 ^ 63 →
    lex rd (String.ofList n.chars) = .ok [.intLiteral (Int64.ofInt n.value), .eof]
  noOther : ∀ ts, lex rd (String.ofList n.chars) = .ok ts → ∀ i, .intLiteral i ∈ ts →
    i.toInt = (n.value : Int)
  decimal : ReadsAs rd (n.chars ++ '.' :: d.chars) (n.value + d.fraction)
  fraction : ReadsAs rd ('.' :: d.chars) d.fraction
  safe : ∀ s ∈ [n.chars, n.chars ++ '.' :: d.chars, '.' :: d.chars],
    ¬Panics rd s ∧ ∀ c, ¬Panics rd (s ++ [c])

/-- Whole digits that do not fit panic before a dot. -/
theorem panics_dot (n : Digits) (h : 2 ^ 63 ≤ n.value) : Panics rd (n.chars ++ ['.']) := by
  have hfloat : recognizeFloat (n.chars ++ ['.']) = some (n.chars ++ ['.'], []) :=
    recognizeFloat_mantissa (@IsMantissa.decimal n [] nofun)
  have hhead := head_ne n.isDigit ['.'] n.ne_nil (d := '-') (by decide)
  have hdigits : digits (n.chars ++ ['.']) = (n.chars, ['.']) :=
    digits_of_all n.isDigit (by rintro c ⟨⟩; decide)
  have hint : Text.parseI64 (String.ofList n.chars) = none := by
    rw [parseI64_digits n.ne_nil n.isDigit]
    exact if_neg (Nat.not_lt.mpr h)
  have hpanic : lexNumber rd (n.chars ++ ['.']) =
      .error (.panic "called `Result::unwrap()` on an `Err` value") := by
    unfold lexNumber
    rw [hfloat]
    dsimp only
    rw [if_pos (by simp), if_neg hhead, hdigits]
    obtain ⟨_ | ⟨c, cs⟩, hne, hds⟩ := n
    · exact absurd rfl hne
    · simp only [hint]
  have htoken : lexToken rd (multispace0 (n.chars ++ ['.'])) =
      .error (.panic "called `Result::unwrap()` on an `Err` value") := by
    rw [multispace0_digits, lexToken, alt, hpanic]
  have htokens : lexTokens rd (n.chars ++ ['.']) =
      .error (.panic "called `Result::unwrap()` on an `Err` value") := by
    rw [lexTokens_eq, htoken]
  have hlex : lex rd (String.ofList (n.chars ++ ['.'])) =
      .error (.panic "called `Result::unwrap()` on an `Err` value") := by
    rw [lex, String.toList_ofList, htokens]
    rfl
  exact Or.inl ⟨_, hlex⟩

/-- Numeric literals denote their values exactly if both parts fit an `i64` and no zero in front
of the fraction counts. -/
theorem denotes_iff (hrd : rd.parseF64 = exactF64) (n d : Digits) :
    Denotes rd n d ↔
      n.value < 2 ^ 63 ∧ d.value < 2 ^ 63 ∧ (d.chars.head? = some '0' → d.value = 0) := by
  constructor
  · intro h
    refine ⟨?_, (readsAs_fraction hrd d).mp h.fraction⟩
    by_contra hbig
    exact (h.safe n.chars List.mem_cons_self).2 '.' (panics_dot n (Nat.le_of_not_lt hbig))
  · rintro ⟨hn, hd, hzero⟩
    obtain ⟨t, hlex, ht⟩ := lex_whole hrd n
    rw [if_pos hn] at ht
    rw [ht] at hlex
    have hint : (Int64.ofInt n.value).toInt = n.value :=
      Int64.toInt_ofInt_of_le (by omega) (by omega)
    refine ⟨fun _ => hlex, ?_, readsAs_decimal hrd n d, (readsAs_fraction hrd d).mpr ⟨hd, hzero⟩,
      ?_⟩
    · intro ts hts i hi
      rw [hlex] at hts
      cases hts
      rcases List.mem_cons.mp hi with heq | hi
      · cases heq
        exact hint
      · rcases List.mem_cons.mp hi with heq | hi
        · cases heq
        · cases hi
    · have hsafe : ∀ {s p : List Char}, (∀ c ∈ p, c.isDigit = true) →
          Text.digitsValue p < 2 ^ 63 → s = p ∨ s = p ++ '.' :: d.chars →
          ¬Panics rd s ∧ ∀ c, ¬Panics rd (s ++ [c]) := by
        intro s p hp hfits hs
        have h := harmless_concat hp d.isDigit hfits hd hs
        exact ⟨(h ' ').of_concat.not_panics hrd, fun c => (h c).not_panics hrd⟩
      simp only [List.forall_mem_cons]
      exact ⟨hsafe n.isDigit hn (Or.inl rfl), hsafe n.isDigit hn (Or.inr rfl),
        hsafe (p := []) nofun (by decide) (Or.inr rfl), fun _ h => absurd h List.not_mem_nil⟩

end

/-- `12.5` and `.5`. -/
theorem denotes_iff_half :
    let n : Digits := ⟨['1', '2'], nofun, List.all_eq_true.mp rfl⟩
    let d : Digits := ⟨['5'], nofun, List.all_eq_true.mp rfl⟩
    Denotes (Reading.ascii exactF64) n d ↔
      n.value < 2 ^ 63 ∧ d.value < 2 ^ 63 ∧ (d.chars.head? = some '0' → d.value = 0) :=
  denotes_iff rfl _ _

/-- `.05` is read as one half. -/
theorem not_denotes_twentieth :
    ¬Denotes (Reading.ascii exactF64) ⟨['1'], nofun, List.all_eq_true.mp rfl⟩
      ⟨['0', '5'], nofun, List.all_eq_true.mp rfl⟩ := by
  intro h
  have hzero := ((readsAs_fraction rfl _).mp h.fraction).2 rfl
  cases hzero

end Armour.Lang.Parser
