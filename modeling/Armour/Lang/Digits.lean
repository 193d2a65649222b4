import Armour.Lang.Lexer
import Mathlib.Data.Rat.Cast.Defs
import Mathlib.Algebra.Order.Field.Rat

/-! # Texts of numbers

Digits, the grammar of floating-point numbers that `recognize_float` recognizes, and its exact
reading as rationals.
-/

namespace Armour.Lang.Parser

open Armour.Lib Parse

/-! ## Digits -/

/-- A text of digits that is not empty. -/
structure Digits where
  chars : List Char
  ne_nil : chars ≠ []
  isDigit : ∀ c ∈ chars, c.isDigit = true

namespace Digits

def value (n : Digits) : Nat := Text.digitsValue n.chars

/-- The value of the digits after a decimal point. -/
def fraction (d : Digits) : ℚ := d.value / 10 ^ d.chars.length

end Digits

theorem digitsValue_eq (l : List Char) : Text.digitsValue l = Nat.ofDigitChars 10 l 0 := rfl

theorem digitsValue_append (l m : List Char) :
    Text.digitsValue (l ++ m) = 10 ^ m.length * Text.digitsValue l + Text.digitsValue m := by
  rw [digitsValue_eq, Nat.ofDigitChars_append, Nat.ofDigitChars_eq_ofDigitChars_zero]
  rfl

theorem digitsValue_suffix {l m : List Char} (h : l <:+ m) :
    Text.digitsValue l ≤ Text.digitsValue m := by
  obtain ⟨k, rfl⟩ := h
  rw [digitsValue_append]
  exact Nat.le_add_left _ _

/-- Digits are read to their end. -/
theorem digits_of_all {ds s : List Char} (hds : ∀ c ∈ ds, c.isDigit = true)
    (hs : ∀ c ∈ s.head?, c.isDigit = false) : digits (ds ++ s) = (ds, s) := by
  have htake : s.takeWhile Char.isDigit = [] := by
    cases s with
    | nil => rfl
    | cons c s => exact List.takeWhile_cons_of_neg (by simp [hs c rfl])
  have hdrop : s.dropWhile Char.isDigit = s := by
    cases s with
    | nil => rfl
    | cons c s => exact List.dropWhile_cons_of_neg (by simp [hs c rfl])
  unfold digits
  rw [List.takeWhile_append_of_pos hds, List.dropWhile_append_of_pos hds, htake, hdrop,
    List.append_nil]

theorem isDigit_of_digits {s ds s' : List Char} (h : digits s = (ds, s')) :
    ∀ c ∈ ds, c.isDigit = true := by
  cases h
  exact fun c hc => (List.all_eq_true.mp List.all_takeWhile) c hc

theorem ne_of_isDigit {c d : Char} (hc : c.isDigit = true) (hd : d.isDigit = false) : c ≠ d := by
  rintro rfl
  rw [hc] at hd
  cases hd

theorem head_ne {ds : List Char} (hds : ∀ c ∈ ds, c.isDigit = true) (s : List Char)
    (hne : ds ≠ []) {d : Char} (hd : d.isDigit = false) : (ds ++ s).head? ≠ some d := by
  cases ds with
  | nil => exact absurd rfl hne
  | cons c ds =>
      rintro ⟨⟩
      exact absurd rfl (ne_of_isDigit (hds _ List.mem_cons_self) hd)

/-- An `i64` in a text of digits. -/
theorem parseI64_digits {ds : List Char} (hne : ds ≠ []) (hds : ∀ c ∈ ds, c.isDigit = true) :
    Text.parseI64 (String.ofList ds) =
      if Text.digitsValue ds < 2 ^ 63 then some (Int64.ofInt (Text.digitsValue ds)) else none := by
  have hparse : Text.parseDigits ds = some (Text.digitsValue ds) := by
    rw [Text.parseDigits, if_pos]
    simpa [hne] using hds
  unfold Text.parseI64
  rw [String.toList_ofList]
  split
  · exact absurd rfl (ne_of_isDigit (hds '-' List.mem_cons_self) (by decide))
  · exact absurd rfl (ne_of_isDigit (hds '+' List.mem_cons_self) (by decide))
  · rw [hparse, Option.filter_some]
    by_cases h : Text.digitsValue ds < 2 ^ 63
    · rw [if_pos (decide_eq_true h), if_pos h]
      rfl
    · rw [if_neg (by simpa using h), if_neg h]
      rfl

theorem parseI64_dot {s : List Char} (h : '.' ∈ s) : Text.parseI64 (String.ofList s) = none := by
  have hnone : ∀ {l : List Char}, '.' ∈ l → Text.parseDigits l = none := by
    intro l hl
    refine if_neg (fun hall => ?_)
    have hdigits := (Bool.and_eq_true_iff.mp hall).2
    exact absurd (List.all_eq_true.mp hdigits _ hl) (by decide)
  unfold Text.parseI64
  rw [String.toList_ofList]
  split
  · rw [hnone (List.mem_of_ne_of_mem (by decide) h)]
    rfl
  · rw [hnone (List.mem_of_ne_of_mem (by decide) h)]
    rfl
  · rw [hnone h]
    rfl

/-! ## The grammar of floating-point numbers -/

/-- The text does not go on with a digit. -/
def Ended (s : List Char) : Prop := ∀ c ∈ s.head?, c.isDigit = false

theorem ended_of_digits {s ds s' : List Char} (h : digits s = (ds, s')) : Ended s' := by
  cases h
  induction s with
  | nil => nofun
  | cons d s ih =>
      by_cases hd : d.isDigit = true
      · show Ended (List.dropWhile Char.isDigit (d :: s))
        rw [List.dropWhile_cons_of_pos hd]
        exact ih
      · show Ended (List.dropWhile Char.isDigit (d :: s))
        rw [List.dropWhile_cons_of_neg hd]
        rintro c ⟨⟩
        exact Bool.eq_false_iff.mpr hd

theorem mantissa_whole (n : Digits) {s : List Char} (hs : Ended s)
    (hdot : s.head? ≠ some '.') : mantissa (n.chars ++ s) = some (n.chars, s) := by
  unfold mantissa
  rw [digits_of_all n.isDigit hs]
  obtain ⟨_ | ⟨c, cs⟩, hne, _⟩ := n
  · exact absurd rfl hne
  · split
    · rename_i heq
      cases heq
    · rename_i heq
      cases heq
    · rename_i heq
      cases heq
      exact absurd rfl hdot
    · rename_i heq
      cases heq
      rfl

theorem mantissa_decimal (n : Digits) {fs s : List Char} (hfs : ∀ c ∈ fs, c.isDigit = true)
    (hs : Ended s) :
    mantissa (n.chars ++ '.' :: (fs ++ s)) = some (n.chars ++ '.' :: fs, s) := by
  have hdot : Ended ('.' :: (fs ++ s)) := by
    rintro c ⟨⟩
    decide
  unfold mantissa
  rw [digits_of_all n.isDigit hdot]
  obtain ⟨_ | ⟨c, cs⟩, hne, _⟩ := n
  · exact absurd rfl hne
  · show some (c :: cs ++ '.' :: (digits (fs ++ s)).1, (digits (fs ++ s)).2) = _
    rw [digits_of_all hfs hs]

theorem mantissa_fraction (d : Digits) {s : List Char} (hs : Ended s) :
    mantissa ('.' :: (d.chars ++ s)) = some ('.' :: d.chars, s) := by
  have hdot : digits ('.' :: (d.chars ++ s)) = ([], '.' :: (d.chars ++ s)) := rfl
  simp only [mantissa, hdot, digits_of_all d.isDigit hs]
  obtain ⟨_ | ⟨c, cs⟩, hne, _⟩ := d
  · exact absurd rfl hne
  · rfl

/-- What a mantissa is. -/
inductive IsMantissa : List Char → Prop where
  | whole (n : Digits) : IsMantissa n.chars
  | decimal (n : Digits) {fs : List Char} (hfs : ∀ c ∈ fs, c.isDigit = true) :
      IsMantissa (n.chars ++ '.' :: fs)
  | fraction (d : Digits) : IsMantissa ('.' :: d.chars)

theorem isMantissa_of {s m s' : List Char} (h : mantissa s = some (m, s')) : IsMantissa m := by
  unfold mantissa at h
  split at h
  · split at h
    · cases h
    · rename_i fs s₁ hne hd
      cases h
      exact .fraction ⟨fs, hne, isDigit_of_digits hd⟩
  · cases h
  · rename_i ds s₁ hne hd
    cases h
    exact .decimal ⟨ds, hne, isDigit_of_digits hd⟩ (isDigit_of_digits rfl)
  · rename_i hne hno hd
    cases h
    exact .whole ⟨m, hne, isDigit_of_digits hd⟩

/-- A mantissa is recognized again in front of what cannot go on with it. -/
theorem IsMantissa.run {m s : List Char} (h : IsMantissa m) (hs : Ended s)
    (hdot : s.head? ≠ some '.') : mantissa (m ++ s) = some (m, s) := by
  cases h with
  | whole n => exact mantissa_whole n hs hdot
  | @decimal n fs hfs =>
      rw [List.append_assoc, List.cons_append]
      exact mantissa_decimal n hfs hs
  | fraction d => exact mantissa_fraction d hs

theorem IsMantissa.sign {m s : List Char} (h : IsMantissa m) : sign (m ++ s) = ([], m ++ s) := by
  have hdigit : ∀ (n : Digits) (s : List Char), Parser.sign (n.chars ++ s) = ([], n.chars ++ s) := by
    intro n s
    obtain ⟨_ | ⟨c, cs⟩, hne, hds⟩ := n
    · exact absurd rfl hne
    · have hc := hds c List.mem_cons_self
      unfold Parser.sign
      split
      · rename_i heq
        cases heq
        cases hc
      · rename_i heq
        cases heq
        cases hc
      · rfl
  cases h with
  | whole n => exact hdigit n s
  | decimal n hfs =>
      rw [List.append_assoc]
      exact hdigit n _
  | fraction d => rfl

/-- An exponent, and what it is in front of. -/
inductive IsExponent : List Char → Prop where
  | absent : IsExponent []
  | present {c : Char} (hc : c = 'e' ∨ c = 'E') {sg : List Char}
      (hsg : sg = [] ∨ sg = ['+'] ∨ sg = ['-']) (ds : Digits) : IsExponent (c :: (sg ++ ds.chars))

theorem sign_cases (s : List Char) :
    (sign s).1 = [] ∨ (sign s).1 = ['+'] ∨ (sign s).1 = ['-'] := by
  unfold sign
  split
  · exact Or.inr (Or.inl rfl)
  · exact Or.inr (Or.inr rfl)
  · exact Or.inl rfl

theorem isExponent_of {s e s' : List Char} (h : exponent s = some (e, s')) : IsExponent e := by
  cases s with
  | nil =>
      cases h
      exact .absent
  | cons c s =>
      rw [exponent] at h
      split_ifs at h with hc
      · split at h
        · cases h
        · rename_i ds s₁ hne hd
          cases h
          exact .present hc (sign_cases s) ⟨ds, hne, isDigit_of_digits hd⟩
      · cases h
        exact .absent

theorem IsExponent.ended {e : List Char} (h : IsExponent e) : Ended e ∧ e.head? ≠ some '.' := by
  cases h with
  | absent => exact ⟨nofun, nofun⟩
  | present hc hsg ds =>
      refine ⟨?_, ?_⟩
      · rintro c ⟨⟩
        rcases hc with rfl | rfl <;> decide
      · rintro ⟨⟩
        rcases hc with hc | hc <;> cases hc

theorem IsExponent.run {e : List Char} (h : IsExponent e) : exponent e = some (e, []) := by
  cases h with
  | absent => rfl
  | @present c hc sg hsg ds =>
      have hsign : sign (sg ++ ds.chars) = (sg, ds.chars) := by
        rcases hsg with rfl | rfl | rfl
        · have hm := (IsMantissa.whole ds).sign (s := [])
          rwa [List.append_nil] at hm
        · rfl
        · rfl
      have hdigits : digits ds.chars = (ds.chars, []) := by
        have hd := digits_of_all ds.isDigit (s := []) nofun
        rwa [List.append_nil] at hd
      rw [exponent, if_pos hc, hsign]
      dsimp only
      rw [hdigits]
      split
      · rename_i heq
        exact absurd (congrArg Prod.fst heq) ds.ne_nil
      · rename_i heq
        cases heq
        rfl

/-! ## Reading exactly -/

def mantissaValue (m : List Char) : ℚ :=
  Text.digitsValue (digits m).1 +
    Text.digitsValue (digits m).2.tail / 10 ^ (digits m).2.tail.length

def exponentValue (e : List Char) : ℤ :=
  match sign e.tail with
  | (['-'], ds) => -Text.digitsValue ds
  | (_, ds) => Text.digitsValue ds

/-- The reading of numbers of the grammar as exact rationals. -/
def exactF64 (s : String) : Option ℚ :=
  match mantissa (sign s.toList).2 with
  | none => none
  | some (m, s') =>
      match exponent s' with
      | some (e, []) =>
          some ((if (sign s.toList).1 = ['-'] then -1 else 1) * mantissaValue m *
            10 ^ exponentValue e)
      | _ => none

theorem sign_mantissa {sg m s : List Char} (hsg : sg = [] ∨ sg = ['+'] ∨ sg = ['-'])
    (hm : IsMantissa m) : sign (sg ++ (m ++ s)) = (sg, m ++ s) := by
  rcases hsg with rfl | rfl | rfl
  · exact hm.sign
  · rfl
  · rfl

/-- Every number of the grammar has a value. -/
theorem exactF64_eq {sg m e : List Char} (hsg : sg = [] ∨ sg = ['+'] ∨ sg = ['-'])
    (hm : IsMantissa m) (he : IsExponent e) :
    exactF64 (String.ofList (sg ++ (m ++ e))) =
      some ((if sg = ['-'] then -1 else 1) * mantissaValue m * 10 ^ exponentValue e) := by
  unfold exactF64
  rw [String.toList_ofList, sign_mantissa hsg hm]
  dsimp only
  rw [hm.run he.ended.1 he.ended.2]
  dsimp only
  rw [he.run]

theorem recognizeFloat_eq {sg m e : List Char} (hsg : sg = [] ∨ sg = ['+'] ∨ sg = ['-'])
    (hm : IsMantissa m) (he : IsExponent e) :
    recognizeFloat (sg ++ (m ++ e)) = some (sg ++ m ++ e, []) := by
  unfold recognizeFloat
  rw [sign_mantissa hsg hm]
  dsimp only
  rw [hm.run he.ended.1 he.ended.2]
  show (exponent e >>= _) = _
  rw [he.run]
  rfl

theorem recognizeFloat_shape {s float rest : List Char}
    (h : recognizeFloat s = some (float, rest)) :
    ∃ sg m e, float = sg ++ (m ++ e) ∧ (sg = [] ∨ sg = ['+'] ∨ sg = ['-']) ∧ IsMantissa m ∧
      IsExponent e := by
  unfold recognizeFloat at h
  rcases hm : mantissa (sign s).2 with _ | ⟨m, s₁⟩
  · rw [hm] at h
    cases h
  · rcases he : exponent s₁ with _ | ⟨e, s₂⟩
    · simp [hm, he] at h
    · simp only [hm, he, Option.bind_eq_bind, Option.bind_some, Option.some.injEq,
        Prod.mk.injEq] at h
      refine ⟨_, m, e, ?_, sign_cases s, isMantissa_of hm, isExponent_of he⟩
      rw [← h.1, List.append_assoc]

theorem exactF64_recognized {s float rest : List Char}
    (h : recognizeFloat s = some (float, rest)) : ∃ q, exactF64 (String.ofList float) = some q := by
  obtain ⟨sg, m, e, rfl, hsg, hm, he⟩ := recognizeFloat_shape h
  exact ⟨_, exactF64_eq hsg hm he⟩

theorem digits_self {ds : List Char} (h : ∀ c ∈ ds, c.isDigit = true) : digits ds = (ds, []) := by
  have hd := digits_of_all h (s := []) nofun
  rwa [List.append_nil] at hd

theorem exactF64_mantissa {m : List Char} (hm : IsMantissa m) :
    exactF64 (String.ofList m) = some (mantissaValue m) := by
  have hexp : exponentValue [] = 0 := rfl
  have h := @exactF64_eq [] _ _ (Or.inl rfl) hm .absent
  rwa [List.nil_append, List.append_nil, hexp, zpow_zero, mul_one, if_neg nofun, one_mul] at h

theorem exactF64_decimal (n d : Digits) :
    exactF64 (String.ofList (n.chars ++ '.' :: d.chars)) = some (n.value + d.fraction) := by
  have hdot : Ended ('.' :: d.chars) := by
    rintro c ⟨⟩
    decide
  have hvalue : mantissaValue (n.chars ++ '.' :: d.chars) = n.value + d.fraction := by
    rw [mantissaValue, digits_of_all n.isDigit hdot]
    rfl
  rw [exactF64_mantissa (.decimal n d.isDigit), hvalue]

theorem exactF64_fraction {ds : List Char} (hne : ds ≠ []) (hds : ∀ c ∈ ds, c.isDigit = true) :
    exactF64 (String.ofList ('.' :: ds)) = some ((Text.digitsValue ds : ℚ) / 10 ^ ds.length) := by
  have hvalue : mantissaValue ('.' :: ds) = (Text.digitsValue ds : ℚ) / 10 ^ ds.length := by
    have hd : digits ('.' :: ds) = ([], '.' :: ds) := rfl
    rw [mantissaValue, hd]
    show ((0 : Nat) : ℚ) + _ = _
    simp
  rw [exactF64_mantissa (.fraction ⟨ds, hne, hds⟩), hvalue]

end Armour.Lang.Parser
