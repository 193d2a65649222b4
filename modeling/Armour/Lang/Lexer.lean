import Armour.Lang.Literals
import Armour.Lib.Parse

/-! # The lexer

`armour-lang/src/lexer.rs`, less the positions of tokens.  Unicode's alphanumeric characters and
the reading of floating-point numbers are parameters; the type `F` of these numbers is `f64` in
the source.
-/

namespace Armour.Lang.Parser

open Armour.Lib

inductive Token (F : Type) where
  | illegal (s : String)
  | eof
  | comment (s : String)
  | ident (s : String)
  | boolLiteral (b : Bool)
  | dataLiteral (d : Bytes)
  | floatLiteral (f : F)
  | intLiteral (i : Int64)
  | labelLiteral (l : Label)
  | stringLiteral (s : String)
  | someTok | regexTok
  | assign | ifTok | elseTok | asyncTok
  | plus | minus | divide | multiply | equal | notEqual | greaterThanEqual | lessThanEqual
  | greaterThan | lessThan | not | and | or | dot | plusPlus | percent | questionMark
  | function | all | any | filter | filterMap | forEach | fold | map | letTok | returnTok
  | inTok | matchesTok | asTok | external | whereTok
  | comma | colon | semiColon | lParen | rParen | lBrace | rBrace | lBracket | rBracket
  | underscore | arrow | bar | colonColon | atTok
deriving DecidableEq

/-- What the lexer and the parser take from outside. -/
structure Reading (F : Type) where
  /-- `char::is_alphanumeric`. -/
  isAlphanumeric : Char → Bool
  alphanumeric_ascii : ∀ c : Char, c.toNat < 128 → isAlphanumeric c = c.isAlphanum
  /-- `str::parse::<f64>`. -/
  parseF64 : String → Option F
  /-- The patterns that the `regex` crate compiles. -/
  compiles : Pat → Bool

/-- A reading whose alphanumeric characters are those of ASCII. -/
def Reading.ascii {F : Type} (parseF64 : String → Option F) : Reading F where
  isAlphanumeric := Char.isAlphanum
  alphanumeric_ascii _ _ := rfl
  parseF64 := parseF64
  compiles _ := true

/-- A token and the text after it. -/
abbrev Lexed (F : Type) := Except Fault (Token F × List Char)

/-! ## Numbers -/

/-- `digit1`, which may find no digit here. -/
def digits (s : List Char) : List Char × List Char :=
  (s.takeWhile Char.isDigit, s.dropWhile Char.isDigit)

/-- An optional sign. -/
def sign : List Char → List Char × List Char
  | '+' :: s => (['+'], s)
  | '-' :: s => (['-'], s)
  | s => ([], s)

/-- Digits with an optional fraction, or a fraction. -/
def mantissa (s : List Char) : Option (List Char × List Char) :=
  match digits s with
  | ([], '.' :: s) =>
      match digits s with
      | ([], _) => none
      | (fs, s) => some ('.' :: fs, s)
  | ([], _) => none
  | (ds, '.' :: s) => some (ds ++ '.' :: (digits s).1, (digits s).2)
  | (ds, s) => some (ds, s)

/-- An optional exponent; the letter without digits after it is a failure. -/
def exponent : List Char → Option (List Char × List Char)
  | [] => some ([], [])
  | c :: s =>
      if c = 'e' ∨ c = 'E' then
        match digits (sign s).2 with
        | ([], _) => none
        | (ds, s') => some (c :: (sign s).1 ++ ds, s')
      else some ([], c :: s)

/-- `recognize_float`. -/
def recognizeFloat (s : List Char) : Option (List Char × List Char) := do
  let (m, s') ← mantissa (sign s).2
  let (e, s'') ← exponent s'
  some ((sign s).1 ++ m ++ e, s'')

section

variable {F : Type}

/-- `do_parse!(opt!(tag!("-")) >> recognize!(digit1) >> ..)`. -/
def skipDigits (t : Token F) (s : List Char) : Lexed F :=
  match digits s with
  | ([], _) => .error .error
  | (_, s') => .ok (t, s')

def lexNumber (rd : Reading F) (s : List Char) : Lexed F :=
  match recognizeFloat s with
  | none => .error .error
  | some (float, rest) =>
      if float.getLast? = some '.' then
        if float.head? = some '-' then .ok (.minus, s.tail)
        else match digits s with
          | ([], _) => .error .error
          | (ds, s') =>
              match Text.parseI64 (String.ofList ds) with
              | some i => .ok (.intLiteral i, s')
              | none => .error (.panic "called `Result::unwrap()` on an `Err` value")
      else if float.head? = some '.' ∧ 'e' ∉ float then .ok (.dot, s.tail)
      else match Text.parseI64 (String.ofList float) with
        | some number =>
            skipDigits (.intLiteral number) (if s.head? = some '-' then s.tail else s)
        | none =>
            match rd.parseF64 (String.ofList float) with
            | some f => .ok (.floatLiteral f, rest)
            | none => .error (.panic "called `Result::unwrap()` on an `Err` value")

/-! ## Strings, labels and words -/

/-- `escaped!`: everything before a quotation mark, with pairs of a backslash and one of the
two. -/
def escaped : List Char → Option (List Char × List Char)
  | '\x22' :: s => some ([], '\x22' :: s)
  | '\x5c' :: c :: s =>
      if c = '\x22' ∨ c = '\x5c' then (escaped s).map (fun r => ('\x5c' :: c :: r.1, r.2))
      else none
  | '\x5c' :: [] => none
  | c :: s => (escaped s).map (fun r => (c :: r.1, r.2))
  | [] => none

/-- The text that a literal stands for. -/
def unescape (s : String) : String := Text.replace (Text.replace s "\\\"" "\"") "\\\\" "\\"

def lexString (s : List Char) : Lexed F :=
  match s with
  | 'b' :: '\x22' :: s =>
      match escaped s with
      | some (t, _ :: s') => .ok (.dataLiteral (unescape (String.ofList t)).toUTF8.toList, s')
      | _ => .error .error
  | '\x22' :: s =>
      match escaped s with
      | some (t, _ :: s') => .ok (.stringLiteral (unescape (String.ofList t)), s')
      | _ => .error .error
  | _ => .error .error

def lexLabel (s : List Char) : Lexed F :=
  match s with
  | '\x27' :: s =>
      match s.dropWhile (· ≠ '\x27') with
      | _ :: s' =>
          match Label.fromStr (String.ofList (s.takeWhile (· ≠ '\x27'))) with
          | .ok l => .ok (.labelLiteral l, s')
          | .error _ => .error .error
      | [] => .error .error
  | _ => .error .error

def parseReserved (s : String) : Token F :=
  match s with
  | "all" => .all
  | "any" => .any
  | "as" => .asTok
  | "async" => .asyncTok
  | "else" => .elseTok
  | "external" => .external
  | "false" => .boolLiteral false
  | "filter_map" => .filterMap
  | "filter" => .filter
  | "fn" => .function
  | "foreach" => .forEach
  | "fold" => .fold
  | "if" => .ifTok
  | "in" => .inTok
  | "where" => .whereTok
  | "let" => .letTok
  | "map" => .map
  | "matches" => .matchesTok
  | "Regex" => .regexTok
  | "return" => .returnTok
  | "Some" => .someTok
  | "true" => .boolLiteral true
  | s => .ident s

def Reading.isWord (rd : Reading F) (c : Char) : Bool := rd.isAlphanumeric c || c = '_'

def lexReservedIdent (rd : Reading F) (s : List Char) : Lexed F :=
  match s.takeWhile rd.isWord with
  | [] => .error .error
  | '_' :: _ => .error .error
  | w => .ok (parseReserved (String.ofList w), s.dropWhile rd.isWord)

/-! ## Operators -/

/-- An operator that a second character makes another one.  At the end of the text the
second character is missed, and there is no token. -/
def lexOption (second : Char) (long short : Token F) : List Char → Lexed F
  | [] => .error .error
  | c :: s => if c = second then .ok (long, s) else .ok (short, c :: s)

/-- `not_line_ending`, which a carriage return alone makes fail. -/
def notLineEnding : List Char → Option (List Char × List Char)
  | [] => some ([], [])
  | '\n' :: s => some ([], '\n' :: s)
  | '\r' :: '\n' :: s => some ([], '\r' :: '\n' :: s)
  | '\r' :: _ => none
  | c :: s => (notLineEnding s).map (fun r => (c :: r.1, r.2))

def lexSlash : List Char → Lexed F
  | [] => .error .error
  | '/' :: s =>
      match notLineEnding s with
      | some (t, s') => .ok (.comment (String.ofList t), s')
      | none => .ok (.divide, '/' :: s)
  | s => .ok (.divide, s)

def lexOperator : List Char → Lexed F
  | [] => .error .error
  | '@' :: s => .ok (.atTok, s)
  | '?' :: s => .ok (.questionMark, s)
  | '.' :: s => .ok (.dot, s)
  | '_' :: s => .ok (.underscore, s)
  | '*' :: s => .ok (.multiply, s)
  | '%' :: s => .ok (.percent, s)
  | ',' :: s => .ok (.comma, s)
  | ';' :: s => .ok (.semiColon, s)
  | '(' :: s => .ok (.lParen, s)
  | ')' :: s => .ok (.rParen, s)
  | '\x7b' :: s => .ok (.lBrace, s)
  | '\x7d' :: s => .ok (.rBrace, s)
  | '[' :: s => .ok (.lBracket, s)
  | ']' :: s => .ok (.rBracket, s)
  | '+' :: s => lexOption '+' .plusPlus .plus s
  | ':' :: s => lexOption ':' .colonColon .colon s
  | '/' :: s => lexSlash s
  | '|' :: s => lexOption '|' .or .bar s
  | '&' :: '&' :: s => .ok (.and, s)
  | '-' :: s => lexOption '>' .arrow .minus s
  | '<' :: s => lexOption '=' .lessThanEqual .lessThan s
  | '>' :: s => lexOption '=' .greaterThanEqual .greaterThan s
  | '=' :: s => lexOption '=' .equal .assign s
  | '!' :: s => lexOption '=' .notEqual .not s
  | _ => .error .error

def lexIllegal : List Char → Lexed F
  | [] => .error .error
  | c :: s => .ok (.illegal (String.ofList [c]), s)

/-! ## Texts -/

/-- `alt!`: the first that does not fail. -/
def alt (ls : List (List Char → Lexed F)) (s : List Char) : Lexed F :=
  match ls with
  | [] => .error .error
  | l :: ls =>
      match l s with
      | .error .error => alt ls s
      | r => r

def lexToken (rd : Reading F) : List Char → Lexed F :=
  alt [lexNumber rd, lexString, lexLabel, lexReservedIdent rd, lexOperator, lexIllegal]

def isBlank (c : Char) : Bool := c = ' ' || c = '\t' || c = '\r' || c = '\n'

def multispace0 (s : List Char) : List Char := s.dropWhile isBlank

/-- `many0!(delimited!(multispace0, lex_token, multispace0))`; every token takes a character,
and `n` is more than the characters that are left. -/
def lexUpTo (rd : Reading F) : Nat → List Char → Except Fault (List (Token F))
  | 0, _ => .ok []
  | n + 1, s =>
      match lexToken rd (multispace0 s) with
      | .ok (t, s') => (lexUpTo rd n (multispace0 s')).map (t :: ·)
      | .error .error => .ok []
      | .error e => .error e

def lexTokens (rd : Reading F) (s : List Char) : Except Fault (List (Token F)) :=
  lexUpTo rd (s.length + 1) s

def isComment : Token F → Bool
  | .comment _ => true
  | _ => false

/-- The tokens of a text, less comments, and the end. -/
def lex (rd : Reading F) (buf : String) : Except Fault (List (Token F)) :=
  (lexTokens rd buf.toList).map (fun ts => (ts ++ [.eof]).filter (fun t => !isComment t))

/-! ## Tokens take characters -/

theorem digits_append (s : List Char) : (digits s).1 ++ (digits s).2 = s :=
  List.takeWhile_append_dropWhile

theorem sign_append (s : List Char) : (sign s).1 ++ (sign s).2 = s := by
  unfold sign
  split <;> rfl

theorem mantissa_append {s m s' : List Char} (h : mantissa s = some (m, s')) :
    m ++ s' = s ∧ m ≠ [] := by
  have hs := digits_append s
  unfold mantissa at h
  split at h
  · rename_i s₁ hd
    rw [hd] at hs
    split at h
    · cases h
    · rename_i fs s₂ hne hd₁
      have hs₁ := digits_append s₁
      rw [hd₁] at hs₁
      cases h
      exact ⟨by rw [← hs, ← hs₁]; rfl, List.cons_ne_nil _ _⟩
  · cases h
  · rename_i ds s₁ hne hd
    rw [hd] at hs
    cases h
    refine ⟨?_, by simp⟩
    rw [← hs, List.append_assoc, List.cons_append, digits_append]
  · rename_i ds s₁ hne hdot hd
    rw [hd] at hs
    cases h
    refine ⟨hs, ?_⟩
    rintro rfl
    exact hne rfl

theorem exponent_append {s e s' : List Char} (h : exponent s = some (e, s')) : e ++ s' = s := by
  cases s with
  | nil =>
      cases h
      rfl
  | cons c s =>
      rw [exponent] at h
      split_ifs at h with hc
      · have hs := sign_append s
        have hd := digits_append (sign s).2
        split at h
        · cases h
        · rename_i ds s₁ hne hds
          rw [hds] at hd
          cases h
          have htext : (sign s).1 ++ (ds ++ s') = s := (congrArg _ hd).trans hs
          rw [List.cons_append, List.cons_append, List.append_assoc, htext]
      · cases h
        rfl

/-- What is recognized is the beginning of the text. -/
theorem recognizeFloat_append {s float rest : List Char}
    (h : recognizeFloat s = some (float, rest)) : float ++ rest = s ∧ float ≠ [] := by
  unfold recognizeFloat at h
  rcases hm : mantissa (sign s).2 with _ | ⟨m, s₁⟩
  · rw [hm] at h
    cases h
  · rcases he : exponent s₁ with _ | ⟨e, s₂⟩
    · simp [hm, he] at h
    · simp only [hm, he, Option.bind_eq_bind, Option.bind_some, Option.some.injEq,
        Prod.mk.injEq] at h
      obtain ⟨rfl, rfl⟩ := h
      obtain ⟨hms, hne⟩ := mantissa_append hm
      refine ⟨?_, by simp [hne]⟩
      rw [List.append_assoc, List.append_assoc, exponent_append he, hms, sign_append]

/-- Every token is a part of the text that is not empty. -/
def Takes (l : List Char → Lexed F) : Prop :=
  ∀ {s t s'}, l s = .ok (t, s') → ∃ w, w ≠ [] ∧ w ++ s' = s

theorem skipDigits_takes (t : Token F) : Takes (skipDigits t) := by
  intro s t' s' h
  have htext := digits_append s
  unfold skipDigits at h
  split at h
  · cases h
  · rename_i ds s₁ hne hd
    cases h
    rw [hd] at htext
    exact ⟨ds, hne, htext⟩

/-- The first character, where something was recognized. -/
theorem exists_tail {float rest s : List Char} (h : float ++ rest = s ∧ float ≠ []) :
    ∃ w, w ≠ [] ∧ w ++ s.tail = s := by
  obtain ⟨rfl, hne⟩ := h
  cases float with
  | nil => exact absurd rfl hne
  | cons c float => exact ⟨[c], List.cons_ne_nil _ _, rfl⟩

theorem lexNumber_takes (rd : Reading F) : Takes (lexNumber rd) := by
  intro s t s' h
  unfold lexNumber at h
  split at h
  · cases h
  · rename_i float rest hfloat
    have htext := recognizeFloat_append hfloat
    have htail := exists_tail htext
    split_ifs at h with hdot hminus hfraction hsign
    · cases h
      exact htail
    · have hdigits := digits_append s
      split at h
      · cases h
      · rename_i ds s₁ hne hd
        rw [hd] at hdigits
        split at h
        · cases h
          exact ⟨ds, hne, hdigits⟩
        · cases h
    · cases h
      exact htail
    · split at h
      · obtain ⟨w, hw, hws⟩ := skipDigits_takes _ h
        obtain ⟨v, hv, hvs⟩ := htail
        exact ⟨v ++ w, by simp [hv], by rw [List.append_assoc, hws, hvs]⟩
      · split at h
        · cases h
          exact ⟨float, htext.2, htext.1⟩
        · cases h
    · split at h
      · exact skipDigits_takes _ h
      · split at h
        · cases h
          exact ⟨float, htext.2, htext.1⟩
        · cases h

/-- What is escaped is the text before a quotation mark. -/
theorem escaped_append {s t s' : List Char} (h : escaped s = some (t, s')) :
    t ++ s' = s ∧ s'.head? = some '\x22' := by
  fun_induction escaped s generalizing t s' with
  | case1 s =>
      cases h
      exact ⟨rfl, rfl⟩
  | case2 c s hc ih =>
      obtain ⟨⟨t₁, s₁⟩, hr, heq⟩ := Option.map_eq_some_iff.mp h
      cases heq
      obtain ⟨rfl, hhead⟩ := ih hr
      exact ⟨rfl, hhead⟩
  | case3 c s hc => cases h
  | case4 => cases h
  | case5 c s hquote hpair hback ih =>
      obtain ⟨⟨t₁, s₁⟩, hr, heq⟩ := Option.map_eq_some_iff.mp h
      cases heq
      obtain ⟨rfl, hhead⟩ := ih hr
      exact ⟨rfl, hhead⟩
  | case6 => cases h

theorem lexString_takes : Takes (lexString (F := F)) := by
  intro s t s' h
  unfold lexString at h
  split at h
  · rename_i s₁
    split at h
    · rename_i w c s₂ hr
      cases h
      exact ⟨'b' :: '\x22' :: (w ++ [c]), List.cons_ne_nil _ _, by
        rw [← (escaped_append hr).1]
        simp⟩
    · cases h
  · rename_i s₁
    split at h
    · rename_i w c s₂ hr
      cases h
      exact ⟨'\x22' :: (w ++ [c]), List.cons_ne_nil _ _, by
        rw [← (escaped_append hr).1]
        simp⟩
    · cases h
  · cases h

theorem lexLabel_takes : Takes (lexLabel (F := F)) := by
  intro s t s' h
  unfold lexLabel at h
  split at h
  · rename_i s₁
    have htext := List.takeWhile_append_dropWhile (p := (fun c => decide (c ≠ '\x27'))) (l := s₁)
    split at h
    · rename_i c s₂ hdrop
      rw [hdrop] at htext
      split at h
      · cases h
        exact ⟨'\x27' :: (s₁.takeWhile (fun c => decide (c ≠ '\x27')) ++ [c]),
          List.cons_ne_nil _ _, by
            rw [List.cons_append, List.append_assoc, List.singleton_append, htext]⟩
      · cases h
    · cases h
  · cases h

theorem lexReservedIdent_takes (rd : Reading F) : Takes (lexReservedIdent rd) := by
  intro s t s' h
  have htext := List.takeWhile_append_dropWhile (p := rd.isWord) (l := s)
  unfold lexReservedIdent at h
  split at h
  · cases h
  · cases h
  · rename_i hne hunder
    cases h
    exact ⟨_, hne, htext⟩

theorem lexOption_suffix {second : Char} {long short t : Token F} {s s' : List Char}
    (h : lexOption second long short s = .ok (t, s')) : s' <:+ s := by
  cases s with
  | nil => cases h
  | cons c s =>
      rw [lexOption] at h
      split_ifs at h <;> cases h
      · exact List.suffix_cons c _
      · exact List.suffix_rfl

theorem notLineEnding_append {s t s' : List Char} (h : notLineEnding s = some (t, s')) :
    t ++ s' = s := by
  fun_induction notLineEnding s generalizing t s' with
  | case1 => cases h; rfl
  | case2 => cases h; rfl
  | case3 => cases h; rfl
  | case4 => cases h
  | case5 c s hn hrn hr ih =>
      obtain ⟨⟨t₁, s₁⟩, hs, heq⟩ := Option.map_eq_some_iff.mp h
      cases heq
      rw [List.cons_append, ih hs]

theorem lexSlash_suffix {t : Token F} {s s' : List Char} (h : lexSlash s = .ok (t, s')) :
    s' <:+ s := by
  unfold lexSlash at h
  split at h
  · cases h
  · rename_i s₁
    split at h
    · rename_i w s₂ hr
      cases h
      exact ⟨'/' :: w, congrArg _ (notLineEnding_append hr)⟩
    · cases h
      exact List.suffix_rfl
  · cases h
    exact List.suffix_rfl

theorem lexOperator_takes : Takes (lexOperator (F := F)) := by
  intro s t s' h
  have htake : ∀ {c : Char} {s₁ : List Char}, s' <:+ s₁ → ∃ w, w ≠ [] ∧ w ++ s' = c :: s₁ := by
    rintro c _ ⟨w, rfl⟩
    exact ⟨c :: w, List.cons_ne_nil _ _, rfl⟩
  unfold lexOperator at h
  split at h
  all_goals first
    | exact htake (lexOption_suffix h)
    | exact htake (lexSlash_suffix h)
    | (cases h; exact htake List.suffix_rfl)
    | (cases h; exact htake (List.suffix_cons _ _))
    | cases h

theorem lexIllegal_takes : Takes (lexIllegal (F := F)) := by
  intro s t s' h
  cases s with
  | nil => cases h
  | cons c s =>
      cases h
      exact ⟨[c], List.cons_ne_nil _ _, rfl⟩

theorem alt_takes {ls : List (List Char → Lexed F)} (h : ∀ l ∈ ls, Takes l) : Takes (alt ls) := by
  induction ls with
  | nil => nofun
  | cons l ls ih =>
      intro s t s' hs
      rw [alt] at hs
      split at hs
      · exact ih (fun l hl => h l (List.mem_cons_of_mem _ hl)) hs
      · exact h l List.mem_cons_self hs

theorem lexToken_takes (rd : Reading F) : Takes (lexToken rd) := by
  refine alt_takes ?_
  simp only [List.forall_mem_cons]
  exact ⟨lexNumber_takes rd, lexString_takes, lexLabel_takes, lexReservedIdent_takes rd,
    lexOperator_takes, lexIllegal_takes, fun _ h => absurd h List.not_mem_nil⟩

theorem length_lexToken {rd : Reading F} {s s' : List Char} {t : Token F}
    (h : lexToken rd s = .ok (t, s')) : s'.length < s.length := by
  obtain ⟨w, hw, rfl⟩ := lexToken_takes rd h
  have hpos : 0 < w.length := List.length_pos_iff.mpr hw
  rw [List.length_append]
  omega

theorem length_multispace0 (s : List Char) : (multispace0 s).length ≤ s.length :=
  (List.dropWhile_suffix _).length_le

theorem multispace0_of_head {s : List Char} (h : ∀ c ∈ s.head?, isBlank c = false) :
    multispace0 s = s := by
  cases s with
  | nil => rfl
  | cons c s => exact List.dropWhile_cons_of_neg (by simp [h c rfl])

theorem lexUpTo_succ (rd : Reading F) (n : Nat) {s : List Char} (h : s.length < n) :
    lexUpTo rd (n + 1) s = lexUpTo rd n s := by
  induction n generalizing s with
  | zero => omega
  | succ n ih =>
      rw [lexUpTo, lexUpTo]
      have hs := length_multispace0 s
      split
      · rename_i t s' ht
        have hlt := length_lexToken ht
        have hs' := length_multispace0 s'
        rw [ih (by omega)]
      · rfl
      · rfl

theorem lexUpTo_eq (rd : Reading F) {n : Nat} {s : List Char} (h : s.length < n) :
    lexUpTo rd n s = lexTokens rd s := by
  unfold lexTokens
  induction n, Nat.succ_le_of_lt h using Nat.le_induction with
  | base => rfl
  | succ n hn ih => rw [lexUpTo_succ rd n (by omega), ih (by omega)]

/-- One token, and the tokens after it. -/
theorem lexTokens_eq (rd : Reading F) (s : List Char) :
    lexTokens rd s =
      match lexToken rd (multispace0 s) with
      | .ok (t, s') => (lexTokens rd (multispace0 s')).map (t :: ·)
      | .error .error => .ok []
      | .error e => .error e := by
  show lexUpTo rd (s.length + 1) s = _
  rw [lexUpTo]
  have hs := length_multispace0 s
  split
  · rename_i t s' ht
    have hlt := length_lexToken ht
    have hs' := length_multispace0 s'
    rw [lexUpTo_eq rd (by omega)]
  · rfl
  · rfl

theorem lexTokens_nil (rd : Reading F) : lexTokens rd [] = .ok [] := rfl

theorem lexTokens_of_token {rd : Reading F} {s s' : List Char} {t : Token F}
    (h : lexToken rd (multispace0 s) = .ok (t, s')) :
    lexTokens rd s = (lexTokens rd (multispace0 s')).map (t :: ·) := by
  rw [lexTokens_eq, h]

theorem lexToken_of_number {rd : Reading F} {s s' : List Char} {t : Token F}
    (h : lexNumber rd s = .ok (t, s')) : lexToken rd s = .ok (t, s') := by
  rw [lexToken, alt, h]

theorem lex_ofList {rd : Reading F} {s : List Char} {ts : List (Token F)}
    (h : lexTokens rd s = .ok ts) :
    lex rd (String.ofList s) = .ok ((ts ++ [Token.eof]).filter (fun t => !isComment t)) := by
  rw [lex, String.toList_ofList, h]
  rfl

/-- Induction along the tokens of a text. -/
theorem lexTokens_ind {motive : List Char → Prop} (rd : Reading F)
    (step : ∀ s, (∀ t s', lexToken rd (multispace0 s) = .ok (t, s') → motive (multispace0 s')) →
      motive s) (s : List Char) : motive s := by
  generalize hn : s.length = n
  induction n using Nat.strong_induction_on generalizing s with
  | _ n ih =>
      refine step s (fun t s' h => ih _ ?_ _ rfl)
      have hlt := length_lexToken h
      have hs := length_multispace0 s
      have hs' := length_multispace0 s'
      omega

theorem suffix_lexToken {rd : Reading F} {s s' : List Char} {t : Token F}
    (h : lexToken rd (multispace0 s) = .ok (t, s')) : multispace0 s' <:+ s := by
  obtain ⟨w, -, hw⟩ := lexToken_takes rd h
  exact ((List.dropWhile_suffix _).trans ⟨w, hw⟩).trans (List.dropWhile_suffix _)

/-- Every token is one that some end of the text begins with. -/
theorem lexTokens_forall {rd : Reading F} {P : Token F → Prop} {s : List Char}
    {ts : List (Token F)} (h : lexTokens rd s = .ok ts)
    (hP : ∀ u t u', u <:+ s → lexToken rd u = .ok (t, u') → P t) : ∀ t ∈ ts, P t := by
  induction s using lexTokens_ind rd generalizing ts with
  | step s ih =>
      rw [lexTokens_eq] at h
      split at h
      · rename_i t s' ht
        rcases hs' : lexTokens rd (multispace0 s') with e | ts'
        · rw [hs'] at h
          cases h
        · rw [hs'] at h
          cases h
          have hrest := ih t s' ht hs'
            (fun u t u' hu => hP u t u' (hu.trans (suffix_lexToken ht)))
          exact List.forall_mem_cons.mpr
            ⟨hP _ t s' (List.dropWhile_suffix _) ht, hrest⟩
      · cases h
        exact fun _ h => absurd h List.not_mem_nil
      · cases h

/-- The lexer panics where it panics at a token. -/
theorem lexTokens_panic {rd : Reading F} {s : List Char} {msg : String}
    (h : lexTokens rd s = .error (.panic msg)) :
    ∃ u, u <:+ s ∧ lexToken rd u = .error (.panic msg) := by
  induction s using lexTokens_ind rd with
  | step s ih =>
      rw [lexTokens_eq] at h
      split at h
      · rename_i t s' ht
        rcases hs' : lexTokens rd (multispace0 s') with e | ts'
        · rw [hs'] at h
          cases h
          obtain ⟨u, hu, hpanic⟩ := ih t s' ht hs'
          exact ⟨u, hu.trans (suffix_lexToken ht), hpanic⟩
        · rw [hs'] at h
          cases h
      · cases h
      · rename_i e hne ht
        cases h
        exact ⟨_, List.dropWhile_suffix _, ht⟩

end

end Armour.Lang.Parser
