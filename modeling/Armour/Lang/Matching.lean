import Armour.Lang.Captures
import Armour.Lang.Semantics
import Armour.Lang.Tables
import Armour.Lang.Transport

/-! # Conditions of `if match`

What the type checker declares for an `if match` (`from_loc_expr` in
`armour-lang/src/expressions.rs`), and what the interpreter finds for it.  The variables come
from a walk over the patterns; their values come from the groups of a regular expression, named
after the variable and how it is read, or from the captures of a label.
-/

namespace Armour.Lang

open Armour.Lib

/-! ## Names of groups -/

/-- Identifiers of the lexer do not begin with an underscore. -/
def LexIdent (s : String) : Prop := s.toList.head? ≠ some '_'

instance (s : String) : Decidable (LexIdent s) := inferInstanceAs (Decidable (_ ≠ _))

namespace As

/-- The type that the type checker declares for a capture. -/
def typ : As → FlatTyp
  | str => .str
  | i64 => .i64
  | base64 => .data

/-- A captured text as a literal of that type. -/
def read {FT FL : Type} [TFlatTyp FT] [TFlatLiteral FT FL] (pf : Platform) (s : String) :
    As → Option (Literal FL)
  | str => some (.str s)
  | i64 => (Text.parseI64 s).map .int
  | base64 => (pf.base64Decode s).map .data

def readable (pf : Platform) (s : String) : As → Bool
  | str => true
  | i64 => (Text.parseI64 s).isSome
  | base64 => (pf.base64Decode s).isSome

/-- The mark of a group's name. -/
def mark : As → String
  | str => ""
  | i64 => "_i64"
  | base64 => "_b64"

variable {FT FL : Type} [TFlatTyp FT] [TFlatLiteral FT FL]

theorem isSome_read (pf : Platform) (s : String) (a : As) :
    (a.read pf s : Option (Literal FL)).isSome = a.readable pf s := by
  cases a <;> simp [read, readable]

/-- What a capture is read as has the declared type. -/
theorem read_typ {pf : Platform} {s : String} {a : As} {l : Literal FL}
    (h : a.read pf s = some l) : ∃ x : a.typ.Values, l = .dp (a.typ.literal x) := by
  cases a with
  | str =>
      cases h
      exact ⟨s, rfl⟩
  | i64 =>
      obtain ⟨i, _, rfl⟩ := Option.map_eq_some_iff.mp h
      exact ⟨i, rfl⟩
  | base64 =>
      obtain ⟨d, _, rfl⟩ := Option.map_eq_some_iff.mp h
      exact ⟨d, rfl⟩

end As

namespace Pat

mutual
/-- The captures that a pattern writes, in order. -/
def captures : Pat → List (String × As)
  | any | lit _ | cls _ => []
  | alt ps | seq ps => capturesList ps
  | as id a => [(id, a)]
  | opt p | star p | plus p | caseInsensitive p | ignoreWhitespace p => captures p

def capturesList : List Pat → List (String × As)
  | [] => []
  | p :: ps => captures p ++ capturesList ps
end

/-- The name of the group of a capture. -/
def groupName (c : String × As) : String := c.2.mark ++ c.1

mutual
theorem captureNames_eq (p : Pat) : p.captureNames = p.captures.map groupName := by
  cases p with
  | any | lit s | cls s => rfl
  | alt ps | seq ps => exact captureNamesList_eq ps
  | as id a => cases a <;> simp [captureNames, captures, groupName, As.mark]
  | opt p | star p | plus p | caseInsensitive p | ignoreWhitespace p => exact captureNames_eq p

theorem captureNamesList_eq (ps : List Pat) :
    captureNamesList ps = (capturesList ps).map groupName := by
  cases ps with
  | nil => rfl
  | cons p ps =>
      rw [captureNamesList, capturesList, captureNames_eq p, captureNamesList_eq ps,
        List.map_append]
end

/-- An identifier is not trimmed. -/
theorem not_isPrefixOf_lexIdent {s : String} (h : LexIdent s) (pre : List Char) :
    ('_' :: pre).isPrefixOf s.toList = false := by
  cases hs : s.toList with
  | nil => rfl
  | cons c cs =>
      have hc : c ≠ '_' := by
        rintro rfl
        exact h (by rw [hs]; rfl)
      simp [List.isPrefixOf, Ne.symm hc]

theorem trimStartMatches_append {s : String} (h : LexIdent s) {m : String} (pre : List Char)
    (hm : m.toList = '_' :: pre) : Text.trimStartMatches (m ++ s) m = s := by
  have hid := not_isPrefixOf_lexIdent h pre
  have hstop : ∀ n, Text.dropCopies ('_' :: pre) n s.toList = s.toList := by
    intro n
    cases n with
    | zero => rfl
    | succ n => rw [Text.dropCopies, hid, if_neg Bool.false_ne_true]
  obtain ⟨n, hn⟩ : ∃ n, (m ++ s).length = n + 1 := by
    refine ⟨pre.length + s.toList.length, ?_⟩
    rw [← String.length_toList, String.toList_append, hm, List.length_append, List.length_cons]
    omega
  have hpre : ('_' :: pre).isPrefixOf ('_' :: pre ++ s.toList) = true :=
    List.isPrefixOf_iff_prefix.mpr (List.prefix_append ..)
  rw [Text.trimStartMatches, hn, String.toList_append, hm, Text.dropCopies, if_pos hpre,
    List.drop_left, hstop, String.ofList_toList]

/-- `strip_as` undoes the naming of groups. -/
theorem stripAs_groupName {c : String × As} (h : LexIdent c.1) : stripAs (groupName c) = c := by
  obtain ⟨id, a⟩ := c
  have hstart : ∀ m t : String, Text.startsWith (m ++ t) m = true := by
    intro m t
    rw [Text.startsWith, String.toList_append]
    exact List.isPrefixOf_iff_prefix.mpr (List.prefix_append ..)
  cases a with
  | str =>
      have h1 : Text.startsWith id "_i64" = false := not_isPrefixOf_lexIdent h _
      have h2 : Text.startsWith id "_b64" = false := not_isPrefixOf_lexIdent h _
      simp only [groupName, As.mark, String.empty_append]
      rw [stripAs, if_neg (by simp [h1]), if_neg (by simp [h2])]
  | i64 =>
      simp only [groupName, As.mark]
      rw [stripAs, if_pos (hstart _ _), trimStartMatches_append h ['i', '6', '4'] (by decide)]
  | base64 =>
      have h1 : Text.startsWith ("_b64" ++ id) "_i64" = false := by
        rw [Text.startsWith, String.toList_append]
        rfl
      simp only [groupName, As.mark]
      rw [stripAs, if_neg (by simp [h1]), if_pos (hstart _ _),
        trimStartMatches_append h ['b', '6', '4'] (by decide)]

end Pat

/-! ## The type checker -/

/-- `parser::Pattern`: the regular expression is not compiled yet. -/
inductive SurfacePattern where
  | regex (p : Pat)
  | label (l : Label)

namespace Pattern

/-- The captures that the pattern writes; those of a label are read as texts. -/
def captures : Pattern → List (String × As)
  | regex re => re.pat.captures
  | label l => l.vars.map (fun v => (v, .str))

/-- The type of a subject. -/
def typ : Pattern → FlatTyp
  | regex _ => .str
  | label _ => .label

end Pattern

/-- What the type checker refuses an `if match` for. -/
inductive MatchError where
  /-- The error of `Regex::new` on a source. -/
  | regex (source : Option String)
  /-- "loc: repeated variable "k" in "if match"" -/
  | repeated (loc k : String)

/-- The loop over the variables of one pattern. -/
def insertVars (loc : String) :
    List (String × As) → BTreeMap String As → Except MatchError (BTreeMap String As)
  | [], m => .ok m
  | (k, v) :: rest, m =>
      if m.containsKey k then .error (.repeated loc k) else insertVars loc rest (m.insert k v)

/-- One pattern: it is compiled, and its variables are added to `m`. -/
def checkPattern (pk : Packages) (loc : String) (m : BTreeMap String As) :
    SurfacePattern → Except MatchError (Pattern × BTreeMap String As)
  | .regex p =>
      match PolicyRegex.source pk p with
      | none => .error (.regex (p.toRegexStr pk.escape false))
      | some _ => do
          let m ← insertVars loc (p.captureNames.map Pat.stripAs) m
          return (.regex ⟨p⟩, m)
  | .label l => do
      let m ← insertVars loc (l.vars.map (fun x => (x, .str))) m
      return (.label l, m)

/-- The patterns of an `if match` with the places of their subjects. -/
def checkPatterns (pk : Packages) :
    List (String × SurfacePattern) → BTreeMap String As →
      Except MatchError (List Pattern × BTreeMap String As)
  | [], m => .ok ([], m)
  | (loc, p) :: rest, m => do
      let (p, m) ← checkPattern pk loc m p
      let (ps, m) ← checkPatterns pk rest m
      return (p :: ps, m)

/-- What the parser makes: the names in a pattern are identifiers, the nodes of a label can be
read. -/
def SurfacePattern.Parsed : SurfacePattern → Prop
  | regex p => ∀ c ∈ p.captures, LexIdent c.1
  | label l => l.Readable

/-- The condition of an `if match` that the parser and the type checker accept: `declared` are
the variables of the branch. -/
structure IfMatch (pk : Packages) where
  conditions : List (String × SurfacePattern)
  patterns : List Pattern
  declared : BTreeMap String As
  parsed : ∀ c ∈ conditions, c.2.Parsed
  checked : checkPatterns pk conditions ∅ = .ok (patterns, declared)

/-- The map holds the variables of the list, no two of one name. -/
structure Declares (m : BTreeMap String As) (l : List (String × As)) : Prop where
  nodup : (l.map Prod.fst).Nodup
  get?_eq : ∀ k a, m.get? k = some a ↔ (k, a) ∈ l

theorem insertVars_declares {loc : String} {vs : List (String × As)} :
    ∀ {m m' : BTreeMap String As} {l : List (String × As)}, Declares m l →
      insertVars loc vs m = .ok m' → Declares m' (l ++ vs) := by
  induction vs with
  | nil =>
      intro m m' l hm h
      cases h
      rw [List.append_nil]
      exact hm
  | cons q rest ih =>
      obtain ⟨k, v⟩ := q
      intro m m' l hm h
      rw [insertVars] at h
      split_ifs at h with hk
      have hnew : m.get? k = none := by
        simpa [BTreeMap.containsKey] using hk
      have hnot : k ∉ l.map Prod.fst := by
        intro hmem
        obtain ⟨p, hp, rfl⟩ := List.mem_map.mp hmem
        rw [(hm.get?_eq p.1 p.2).mpr hp] at hnew
        cases hnew
      have hstep : Declares (m.insert k v) (l ++ [(k, v)]) := by
        refine ⟨?_, fun k' a => ?_⟩
        · rw [List.map_append, List.nodup_append]
          refine ⟨hm.nodup, by simp, ?_⟩
          rintro a ha b hb rfl
          obtain rfl : a = k := by simpa using hb
          exact hnot ha
        · rw [BTreeMap.get?_insert, List.mem_append, List.mem_singleton, ← hm.get?_eq]
          split_ifs with hk'
          · subst hk'
            simp [hnew, eq_comm]
          · simp [hk']
      have hrest := ih hstep h
      rwa [List.append_assoc] at hrest

/-- Every name that a pattern captures is an identifier. -/
def Pattern.Lexed (p : Pattern) : Prop := ∀ c ∈ p.captures, LexIdent c.1

theorem Label.vars_lexed {l : Label} (h : l.Readable) : ∀ v ∈ l.vars, LexIdent v := by
  intro v hv
  obtain ⟨n, hn, hv⟩ := List.mem_filterMap.mp hv
  have hr := h.2 n hn
  have ident : ∀ s : String, (s.isEmpty || Node.isIdent s.toList) = true →
      (if s.isEmpty = true then none else some s) = some v → LexIdent v := by
    intro s hs hsv
    split_ifs at hsv with he
    obtain rfl : s = v := Option.some.inj hsv
    simp only [he, Bool.false_or] at hs
    intro hhead
    cases hl : s.toList with
    | nil =>
        rw [hl] at hhead
        cases hhead
    | cons c cs =>
        rw [hl] at hs hhead
        cases hhead
        simp only [Node.isIdent, Bool.and_eq_true] at hs
        exact absurd hs.1 (by decide)
  cases n with
  | any s => exact ident s hr hv
  | recAny s => exact ident s hr hv
  | str s => cases hv

theorem checkPattern_declares {pk : Packages} {loc : String} {m m' : BTreeMap String As}
    {sp : SurfacePattern} {p : Pattern} {l : List (String × As)} (hsp : sp.Parsed)
    (hm : Declares m l) (h : checkPattern pk loc m sp = .ok (p, m')) :
    p.Lexed ∧ Declares m' (l ++ p.captures) := by
  cases sp with
  | regex q =>
      have hnames : q.captureNames.map Pat.stripAs = q.captures := by
        rw [Pat.captureNames_eq, List.map_map]
        refine (List.map_congr_left (fun c hc => ?_)).trans (List.map_id _)
        exact Pat.stripAs_groupName (hsp c hc)
      rw [checkPattern, hnames] at h
      split at h
      · cases h
      · cases hi : insertVars loc q.captures m with
        | error e =>
            rw [hi] at h
            cases h
        | ok m₁ =>
            rw [hi] at h
            cases h
            exact ⟨hsp, insertVars_declares hm hi⟩
  | label x =>
      rw [checkPattern] at h
      cases hi : insertVars loc (x.vars.map (fun v => (v, As.str))) m with
      | error e =>
          rw [hi] at h
          cases h
      | ok m₁ =>
          rw [hi] at h
          cases h
          refine ⟨?_, insertVars_declares hm hi⟩
          intro c hc
          obtain ⟨v, hv, rfl⟩ := List.mem_map.mp hc
          exact Label.vars_lexed hsp v hv

theorem checkPatterns_declares {pk : Packages} {cs : List (String × SurfacePattern)} :
    ∀ {m m' : BTreeMap String As} {ps : List Pattern} {l : List (String × As)},
      (∀ c ∈ cs, c.2.Parsed) → Declares m l → checkPatterns pk cs m = .ok (ps, m') →
        (∀ p ∈ ps, p.Lexed) ∧ Declares m' (l ++ ps.flatMap Pattern.captures) := by
  induction cs with
  | nil =>
      intro m m' ps l _ hm h
      cases h
      refine ⟨fun p hp => (nomatch hp), ?_⟩
      rw [List.flatMap_nil, List.append_nil]
      exact hm
  | cons c cs ih =>
      obtain ⟨loc, sp⟩ := c
      intro m m' ps l hcs hm h
      rw [checkPatterns] at h
      cases hp : checkPattern pk loc m sp with
      | error e =>
          rw [hp] at h
          cases h
      | ok r =>
          obtain ⟨p, m₁⟩ := r
          obtain ⟨hlex, hm₁⟩ := checkPattern_declares (hcs _ List.mem_cons_self) hm hp
          rw [hp] at h
          change (checkPatterns pk cs m₁ >>= fun r => pure (p :: r.1, r.2)) = _ at h
          cases hr : checkPatterns pk cs m₁ with
          | error e =>
              rw [hr] at h
              cases h
          | ok r =>
              obtain ⟨ps', m₂⟩ := r
              rw [hr] at h
              cases h
              obtain ⟨hlexs, hm₂⟩ :=
                ih (fun c hc => hcs c (List.mem_cons_of_mem _ hc)) hm₁ hr
              refine ⟨List.forall_mem_cons.mpr ⟨hlex, hlexs⟩, ?_⟩
              rw [List.flatMap_cons, ← List.append_assoc]
              exact hm₂

namespace IfMatch

variable {pk : Packages} (c : IfMatch pk)

/-- The variables are the captures of the patterns, and no two have one name. -/
theorem declares : Declares c.declared (c.patterns.flatMap Pattern.captures) := by
  have hempty : Declares (∅ : BTreeMap String As) [] := by
    refine ⟨List.nodup_nil, fun k a => ?_⟩
    simp only [List.not_mem_nil, iff_false]
    exact fun h => nomatch h
  exact (checkPatterns_declares c.parsed hempty c.checked).2

theorem lexed : ∀ p ∈ c.patterns, p.Lexed := by
  have hempty : Declares (∅ : BTreeMap String As) [] := by
    refine ⟨List.nodup_nil, fun k a => ?_⟩
    simp only [List.not_mem_nil, iff_false]
    exact fun h => nomatch h
  exact (checkPatterns_declares c.parsed hempty c.checked).1

end IfMatch

namespace Expr

/-- At least `n` closures, one in the other. -/
def closures {FL : Type} : Nat → Expr FL → Bool
  | 0, _ => true
  | n + 1, closure _ e => closures n e
  | _ + 1, _ => false

end Expr

/-! ## Matching one subject -/

section

variable {FT FL : Type} [TFlatTyp FT] [TFlatLiteral FT FL]

/-- The groups take part in the match, up to the first one whose text cannot be read. -/
def groupsTakePart (pf : Platform) (cap : String → Option String) : List (String × As) → Bool
  | [] => true
  | c :: rest =>
      match cap (Pat.groupName c) with
      | none => false
      | some s => !c.2.readable pf s || groupsTakePart pf cap rest

namespace Pattern

/-- If the subject has a match, the groups of the captures take part in it. -/
def takesPart (pf : Platform) : Pattern → Literal FL → Bool
  | label _, _ => true
  | regex re, l =>
      match l.getStr?.bind (pf.regexCaptures re.pat) with
      | none => true
      | some cap => groupsTakePart pf cap re.pat.captures

/-- A literal of the type that the type checker demands of a subject. -/
def Subject (p : Pattern) (l : Literal FL) : Prop :=
  ∃ x : p.typ.Values, l = .dp (p.typ.literal x)

/-- What a capture of the pattern names in a subject, read as the capture says. -/
def part (pf : Platform) (c : String × As) : Pattern → Literal FL → Option (Literal FL)
  | regex re, l => do
      let s ← l.getStr?
      let cap ← pf.regexCaptures re.pat s
      let text ← cap (Pat.groupName c)
      c.2.read pf text
  | label p, l => do
      let l ← l.getLabel?
      let nodes ← Label.part p.nodes l.nodes c.1
      some (.str (Label.display ⟨nodes⟩))

/-- The captures of a match: one for each that the pattern writes, with what it names. -/
structure Binds (pf : Platform) (p : Pattern) (l : Literal FL)
    (caps : List (String × Literal FL)) : Prop where
  names : (caps.map Prod.fst).Perm (p.captures.map Prod.fst)
  parts : ∀ q ∈ caps, ∃ a, (q.1, a) ∈ p.captures ∧ p.part pf (q.1, a) l = some q.2

end Pattern

/-! ### Groups of a regular expression -/

/-- The loop over the groups of a match. -/
abbrev collect (pf : Platform) (cap : String → Option String) (cs : List (String × As)) :
    Checked (Option (List (String × Literal FL))) :=
  Literal.performMatch.collect pf cap (cs.map Pat.groupName)

section

variable {pf : Platform} {cap : String → Option String} {c : String × As}
  {cs : List (String × As)}

theorem collect_none (h : cap (Pat.groupName c) = none) : ∃ msg,
    (collect pf cap (c :: cs) : Checked (Option (List (String × Literal FL)))) = .error msg := by
  refine ⟨"called `Option::unwrap()` on a `None` value", ?_⟩
  simp only [collect, List.map_cons, Literal.performMatch.collect, h]

/-- The group of an identifier is read as the capture says. -/
theorem collect_some (hlex : LexIdent c.1) {s : String} (h : cap (Pat.groupName c) = some s) :
    (collect pf cap (c :: cs) : Checked (Option (List (String × Literal FL)))) =
      (c.2.read pf s).elim (.ok none)
        (fun v => (collect pf cap cs).map (Option.map ((c.1, v) :: ·))) := by
  obtain ⟨id, a⟩ := c
  simp only [collect, List.map_cons, Literal.performMatch.collect, h,
    Pat.stripAs_groupName hlex]
  cases a with
  | str => rfl
  | i64 =>
      simp only [As.read]
      cases Text.parseI64 s <;> rfl
  | base64 =>
      simp only [As.read]
      cases pf.base64Decode s <;> rfl

theorem groupsTakePart_some {s : String} (h : cap (Pat.groupName c) = some s) :
    groupsTakePart pf cap (c :: cs) = (!c.2.readable pf s || groupsTakePart pf cap cs) := by
  rw [groupsTakePart, h]

/-- The loop panics at a group that took no part. -/
theorem collect_error (hlex : ∀ c ∈ cs, LexIdent c.1) (h : groupsTakePart pf cap cs = false) :
    ∃ msg, (collect pf cap cs : Checked (Option (List (String × Literal FL)))) = .error msg := by
  induction cs with
  | nil => cases h
  | cons c cs ih =>
      obtain ⟨hc, hcs⟩ := List.forall_mem_cons.mp hlex
      cases hcap : cap (Pat.groupName c) with
      | none => exact collect_none hcap
      | some s =>
          rw [groupsTakePart_some hcap, ← @As.isSome_read FT FL _ _ pf s c.2] at h
          rw [collect_some hc hcap]
          cases hread : (c.2.read pf s : Option (Literal FL)) with
          | none =>
              rw [hread] at h
              cases h
          | some v =>
              rw [hread] at h
              obtain ⟨msg, hmsg⟩ := ih hcs h
              exact ⟨msg, by rw [Option.elim_some, hmsg]; rfl⟩

/-- Where all groups took part, the loop ends; if it finds captures at all, it finds each of
them. -/
theorem collect_ok (hlex : ∀ c ∈ cs, LexIdent c.1) (h : groupsTakePart pf cap cs = true) :
    ∃ r : Option (List (String × Literal FL)), collect pf cap cs = .ok r ∧
      ∀ caps, r = some caps → caps.map Prod.fst = cs.map Prod.fst ∧
        ∀ q ∈ caps, ∃ a s, (q.1, a) ∈ cs ∧ cap (Pat.groupName (q.1, a)) = some s ∧
          a.read pf s = some q.2 := by
  induction cs with
  | nil =>
      refine ⟨some [], rfl, fun caps hcaps => ?_⟩
      cases hcaps
      exact ⟨rfl, fun q hq => (nomatch hq)⟩
  | cons c cs ih =>
      obtain ⟨hc, hcs⟩ := List.forall_mem_cons.mp hlex
      cases hcap : cap (Pat.groupName c) with
      | none =>
          rw [groupsTakePart, hcap] at h
          cases h
      | some s =>
          rw [groupsTakePart_some hcap, ← @As.isSome_read FT FL _ _ pf s c.2] at h
          rw [collect_some hc hcap]
          cases hread : (c.2.read pf s : Option (Literal FL)) with
          | none => exact ⟨none, rfl, fun caps hcaps => (nomatch hcaps)⟩
          | some v =>
              rw [hread] at h
              obtain ⟨r, hr, hspec⟩ := ih hcs h
              refine ⟨r.map ((c.1, v) :: ·), by rw [Option.elim_some, hr]; rfl, ?_⟩
              intro caps hcaps
              obtain ⟨caps', rfl, rfl⟩ := Option.map_eq_some_iff.mp hcaps
              obtain ⟨hnames, hparts⟩ := hspec caps' rfl
              refine ⟨by rw [List.map_cons, List.map_cons, hnames], fun q hq => ?_⟩
              rcases List.mem_cons.mp hq with rfl | hq
              · exact ⟨c.2, s, List.mem_cons_self, hcap, hread⟩
              · obtain ⟨a, t, ha, ht⟩ := hparts q hq
                exact ⟨a, t, List.mem_cons_of_mem _ ha, ht⟩

end

/-! ### Subjects -/

variable {pf : Platform} {p : Pattern} {l : Literal FL}

theorem getStr?_str (s : String) : (Literal.str s : Literal FL).getStr? = some s := by
  simp [Literal.getStr?, Literal.str]

theorem getLabel?_label (x : Label) : (Literal.label x : Literal FL).getLabel? = some x := by
  simp [Literal.getLabel?, Literal.label]

theorem subject_regex {re : PolicyRegex} :
    (Pattern.regex re).Subject l ↔ ∃ s : String, l = .str s := Iff.rfl

theorem subject_label {q : Label} : (Pattern.label q).Subject l ↔ ∃ x : Label, l = .label x :=
  Iff.rfl

theorem performMatch_str (re : PolicyRegex) (s : String) :
    (Literal.str s : Literal FL).performMatch pf (.regex re) =
      if re.pat.captures.isEmpty then
        .ok (some (if pf.regexIsMatch re.pat s then some [] else none))
      else (pf.regexCaptures re.pat s).elim (.ok (some none))
        (fun cap => (collect pf cap re.pat.captures).map some) := by
  unfold Literal.performMatch
  simp only [getStr?_str, Pat.captureNames_eq, List.isEmpty_map]
  by_cases hnil : re.pat.captures.isEmpty = true
  · rw [if_pos hnil, if_pos hnil]
  · rw [if_neg hnil, if_neg hnil]
    cases pf.regexCaptures re.pat s with
    | none => rfl
    | some cap =>
        show ((collect pf cap re.pat.captures :
          Checked (Option (List (String × Literal FL)))) >>= fun r => pure (some r)) = _
        rw [Option.elim_some]
        cases (collect pf cap re.pat.captures :
          Checked (Option (List (String × Literal FL)))) <;> rfl

theorem takesPart_str (re : PolicyRegex) (s : String) :
    (Pattern.regex re).takesPart pf (.str s : Literal FL) =
      (pf.regexCaptures re.pat s).elim true (fun cap => groupsTakePart pf cap re.pat.captures) := by
  simp only [Pattern.takesPart, getStr?_str, Option.bind_some]
  cases pf.regexCaptures re.pat s <;> rfl

/-- `perform_match` panics on a subject for which a group takes no part. -/
theorem performMatch_error (hp : p.Lexed) (hl : p.Subject l) (h : p.takesPart pf l = false) :
    ∃ msg, l.performMatch pf p = .error msg := by
  cases p with
  | label q => cases h
  | regex re =>
      obtain ⟨s, rfl⟩ := subject_regex.mp hl
      rw [takesPart_str] at h
      rw [performMatch_str]
      cases hcap : pf.regexCaptures re.pat s with
      | none =>
          rw [hcap] at h
          cases h
      | some cap =>
          rw [hcap] at h
          have hne : re.pat.captures.isEmpty = false := by
            cases hcs : re.pat.captures with
            | nil =>
                rw [hcs] at h
                cases h
            | cons c cs => rfl
          obtain ⟨msg, hmsg⟩ := @collect_error FT FL _ _ pf cap re.pat.captures hp h
          exact ⟨msg, by rw [hne, if_neg Bool.false_ne_true, Option.elim_some, hmsg]; rfl⟩

/-- A match of a label has every variable of the pattern. -/
theorem binds_label {q x : Label} {m : Label.Match} (hnd : q.vars.Nodup)
    (h : q.matchWith x = some m) :
    (Pattern.label q).Binds pf (.label x : Literal FL)
      (m.pairs.map (fun r => (r.1, .str r.2))) := by
  obtain ⟨hvars, hother⟩ := Label.matchWith_part hnd h
  have hmem : ∀ v, v ∈ m.entries.map Prod.fst ↔ v ∈ q.vars := by
    intro v
    constructor
    · intro hv
      obtain ⟨e, he, rfl⟩ := List.mem_map.mp hv
      by_contra hnot
      have hnone := hother e.1 hnot
      rw [(m.mem_entries e.1 e.2).mp he] at hnone
      cases hnone
    · intro hv
      obtain ⟨ns, _, hm⟩ := hvars v hv
      exact List.mem_map.mpr ⟨_, (m.mem_entries _ _).mpr hm, rfl⟩
  refine ⟨?_, fun r hr => ?_⟩
  · have hkeys : (m.entries.map Prod.fst).Nodup := by
      rw [List.Nodup, List.pairwise_map]
      exact m.sorted.imp (fun h => ne_of_lt h)
    have hperm := (List.perm_ext_iff_of_nodup hkeys hnd).mpr hmem
    simpa [Label.Match.pairs, Pattern.captures, Function.comp_def] using hperm
  · obtain ⟨e, he, rfl⟩ := List.mem_map.mp hr
    obtain ⟨f, hf, rfl⟩ := List.mem_map.mp he
    have hv : f.1 ∈ q.vars := (hmem f.1).mp (List.mem_map_of_mem hf)
    obtain ⟨ns, hns, hm⟩ := hvars f.1 hv
    rw [(m.mem_entries f.1 f.2).mp hf] at hm
    refine ⟨.str, List.mem_map.mpr ⟨f.1, hv, rfl⟩, ?_⟩
    simp only [Pattern.part, getLabel?_label, hns, Option.bind_eq_bind, Option.bind_some,
      Option.some.inj hm]

theorem performMatch_ok (hp : p.Lexed)
    (hnd : (p.captures.map Prod.fst).Nodup) (hl : p.Subject l) (h : p.takesPart pf l = true) :
    ∃ r, l.performMatch pf p = .ok (some r) ∧ ∀ caps, r = some caps → p.Binds pf l caps := by
  cases p with
  | label q =>
      obtain ⟨x, rfl⟩ := subject_label.mp hl
      refine ⟨_, by rw [Literal.performMatch, getLabel?_label]; rfl, fun caps hcaps => ?_⟩
      obtain ⟨m, hm, rfl⟩ := Option.map_eq_some_iff.mp hcaps
      refine binds_label ?_ hm
      simpa [Pattern.captures, Function.comp_def] using hnd
  | regex re =>
      obtain ⟨s, rfl⟩ := subject_regex.mp hl
      rw [takesPart_str] at h
      rw [performMatch_str]
      by_cases hnil : re.pat.captures.isEmpty = true
      · rw [if_pos hnil]
        refine ⟨_, rfl, fun caps hcaps => ?_⟩
        split_ifs at hcaps
        cases hcaps
        refine ⟨?_, fun q hq => (nomatch hq)⟩
        simp [Pattern.captures, List.isEmpty_iff.mp hnil]
      · rw [if_neg hnil]
        cases hcap : pf.regexCaptures re.pat s with
        | none => exact ⟨none, rfl, fun caps hcaps => (nomatch hcaps)⟩
        | some cap =>
            rw [hcap, Option.elim_some] at h
            obtain ⟨r, hr, hspec⟩ := @collect_ok FT FL _ _ pf cap re.pat.captures hp h
            refine ⟨r, by rw [Option.elim_some, hr]; rfl, fun caps hcaps => ?_⟩
            obtain ⟨hnames, hparts⟩ := hspec caps hcaps
            refine ⟨by rw [hnames]; rfl, fun q hq => ?_⟩
            obtain ⟨a, t, ha, ht, hread⟩ := hparts q hq
            refine ⟨a, ha, ?_⟩
            simp only [Pattern.part, getStr?_str, hcap, ht, Option.bind_eq_bind,
              Option.bind_some, hread]

/-! ## The branch -/

omit [TFlatTyp FT] [TFlatLiteral FT FL] in
/-- The body of a closed branch takes as many arguments as names are closed. -/
theorem Expr.closures_mapVars (fv : Nat → String → Expr FL) (fb : Nat → String → Nat → Expr FL)
    (n : Nat) : ∀ (d : Nat) (e : Expr FL), e.closures n = true →
      (mapVars fv fb d e).closures n = true := by
  induction n with
  | zero => exact fun d e _ => rfl
  | succ n ih =>
      intro d e h
      cases e with
      | closure x e => exact ih (d + 1) e h
      | _ => cases h

theorem bindCaptures_closures {who : String} {caps : BTreeMap String (Literal FL)}
    {vs : List String} (hcaps : ∀ v ∈ vs, (caps.get? v).isSome = true) :
    ∀ e : Expr FL, e.closures vs.length = true → ∃ e', bindCaptures who caps vs e = .ok e' := by
  induction vs with
  | nil => exact fun e _ => ⟨e, rfl⟩
  | cons v vs ih =>
      intro e h
      obtain ⟨hv, hvs⟩ := List.forall_mem_cons.mp hcaps
      cases e with
      | closure x e =>
          obtain ⟨l, hl⟩ := Option.isSome_iff_exists.mp hv
          obtain ⟨e', he'⟩ := ih hvs (e.subst 0 (.litExpr l) true)
            (Expr.closures_mapVars _ _ vs.length 0 e h)
          refine ⟨e', ?_⟩
          rw [bindCaptures, hl]
          exact he'
      | _ => cases h

theorem closures_closureExprs {vs : List String} (hvs : ∀ v ∈ vs, v ≠ "_") (e : Expr FL) :
    (e.closureExprs vs).closures vs.length = true := by
  induction vs with
  | nil => rfl
  | cons v vs ih =>
      obtain ⟨hv, hvs⟩ := List.forall_mem_cons.mp hvs
      show ((e.closureExprs vs).closureExpr v).closures (vs.length + 1) = true
      rw [Expr.closureExpr, if_neg hv]
      exact Expr.closures_mapVars _ _ vs.length 0 _ (ih hvs)

/-! ## All subjects -/

/-- The match of evaluated subjects. -/
def matchSubjects (who : String) (pf : Platform) (ms : List (Pattern × Literal FL)) :
    EvalM FL (Option (BTreeMap String (Literal FL))) := do
  let rs ← Comp.traverse (fun m => matchSubject who pf m.1 (.lit m.2)) ms
  pure (allCaptures rs)

/-- The subjects that are literals are results themselves. -/
theorem matchSubject_literal {who : String} {w w' : World FL}
    {r : Outcome FL × Option (List (String × Literal FL))}
    (h : (matchSubject who pf p (.lit l)).run w = some (.ok r, w')) : r.1 = .lit l := by
  rw [matchSubject] at h
  split at h
  · cases h
    rfl
  · cases h
  · cases h

theorem literals_traverse {who : String} {ms : List (Pattern × Literal FL)} {w w' : World FL} :
    ∀ {rs}, (Comp.traverse (fun m => matchSubject who pf m.1 (.lit m.2)) ms).run w =
      some (.ok rs, w') → Outcome.literals (rs.map Prod.fst) = .ok (ms.map Prod.snd) := by
  induction ms generalizing w with
  | nil =>
      intro rs h
      cases h
      rfl
  | cons m ms ih =>
      intro rs h
      rw [Comp.traverse_cons] at h
      obtain ⟨r, w₁, hr, h⟩ := Comp.bind_eq_ok h
      obtain ⟨rs', w₂, hrs, h⟩ := Comp.bind_eq_ok h
      cases h
      rw [List.map_cons, matchSubject_literal hr, Outcome.literals, ih hrs]
      rfl

/-- An `if match` on literals: their match decides the branch. -/
theorem eval_ifMatchExpr [TInterpret FL] (env : Env FL) (vars : List String)
    (ms : List (Pattern × Literal FL)) (t : Expr FL) (a : Option (Expr FL)) :
    eval env (.ifMatchExpr vars (ms.map (fun m => (.litExpr m.2, m.1))) t a) = (do
      let r ← matchSubjects "eval" env.platform ms
      r.elim (evalAlternative (eval env) a)
        (fun caps => do eval env (← Comp.ofExcept (bindCaptures "eval" caps vars t)))) := by
  have hlit : ∀ l : Literal FL, eval env (.litExpr l) = pure (.lit l) := by
    intro l
    rw [eval_eq]
    rfl
  rw [eval_eq]
  simp only [evalStep, Comp.traverse_map, hlit, pure_bind, matchSubjects, bind_assoc]
  refine Comp.ext_run (fun w => ?_)
  rw [Comp.run_bind, Comp.run_bind]
  split
  · rfl
  · rfl
  · rename_i rs w' h
    rw [literals_traverse h]
    dsimp only
    cases allCaptures rs <;> rfl

theorem matchSubject_ok {who : String} (hp : p.Lexed) (hnd : (p.captures.map Prod.fst).Nodup)
    (hl : p.Subject l) (h : p.takesPart pf l = true) :
    ∃ r, matchSubject who pf p (.lit l) = pure (.lit l, r) ∧
      ∀ caps, r = some caps → p.Binds pf l caps := by
  obtain ⟨r, hr, hspec⟩ := performMatch_ok hp hnd hl h
  exact ⟨r, by rw [matchSubject, hr], hspec⟩

theorem matchSubject_panic {who : String} (hp : p.Lexed) (hl : p.Subject l)
    (h : p.takesPart pf l = false) :
    ∃ msg, matchSubject who pf p (.lit l) = Comp.throw (.panic msg) := by
  obtain ⟨msg, hmsg⟩ := performMatch_error hp hl h
  exact ⟨msg, by rw [matchSubject, hmsg]⟩

/-- What the subjects of an accepted condition are. -/
structure Subjects (ms : List (Pattern × Literal FL)) : Prop where
  lexed : ∀ m ∈ ms, m.1.Lexed
  nodup : ((ms.flatMap (fun m => m.1.captures)).map Prod.fst).Nodup
  typed : ∀ m ∈ ms, m.1.Subject m.2

theorem Subjects.tail {m : Pattern × Literal FL} {ms : List (Pattern × Literal FL)}
    (h : Subjects (m :: ms)) : (m.1.captures.map Prod.fst).Nodup ∧ Subjects ms := by
  have hnd := h.nodup
  rw [List.flatMap_cons, List.map_append, List.nodup_append] at hnd
  exact ⟨hnd.1, fun n hn => h.lexed n (List.mem_cons_of_mem _ hn), hnd.2.1,
    fun n hn => h.typed n (List.mem_cons_of_mem _ hn)⟩

/-- Where the groups take part for every subject, all subjects have an answer. -/
theorem traverse_ok {who : String} {ms : List (Pattern × Literal FL)} (hms : Subjects ms)
    (h : ∀ m ∈ ms, m.1.takesPart pf m.2 = true) :
    ∃ rs, Comp.traverse (fun m => matchSubject who pf m.1 (.lit m.2)) ms = pure rs ∧
      List.Forall₂ (fun m r => ∀ caps, r.2 = some caps → m.1.Binds pf m.2 caps) ms rs := by
  induction ms with
  | nil => exact ⟨[], rfl, .nil⟩
  | cons m ms ih =>
      obtain ⟨hm, hrest⟩ := List.forall_mem_cons.mp h
      obtain ⟨hnd, htail⟩ := hms.tail
      obtain ⟨r, hr, hspec⟩ := @matchSubject_ok FT FL _ _ pf m.1 m.2 who
        (hms.lexed m List.mem_cons_self) hnd (hms.typed m List.mem_cons_self) hm
      obtain ⟨rs, hrs, hall⟩ := ih htail hrest
      refine ⟨(.lit m.2, r) :: rs, ?_, .cons hspec hall⟩
      rw [Comp.traverse_cons, hr, pure_bind, hrs, pure_bind]

/-- Where a group takes no part for one subject, the match panics. -/
theorem traverse_panic {who : String} {ms : List (Pattern × Literal FL)} (hms : Subjects ms)
    (h : ¬∀ m ∈ ms, m.1.takesPart pf m.2 = true) :
    ∃ msg, Comp.traverse (fun m => matchSubject who pf m.1 (.lit m.2)) ms =
      Comp.throw (.panic msg) := by
  induction ms with
  | nil => exact absurd (fun m hm => (nomatch hm)) h
  | cons m ms ih =>
      obtain ⟨hnd, htail⟩ := hms.tail
      have hlex := hms.lexed m List.mem_cons_self
      have hsubj := hms.typed m List.mem_cons_self
      rw [Comp.traverse_cons]
      cases hm : m.1.takesPart pf m.2 with
      | false =>
          obtain ⟨msg, hmsg⟩ := @matchSubject_panic FT FL _ _ pf m.1 m.2 who hlex hsubj hm
          exact ⟨msg, by rw [hmsg, Comp.throw_bind]⟩
      | true =>
          obtain ⟨r, hr, _⟩ := @matchSubject_ok FT FL _ _ pf m.1 m.2 who hlex hnd hsubj hm
          have hrest : ¬∀ n ∈ ms, n.1.takesPart pf n.2 = true :=
            fun hall => h (List.forall_mem_cons.mpr ⟨hm, hall⟩)
          obtain ⟨msg, hmsg⟩ := ih htail hrest
          exact ⟨msg, by rw [hr, pure_bind, hmsg, Comp.throw_bind]⟩

theorem binds_flatMap {ms : List (Pattern × Literal FL)}
    {rs : List (Outcome FL × Option (List (String × Literal FL)))}
    (hall : List.Forall₂ (fun m r => ∀ caps, r.2 = some caps → m.1.Binds pf m.2 caps) ms rs)
    (hsome : ∀ r ∈ rs, r.2 ≠ none) :
    ((rs.flatMap (fun r => r.2.getD [])).map Prod.fst).Perm
        ((ms.flatMap (fun m => m.1.captures)).map Prod.fst) ∧
      ∀ q ∈ rs.flatMap (fun r => r.2.getD []),
        ∃ m ∈ ms, ∃ a, (q.1, a) ∈ m.1.captures ∧ m.1.part pf (q.1, a) m.2 = some q.2 := by
  induction hall with
  | nil => exact ⟨.nil, fun q hq => (nomatch hq)⟩
  | @cons m r ms rs hm _ ih =>
      obtain ⟨hr, hrs⟩ := List.forall_mem_cons.mp hsome
      obtain ⟨caps, hcaps⟩ := Option.ne_none_iff_exists'.mp hr
      obtain ⟨hnames, hparts⟩ := hm caps hcaps
      obtain ⟨hperm, hrest⟩ := ih hrs
      rw [List.flatMap_cons, List.flatMap_cons, List.map_append, List.map_append, hcaps]
      refine ⟨hnames.append hperm, fun q hq => ?_⟩
      rcases List.mem_append.mp hq with hq | hq
      · obtain ⟨a, ha, hpart⟩ := hparts q hq
        exact ⟨m, List.mem_cons_self, a, ha, hpart⟩
      · obtain ⟨n, hn, h⟩ := hrest q hq
        exact ⟨n, List.mem_cons_of_mem _ hn, h⟩

/-- The captures of a match: one for each that the patterns write, with what it names. -/
theorem allCaptures_spec {ms : List (Pattern × Literal FL)}
    {rs : List (Outcome FL × Option (List (String × Literal FL)))}
    (hall : List.Forall₂ (fun m r => ∀ caps, r.2 = some caps → m.1.Binds pf m.2 caps) ms rs)
    {caps : BTreeMap String (Literal FL)} (h : allCaptures rs = some caps)
    (hnd : ((ms.flatMap (fun m => m.1.captures)).map Prod.fst).Nodup) {c : String × As}
    (hc : c ∈ ms.flatMap (fun m => m.1.captures)) :
    ∃ m ∈ ms, ∃ l, c ∈ m.1.captures ∧ m.1.part pf c m.2 = some l ∧ caps.get? c.1 = some l := by
  rw [allCaptures] at h
  split_ifs at h with hany
  cases h
  obtain ⟨hperm, hparts⟩ := binds_flatMap hall
    (fun r hr hn => hany (List.any_eq_true.mpr ⟨r, hr, by rw [hn]; rfl⟩))
  have hmem : c.1 ∈ (rs.flatMap (fun r => r.2.getD [])).map Prod.fst :=
    hperm.mem_iff.mpr (List.mem_map_of_mem hc)
  obtain ⟨q, hq, hqc⟩ := List.mem_map.mp hmem
  obtain ⟨m, hm, a, ha, hpart⟩ := hparts q hq
  obtain rfl : (q.1, a) = c :=
    List.inj_on_of_nodup_map hnd (List.mem_flatMap.mpr ⟨m, hm, ha⟩) hc hqc
  refine ⟨m, hm, q.2, ha, hpart, ?_⟩
  exact BTreeMap.get?_ofList_of_mem (hperm.nodup_iff.mpr hnd) hq

/-- What a capture names is a literal of its declared type. -/
theorem part_typ {c : String × As} {v : Literal FL} (hc : c ∈ p.captures)
    (h : p.part pf c l = some v) : ∃ x : c.2.typ.Values, v = .dp (c.2.typ.literal x) := by
  cases p with
  | regex re =>
      simp only [Pattern.part, Option.bind_eq_bind, Option.bind_eq_some_iff] at h
      obtain ⟨s, _, cap, _, t, _, hread⟩ := h
      exact As.read_typ hread
  | label q =>
      obtain ⟨x, _, rfl⟩ := List.mem_map.mp hc
      simp only [Pattern.part, Option.bind_eq_bind, Option.bind_eq_some_iff] at h
      obtain ⟨y, _, ns, _, hv⟩ := h
      exact ⟨_, (Option.some.inj hv).symm⟩

namespace IfMatch

/-- The captures of a match bind the variables of the branch: each has a literal of its declared
type, what its capture names in a subject, and the branch takes them all. -/
structure Bound {pk : Packages} (c : IfMatch pk) (pf : Platform) (ls : List (Literal FL))
    (caps : BTreeMap String (Literal FL)) : Prop where
  values : ∀ v a, c.declared.get? v = some a → ∃ m ∈ c.patterns.zip ls, ∃ l,
    (v, a) ∈ m.1.captures ∧ m.1.part pf (v, a) m.2 = some l ∧ caps.get? v = some l ∧
      ∃ x : a.typ.Values, l = .dp (a.typ.literal x)
  branch : ∀ (vars : List String) (body : Expr FL),
    (∀ v ∈ vars, (c.declared.get? v).isSome = true) →
      ∃ e, bindCaptures "eval" caps vars (body.closureExprs vars) = .ok e

variable {pk : Packages} (c : IfMatch pk)

theorem flatMap_captures {ls : List (Literal FL)}
    (hls : List.Forall₂ Pattern.Subject c.patterns ls) :
    (c.patterns.zip ls).flatMap (fun m => m.1.captures) =
      c.patterns.flatMap Pattern.captures := by
  have hfst := List.map_fst_zip (Nat.le_of_eq hls.length_eq)
  calc (c.patterns.zip ls).flatMap (fun m => m.1.captures)
      = ((c.patterns.zip ls).map Prod.fst).flatMap Pattern.captures := by rw [List.flatMap_map]
    _ = c.patterns.flatMap Pattern.captures := by rw [hfst]

theorem subjects {ls : List (Literal FL)} (hls : List.Forall₂ Pattern.Subject c.patterns ls) :
    Subjects (c.patterns.zip ls) := by
  refine ⟨fun m hm => c.lexed m.1 (List.of_mem_zip hm).1, ?_, fun m hm => ?_⟩
  · rw [c.flatMap_captures hls]
    exact c.declares.nodup
  · exact (List.forall₂_zip hls) hm

/-- If all groups take part for every subject, the match ends and a match binds the variables. -/
theorem matchSubjects_bound {ls : List (Literal FL)}
    (hls : List.Forall₂ Pattern.Subject c.patterns ls)
    (h : ∀ m ∈ c.patterns.zip ls, m.1.takesPart pf m.2 = true) :
    ∃ r, matchSubjects "eval" pf (c.patterns.zip ls) = pure r ∧
      ∀ caps, r = some caps → c.Bound pf ls caps := by
  have hsub := c.subjects hls
  obtain ⟨rs, hrs, hall⟩ := @traverse_ok FT FL _ _ pf "eval" _ hsub h
  refine ⟨allCaptures rs, by rw [matchSubjects, hrs, pure_bind], fun caps hcaps => ?_⟩
  have hget : ∀ v a, c.declared.get? v = some a →
      (v, a) ∈ (c.patterns.zip ls).flatMap (fun m => m.1.captures) := by
    intro v a hv
    rw [c.flatMap_captures hls]
    exact (c.declares.get?_eq v a).mp hv
  have hvalues : ∀ v a, c.declared.get? v = some a → ∃ m ∈ c.patterns.zip ls, ∃ l,
      (v, a) ∈ m.1.captures ∧ m.1.part pf (v, a) m.2 = some l ∧ caps.get? v = some l :=
    fun v a hv => allCaptures_spec hall hcaps hsub.nodup (hget v a hv)
  refine ⟨fun v a hv => ?_, fun vars body hvars => ?_⟩
  · obtain ⟨m, hm, l, hmem, hpart, hl⟩ := hvalues v a hv
    exact ⟨m, hm, l, hmem, hpart, hl, part_typ hmem hpart⟩
  · refine bindCaptures_closures (fun v hv => ?_) _ (closures_closureExprs (fun v hv => ?_) body)
    · obtain ⟨a, ha⟩ := Option.isSome_iff_exists.mp (hvars v hv)
      obtain ⟨_, _, l, _, _, hl⟩ := hvalues v a ha
      rw [hl]
      rfl
    · rintro rfl
      obtain ⟨a, ha⟩ := Option.isSome_iff_exists.mp (hvars "_" hv)
      obtain ⟨m, hm, hmem⟩ := List.mem_flatMap.mp (hget "_" a ha)
      exact hsub.lexed m hm _ hmem (by decide : "_".toList.head? = some '_')

/-- An accepted `if match` ends on its subjects, and binds every variable of its branch when
they match, exactly if in each match of a subject the groups take part, up to the first one
whose text cannot be read. -/
theorem matchSubjects_total_iff (pf : Platform) {ls : List (Literal FL)}
    (hls : List.Forall₂ Pattern.Subject c.patterns ls) :
    (∃ r, matchSubjects "eval" pf (c.patterns.zip ls) = pure r ∧
      ∀ caps, r = some caps → c.Bound pf ls caps) ↔
    ∀ m ∈ c.patterns.zip ls, m.1.takesPart pf m.2 = true := by
  refine ⟨?_, c.matchSubjects_bound hls⟩
  rintro ⟨r, hr, _⟩
  by_contra hnot
  obtain ⟨msg, hmsg⟩ := @traverse_panic FT FL _ _ pf "eval" _ (c.subjects hls) hnot
  rw [matchSubjects, hmsg, Comp.throw_bind] at hr
  exact Comp.throw_ne_pure _ _ hr

end IfMatch

end

/-- The pattern `"b" | [x]`. -/
def IfMatch.either : IfMatch spelled where
  conditions := [("1:4", .regex (.alt [.lit "b", .as "x" .str]))]
  patterns := [.regex ⟨.alt [.lit "b", .as "x" .str]⟩]
  declared := BTreeMap.insert ∅ "x" .str
  parsed := by
    intro c hc
    obtain rfl := List.mem_singleton.mp hc
    intro c hc
    obtain rfl := List.mem_singleton.mp hc
    decide
  checked := rfl

/-- Regular expressions on that pattern: the first alternative leaves the group out. -/
def eitherPlatform : Platform :=
  { Platform.offline with
    regexCaptures := fun _ s => some (fun name => if s = "b" ∨ name ≠ "x" then none else some s) }

/-- On the text `c` the variable is bound. -/
theorem IfMatch.either_c :
    ∃ r : Option (BTreeMap String DPLiteral),
      matchSubjects "eval" eitherPlatform (IfMatch.either.patterns.zip [.str "c"]) = pure r ∧
        ∀ caps, r = some caps → IfMatch.either.Bound eitherPlatform [.str "c"] caps :=
  (IfMatch.either.matchSubjects_total_iff eitherPlatform
    (.cons ⟨"c", rfl⟩ .nil)).mpr (by
      intro m hm
      obtain rfl := List.mem_singleton.mp hm
      decide)

/-- On the text `b`, which the first alternative matches, the match panics, and so does the
expression. -/
theorem IfMatch.either_b :
    List.Forall₂ Pattern.Subject IfMatch.either.patterns [(.str "b" : DPLiteral)] ∧
      (¬∃ r : Option (BTreeMap String DPLiteral),
        matchSubjects "eval" eitherPlatform (IfMatch.either.patterns.zip [.str "b"]) = pure r) ∧
      ∀ (env : Env DPFlatLiteral) (vars : List String) (t : DPExpr) (a : Option DPExpr)
        (w : World DPFlatLiteral), env.platform = eitherPlatform →
        ∃ msg, (eval env (.ifMatchExpr vars ((IfMatch.either.patterns.zip [.str "b"]).map
          (fun m => (.litExpr m.2, m.1))) t a)).run w = some (.error (.panic msg), w) := by
  have hpanic : ∃ msg, ∀ w, Comp.run (matchSubjects "eval" eitherPlatform
      (IfMatch.either.patterns.zip [(.str "b" : DPLiteral)])) w =
        some (.error (.panic msg), w) := ⟨_, fun _ => rfl⟩
  obtain ⟨msg, hmsg⟩ := hpanic
  refine ⟨.cons ⟨"b", rfl⟩ .nil, ?_, fun env vars t a w hpf => ⟨msg, ?_⟩⟩
  · rintro ⟨r, hr⟩
    have hmsg := hmsg default
    rw [hr] at hmsg
    cases hmsg
  · rw [eval_ifMatchExpr, hpf, Comp.run_bind_error (hmsg w)]

end Armour.Lang
