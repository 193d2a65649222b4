import Armour.Lib.BTree
import Armour.Lib.Text
import Mathlib.Data.Prod.Lex
import Mathlib.Data.List.Lex

/-! # Labels

`armour-lang/src/labels.rs`.  A label is a sequence of nodes; matching a label
against another one collects the nodes its captures stand for.  The source
defines label equality by matching in both directions, and matching compares
captured labels with that equality: `matchWith_eq` is the recursion it writes.
-/

namespace Armour.Lang

open Armour.Lib

/-- Node element of a label. -/
inductive Node where
  | any (s : String)
  | recAny (s : String)
  | str (s : String)
deriving DecidableEq, Repr

namespace Node

/-- The derived order: variants in declaration order, then their texts. -/
def key : Node → Nat ×ₗ String
  | any s => toLex (0, s)
  | recAny s => toLex (1, s)
  | str s => toLex (2, s)

theorem key_injective : Function.Injective key := by
  intro a b h
  have h' : ofLex (key a) = ofLex (key b) := congrArg ofLex h
  cases a <;> cases b <;> simp_all [key]

instance : LinearOrder Node := LinearOrder.lift' key key_injective

def display : Node → String
  | any s => if s.isEmpty then "*" else "<" ++ s ++ ">"
  | recAny s => if s.isEmpty then "**" else "<<" ++ s ++ ">>"
  | str s => s

def getStr : Node → Option String
  | str s => some s
  | _ => none

def getAny : Node → Option String
  | any s | recAny s => if s.isEmpty then none else some s
  | str _ => none

/-- `[[:alpha:]][[:alnum:]]*`. -/
def isIdent (s : List Char) : Bool :=
  match s with
  | [] => false
  | c :: cs => c.isAlpha && cs.all Char.isAlphanum

/-- `([ _+-]?[[:alnum:]])*`. -/
def isStrTail : List Char → Bool
  | [] => true
  | [c] => c.isAlphanum
  | c :: d :: cs =>
      if c.isAlphanum then isStrTail (d :: cs)
      else (c = ' ' || c = '_' || c = '+' || c = '-') && d.isAlphanum && isStrTail cs

/-- Text between an opening and a closing mark, when `s` has both. -/
def stripMarks (opening closing : List Char) (s : List Char) : Option (List Char) :=
  if opening.isPrefixOf s && closing.isSuffixOf s
      && opening.length + closing.length ≤ s.length then
    some ((s.drop opening.length).take (s.length - opening.length - closing.length))
  else none

/-- `Node::from_str`. -/
def fromStr (s : String) : Except String Node :=
  if s = "*" then .ok (any "")
  else if s = "**" then .ok (recAny "")
  else match (stripMarks ['<'] ['>'] s.toList).filter isIdent with
    | some v => .ok (any (String.ofList v))
    | none => match (stripMarks ['<', '<'] ['>', '>'] s.toList).filter isIdent with
      | some v => .ok (recAny (String.ofList v))
      | none => match s.toList with
        | c :: cs =>
            if c.isAlphanum && isStrTail cs then .ok (str s) else .error ("bad label: " ++ s)
        | [] => .error ("bad label: " ++ s)

/-- The nodes that a text can describe. -/
def readable : Node → Bool
  | any s | recAny s => s.isEmpty || isIdent s.toList
  | str s =>
      match s.toList with
      | c :: cs => c.isAlphanum && isStrTail cs
      | [] => false

end Node

/-- Label type representing sequences of nodes. -/
structure Label where
  nodes : List Node
deriving DecidableEq, Repr, Inhabited

namespace Label

theorem nodes_injective : Function.Injective Label.nodes := by
  rintro ⟨a⟩ ⟨b⟩ h
  simpa using h

instance : LinearOrder Label := LinearOrder.lift' nodes nodes_injective

/-- What one pattern node does to the captures collected so far. -/
inductive MatchNode where
  | mismatch
  | matched
  | map (x : String) (n : Node)
  | mapRec (x : String) (n : Node)

/-- `Node::match_with`. -/
@[simp] def matchNode : Node → Node → MatchNode
  | .str x, .str y => if x = y then .matched else .mismatch
  | .str _, _ => .mismatch
  | .any x, l => if x.isEmpty then .matched else .map x l
  | .recAny x, l => if x.isEmpty then .matched else .mapRec x l

abbrev Match := BTreeMap String Label

/-- The loop of `match_with`; `differ` is the comparison of two captures of one name. -/
def matchPairs (differ : Label → Label → Bool) : List (Node × Node) → Match → Option Match
  | [], m => some m
  | (pat, node) :: rest, m =>
      match matchNode pat node with
      | .mismatch => none
      | .matched => matchPairs differ rest m
      | .map x r =>
          match m.get? x with
          | some other =>
              if differ other ⟨[r]⟩ then none
              else matchPairs differ rest (m.insert x ⟨[r]⟩)
          | none => matchPairs differ rest (m.insert x ⟨[r]⟩)
      | .mapRec x r =>
          match m.get? x with
          | some other => matchPairs differ rest (m.insert x ⟨other.nodes ++ [r]⟩)
          | none => matchPairs differ rest (m.insert x ⟨[r]⟩)

@[simp] theorem matchPairs_nil (differ : Label → Label → Bool) (m : Match) :
    matchPairs differ [] m = some m := rfl

theorem matchPairs_cons (differ : Label → Label → Bool) (pat node : Node)
    (rest : List (Node × Node)) (m : Match) :
    matchPairs differ ((pat, node) :: rest) m =
      match matchNode pat node with
      | .mismatch => none
      | .matched => matchPairs differ rest m
      | .map x r =>
          match m.get? x with
          | some other =>
              if differ other ⟨[r]⟩ then none
              else matchPairs differ rest (m.insert x ⟨[r]⟩)
          | none => matchPairs differ rest (m.insert x ⟨[r]⟩)
      | .mapRec x r =>
          match m.get? x with
          | some other => matchPairs differ rest (m.insert x ⟨other.nodes ++ [r]⟩)
          | none => matchPairs differ rest (m.insert x ⟨[r]⟩) := rfl

/-- The pattern with its final recursive node repeated up to the length of `l`. -/
def expand (p l : Label) : List Node :=
  match p.nodes.getLast? with
  | some (.recAny y) =>
      p.nodes ++ List.replicate (l.nodes.length - p.nodes.length) (.recAny y)
  | _ => p.nodes

/-- `match_with` with the comparison of repeated captures left open. -/
def matchWithBy (differ : Label → Label → Bool) (p l : Label) : Option Match :=
  if (p.expand l).length = l.nodes.length then
    matchPairs differ ((p.expand l).zip l.nodes) BTreeMap.empty
  else none

/-- Equality of two captures: no capture name can repeat inside it (`matchWith_eq`). -/
def captureEq (a b : Label) : Bool :=
  (matchWithBy (fun _ _ => false) a b).isSome && (matchWithBy (fun _ _ => false) b a).isSome

/-- `Label::match_with`. -/
def matchWith (p l : Label) : Option Match :=
  matchWithBy (fun a b => !captureEq a b) p l

def matchesWith (p l : Label) : Bool := (p.matchWith l).isSome

/-- `impl PartialEq for Label`: each of the two labels matches the other. -/
protected def beq (a b : Label) : Bool := a.matchesWith b && b.matchesWith a

instance : BEq Label := ⟨Label.beq⟩

/-! ## The recursion of label equality -/

/-- On recursive nodes no two captures are compared. -/
theorem matchPairs_recAny (d d' : Label → Label → Bool) (y : String) :
    ∀ (l : List (Node × Node)) (m : Match), (∀ q ∈ l, q.1 = .recAny y) →
      matchPairs d l m = matchPairs d' l m
  | [], _, _ => rfl
  | (pat, node) :: rest, m, h => by
      have hpat : pat = .recAny y := h (pat, node) List.mem_cons_self
      have hrest : ∀ q ∈ rest, q.1 = .recAny y :=
        fun q hq => h q (List.mem_cons_of_mem _ hq)
      subst hpat
      simp only [matchPairs_cons, matchNode]
      split_ifs
      · exact matchPairs_recAny d d' y rest m hrest
      · dsimp only
        cases m.get? y with
        | none => exact matchPairs_recAny d d' y rest _ hrest
        | some other => exact matchPairs_recAny d d' y rest _ hrest

/-- A single pair meets an empty map, so nothing is compared either. -/
theorem matchPairs_single (d d' : Label → Label → Bool) (q : Node × Node) :
    matchPairs d [q] BTreeMap.empty = matchPairs d' [q] BTreeMap.empty := by
  obtain ⟨pat, node⟩ := q
  simp only [matchPairs_cons]
  cases matchNode pat node <;> simp

theorem matchWithBy_single_right (d d' : Label → Label → Bool) (a : Label) (r : Node) :
    matchWithBy d a ⟨[r]⟩ = matchWithBy d' a ⟨[r]⟩ := by
  unfold matchWithBy
  split_ifs with h
  · obtain ⟨q, hq⟩ := List.length_eq_one_iff.mp (by simpa using h)
    simp only [hq, List.zip_cons_cons, List.zip_nil_left]
    exact matchPairs_single d d' _
  · rfl

theorem matchWithBy_single_left (d d' : Label → Label → Bool) (r : Node) (b : Label) :
    matchWithBy d ⟨[r]⟩ b = matchWithBy d' ⟨[r]⟩ b := by
  unfold matchWithBy
  split_ifs with h
  · cases r with
    | recAny y =>
        refine matchPairs_recAny d d' y _ _ (fun q hq => ?_)
        have hmem := (List.of_mem_zip (a := q.1) (b := q.2) hq).1
        simp only [expand, List.getLast?_singleton, List.mem_append, List.mem_singleton,
          List.mem_replicate] at hmem
        rcases hmem with h | h
        · exact h
        · exact h.2
    | any x | str x =>
        simp only [expand, List.getLast?_singleton, List.length_singleton] at h ⊢
        obtain ⟨q, hq⟩ := List.length_eq_one_iff.mp h.symm
        simp only [hq, List.zip_cons_cons, List.zip_nil_left]
        exact matchPairs_single d d' _
  · rfl

theorem captureEq_eq_beq (a : Label) (r : Node) : captureEq a ⟨[r]⟩ = Label.beq a ⟨[r]⟩ := by
  unfold captureEq Label.beq matchesWith matchWith
  rw [matchWithBy_single_right (fun _ _ => false) (fun a b => !captureEq a b) a r,
    matchWithBy_single_left (fun _ _ => false) (fun a b => !captureEq a b) r a]

theorem matchPairs_congr {d d' : Label → Label → Bool}
    (h : ∀ a r, d a ⟨[r]⟩ = d' a ⟨[r]⟩) :
    ∀ (l : List (Node × Node)) (m : Match), matchPairs d l m = matchPairs d' l m
  | [], _ => rfl
  | (pat, node) :: rest, m => by
      simp only [matchPairs_cons]
      cases matchNode pat node with
      | mismatch => rfl
      | matched => exact matchPairs_congr h rest m
      | map x r =>
          dsimp only
          cases m.get? x with
          | none => exact matchPairs_congr h rest _
          | some other => simp only [h other r, matchPairs_congr h rest]
      | mapRec x r =>
          dsimp only
          cases m.get? x with
          | none => exact matchPairs_congr h rest _
          | some other => exact matchPairs_congr h rest _

/-- The source's recursion: captures are compared with label equality itself. -/
theorem matchWith_eq (p l : Label) :
    p.matchWith l = matchWithBy (fun a b => !Label.beq a b) p l := by
  unfold matchWith matchWithBy
  split_ifs
  · exact matchPairs_congr (fun a r => by rw [captureEq_eq_beq]) _ _
  · rfl

/-! ## Operations of the evaluator -/

/-- `Label::from_str`, on the parts between `::`. -/
def fromStr (s : String) : Except String Label := do
  let v ← (Text.split "::" s).mapM Node.fromStr
  return ⟨v⟩

def display (l : Label) : String := "::".intercalate (l.nodes.map Node.display)

def concat (l1 l2 : Label) : Label := ⟨l1.nodes ++ l2.nodes⟩

/-- `Label::prefix`. -/
def addPrefix (l : Label) (s : String) : Label := ⟨.str s :: l.nodes⟩

def parts (l : Label) : Option (List String) := l.nodes.mapM Node.getStr

def vars (l : Label) : List String := l.nodes.filterMap Node.getAny

def loginTime (t : Int64) : Label :=
  ⟨[.str "ControlPlane", .str "LoginTime", .str (toString t.toInt)]⟩

/-- `From<&Match> for Vec<(String, String)>`. -/
def Match.pairs (m : Match) : List (String × String) :=
  m.entries.map (fun p => (p.1, p.2.display))

end Label

/-! ## Texts of labels -/

namespace Node

theorem ne_colon_of_isAlphanum {c : Char} (h : c.isAlphanum = true) : c ≠ ':' := by
  rintro rfl
  revert h
  decide

theorem isAlphanum_of_isIdent {l : List Char} (h : isIdent l = true) :
    ∀ c ∈ l, c.isAlphanum = true := by
  cases l with
  | nil => simp
  | cons c cs =>
      simp only [isIdent, Bool.and_eq_true, List.all_eq_true] at h
      refine List.forall_mem_cons.mpr ⟨?_, h.2⟩
      simp [Char.isAlphanum, h.1]

theorem not_colon_mem_of_isStrTail : ∀ {l : List Char}, isStrTail l = true → ':' ∉ l
  | [], _ => by simp
  | [c], h => by
      have hc : c.isAlphanum = true := h
      simpa using (ne_colon_of_isAlphanum hc).symm
  | c :: d :: cs, h => by
      rw [isStrTail] at h
      split_ifs at h with hc
      · have ih := not_colon_mem_of_isStrTail h
        exact List.not_mem_cons_of_ne_of_not_mem (ne_colon_of_isAlphanum hc).symm ih
      · simp only [Bool.and_eq_true, Bool.or_eq_true, decide_eq_true_eq] at h
        obtain ⟨⟨hsep, hd⟩, hcs⟩ := h
        have ih := not_colon_mem_of_isStrTail hcs
        refine List.not_mem_cons_of_ne_of_not_mem ?_
          (List.not_mem_cons_of_ne_of_not_mem (ne_colon_of_isAlphanum hd).symm ih)
        rintro rfl
        revert hsep
        decide

/-- The text of a readable node does not hold the separator of labels. -/
theorem not_colon_mem_display {n : Node} (h : n.readable = true) : ':' ∉ n.display.toList := by
  have hident : ∀ {s : String}, (s.isEmpty || isIdent s.toList) = true → ':' ∉ s.toList := by
    intro s hs hmem
    rcases Bool.or_eq_true .. ▸ hs with hs | hs
    · rw [String.isEmpty_iff] at hs
      simp [hs] at hmem
    · exact ne_colon_of_isAlphanum (isAlphanum_of_isIdent hs _ hmem) rfl
  cases n with
  | any s =>
      have hs := hident h
      simp only [display]
      split_ifs
      · decide
      · simpa using hs
  | recAny s =>
      have hs := hident h
      simp only [display]
      split_ifs
      · decide
      · simpa using hs
  | str s =>
      simp only [readable] at h
      simp only [display]
      cases hs : s.toList with
      | nil => simp
      | cons c cs =>
          simp only [hs, Bool.and_eq_true] at h
          exact List.not_mem_cons_of_ne_of_not_mem (ne_colon_of_isAlphanum h.1).symm
            (not_colon_mem_of_isStrTail h.2)

/-- A text within marks. -/
theorem stripMarks_eq_some {o c s v : List Char} :
    stripMarks o c s = some v ↔ s = o ++ v ++ c := by
  unfold stripMarks
  constructor
  · intro h
    split_ifs at h with hs
    simp only [Bool.and_eq_true, decide_eq_true_eq] at hs
    obtain ⟨⟨hpre, hsuf⟩, hlen⟩ := hs
    obtain ⟨t, rfl⟩ := List.isPrefixOf_iff_prefix.mp hpre
    rw [List.length_append] at hlen
    obtain ⟨u, rfl⟩ : c <:+ t := List.suffix_of_suffix_length_le
      (List.isSuffixOf_iff_suffix.mp hsuf) (List.suffix_append o t) (by omega)
    cases h
    simp [List.append_assoc]
  · rintro rfl
    have hpre : o.isPrefixOf (o ++ v ++ c) = true :=
      List.isPrefixOf_iff_prefix.mpr ⟨v ++ c, by simp⟩
    have hsuf : c.isSuffixOf (o ++ v ++ c) = true :=
      List.isSuffixOf_iff_suffix.mpr ⟨o ++ v, rfl⟩
    have hlen : o.length + c.length ≤ (o ++ v ++ c).length := by
      simp only [List.length_append]
      omega
    rw [if_pos (by simp only [hpre, hsuf, hlen, decide_true, Bool.and_self])]
    simp [List.append_assoc]

theorem ne_nil_of_isIdent {l : List Char} (h : isIdent l = true) : l ≠ [] := by
  rintro rfl
  cases h

/-- What is read is readable, and its text is the one read. -/
theorem of_fromStr {s : String} {n : Node} (h : fromStr s = .ok n) :
    n.readable = true ∧ n.display = s := by
  have hmarks : ∀ {o c v : List Char},
      (stripMarks o c s.toList).filter isIdent = some v →
        isIdent v = true ∧ String.ofList o ++ String.ofList v ++ String.ofList c = s := by
    intro o c v hv
    obtain ⟨hstrip, hident⟩ := Option.filter_eq_some_iff.mp hv
    refine ⟨hident, ?_⟩
    rw [← String.toList_inj, stripMarks_eq_some.mp hstrip]
    simp
  have hname : ∀ {v : List Char}, isIdent v = true → (String.ofList v).isEmpty = false := by
    intro v hv
    simpa using ne_nil_of_isIdent hv
  unfold fromStr at h
  split_ifs at h with h1 h2
  · cases h
    exact ⟨rfl, h1.symm⟩
  · cases h
    exact ⟨rfl, h2.symm⟩
  · cases hany : (stripMarks ['<'] ['>'] s.toList).filter isIdent with
    | some v =>
        rw [hany] at h
        cases h
        obtain ⟨hv, hs⟩ := hmarks hany
        refine ⟨by simp [readable, hv], ?_⟩
        simp only [display, hname hv]
        exact hs
    | none =>
        rw [hany] at h
        cases hrec : (stripMarks ['<', '<'] ['>', '>'] s.toList).filter isIdent with
        | some v =>
            rw [hrec] at h
            cases h
            obtain ⟨hv, hs⟩ := hmarks hrec
            refine ⟨by simp [readable, hv], ?_⟩
            simp only [display, hname hv]
            exact hs
        | none =>
            rw [hrec] at h
            cases hs : s.toList with
            | nil => simp [hs] at h
            | cons c cs =>
                simp only [hs] at h
                split_ifs at h with hc
                cases h
                exact ⟨by simpa [readable, hs] using hc, rfl⟩

/-- A readable node is read back from its text. -/
theorem fromStr_display {n : Node} (h : n.readable = true) : fromStr n.display = .ok n := by
  have hmarks : ∀ (o c : List Char) {t : String},
      stripMarks o c (String.ofList o ++ t ++ String.ofList c).toList = some t.toList := by
    intro o c t
    exact stripMarks_eq_some.mpr (by simp)
  cases n with
  | any s =>
      by_cases hs : s.isEmpty = true
      · rw [String.isEmpty_iff] at hs
        subst hs
        decide
      · have hident : isIdent s.toList = true := by simpa [readable, hs] using h
        have hstrip := hmarks ['<'] ['>'] (t := s)
        have h1 : "<" ++ s ++ ">" ≠ "*" := fun he => by
          have hl := congrArg String.toList he
          simp at hl
        have h2 : "<" ++ s ++ ">" ≠ "**" := fun he => by
          have hl := congrArg String.toList he
          simp at hl
        have hf : (stripMarks ['<'] ['>'] ("<" ++ s ++ ">").toList).filter isIdent =
            some s.toList := Option.filter_eq_some_iff.mpr ⟨hstrip, hident⟩
        simp only [display, if_neg hs, fromStr, if_neg h1, if_neg h2, hf, String.ofList_toList]
  | recAny s =>
      by_cases hs : s.isEmpty = true
      · rw [String.isEmpty_iff] at hs
        subst hs
        decide
      · have hident : isIdent s.toList = true := by simpa [readable, hs] using h
        have hstrip := hmarks ['<', '<'] ['>', '>'] (t := s)
        have h1 : "<<" ++ s ++ ">>" ≠ "*" := fun he => by
          have hl := congrArg String.toList he
          simp at hl
        have h2 : "<<" ++ s ++ ">>" ≠ "**" := fun he => by
          have hl := congrArg String.toList he
          simp at hl
        have hone : (stripMarks ['<'] ['>'] ("<<" ++ s ++ ">>").toList).filter isIdent = none := by
          have hin : stripMarks ['<'] ['>'] ("<<" ++ s ++ ">>").toList =
              some ('<' :: (s.toList ++ ['>'])) := stripMarks_eq_some.mpr (by simp)
          rw [hin]
          simp [isIdent]
        have hf : (stripMarks ['<', '<'] ['>', '>'] ("<<" ++ s ++ ">>").toList).filter isIdent =
            some s.toList := Option.filter_eq_some_iff.mpr ⟨hstrip, hident⟩
        simp only [display, if_neg hs, fromStr, if_neg h1, if_neg h2, hone, hf,
          String.ofList_toList]
  | str s =>
      cases hs : s.toList with
      | nil => simp [readable, hs] at h
      | cons c cs =>
          have hc : (c.isAlphanum && isStrTail cs) = true := by simpa [readable, hs] using h
          have halnum := (Bool.and_eq_true _ _ ▸ hc).1
          have hstar : ∀ t : String, t.toList.head? = some '*' → s ≠ t := by
            rintro t ht rfl
            rw [hs, List.head?_cons] at ht
            cases ht
            revert halnum
            decide
          have hmark : ∀ o d : List Char, stripMarks ('<' :: o) d s.toList = none := by
            intro o d
            rw [Option.eq_none_iff_forall_ne_some]
            intro v hv
            have he := stripMarks_eq_some.mp hv
            rw [hs, List.cons_append, List.cons_append] at he
            cases he
            revert halnum
            decide
          simp only [display, fromStr, if_neg (hstar "*" rfl), if_neg (hstar "**" rfl), hmark,
            Option.filter_none]
          simp only [hs, hc, if_true]

end Node

namespace Label

/-- The labels that a text can describe. -/
def Readable (l : Label) : Prop := l.nodes ≠ [] ∧ ∀ n ∈ l.nodes, n.readable = true

instance (l : Label) : Decidable l.Readable := inferInstanceAs (Decidable (_ ∧ _))

theorem mapM_fromStr {ps : List String} {ns : List Node} :
    ps.mapM Node.fromStr = .ok ns ↔ ps.map Node.fromStr = ns.map .ok := by
  induction ps generalizing ns with
  | nil => cases ns <;> simp [pure, Except.pure]
  | cons p ps ih =>
      rw [List.mapM_cons, List.map_cons]
      cases hp : Node.fromStr p with
      | error e => cases ns <;> simp [bind, Except.bind]
      | ok n =>
          cases hps : ps.mapM Node.fromStr with
          | error e =>
              cases ns with
              | nil => simp [bind, Except.bind]
              | cons m ms =>
                  have hms := (not_congr (@ih ms)).mp (by simp [hps])
                  simp [bind, Except.bind, hms]
          | ok ns' =>
              have hns' := ih.mp hps
              cases ns with
              | nil => simp [bind, Except.bind, pure, Except.pure]
              | cons m ms =>
                  have hinj : Function.Injective (Except.ok (ε := String) (α := Node)) :=
                    fun _ _ he => Except.ok.inj he
                  simp [bind, Except.bind, pure, Except.pure, hns', hinj.list_map.eq_iff]

theorem map_fromStr {ps : List String} {ns : List Node}
    (h : ps.map Node.fromStr = ns.map .ok) :
    (∀ n ∈ ns, n.readable = true) ∧ ns.map Node.display = ps := by
  induction ps generalizing ns with
  | nil =>
      obtain rfl : ns = [] := by simpa using h
      exact ⟨by simp, rfl⟩
  | cons p ps ih =>
      cases ns with
      | nil => cases h
      | cons n ns =>
          obtain ⟨hp, hps⟩ := List.cons.inj h
          obtain ⟨hn, hd⟩ := Node.of_fromStr hp
          obtain ⟨hns, hds⟩ := ih hps
          exact ⟨List.forall_mem_cons.mpr ⟨hn, hns⟩, by rw [List.map_cons, hd, hds]⟩

/-- What is read is readable, and its text is the one read. -/
theorem of_fromStr {s : String} {l : Label} (h : fromStr s = .ok l) :
    l.Readable ∧ l.display = s := by
  unfold fromStr at h
  cases hm : (Text.split "::" s).mapM Node.fromStr with
  | error e =>
      rw [hm] at h
      cases h
  | ok ns =>
      rw [hm] at h
      cases h
      obtain ⟨hread, htext⟩ := map_fromStr (mapM_fromStr.mp hm)
      refine ⟨⟨?_, hread⟩, ?_⟩
      · rintro rfl
        have hs : Text.split "::" s = [] := htext.symm
        simp [Text.split, Text.splitAux_ne_nil] at hs
      · show "::".intercalate (ns.map Node.display) = s
        rw [htext, Text.intercalate_split (by decide)]

/-- A label is read back from its text exactly if it is readable. -/
theorem fromStr_display {l : Label} : fromStr l.display = .ok l ↔ l.Readable := by
  refine ⟨fun h => (of_fromStr h).1, fun ⟨hne, hl⟩ => ?_⟩
  have hsplit : Text.split "::" l.display = l.nodes.map Node.display :=
    Text.split_intercalate rfl (by simpa using hne) (by
      intro p hp
      obtain ⟨n, hn, rfl⟩ := List.mem_map.mp hp
      exact Node.not_colon_mem_display (hl n hn))
  have hm : (Text.split "::" l.display).mapM Node.fromStr = .ok l.nodes := by
    rw [hsplit, mapM_fromStr, List.map_map]
    exact List.map_congr_left (fun n hn => Node.fromStr_display (hl n hn))
  unfold fromStr
  rw [hm]
  rfl

end Label

end Armour.Lang
