import Mathlib.Data.String.Basic

/-! # Text

Splitting, trimming and searching texts, on their characters and by structural
recursion, so that a concrete text evaluates in the kernel.
-/

namespace Armour.Lib.Text

/-- Cut `l` at every occurrence of `sep` (read left to right, not overlapping);
`skip` characters of the current occurrence are still to be dropped. -/
def splitAux (sep : List Char) : Nat → List Char → List Char → List (List Char)
  | _, cur, [] => [cur.reverse]
  | skip + 1, cur, _ :: cs => splitAux sep skip cur cs
  | 0, cur, c :: cs =>
      if sep.isPrefixOf (c :: cs) then cur.reverse :: splitAux sep (sep.length - 1) [] cs
      else splitAux sep 0 (c :: cur) cs

@[simp] theorem splitAux_nil (sep : List Char) (skip : Nat) (cur : List Char) :
    splitAux sep skip cur [] = [cur.reverse] := by
  cases skip <;> rfl

@[simp] theorem splitAux_succ (sep : List Char) (skip : Nat) (cur : List Char) (c : Char)
    (cs : List Char) : splitAux sep (skip + 1) cur (c :: cs) = splitAux sep skip cur cs := rfl

theorem splitAux_zero (sep cur : List Char) (c : Char) (cs : List Char) :
    splitAux sep 0 cur (c :: cs) =
      if sep.isPrefixOf (c :: cs) then cur.reverse :: splitAux sep (sep.length - 1) [] cs
      else splitAux sep 0 (c :: cur) cs := rfl

/-- `str::split` for a separator that is not empty. -/
def split (sep s : String) : List String :=
  (splitAux sep.toList 0 [] s.toList).map String.ofList

/-- Dropping what is left of an occurrence. -/
theorem splitAux_skip (sep cur a l : List Char) :
    splitAux sep a.length cur (a ++ l) = splitAux sep 0 cur l := by
  induction a with
  | nil => rfl
  | cons c a ih => simpa using ih

theorem splitAux_sep {sep : List Char} (hsep : sep ≠ []) (cur l : List Char) :
    splitAux sep 0 cur (sep ++ l) = cur.reverse :: splitAux sep 0 [] l := by
  cases sep with
  | nil => exact absurd rfl hsep
  | cons d ds =>
      have hpre : (d :: ds).isPrefixOf (d :: (ds ++ l)) = true :=
        List.isPrefixOf_iff_prefix.mpr (List.prefix_append (d :: ds) l)
      simp only [List.cons_append, splitAux_zero, hpre, if_true, List.length_cons,
        Nat.add_sub_cancel, splitAux_skip]

theorem splitAux_ne_nil (sep : List Char) (k : Nat) (cur l : List Char) :
    splitAux sep k cur l ≠ [] := by
  induction l generalizing k cur with
  | nil => simp
  | cons c l ih =>
      cases k with
      | zero =>
          simp only [splitAux_zero]
          split_ifs
          · simp
          · exact ih 0 _
      | succ k => simpa using ih k cur

/-- The parts of a text, with the separator between them, are the text. -/
theorem intercalate_splitAux {sep : List Char} (hsep : sep ≠ []) (cur l : List Char) :
    sep.intercalate (splitAux sep 0 cur l) = cur.reverse ++ l := by
  suffices h : ∀ n, ∀ l cur : List Char, l.length ≤ n →
      sep.intercalate (splitAux sep 0 cur l) = cur.reverse ++ l from h l.length l cur le_rfl
  intro n
  induction n with
  | zero =>
      intro l cur hl
      obtain rfl := List.eq_nil_of_length_eq_zero (Nat.le_zero.mp hl)
      simp
  | succ n ih =>
      intro l cur hl
      cases l with
      | nil => simp
      | cons c l =>
          by_cases hpre : sep.isPrefixOf (c :: l) = true
          · obtain ⟨r, hr⟩ := List.isPrefixOf_iff_prefix.mp hpre
            have hlen : r.length ≤ n := by
              have h1 := congrArg List.length hr
              have h2 := List.length_pos_iff.mpr hsep
              rw [List.length_append, List.length_cons] at h1
              rw [List.length_cons] at hl
              omega
            rw [← hr, splitAux_sep hsep]
            cases hs : splitAux sep 0 [] r with
            | nil => exact absurd hs (splitAux_ne_nil sep 0 [] r)
            | cons p ps =>
                have hih := ih r [] hlen
                rw [hs] at hih
                rw [List.intercalate_cons_cons, hih]
                simp
          · rw [List.length_cons] at hl
            simp only [splitAux_zero, if_neg hpre]
            rw [ih l (c :: cur) (by omega)]
            simp

/-- A part in which the separator does not begin is read to its end. -/
theorem splitAux_part {d : Char} {ds : List Char} (cur p l : List Char) (hp : d ∉ p) :
    splitAux (d :: ds) 0 cur (p ++ l) = splitAux (d :: ds) 0 (p.reverse ++ cur) l := by
  induction p generalizing cur with
  | nil => rfl
  | cons c p ih =>
      rw [List.mem_cons, not_or] at hp
      have hpre : ¬ (d :: ds).isPrefixOf (c :: (p ++ l)) = true := by
        simp [List.isPrefixOf, hp.1]
      simp only [List.cons_append, splitAux_zero, if_neg hpre, ih (c :: cur) hp.2,
        List.reverse_cons, List.append_assoc, List.nil_append]

theorem splitAux_intercalate {d : Char} {ds : List Char} :
    ∀ {ps : List (List Char)}, ps ≠ [] → (∀ p ∈ ps, d ∉ p) →
      splitAux (d :: ds) 0 [] ((d :: ds).intercalate ps) = ps
  | [], h, _ => absurd rfl h
  | [p], _, hp => by
      have h := @splitAux_part d ds [] p [] (hp p List.mem_cons_self)
      simpa using h
  | p :: q :: ps, _, hp => by
      have hq := @splitAux_intercalate d ds _ (List.cons_ne_nil q ps)
        (fun r hr => hp r (List.mem_cons_of_mem _ hr))
      rw [List.intercalate_cons_cons, List.append_assoc,
        splitAux_part _ _ _ (hp p List.mem_cons_self), splitAux_sep (by simp), hq]
      simp

theorem intercalate_split {sep : String} (hsep : sep ≠ "") (s : String) :
    sep.intercalate (split sep s) = s := by
  have h : sep.toList ≠ [] := by simpa using hsep
  rw [← String.toList_inj, String.toList_intercalate, split, List.map_map]
  simpa using intercalate_splitAux h [] s.toList

/-- Parts in which the first character of the separator does not occur are found again. -/
theorem split_intercalate {sep : String} {d : Char} {ds : List Char} (hsep : sep.toList = d :: ds)
    {ps : List String} (hne : ps ≠ []) (hps : ∀ p ∈ ps, d ∉ p.toList) :
    split sep (sep.intercalate ps) = ps := by
  rw [split, String.toList_intercalate, hsep, splitAux_intercalate (by simpa using hne)
    (by simpa using hps), List.map_map]
  simp [Function.comp_def]

/-- Unicode `White_Space`. -/
def isWhitespace (c : Char) : Bool :=
  let n := c.toNat
  (9 ≤ n && n ≤ 13) || n = 0x20 || n = 0x85 || n = 0xA0 || n = 0x1680
    || (0x2000 ≤ n && n ≤ 0x200A) || n = 0x2028 || n = 0x2029 || n = 0x202F || n = 0x205F
    || n = 0x3000

def trimStartBy (p : Char → Bool) (s : String) : String :=
  String.ofList (s.toList.dropWhile p)

def trimEndBy (p : Char → Bool) (s : String) : String :=
  String.ofList ((s.toList.reverse.dropWhile p).reverse)

/-- `str::starts_with`. -/
def startsWith (s t : String) : Bool := t.toList.isPrefixOf s.toList

/-- `str::ends_with`. -/
def endsWith (s t : String) : Bool := t.toList.isSuffixOf s.toList

/-- `str::contains`. -/
def contains (s t : String) : Bool := s.toList.tails.any (fun u => t.toList.isPrefixOf u)

/-- `str::replace` of a text that is not empty. -/
def replace (s pattern new : String) : String := new.intercalate (split pattern s)

/-- Drop leading copies of `pre`, at most `n` of them. -/
def dropCopies (pre : List Char) : Nat → List Char → List Char
  | 0, s => s
  | n + 1, s => if pre.isPrefixOf s then dropCopies pre n (s.drop pre.length) else s

/-- `str::trim_start_matches` for a text that is not empty. -/
def trimStartMatches (s pre : String) : String :=
  String.ofList (dropCopies pre.toList s.length s.toList)

/-- Digits of a number, most significant first. -/
def digitsValue (l : List Char) : Nat := l.foldl (fun n c => 10 * n + (c.toNat - '0'.toNat)) 0

/-- A non-empty sequence of decimal digits. -/
def parseDigits (l : List Char) : Option Nat :=
  if !l.isEmpty && l.all Char.isDigit then some (digitsValue l) else none

/-- `str::parse::<usize>`: an optional `+`, digits, and a value below `2^64`. -/
def parseUsize (s : String) : Option Nat :=
  (match s.toList with
    | '+' :: ds => parseDigits ds
    | ds => parseDigits ds).filter (· < 2 ^ 64)

/-- `str::parse::<i64>`: an optional sign, digits, and a value in range. -/
def parseI64 (s : String) : Option Int64 :=
  match s.toList with
  | '-' :: ds => ((parseDigits ds).filter (· ≤ 2 ^ 63)).map (fun n => Int64.ofInt (-n))
  | '+' :: ds => ((parseDigits ds).filter (· < 2 ^ 63)).map (fun n => Int64.ofInt n)
  | ds => ((parseDigits ds).filter (· < 2 ^ 63)).map (fun n => Int64.ofInt n)

end Armour.Lib.Text
