import Armour.Lang.Builtins
import Armour.Lib.Multimap

/-! # Headers of HTTP messages

The headers of `armour-lang/src/literals.rs` are a map of lists of values.  They are grouped from
pairs, changed by `set_header` and read back by `header`, `unique_header` and `header_pairs`.
-/

namespace Armour.Lang

open Armour.Lib

namespace HttpHeaders

/-- `From<Vec<(&str, &[u8])>> for Headers`. -/
def ofPairs (h : List (String × Bytes)) : HttpHeaders :=
  h.foldl (fun headers p =>
    match BTreeMap.get? headers p.1 with
    | some l => BTreeMap.insert headers p.1 (l ++ [p.2])
    | none => BTreeMap.insert headers p.1 [p.2]) ∅

/-- The headers after some calls of `set_header`. -/
def setHeaders (h : HttpHeaders) (updates : List (String × Bytes)) : HttpHeaders :=
  updates.foldl (fun h p => h.setHeader p.1 p.2) h

/-- The values that are given under a name, in order. -/
def given (ps : List (String × Bytes)) (k : String) : List Bytes :=
  (ps.filter (fun p => p.1 = k)).map Prod.snd

theorem setHeader_eq (h : HttpHeaders) (k : String) (v : Bytes) :
    h.setHeader k v = Multimap.push h k v := by
  unfold setHeader Multimap.push
  cases BTreeMap.get? h k <;> rfl

theorem ofPairs_eq (ps : List (String × Bytes)) :
    ofPairs ps = ps.foldl (fun h p => Multimap.push h p.1 p.2) ∅ := by
  unfold ofPairs
  congr 1
  funext h p
  unfold Multimap.push
  cases BTreeMap.get? h p.1 <;> rfl

/-- Pairs and updates are one list of values to add. -/
theorem setHeaders_ofPairs (pairs updates : List (String × Bytes)) :
    (ofPairs pairs).setHeaders updates =
      (pairs ++ updates).foldl (fun h p => Multimap.push h p.1 p.2) ∅ := by
  rw [List.foldl_append, ofPairs_eq]
  simp only [setHeaders, setHeader_eq]

section

variable (pairs updates : List (String × Bytes))

theorem filled_setHeaders : Multimap.Filled ((ofPairs pairs).setHeaders updates) := by
  rw [setHeaders_ofPairs]
  exact Multimap.Filled.empty.foldl_push _

theorem values_setHeaders (k : String) :
    Multimap.values ((ofPairs pairs).setHeaders updates) k = given (pairs ++ updates) k := by
  rw [setHeaders_ofPairs, Multimap.values_foldl_push]
  rfl

theorem get?_setHeaders (k : String) :
    BTreeMap.get? ((ofPairs pairs).setHeaders updates) k =
      if (given (pairs ++ updates) k).isEmpty then none
      else some (given (pairs ++ updates) k) := by
  rw [(filled_setHeaders pairs updates).get?_eq, values_setHeaders]

end

section

variable {FT FL : Type} [TFlatTyp FT] [TFlatLiteral FT FL]

theorem headerPairs_eq (h : HttpHeaders) :
    (h.headerPairs : Literal FL) =
      .list ((Multimap.pairs h).map (fun p => .tuple [.str p.1, .data p.2])) := by
  rw [headerPairs, Multimap.pairs, List.map_flatMap]
  simp only [List.map_map]
  rfl

/-- What is read from headers that were grouped from pairs and then updated.  `header` and
`unique_header` see the values given under the name, in order; `header_pairs` lists the pairs
given, as often as they were given, and in order under one name; one more `set_header` adds one
value under its name and leaves all other names alone. -/
theorem read_setHeaders (pairs updates : List (String × Bytes)) :
    (∀ k, ((ofPairs pairs).setHeaders updates).header k =
      if (given (pairs ++ updates) k).isEmpty then (.none : Literal FL)
      else .some (.list ((given (pairs ++ updates) k).map .data))) ∧
    (∀ k, ((ofPairs pairs).setHeaders updates).uniqueHeader k =
      match given (pairs ++ updates) k with
      | [v] => (.some (.data v) : Literal FL)
      | _ => .none) ∧
    (∃ listed : List (String × Bytes),
      ((ofPairs pairs).setHeaders updates).headerPairs =
        (.list (listed.map (fun p => .tuple [.str p.1, .data p.2])) : Literal FL) ∧
      (∀ k, given listed k = given (pairs ++ updates) k) ∧
      ∀ p, listed.count p = (pairs ++ updates).count p) ∧
    ∀ k v,
      BTreeMap.get? (((ofPairs pairs).setHeaders updates).setHeader k v) k =
        some (given (pairs ++ updates) k ++ [v]) ∧
      ∀ k', k' ≠ k → BTreeMap.get? (((ofPairs pairs).setHeaders updates).setHeader k v) k' =
        BTreeMap.get? ((ofPairs pairs).setHeaders updates) k' := by
  refine ⟨fun k => ?_, fun k => ?_, ?_, fun k v => ⟨?_, fun k' hk' => ?_⟩⟩
  · rw [header, get?_setHeaders]
    split <;> rfl
  · rw [uniqueHeader, get?_setHeaders]
    cases given (pairs ++ updates) k with
    | nil => rfl
    | cons v vs => cases vs <;> rfl
  · refine ⟨_, headerPairs_eq _, ?_, ?_⟩
    · intro k
      rw [setHeaders_ofPairs, given, Multimap.pairs_foldl_push_filter]
      rfl
    · intro p
      rw [setHeaders_ofPairs]
      exact Multimap.count_eq_of_filter (Multimap.pairs_foldl_push_filter _) p
  · rw [setHeader_eq, Multimap.get?_push_self, values_setHeaders]
  · rw [setHeader_eq, Multimap.get?_push_ne _ v hk']

end

end HttpHeaders

end Armour.Lang
