import Armour.Lib.BTree

/-! # Maps of lists of values

A map that keeps all the values of a key, in the order in which they came.  It is built from
pairs and flattened to pairs: both are told apart by the pairs of each key.
-/

namespace Armour.Lib.Multimap

variable {κ ν : Type} [LinearOrder κ]

/-- A further value of a key. -/
def push (m : BTreeMap κ (List ν)) (k : κ) (v : ν) : BTreeMap κ (List ν) :=
  match m.get? k with
  | some l => m.insert k (l ++ [v])
  | none => m.insert k [v]

/-- The values of a key, none if there is no such key. -/
def values (m : BTreeMap κ (List ν)) (k : κ) : List ν := (m.get? k).getD []

/-- The pairs of a map, by key, and in order under one key. -/
def pairs (m : BTreeMap κ (List ν)) : List (κ × ν) :=
  m.entries.flatMap (fun p => p.2.map (fun v => (p.1, v)))

/-- Keys are only kept with a value. -/
def Filled (m : BTreeMap κ (List ν)) : Prop := ∀ k vs, m.get? k = some vs → vs ≠ []

/-! ## A further value -/

theorem get?_push_self (m : BTreeMap κ (List ν)) (k : κ) (v : ν) :
    (push m k v).get? k = some (values m k ++ [v]) := by
  unfold push values
  cases m.get? k with
  | none => exact BTreeMap.get?_insert_self m k [v]
  | some l => exact BTreeMap.get?_insert_self m k (l ++ [v])

theorem get?_push_ne (m : BTreeMap κ (List ν)) {k k' : κ} (v : ν) (h : k' ≠ k) :
    (push m k v).get? k' = m.get? k' := by
  unfold push
  cases m.get? k with
  | none => exact BTreeMap.get?_insert_ne m [v] h
  | some l => exact BTreeMap.get?_insert_ne m (l ++ [v]) h

theorem values_push (m : BTreeMap κ (List ν)) (k k' : κ) (v : ν) :
    values (push m k v) k' = if k' = k then values m k ++ [v] else values m k' := by
  by_cases h : k' = k
  · rw [if_pos h, h, values, get?_push_self]
    rfl
  · rw [if_neg h, values, get?_push_ne m v h]
    rfl

theorem Filled.push {m : BTreeMap κ (List ν)} (h : Filled m) (k : κ) (v : ν) :
    Filled (push m k v) := by
  intro k' vs hget
  by_cases hk : k' = k
  · rw [hk, get?_push_self] at hget
    cases hget
    simp
  · rw [get?_push_ne m v hk] at hget
    exact h k' vs hget

theorem Filled.empty : Filled (BTreeMap.empty : BTreeMap κ (List ν)) := by
  intro k vs hget
  cases hget

/-- In a filled map the values of a key tell whether it is there. -/
theorem Filled.get?_eq {m : BTreeMap κ (List ν)} (h : Filled m) (k : κ) :
    m.get? k = if (values m k).isEmpty then none else some (values m k) := by
  unfold values
  cases hget : m.get? k with
  | none => rfl
  | some vs =>
      have hne : vs.isEmpty = false := by
        simpa using h k vs hget
      rw [Option.getD_some, hne]
      rfl

/-! ## Many values -/

/-- The values of a key after some pairs: those of its pairs come last, in their order. -/
theorem values_foldl_push (m : BTreeMap κ (List ν)) (ps : List (κ × ν)) (k : κ) :
    values (ps.foldl (fun m p => push m p.1 p.2) m) k =
      values m k ++ (ps.filter (fun p => p.1 = k)).map Prod.snd := by
  induction ps generalizing m with
  | nil => simp
  | cons p ps ih =>
      rw [List.foldl_cons, ih, values_push]
      by_cases h : k = p.1
      · have hp : p.1 = k := h.symm
        rw [if_pos h, List.filter_cons_of_pos (by simpa using hp), List.map_cons, ← h]
        simp
      · have hp : ¬ p.1 = k := fun he => h he.symm
        rw [if_neg h, List.filter_cons_of_neg (by simpa using hp)]

theorem Filled.foldl_push {m : BTreeMap κ (List ν)} (h : Filled m) (ps : List (κ × ν)) :
    Filled (ps.foldl (fun m p => Multimap.push m p.1 p.2) m) := by
  induction ps generalizing m with
  | nil => exact h
  | cons p ps ih => exact ih (h.push p.1 p.2)

/-! ## Flattening -/

/-- The pairs of one key, in entries that are in order. -/
theorem filter_flatMap_pairs {es : List (κ × List ν)} (hs : es.Pairwise (fun a b => a.1 < b.1))
    (k : κ) :
    (es.flatMap (fun p => p.2.map (fun v => (p.1, v)))).filter (fun p => p.1 = k) =
      ((BTreeMap.lookup k es).getD []).map (fun v => (k, v)) := by
  induction es with
  | nil => rfl
  | cons e es ih =>
      obtain ⟨hlt, htail⟩ := List.pairwise_cons.mp hs
      rw [List.flatMap_cons, List.filter_append, ih htail]
      by_cases hk : k = e.1
      · -- no later entry has the key
        have hnone : BTreeMap.lookup k es = none := by
          rw [Option.eq_none_iff_forall_ne_some]
          intro vs hvs
          have hmem := hlt _ (BTreeMap.mem_of_lookup hvs)
          rw [hk] at hmem
          exact lt_irrefl _ hmem
        have hall : (e.2.map (fun v => (e.1, v))).filter (fun p => p.1 = k) =
            e.2.map (fun v => (e.1, v)) := by
          rw [List.filter_eq_self]
          intro p hp
          obtain ⟨v, -, rfl⟩ := List.mem_map.mp hp
          simp [hk]
        rw [hall, hnone, BTreeMap.lookup, if_pos hk, ← hk]
        simp
      · have hnil : (e.2.map (fun v => (e.1, v))).filter (fun p => p.1 = k) = [] := by
          rw [List.filter_eq_nil_iff]
          intro p hp
          obtain ⟨v, -, rfl⟩ := List.mem_map.mp hp
          simpa using fun he => hk he.symm
        rw [hnil, BTreeMap.lookup, if_neg hk, List.nil_append]

theorem pairs_filter (m : BTreeMap κ (List ν)) (k : κ) :
    (pairs m).filter (fun p => p.1 = k) = (values m k).map (fun v => (k, v)) :=
  filter_flatMap_pairs m.sorted k

/-- Grouping pairs and flattening the map keeps the pairs of each key as they are. -/
theorem pairs_foldl_push_filter (ps : List (κ × ν)) (k : κ) :
    (pairs (ps.foldl (fun m p => push m p.1 p.2) ∅)).filter (fun p => p.1 = k) =
      ps.filter (fun p => p.1 = k) := by
  rw [pairs_filter, values_foldl_push]
  have hempty : values (∅ : BTreeMap κ (List ν)) k = [] := rfl
  rw [hempty, List.nil_append, List.map_map]
  conv_rhs => rw [← List.map_id (ps.filter (fun p => p.1 = k))]
  refine List.map_congr_left (fun p hp => ?_)
  have hk : p.1 = k := by simpa using (List.mem_filter.mp hp).2
  show (k, p.2) = p
  rw [← hk]

/-- Lists that agree on the pairs of each key hold each pair equally often. -/
theorem count_eq_of_filter [BEq (κ × ν)] [LawfulBEq (κ × ν)] {ps qs : List (κ × ν)}
    (h : ∀ k, ps.filter (fun p => p.1 = k) = qs.filter (fun p => p.1 = k)) (p : κ × ν) :
    ps.count p = qs.count p := by
  have hcount : ∀ l : List (κ × ν),
      l.count p = (l.filter (fun q => q.1 = p.1)).count p := by
    intro l
    rw [List.count_filter]
    simp
  rw [hcount ps, hcount qs, h]

end Armour.Lib.Multimap
