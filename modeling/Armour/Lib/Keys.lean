import Armour.Lib.BTree
import Mathlib.Data.Set.Basic

/-! # Equality of keys

Collections that are ordered find their keys with the order.  The equality `==` of a type of
keys belongs to its order on a set of keys if it is an equivalence there and holds exactly
between keys that compare as equal.
-/

namespace Armour.Lib

namespace BTreeMap

variable {κ ν : Type} [LinearOrder κ]

/-- A list in the order of its keys is a map already. -/
theorem entries_ofList {l : List (κ × ν)} (h : l.Pairwise (fun a b => a.1 < b.1)) :
    (ofList l).entries = l := by
  have hmap := ofList_entries ⟨l, h⟩
  exact congrArg entries hmap

/-- A key has one place. -/
theorem place_unique (m : BTreeMap κ ν) {i j : Nat} {k : κ} {v w : ν}
    (hi : m.entries[i]? = some (k, v)) (hj : m.entries[j]? = some (k, w)) : i = j := by
  have hnd : m.keys.Nodup := (List.pairwise_map.mpr m.sorted).imp (fun hlt => ne_of_lt hlt)
  have hki : m.keys[i]? = some k := by
    rw [keys, List.getElem?_map, hi]
    rfl
  have hkj : m.keys[j]? = some k := by
    rw [keys, List.getElem?_map, hj]
    rfl
  obtain ⟨hlt, -⟩ := List.getElem?_eq_some_iff.mp hki
  exact (List.getElem?_inj hlt hnd).mp (hki.trans hkj.symm)

/-- The last binding of a key wins. -/
theorem get?_ofList (l : List (κ × ν)) (k : κ) :
    (ofList l).get? k = ((l.filter (fun p => p.1 = k)).getLast?).map Prod.snd := by
  suffices hfold : ∀ m : BTreeMap κ ν, (l.foldl (fun m p => m.insert p.1 p.2) m).get? k =
      (((l.filter (fun p => p.1 = k)).getLast?).map Prod.snd).or (m.get? k) by
    have h := hfold empty
    rwa [get?_empty, Option.or_none] at h
  induction l with
  | nil => intro m; rfl
  | cons p l ih =>
      intro m
      rw [List.foldl_cons, ih, get?_insert]
      by_cases hk : p.1 = k
      · rw [List.filter_cons_of_pos (by simpa using hk), if_pos hk.symm]
        cases hl : l.filter (fun p => p.1 = k) with
        | nil => rfl
        | cons q l' => simp [List.getLast?_cons]
      · rw [List.filter_cons_of_neg (by simpa using hk), if_neg (fun e => hk e.symm)]

/-- The keys of a map are those of the bindings it is made of. -/
theorem isSome_get?_ofList (l : List (κ × ν)) (k : κ) :
    ((ofList l).get? k).isSome ↔ k ∈ l.map Prod.fst := by
  suffices hfold : ∀ m : BTreeMap κ ν,
      ((l.foldl (fun m p => m.insert p.1 p.2) m).get? k).isSome ↔
        (m.get? k).isSome ∨ k ∈ l.map Prod.fst by
    have h := hfold empty
    simpa [ofList] using h
  induction l with
  | nil => simp
  | cons p l ih =>
      intro m
      rw [List.foldl_cons, ih, get?_insert, List.map_cons, List.mem_cons]
      by_cases hk : k = p.1
      · simp [hk]
      · simp [hk]

end BTreeMap

namespace BTreeSet

variable {α : Type} [LinearOrder α]

theorem mem_ofList (l : List α) (a : α) : a ∈ (ofList l).elems ↔ a ∈ l := by
  suffices hfold : ∀ s : BTreeSet α, a ∈ (l.foldl insert s).elems ↔ a ∈ s.elems ∨ a ∈ l by
    have h := hfold empty
    simpa [ofList, empty] using h
  induction l with
  | nil => simp
  | cons b l ih =>
      intro s
      rw [List.foldl_cons, ih, mem_insert, List.mem_cons]
      tauto

end BTreeSet

section

variable {α : Type} [LinearOrder α] [BEq α]

/-- On the keys of `S`, `==` is an equivalence that belongs to the order, so that ordered sets
and maps hold no two equal keys and find a key exactly if they hold an equal one. -/
structure KeyEquality (S : Set α) : Prop where
  refl : ∀ a ∈ S, (a == a) = true
  symm : ∀ a ∈ S, ∀ b ∈ S, (a == b) = true → (b == a) = true
  trans : ∀ a ∈ S, ∀ b ∈ S, ∀ c ∈ S, (a == b) = true → (b == c) = true → (a == c) = true
  compare_eq : ∀ a ∈ S, ∀ b ∈ S, (a == b) = true ↔ compare a b = .eq
  set_apart : ∀ l : List α, (∀ a ∈ l, a ∈ S) →
    (BTreeSet.ofList l).elems.Pairwise (fun a b => ¬ (a == b) = true)
  set_finds : ∀ l : List α, (∀ a ∈ l, a ∈ S) → ∀ b ∈ S,
    (b ∈ (BTreeSet.ofList l).elems ↔ ∃ a ∈ l, (a == b) = true)
  map_apart : ∀ (ν : Type) (l : List (α × ν)), (∀ p ∈ l, p.1 ∈ S) →
    (BTreeMap.ofList l).keys.Pairwise (fun a b => ¬ (a == b) = true)
  map_finds : ∀ (ν : Type) (l : List (α × ν)), (∀ p ∈ l, p.1 ∈ S) → ∀ b ∈ S,
    (((BTreeMap.ofList l).get? b).isSome ↔ ∃ p ∈ l, (p.1 == b) = true)

/-- Equality belongs to the order of the keys when it is that of the type. -/
theorem keyEquality_iff {S : Set α} :
    KeyEquality S ↔ ∀ a ∈ S, ∀ b ∈ S, ((a == b) = true ↔ a = b) := by
  constructor
  · intro h a ha b hb
    rw [h.compare_eq a ha b hb, compare_eq_iff_eq]
  · intro h
    refine ⟨fun a ha => (h a ha a ha).mpr rfl, ?_, ?_, ?_, ?_, ?_, ?_, ?_⟩
    · intro a ha b hb hab
      exact (h b hb a ha).mpr ((h a ha b hb).mp hab).symm
    · intro a ha b hb c hc hab hbc
      exact (h a ha c hc).mpr (((h a ha b hb).mp hab).trans ((h b hb c hc).mp hbc))
    · intro a ha b hb
      rw [h a ha b hb, compare_eq_iff_eq]
    · intro l hl
      refine (BTreeSet.ofList l).sorted.imp_of_mem (fun {a b} ha hb hlt hab => ?_)
      have haS := hl a (BTreeSet.mem_of_mem_ofList ha)
      have hbS := hl b (BTreeSet.mem_of_mem_ofList hb)
      exact absurd ((h a haS b hbS).mp hab) (ne_of_lt hlt)
    · intro l hl b hb
      rw [BTreeSet.mem_ofList]
      constructor
      · exact fun hbl => ⟨b, hbl, (h b hb b hb).mpr rfl⟩
      · rintro ⟨a, ha, hab⟩
        rw [← (h a (hl a ha) b hb).mp hab]
        exact ha
    · intro ν l hl
      rw [BTreeMap.keys, List.pairwise_map]
      refine (BTreeMap.ofList l).sorted.imp_of_mem (fun {p q} hp hq hlt hpq => ?_)
      have hpS := hl p (BTreeMap.mem_of_mem_ofList hp)
      have hqS := hl q (BTreeMap.mem_of_mem_ofList hq)
      exact absurd ((h p.1 hpS q.1 hqS).mp hpq) (ne_of_lt hlt)
    · intro ν l hl b hb
      rw [BTreeMap.isSome_get?_ofList, List.mem_map]
      constructor
      · rintro ⟨p, hp, rfl⟩
        exact ⟨p, hp, (h p.1 hb p.1 hb).mpr rfl⟩
      · rintro ⟨p, hp, hpb⟩
        exact ⟨p, hp, (h p.1 (hl p hp) b hb).mp hpb⟩

end

end Armour.Lib
