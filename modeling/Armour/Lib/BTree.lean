import Mathlib.Data.String.Basic
import Mathlib.Order.Lattice
import Mathlib.Data.List.Basic

/-! # Ordered maps and sets

Finite maps and sets kept as strictly increasing lists.  The order invariant is
a field, so iteration order and equality of two maps need no further argument.
-/

namespace Armour.Lib

/-- A finite map whose entries are listed in strictly increasing key order. -/
structure BTreeMap (κ : Type) (ν : Type) [LinearOrder κ] where
  entries : List (κ × ν)
  sorted : entries.Pairwise (fun a b => a.1 < b.1)

namespace BTreeMap

variable {κ ν μ : Type} [LinearOrder κ]

/-- The map without entries. -/
def empty : BTreeMap κ ν := ⟨[], .nil⟩

instance : EmptyCollection (BTreeMap κ ν) := ⟨empty⟩
instance : Inhabited (BTreeMap κ ν) := ⟨empty⟩

/-- First value stored under `k` in a list of entries. -/
def lookup (k : κ) : List (κ × ν) → Option ν
  | [] => none
  | (k', v) :: rest => if k = k' then some v else lookup k rest

/-- Insert into a list of entries, replacing an entry of the same key. -/
def insertEntry (k : κ) (v : ν) : List (κ × ν) → List (κ × ν)
  | [] => [(k, v)]
  | (k', v') :: rest =>
      if k < k' then (k, v) :: (k', v') :: rest
      else if k = k' then (k, v) :: rest
      else (k', v') :: insertEntry k v rest

def get? (m : BTreeMap κ ν) (k : κ) : Option ν := lookup k m.entries

def containsKey (m : BTreeMap κ ν) (k : κ) : Bool := (m.get? k).isSome

def keys (m : BTreeMap κ ν) : List κ := m.entries.map Prod.fst

theorem mem_insertEntry {k : κ} {v : ν} {p : κ × ν} {l : List (κ × ν)}
    (h : p ∈ insertEntry k v l) : p = (k, v) ∨ p ∈ l := by
  induction l with
  | nil => simpa [insertEntry] using h
  | cons q rest ih =>
      obtain ⟨k', v'⟩ := q
      simp only [insertEntry] at h
      split_ifs at h with hlt heq
      · simpa using h
      · rcases List.mem_cons.mp h with h | h
        · exact Or.inl h
        · exact Or.inr (List.mem_cons_of_mem _ h)
      · rcases List.mem_cons.mp h with h | h
        · exact Or.inr (h ▸ List.mem_cons_self)
        · exact (ih h).imp id (List.mem_cons_of_mem _)

theorem insertEntry_sorted (k : κ) (v : ν) {l : List (κ × ν)}
    (h : l.Pairwise (fun a b => a.1 < b.1)) :
    (insertEntry k v l).Pairwise (fun a b => a.1 < b.1) := by
  induction l with
  | nil => simp [insertEntry]
  | cons q rest ih =>
      obtain ⟨k', v'⟩ := q
      obtain ⟨hhead, htail⟩ := List.pairwise_cons.mp h
      simp only [insertEntry]
      split_ifs with hlt heq
      · refine List.pairwise_cons.mpr ⟨fun p hp => ?_, h⟩
        rcases List.mem_cons.mp hp with rfl | hp
        · exact hlt
        · exact lt_trans hlt (hhead p hp)
      · subst heq
        exact List.pairwise_cons.mpr ⟨hhead, htail⟩
      · refine List.pairwise_cons.mpr ⟨fun p hp => ?_, ih htail⟩
        rcases mem_insertEntry hp with rfl | hp
        · exact lt_of_le_of_ne (not_lt.mp hlt) (Ne.symm heq)
        · exact hhead p hp

/-- Insertion replaces the value stored under the key. -/
def insert (m : BTreeMap κ ν) (k : κ) (v : ν) : BTreeMap κ ν :=
  ⟨insertEntry k v m.entries, insertEntry_sorted k v m.sorted⟩

/-- The map that a list of bindings describes, later bindings winning. -/
def ofList (l : List (κ × ν)) : BTreeMap κ ν :=
  l.foldl (fun m p => m.insert p.1 p.2) empty

/-- `extend`: every entry of `n` is inserted into `m`. -/
def extend (m n : BTreeMap κ ν) : BTreeMap κ ν :=
  n.entries.foldl (fun m p => m.insert p.1 p.2) m

/-- `remove`. -/
def erase (m : BTreeMap κ ν) (k : κ) : BTreeMap κ ν :=
  ⟨m.entries.filter (fun p => p.1 ≠ k), m.sorted.sublist List.filter_sublist⟩

/-- Apply a function to every stored value. -/
def map (f : ν → μ) (m : BTreeMap κ ν) : BTreeMap κ μ :=
  ⟨m.entries.map (fun p => (p.1, f p.2)), by
    simpa [List.pairwise_map] using m.sorted⟩

theorem lookup_insertEntry_self (k : κ) (v : ν) (l : List (κ × ν)) :
    lookup k (insertEntry k v l) = some v := by
  induction l with
  | nil => simp [insertEntry, lookup]
  | cons q rest ih =>
      obtain ⟨k', v'⟩ := q
      simp only [insertEntry]
      split_ifs with hlt heq <;> simp [lookup, *]

theorem lookup_insertEntry_ne {k k' : κ} (v : ν) (l : List (κ × ν)) (h : k' ≠ k) :
    lookup k' (insertEntry k v l) = lookup k' l := by
  induction l with
  | nil => simp [insertEntry, lookup, h]
  | cons q rest ih =>
      obtain ⟨k₁, v₁⟩ := q
      simp only [insertEntry]
      split_ifs with hlt heq
      · simp [lookup, h]
      · subst heq
        simp [lookup, h]
      · simp [lookup, ih]

@[simp] theorem get?_empty (k : κ) : (empty : BTreeMap κ ν).get? k = none := rfl

@[simp] theorem get?_insert_self (m : BTreeMap κ ν) (k : κ) (v : ν) :
    (m.insert k v).get? k = some v :=
  lookup_insertEntry_self k v m.entries

theorem get?_insert_ne (m : BTreeMap κ ν) {k k' : κ} (v : ν) (h : k' ≠ k) :
    (m.insert k v).get? k' = m.get? k' :=
  lookup_insertEntry_ne v m.entries h

theorem get?_insert (m : BTreeMap κ ν) (k k' : κ) (v : ν) :
    (m.insert k v).get? k' = if k' = k then some v else m.get? k' := by
  by_cases h : k' = k
  · subst h; simp
  · simp [get?_insert_ne m v h, h]

@[simp] theorem get?_map (f : ν → μ) (m : BTreeMap κ ν) (k : κ) :
    (m.map f).get? k = (m.get? k).map f := by
  obtain ⟨l, _⟩ := m
  simp only [get?, map]
  induction l with
  | nil => rfl
  | cons q rest ih =>
      obtain ⟨k', v⟩ := q
      simp only [List.map_cons, lookup]
      split_ifs with h
      · rfl
      · exact ih (by rename_i hs; exact (List.pairwise_cons.mp hs).2)

theorem lookup_eq_some {k : κ} {v : ν} {l : List (κ × ν)}
    (hs : l.Pairwise (fun a b => a.1 < b.1)) (h : (k, v) ∈ l) : lookup k l = some v := by
  induction l with
  | nil => cases h
  | cons q rest ih =>
      obtain ⟨hhead, htail⟩ := List.pairwise_cons.mp hs
      rcases List.mem_cons.mp h with rfl | h
      · simp [lookup]
      · have hlt := hhead _ h
        simp only [lookup, if_neg (ne_of_gt hlt)]
        exact ih htail h

theorem mem_of_lookup {k : κ} {v : ν} {l : List (κ × ν)} (h : lookup k l = some v) :
    (k, v) ∈ l := by
  induction l with
  | nil => cases h
  | cons q rest ih =>
      obtain ⟨k', v'⟩ := q
      simp only [lookup] at h
      split_ifs at h with hk
      · subst hk
        cases h
        exact List.mem_cons_self
      · exact List.mem_cons_of_mem _ (ih h)

/-- The entries of a map are what `get?` finds. -/
theorem mem_entries (m : BTreeMap κ ν) (k : κ) (v : ν) :
    (k, v) ∈ m.entries ↔ m.get? k = some v :=
  ⟨lookup_eq_some m.sorted, mem_of_lookup⟩

theorem get?_erase (m : BTreeMap κ ν) (k k' : κ) :
    (m.erase k).get? k' = if k' = k then none else m.get? k' := by
  obtain ⟨l, hl⟩ := m
  simp only [get?, erase]
  clear hl
  induction l with
  | nil => simp [lookup]
  | cons q rest ih =>
      by_cases hq : q.1 = k
      · rw [List.filter_cons_of_neg (by simp [hq]), ih]
        split_ifs with hk
        · rfl
        · simp [lookup, hq, hk]
      · rw [List.filter_cons_of_pos (by simp [hq])]
        simp only [lookup, ih]
        split_ifs with h1 h2 h3
        · exact absurd (h1.symm.trans h2) hq
        · rfl
        · rfl
        · rfl

theorem get?_foldl_erase (m : BTreeMap κ ν) (ks : List κ) (k : κ) :
    (ks.foldl erase m).get? k = if k ∈ ks then none else m.get? k := by
  induction ks generalizing m with
  | nil => simp
  | cons k' ks ih =>
      rw [List.foldl_cons, ih, get?_erase]
      by_cases hk : k = k'
      · simp [hk]
      · simp [hk]

/-- Apply a function to every stored value, if it answers on all of them. -/
def traverse (f : ν → Option μ) (m : BTreeMap κ ν) : Option (BTreeMap κ μ) :=
  (traverseEntries f m.entries).map ofList
where
  traverseEntries (f : ν → Option μ) : List (κ × ν) → Option (List (κ × μ))
    | [] => some []
    | (k, v) :: rest => do
        let w ← f v
        let ws ← traverseEntries f rest
        some ((k, w) :: ws)

/-! ### Building a map from its entries -/

theorem eq_of_entries {m n : BTreeMap κ ν} (h : m.entries = n.entries) : m = n := by
  cases m
  cases n
  cases h
  rfl

theorem insertEntry_append {k : κ} (v : ν) {l : List (κ × ν)} (h : ∀ p ∈ l, p.1 < k) :
    insertEntry k v l = l ++ [(k, v)] := by
  induction l with
  | nil => rfl
  | cons q rest ih =>
      obtain ⟨k', v'⟩ := q
      have hlt : k' < k := h (k', v') List.mem_cons_self
      simp only [insertEntry, if_neg (not_lt.mpr hlt.le), if_neg (ne_of_gt hlt),
        ih (fun p hp => h p (List.mem_cons_of_mem _ hp)), List.cons_append]

/-- Inserting the entries of a map in their order rebuilds it. -/
theorem ofList_entries (m : BTreeMap κ ν) : ofList m.entries = m := by
  suffices h : ∀ (l : List (κ × ν)) (n : BTreeMap κ ν),
      (n.entries ++ l).Pairwise (fun a b => a.1 < b.1) →
        (l.foldl (fun m p => m.insert p.1 p.2) n).entries = n.entries ++ l by
    exact eq_of_entries (h m.entries empty m.sorted)
  intro l
  induction l with
  | nil => simp
  | cons q rest ih =>
      intro n hs
      have hq : ∀ p ∈ n.entries, p.1 < q.1 := fun p hp =>
        (List.pairwise_append.mp hs).2.2 p hp q List.mem_cons_self
      have hins : (n.insert q.1 q.2).entries = n.entries ++ [q] := insertEntry_append q.2 hq
      rw [List.foldl_cons, ih _ (by rwa [hins, List.append_assoc]), hins, List.append_assoc]
      rfl

theorem mem_insertEntry_self (k : κ) (v : ν) (l : List (κ × ν)) : (k, v) ∈ insertEntry k v l :=
  mem_of_lookup (lookup_insertEntry_self k v l)

/-- An insertion either replaces an entry or adds one and keeps the others. -/
theorem insertEntry_length (k : κ) (v : ν) (l : List (κ × ν)) :
    (insertEntry k v l).length = l.length ∨
      ((insertEntry k v l).length = l.length + 1 ∧ ∀ p ∈ l, p ∈ insertEntry k v l) := by
  induction l with
  | nil => exact Or.inr ⟨rfl, by simp⟩
  | cons q rest ih =>
      obtain ⟨k', v'⟩ := q
      simp only [insertEntry]
      split_ifs
      · exact Or.inr ⟨rfl, fun p hp => List.mem_cons_of_mem _ hp⟩
      · exact Or.inl rfl
      · rcases ih with hlen | ⟨hlen, hmem⟩
        · exact Or.inl (by rw [List.length_cons, List.length_cons, hlen])
        · refine Or.inr ⟨by rw [List.length_cons, List.length_cons, hlen], fun p hp => ?_⟩
          rcases List.mem_cons.mp hp with rfl | hp
          · exact List.mem_cons_self
          · exact List.mem_cons_of_mem _ (hmem p hp)

/-- A list of bindings that gives a map of its own length loses none of them. -/
theorem mem_ofList_of_length {l : List (κ × ν)} (h : (ofList l).entries.length = l.length) :
    ∀ p ∈ l, p ∈ (ofList l).entries := by
  suffices hall : ∀ (l : List (κ × ν)) (m : BTreeMap κ ν),
      (l.foldl (fun m p => m.insert p.1 p.2) m).entries.length ≤ m.entries.length + l.length ∧
        ((l.foldl (fun m p => m.insert p.1 p.2) m).entries.length =
            m.entries.length + l.length →
          ∀ p ∈ m.entries ++ l, p ∈ (l.foldl (fun m p => m.insert p.1 p.2) m).entries) by
    have hl := (hall l empty).2
    simp only [empty, List.length_nil, Nat.zero_add, List.nil_append] at hl
    exact hl h
  intro l
  induction l with
  | nil => simp
  | cons q rest ih =>
      intro m
      obtain ⟨hle, hmem⟩ := ih (m.insert q.1 q.2)
      have hself : q ∈ (m.insert q.1 q.2).entries := mem_insertEntry_self q.1 q.2 m.entries
      rw [List.foldl_cons, List.length_cons]
      rcases insertEntry_length q.1 q.2 m.entries with hlen | ⟨hlen, hkeep⟩
      · -- a replaced entry makes the result too short
        have hlen : (m.insert q.1 q.2).entries.length = m.entries.length := hlen
        exact ⟨by omega, fun heq => by omega⟩
      · have hlen : (m.insert q.1 q.2).entries.length = m.entries.length + 1 := hlen
        refine ⟨by omega, fun heq p hp => hmem (by omega) p ?_⟩
        rcases List.mem_append.mp hp with hp | hp
        · exact List.mem_append_left _ (hkeep p hp)
        · rcases List.mem_cons.mp hp with rfl | hp
          · exact List.mem_append_left _ hself
          · exact List.mem_append_right _ hp

/-- A later binding of another key is not seen. -/
theorem get?_foldl_insert_of_not_mem {l : List (κ × ν)} {k : κ} (h : k ∉ l.map Prod.fst)
    (m : BTreeMap κ ν) : (l.foldl (fun m p => m.insert p.1 p.2) m).get? k = m.get? k := by
  induction l generalizing m with
  | nil => rfl
  | cons q rest ih =>
      rw [List.map_cons, List.mem_cons, not_or] at h
      rw [List.foldl_cons, ih h.2, get?_insert_ne _ _ h.1]

/-- Bindings that are added in the order of their keys win. -/
theorem get?_foldl_insert (h : κ → ν → μ) {l : List (κ × ν)}
    (hsorted : l.Pairwise (fun a b => a.1 < b.1)) (m : BTreeMap κ μ) (k : κ) :
    (l.foldl (fun m p => m.insert p.1 (h p.1 p.2)) m).get? k =
      ((lookup k l).map (h k)).or (m.get? k) := by
  induction l generalizing m with
  | nil => rfl
  | cons q rest ih =>
      obtain ⟨hq, hrest⟩ := List.pairwise_cons.mp hsorted
      rw [List.foldl_cons, ih hrest]
      by_cases hk : k = q.1
      · -- the key is not bound again
        have hnone : lookup k rest = none := by
          by_contra hne
          obtain ⟨v, hv⟩ := Option.ne_none_iff_exists'.mp hne
          exact lt_irrefl k (by simpa [hk] using hq _ (mem_of_lookup hv))
        rw [hnone, lookup, if_pos hk, hk, get?_insert_self]
        rfl
      · rw [get?_insert_ne m _ hk, lookup, if_neg hk]

theorem get?_extend (m n : BTreeMap κ ν) (k : κ) :
    (m.extend n).get? k = (n.get? k).or (m.get? k) := by
  have h := get?_foldl_insert (fun _ v => v) n.sorted m k
  rwa [Option.map_id'] at h

/-- A list without two bindings of one key describes each of them. -/
theorem get?_ofList_of_mem {l : List (κ × ν)} (hnd : (l.map Prod.fst).Nodup) {k : κ} {v : ν}
    (h : (k, v) ∈ l) : (ofList l).get? k = some v := by
  suffices hfold : ∀ m : BTreeMap κ ν,
      (l.foldl (fun m p => m.insert p.1 p.2) m).get? k = some v from hfold empty
  induction l with
  | nil => cases h
  | cons q rest ih =>
      intro m
      obtain ⟨hq, hrest⟩ := List.nodup_cons.mp hnd
      rcases List.mem_cons.mp h with rfl | h
      · rw [List.foldl_cons, get?_foldl_insert_of_not_mem hq, get?_insert_self]
      · exact ih hrest h _

theorem mem_of_mem_ofList {l : List (κ × ν)} {p : κ × ν} (h : p ∈ (ofList l).entries) :
    p ∈ l := by
  suffices hall : ∀ (l : List (κ × ν)) (m : BTreeMap κ ν),
      p ∈ (l.foldl (fun m p => m.insert p.1 p.2) m).entries → p ∈ m.entries ∨ p ∈ l by
    exact (hall l empty h).resolve_left (by simp [empty])
  intro l
  induction l with
  | nil => intro m hm; exact Or.inl hm
  | cons q rest ih =>
      intro m hm
      rcases ih _ hm with hm | hm
      · rcases mem_insertEntry hm with rfl | hm
        · exact Or.inr List.mem_cons_self
        · exact Or.inl hm
      · exact Or.inr (List.mem_cons_of_mem _ hm)

end BTreeMap

/-- A finite set listed in strictly increasing order. -/
structure BTreeSet (α : Type) [LinearOrder α] where
  elems : List α
  sorted : elems.Pairwise (· < ·)

namespace BTreeSet

variable {α : Type} [LinearOrder α]

def empty : BTreeSet α := ⟨[], .nil⟩

instance : EmptyCollection (BTreeSet α) := ⟨empty⟩
instance : Inhabited (BTreeSet α) := ⟨empty⟩

/-- Insert into an ordered list; a present element is left alone. -/
def insertElem (a : α) : List α → List α
  | [] => [a]
  | b :: rest => if a < b then a :: b :: rest else if a = b then b :: rest
      else b :: insertElem a rest

theorem mem_insertElem {a x : α} {l : List α} (h : x ∈ insertElem a l) : x = a ∨ x ∈ l := by
  induction l with
  | nil => simpa [insertElem] using h
  | cons b rest ih =>
      simp only [insertElem] at h
      split_ifs at h with hlt heq
      · simpa using h
      · exact Or.inr h
      · rcases List.mem_cons.mp h with h | h
        · exact Or.inr (h ▸ List.mem_cons_self)
        · exact (ih h).imp id (List.mem_cons_of_mem _)

theorem insertElem_sorted (a : α) {l : List α} (h : l.Pairwise (· < ·)) :
    (insertElem a l).Pairwise (· < ·) := by
  induction l with
  | nil => simp [insertElem]
  | cons b rest ih =>
      obtain ⟨hhead, htail⟩ := List.pairwise_cons.mp h
      simp only [insertElem]
      split_ifs with hlt heq
      · refine List.pairwise_cons.mpr ⟨fun x hx => ?_, h⟩
        rcases List.mem_cons.mp hx with rfl | hx
        · exact hlt
        · exact lt_trans hlt (hhead x hx)
      · exact h
      · refine List.pairwise_cons.mpr ⟨fun x hx => ?_, ih htail⟩
        rcases mem_insertElem hx with rfl | hx
        · exact lt_of_le_of_ne (not_lt.mp hlt) (Ne.symm heq)
        · exact hhead x hx

/-- Insertion of one element. -/
def insert (s : BTreeSet α) (a : α) : BTreeSet α :=
  ⟨insertElem a s.elems, insertElem_sorted a s.sorted⟩

def erase (s : BTreeSet α) (a : α) : BTreeSet α :=
  ⟨s.elems.filter (· ≠ a), s.sorted.filter _⟩

theorem mem_insert {s : BTreeSet α} {a x : α} :
    x ∈ (s.insert a).elems ↔ x = a ∨ x ∈ s.elems := by
  constructor
  · exact mem_insertElem
  · show x = a ∨ x ∈ s.elems → x ∈ insertElem a s.elems
    induction s.elems with
    | nil => simp [insertElem]
    | cons b rest ih =>
        intro hx
        simp only [insertElem]
        split_ifs with hlt heq
        · simpa using hx
        · rcases hx with rfl | hx
          · exact heq ▸ List.mem_cons_self
          · exact hx
        · rcases hx with hx | hx
          · exact List.mem_cons_of_mem _ (ih (Or.inl hx))
          · rcases List.mem_cons.mp hx with rfl | hx
            · exact List.mem_cons_self
            · exact List.mem_cons_of_mem _ (ih (Or.inr hx))

def ofList (l : List α) : BTreeSet α := l.foldl insert empty

theorem eq_of_elems {s t : BTreeSet α} (h : s.elems = t.elems) : s = t := by
  cases s
  cases t
  cases h
  rfl

theorem insertElem_append {a : α} {l : List α} (h : ∀ x ∈ l, x < a) :
    insertElem a l = l ++ [a] := by
  induction l with
  | nil => rfl
  | cons b rest ih =>
      have hlt : b < a := h b List.mem_cons_self
      simp only [insertElem, if_neg (not_lt.mpr hlt.le), if_neg (ne_of_gt hlt),
        ih (fun x hx => h x (List.mem_cons_of_mem _ hx)), List.cons_append]

/-- Inserting the elements of a set in their order rebuilds it. -/
theorem ofList_elems (s : BTreeSet α) : ofList s.elems = s := by
  suffices h : ∀ (l : List α) (t : BTreeSet α), (t.elems ++ l).Pairwise (· < ·) →
      (l.foldl insert t).elems = t.elems ++ l by
    exact eq_of_elems (h s.elems empty s.sorted)
  intro l
  induction l with
  | nil => simp
  | cons a rest ih =>
      intro t hs
      have ha : ∀ x ∈ t.elems, x < a := fun x hx =>
        (List.pairwise_append.mp hs).2.2 x hx a List.mem_cons_self
      have hins : (t.insert a).elems = t.elems ++ [a] := insertElem_append ha
      rw [List.foldl_cons, ih _ (by rwa [hins, List.append_assoc]), hins, List.append_assoc]
      rfl

theorem mem_of_mem_ofList {l : List α} {x : α} (h : x ∈ (ofList l).elems) : x ∈ l := by
  suffices hall : ∀ (l : List α) (t : BTreeSet α), x ∈ (l.foldl insert t).elems →
      x ∈ t.elems ∨ x ∈ l by
    exact (hall l empty h).resolve_left (by simp [empty])
  intro l
  induction l with
  | nil => intro t ht; exact Or.inl ht
  | cons a rest ih =>
      intro t ht
      rcases ih _ ht with ht | ht
      · rcases mem_insertElem ht with rfl | ht
        · exact Or.inr List.mem_cons_self
        · exact Or.inl ht
      · exact Or.inr (List.mem_cons_of_mem _ ht)

end BTreeSet

end Armour.Lib
