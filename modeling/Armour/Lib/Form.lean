import Mathlib.Data.List.Forall2
import Armour.Lib.Keys
import Armour.Lib.Yaml

/-! # Forms of settings

A form is a type with the way its values are read from YAML and written again.  A value that is
read and written is preserved exactly if it is `Kept`, and then it is read as the default of the
type exactly if it is `Default`.  Both conditions are about the value as it was before.
-/

namespace Armour.Lib

open Yaml

structure Form (α : Type) where
  read : Yaml → Option α
  write : α → Yaml
  isDefault : α → Bool
  Kept : Yaml → Prop
  Default : Yaml → Prop
  kept_iff : ∀ v x, v.Distinct → read v = some x → (Preserved v (write x) ↔ Kept v)
  default_iff : ∀ v x, read v = some x → Kept v → (isDefault x = true ↔ Default v)

namespace Form

variable {α β γ : Type}

/-! ## Scalars -/

/-- `String`, which every scalar is read as. -/
def text : Form String where
  read
    | .scalar s => some s.text
    | _ => none
  write s := .scalar (.str s)
  isDefault s := s == ""
  Kept
    | .scalar s => s.tag = .str
    | _ => False
  Default
    | .scalar s => s.text = ""
    | _ => False
  kept_iff v x _ hread := by
    cases v with
    | scalar s =>
        cases hread
        rw [preserved_scalar, Scalar.same_str]
        exact and_iff_left rfl
    | seq vs => cases hread
    | map es => cases hread
  default_iff v x hread _ := by
    cases v with
    | scalar s =>
        cases hread
        exact beq_iff_eq
    | seq vs => cases hread
    | map es => cases hread

/-- Strings that are read as something else; `plain` is for values that are looked at first. -/
def refine (read : String → Option α) (write : α → String) (plain : Bool) : Form α where
  read
    | .scalar s => if plain ∨ s.tag = .str then read s.text else none
    | _ => none
  write x := .scalar (.str (write x))
  isDefault _ := false
  Kept
    | .scalar s => s.tag = .str ∧ (read s.text).map write = some s.text
    | _ => False
  Default _ := False
  kept_iff v x _ hread := by
    cases v with
    | scalar s =>
        dsimp only at hread ⊢
        split at hread
        · rw [preserved_scalar, Scalar.same_str, hread]
          exact and_congr_right (fun _ => by simp [eq_comm])
        · cases hread
    | seq vs => cases hread
    | map es => cases hread
  default_iff v x _ _ := by simp

/-- A string that is read where the value is looked at first. -/
def string : Form String where
  read
    | .scalar s => if s.tag = .str then some s.text else none
    | _ => none
  write s := .scalar (.str s)
  isDefault s := s == ""
  Kept _ := True
  Default
    | .scalar s => s.text = ""
    | _ => False
  kept_iff v x _ hread := by
    cases v with
    | scalar s =>
        dsimp only at hread
        split at hread
        · next htag =>
          cases hread
          rw [preserved_scalar, Scalar.same_str]
          exact iff_of_true ⟨htag, rfl⟩ trivial
        · cases hread
    | seq vs => cases hread
    | map es => cases hread
  default_iff v x hread _ := by
    cases v with
    | scalar s =>
        dsimp only at hread
        split at hread
        · cases hread
          exact beq_iff_eq
        · cases hread
    | seq vs => cases hread
    | map es => cases hread

def bool : Form Bool where
  read
    | .scalar ⟨_, .bool b⟩ => some b
    | _ => none
  write b := .scalar (.ofBool b)
  isDefault b := !b
  Kept _ := True
  Default
    | .scalar s => s.tag = .bool false
    | _ => False
  kept_iff v x _ hread := by
    split at hread
    · cases hread
      exact iff_of_true (preserved_scalar.mpr ⟨rfl, fun h => by cases h⟩) trivial
    · cases hread
  default_iff v x hread _ := by
    split at hread
    · cases hread
      show _ ↔ Tag.bool _ = Tag.bool false
      simp
    · cases hread

/-- Unsigned numbers below a bound. -/
def nat (bound : Nat) : Form Nat where
  read
    | .scalar ⟨_, .int n⟩ => if 0 ≤ n ∧ n < bound then some n.toNat else none
    | _ => none
  write n := .scalar (.ofNat n)
  isDefault n := n == 0
  Kept _ := True
  Default
    | .scalar s => s.tag = .int 0
    | _ => False
  kept_iff v x _ hread := by
    split at hread
    · split at hread
      · next hn =>
        cases hread
        refine iff_of_true (preserved_scalar.mpr ⟨?_, fun h => by cases h⟩) trivial
        show Tag.int _ = Tag.int _
        rw [Int.toNat_of_nonneg hn.1]
      · cases hread
    · cases hread
  default_iff v x hread _ := by
    split at hread
    · split at hread
      · next hn =>
        cases hread
        show _ ↔ Tag.int _ = Tag.int 0
        rw [beq_iff_eq, Tag.int.injEq]
        omega
      · cases hread
    · cases hread

/-- Any value. -/
def value : Form Yaml where
  read := some
  write v := v
  isDefault _ := false
  Kept _ := True
  Default _ := False
  kept_iff v x _ hread := by
    cases hread
    exact iff_of_true (preserved_refl v) trivial
  default_iff v x _ _ := by simp

/-! ## Options and lists -/

def option (f : Form α) : Form (Option α) where
  read
    | .scalar ⟨_, .null⟩ => some none
    | v => (f.read v).map some
  write
    | none => .scalar .null
    | some x => f.write x
  isDefault x := x.isNone
  Kept
    | .scalar ⟨_, .null⟩ => True
    | v => f.Kept v
  Default
    | .scalar s => s.tag = .null
    | _ => False
  kept_iff v x hd hread := by
    split at hread
    · cases hread
      exact iff_of_true (preserved_scalar.mpr ⟨rfl, fun h => by cases h⟩) trivial
    · next hnull =>
      obtain ⟨y, hy, rfl⟩ := Option.map_eq_some_iff.mp hread
      dsimp only
      rw [f.kept_iff v y hd hy]
  default_iff v x hread _ := by
    split at hread
    · cases hread
      exact iff_of_true rfl rfl
    · next hnull =>
      obtain ⟨y, hy, rfl⟩ := Option.map_eq_some_iff.mp hread
      refine iff_of_false (fun h => by cases h) (fun h => ?_)
      cases v with
      | scalar s =>
          obtain ⟨t, tag⟩ := s
          cases h
          exact hnull t rfl
      | seq vs => exact h
      | map es => exact h

theorem mapM_eq_some {f : γ → Option α} {l : List γ} {xs : List α} :
    l.mapM f = some xs ↔ List.Forall₂ (fun a x => f a = some x) l xs := by
  induction l generalizing xs with
  | nil =>
      rw [List.mapM_nil, List.forall₂_nil_left_iff]
      exact ⟨fun h => (Option.some.inj h).symm, fun h => by rw [h]; rfl⟩
  | cons a l ih =>
      rw [List.mapM_cons, Option.bind_eq_bind, Option.bind_eq_some_iff, List.forall₂_cons_left_iff]
      constructor
      · rintro ⟨x, hx, h⟩
        obtain ⟨ys, hys, h⟩ := Option.bind_eq_some_iff.mp h
        cases h
        exact ⟨x, ys, hx, ih.mp hys, rfl⟩
      · rintro ⟨x, ys, hx, hys, rfl⟩
        exact ⟨x, hx, Option.bind_eq_some_iff.mpr ⟨ys, ih.mpr hys, rfl⟩⟩

theorem forall₂_kept (f : Form α) {vs : List Yaml} {xs : List α} (hd : ∀ v ∈ vs, v.Distinct)
    (hread : vs.mapM f.read = some xs) :
    List.Forall₂ Preserved vs (xs.map f.write) ↔ ∀ v ∈ vs, f.Kept v := by
  have hall := mapM_eq_some.mp hread
  clear hread
  induction hall with
  | nil => simp
  | @cons v x vs xs hx _ ih =>
      obtain ⟨hdv, hdvs⟩ := List.forall_mem_cons.mp hd
      rw [List.map_cons, List.forall₂_cons, List.forall_mem_cons]
      exact and_congr (f.kept_iff v x hdv hx) (ih hdvs)

theorem isEmpty_of_read {f : γ → Option α} {l : List γ} {xs : List α} (h : l.mapM f = some xs) :
    xs.isEmpty = true ↔ l = [] := by
  have hlen := (mapM_eq_some.mp h).length_eq
  rw [List.isEmpty_iff, ← List.length_eq_zero_iff, ← List.length_eq_zero_iff, hlen]

def list (f : Form α) : Form (List α) where
  read
    | .seq vs => vs.mapM f.read
    | _ => none
  write xs := .seq (xs.map f.write)
  isDefault xs := xs.isEmpty
  Kept
    | .seq vs => ∀ v ∈ vs, f.Kept v
    | _ => False
  Default
    | .seq vs => vs = []
    | _ => False
  kept_iff v xs hd hread := by
    cases v with
    | scalar s => cases hread
    | seq vs => rw [preserved_seq, f.forall₂_kept hd.seq hread]
    | map es => cases hread
  default_iff v xs hread _ := by
    cases v with
    | scalar s => cases hread
    | seq vs => exact isEmpty_of_read hread
    | map es => cases hread

/-- A list, or one member of it in place of the list. -/
def listOrOne (f : Form α) : Form (List α) where
  read
    | .seq vs => vs.mapM f.read
    | .scalar s => if s.tag = .str then (f.read (.scalar s)).map (fun x => [x]) else none
    | _ => none
  write xs := .seq (xs.map f.write)
  isDefault xs := xs.isEmpty
  Kept
    | .seq vs => ∀ v ∈ vs, f.Kept v
    | _ => False
  Default
    | .seq vs => vs = []
    | _ => False
  kept_iff v xs hd hread := by
    cases v with
    | scalar s => exact iff_of_false not_preserved_scalar_seq (fun h => h)
    | seq vs => rw [preserved_seq, f.forall₂_kept hd.seq hread]
    | map es => cases hread
  default_iff v xs hread hkept := by
    cases v with
    | scalar s => cases hkept
    | seq vs => exact isEmpty_of_read hread
    | map es => cases hread

/-- A list of strings, or a string, which a list of one string is written as. -/
def stringList : Form (List String) where
  read
    | .seq vs => vs.mapM text.read
    | .scalar s => if s.tag = .str then some [s.text] else none
    | _ => none
  write
    | [s] => .scalar (.str s)
    | xs => .seq (xs.map text.write)
  isDefault xs := xs.isEmpty
  Kept
    | .seq vs => vs.length ≠ 1 ∧ ∀ v ∈ vs, text.Kept v
    | _ => True
  Default
    | .seq vs => vs = []
    | _ => False
  kept_iff v xs hd hread := by
    cases v with
    | scalar s =>
        dsimp only at hread
        split at hread
        · next htag =>
          cases hread
          exact iff_of_true (preserved_scalar.mpr (Scalar.same_str.mpr ⟨htag, rfl⟩)) trivial
        · cases hread
    | seq vs =>
        have hlen := (mapM_eq_some.mp hread).length_eq
        have hkept := text.forall₂_kept hd.seq hread
        show _ ↔ (vs.length ≠ 1 ∧ ∀ v ∈ vs, text.Kept v)
        split
        · exact iff_of_false not_preserved_seq_scalar (fun h => h.1 hlen)
        · next hne =>
          rw [preserved_seq, hkept, and_iff_right]
          intro hone
          obtain ⟨x, hx⟩ := List.length_eq_one_iff.mp (hlen.symm.trans hone)
          exact hne x hx
    | map es => cases hread
  default_iff v xs hread _ := by
    cases v with
    | scalar s =>
        dsimp only at hread
        split at hread
        · cases hread
          exact iff_of_false (fun h => by cases h) (fun h => h)
        · cases hread
    | seq vs => exact isEmpty_of_read hread
    | map es => cases hread

/-- Two forms that are told apart by a look at the value. -/
def either (first : Yaml → Bool) (f : Form α) (g : Form β) : Form (α ⊕ β) where
  read v := if first v then (f.read v).map .inl else (g.read v).map .inr
  write
    | .inl x => f.write x
    | .inr y => g.write y
  isDefault
    | .inl x => f.isDefault x
    | .inr _ => false
  Kept v := if first v then f.Kept v else g.Kept v
  Default v := first v ∧ f.Default v
  kept_iff v x hd hread := by
    split at hread
    · next hv =>
      obtain ⟨y, hy, rfl⟩ := Option.map_eq_some_iff.mp hread
      rw [if_pos hv]
      exact f.kept_iff v y hd hy
    · next hv =>
      obtain ⟨y, hy, rfl⟩ := Option.map_eq_some_iff.mp hread
      rw [if_neg hv]
      exact g.kept_iff v y hd hy
  default_iff v x hread hkept := by
    split at hread
    · next hv =>
      obtain ⟨y, hy, rfl⟩ := Option.map_eq_some_iff.mp hread
      rw [if_pos hv] at hkept
      rw [and_iff_right hv]
      exact f.default_iff v y hy hkept
    · next hv =>
      obtain ⟨y, hy, rfl⟩ := Option.map_eq_some_iff.mp hread
      exact iff_of_false (fun h => by cases h) (fun h => hv h.1)

/-! ## Maps -/

/-- The entries of a mapping from strings; with `plain`, every scalar is a string. -/
def readEntries (plain : Bool) (read : Yaml → Option α) (es : Entries) :
    Option (List (String × α)) :=
  es.mapM (fun e =>
    if plain ∨ e.1.tag = .str then (read e.2).map (fun x => (e.1.text, x)) else none)

theorem mem_readEntries {plain : Bool} {read : Yaml → Option α} {es : Entries}
    {l : List (String × α)} (h : readEntries plain read es = some l) :
    l.map Prod.fst = es.map (fun e => e.1.text) ∧
      ∀ e ∈ es, ∃ x, read e.2 = some x ∧ (e.1.text, x) ∈ l := by
  have hall := mapM_eq_some.mp h
  clear h
  induction hall with
  | nil => exact ⟨rfl, fun e he => absurd he List.not_mem_nil⟩
  | @cons e y es l hy _ ih =>
      split at hy
      · obtain ⟨x, hx, rfl⟩ := Option.map_eq_some_iff.mp hy
        refine ⟨by rw [List.map_cons, List.map_cons, ih.1], fun e' he' => ?_⟩
        rcases List.mem_cons.mp he' with rfl | he'
        · exact ⟨x, hx, List.mem_cons_self⟩
        · obtain ⟨x', hx', hmem⟩ := ih.2 e' he'
          exact ⟨x', hx', List.mem_cons_of_mem _ hmem⟩
      · cases hy

/-- Keys that are strings are different texts if they are different. -/
theorem nodup_texts {es : Entries} (hd : es.Pairwise (fun a b => ¬ a.1.Same b.1))
    (hstr : ∀ e ∈ es, e.1.tag = .str) : (es.map (fun e => e.1.text)).Nodup := by
  refine List.pairwise_map.mpr (hd.imp_of_mem (fun {a b} ha hb hne heq => hne ?_))
  exact ⟨(hstr a ha).trans (hstr b hb).symm, fun _ => heq⟩

/-- What is read of an entry is what the map has under its key, if all keys are strings. -/
theorem get?_readEntries {plain : Bool} {read : Yaml → Option α} {es : Entries}
    {l : List (String × α)} (hread : readEntries plain read es = some l)
    (hd : es.Pairwise (fun a b => ¬ a.1.Same b.1)) (hstr : ∀ e ∈ es, e.1.tag = .str)
    {e : Scalar × Yaml} (he : e ∈ es) :
    ∃ x, read e.2 = some x ∧ (BTreeMap.ofList l).get? e.1.text = some x := by
  obtain ⟨hkeys, hmem⟩ := mem_readEntries hread
  obtain ⟨x, hx, hin⟩ := hmem e he
  exact ⟨x, hx, BTreeMap.get?_ofList_of_mem (hkeys ▸ nodup_texts hd hstr) hin⟩

/-- The entries that a map is written with. -/
def writeEntries (write : α → Yaml) (m : BTreeMap String α) : Entries :=
  m.entries.map (fun e => (.str e.1, write e.2))

theorem mem_writeEntries {write : α → Yaml} {m : BTreeMap String α} {k : Scalar} {w : Yaml} :
    (k, w) ∈ writeEntries write m ↔
      ∃ n x, m.get? n = some x ∧ k = .str n ∧ w = write x := by
  unfold writeEntries
  rw [List.mem_map]
  constructor
  · rintro ⟨e, he, heq⟩
    cases heq
    exact ⟨e.1, e.2, (BTreeMap.mem_entries _ _ _).mp he, rfl, rfl⟩
  · rintro ⟨n, x, hget, rfl, rfl⟩
    exact ⟨(n, x), (BTreeMap.mem_entries _ _ _).mpr hget, rfl⟩

/-- Nothing is read exactly from nothing. -/
theorem entries_isEmpty {plain : Bool} {read : Yaml → Option α} {es : Entries}
    {l : List (String × α)} (h : readEntries plain read es = some l) :
    (BTreeMap.ofList l).entries.isEmpty = true ↔ es = [] := by
  rw [List.isEmpty_iff]
  constructor
  · intro hempty
    obtain ⟨hkeys, -⟩ := mem_readEntries h
    cases l with
    | nil => exact List.map_eq_nil_iff.mp hkeys.symm
    | cons p l =>
        have hsome := (BTreeMap.isSome_get?_ofList (p :: l) p.1).mpr List.mem_cons_self
        obtain ⟨x, hx⟩ := Option.isSome_iff_exists.mp hsome
        have hmem := (BTreeMap.mem_entries _ _ _).mpr hx
        rw [hempty] at hmem
        cases hmem
  · rintro rfl
    cases h
    rfl

/-- A map from strings. -/
def map (plain : Bool) (f : Form α) : Form (BTreeMap String α) where
  read
    | .map es => (readEntries plain f.read es).map BTreeMap.ofList
    | _ => none
  write m := .map (writeEntries f.write m)
  isDefault m := m.entries.isEmpty
  Kept
    | .map es => ∀ e ∈ es, e.1.tag = .str ∧ f.Kept e.2
    | _ => False
  Default
    | .map es => es = []
    | _ => False
  kept_iff v m hd hread := by
    cases v with
    | scalar s => cases hread
    | seq vs => cases hread
    | map es =>
        obtain ⟨l, hl, rfl⟩ := Option.map_eq_some_iff.mp hread
        obtain ⟨hdist, hdv⟩ := hd.map
        show _ ↔ ∀ e ∈ es, e.1.tag = .str ∧ f.Kept e.2
        rw [preserved_map]
        constructor
        · intro h
          have hstr : ∀ e ∈ es, e.1.tag = .str := by
            intro e he
            obtain ⟨k, w, hkw, hk, -⟩ := h e he
            obtain ⟨n, x, -, rfl, -⟩ := mem_writeEntries.mp hkw
            exact (Scalar.same_str.mp hk).1
          intro e he
          refine ⟨hstr e he, ?_⟩
          obtain ⟨k, w, hkw, hk, hw⟩ := h e he
          obtain ⟨n, x, hget, rfl, rfl⟩ := mem_writeEntries.mp hkw
          obtain ⟨y, hy, hgety⟩ := get?_readEntries hl hdist hstr he
          rw [(Scalar.same_str.mp hk).2, hget] at hgety
          cases hgety
          exact (f.kept_iff e.2 x (hdv e he) hy).mp hw
        · intro h e he
          obtain ⟨x, hx, hget⟩ := get?_readEntries hl hdist (fun e he => (h e he).1) he
          exact ⟨.str e.1.text, f.write x, mem_writeEntries.mpr ⟨_, x, hget, rfl, rfl⟩,
            Scalar.same_str.mpr ⟨(h e he).1, rfl⟩, (f.kept_iff e.2 x (hdv e he) hx).mpr (h e he).2⟩
  default_iff v m hread _ := by
    cases v with
    | scalar s => cases hread
    | seq vs => cases hread
    | map es =>
        obtain ⟨l, hl, rfl⟩ := Option.map_eq_some_iff.mp hread
        exact entries_isEmpty hl

end Form

end Armour.Lib
