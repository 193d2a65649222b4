import Mathlib.Data.List.Basic

/-! # YAML values

Values as a YAML document holds them.  A scalar has its text and what the text stands for: the
same text is a number when it is plain and a string when it is quoted.  `Preserved` says what a
document is to keep of another one.
-/

namespace Armour.Lib

/-- What a scalar stands for. -/
inductive Tag where
  | null
  | bool (b : Bool)
  | int (n : Int)
  | float (bits : UInt64)
  | str
deriving DecidableEq

structure Scalar where
  text : String
  tag : Tag
deriving DecidableEq

namespace Scalar

def null : Scalar := ⟨"~", .null⟩
def ofBool (b : Bool) : Scalar := ⟨toString b, .bool b⟩
def ofNat (n : Nat) : Scalar := ⟨toString n, .int n⟩
def str (s : String) : Scalar := ⟨s, .str⟩

/-- Two scalars are the same value, whatever they look like. -/
def Same (a b : Scalar) : Prop := a.tag = b.tag ∧ (a.tag = .str → a.text = b.text)

instance (a b : Scalar) : Decidable (Same a b) := inferInstanceAs (Decidable (_ ∧ _))

theorem Same.refl (a : Scalar) : Same a a := ⟨rfl, fun _ => rfl⟩

theorem same_str {a : Scalar} {s : String} : Same a (str s) ↔ a.tag = .str ∧ a.text = s := by
  unfold Same str
  refine and_congr_right (fun h => ?_)
  simp [h]

end Scalar

inductive Yaml where
  | scalar (s : Scalar)
  | seq (vs : List Yaml)
  | map (entries : List (Scalar × Yaml))

/-- The entries of a mapping, in the order of the document. -/
abbrev Entries := List (Scalar × Yaml)

namespace Yaml

def isScalar : Yaml → Bool
  | scalar _ => true
  | _ => false

def isSeq : Yaml → Bool
  | seq _ => true
  | _ => false

/-- The entries of a mapping. -/
def entries : Yaml → Entries
  | map es => es
  | _ => []

mutual
/-- All that is in the first value is in the second one, in the same form; mappings may have
further entries there. -/
def Preserved : Yaml → Yaml → Prop
  | scalar a, scalar b => a.Same b
  | seq vs, seq ws => PreservedAll vs ws
  | map es, map fs => PreservedEntries es fs
  | _, _ => False

def PreservedAll : List Yaml → List Yaml → Prop
  | [], [] => True
  | v :: vs, w :: ws => Preserved v w ∧ PreservedAll vs ws
  | _, _ => False

def PreservedEntries : Entries → Entries → Prop
  | [], _ => True
  | (k, v) :: es, fs =>
      (∃ k' w, (k', w) ∈ fs ∧ k.Same k' ∧ Preserved v w) ∧ PreservedEntries es fs
end

mutual
/-- No mapping has a key twice. -/
def Distinct : Yaml → Prop
  | scalar _ => True
  | seq vs => DistinctAll vs
  | map es => es.Pairwise (fun a b => ¬ a.1.Same b.1) ∧ DistinctEntries es

def DistinctAll : List Yaml → Prop
  | [] => True
  | v :: vs => Distinct v ∧ DistinctAll vs

def DistinctEntries : Entries → Prop
  | [] => True
  | (_, v) :: es => Distinct v ∧ DistinctEntries es
end

variable {v w : Yaml} {vs ws : List Yaml} {es fs : Entries}

theorem preservedAll_iff : PreservedAll vs ws ↔ List.Forall₂ Preserved vs ws := by
  induction vs generalizing ws with
  | nil =>
      cases ws with
      | nil => simp [PreservedAll]
      | cons w ws => exact iff_of_false (by simp [PreservedAll]) (fun h => by cases h)
  | cons v vs ih =>
      cases ws with
      | nil => exact iff_of_false (by simp [PreservedAll]) (fun h => by cases h)
      | cons w ws => simp [PreservedAll, ih]

/-- The entry is in a mapping, with its value preserved. -/
def PreservedIn (e : Scalar × Yaml) (fs : Entries) : Prop :=
  ∃ k w, (k, w) ∈ fs ∧ e.1.Same k ∧ Preserved e.2 w

theorem preservedEntries_iff : PreservedEntries es fs ↔ ∀ e ∈ es, PreservedIn e fs := by
  induction es with
  | nil => simp [PreservedEntries]
  | cons e es ih =>
      obtain ⟨k, v⟩ := e
      rw [PreservedEntries, ih, List.forall_mem_cons]
      exact Iff.rfl

theorem distinctAll_iff : DistinctAll vs ↔ ∀ v ∈ vs, Distinct v := by
  induction vs with
  | nil => simp [DistinctAll]
  | cons v vs ih => rw [DistinctAll, ih, List.forall_mem_cons]

theorem distinctEntries_iff : DistinctEntries es ↔ ∀ e ∈ es, Distinct e.2 := by
  induction es with
  | nil => simp [DistinctEntries]
  | cons e es ih =>
      obtain ⟨k, v⟩ := e
      rw [DistinctEntries, ih, List.forall_mem_cons]

@[simp] theorem preserved_scalar {a b : Scalar} :
    Preserved (.scalar a) (.scalar b) ↔ a.Same b := Iff.rfl

@[simp] theorem preserved_seq :
    Preserved (.seq vs) (.seq ws) ↔ List.Forall₂ Preserved vs ws := by
  show PreservedAll vs ws ↔ _
  exact preservedAll_iff

@[simp] theorem preserved_map :
    Preserved (.map es) (.map fs) ↔ ∀ e ∈ es, PreservedIn e fs := by
  show PreservedEntries es fs ↔ _
  exact preservedEntries_iff

theorem preservedIn_append {e : Scalar × Yaml} {fs gs : Entries} :
    PreservedIn e (fs ++ gs) ↔ PreservedIn e fs ∨ PreservedIn e gs := by
  constructor
  · rintro ⟨k, w, hmem, h⟩
    exact (List.mem_append.mp hmem).imp (fun hmem => ⟨k, w, hmem, h⟩) (fun hmem => ⟨k, w, hmem, h⟩)
  · rintro (⟨k, w, hmem, h⟩ | ⟨k, w, hmem, h⟩)
    · exact ⟨k, w, List.mem_append_left _ hmem, h⟩
    · exact ⟨k, w, List.mem_append_right _ hmem, h⟩

/-- All keys are strings of the list. -/
def Keyed (names : List String) (fs : Entries) : Prop := ∀ p ∈ fs, ∃ n ∈ names, p.1 = .str n

theorem Keyed.append {names : List String} {fs gs : Entries} (hf : Keyed names fs)
    (hg : Keyed names gs) : Keyed names (fs ++ gs) :=
  fun p hp => (List.mem_append.mp hp).elim (hf p) (hg p)

theorem Keyed.mono {names names' : List String} {fs : Entries} (h : Keyed names fs)
    (hsub : ∀ n ∈ names, n ∈ names') : Keyed names' fs := by
  intro p hp
  obtain ⟨n, hn, heq⟩ := h p hp
  exact ⟨n, hsub n hn, heq⟩

theorem keyed_nil {names : List String} : Keyed names [] := fun _ hp => absurd hp List.not_mem_nil

theorem keyed_str {n : String} : Keyed [n] [(.str n, w)] := by
  intro p hp
  rw [List.mem_singleton.mp hp]
  exact ⟨n, List.mem_cons_self, rfl⟩

/-- An entry with another key is not there. -/
theorem Keyed.not_preservedIn {names : List String} {fs : Entries} (h : Keyed names fs)
    {e : Scalar × Yaml} (he : e.1.text ∉ names) : ¬ PreservedIn e fs := by
  rintro ⟨k, w, hmem, hk, -⟩
  obtain ⟨n, hn, hkn⟩ := h (k, w) hmem
  rw [show k = .str n from hkn] at hk
  exact he ((Scalar.same_str.mp hk).2 ▸ hn)

theorem preservedIn_str {e : Scalar × Yaml} {n : String} :
    PreservedIn e [(.str n, w)] ↔ e.1.tag = .str ∧ e.1.text = n ∧ Preserved e.2 w := by
  unfold PreservedIn
  simp only [List.mem_singleton, Prod.mk.injEq]
  constructor
  · rintro ⟨k, w', ⟨rfl, rfl⟩, hk, hv⟩
    exact ⟨(Scalar.same_str.mp hk).1, (Scalar.same_str.mp hk).2, hv⟩
  · rintro ⟨htag, htext, hv⟩
    exact ⟨_, _, ⟨rfl, rfl⟩, Scalar.same_str.mpr ⟨htag, htext⟩, hv⟩

@[simp] theorem not_preserved_scalar_seq {a : Scalar} : ¬ Preserved (.scalar a) (.seq ws) := id

@[simp] theorem not_preserved_scalar_map {a : Scalar} : ¬ Preserved (.scalar a) (.map fs) := id

@[simp] theorem not_preserved_seq_scalar {a : Scalar} : ¬ Preserved (.seq vs) (.scalar a) := id

@[simp] theorem not_preserved_seq_map : ¬ Preserved (.seq vs) (.map fs) := id

@[simp] theorem not_preserved_map_scalar {a : Scalar} : ¬ Preserved (.map es) (.scalar a) := id

@[simp] theorem not_preserved_map_seq : ¬ Preserved (.map es) (.seq ws) := id

mutual
theorem preserved_refl : ∀ v, Preserved v v
  | scalar a => preserved_scalar.mpr (.refl a)
  | seq vs => by
      show PreservedAll vs vs
      exact preservedAll_refl vs
  | map es => preserved_map.mpr (preservedEntries_refl es)

theorem preservedAll_refl : ∀ vs, PreservedAll vs vs
  | [] => trivial
  | v :: vs => ⟨preserved_refl v, preservedAll_refl vs⟩

theorem preservedEntries_refl : ∀ (es : Entries), ∀ e ∈ es, PreservedIn e es
  | [] => fun e he => absurd he List.not_mem_nil
  | (k, v) :: es => fun e he => by
      rcases List.mem_cons.mp he with rfl | he
      · exact ⟨k, v, List.mem_cons_self, .refl k, preserved_refl v⟩
      · obtain ⟨k', w, hw, hk, hv⟩ := preservedEntries_refl es e he
        exact ⟨k', w, List.mem_cons_of_mem _ hw, hk, hv⟩
end

theorem Distinct.seq (h : Distinct (.seq vs)) : ∀ v ∈ vs, Distinct v := by
  rw [Distinct] at h
  exact distinctAll_iff.mp h

theorem Distinct.map (h : Distinct (.map es)) :
    es.Pairwise (fun a b => ¬ a.1.Same b.1) ∧ ∀ e ∈ es, Distinct e.2 := by
  rw [Distinct] at h
  exact ⟨h.1, distinctEntries_iff.mp h.2⟩

end Yaml

end Armour.Lib
