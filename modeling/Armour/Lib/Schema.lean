import Armour.Lib.Form

/-! # Records of settings

A record is a list of fields.  It is read from a mapping, a field from the entry that has its
name, and written as a mapping again.  A field that is absent has a value or is required, and may
be left out when it is written.
-/

namespace Armour.Lib

open Yaml

namespace Form

/-- When a field is written. -/
inductive Rule where
  | always
  | unlessDefault
  | never

structure Field where
  Value : Type
  name : String
  form : Form Value
  /-- The value of a field that is not there, unless it is required. -/
  absent : Option Value
  rule : Rule
  absent_isDefault : ∀ x, absent = some x → form.isDefault x = true

/-- The values under a name. -/
def named (name : String) (es : Entries) : List Yaml :=
  (es.filter (fun e => e.1.text = name)).map Prod.snd

/-- What is read under a name, which a mapping has only once. -/
def readNamed {α : Type} (name : String) (read : Yaml → Option α) (absent : Option α)
    (es : Entries) : Option α :=
  match named name es with
  | [] => absent
  | [v] => read v
  | _ => none

theorem mem_named {name : String} {es : Entries} {v : Yaml} :
    v ∈ named name es ↔ ∃ e ∈ es, e.1.text = name ∧ e.2 = v := by
  simp [named, and_assoc]

/-- A name that is read and is there is there once. -/
theorem named_of_readNamed {α : Type} {name : String} {read : Yaml → Option α} {absent : Option α}
    {es : Entries} {x : α} (h : readNamed name read absent es = some x) {e : Scalar × Yaml}
    (he : e ∈ es) (hname : e.1.text = name) : named name es = [e.2] ∧ read e.2 = some x := by
  have hmem : e.2 ∈ named name es := mem_named.mpr ⟨e, he, hname, rfl⟩
  unfold readNamed at h
  split at h
  · next hnil =>
    rw [hnil] at hmem
    cases hmem
  · next v hone =>
    rw [hone, List.mem_singleton] at hmem
    rw [hmem]
    exact ⟨hone, h⟩
  · cases h

theorem readNamed_of_mem {α : Type} {name : String} {read : Yaml → Option α} {absent : Option α}
    {es : Entries} {x : α} (h : readNamed name read absent es = some x) {e : Scalar × Yaml}
    (he : e ∈ es) (hname : e.1.text = name) : read e.2 = some x :=
  (named_of_readNamed h he hname).2

theorem readNamed_of_not_mem {α : Type} {name : String} {read : Yaml → Option α}
    {absent : Option α} {es : Entries} (h : ∀ e ∈ es, e.1.text ≠ name) :
    readNamed name read absent es = absent := by
  have hnil : named name es = [] := by
    refine List.eq_nil_iff_forall_not_mem.mpr (fun v hv => ?_)
    obtain ⟨e, he, hname, -⟩ := mem_named.mp hv
    exact h e he hname
  rw [readNamed, hnil]

namespace Field

variable {α : Type}

def required (name : String) (f : Form α) : Field :=
  ⟨α, name, f, none, .always, fun _ h => by cases h⟩

def optional (name : String) (f : Form α) : Field :=
  ⟨Option α, name, option f, some none, .unlessDefault, fun _ h => by cases h; rfl⟩

/-- `serde(default)` and `skip_serializing_if` the value is the default. -/
def skipped (name : String) (f : Form α) (d : α) (h : f.isDefault d = true) : Field :=
  ⟨α, name, f, some d, .unlessDefault, fun _ hd => by cases hd; exact h⟩

variable (f : Field)

def read (es : Entries) : Option f.Value := readNamed f.name f.form.read f.absent es

def write (x : f.Value) : Entries :=
  match f.rule with
  | .always => [(.str f.name, f.form.write x)]
  | .unlessDefault => if f.form.isDefault x then [] else [(.str f.name, f.form.write x)]
  | .never => []

/-- The field is written with the value that it was read from. -/
def Keeps (v : Yaml) : Prop :=
  match f.rule with
  | .always => f.form.Kept v
  | .unlessDefault => f.form.Kept v ∧ ¬ f.form.Default v
  | .never => False

variable {f}

theorem Keeps.kept {v : Yaml} (h : f.Keeps v) : f.form.Kept v := by
  unfold Keeps at h
  split at h
  · exact h
  · exact h.1
  · cases h

theorem keyed_write (x : f.Value) : Keyed [f.name] (f.write x) := by
  unfold write
  split
  · exact keyed_str
  · split_ifs
    · exact keyed_nil
    · exact keyed_str
  · exact keyed_nil

theorem preservedIn_write {es : Entries} {x : f.Value} (hread : f.read es = some x)
    {e : Scalar × Yaml} (he : e ∈ es) (hd : e.2.Distinct) (hname : e.1.text = f.name) :
    PreservedIn e (f.write x) ↔ e.1.tag = .str ∧ f.Keeps e.2 := by
  have hread := readNamed_of_mem hread he hname
  have hkept := f.form.kept_iff e.2 x hd hread
  unfold write Keeps
  cases f.rule with
  | always => rw [preservedIn_str, hkept, and_iff_right hname]
  | unlessDefault =>
      dsimp only
      by_cases hx : f.form.isDefault x = true
      · rw [if_pos hx]
        refine iff_of_false (fun h => ?_) (fun h => ?_)
        · obtain ⟨k, w, hmem, -⟩ := h
          cases hmem
        · exact h.2.2 ((f.form.default_iff e.2 x hread h.2.1).mp hx)
      · rw [if_neg hx, preservedIn_str, hkept, and_iff_right hname]
        refine and_congr_right (fun _ => (and_iff_left_of_imp (fun hk hdef => hx ?_)).symm)
        exact (f.form.default_iff e.2 x hread hk).mpr hdef
  | never =>
      refine iff_of_false (fun h => ?_) (fun h => h.2)
      obtain ⟨k, w, hmem, -⟩ := h
      cases hmem

/-- A field has its default exactly if it is absent, or its entry stands for the default. -/
theorem isDefault_iff {es : Entries} {x : f.Value} (hread : f.read es = some x)
    (hkeeps : ∀ e ∈ es, e.1.text = f.name → f.form.Kept e.2) :
    f.form.isDefault x = true ↔ ∀ e ∈ es, e.1.text = f.name → f.form.Default e.2 := by
  by_cases hname : ∀ e ∈ es, e.1.text ≠ f.name
  · have habsent : f.absent = some x := (readNamed_of_not_mem hname).symm.trans hread
    exact iff_of_true (f.absent_isDefault x habsent) (fun e he h => absurd h (hname e he))
  · push Not at hname
    obtain ⟨e, he, hname⟩ := hname
    have hread' := readNamed_of_mem hread he hname
    rw [f.form.default_iff e.2 x hread' (hkeeps e he hname)]
    refine ⟨fun h e' he' hname' => ?_, fun h => h e he hname⟩
    -- there is only one entry of the name
    refine (f.form.default_iff e'.2 x (readNamed_of_mem hread he' hname')
      (hkeeps e' he' hname')).mp ?_
    exact (f.form.default_iff e.2 x hread' (hkeeps e he hname)).mpr h

end Field

/-! ## Lists of fields -/

@[reducible] def Values : List Field → Type
  | [] => Unit
  | f :: fs => f.Value × Values fs

def names (fs : List Field) : List String := fs.map Field.name

def readAll : (fs : List Field) → Entries → Option (Values fs)
  | [], _ => some ()
  | f :: fs, es => do
      let x ← f.read es
      let xs ← readAll fs es
      return (x, xs)

def writeAll : (fs : List Field) → Values fs → Entries
  | [], _ => []
  | f :: fs, x => f.write x.1 ++ writeAll fs x.2

def allDefault : (fs : List Field) → Values fs → Bool
  | [], _ => true
  | f :: fs, x => f.form.isDefault x.1 && allDefault fs x.2

/-- One of the fields has the name, and keeps the value. -/
def Keeps : List Field → String → Yaml → Prop
  | [], _, _ => False
  | f :: fs, n, v => if n = f.name then f.Keeps v else Keeps fs n v

/-- One of the fields has the name, and the value is its default. -/
def DefaultOf : List Field → String → Yaml → Prop
  | [], _, _ => False
  | f :: fs, n, v => if n = f.name then f.form.Default v else DefaultOf fs n v

section

variable {fs : List Field} {es : Entries} {e : Scalar × Yaml}

theorem readAll_cons {f : Field} {x : Values (f :: fs)} :
    readAll (f :: fs) es = some x ↔ f.read es = some x.1 ∧ readAll fs es = some x.2 := by
  obtain ⟨y, ys⟩ := x
  rw [readAll, Option.bind_eq_bind, Option.bind_eq_some_iff]
  constructor
  · rintro ⟨z, hz, h⟩
    obtain ⟨zs, hzs, h⟩ := Option.bind_eq_some_iff.mp h
    cases h
    exact ⟨hz, hzs⟩
  · rintro ⟨hy, hys⟩
    exact ⟨y, hy, Option.bind_eq_some_iff.mpr ⟨ys, hys, rfl⟩⟩

theorem keyed_writeAll (x : Values fs) : Keyed (names fs) (writeAll fs x) := by
  induction fs with
  | nil => exact keyed_nil
  | cons f fs ih =>
      rw [writeAll]
      refine ((f.keyed_write x.1).mono ?_).append ((ih x.2).mono ?_)
      · exact fun n hn => List.mem_singleton.mp hn ▸ List.mem_cons_self
      · exact fun n hn => List.mem_cons_of_mem _ hn

/-- An entry is preserved exactly if it belongs to a field that keeps it. -/
theorem preservedIn_writeAll (hnd : (names fs).Nodup) {x : Values fs}
    (hread : readAll fs es = some x) (he : e ∈ es) (hd : e.2.Distinct) :
    PreservedIn e (writeAll fs x) ↔ e.1.tag = .str ∧ Keeps fs e.1.text e.2 := by
  induction fs with
  | nil =>
      refine iff_of_false (fun h => ?_) (fun h => h.2)
      obtain ⟨k, w, hmem, -⟩ := h
      cases hmem
  | cons f fs ih =>
      obtain ⟨hx, hxs⟩ := readAll_cons.mp hread
      obtain ⟨hnot, hnd⟩ := List.nodup_cons.mp hnd
      rw [writeAll, preservedIn_append, Keeps]
      by_cases hname : e.1.text = f.name
      · have hrest := (keyed_writeAll x.2).not_preservedIn (hname ▸ hnot)
        rw [if_pos hname, or_iff_left hrest]
        exact Field.preservedIn_write hx he hd hname
      · have hfirst := (f.keyed_write x.1).not_preservedIn
          (fun h => hname (List.mem_singleton.mp h))
        rw [if_neg hname, or_iff_right hfirst]
        exact ih hnd hxs

theorem mem_names_of_keeps {n : String} {v : Yaml} (h : Keeps fs n v) : n ∈ names fs := by
  induction fs with
  | nil => cases h
  | cons f fs ih =>
      rw [Keeps] at h
      split_ifs at h with hname
      · exact hname ▸ List.mem_cons_self
      · exact List.mem_cons_of_mem _ (ih h)

/-- All fields have their defaults exactly if all entries stand for defaults. -/
theorem allDefault_iff (hnd : (names fs).Nodup) {x : Values fs}
    (hread : readAll fs es = some x)
    (hkeeps : ∀ e ∈ es, e.1.text ∈ names fs → Keeps fs e.1.text e.2) :
    allDefault fs x = true ↔ ∀ e ∈ es, e.1.text ∈ names fs → DefaultOf fs e.1.text e.2 := by
  induction fs with
  | nil => exact iff_of_true rfl (fun e _ h => by cases h)
  | cons f fs ih =>
      obtain ⟨hx, hxs⟩ := readAll_cons.mp hread
      obtain ⟨hnot, hnd⟩ := List.nodup_cons.mp hnd
      have hfirst : ∀ e ∈ es, e.1.text = f.name → f.form.Kept e.2 := by
        intro e he hname
        have h := hkeeps e he (hname ▸ List.mem_cons_self)
        rw [Keeps, if_pos hname] at h
        exact h.kept
      have hne : ∀ n ∈ names fs, n ≠ f.name := fun n hn h => hnot (h ▸ hn)
      have hrest : ∀ e ∈ es, e.1.text ∈ names fs → Keeps fs e.1.text e.2 := by
        intro e he hmem
        have h := hkeeps e he (List.mem_cons_of_mem _ hmem)
        rwa [Keeps, if_neg (hne _ hmem)] at h
      rw [allDefault, Bool.and_eq_true, Field.isDefault_iff hx hfirst, ih hnd hxs hrest]
      constructor
      · rintro ⟨h1, h2⟩ e he hmem
        rw [DefaultOf]
        split_ifs with hname
        · exact h1 e he hname
        · exact h2 e he ((List.mem_cons.mp hmem).resolve_left hname)
      · intro h
        refine ⟨fun e he hname => ?_, fun e he hmem => ?_⟩
        · have h := h e he (hname ▸ List.mem_cons_self)
          rwa [DefaultOf, if_pos hname] at h
        · have h := h e he (List.mem_cons_of_mem _ hmem)
          rwa [DefaultOf, if_neg (hne _ hmem)] at h

/-- Every entry is that of a field which keeps it. -/
def KeepsAll (fs : List Field) (es : Entries) : Prop :=
  ∀ e ∈ es, e.1.tag = .str ∧ Keeps fs e.1.text e.2

theorem preserved_writeAll (hnd : (names fs).Nodup) {x : Values fs}
    (hread : readAll fs es = some x) (hd : ∀ e ∈ es, e.2.Distinct) :
    Preserved (.map es) (.map (writeAll fs x)) ↔ KeepsAll fs es := by
  rw [preserved_map]
  exact forall₂_congr (fun e he => preservedIn_writeAll hnd hread he (hd e he))

theorem KeepsAll.allDefault_iff (hnd : (names fs).Nodup) {x : Values fs}
    (hread : readAll fs es = some x) (h : KeepsAll fs es) :
    allDefault fs x = true ↔ ∀ e ∈ es, DefaultOf fs e.1.text e.2 := by
  rw [Form.allDefault_iff hnd hread (fun e he _ => (h e he).2)]
  exact forall₂_congr (fun e he => by simp [mem_names_of_keeps (h e he).2])

end

/-! ## Records -/

/-- The entries that no field has the name of. -/
def extras (ns : List String) (es : Entries) : BTreeMap String Yaml :=
  BTreeMap.ofList ((es.filter (fun e => e.1.text ∉ ns)).map (fun e => (e.1.text, e.2)))

theorem extras_of_known {ns : List String} {es : Entries} (h : ∀ e ∈ es, e.1.text ∈ ns) :
    extras ns es = ∅ := by
  have hnil : es.filter (fun e => e.1.text ∉ ns) = [] :=
    List.filter_eq_nil_iff.mpr (fun e he => by simp [h e he])
  rw [extras, hnil]
  rfl

/-- A record that captures the entries it does not know, and does not write them. -/
def openRecord (fs : List Field) (hnd : (names fs).Nodup) :
    Form (Values fs × BTreeMap String Yaml) where
  read
    | .map es => (readAll fs es).map (fun x => (x, extras (names fs) es))
    | _ => none
  write x := .map (writeAll fs x.1)
  isDefault x := allDefault fs x.1 && x.2.entries.isEmpty
  Kept
    | .map es => KeepsAll fs es
    | _ => False
  Default
    | .map es => ∀ e ∈ es, DefaultOf fs e.1.text e.2
    | _ => False
  kept_iff v x hd hread := by
    cases v with
    | scalar s => cases hread
    | seq vs => cases hread
    | map es =>
        obtain ⟨y, hy, rfl⟩ := Option.map_eq_some_iff.mp hread
        exact preserved_writeAll hnd hy hd.map.2
  default_iff v x hread hkept := by
    cases v with
    | scalar s => cases hread
    | seq vs => cases hread
    | map es =>
        obtain ⟨y, hy, rfl⟩ := Option.map_eq_some_iff.mp hread
        have hextras : extras (names fs) es = ∅ :=
          extras_of_known (fun e he => mem_names_of_keeps (hkept e he).2)
        show (allDefault fs y && (extras (names fs) es).entries.isEmpty) = true ↔
          ∀ e ∈ es, DefaultOf fs e.1.text e.2
        rw [hextras, ← KeepsAll.allDefault_iff hnd hy hkept, Bool.and_eq_true]
        exact and_iff_left rfl

/-- A record that is read from a sequence of its values as well. -/
def readSeq : (fs : List Field) → List Yaml → Option (Values fs)
  | [], [] => some ()
  | f :: fs, v :: vs => do
      let x ← f.form.read v
      let xs ← readSeq fs vs
      return (x, xs)
  | _, _ => none

/-- A record that ignores the entries it does not know. -/
def record (plain : Bool) (fs : List Field) (hnd : (names fs).Nodup) : Form (Values fs) where
  read
    | .map es => if plain ∨ ∀ e ∈ es, e.1.tag = .str then readAll fs es else none
    | .seq vs => readSeq fs vs
    | _ => none
  write x := .map (writeAll fs x)
  isDefault x := allDefault fs x
  Kept
    | .map es => KeepsAll fs es
    | _ => False
  Default
    | .map es => ∀ e ∈ es, DefaultOf fs e.1.text e.2
    | _ => False
  kept_iff v x hd hread := by
    cases v with
    | scalar s => cases hread
    | seq vs => exact iff_of_false not_preserved_seq_map (fun h => h)
    | map es =>
        dsimp only at hread
        split at hread
        · exact preserved_writeAll hnd hread hd.map.2
        · cases hread
  default_iff v x hread hkept := by
    cases v with
    | scalar s => cases hread
    | seq vs => cases hkept
    | map es =>
        dsimp only at hread
        split at hread
        · exact KeepsAll.allDefault_iff hnd hread hkept
        · cases hread

/-- A record, or a string that stands for one. -/
def stringOr {fs : List Field} (hnd : (names fs).Nodup)
    (ofString : String → Values fs × BTreeMap String Yaml) :
    Form (Values fs × BTreeMap String Yaml) where
  read
    | .scalar s => if s.tag = .str then some (ofString s.text) else none
    | v => (openRecord fs hnd).read v
  write := (openRecord fs hnd).write
  isDefault := (openRecord fs hnd).isDefault
  Kept := (openRecord fs hnd).Kept
  Default := (openRecord fs hnd).Default
  kept_iff v x hd hread := by
    cases v with
    | scalar s => exact iff_of_false not_preserved_scalar_map (fun h => h)
    | seq vs => cases hread
    | map es => exact (openRecord fs hnd).kept_iff (.map es) x hd hread
  default_iff v x hread hkept := by
    cases v with
    | scalar s => cases hkept
    | seq vs => cases hread
    | map es => exact (openRecord fs hnd).default_iff (.map es) x hread hkept

end Form

end Armour.Lib
