import Armour.Lib.BTree
import Mathlib.Data.List.Basic

/-! # Documents

Values with named fields, as text formats and document databases hold them, and the way that
derived instances write records to them and read them back.  `Exact` says what becomes of one
value: it is read back when a condition holds of it, and not otherwise.
-/

namespace Armour.Lib

inductive Document where
  | null
  | bool (b : Bool)
  | int (n : Int)
  | double (bits : UInt64)
  | text (s : String)
  | array (vs : List Document)
  | doc (fields : List (String × Document))

namespace Document

mutual
def beq : Document → Document → Bool
  | null, null => true
  | bool a, bool b => a = b
  | int m, int n => m = n
  | double a, double b => a = b
  | text s, text t => s = t
  | array vs, array ws => beqArray vs ws
  | doc fs, doc gs => beqFields fs gs
  | _, _ => false

def beqArray : List Document → List Document → Bool
  | [], [] => true
  | v :: vs, w :: ws => beq v w && beqArray vs ws
  | _, _ => false

def beqFields : List (String × Document) → List (String × Document) → Bool
  | [], [] => true
  | (x, v) :: fs, (y, w) :: gs => x = y && beq v w && beqFields fs gs
  | _, _ => false
end

mutual
theorem beq_iff : ∀ v w, beq v w = true ↔ v = w
  | null, w => by cases w <;> simp [beq]
  | bool a, w => by cases w <;> simp [beq]
  | int n, w => by cases w <;> simp [beq]
  | double b, w => by cases w <;> simp [beq]
  | text s, w => by cases w <;> simp [beq]
  | array vs, w => by cases w <;> simp [beq, beqArray_iff vs]
  | doc fs, w => by cases w <;> simp [beq, beqFields_iff fs]

theorem beqArray_iff : ∀ vs ws, beqArray vs ws = true ↔ vs = ws
  | [], ws => by cases ws <;> simp [beqArray]
  | v :: vs, ws => by cases ws <;> simp [beqArray, beq_iff v, beqArray_iff vs]

theorem beqFields_iff : ∀ fs gs, beqFields fs gs = true ↔ fs = gs
  | [], gs => by cases gs <;> simp [beqFields]
  | (x, v) :: fs, gs => by
      cases gs <;> simp [beqFields, beq_iff v, beqFields_iff fs, Prod.ext_iff]
end

instance : DecidableEq Document := fun v w => decidable_of_iff _ (beq_iff v w)

end Document

/-- The fields of a record, in their order. -/
abbrev Fields := List (String × Document)

variable {α β : Type}

/-- A type written to documents: the values that are read back are the `Clean` ones. -/
structure Serde (α : Type) where
  ser : α → Document
  de : Document → Option α
  Clean : α → Prop
  exact : ∀ a, de (ser a) = some a ↔ Clean a

/-! ## Records -/

namespace Document

/-- The fields of a record: those of a document, or as many elements as there are names. -/
def fields (names : List String) : Document → Option Fields
  | doc fs => some fs
  | array vs => if vs.length = names.length then some (names.zip vs) else none
  | _ => none

/-- The values of the fields of one name. -/
def named (name : String) (fs : Fields) : List Document :=
  (fs.filter (fun f => f.1 = name)).map Prod.snd

@[simp] theorem named_nil (name : String) : named name [] = [] := rfl

@[simp] theorem named_cons (name : String) (f : String × Document) (fs : Fields) :
    named name (f :: fs) = if f.1 = name then f.2 :: named name fs else named name fs := by
  by_cases h : f.1 = name <;> simp [named, h]

/-- A field that has to be there, once. -/
def required (de : Document → Option α) (name : String) (fs : Fields) : Option α :=
  match named name fs with
  | [v] => de v
  | _ => none

def option (de : Document → Option α) : Document → Option (Option α)
  | null => some none
  | v => (de v).map some

theorem option_of_ne_null (de : Document → Option α) {v : Document} (h : v ≠ null) :
    option de v = (de v).map some := by
  cases v with
  | null => exact absurd rfl h
  | _ => rfl

/-- A field of an option: it may be left out. -/
def optional (de : Document → Option α) (name : String) (fs : Fields) :
    Option (Option α) :=
  match named name fs with
  | [] => some none
  | [v] => option de v
  | _ => none

end Document

namespace Serde

/-- All values are read back. -/
def Total (s : Serde α) : Prop := ∀ a, s.Clean a

def text : Serde String where
  ser := .text
  de
    | .text s => some s
    | _ => none
  Clean _ := True
  exact _ := by simp

/-- A number that fits into a byte. -/
def u8 : Serde UInt8 where
  ser b := .int b.toNat
  de
    | .int n => if 0 ≤ n ∧ n < 256 then some (.ofNat n.toNat) else none
    | _ => none
  Clean _ := True
  exact b := by
    have hlt := b.toNat_lt
    have hrange : (0 : Int) ≤ b.toNat ∧ (b.toNat : Int) < 256 := by omega
    simp only [if_pos hrange, Int.toNat_natCast, UInt8.ofNat_toNat]

/-- A type that is written as another one, not every value of which need be read. -/
def refine (s : Serde α) (hs : s.Total) (f : α → Option β) (g : β → α) : Serde β where
  ser b := s.ser (g b)
  de v := (s.de v).bind f
  Clean b := f (g b) = some b
  exact b := by
    rw [(s.exact (g b)).mpr (hs (g b)), Option.bind_some]

def list (s : Serde α) : Serde (List α) where
  ser as := .array (as.map s.ser)
  de
    | .array vs => vs.mapM s.de
    | _ => none
  Clean as := ∀ a ∈ as, s.Clean a
  exact as := by
    show (as.map s.ser).mapM s.de = some as ↔ _
    induction as with
    | nil => simp
    | cons a as ih =>
        rw [List.map_cons, List.mapM_cons, List.forall_mem_cons, ← s.exact a, ← ih]
        cases s.de (s.ser a) with
        | none => simp
        | some b =>
            cases (as.map s.ser).mapM s.de with
            | none => simp
            | some bs => simp

/-- What is read can be written and read again. -/
def Closed (s : Serde α) : Prop := ∀ v a, s.de v = some a → s.Clean a

theorem list_closed {s : Serde α} (hs : s.Closed) {vs : List Document} {l : List α}
    (h : vs.mapM s.de = some l) : ∀ a ∈ l, s.Clean a := by
  induction vs generalizing l with
  | nil =>
      obtain rfl : [] = l := by simpa using h
      simp
  | cons v vs ih =>
      rw [List.mapM_cons] at h
      obtain ⟨a, ha, h⟩ := Option.bind_eq_some_iff.mp h
      obtain ⟨as, has, h⟩ := Option.bind_eq_some_iff.mp h
      obtain rfl : a :: as = l := by simpa using h
      exact List.forall_mem_cons.mpr ⟨hs v a ha, ih has⟩

/-- A set is written in its order; what is read is inserted one by one. -/
def set [LinearOrder α] (s : Serde α) (hs : s.Closed) : Serde (BTreeSet α) where
  ser as := s.list.ser as.elems
  de v := (s.list.de v).map BTreeSet.ofList
  Clean as := ∀ a ∈ as.elems, s.Clean a
  exact as := by
    constructor
    · intro h
      obtain ⟨l, hl, hset⟩ := Option.map_eq_some_iff.mp h
      intro a ha
      rw [← hset] at ha
      have hclean : ∀ b ∈ l, s.Clean b := list_closed hs hl
      exact hclean a (BTreeSet.mem_of_mem_ofList ha)
    · intro h
      rw [(s.list.exact as.elems).mpr h, Option.map_some, BTreeSet.ofList_elems]

theorem set_closed [LinearOrder α] {s : Serde α} (hs : s.Closed) : (s.set hs).Closed := by
  intro v as h a ha
  obtain ⟨l, hl, rfl⟩ := Option.map_eq_some_iff.mp h
  cases v with
  | array vs => exact list_closed hs hl a (BTreeSet.mem_of_mem_ofList ha)
  | _ => cases hl

def deEntry (s : Serde α) (f : String × Document) : Option (String × α) :=
  (s.de f.2).map (fun a => (f.1, a))

theorem mapM_deEntry_ser (s : Serde α) {es : List (String × α)} (h : ∀ e ∈ es, s.Clean e.2) :
    (es.map (fun e => (e.1, s.ser e.2))).mapM s.deEntry = some es := by
  induction es with
  | nil => rfl
  | cons e es ih =>
      obtain ⟨he, hes⟩ := List.forall_mem_cons.mp h
      rw [List.map_cons, List.mapM_cons, ih hes, deEntry, (s.exact e.2).mpr he]
      rfl

theorem mapM_deEntry_closed {s : Serde α} (hs : s.Closed) {fs : Fields}
    {es : List (String × α)} (h : fs.mapM s.deEntry = some es) : ∀ e ∈ es, s.Clean e.2 := by
  induction fs generalizing es with
  | nil =>
      obtain rfl : [] = es := by simpa using h
      simp
  | cons f fs ih =>
      rw [List.mapM_cons] at h
      obtain ⟨e, he, h⟩ := Option.bind_eq_some_iff.mp h
      obtain ⟨es', hes, h⟩ := Option.bind_eq_some_iff.mp h
      obtain rfl : e :: es' = es := by simpa using h
      obtain ⟨a, ha, rfl⟩ := Option.map_eq_some_iff.mp he
      exact List.forall_mem_cons.mpr ⟨hs f.2 a ha, ih hes⟩

/-- A map from texts: its keys are the names of fields. -/
def map (s : Serde α) (hs : s.Closed) : Serde (BTreeMap String α) where
  ser m := .doc (m.entries.map (fun e => (e.1, s.ser e.2)))
  de
    | .doc fs => (fs.mapM s.deEntry).map BTreeMap.ofList
    | _ => none
  Clean m := ∀ e ∈ m.entries, s.Clean e.2
  exact m := by
    show ((m.entries.map (fun e => (e.1, s.ser e.2))).mapM s.deEntry).map BTreeMap.ofList =
      some m ↔ _
    constructor
    · intro h
      obtain ⟨es, hes, hm⟩ := Option.map_eq_some_iff.mp h
      intro e he
      rw [← hm] at he
      exact mapM_deEntry_closed hs hes e (BTreeMap.mem_of_mem_ofList he)
    · intro h
      rw [mapM_deEntry_ser s h, Option.map_some, BTreeMap.ofList_entries]

/-- How an option is written in a field. -/
def serOption (s : Serde α) : Option α → Document
  | none => .null
  | some a => s.ser a

theorem optional_serOption {s : Serde α} {name : String} {fs : Fields}
    {o : Option α} (hnull : ∀ a, s.ser a ≠ .null)
    (hfs : Document.named name fs = [s.serOption o]) :
    Document.optional s.de name fs = some o ↔ ∀ a ∈ o, s.Clean a := by
  unfold Document.optional
  rw [hfs]
  show Document.option s.de (s.serOption o) = some o ↔ _
  cases o with
  | none => simp [serOption, Document.option]
  | some a =>
      rw [serOption, Document.option_of_ne_null _ (hnull a)]
      simp [s.exact a]

theorem required_ser {s : Serde α} {name : String} {fs : Fields} {a : α}
    (hfs : Document.named name fs = [s.ser a]) :
    Document.required s.de name fs = some a ↔ s.Clean a := by
  unfold Document.required
  rw [hfs]
  exact s.exact a

end Serde

/-- Fields of records: how they are put into a document and found in one, whatever other
fields it has. -/
structure Record (α : Type) where
  names : List String
  put : α → Fields
  get : Fields → Option α
  Clean : α → Prop
  names_put : ∀ a, (put a).map Prod.fst = names
  exact : ∀ a fs, (∀ n ∈ names, Document.named n fs = Document.named n (put a)) →
    (get fs = some a ↔ Clean a)

namespace Record

def field (name : String) (s : Serde α) : Record α where
  names := [name]
  put a := [(name, s.ser a)]
  get := Document.required s.de name
  Clean := s.Clean
  names_put _ := rfl
  exact a fs h := by
    have hname := h name List.mem_cons_self
    exact Serde.required_ser (hname.trans (by simp))

/-- A field of an option. -/
def optional (name : String) (s : Serde α) (hnull : ∀ a, s.ser a ≠ .null) :
    Record (Option α) where
  names := [name]
  put o := [(name, s.serOption o)]
  get := Document.optional s.de name
  Clean o := ∀ a ∈ o, s.Clean a
  names_put _ := rfl
  exact o fs h := by
    have hname := h name List.mem_cons_self
    exact Serde.optional_serOption hnull (hname.trans (by simp))

theorem named_eq_nil {n : String} (fs : Fields) (h : n ∉ fs.map Prod.fst) :
    Document.named n fs = [] := by
  induction fs with
  | nil => rfl
  | cons f fs ih =>
      rw [List.map_cons, List.mem_cons, not_or] at h
      rw [Document.named_cons, if_neg (Ne.symm h.1), ih h.2]

theorem named_append (n : String) (fs gs : Fields) :
    Document.named n (fs ++ gs) = Document.named n fs ++ Document.named n gs := by
  simp [Document.named]

def pair (r : Record α) (t : Record β) (h : ∀ n ∈ r.names, n ∉ t.names) : Record (α × β) where
  names := r.names ++ t.names
  put p := r.put p.1 ++ t.put p.2
  get fs := (r.get fs).bind (fun a => (t.get fs).map (fun b => (a, b)))
  Clean p := r.Clean p.1 ∧ t.Clean p.2
  names_put p := by rw [List.map_append, r.names_put, t.names_put]
  exact p fs hfs := by
    have hr := r.exact p.1 fs (fun n hn => by
      rw [hfs n (List.mem_append_left _ hn), named_append,
        named_eq_nil (t.put p.2) (by rw [t.names_put]; exact h n hn), List.append_nil])
    have ht := t.exact p.2 fs (fun n hn => by
      rw [hfs n (List.mem_append_right _ hn), named_append,
        named_eq_nil (r.put p.1) (by rw [r.names_put]; exact fun hr => h n hr hn),
        List.nil_append])
    rw [← hr, ← ht]
    constructor
    · intro hget
      obtain ⟨a, ha, hget⟩ := Option.bind_eq_some_iff.mp hget
      obtain ⟨b, hb, rfl⟩ := Option.map_eq_some_iff.mp hget
      exact ⟨ha, hb⟩
    · rintro ⟨ha, hb⟩
      rw [ha, hb]
      rfl

/-- A type with the same values under another name. -/
def iso (r : Record α) (f : α → β) (g : β → α) (h : ∀ b, f (g b) = b) (h' : ∀ a, g (f a) = a) :
    Record β where
  names := r.names
  put b := r.put (g b)
  get fs := (r.get fs).map f
  Clean b := r.Clean (g b)
  names_put b := r.names_put (g b)
  exact b fs hfs := by
    rw [← r.exact (g b) fs hfs, Option.map_eq_some_iff]
    constructor
    · rintro ⟨a, ha, rfl⟩
      rwa [h']
    · intro hg
      exact ⟨g b, hg, h b⟩

def serde (r : Record α) : Serde α where
  ser a := .doc (r.put a)
  de v := (v.fields r.names).bind r.get
  Clean := r.Clean
  exact a := r.exact a (r.put a) (fun _ _ => rfl)

/-- A document is read as this value, which has the fields as they were written; a field of an
option may have been left out. -/
structure ReadsAs (r : Record α) (d : Fields) (a : α) : Prop where
  get : r.get d = some a
  written : ∀ n ∈ r.names, Document.named n d = Document.named n (r.put a) ∨
    (Document.named n d = [] ∧ Document.named n (r.put a) = [.null])

def Reads (r : Record α) (d : Fields) : Prop := ∃ a, r.ReadsAs d a

theorem readsAs_put {r : Record α} {a : α} (h : r.Clean a) : r.ReadsAs (r.put a) a :=
  ⟨(r.exact a (r.put a) (fun _ _ => rfl)).mpr h, fun _ _ => Or.inl rfl⟩

/-- A record that has the fields of another one is read as that. -/
theorem readsAs_of_named {r : Record α} {a : α} {d : Fields} (h : r.Clean a)
    (hd : ∀ n ∈ r.names, Document.named n d = Document.named n (r.put a)) : r.ReadsAs d a :=
  ⟨(r.exact a d hd).mpr h, fun n hn => Or.inl (hd n hn)⟩

theorem serde_ne_null (r : Record α) (a : α) : r.serde.ser a ≠ .null := nofun

end Record

end Armour.Lib
