import Armour.Lib.Document

/-! # Collections

A collection of a document database is the list of its documents.  A filter asks that the
value at a path is a given one, or an array that contains it.
-/

namespace Armour.Lib

/-- The value at a path of field names. -/
def Document.at? : List String → Document → Option Document
  | [], v => some v
  | name :: path, .doc fs => ((named name fs).head?).bind (at? path)
  | _ :: _, _ => none

/-- What is stored under a field that is compared with `v`. -/
def Document.admits (v : Document) : Document → Bool
  | .array vs => .array vs = v || vs.any (· = v)
  | w => w = v

structure Comparison where
  path : List String
  value : Document

abbrev Filter := List Comparison

namespace Filter

def accepts (f : Filter) (d : Fields) : Bool :=
  f.all (fun c => (Document.at? c.path (.doc d)).any c.value.admits)

/-- The filter on one field. -/
def field (name : String) (v : Document) : Filter := [⟨[name], v⟩]

/-- A document as a filter: every one of its fields. -/
def ofFields (fs : Fields) : Filter := fs.map (fun f => ⟨[f.1], f.2⟩)

theorem accepts_field {name : String} {v : Document} {d : Fields} :
    (field name v).accepts d = ((Document.named name d).head?).any v.admits := by
  simp only [accepts, field, List.all_cons, List.all_nil, Bool.and_true, Document.at?]
  cases (Document.named name d).head? <;> rfl

end Filter

abbrev Collection := List Fields

namespace Collection

variable (c : Collection) (f g : Filter) (d : Fields)

def find : List Fields := c.filter f.accepts
def findOne : Option Fields := c.find? f.accepts
def insertOne : Collection := c ++ [d]
def deleteOne : Collection := c.eraseP f.accepts
def deleteMany : Collection := c.filter (fun d => !f.accepts d)

/-- How many documents a filter accepts. -/
def count : Nat := c.countP f.accepts

variable {c f g d}

theorem count_eq_zero : c.count f = 0 ↔ ∀ d ∈ c, f.accepts d = false := by
  simp [count, List.countP_eq_zero]

theorem find_eq_nil : c.find f = [] ↔ c.count f = 0 := by
  simp [find, count, List.countP_eq_zero, List.filter_eq_nil_iff]

theorem length_find : (c.find f).length = c.count f := List.countP_eq_length_filter.symm

theorem findOne_eq_head? : c.findOne f = (c.find f).head? := List.head?_filter.symm

theorem find_insertOne :
    (c.insertOne d).find f = c.find f ++ if f.accepts d then [d] else [] := by
  by_cases h : f.accepts d = true <;> simp [find, insertOne, h]

theorem find_deleteMany_self : (c.deleteMany f).find f = [] := by
  simp [find, deleteMany, List.filter_filter]

theorem find_deleteOne_self : (c.deleteOne f).find f = (c.find f).tail := by
  unfold find deleteOne
  induction c with
  | nil => rfl
  | cons d c ih =>
      by_cases h : f.accepts d = true
      · simp [List.eraseP_cons_of_pos h, h]
      · simp [List.eraseP_cons_of_neg h, h, ih]

theorem find_deleteOne_of_disjoint (h : ∀ d ∈ c, f.accepts d = true → g.accepts d = false) :
    (c.deleteOne g).find f = c.find f := by
  unfold find deleteOne
  induction c with
  | nil => rfl
  | cons d c ih =>
      have hrest := ih (fun x hx => h x (List.mem_cons_of_mem _ hx))
      by_cases hg : g.accepts d = true
      · have hf : ¬ f.accepts d = true := by
          intro hf
          rw [h d List.mem_cons_self hf] at hg
          cases hg
        simp [List.eraseP_cons_of_pos hg, hf]
      · by_cases hf : f.accepts d = true <;>
          simp [List.eraseP_cons_of_neg hg, hf, hrest]

theorem count_insertOne :
    (c.insertOne d).count f = c.count f + if f.accepts d then 1 else 0 := by
  simp [count, insertOne, List.countP_cons]

theorem count_deleteOne_self : (c.deleteOne f).count f = c.count f - 1 := by
  unfold count deleteOne
  induction c with
  | nil => rfl
  | cons d c ih =>
      by_cases h : f.accepts d = true
      · simp [List.eraseP_cons_of_pos h, List.countP_cons_of_pos h]
      · rw [List.eraseP_cons_of_neg h, List.countP_cons_of_neg h, List.countP_cons_of_neg h, ih]

theorem mem_of_mem_deleteOne (h : d ∈ c.deleteOne f) : d ∈ c := List.mem_of_mem_eraseP h

theorem count_deleteOne_le : (c.deleteOne g).count f ≤ c.count f :=
  List.Sublist.countP_le (List.eraseP_sublist)

theorem mem_deleteMany : d ∈ c.deleteMany f ↔ d ∈ c ∧ f.accepts d = false := by
  simp [deleteMany]

theorem deleteMany_eq_self (h : c.count f = 0) : c.deleteMany f = c := by
  refine List.filter_eq_self.mpr (fun d hd => ?_)
  rw [count_eq_zero.mp h d hd]
  rfl

theorem deleteOne_eq_self (h : c.count f = 0) : c.deleteOne f = c := by
  refine List.eraseP_of_forall_not (fun d hd => ?_)
  rw [count_eq_zero.mp h d hd]
  exact Bool.false_ne_true

end Collection

end Armour.Lib
