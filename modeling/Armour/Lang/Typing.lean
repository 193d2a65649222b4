import Armour.Lang.ControlPlane

/-! # Literals of a type

Which literals a declared type stands for.  The wildcard `!` stands for every literal and
`Option<?>` for the options of every type.
-/

namespace Armour.Lang

open Armour.Lib

/-- `CPFlatLiteral::typ`, the method of the type itself; that of the trait differs on
on-boarding results. -/
def CPFlatLiteral.flatTyp : CPFlatLiteral → CPFlatTyp
  | credentials _ => .credentials
  | dp l => .dp l.typ
  | onboardingData _ => .onboardingData
  | onboardingResult _ => .onboardingResult
  | policy _ => .policy
  | primitive _ => .primitive

namespace Typ

variable {FT FL : Type} [TFlatTyp FT]

mutual
/-- `typ` is the type of a flat literal. -/
def Has (typ : FL → FT) : Typ FT → Literal FL → Prop
  | flatTyp t, l => t = TFlatTyp.dp .rreturn ∨ ∃ f, l = .flat f ∧ typ f = t
  | list t, l => ∃ ls, l = .list ls ∧ ∀ x ∈ ls, Has typ t x
  | tuple [], l => l = .none ∨ ∃ x, l = .some x
  | tuple [t], l => l = .none ∨ ∃ x, l = .some x ∧ Has typ t x
  | tuple (t :: t' :: ts), l =>
      ∃ x x' ls, l = .tuple (x :: x' :: ls) ∧ Has typ t x ∧ Has typ t' x' ∧ HasAll typ ts ls

def HasAll (typ : FL → FT) : List (Typ FT) → List (Literal FL) → Prop
  | [], [] => True
  | t :: ts, l :: ls => Has typ t l ∧ HasAll typ ts ls
  | _, _ => False
end

variable {typ : FL → FT}

attribute [local simp] Has HasAll

theorem hasAll_nil {ls : List (Literal FL)} : HasAll typ [] ls ↔ ls = [] := by
  cases ls <;> simp [HasAll]

theorem hasAll_cons {t : Typ FT} {ts : List (Typ FT)} {ls : List (Literal FL)} :
    HasAll typ (t :: ts) ls ↔ ∃ x xs, ls = x :: xs ∧ Has typ t x ∧ HasAll typ ts xs := by
  cases ls <;> simp [HasAll]

theorem has_list_map {α : Type} {t : Typ FT} {f : α → Literal FL} (h : ∀ a, Has typ t (f a))
    (as : List α) : Has typ (list t) (.list (as.map f)) := by
  rw [Has]
  refine ⟨_, rfl, fun x hx => ?_⟩
  obtain ⟨a, _, rfl⟩ := List.mem_map.1 hx
  exact h a

theorem has_ofOption {α : Type} {t : Typ FT} {f : α → Literal FL} (h : ∀ a, Has typ t (f a))
    (o : Option α) : Has typ (option t) (.ofOption (o.map f)) := by
  rw [option, Has]
  cases o with
  | none => exact Or.inl rfl
  | some a => exact Or.inr ⟨_, rfl, h a⟩

theorem has_pair {t t' : Typ FT} {l l' : Literal FL} (h : Has typ t l) (h' : Has typ t' l') :
    Has typ (tuple [t, t']) (.tuple [l, l']) := by
  rw [Has]
  exact ⟨l, l', [], rfl, h, h', by rw [HasAll]; trivial⟩

theorem has_rreturn (l : Literal FL) : Has typ rreturn l := by
  rw [rreturn, Has]
  exact Or.inl rfl

/-- A flat literal has the type of its own. -/
theorem has_flat (f : FL) : Has typ (flatTyp (typ f)) (.flat f) := by
  rw [Has]
  exact Or.inr ⟨f, rfl, rfl⟩

end Typ

end Armour.Lang
