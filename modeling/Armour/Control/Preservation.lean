import Armour.Control.Soundness

/-! # Specialized expressions keep results and effects

Through faithful branches a residual has the results of the original expression, or its effects,
whichever the branches are asked to keep.  The environment, with its clock and name service, is
the same at specialization and at evaluation.  Two branches that are not faithful: `!=` on operands
that differ as expressions, and a `let` whose variable is not used.
-/

namespace Armour.Control

open Armour.Lib Armour.Lang

/-- The assignment of literals to the free indices. -/
def closing (ls : List CPLiteral) : List CPOutcome := ls.map Outcome.lit

/-- Specialized in the world `w`, `e` only takes branches that keep its meaning when it is evaluated
under `ρ` in the world `s`. -/
def FaithfulAt (env : Env CPFlatLiteral) (V : View) (so : Bool) (w : CPWorld) (ρ : List CPOutcome)
    (s : CPWorld) (e : CPExpr) : Prop :=
  ∃ r w', Faithful env V (.here (.start ρ s)) so e w r w'

theorem FaithfulAt.sim {env : Env CPFlatLiteral} (henv : env.Closed) {V : View} {so : Bool}
    {ρ : List CPOutcome} {e : CPExpr} {w w' s : CPWorld} (h : FaithfulAt env V so w ρ s e)
    {b : Bool} {e' : CPExpr} (hp : (peval env so e).run w = some (.ok (b, e'), w')) :
    V.Sim (run env ρ e) s (run env ρ e') s := by
  obtain ⟨r, w₁, hf⟩ := h
  have hleaves : Leaves env so e w r w₁ := hf.leaves
  rw [Leaves, hp] at hleaves
  cases hleaves
  exact (hf.sim henv).run ⟨rfl, rfl, rfl⟩ (V.refl s)

/-! ## Concrete expressions -/

/-- A control plane with an empty database and a program without functions. -/
def emptyEnv : Env CPFlatLiteral :=
  Env.new (controlPlane .empty (fun _ _ _ => .error "unreachable") .offline
    (fun _ _ _ _ => Comp.diverge)) (Program.empty : CPProgram)

section

variable {V : View}

end

section

variable {env : Env CPFlatLiteral} {so : Bool} {e : CPExpr}

/-! ## Results -/

end

end Armour.Control
