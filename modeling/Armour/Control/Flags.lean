import Armour.Control.Preservation
import Armour.Control.Residuals

/-! # Static flags

A residual with the flag is taken for a literal or a return of a literal.  Nearly every branch of
`peval` flags nothing else when it gets nothing else; the three that may are a closure that is
dropped, an iterator over a return, and a return in a return.
-/

namespace Armour.Control

open Armour.Lib Armour.Lang

/-- A literal, or a return of one. -/
def IsFlat (e : CPExpr) : Prop := ∃ l, e = .litExpr l ∨ e = .returnExpr (.litExpr l)

theorem IsFlat.lit (l : CPLiteral) : IsFlat (.litExpr l) := ⟨l, Or.inl rfl⟩

theorem IsFlat.strip {e : CPExpr} (h : IsFlat e) : IsFlat e.stripReturn := by
  obtain ⟨l, rfl | rfl⟩ := h
  · exact .lit l
  · exact .lit l

theorem IsFlat.literal {e : CPExpr} (h : IsFlat e) (hr : e.isReturn = false) :
    ∃ l, e = .litExpr l := by
  obtain ⟨l, rfl | rfl⟩ := h
  · exact ⟨l, rfl⟩
  · cases hr

/-- What the flag says. -/
def Residual.Truthful (r : Residual) : Prop := r.1 = true → IsFlat r.2

theorem Residual.Truthful.lit (b : Bool) (l : CPLiteral) : Residual.Truthful (b, .litExpr l) :=
  fun _ => .lit l

theorem Residual.Truthful.dynamic (e : CPExpr) : Residual.Truthful (false, e) := nofun

section

variable {env : Env CPFlatLiteral} {f : Bool × CPExpr → CPEvalM Residual}

end

end Armour.Control
