import Armour.Control.Peval
import Armour.Lib.Until

/-! # What all residuals have in common

A property of residuals that literals have, that what is not static has, and that survives the
loss of the flag and of an outer return, is one of every residual if the three branches that raise
a flag keep it: a closure that is dropped, an iterator over a return, and a return.  With it, what
the specializer leaves of a block is taken apart again only when it is a block of statements.
-/

namespace Armour.Control

open Armour.Lib Armour.Lang

/-- No list or tuple, and no empty block, also after a return. -/
def BlockForm : CPExpr → Prop
  | .blockExpr b es => b = .block ∧ es ≠ []
  | .returnExpr e => BlockForm e
  | _ => True

theorem BlockForm.consBlock (x e : CPExpr) : BlockForm (Control.consBlock x e) := by
  cases e <;> exact ⟨rfl, List.cons_ne_nil _ _⟩

/-- A property of residuals that the parts of a step keep. -/
structure Residual.Stable (Q : Residual → Prop) : Prop where
  lit : ∀ b l, Q (b, .litExpr l)
  dynamic : ∀ e, BlockForm e → Q (false, e)
  flag : ∀ {b b' e}, Q (b, e) → (b' = true → b = true) → Q (b', e)
  strip : ∀ {b e}, Q (b, e) → Q (b, e.stripReturn)

theorem mem_of_allStatic {rs : List Residual} (h : allStatic rs = true) {r : Residual}
    (hr : r ∈ rs) : r.1 = true :=
  List.all_eq_true.mp h r hr

namespace Residual.Stable

variable {Q : Residual → Prop} (stable : Residual.Stable Q)

include stable

/-! ## Operators -/

theorem liftStatic (msg : String) (x : Checked (Option CPLiteral)) :
    Comp.Yields Q (Control.liftStatic msg x) :=
  Comp.Yields.bind_any (fun l => .pure (stable.lit true l))

theorem pevalPrefix (pf : Platform) (p : Prefix) {r : Residual} (h : Q r) :
    Comp.Yields Q (Control.pevalPrefix pf p r) := by
  unfold Control.pevalPrefix
  split
  · exact .pure h
  · exact stable.liftStatic _ _
  · exact .pure (stable.dynamic _ trivial)
  · exact .throw _

theorem kept {op : Infix} {b1 b2 : Bool} {x y : CPExpr} (hb : (b1 && b2) = false) :
    Q (b1 && b2, .infixExpr op x y) := by
  rw [hb]
  exact stable.dynamic _ trivial

theorem ring (r : Ring) {op : Infix} {b1 b2 : Bool} {x y : CPExpr} (hb : (b1 && b2) = false)
    (h1 : Q (b1, x)) (h2 : Q (b2, y)) : Q (r.simplify op b1 x b2 y).2 := by
  unfold Ring.simplify
  split_ifs <;> first | exact h1 | exact h2 | exact stable.kept hb

theorem rings {op : Infix} {b1 b2 : Bool} {x y : CPExpr} (hb : (b1 && b2) = false)
    (h1 : Q (b1, x)) (h2 : Q (b2, y)) (rs : List Ring) :
    Q (simplifyRings op b1 x b2 y rs) := by
  induction rs with
  | nil => exact stable.kept hb
  | cons r rs ih =>
      simp only [simplifyRings]
      split_ifs
      · exact stable.ring r hb h1 h2
      · exact ih

theorem simplify {op : Infix} {b1 b2 : Bool} {x y : CPExpr} (hb : (b1 && b2) = false)
    (h1 : Q (b1, x)) (h2 : Q (b2, y)) :
    Comp.Yields Q (Comp.ofExcept (Control.simplify op b1 x b2 y) : CPEvalM Residual) := by
  unfold Control.simplify
  split_ifs
  · exact .throw _
  · exact .pure (stable.lit _ _)
  · exact .pure (stable.lit _ _)
  · exact .pure (stable.rings hb h1 h2 _)

theorem pevalInfix (pf : Platform) (op : Infix) {r1 r2 : Residual} (h1 : Q r1) (h2 : Q r2) :
    Comp.Yields Q (Control.pevalInfix pf op r1 r2) := by
  unfold Control.pevalInfix
  split
  · split_ifs
    · exact .pure h1
    · exact .pure h2
    · split
      · exact stable.liftStatic _ _
      · exact .throw _
  · rename_i b1 x b2 y hne
    have hb : (b1 && b2) = false := by
      cases b1
      · rfl
      · cases b2
        · rfl
        · exact (hne rfl rfl).elim
    exact stable.simplify hb h1 h2

/-! ## Several residuals -/

theorem find {rs : List Residual} (h : ∀ r ∈ rs, Q r) {r : Residual}
    (hr : rs.find? Residual.isReturn = some r) : Q (allStatic rs, r.2) := by
  have hmem := List.mem_of_find?_eq_some hr
  exact stable.flag (h r hmem) (fun hs => mem_of_allStatic hs hmem)

theorem pevalList (b : Block) {rs : List Residual} (h : ∀ r ∈ rs, Q r) :
    Comp.Yields Q (Control.pevalList b rs) := by
  unfold Control.pevalList
  cases hr : rs.find? Residual.isReturn with
  | some r => exact .pure (stable.find h hr)
  | none => exact Comp.Yields.bind_any (fun ls => .pure (stable.lit _ _))

theorem finishPevalIter (op : Iter) (vs : List String) (ls : List CPLiteral) (e2 : CPExpr)
    (x : Option String) {rs : List Residual} {acc : Option Residual} (h : ∀ r ∈ rs, Q r)
    (hacc : ∀ r ∈ acc, Q r) :
    Comp.Yields Q (Control.finishPevalIter op vs ls e2 x rs acc) := by
  unfold Control.finishPevalIter
  cases hr : rs.find? Residual.isReturn with
  | some r => exact .pure (stable.find h hr)
  | none =>
      dsimp only
      split_ifs
      · cases acc with
        | none => exact .throw _
        | some r => exact .pure (hacc r rfl)
      · exact Comp.Yields.bind_any (fun l => .pure (stable.lit _ _))
      · exact .pure (stable.dynamic _ trivial)

/-! ## Branches -/

theorem residualIf {cond : CPExpr} {c : Residual} (h : Q c) (a : Option CPExpr) :
    Q (Control.residualIf cond c a) := by
  unfold Control.residualIf
  cases a with
  | none => exact stable.dynamic _ trivial
  | some a =>
      dsimp only
      split_ifs
      · exact h
      · exact stable.dynamic _ trivial

theorem residualIfSome {e : CPExpr} {v : String} {c : CPExpr} {a : Option Residual}
    (h : ∀ r ∈ a, Q r) :
    Comp.Yields Q (Comp.ofExcept (Control.residualIfSome e v c a) : CPEvalM Residual) := by
  unfold Control.residualIfSome
  cases a with
  | none => exact .pure (stable.dynamic _ trivial)
  | some a =>
      dsimp only
      split_ifs
      · cases applyTo (.closure v c) (.litExpr .unit) with
        | error e => exact .throw _
        | ok c' =>
            show Comp.Yields Q (Comp.ofExcept (if c' == a.2 then _ else _) : CPEvalM Residual)
            split_ifs
            · exact .pure (h a rfl)
            · exact .pure (stable.dynamic _ trivial)
      · exact .pure (stable.dynamic _ trivial)

omit stable in
theorem pevalSubject (pf : Platform) (p : Pattern) {r : Residual} (h : Q r) :
    Comp.Yields (fun q => Q q.1) (Control.pevalSubject pf p r) := by
  unfold Control.pevalSubject
  split
  · exact .pure h
  · exact Comp.Yields.bind_any (fun m => .pure h)
  · exact .throw _

omit stable in
theorem matchBranch {r : Residual} (h : Q r) : Comp.Yields Q (Control.matchBranch r) := by
  unfold Control.matchBranch
  split
  · exact .pure h
  · exact .pure h
  · exact .throw _

/-! ## Steps -/

variable {env : Env CPFlatLiteral} {pe : Bool × CPExpr → CPEvalM Residual}
variable (hpe : ∀ a, Comp.Yields Q (pe a))

include hpe

omit stable in
/-- The iterations, and the accumulator after them. -/
theorem pevalIter (so : Bool) (vs : List String) (e2 : CPExpr) (ls : List CPLiteral)
    (acc : Option Residual) (hacc : ∀ r ∈ acc, Q r) :
    Comp.Yields (fun p => (∀ r ∈ p.1, Q r) ∧ ∀ r ∈ p.2, Q r)
      (Control.pevalIter pe so vs e2 ls acc) := by
  induction ls generalizing acc with
  | nil => exact .pure ⟨fun r hr => absurd hr List.not_mem_nil, hacc⟩
  | cons l ls ih =>
      refine Comp.Yields.bind_any (fun e => (hpe (so, e)).bind (fun r hr => ?_))
      refine (ih (acc.map (fun _ => r)) ?_).bind (fun p hp => .pure ?_)
      · intro q hq
        obtain ⟨_, -, rfl⟩ := Option.mem_map.mp hq
        exact hr
      · exact ⟨List.forall_mem_cons.mpr ⟨hr, hp.1⟩, hp.2⟩

theorem pevalAlternative (so : Bool) (a : Option CPExpr) :
    Comp.Yields Q (Control.pevalAlternative pe so a) := by
  cases a with
  | none => exact .pure (stable.lit _ _)
  | some a => exact hpe _

theorem pevalInlined (so : Bool) (args : List CPExpr) (e : CPExpr) :
    Comp.Yields Q (Control.pevalInlined pe so args e) :=
  Comp.Yields.bind_any (fun e => (hpe (so, e)).bind (fun _ hr => .pure (stable.strip hr)))

theorem pevalCall (so : Bool) (f : String) (arguments : List CPExpr) (isAsync : Bool)
    (args : List Residual) :
    Comp.Yields Q (Control.pevalCall env pe so f arguments isAsync args) := by
  unfold Control.pevalCall
  split_ifs with hso hbuiltin
  · cases env.get f with
    | some e => exact stable.pevalInlined hpe so _ e
    | none =>
        dsimp only
        cases literalVector (args.map Prod.snd) with
        | ok ls => exact Comp.Yields.bind_any (fun l => .pure (stable.lit _ _))
        | error e => exact .throw _
  · cases env.get f with
    | some e => exact stable.pevalInlined hpe so _ e
    | none =>
        dsimp only
        cases Headers.split f with
        | some p => exact .pure (stable.dynamic _ trivial)
        | none => exact .throw _
  · cases env.get f with
    | some e =>
        exact (stable.pevalInlined hpe so _ e).bind (fun _ hr => .pure (stable.flag hr nofun))
    | none => exact .pure (stable.dynamic _ trivial)

variable (env) in
/-- The step of an iterator, from the residual of what it iterates over. -/
theorem pevalStep_iter (so : Bool) (op : Iter) (vs : List String) (e1 e2 : CPExpr)
    (acc : Option (String × CPExpr)) :
    ∃ k : Residual → CPEvalM Residual, pevalStep env pe (so, .iter op vs e1 e2 acc) =
        (do k (← pe (so, e1))) ∧
      (∀ b r, k (b, .returnExpr r) = pure (true, .returnExpr r)) ∧
      ∀ q : Residual, q.2.isReturn = false → Comp.Yields Q (k q) := by
  refine ⟨_, rfl, fun b r => rfl, ?_⟩
  intro q hq
  dsimp only
  split
  · cases hq
  · refine Comp.Yields.bind_any (fun r2 => ?_)
    cases acc with
    | none => exact .pure (stable.dynamic _ trivial)
    | some xa => exact Comp.Yields.bind_any (fun ra => .pure (stable.dynamic _ trivial))
  · cases acc with
    | none =>
        refine (pevalIter hpe so vs e2 _ none (by simp)).bind (fun p hp => ?_)
        exact stable.finishPevalIter _ _ _ _ _ hp.1 hp.2
    | some xa =>
        refine (hpe (so, xa.2)).bind (fun ra hra => ?_)
        obtain ⟨b, a⟩ := ra
        split_ifs with hb
        · refine (pevalIter hpe so vs e2 _ (some (true, a)) ?_).bind (fun p hp => ?_)
          · rintro _ ⟨⟩
            have hb : b = true := hb
            subst hb
            exact hra
          · exact stable.finishPevalIter _ _ _ _ _ hp.1 hp.2
        · exact .pure (stable.dynamic _ trivial)
  · exact .throw _

variable (env) in
/-- A step that is not one of a closure, an iterator or a return. -/
theorem pevalStep (so : Bool) (e : CPExpr) (hclosure : ∀ x e', e ≠ .closure x e')
    (hreturn : ∀ e', e ≠ .returnExpr e') (hiter : ∀ op vs e1 e2 acc, e ≠ .iter op vs e1 e2 acc) :
    Comp.Yields Q (Control.pevalStep env pe (so, e)) := by
  cases e with
  | var x => exact .pure (stable.dynamic _ trivial)
  | bvar x i => exact .pure (stable.dynamic _ trivial)
  | litExpr l => exact .pure (stable.lit _ _)
  | closure x e => exact absurd rfl (hclosure x e)
  | returnExpr e => exact absurd rfl (hreturn e)
  | prefixExpr p e => exact (hpe _).bind (fun r hr => stable.pevalPrefix _ p hr)
  | infixExpr op e1 e2 =>
      exact (hpe _).bind (fun r1 h1 => (hpe _).bind (fun r2 h2 => stable.pevalInfix _ op h1 h2))
  | blockExpr b es =>
      cases es with
      | nil => cases b <;> exact .pure (stable.lit _ _)
      | cons e es =>
          cases b with
          | block =>
              refine (hpe _).bind (fun r hr => ?_)
              obtain ⟨f, res⟩ := r
              dsimp only
              split_ifs
              · exact .pure hr
              · exact hpe _
              · exact Comp.Yields.bind_any (fun _ => .pure (stable.dynamic _ (.consBlock _ _)))
          | list | tuple =>
              exact (Comp.Yields.traverse (fun e _ => hpe (so, e))).bind
                (fun rs hrs => stable.pevalList _ hrs)
  | letExpr vs e1 e2 =>
      unfold Control.pevalStep
      dsimp only
      cases e2.atDepth vs.length with
      | none => exact .throw _
      | some body =>
          dsimp only
          split_ifs
          · exact Comp.Yields.bind_any (fun e => hpe _)
          · refine (hpe _).bind (fun r hr => ?_)
            split
            · exact .pure hr
            · exact Comp.Yields.bind_any (fun e => hpe _)
            · exact Comp.Yields.bind_any (fun _ => .pure (stable.dynamic _ trivial))
            · exact .throw _
  | iter op vs e1 e2 acc => exact absurd rfl (hiter op vs e1 e2 acc)
  | ifExpr c t a =>
      refine (hpe _).bind (fun r hr => ?_)
      split
      · exact .pure hr
      · split
        · exact hpe _
        · exact stable.pevalAlternative hpe so a
        · exact .throw _
      · exact .throw _
      · refine (hpe _).bind (fun r hr => ?_)
        cases a with
        | none => exact .pure (stable.residualIf hr none)
        | some a => exact Comp.Yields.bind_any (fun ra => .pure (stable.residualIf hr _))
  | ifSomeMatchExpr e t a =>
      refine (hpe _).bind (fun r hr => ?_)
      split
      · exact .pure hr
      · exact Comp.Yields.bind_any (fun e => hpe _)
      · exact stable.pevalAlternative hpe so a
      · split
        · refine Comp.Yields.bind_any (fun rc => ?_)
          cases a with
          | none => exact stable.residualIfSome (by simp)
          | some a =>
              refine (hpe _).bind (fun ra hra => stable.residualIfSome ?_)
              rintro _ ⟨⟩
              exact hra
        · exact .throw _
      · exact .throw _
  | ifMatchExpr vs ms t a =>
      have hsubject : ∀ m ∈ ms, Comp.Yields (fun q => Q q.1)
          (pe (so, m.1) >>= Control.pevalSubject env.platform m.2) :=
        fun m _ => (hpe _).bind (fun r hr => pevalSubject _ _ hr)
      refine (Comp.Yields.traverse hsubject).bind (fun rs hrs => ?_)
      have hfst : ∀ r ∈ rs.map Prod.fst, Q r := by
        intro r hr
        obtain ⟨q, hq, rfl⟩ := List.mem_map.mp hr
        exact hrs q hq
      split_ifs with hstatic
      · exact .pure (stable.dynamic _ trivial)
      · cases hr : (rs.map Prod.fst).find? Residual.isReturn with
        | some r =>
            have hall : allStatic (rs.map Prod.fst) = true := by simpa using hstatic
            have hflagged := stable.find hfst hr
            rw [hall] at hflagged
            exact .pure hflagged
        | none =>
            dsimp only
            cases allCaptures rs with
            | none =>
                cases a with
                | none => exact .pure (stable.lit _ _)
                | some a => exact (hpe _).bind (fun r hr => matchBranch hr)
            | some caps =>
                exact Comp.Yields.bind_any (fun e => (hpe _).bind (fun r hr => matchBranch hr))
  | callExpr f arguments isAsync =>
      refine (Comp.Yields.traverse (fun e _ => hpe (so, e))).bind (fun rs hrs => ?_)
      cases hr : rs.find? Residual.isReturn with
      | some r => exact .pure (stable.find hrs hr)
      | none => exact stable.pevalCall hpe so f arguments isAsync rs

end Residual.Stable

/-! ## Residuals of blocks -/

theorem stable_blockForm : Residual.Stable (fun r => BlockForm r.2) where
  lit _ _ := trivial
  dynamic _ h := h
  flag h _ := h
  strip := by
    intro b e h
    cases e <;> exact h

/-- What is left is a list, a tuple or an empty block nowhere on its outside. -/
theorem blockForm_peval (env : Env CPFlatLiteral) (so : Bool) (e : CPExpr) :
    Comp.Yields (fun r => BlockForm r.2) (peval env so e) := by
  refine Comp.Yields.fix (fun pe hpe a => ?_) (so, e)
  obtain ⟨so, e⟩ := a
  cases e with
  | closure x e =>
      refine (hpe _).bind (fun r hr => ?_)
      obtain ⟨b, e'⟩ := r
      dsimp only
      split_ifs
      · exact .pure hr
      · exact .pure trivial
  | returnExpr e => exact (hpe _).bind (fun r hr => .pure hr)
  | iter op vs e1 e2 acc =>
      obtain ⟨k, hk, hret, hrest⟩ :=
        stable_blockForm.pevalStep_iter env hpe so op vs e1 e2 acc
      rw [hk]
      refine (hpe _).bind (fun r hr => ?_)
      obtain ⟨b, e'⟩ := r
      cases hret' : e'.isReturn with
      | false => exact hrest _ hret'
      | true =>
          cases e' with
          | returnExpr q => exact hret b q ▸ .pure hr
          | _ => cases hret'
  | _ => exact stable_blockForm.pevalStep env hpe so _ (by simp) (by simp) (by simp)

end Armour.Control
