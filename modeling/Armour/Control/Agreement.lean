import Armour.Control.Faithful

/-! # Runs of the specializer, branch by branch

What `peval` leaves of an expression, from what it leaves of the parts: a rule for each form of
`peval`.  With these rules a derivation of `Faithful` is a run of the specializer
(`Faithful.leaves`).
-/

namespace Armour.Control

open Armour.Lib Armour.Lang

/-! ## Runs over lists -/

section

variable {ε σ α β : Type} {f : α → Comp ε σ β}

/-- A run over a list, from the runs at every position and the states between them. -/
theorem run_traverse_of_getElem {as : List α} {bs : List β} {ss : Nat → σ}
    (hlen : as.length = bs.length)
    (h : ∀ (i : Nat) a b, as[i]? = some a → bs[i]? = some b →
      (f a).run (ss i) = some (.ok b, ss (i + 1))) :
    (Comp.traverse f as).run (ss 0) = some (.ok bs, ss as.length) := by
  induction as generalizing bs ss with
  | nil =>
      cases bs with
      | nil => rfl
      | cons b bs => cases hlen
  | cons a as ih =>
      cases bs with
      | nil => cases hlen
      | cons b bs =>
          have hrest := @ih bs (fun i => ss (i + 1)) (Nat.succ.inj hlen)
            (fun i a' b' ha hb => h (i + 1) a' b' ha hb)
          rw [Comp.traverse_cons, Comp.run_bind_ok (h 0 a b rfl rfl), Comp.run_bind_ok hrest]
          rfl

theorem run_traverse_middle {pre post : List α} {a : α} {bpre bpost : List β} {b : β}
    {s s₁ s₂ s' : σ} (hpre : (Comp.traverse f pre).run s = some (.ok bpre, s₁))
    (h : (f a).run s₁ = some (.ok b, s₂))
    (hpost : (Comp.traverse f post).run s₂ = some (.ok bpost, s')) :
    (Comp.traverse f (pre ++ a :: post)).run s = some (.ok (bpre ++ b :: bpost), s') := by
  rw [Comp.traverse_append, Comp.run_bind_ok hpre, Comp.traverse_cons, bind_assoc,
    Comp.run_bind_ok h, bind_assoc, Comp.run_bind_ok hpost]
  rfl

end

/-! ## Residuals -/

theorem literalVector_map (ls : List CPLiteral) : literalVector (ls.map .litExpr) = .ok ls := by
  induction ls with
  | nil => rfl
  | cons l ls ih => simp [literalVector, ih, Except.map]

theorem NoReturns.find {rs : List Residual} (h : NoReturns rs) :
    rs.find? Residual.isReturn = none := by
  rw [List.find?_eq_none]
  intro r hr
  simp [h r hr]

/-- No literal is a return. -/
theorem noReturns_of_literals {rs : List Residual} {ls : List CPLiteral}
    (h : rs.map Prod.snd = ls.map .litExpr) : NoReturns rs := by
  intro r hr
  have hmem : r.2 ∈ ls.map Expr.litExpr := h ▸ List.mem_map_of_mem hr
  obtain ⟨l, -, hl⟩ := List.mem_map.mp hmem
  rw [Residual.isReturn, ← hl]
  rfl

theorem NoReturns.find_middle {rpre rpost : List Residual} {r : Residual} (h : NoReturns rpre)
    (hr : r.isReturn = true) : (rpre ++ r :: rpost).find? Residual.isReturn = some r := by
  rw [List.find?_append, h.find, Option.none_or, List.find?_cons_of_pos hr]

/-- Subjects that are literals. -/
theorem static_subjects {α : Type} {rs : List (Residual × α)} {ls : List CPLiteral}
    (hls : rs.map Prod.fst = ls.map (fun l => (true, .litExpr l))) :
    allStatic (rs.map Prod.fst) = true ∧ NoReturns (rs.map Prod.fst) := by
  rw [hls]
  constructor
  · rw [allStatic, List.all_map]
    exact List.all_eq_true.mpr (fun _ _ => rfl)
  · intro r hr
    obtain ⟨l, -, rfl⟩ := List.mem_map.mp hr
    rfl

/-! ## The rules -/

section

variable {env : Env CPFlatLiteral} {so : Bool}

theorem leaves_iff {e : CPExpr} {w w' : CPWorld} {r : Residual} : Leaves env so e w r w' ↔
    (pevalStep env (fun p => peval env p.1 p.2) (so, e)).run w = some (.ok r, w') := by
  rw [Leaves, Control.peval_eq]

namespace Leaves

variable {e e1 e2 : CPExpr} {w w₁ w₂ w₃ w' : CPWorld}

theorem closure {x : String} {b : Bool} {e' : CPExpr} (h : Leaves env so e w (b, e') w')
    (used : e'.isFree 0 = false) :
    Leaves env so (.closure x e) w (false, .closure x e') w' := by
  rw [leaves_iff]
  simp only [pevalStep, Comp.run_bind_ok h, used]
  rfl

theorem returnExpr {b : Bool} {e' : CPExpr} (h : Leaves env so e w (b, e') w') :
    Leaves env so (.returnExpr e) w (b, .returnExpr e') w' := by
  rw [leaves_iff]
  simp only [pevalStep, Comp.run_bind_ok h]
  rfl

theorem prefixExpr {p : Prefix} {r z : Residual} (h : Leaves env so e w r w')
    (hz : pevalPrefix env.platform p r = pure z) : Leaves env so (.prefixExpr p e) w z w' := by
  rw [leaves_iff]
  simp only [pevalStep, Comp.run_bind_ok h, hz]
  rfl

theorem infixExpr {op : Infix} {r1 r2 z : Residual} (h1 : Leaves env so e1 w r1 w₁)
    (h2 : Leaves env so e2 w₁ r2 w') (hz : pevalInfix env.platform op r1 r2 = pure z) :
    Leaves env so (.infixExpr op e1 e2) w z w' := by
  rw [leaves_iff]
  simp only [pevalStep, Comp.run_bind_ok h1, Comp.run_bind_ok h2, hz]
  rfl

/-! ### Blocks and lists -/

theorem blockLast {es : List CPExpr} {b : Bool} {e' : CPExpr}
    (h : Leaves env so e w (b, e') w') (last : e'.isReturn = true ∨ es = []) :
    Leaves env so (.blockExpr .block (e :: es)) w (b, e') w' := by
  have hcond : (e'.isReturn || es.isEmpty) = true := by
    rw [Bool.or_eq_true, List.isEmpty_iff]
    exact last
  rw [leaves_iff]
  simp only [pevalStep, Comp.run_bind_ok h, hcond, if_true]
  rfl

theorem blockStatic {es : List CPExpr} {x : CPExpr} {r : Residual}
    (h : Leaves env so e w (true, x) w₁) (hx : x.isReturn = false) (hes : es ≠ [])
    (hrest : Leaves env so (.blockExpr .block es) w₁ r w') :
    Leaves env so (.blockExpr .block (e :: es)) w r w' := by
  have hcond : (x.isReturn || es.isEmpty) = false := by
    rw [hx, List.isEmpty_eq_false_iff.mpr hes]
    rfl
  rw [leaves_iff]
  simp only [pevalStep, Comp.run_bind_ok h, hcond, Bool.false_eq_true, if_false, if_true]
  exact hrest

theorem blockDynamic {es : List CPExpr} {x rest : CPExpr} {b : Bool}
    (h : Leaves env so e w (false, x) w₁) (hx : x.isReturn = false) (hes : es ≠ [])
    (hrest : Leaves env true (.blockExpr .block es) w₁ (b, rest) w') :
    Leaves env so (.blockExpr .block (e :: es)) w (false, consBlock x rest) w' := by
  have hcond : (x.isReturn || es.isEmpty) = false := by
    rw [hx, List.isEmpty_eq_false_iff.mpr hes]
    rfl
  rw [leaves_iff]
  simp only [pevalStep, Comp.run_bind_ok h, hcond, Bool.false_eq_true, if_false,
    Comp.run_bind_ok hrest]
  rfl

theorem elements {b : Block} {es : List CPExpr} {rs : List Residual} {z : Residual}
    (hb : b ≠ .block) (hes : es ≠ []) (h : LeavesAll env so es w rs w')
    (hz : pevalList b rs = pure z) : Leaves env so (.blockExpr b es) w z w' := by
  have hstep : pevalStep env (fun p => peval env p.1 p.2) (so, .blockExpr b es) = (do
      let rs ← Comp.traverse (peval env so) es
      pevalList b rs) := by
    cases es with
    | nil => exact absurd rfl hes
    | cons e es =>
        cases b with
        | block => exact absurd rfl hb
        | list | tuple => rfl
  rw [leaves_iff, hstep, Comp.run_bind_ok h, hz]
  rfl

/-! ### Bindings -/

theorem letDead {vs : List String} {body : CPExpr} {r : Residual}
    (hbody : e2.atDepth vs.length = some body)
    (hfree : (List.range vs.length).all body.isFree = true)
    (happ : applyAll e2 (List.replicate vs.length (.litExpr .unit)) = .ok e)
    (h : Leaves env so e w r w') : Leaves env so (.letExpr vs e1 e2) w r w' := by
  rw [leaves_iff]
  simp only [pevalStep, hbody, hfree, if_true, happ, Comp.ofExcept, pure_bind]
  exact h

theorem letReturn {vs : List String} {b : Bool} {r : CPExpr} (live : LetLive vs e2)
    (h : Leaves env so e1 w (b, .returnExpr r) w') :
    Leaves env so (.letExpr vs e1 e2) w (b, .returnExpr r) w' := by
  obtain ⟨body, hbody, hfree⟩ := live
  rw [leaves_iff]
  simp only [pevalStep, hbody, hfree, Bool.false_eq_true, if_false, Comp.run_bind_ok h]
  rfl

theorem letStatic {vs : List String} {l : CPLiteral} {r : Residual} (live : LetLive vs e2)
    (h1 : Leaves env so e1 w (true, .litExpr l) w₁) (hbind : bindLet "peval" vs l e2 = .ok e)
    (h : Leaves env so e w₁ r w') : Leaves env so (.letExpr vs e1 e2) w r w' := by
  obtain ⟨body, hbody, hfree⟩ := live
  rw [leaves_iff]
  simp only [pevalStep, hbody, hfree, Bool.false_eq_true, if_false, Comp.run_bind_ok h1, hbind,
    Comp.ofExcept, pure_bind]
  exact h

theorem letDynamic {vs : List String} {b : Bool} {e1' e2' : CPExpr} (live : LetLive vs e2)
    (h1 : Leaves env so e1 w (false, e1') w₁) (hr : e1'.isReturn = false)
    (h2 : Leaves env so e2 w₁ (b, e2') w') :
    Leaves env so (.letExpr vs e1 e2) w (false, .letExpr vs e1' e2') w' := by
  obtain ⟨body, hbody, hfree⟩ := live
  rw [leaves_iff]
  simp only [pevalStep, hbody, hfree, Bool.false_eq_true, if_false, Comp.run_bind_ok h1]
  cases e1' with
  | returnExpr r => cases hr
  | _ =>
      simp only [Comp.run_bind_ok h2]
      rfl

/-! ### Iterators -/

theorem iterReturn {op : Iter} {vs : List String} {acc : Option (String × CPExpr)} {b : Bool}
    {r : CPExpr} (h : Leaves env so e1 w (b, .returnExpr r) w') :
    Leaves env so (.iter op vs e1 e2 acc) w (true, .returnExpr r) w' := by
  rw [leaves_iff]
  simp only [pevalStep, Comp.run_bind_ok h]
  rfl

theorem iterDynamic {op : Iter} {vs : List String} {b : Bool} {e1' e2' : CPExpr}
    (h1 : Leaves env so e1 w (false, e1') w₁) (hr : e1'.isReturn = false)
    (h2 : Leaves env so e2 w₁ (b, e2') w') :
    Leaves env so (.iter op vs e1 e2 none) w (false, .iter op vs e1' e2' none) w' := by
  rw [leaves_iff]
  simp only [pevalStep, Comp.run_bind_ok h1]
  cases e1' with
  | returnExpr r => cases hr
  | _ =>
      simp only [Comp.run_bind_ok h2]
      rfl

theorem foldDynamic {op : Iter} {vs : List String} {x : String} {a : CPExpr} {b b' : Bool}
    {e1' e2' a' : CPExpr} (h1 : Leaves env so e1 w (false, e1') w₁) (hr : e1'.isReturn = false)
    (h2 : Leaves env so e2 w₁ (b, e2') w₂) (ha : Leaves env so a w₂ (b', a') w') :
    Leaves env so (.iter op vs e1 e2 (some (x, a))) w
      (false, .iter op vs e1' e2' (some (x, a'))) w' := by
  rw [leaves_iff]
  simp only [pevalStep, Comp.run_bind_ok h1]
  cases e1' with
  | returnExpr r => cases hr
  | _ =>
      simp only [Comp.run_bind_ok h2, Comp.run_bind_ok ha]
      rfl

theorem iterElements {op : Iter} {vs : List String} {lits : List CPLiteral} {rs : List Residual}
    {last : Option Residual} {z : Residual}
    (h1 : Leaves env so e1 w (true, .litExpr (.list lits)) w₁)
    (hiter : LeavesIter env so vs e2 lits none w₁ rs last w')
    (hz : finishPevalIter op vs lits e2 none rs last = pure z) :
    Leaves env so (.iter op vs e1 e2 none) w z w' := by
  rw [leaves_iff]
  simp only [pevalStep, Comp.run_bind_ok h1, Comp.run_bind_ok hiter, hz]
  rfl

theorem foldAccDynamic {op : Iter} {vs : List String} {x : String} {a a' : CPExpr}
    {lits : List CPLiteral} (h1 : Leaves env so e1 w (true, .litExpr (.list lits)) w₁)
    (ha : Leaves env so a w₁ (false, a') w') :
    Leaves env so (.iter op vs e1 e2 (some (x, a))) w
      (false, .iter op vs (.litExpr (.list lits)) e2 (some (x, a'))) w' := by
  rw [leaves_iff]
  simp only [pevalStep, Comp.run_bind_ok h1, Comp.run_bind_ok ha]
  rfl

theorem fold {op : Iter} {vs : List String} {x : String} {a a' : CPExpr} {lits : List CPLiteral}
    {rs : List Residual} {last : Option Residual} {z : Residual}
    (h1 : Leaves env so e1 w (true, .litExpr (.list lits)) w₁)
    (ha : Leaves env so a w₁ (true, a') w₂)
    (hiter : LeavesIter env so vs e2 lits (some (true, a')) w₂ rs last w')
    (hz : finishPevalIter op vs lits e2 (some x) rs last = pure z) :
    Leaves env so (.iter op vs e1 e2 (some (x, a))) w z w' := by
  rw [leaves_iff]
  simp only [pevalStep, Comp.run_bind_ok h1, Comp.run_bind_ok ha, if_true,
    Comp.run_bind_ok hiter, hz]
  rfl

/-! ### Conditionals -/

theorem ifReturn {c t : CPExpr} {a : Option CPExpr} {b : Bool} {r : CPExpr}
    (h : Leaves env so c w (b, .returnExpr r) w') :
    Leaves env so (.ifExpr c t a) w (b, .returnExpr r) w' := by
  rw [leaves_iff]
  simp only [pevalStep, Comp.run_bind_ok h]
  rfl

theorem ifTrue {c t : CPExpr} {a : Option CPExpr} {l : CPLiteral} {r : Residual}
    (h : Leaves env so c w (true, .litExpr l) w₁) (hl : l.getBool? = some true)
    (ht : Leaves env so t w₁ r w') : Leaves env so (.ifExpr c t a) w r w' := by
  rw [leaves_iff]
  simp only [pevalStep, Comp.run_bind_ok h, hl]
  exact ht

theorem ifFalse {c t : CPExpr} {a : Option CPExpr} {l : CPLiteral} {r : Residual}
    (h : Leaves env so c w (true, .litExpr l) w₁) (hl : l.getBool? = some false)
    (ha : (pevalAlternative (fun p => peval env p.1 p.2) so a).run w₁ = some (.ok r, w')) :
    Leaves env so (.ifExpr c t a) w r w' := by
  rw [leaves_iff]
  simp only [pevalStep, Comp.run_bind_ok h, hl]
  exact ha

theorem ifDynamicNone {c t c' t' : CPExpr} {b : Bool} (h : Leaves env so c w (false, c') w₁)
    (hr : c'.isReturn = false) (ht : Leaves env so t w₁ (b, t') w') :
    Leaves env so (.ifExpr c t none) w (false, .ifExpr c' t' none) w' := by
  rw [leaves_iff]
  simp only [pevalStep, Comp.run_bind_ok h]
  cases c' with
  | returnExpr r => cases hr
  | _ =>
      simp only [Comp.run_bind_ok ht]
      rfl

theorem ifDynamic {c t a c' : CPExpr} {rt : Residual} {b : Bool} {a' : CPExpr}
    (h : Leaves env so c w (false, c') w₁) (hr : c'.isReturn = false)
    (ht : Leaves env so t w₁ rt w₂) (ha : Leaves env so a w₂ (b, a') w') :
    Leaves env so (.ifExpr c t (some a)) w (residualIf c' rt (some a')) w' := by
  rw [leaves_iff]
  simp only [pevalStep, Comp.run_bind_ok h]
  cases c' with
  | returnExpr r => cases hr
  | _ =>
      simp only [Comp.run_bind_ok ht, Comp.run_bind_ok ha]
      rfl

theorem ifSomeReturn {t : CPExpr} {a : Option CPExpr} {b : Bool} {r : CPExpr}
    (h : Leaves env so e w (b, .returnExpr r) w') :
    Leaves env so (.ifSomeMatchExpr e t a) w (b, .returnExpr r) w' := by
  rw [leaves_iff]
  simp only [pevalStep, Comp.run_bind_ok h]
  rfl

theorem ifSomeTaken {t t₁ : CPExpr} {a : Option CPExpr} {l : CPLiteral} {r : Residual}
    (h : Leaves env so e w (true, .litExpr (.tuple [l])) w₁)
    (happ : applyTo t (.litExpr l) = .ok t₁) (ht : Leaves env so t₁ w₁ r w') :
    Leaves env so (.ifSomeMatchExpr e t a) w r w' := by
  rw [leaves_iff]
  simp only [pevalStep, Comp.run_bind_ok h, happ, Comp.ofExcept, pure_bind]
  exact ht

/-- An `if let` on a tuple that is not `Some`. -/
theorem ifSomeFailed {t : CPExpr} {a : Option CPExpr} {ls : List CPLiteral} {r : Residual}
    (h : Leaves env so e w (true, .litExpr (.tuple ls)) w₁) (hls : ls.length ≠ 1)
    (ha : (pevalAlternative (fun p => peval env p.1 p.2) so a).run w₁ = some (.ok r, w')) :
    Leaves env so (.ifSomeMatchExpr e t a) w r w' := by
  rw [leaves_iff]
  simp only [pevalStep, Comp.run_bind_ok h]
  rcases ls with _ | ⟨l, _ | ⟨l', ls⟩⟩
  · exact ha
  · exact absurd rfl hls
  · exact ha

/-- An `if let` on a subject that is not known. -/
theorem run_ifSome {e' c c' : CPExpr} {v : String} {b : Bool} (h : Leaves env so e w (false, e') w₁)
    (hr : e'.isReturn = false) (hc : Leaves env so c w₁ (b, c') w₂) (a : Option CPExpr) :
    (peval env so (.ifSomeMatchExpr e (.closure v c) a)).run w =
      (match a with
      | some alt => do
          let a ← peval env so alt
          Comp.ofExcept (residualIfSome e' v c' (some a))
      | none => Comp.ofExcept (residualIfSome e' v c' none) : CPEvalM Residual).run w₂ := by
  rw [Control.peval_eq]
  simp only [pevalStep, Comp.run_bind_ok h]
  cases e' with
  | returnExpr r => cases hr
  | litExpr l =>
      cases l with
      | flat f =>
          simp only [Comp.run_bind_ok hc]
          rfl
      | list ls =>
          simp only [Comp.run_bind_ok hc]
          rfl
      | tuple ls =>
          rcases ls with _ | ⟨l, _ | ⟨l', ls⟩⟩ <;>
          · simp only [Comp.run_bind_ok hc]
            rfl
  | _ =>
      simp only [Comp.run_bind_ok hc]
      rfl

theorem ifSomeDynamicNone {e' c c' : CPExpr} {v : String} {b : Bool}
    (h : Leaves env so e w (false, e') w₁) (hr : e'.isReturn = false)
    (hc : Leaves env so c w₁ (b, c') w') :
    Leaves env so (.ifSomeMatchExpr e (.closure v c) none) w
      (false, .ifSomeMatchExpr e' (.closure v c') none) w' := by
  rw [Leaves, run_ifSome h hr hc]
  rfl

theorem ifSomeDynamic {e' c c' a : CPExpr} {v : String} {b : Bool} {ra z : Residual}
    (h : Leaves env so e w (false, e') w₁) (hr : e'.isReturn = false)
    (hc : Leaves env so c w₁ (b, c') w₂) (ha : Leaves env so a w₂ ra w')
    (hz : residualIfSome e' v c' (some ra) = .ok z) :
    Leaves env so (.ifSomeMatchExpr e (.closure v c) (some a)) w z w' := by
  rw [Leaves, run_ifSome h hr hc]
  dsimp only
  rw [Comp.run_bind_ok ha, hz]
  rfl

/-! ### `if match` -/

theorem matchKeep {vs : List String} {ms : List (CPExpr × Pattern)} {t : CPExpr}
    {a : Option CPExpr} {rs : List (Residual × Option (List (String × CPLiteral)))}
    (hrs : LeavesSubjects env so ms w rs w') (dynamic : allStatic (rs.map Prod.fst) = false) :
    Leaves env so (.ifMatchExpr vs ms t a) w (false, .ifMatchExpr vs ms t a) w' := by
  rw [leaves_iff]
  simp only [pevalStep, Comp.run_bind_ok hrs, dynamic]
  rfl

theorem matchReturn {vs : List String} {ms : List (CPExpr × Pattern)} {t : CPExpr}
    {a : Option CPExpr} {rs : List (Residual × Option (List (String × CPLiteral)))}
    {r : Residual} (hrs : LeavesSubjects env so ms w rs w')
    (static : allStatic (rs.map Prod.fst) = true)
    (hr : (rs.map Prod.fst).find? Residual.isReturn = some r) :
    Leaves env so (.ifMatchExpr vs ms t a) w (true, r.2) w' := by
  rw [leaves_iff]
  simp only [pevalStep, Comp.run_bind_ok hrs, static, hr]
  rfl

theorem matchFailed {vs : List String} {ms : List (CPExpr × Pattern)} {t a : CPExpr}
    {rs : List (Residual × Option (List (String × CPLiteral)))} {r : Residual}
    (hrs : LeavesSubjects env so ms w rs w₁) (static : allStatic (rs.map Prod.fst) = true)
    (noRet : NoReturns (rs.map Prod.fst)) (hcaps : allCaptures rs = none)
    (ha : Leaves env so a w₁ r w') (shape : matchBranch r = pure r) :
    Leaves env so (.ifMatchExpr vs ms t (some a)) w r w' := by
  rw [leaves_iff]
  simp only [pevalStep, Comp.run_bind_ok hrs, static, noRet.find, hcaps]
  show (peval env so a >>= matchBranch).run w₁ = _
  rw [Comp.run_bind_ok ha, shape]
  rfl

theorem matchFailedNone {vs : List String} {ms : List (CPExpr × Pattern)} {t : CPExpr}
    {rs : List (Residual × Option (List (String × CPLiteral)))}
    (hrs : LeavesSubjects env so ms w rs w') (static : allStatic (rs.map Prod.fst) = true)
    (noRet : NoReturns (rs.map Prod.fst)) (hcaps : allCaptures rs = none) :
    Leaves env so (.ifMatchExpr vs ms t none) w (true, .litExpr .unit) w' := by
  rw [leaves_iff]
  simp only [pevalStep, Comp.run_bind_ok hrs, static, noRet.find, hcaps]
  rfl

theorem matchTaken {vs : List String} {ms : List (CPExpr × Pattern)} {t t₁ : CPExpr}
    {a : Option CPExpr} {rs : List (Residual × Option (List (String × CPLiteral)))}
    {caps : BTreeMap String CPLiteral} {r : Residual} (hrs : LeavesSubjects env so ms w rs w₁)
    (static : allStatic (rs.map Prod.fst) = true) (noRet : NoReturns (rs.map Prod.fst))
    (hcaps : allCaptures rs = some caps) (happ : bindCaptures "peval" caps vs t = .ok t₁)
    (ht : Leaves env so t₁ w₁ r w') (shape : matchBranch r = pure r) :
    Leaves env so (.ifMatchExpr vs ms t a) w r w' := by
  rw [leaves_iff]
  simp only [pevalStep, Comp.run_bind_ok hrs, static, noRet.find, hcaps, happ, Comp.ofExcept,
    pure_bind]
  show (peval env so t₁ >>= matchBranch).run w₁ = _
  rw [Comp.run_bind_ok ht, shape]
  rfl

/-! ### Calls -/

theorem callReturn {f : String} {es : List CPExpr} {isAsync : Bool} {rs : List Residual}
    {r : Residual} (h : LeavesAll env so es w rs w')
    (hr : rs.find? Residual.isReturn = some r) :
    Leaves env so (.callExpr f es isAsync) w (allStatic rs, r.2) w' := by
  rw [leaves_iff]
  simp only [pevalStep, Comp.run_bind_ok h, hr]
  rfl

theorem callExpr {f : String} {es : List CPExpr} {isAsync : Bool} {rs : List Residual}
    {z : Residual} (h : LeavesAll env so es w rs w₁) (noRet : NoReturns rs)
    (hz : (pevalCall env (fun p => peval env p.1 p.2) so f es isAsync rs).run w₁ =
      some (.ok z, w')) :
    Leaves env so (.callExpr f es isAsync) w z w' := by
  rw [leaves_iff]
  simp only [pevalStep, Comp.run_bind_ok h, noRet.find]
  exact hz

theorem callUser {f : String} {es : List CPExpr} {isAsync : Bool} {rs : List Residual}
    {fe e e' : CPExpr} {b : Bool} (h : LeavesAll env so es w rs w₁) (noRet : NoReturns rs)
    (hf : env.get f = some fe) (happ : applyAll fe (rs.map Prod.snd) = .ok e)
    (he : Leaves env so e w₁ (b, e') w') :
    Leaves env so (.callExpr f es isAsync) w (allStatic rs && !so && b, e'.stripReturn) w' := by
  have hinline : (pevalInlined (fun p => peval env p.1 p.2) so (rs.map Prod.snd) fe).run w₁ =
      some (.ok (b, e'.stripReturn), w') := by
    simp only [pevalInlined, happ, Comp.ofExcept, pure_bind, Comp.run_bind_ok he]
    rfl
  refine callExpr h noRet ?_
  unfold pevalCall
  cases hflag : allStatic rs && !so with
  | true =>
      simp only [if_true, hf, hinline, Bool.true_and]
  | false =>
      simp only [Bool.false_eq_true, if_false, hf, Comp.run_bind_ok hinline, Bool.false_and]
      rfl

theorem callBuiltin {f : String} {es : List CPExpr} {isAsync : Bool} {rs : List Residual}
    {ls : List CPLiteral} {l : CPLiteral} (h : LeavesAll env false es w rs w₁)
    (static : allStatic rs = true) (hls : rs.map Prod.snd = ls.map .litExpr)
    (hf : env.get f = none) (hb : Headers.isBuiltin CPFlatTyp f = true)
    (hl : (env.builtin f ls).run w₁ = some (.ok l, w')) :
    Leaves env false (.callExpr f es isAsync) w (true, .litExpr l) w' := by
  refine callExpr h (noReturns_of_literals hls) ?_
  simp only [pevalCall, static, Bool.not_false, Bool.and_self, if_true, hf, hb, hls,
    literalVector_map, Comp.run_bind_ok hl]
  rfl

theorem callKeep {f : String} {es : List CPExpr} {isAsync : Bool} {rs : List Residual}
    (h : LeavesAll env false es w rs w') (noRet : NoReturns rs) (static : allStatic rs = true)
    (hf : env.get f = none) (hb : Headers.isBuiltin CPFlatTyp f = false)
    (hs : (Headers.split f).isSome = true) :
    Leaves env false (.callExpr f es isAsync) w (false, .callExpr f es isAsync) w' := by
  obtain ⟨s, hs⟩ := Option.isSome_iff_exists.mp hs
  refine callExpr h noRet ?_
  simp only [pevalCall, static, Bool.not_false, Bool.and_self, if_true, hf, hb, hs,
    Bool.false_eq_true, if_false]
  rfl

theorem callDynamic {f : String} {es : List CPExpr} {isAsync : Bool} {rs : List Residual}
    (h : LeavesAll env so es w rs w') (noRet : NoReturns rs)
    (dynamic : (allStatic rs && !so) = false) (hf : env.get f = none) :
    Leaves env so (.callExpr f es isAsync) w (false, .callExpr f (rs.map Prod.snd) isAsync) w' := by
  refine callExpr h noRet ?_
  simp only [pevalCall, dynamic, Bool.false_eq_true, if_false, hf]
  rfl

end Leaves

/-! ## Iterations and subjects -/

/-- The iterations over a static list without an accumulator. -/
theorem LeavesAll.iterations {vs : List String} {e2 : CPExpr} {lits : List CPLiteral}
    {es : List CPExpr} {rs : List Residual} {w w' : CPWorld}
    (hes : List.Forall₂ (fun l e => bindIter "peval" vs none l e2 = .ok e) lits es)
    (h : LeavesAll env so es w rs w') : LeavesIter env so vs e2 lits none w rs none w' := by
  induction hes generalizing rs w with
  | nil =>
      cases h
      rfl
  | cons he _ ih =>
      obtain ⟨r, w₁, hr, h⟩ := Comp.bind_eq_ok h
      obtain ⟨rs, w₂, hrs, h⟩ := Comp.bind_eq_ok h
      cases h
      have hrest := ih hrs
      unfold LeavesIter at hrest ⊢
      simp only [pevalIter, Option.map_none, he, Comp.ofExcept, pure_bind, Comp.run_bind_ok hr,
        Comp.run_bind_ok hrest]
      rfl

theorem LeavesIter.append {vs : List String} {e2 : CPExpr} {lits post : List CPLiteral}
    {acc next last : Option Residual} {rs rpost : List Residual} {w w₁ w' : CPWorld}
    (h : LeavesIter env so vs e2 lits acc w rs next w₁)
    (hpost : LeavesIter env so vs e2 post next w₁ rpost last w') :
    LeavesIter env so vs e2 (lits ++ post) acc w (rs ++ rpost) last w' := by
  induction lits generalizing acc rs w with
  | nil =>
      cases h
      exact hpost
  | cons l lits ih =>
      obtain ⟨e, w₂, he, h⟩ := Comp.bind_eq_ok h
      obtain ⟨r, w₃, hr, h⟩ := Comp.bind_eq_ok h
      obtain ⟨p, w₄, hp, h⟩ := Comp.bind_eq_ok h
      cases h
      have hrest := ih hp
      unfold LeavesIter at hrest ⊢
      simp only [List.cons_append, pevalIter, Comp.run_bind_ok he, Comp.run_bind_ok hr,
        Comp.run_bind_ok hrest]
      rfl

/-- The iterations of a fold over a static list. -/
theorem FoldChain.leaves {vs : List String} {e2 : CPExpr} {lits : List CPLiteral} :
    ∀ {es : List CPExpr} {rs : List Residual} {ws : Nat → CPWorld} (r₀ : Residual),
      FoldChain vs e2 r₀.2 lits es rs →
      (∀ (i : Nat) e r, es[i]? = some e → rs[i]? = some r →
        Leaves env so e (ws i) r (ws (i + 1))) →
      LeavesIter env so vs e2 lits (some r₀) (ws 0) rs (some (rs.getLastD r₀)) (ws rs.length) := by
  induction lits with
  | nil =>
      intro es rs ws r₀ hchain h
      match es, rs, hchain with
      | [], [], _ => rfl
  | cons l ls ih =>
      intro es rs ws r₀ hchain h
      match es, rs, hchain, h with
      | e :: es, r :: rs, ⟨he, hchain⟩, h =>
          have hrest := @ih es rs (fun i => ws (i + 1)) r hchain
            (fun i e r he hr => h (i + 1) e r he hr)
          unfold LeavesIter at hrest ⊢
          have hr := h 0 e r rfl rfl
          simp only [pevalIter, Option.map_some, he, Comp.ofExcept, pure_bind,
            Comp.run_bind_ok hr, Comp.run_bind_ok hrest, List.getLastD_cons]
          rfl

theorem leavesSubjects_of_getElem {ms : List (CPExpr × Pattern)}
    {rs : List (Residual × Option (List (String × CPLiteral)))} {ws : Nat → CPWorld}
    (hlen : ms.length = rs.length)
    (h : ∀ (i : Nat) m q, ms[i]? = some m → rs[i]? = some q →
      Leaves env so m.1 (ws i) q.1 (ws (i + 1)))
    (hrs : List.Forall₂ (fun m q => pevalSubject env.platform m.2 q.1 = pure q) ms rs) :
    LeavesSubjects env so ms (ws 0) rs (ws ms.length) := by
  refine run_traverse_of_getElem hlen (fun i m q hm hq => ?_)
  have hsubject : pevalSubject env.platform m.2 q.1 = pure q := by
    obtain ⟨h₁, rfl⟩ := List.getElem?_eq_some_iff.mp hm
    obtain ⟨h₂, rfl⟩ := List.getElem?_eq_some_iff.mp hq
    exact (List.forall₂_iff_get.mp hrs).2 i h₁ h₂
  rw [Comp.run_bind_ok (h i m q hm hq), hsubject]
  rfl

end

/-! ## Derivations are runs -/

section

variable {env : Env CPFlatLiteral} {V : View}

theorem Faithful.leaves {A : Asg} {so : Bool} {e : CPExpr} {w w' : CPWorld} {r : Residual}
    (h : Faithful env V A so e w r w') : Leaves env so e w r w' := by
  induction h with
  | weaken h hA ih => exact ih
  | pointwise hrun h ih => exact hrun
  | idle hrun h => exact hrun
  | unapplied hrun he hr h => exact hrun
  | var | bvar | litExpr | listNil => exact leaves_iff.mpr rfl
  | @blockNil P so b w hb =>
      rw [leaves_iff]
      cases b with
      | list => exact absurd rfl hb
      | _ => rfl
  | closure h used ih => exact ih.closure used
  | returnExpr h ih => exact ih.returnExpr
  | prefixReturn h ih => exact ih.prefixExpr rfl
  | prefixStatic h hr ih =>
      refine ih.prefixExpr ?_
      simp only [pevalPrefix, liftStatic, hr, EvalM.lift, map_pure]
  | prefixDynamic h ih => exact ih.prefixExpr rfl
  | infixKeep h1 h2 hz ih1 ih2 => exact ih1.infixExpr ih2 hz
  | infixStatic h1 h2 hl ih1 ih2 =>
      refine ih1.infixExpr ih2 ?_
      simp only [pevalInfix, Expr.isReturn, Bool.false_eq_true, if_false, liftStatic, hl,
        EvalM.lift, map_pure]
  | infixLeft h1 h2 hz ok ih1 => exact ih1.infixExpr h2 hz
  | infixRight h1 h2 hz ok ih2 => exact h1.infixExpr ih2 hz
  | infixCompared h1 h2 hz ok => exact h1.infixExpr h2 hz
  | blockLast h last ih => exact ih.blockLast last
  | blockStatic h hx hes drop hrest ih => exact h.blockStatic hx hes ih
  | blockDynamic h hx hes hrest ih ihrest => exact ih.blockDynamic hx hes ihrest
  | elements hb hes hlen h first last hls ih =>
      subst first last
      refine Leaves.elements hb hes (run_traverse_of_getElem hlen ih) ?_
      simp only [pevalList, (noReturns_of_literals hls).find, hls, literalVector_map,
        Comp.ofExcept, pure_bind]
  | elementsReturn hb hpre noRet h hr hpost drop quiet ih =>
      refine Leaves.elements hb (by simp) (run_traverse_middle hpre ih hpost) ?_
      simp only [pevalList, noRet.find_middle hr]
  | letDead hbody hfree happ h drop binds ih => exact .letDead hbody hfree happ ih
  | letReturn live h ih => exact ih.letReturn live
  | letStatic live h1 hbind h ih1 ih => exact ih1.letStatic live hbind ih
  | letDynamic live h1 hr h2 ih1 ih2 => exact ih1.letDynamic live hr ih2
  | iterReturn h ih => exact ih.iterReturn
  | iterDynamic h1 hr h2 ih1 ih2 => exact ih1.iterDynamic hr ih2
  | foldDynamic h1 hr h2 ha ih1 ih2 iha => exact ih1.foldDynamic hr ih2 iha
  | iterElementReturn h1 hes hpre noRet h hr hpost drop quiet ih1 ih =>
      have hall : LeavesAll _ _ _ _ _ _ := run_traverse_middle hpre ih hpost
      refine ih1.iterElements (hall.iterations hes) ?_
      simp only [finishPevalIter, noRet.find_middle hr]
  | iterStatic h1 hiter noRet static hop hl drop ih1 =>
      refine ih1.iterElements hiter ?_
      simp only [finishPevalIter, noRet.find, if_neg hop, static, if_true, hl, Comp.ofExcept,
        pure_bind]
  | @iterKeep P so op vs e1 e2 lits w w₁ rs last w' h1 hiter noRet dynamic hop agree ih1 =>
      refine ih1.iterElements hiter ?_
      simp only [finishPevalIter, noRet.find, if_neg hop, dynamic, Bool.false_eq_true, if_false]
      cases last <;> rfl
  | foldAccDynamic h1 ha agree ih1 iha => exact ih1.foldAccDynamic iha
  | foldNil h1 ha noRet ih1 iha => exact ih1.fold iha rfl rfl
  | fold h1 ha chain hrs first next h hpost answer hlast putIn returns ih1 ih =>
      subst first next
      exact ih1.fold ha ((chain.leaves (true, _) hrs).append hpost) answer
  | ifReturn h ih => exact ih.ifReturn
  | ifTrue h hl ht ih iht => exact ih.ifTrue hl iht
  | ifFalse h hl ha ih iha => exact ih.ifFalse hl iha
  | ifFalseNone h hl ih => exact ih.ifFalse hl rfl
  | ifDynamicNone h hr ht ih iht => exact ih.ifDynamicNone hr iht
  | @ifDynamic P so c t a w c' w₁ b t' w₂ b' a' w' h hr ht ha hne ih iht iha =>
      have hres : residualIf c' (b, t') (some a') = (false, .ifExpr c' t' (some a')) := by
        simp only [residualIf, hne, Bool.false_eq_true, if_false]
      exact hres ▸ ih.ifDynamic hr iht iha
  | @ifEqual P so c t a w c' w₁ b t' w₂ b' a' w' h hr ht ha heq drop bools same iht iha =>
      have hres : residualIf c' (b, t') (some a') = (b, t') := by
        simp only [residualIf, heq, if_true]
      exact hres ▸ h.ifDynamic hr iht iha
  | ifSomeReturn h ih => exact ih.ifSomeReturn
  | ifSomeTaken h happ ht ih iht => exact ih.ifSomeTaken happ iht
  | ifSomeFailed h hls ha ih iha => exact ih.ifSomeFailed hls iha
  | ifSomeFailedNone h hls ih => exact ih.ifSomeFailed hls rfl
  | ifSomeDynamicNone h hr hc ih ihc => exact ih.ifSomeDynamicNone hr ihc
  | @ifSomeDynamic P so e v c a w e' w₁ b c' w₂ b' a' w' h hr hc ha hne ih ihc iha =>
      refine ih.ifSomeDynamic hr ihc iha ?_
      unfold residualIfSome
      rcases hne with hne | hne
      · simp [hne]
      · split_ifs
        · show (if (c'.subst 0 (.litExpr .unit) true == a') = true then _ else _) = _
          rw [hne]
          rfl
        · rfl
  | @ifSomeEqual P so e v c a w e' w₁ b c' w₂ b' a' w' h hr hc ha hfree heq drop options same
      ihc iha =>
      refine h.ifSomeDynamic hr ihc iha ?_
      simp only [residualIfSome, hfree, if_true]
      show (if (c'.subst 0 (.litExpr .unit) true == a') = true then _ else _) = _
      rw [heq]
      rfl
  | matchKeep hrs dynamic agree => exact .matchKeep hrs dynamic
  | @matchReturn P so vs pre m post t a w rpre w₁ b r w₂ rpost w' hpre noRet h hpost static drop
      quiet ih =>
      have hsubject : (do pevalSubject env.platform m.2 (← peval env so m.1)).run w₁ =
          some (.ok ((b, .returnExpr r), none), w₂) := by
        rw [Comp.run_bind_ok ih]
        rfl
      refine Leaves.matchReturn (r := (b, .returnExpr r))
        (run_traverse_middle hpre hsubject hpost) static ?_
      rw [List.map_append, List.map_cons]
      exact noRet.find_middle rfl
  | matchFailed hlen h first next hrs hls hcaps ha shape ih iha =>
      subst first next
      obtain ⟨static, noRet⟩ := static_subjects hls
      exact .matchFailed (leavesSubjects_of_getElem hlen ih hrs) static noRet hcaps iha shape
  | matchFailedNone hlen h first last hrs hls hcaps ih =>
      subst first last
      obtain ⟨static, noRet⟩ := static_subjects hls
      exact .matchFailedNone (leavesSubjects_of_getElem hlen ih hrs) static noRet hcaps
  | matchTaken hlen h first next hrs hls hcaps happ ht shape ih iht =>
      subst first next
      obtain ⟨static, noRet⟩ := static_subjects hls
      exact .matchTaken (leavesSubjects_of_getElem hlen ih hrs) static noRet hcaps happ iht shape
  | callReturn hpre noRet h hr hpost drop quiet ih =>
      exact .callReturn (run_traverse_middle hpre ih hpost) (noRet.find_middle hr)
  | callUser hrs noRet hf happ he inlines ihe => exact .callUser hrs noRet hf happ ihe
  | callBuiltin hlen h first next static hls hf hb hl constant ih =>
      subst first next
      exact .callBuiltin (run_traverse_of_getElem hlen ih) static hls hf hb hl
  | callKeep hrs noRet static hf hb hs agree => exact .callKeep hrs noRet static hf hb hs
  | callDynamic hlen h first last noRet dynamic hf agree ih =>
      subst first last
      exact .callDynamic (run_traverse_of_getElem hlen ih) noRet dynamic hf

end

end Armour.Control
