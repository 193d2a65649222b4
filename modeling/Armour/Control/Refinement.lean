import Armour.Control.Elements
import Armour.Control.Operators
import Armour.Control.Residuals

/-! # Residuals that refine their expressions

`Refines`: what the judgement promises.  There is a rule for each branch of the specializer;
those for operators, blocks, bindings and iterators are here.
-/

namespace Armour.Control

open Armour.Lib Armour.Lang

/-- What the judgement promises of an expression and its residual. -/
def Refines (env : Env CPFlatLiteral) (V : View) (A : Asg) (e e' : CPExpr) : Prop :=
  ∀ os ρ s t, A os ρ s t → V.worlds.r s t →
    V.Sim (runApp env ρ e ⟨os, none⟩) s (runApp env ρ e' ⟨os, none⟩) t

section

variable {env : Env CPFlatLiteral} {V : View} {P : Pre} {ρ : List CPOutcome} {s t : CPWorld}

theorem Refines.run {e e' : CPExpr} (h : Refines env V (.here P) e e') (hP : P ρ s t)
    (hR : V.worlds.r s t) : V.Sim (Lang.run env ρ e) s (Lang.run env ρ e') t :=
  h [] ρ s t ⟨rfl, hP⟩ hR

theorem Refines.of_run {e e' : CPExpr}
    (h : ∀ ρ s t, P ρ s t → V.worlds.r s t →
      V.Sim (Lang.run env ρ e) s (Lang.run env ρ e') t) :
    Refines env V (.here P) e e' := by
  rintro os ρ s t ⟨rfl, hP⟩ hR
  exact h ρ s t hP hR

theorem Refines.run_lit {e : CPExpr} {l : CPLiteral} (h : Refines env V (.here P) e (.litExpr l))
    (hP : P ρ s t) (hR : V.worlds.r s t) : V.Skips (· = .lit l) (Lang.run env ρ e) s t := by
  have h := h.run hP hR
  rw [run_litExpr] at h
  exact h.skips

/-! ## First parts -/

/-- Applied to the same arguments, of which only complete ones matter. -/
theorem runApp_sim {e e' : CPExpr} (a : Args CPFlatLiteral) (hR : V.worlds.r s t)
    (h : ∀ os, a = ⟨os, none⟩ →
      V.Sim (runApp env ρ e ⟨os, none⟩) s (runApp env ρ e' ⟨os, none⟩) t) :
    V.Sim (runApp env ρ e a) s (runApp env ρ e' a) t := by
  obtain ⟨os, err⟩ := a
  cases err with
  | none => exact h os rfl
  | some err =>
      obtain ⟨err₁, h₁⟩ := throw_of_apply_fail (⟨os, some err⟩ : Args CPFlatLiteral) e (by simp)
      obtain ⟨err₂, h₂⟩ := throw_of_apply_fail (⟨os, some err⟩ : Args CPFlatLiteral) e' (by simp)
      rw [runApp, runApp, h₁, h₂]
      exact .throw hR

/-- A first part whose return passes through. -/
theorem bind_return {β : Type} {Q : β → CPOutcome → Prop} {m : CPEvalM CPOutcome} {r : CPExpr}
    (h : V.Sim m s (Lang.run env ρ (.returnExpr r)) t) {k : CPOutcome → CPEvalM β}
    (hk : ∀ q, ∃ b, k (.ret q) = pure b ∧ Q b (.ret q)) :
    Comp.Sim V.worlds.r V.strict Q (m >>= k) s (Lang.run env ρ (.returnExpr r)) t := by
  refine h.bind_value (fun o o' s₁ t₁ _ ht hR ho => ?_)
  obtain ⟨q, rfl⟩ := eq_ret_of_run ht
  obtain ⟨b, hb, hQ⟩ := hk q
  rw [ho, hb]
  exact .pure hR hQ

/-- A first part that is simulated. -/
theorem onLiteral_sim {m m' : CPEvalM CPOutcome} (h : V.Sim m s m' t)
    {k k' : CPLiteral → CPEvalM CPOutcome}
    (hk : ∀ l s₁ t₁, m.run s = some (.ok (.lit l), s₁) → m'.run t = some (.ok (.lit l), t₁) →
      V.worlds.r s₁ t₁ → V.Sim (k l) s₁ (k' l) t₁) :
    V.Sim (do onLiteral (← m) k) s (do onLiteral (← m') k') t := by
  refine h.bind (fun o o' s₁ t₁ hs ht hR ho => ?_)
  subst ho
  cases o with
  | ret o => exact .pure hR rfl
  | lit l => exact hk l s₁ t₁ hs ht hR

/-- A first part with a known literal. -/
theorem onLiteral_lit {m m' : CPEvalM CPOutcome} {l : CPLiteral}
    (h : V.Skips (· = .lit l) m s t) {k : CPLiteral → CPEvalM CPOutcome}
    (hk : ∀ s₁, m.run s = some (.ok (.lit l), s₁) → V.worlds.r s₁ t → V.Sim (k l) s₁ m' t) :
    V.Sim (do onLiteral (← m) k) s m' t := by
  refine .drop h (fun o s₁ hs hR ho => ?_)
  subst ho
  exact hk s₁ hs hR

/-- A first part that is dropped. -/
theorem onLiteral_drop {m m' : CPEvalM CPOutcome}
    (h : V.Skips (fun o => o.isReturn = false) m s t) {k : CPLiteral → CPEvalM CPOutcome}
    (hk : ∀ l s₁, m.run s = some (.ok (.lit l), s₁) → V.worlds.r s₁ t → V.Sim (k l) s₁ m' t) :
    V.Sim (do onLiteral (← m) k) s m' t := by
  refine .drop h (fun o s₁ hs hR ho => ?_)
  obtain ⟨l, rfl⟩ := eq_lit_of_not_return ho
  exact hk l s₁ hs hR

/-! ## Blocks -/

theorem run_block_cons (e : CPExpr) {es : List CPExpr} (hes : es ≠ []) :
    Lang.run env ρ (.blockExpr .block (e :: es)) = (do
      let r ← Lang.run env ρ e
      if r.isReturn then pure r else Lang.run env ρ (.blockExpr .block es)) := by
  cases es with
  | nil => exact absurd rfl hes
  | cons e' es => rw [run_block, run_block]; rfl

theorem run_consBlock (x : CPExpr) {rest : CPExpr} (form : BlockForm rest) :
    Lang.run env ρ (consBlock x rest) = (do
      let r ← Lang.run env ρ x
      if r.isReturn then pure r else Lang.run env ρ rest) := by
  have hpair : ∀ e : CPExpr, Lang.run env ρ (.blockExpr .block [x, e]) = (do
      let r ← Lang.run env ρ x
      if r.isReturn then pure r else Lang.run env ρ e) := by
    intro e
    rw [run_block_cons x (by simp), run_block ρ [e]]
    rfl
  cases rest with
  | blockExpr k rs =>
      obtain ⟨rfl, hrs⟩ := form
      exact run_block_cons x hrs
  | _ => exact hpair _

theorem seq_sim {m m' n n' : CPEvalM CPOutcome} (h : V.Sim m s m' t)
    (hn : ∀ o s₁ t₁, m.run s = some (.ok o, s₁) → m'.run t = some (.ok o, t₁) →
      V.worlds.r s₁ t₁ → o.isReturn = false → V.Sim n s₁ n' t₁) :
    V.Sim (do let r ← m; if r.isReturn then pure r else n) s
      (do let r ← m'; if r.isReturn then pure r else n') t := by
  refine h.bind (fun o o' s₁ t₁ hs ht hR ho => ?_)
  subst ho
  split_ifs with hr
  · exact .pure hR rfl
  · exact hn o s₁ t₁ hs ht hR (Bool.not_eq_true _ ▸ hr)

/-! ## `let` -/

/-- The body of nested closures on as many literals. -/
theorem runApp_atDepth {e : CPExpr} {n : Nat} {body : CPExpr} (h : e.atDepth n = some body)
    {ls : List CPLiteral} (hlen : ls.length = n) (ρ : List CPOutcome) :
    runApp env ρ e (.ofLits ls) = Lang.run env ((ls.map Outcome.lit).reverse ++ ρ) body := by
  induction ls generalizing e n ρ with
  | nil =>
      subst hlen
      have hbody : e = body := by
        cases e <;> cases h <;> rfl
      rw [hbody]
      rfl
  | cons l ls ih =>
      subst hlen
      cases e with
      | closure x e =>
          have h : e.atDepth ls.length = some body := h
          show runApp env ρ (.closure x e) ((Args.ofLits ls).cons (.lit l)) = _
          rw [runApp_closure, ih h rfl, List.map_cons, List.reverse_cons, List.append_assoc]
          rfl
      | _ => cases h

theorem letDead_sim {vs : List String} {e2 body e : CPExpr}
    (hbody : e2.atDepth vs.length = some body)
    (hfree : (List.range vs.length).all body.isFree = true)
    (happ : applyAll e2 (List.replicate vs.length (.litExpr .unit)) = .ok e)
    {ls : List CPLiteral} (hlen : ls.length = vs.length) :
    runApp env ρ e2 (.ofLits ls) = Lang.run env ρ e := by
  have hunits : runApp env ρ e2 (.ofLits (List.replicate vs.length .unit)) = Lang.run env ρ e := by
    rw [runApp, Args.apply_ofLits, List.map_replicate, happ]
    rfl
  rw [← hunits, runApp_atDepth hbody hlen, runApp_atDepth hbody List.length_replicate]
  have hlen' : ((ls.map Outcome.lit).reverse : List CPOutcome).length =
      (((List.replicate vs.length Literal.unit).map Outcome.lit).reverse : List CPOutcome).length := by
    simp [hlen]
  refine run_unused ρ hlen' body (fun u hu => ?_)
  have hu : u < vs.length := by simpa using hu
  exact List.all_eq_true.mp hfree u (List.mem_range.mpr hu)

end

/-! ## A rule for each branch -/

section

variable {env : Env CPFlatLiteral} {V : View} {A : Asg} {P : Pre}

theorem prefixOp_still {pf : Platform} (p : Prefix) (o : CPOutcome) :
    (prefixOp pf p o : CPEvalM CPOutcome).Still := by
  cases o with
  | ret o => exact .pure _
  | lit l => exact (lift_still _ _).map _

namespace Refines

theorem unapplied {e e' : CPExpr} (he : e.isClosure = false) (he' : e'.isClosure = false)
    (h : ∀ os ρ s t, A os ρ s t → os ≠ []) : Refines env V A e e' := by
  intro os ρ s t hA hR
  cases os with
  | nil => exact absurd rfl (h [] ρ s t hA)
  | cons o os =>
      have hcons : (⟨o :: os, none⟩ : Args CPFlatLiteral) = Args.cons o ⟨os, none⟩ := rfl
      rw [hcons, runApp_of_not_closure env ρ (Expr.ne_closure he),
        runApp_of_not_closure env ρ (Expr.ne_closure he')]
      exact .throw hR

theorem closure {x : String} {e e' : CPExpr} (h : Refines env V (Asg.enter A) e e') :
    Refines env V A (.closure x e) (.closure x e') := by
  intro os ρ s t hA hR
  cases os with
  | nil =>
      rw [runApp_nil, runApp_nil, run_closure, run_closure]
      exact .throw hR
  | cons o os =>
      have h := h os (o :: ρ) s t ⟨o, ρ, rfl, hA⟩ hR
      have hcons : (⟨o :: os, none⟩ : Args CPFlatLiteral) = Args.cons o ⟨os, none⟩ := rfl
      rw [hcons, runApp_closure, runApp_closure]
      exact h

theorem returnExpr {e e' : CPExpr} (h : Refines env V (.here P) e e') :
    Refines env V (.here P) (.returnExpr e) (.returnExpr e') := by
  refine .of_run (fun ρ s t hP hR => ?_)
  rw [run_returnExpr, run_returnExpr]
  exact (h.run hP hR).map (fun _ _ ho => congrArg Outcome.ret ho)

theorem prefixReturn {p : Prefix} {e r : CPExpr} (h : Refines env V (.here P) e (.returnExpr r)) :
    Refines env V (.here P) (.prefixExpr p e) (.returnExpr r) := by
  refine .of_run (fun ρ s t hP hR => ?_)
  rw [run_prefixExpr]
  exact bind_return (h.run hP hR) (fun _ => ⟨_, rfl, rfl⟩)

theorem prefixStatic {p : Prefix} {e : CPExpr} {l r : CPLiteral}
    (h : Refines env V (.here P) e (.litExpr l))
    (hr : l.evalPrefix env.platform p = .ok (some r)) :
    Refines env V (.here P) (.prefixExpr p e) (.litExpr r) := by
  refine .of_run (fun ρ s t hP hR => ?_)
  rw [run_prefixExpr, run_litExpr]
  refine .drop (h.run_lit hP hR) (fun o _ _ hR ho => ?_)
  subst ho
  simp only [prefixOp, hr]
  exact .pure hR rfl

theorem prefixDynamic {p : Prefix} {e e' : CPExpr} (h : Refines env V (.here P) e e') :
    Refines env V (.here P) (.prefixExpr p e) (.prefixExpr p e') := by
  refine .of_run (fun ρ s t hP hR => ?_)
  rw [run_prefixExpr, run_prefixExpr]
  exact (h.run hP hR).bind (fun o o' _ _ _ _ hR ho => ho ▸ (prefixOp_still p o).sim hR)

theorem infixKeep {op : Infix} {e1 e2 x y : CPExpr} (h1 : Refines env V (.here P) e1 x)
    (h2 : Refines env V (.here (given (P.both (sem env e1) (sem env x)) (ReachesRight op))) e2 y) :
    Refines env V (.here P) (.infixExpr op e1 e2) (.infixExpr op x y) := by
  refine .of_run (fun ρ s t hP hR => ?_)
  rw [run_infixExpr, run_infixExpr]
  exact infixKeep_sim op (h1.run hP hR)
    (fun o s₁ t₁ hs ht hR hop => h2.run ⟨o, hop, s, t, hP, hs, ht⟩ hR)

theorem infixStatic {op : Infix} {e1 e2 : CPExpr} {l1 l2 l : CPLiteral}
    (h1 : Refines env V (.here P) e1 (.litExpr l1))
    (h2 : Refines env V (.here (given (P.past (sem env e1)) (ReachesRight op))) e2 (.litExpr l2))
    (hl : l1.evalInfix env.platform op l2 = .ok (some l)) :
    Refines env V (.here P) (.infixExpr op e1 e2) (.litExpr l) := by
  refine .of_run (fun ρ s t hP hR => ?_)
  rw [run_infixExpr, run_litExpr]
  exact infixStatic_sim (h1.run_lit hP hR)
    (fun o s₁ hs hR hop => h2.run_lit ⟨o, hop, s, hP, hs⟩ hR) hl

theorem infixLeft {op : Infix} {e1 e2 x : CPExpr} (h1 : Refines env V (.here P) e1 x)
    (ok : LeftStands env V P op e1 e2 x) : Refines env V (.here P) (.infixExpr op e1 e2) x :=
  .of_run (fun _ _ _ hP hR => ok.sim hP (h1.run hP hR))

theorem infixRight {op : Infix} {e1 e2 y : CPExpr}
    (h2 : Refines env V (.here (after (P.past (sem env e1)))) e2 y)
    (ok : RightStands env V P op e1 e2) : Refines env V (.here P) (.infixExpr op e1 e2) y :=
  .of_run (fun _ _ _ hP _ => ok.sim hP (fun _ hafter hR => h2.run hafter hR))

theorem infixCompared {op : Infix} {e1 e2 : CPExpr} (ok : AlwaysTrue env V P op e1 e2) :
    Refines env V (.here P) (.infixExpr op e1 e2) (.litExpr (.bool true)) :=
  .of_run (fun _ _ _ hP _ => ok.sim hP)

/-! ### Blocks -/

theorem listNil : Refines env V (.here P) (.blockExpr .list []) (.litExpr (.list [])) := by
  refine .of_run (fun ρ s t _ hR => ?_)
  rw [run_list _ _ (by simp) _ (Or.inr rfl), run_litExpr]
  exact .pure hR rfl

theorem blockNil {b : Block} (hb : b ≠ .list) :
    Refines env V (.here P) (.blockExpr b []) (.litExpr .unit) := by
  refine .of_run (fun ρ s t _ hR => ?_)
  rw [run_eq _ _ (by simp) (by simp), run_litExpr]
  cases b with
  | list => exact absurd rfl hb
  | _ => exact .pure hR rfl

theorem blockLast {e e' : CPExpr} {es : List CPExpr} (h : Refines env V (.here P) e e')
    (last : e'.isReturn = true ∨ es = []) :
    Refines env V (.here P) (.blockExpr .block (e :: es)) e' := by
  refine .of_run (fun ρ s t hP hR => ?_)
  by_cases hes : es = []
  · subst hes
    rw [run_block]
    exact h.run hP hR
  · obtain ⟨r, rfl⟩ := eq_returnExpr (last.resolve_right hes)
    rw [run_block_cons e hes]
    exact bind_return (h.run hP hR) (fun _ => ⟨_, rfl, rfl⟩)

theorem blockStatic {e r : CPExpr} {es : List CPExpr} (hes : es ≠ []) (drop : Droppable V P env e)
    (hrest : Refines env V (.here (after (P.past (sem env e)))) (.blockExpr .block es) r) :
    Refines env V (.here P) (.blockExpr .block (e :: es)) r := by
  refine .of_run (fun ρ s t hP hR => ?_)
  rw [run_block_cons _ hes]
  refine .drop (drop ρ s t hP) (fun o s₁ hs hR ho => ?_)
  simp only [ho]
  exact hrest.run ⟨o, s, hP, hs⟩ hR

theorem blockDynamic {e x rest : CPExpr} {es : List CPExpr} (hes : es ≠ [])
    (h : Refines env V (.here P) e x)
    (hrest : Refines env V (.here (given (P.both (sem env e) (sem env x))
      (fun o => o.isReturn = false))) (.blockExpr .block es) rest) (form : BlockForm rest) :
    Refines env V (.here P) (.blockExpr .block (e :: es)) (consBlock x rest) := by
  refine .of_run (fun ρ s t hP hR => ?_)
  rw [run_block_cons _ hes, run_consBlock _ form]
  exact seq_sim (h.run hP hR) (fun o s₁ t₁ hs ht hR hr => hrest.run ⟨o, hr, s, t, hP, hs, ht⟩ hR)

theorem elements {b : Block} {es : List CPExpr} {rs : List Residual} {ls : List CPLiteral}
    (hb : b ≠ .block) (hes : es ≠ []) (hlen : es.length = rs.length)
    (h : ∀ (i : Nat) e (r : Residual), es[i]? = some e → rs[i]? = some r →
      Refines env V (.here (after (P.past (sems env (es.take i))))) e r.2)
    (hls : rs.map Prod.snd = ls.map .litExpr) :
    Refines env V (.here P) (.blockExpr b es)
      (.litExpr (if b = .list then .list ls else .tuple ls)) := by
  refine .of_run (fun ρ s t hP hR => ?_)
  rw [run_list _ _ hb _ (Or.inl hes), run_litExpr]
  refine .drop (elements_skip hP hR hlen (fun i e r he hr _ => (h i e r he hr).run) hls)
    (fun os _ _ hR hos => ?_)
  subst hos
  rw [onLiterals, literals_lits]
  exact .pure hR rfl

theorem elementsReturn {b : Block} {pre post : List CPExpr} {e : CPExpr} {r : Residual}
    (hb : b ≠ .block) (h : Refines env V (.here (after (P.past (sems env pre)))) e r.2)
    (hr : r.isReturn = true) (drop : Skipped V P (sems env pre) NoneReturns)
    (quiet : Skipped V (after ((after (P.past (sems env pre))).both (sem env e) (sem env r.2)))
      (sems env post) (fun _ => True)) :
    Refines env V (.here P) (.blockExpr b (pre ++ e :: post)) r.2 := by
  refine .of_run (fun ρ s t hP _ => ?_)
  rw [run_list _ _ hb _ (Or.inl (by simp))]
  exact elementReturn_sim hP hr drop (fun _ => h.run) quiet (fun _ _ hq => onLiterals_error hq _)

/-! ### `let` -/

theorem letDead {vs : List String} {e1 e2 body e r : CPExpr}
    (hbody : e2.atDepth vs.length = some body)
    (hfree : (List.range vs.length).all body.isFree = true)
    (happ : applyAll e2 (List.replicate vs.length (.litExpr .unit)) = .ok e)
    (h : Refines env V (.here (after (P.past (sem env e1)))) e r)
    (drop : Droppable V P env e1) (binds : Binds env V P vs e1 e2) :
    Refines env V (.here P) (.letExpr vs e1 e2) r := by
  refine .of_run (fun ρ s t hP hR => ?_)
  rw [run_letExpr]
  refine onLiteral_drop (drop ρ s t hP) (fun l s₁ hs hR => ?_)
  rcases binds l with ⟨ls, hls, hlen⟩ | hnever
  · rw [hls, letDead_sim hbody hfree happ hlen]
    exact h.run ⟨_, s, hP, hs⟩ hR
  · exact .of_never (hnever ρ s₁ t ⟨s, hP, hs⟩)

theorem letReturn {vs : List String} {e1 e2 r : CPExpr}
    (h : Refines env V (.here P) e1 (.returnExpr r)) :
    Refines env V (.here P) (.letExpr vs e1 e2) (.returnExpr r) := by
  refine .of_run (fun ρ s t hP hR => ?_)
  rw [run_letExpr]
  exact bind_return (h.run hP hR) (fun _ => ⟨_, rfl, rfl⟩)

theorem letStatic {vs : List String} {e1 e2 e r : CPExpr} {l : CPLiteral}
    (h1 : Refines env V (.here P) e1 (.litExpr l)) (hbind : bindLet "peval" vs l e2 = .ok e)
    (h : Refines env V (.here (after (P.past (sem env e1)))) e r) :
    Refines env V (.here P) (.letExpr vs e1 e2) r := by
  refine .of_run (fun ρ s t hP hR => ?_)
  have hbind := bindLet_who "eval" hbind
  rw [bindLet_eq] at hbind
  rw [run_letExpr]
  refine onLiteral_lit (h1.run_lit hP hR) (fun s₁ hs hR => ?_)
  rw [runApp, hbind]
  exact h.run ⟨_, s, hP, hs⟩ hR

theorem letDynamic {vs : List String} {e1 e2 e1' e2' : CPExpr}
    (h1 : Refines env V (.here P) e1 e1')
    (h2 : Refines env V (letAsg (P.both (sem env e1) (sem env e1')) vs) e2 e2') :
    Refines env V (.here P) (.letExpr vs e1 e2) (.letExpr vs e1' e2') := by
  refine .of_run (fun ρ s t hP hR => ?_)
  rw [run_letExpr, run_letExpr]
  refine onLiteral_sim (h1.run hP hR) (fun l s₁ t₁ hs ht hR => ?_)
  exact runApp_sim _ hR (fun os hos => h2 os ρ s₁ t₁ ⟨l, ⟨s, t, hP, hs, ht⟩, hos⟩ hR)

/-! ### Iterators -/

section

variable {op : Iter} {vs : List String} {e1 e2 e1' e2' : CPExpr}

theorem iterReturn {acc : Option (String × CPExpr)} {r : CPExpr}
    (h : Refines env V (.here P) e1 (.returnExpr r)) :
    Refines env V (.here P) (.iter op vs e1 e2 acc) (.returnExpr r) := by
  refine .of_run (fun ρ s t hP hR => ?_)
  rw [run_iter]
  exact bind_return (h.run hP hR) (fun _ => ⟨_, rfl, rfl⟩)

theorem iterDynamic (h1 : Refines env V (.here P) e1 e1')
    (h2 : Refines env V (iterAsg env (P.both (sem env e1) (sem env e1')) vs e2 e2' none none) e2
      e2') :
    Refines env V (.here P) (.iter op vs e1 e2 none) (.iter op vs e1' e2' none) := by
  refine .of_run (fun ρ s t hP hR => ?_)
  rw [run_iter, run_iter]
  refine onLiteral_sim (h1.run hP hR) (fun l s₁ t₁ hs ht hR => ?_)
  refine iterSem_sim hR (fun _ _ => .pure hR rfl)
    (fun pre x post a₀ p s₂ t₂ s₃ t₃ hl ha ha' hp hp' hR => runApp_sim _ hR (fun os hos => ?_))
  subst hl
  exact h2 os ρ s₃ t₃
    ⟨pre, x, post, a₀, p, ⟨s₂, t₂, ⟨s₁, t₁, ⟨s, t, hP, hs, ht⟩, ha, ha'⟩, hp, hp'⟩, hos⟩ hR

theorem foldDynamic {x : String} {a a' : CPExpr} (h1 : Refines env V (.here P) e1 e1')
    (h2 : Refines env V
      (iterAsg env (P.both (sem env e1) (sem env e1')) vs e2 e2' (some a) (some a')) e2 e2')
    (ha : Refines env V (.here (given (P.both (sem env e1) (sem env e1'))
      (fun o => ∃ ls, o = .lit (.list ls)))) a a') :
    Refines env V (.here P) (.iter op vs e1 e2 (some (x, a)))
      (.iter op vs e1' e2' (some (x, a'))) := by
  refine .of_run (fun ρ s t hP hR => ?_)
  rw [run_iter, run_iter]
  refine onLiteral_sim (h1.run hP hR) (fun l s₁ t₁ hs ht hR => ?_)
  refine iterSem_sim hR (fun ls hl => ?_)
    (fun pre y post a₀ p s₂ t₂ s₃ t₃ hl ha ha' hp hp' hR => runApp_sim _ hR (fun os hos => ?_))
  · subst hl
    have hacc := ha.run ⟨_, ⟨ls, rfl⟩, s, t, hP, hs, ht⟩ hR
    exact hacc.map (fun _ _ ho => congrArg some ho)
  · subst hl
    exact h2 os ρ s₃ t₃
      ⟨pre, y, post, a₀, p, ⟨s₂, t₂, ⟨s₁, t₁, ⟨s, t, hP, hs, ht⟩, ha, ha'⟩, hp, hp'⟩, hos⟩ hR

theorem foldNil (h1 : Refines env V (.here P) e1 (.litExpr (.list []))) {x : String}
    {a a' : CPExpr} (ha : Refines env V (.here (after (P.past (sem env e1)))) a a')
    (noRet : V.strict = true → ∀ o ρ s t,
      (after (P.past (sem env e1))).past (sem env a) o ρ s t → o.isReturn = false) :
    Refines env V (.here P) (.iter .fold vs e1 e2 (some (x, a))) a' := by
  refine .of_run (fun ρ s t hP hR => ?_)
  rw [run_iter]
  refine onLiteral_lit (h1.run_lit hP hR) (fun s₁ hs hR => ?_)
  simp only [iterSem, Option.map_some, accSem, loopSem, map_eq_pure_bind, bind_assoc, pure_bind]
  have hafter : after (P.past (sem env e1)) ρ s₁ t := ⟨_, s, hP, hs⟩
  refine (ha.run hafter hR).bind_value (fun o o' s₂ t₂ ho _ hR hoo => ?_)
  subst hoo
  cases o with
  | lit l => exact .pure hR rfl
  | ret q =>
      refine .throw_lax (fun hstrict => ?_)
      cases noRet hstrict _ ρ s₂ t ⟨s₁, hafter, ho⟩

theorem fold {l : CPLiteral} {lits post : List CPLiteral} {x : String} {a e : CPExpr}
    {r : Residual}
    (h1 : Refines env V (.here P) e1 (.litExpr (.list (l :: lits ++ post))))
    (h : Refines env V (.here (after (P.past (sem env e1)))) e r.2)
    (hlast : r.isReturn = true ∨ op = .fold ∧ post = [])
    (putIn : PutIn env V (after (P.past (sem env e1))) vs e2 a l lits e)
    (returns : ReturnsLast env V (after (P.past (sem env e1))) vs e2 a l (lits ++ post)) :
    Refines env V (.here P) (.iter op vs e1 e2 (some (x, a))) r.2 := by
  refine .of_run (fun ρ s t hP hR => ?_)
  rw [run_iter]
  refine onLiteral_lit (h1.run_lit hP hR) (fun s₁ hs hR => ?_)
  have hafter : after (P.past (sem env e1)) ρ s₁ t := ⟨_, s, hP, hs⟩
  have hret : r.isReturn = true →
      ∀ o t₁, (Lang.run env ρ r.2).run t = some (.ok o, t₁) → ∃ q, o = .ret q := by
    intro hr o t₁ ho
    obtain ⟨q, hq⟩ := eq_returnExpr hr
    rw [hq] at ho
    exact eq_ret_of_run ho
  -- Up to the first return, the iterations run as the last one that is put in.
  have hrest : V.Sim
      (do foldRest vs (runApp env ρ e2) (← firstSem env vs e2 a l ρ) (lits ++ post)) s₁
      (Lang.run env ρ r.2) t := by
    simp only [foldRest_append]
    rw [← bind_assoc]
    refine ((putIn ρ s₁ t hafter).trans (h.run hafter hR)).bind_value
      (fun o o' s₂ t₂ _ ht hR ho => ?_)
    subst ho
    cases o with
    | ret q =>
        rw [foldRest_ret]
        exact .pure hR rfl
    | lit v =>
        rcases hlast with hr | ⟨-, rfl⟩
        · obtain ⟨q, hq⟩ := hret hr _ t₂ ht
          cases hq
        · exact .pure hR rfl
  refine View.Sim.trans ?_ hrest
  -- After it, what the iterations give is not looked at.
  have hloop : Comp.Sim V.worlds.r V.strict EndsWith
      (do
        let o ← firstSem env vs e2 a l ρ
        let p ← loopSem vs (runApp env ρ e2) (lits ++ post) (some o)
        pure (o :: p.1, p.2)) s₁
      (do
        let o ← firstSem env vs e2 a l ρ
        foldRest vs (runApp env ρ e2) o (lits ++ post)) s₁ := by
    refine (Comp.Sim.refl V.refl _).bind (fun o o' s₂ t₂ ho ho' _ _ => ?_)
    cases ho.symm.trans ho'
    exact (returns o ρ s₂ t ⟨s₁, hafter, ho⟩).sim
  have hiter : iterSem op vs (runApp env ρ e2) (some (Lang.run env ρ a))
      (.list (l :: lits ++ post)) =
      (do
        let o ← firstSem env vs e2 a l ρ
        let p ← loopSem vs (runApp env ρ e2) (lits ++ post) (some o)
        pure (o :: p.1, p.2)) >>= fun p => finishIter op (l :: lits ++ post) p.1 p.2 := by
    simp only [iterSem, accSem, Option.map_some, List.cons_append, loopSem, firstSem,
      map_eq_pure_bind, bind_assoc, pure_bind]
  rw [Option.map_some, hiter]
  refine hloop.bind_value (fun p o s₂ t₂ _ ho hR hends => ?_)
  obtain ⟨_, t₃, ho', -, rfl⟩ := hrest _ _ ho
  rw [hends.finish (hlast.imp (fun hr => hret hr o t₃ ho') And.left)]
  exact .pure hR rfl

variable {lits : List CPLiteral} (h1 : Refines env V (.here P) e1 (.litExpr (.list lits)))

include h1

theorem iterElementReturn {pre post : List CPExpr} {e : CPExpr} {r : Residual}
    (hes : List.Forall₂ (fun l e => bindIter "peval" vs none l e2 = .ok e) lits
      (pre ++ e :: post))
    (h : Refines env V (.here (after ((after (P.past (sem env e1))).past (sems env pre)))) e r.2)
    (hr : r.isReturn = true)
    (drop : Skipped V (after (P.past (sem env e1))) (sems env pre) NoneReturns)
    (quiet : Skipped V (after ((after ((after (P.past (sem env e1))).past (sems env pre))).both
      (sem env e) (sem env r.2))) (sems env post) (fun _ => True)) :
    Refines env V (.here P) (.iter op vs e1 e2 none) r.2 := by
  refine .of_run (fun ρ s t hP hR => ?_)
  rw [run_iter]
  refine onLiteral_lit (h1.run_lit hP hR) (fun s₁ hs _ => ?_)
  have hafter : after (P.past (sem env e1)) ρ s₁ t := ⟨_, s, hP, hs⟩
  rw [Option.map_none, iterSem_none, traverse_bound hes]
  exact elementReturn_sim hafter hr drop (fun _ => h.run) quiet
    (fun _ _ hq => finishIter_error hq)

theorem iterStatic {l : CPLiteral}
    (drop : Skipped V (after (P.past (sem env e1)))
      (fun ρ => iterSem op vs (runApp env ρ e2) none (.list lits)) (· = .lit l)) :
    Refines env V (.here P) (.iter op vs e1 e2 none) (.litExpr l) := by
  refine .of_run (fun ρ s t hP hR => ?_)
  rw [run_iter, run_litExpr]
  refine onLiteral_lit (h1.run_lit hP hR) (fun s₁ hs _ => ?_)
  exact .of_skips (drop ρ s₁ t ⟨_, s, hP, hs⟩)

theorem iterKeep (agree : Agrees V (after (P.past (sem env e1))) (loopSems env vs e2 lits none)) :
    Refines env V (.here P) (.iter op vs e1 e2 none)
      (.iter op vs (.litExpr (.list lits)) e2 none) := by
  refine .of_run (fun ρ s t hP hR => ?_)
  rw [run_iter, run_iter, run_litExpr]
  refine onLiteral_lit (h1.run_lit hP hR) (fun s₁ hs hR => ?_)
  have hacc : V.Sim (accSem (none : Option (CPEvalM CPOutcome))) s₁ (accSem none) t := .pure hR rfl
  refine iterSem_list hacc (fun a₀ s₂ t₂ hs₂ ht₂ _ => ?_)
  cases hs₂
  cases ht₂
  exact agree ρ s₁ t ⟨_, s, hP, hs⟩

theorem foldAccDynamic {x : String} {a a' : CPExpr}
    (ha : Refines env V (.here (after (P.past (sem env e1)))) a a')
    (agree : ∀ o, Agrees V ((after (P.past (sem env e1))).both (sem env a) (sem env a') o)
      (loopSems env vs e2 lits (some o))) :
    Refines env V (.here P) (.iter op vs e1 e2 (some (x, a)))
      (.iter op vs (.litExpr (.list lits)) e2 (some (x, a'))) := by
  refine .of_run (fun ρ s t hP hR => ?_)
  rw [run_iter, run_iter, run_litExpr]
  refine onLiteral_lit (h1.run_lit hP hR) (fun s₁ hs hR => ?_)
  have hafter : after (P.past (sem env e1)) ρ s₁ t := ⟨_, s, hP, hs⟩
  refine iterSem_list ((ha.run hafter hR).map (fun _ _ ho => congrArg some ho))
    (fun a₀ s₂ t₂ hs₂ ht₂ _ => ?_)
  obtain ⟨o, _, ho, hsome⟩ := Comp.bind_eq_ok hs₂
  cases hsome
  obtain ⟨o', _, ho', hsome'⟩ := Comp.bind_eq_ok ht₂
  cases hsome'
  exact agree o ρ s₂ t₂ ⟨s₁, t, hafter, ho, ho'⟩

end

end Refines

end

end Armour.Control
