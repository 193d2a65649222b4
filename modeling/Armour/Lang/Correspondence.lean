import Armour.Lang.Embedding

/-! # Evaluation in the data plane and in another plane

A data-plane expression, run in an environment of another plane that has the same functions,
sockets and platform and whose services answer alike, does what it does in the data plane.  What
the planes have of their own, the operators and the calls, are hypotheses of the step.
-/

namespace Armour.Lang

open Armour.Lib

section

variable {FT FL : Type} [TFlatTyp FT] [TFlatLiteral FT FL]

/-! ## Results of operators -/

theorem embeds_lift {err : Error DPFlatLiteral} {err' : Error FL} {r : Checked (Option DPLiteral)}
    {r' : Checked (Option (Literal FL))} (herr : err' = err.ofDP)
    (hr : r' = r.map (Option.map .ofDP)) :
    Embeds Literal.ofDP (EvalM.lift err r) (EvalM.lift err' r') := by
  subst herr hr
  rcases r with _ | _ | l
  · exact .throw _
  · exact .throw _
  · exact .pure l

/-- Literals become outcomes. -/
theorem Embeds.lit {m : EvalM DPFlatLiteral DPLiteral} {m' : EvalM FL (Literal FL)}
    (h : Embeds .ofDP m m') : Embeds Outcome.ofDP (Outcome.lit <$> m) (Outcome.lit <$> m') :=
  h.map (fun _ => rfl)

/-! ## Matches -/

theorem performMatch_ofDP (pf : Platform) (p : Pattern) (l : DPLiteral) :
    (Literal.ofDP l : Literal FL).performMatch pf p =
      (l.performMatch pf p).map (Option.map (Option.map (List.map captureOfDP))) := by
  cases p with
  | label p =>
      unfold Literal.performMatch
      dsimp only
      rw [Literal.getLabel?_ofDP]
      cases l.getLabel? with
      | none => rfl
      | some m =>
          show Except.ok (some ((p.matchWith m).map _)) =
            Except.ok (some (((p.matchWith m).map _).map _))
          rw [Option.map_map]
          refine congrArg (fun f => Except.ok (some ((p.matchWith m).map f))) (funext fun ms => ?_)
          show _ = List.map captureOfDP (List.map _ _)
          rw [List.map_map]
          rfl
  | regex re =>
      unfold Literal.performMatch
      dsimp only
      rw [Literal.getStr?_ofDP]
      cases l.getStr? with
      | none => rfl
      | some s =>
          dsimp only
          by_cases hnames : re.pat.captureNames.isEmpty = true
          · rw [if_pos hnames, if_pos hnames]
            cases pf.regexIsMatch re.pat s <;> rfl
          · rw [if_neg hnames, if_neg hnames]
            cases pf.regexCaptures re.pat s with
            | none => rfl
            | some cap =>
                show (Literal.performMatch.collect pf cap re.pat.captureNames >>= _) =
                  (Literal.performMatch.collect pf cap re.pat.captureNames >>= _).map _
                rw [collect_ofDP]
                rcases (Literal.performMatch.collect pf cap re.pat.captureNames :
                  Checked (Option (List (String × DPLiteral)))) with _ | _ | cs <;> rfl

/-- A subject of a match and its captures. -/
def subjectOfDP (r : Outcome DPFlatLiteral × Option (List (String × DPLiteral))) :
    Outcome FL × Option (List (String × Literal FL)) :=
  (r.1.ofDP, r.2.map (List.map captureOfDP))

theorem embeds_matchSubject (pf : Platform) (p : Pattern) (o : Outcome DPFlatLiteral) :
    Embeds subjectOfDP (matchSubject "eval" pf p o)
      (matchSubject "eval" pf p (o.ofDP : Outcome FL)) := by
  cases o with
  | ret o => exact .pure _
  | lit l =>
      show Embeds _ _ (matchSubject "eval" pf p (.lit (.ofDP l)))
      unfold matchSubject
      dsimp only
      rw [performMatch_ofDP]
      rcases l.performMatch pf p with _ | _ | caps
      · exact .throw _
      · exact .throw _
      · exact .pure _

theorem get?_ofList_map {κ ν μ : Type} [LinearOrder κ] (f : ν → μ) (l : List (κ × ν)) (k : κ) :
    (BTreeMap.ofList (l.map (fun p => (p.1, f p.2)))).get? k =
      ((BTreeMap.ofList l).get? k).map f := by
  have hinsert : ∀ (l : List (κ × ν)) (m : BTreeMap κ ν) (m' : BTreeMap κ μ),
      (∀ k, m'.get? k = (m.get? k).map f) →
      ((l.map (fun p => (p.1, f p.2))).foldl (fun m p => m.insert p.1 p.2) m').get? k =
        ((l.foldl (fun m p => m.insert p.1 p.2) m).get? k).map f := by
    intro l
    induction l with
    | nil => exact fun m m' h => h k
    | cons p l ih =>
        intro m m' h
        refine ih _ _ (fun k => ?_)
        show (m'.insert p.1 (f p.2)).get? k = _
        rw [BTreeMap.get?_insert, BTreeMap.get?_insert, h]
        split <;> rfl
  exact hinsert l ∅ ∅ (fun _ => rfl)

variable (FL) in
/-- The captures of all subjects. -/
theorem allCaptures_ofDP
    (rs : List (Outcome DPFlatLiteral × Option (List (String × DPLiteral)))) :
    (allCaptures rs = none ∧
      (allCaptures (rs.map (subjectOfDP : _ → Outcome FL × _))) = none) ∨
    ∃ caps caps', allCaptures rs = some caps ∧
      allCaptures (rs.map (subjectOfDP : _ → Outcome FL × _)) = some caps' ∧
      ∀ v, caps'.get? v = (caps.get? v).map .ofDP := by
  have hany : (rs.map (subjectOfDP : _ → Outcome FL × _)).any (fun r => r.2.isNone) =
      rs.any (fun r => r.2.isNone) := by
    rw [List.any_map]
    congr 1
    funext r
    show (r.2.map _).isNone = r.2.isNone
    exact Option.isNone_map
  unfold allCaptures
  rw [hany]
  by_cases h : rs.any (fun r => r.2.isNone) = true
  · rw [if_pos h, if_pos h]
    exact Or.inl ⟨rfl, rfl⟩
  · rw [if_neg h, if_neg h]
    refine Or.inr ⟨_, _, rfl, rfl, fun v => ?_⟩
    have hpairs : (rs.map (subjectOfDP : _ → Outcome FL × _)).flatMap (fun r => r.2.getD []) =
        (rs.flatMap (fun r => r.2.getD [])).map (fun p => (p.1, Literal.ofDP p.2)) := by
      rw [List.flatMap_map, List.map_flatMap]
      congr 1
      funext r
      show (r.2.map _).getD [] = _
      cases r.2 <;> rfl
    rw [hpairs]
    exact get?_ofList_map Literal.ofDP _ v

/-! ## Metadata and services -/

theorem call_many (egressId : Label) (m : Meta) (method : String) (l l' : Literal FL)
    (ls : List (Literal FL)) : m.call egressId method (l :: l' :: ls) = none := by
  unfold Meta.call
  split
  case h_6 heq => cases heq
  case h_7 => rfl
  all_goals contradiction

theorem call_ofDP (egressId : Label) (m : Meta) (method : String) (args : List DPLiteral) :
    m.call egressId method (args.map (Literal.ofDP : DPLiteral → Literal FL)) =
      (m.call egressId method args).map (fun r => (r.1, .ofDP r.2)) := by
  have hoption : ∀ {α : Type} (f : α → DPFlatLiteral) (o : Option α),
      (Literal.ofOption (o.map (fun a => Literal.dp (f a))) : Literal FL) =
        .ofDP (.ofOption (o.map (fun a => Literal.dp (f a)))) := by
    intro α f o
    cases o <;> rfl
  rcases args with _ | ⟨l, _ | ⟨l', ls⟩⟩
  · rw [List.map_nil]
    unfold Meta.call
    split
    · exact congrArg (fun l => some (m, l)) (hoption .label m.id)
    · show _ = some (m, Literal.ofDP (.list (m.data.map Literal.data)))
      rw [Literal.ofDP_list, List.map_map]
      rfl
    · rfl
    · exact congrArg (fun l => some ({ m with data := m.data.dropLast }, l))
        (hoption .data m.data.getLast?)
    · rfl
    · rename_i heq
      cases heq
    · rename_i hid hdata hset hpop hwipe
      split
      · exact (hid rfl rfl).elim
      · exact (hdata rfl rfl).elim
      · exact (hset rfl rfl).elim
      · exact (hpop rfl rfl).elim
      · exact (hwipe rfl rfl).elim
      · rename_i heq
        cases heq
      · rfl
  · rw [List.map_cons, List.map_nil]
    unfold Meta.call
    split
    case h_6 heq =>
      cases heq
      rw [Literal.dp?_ofDP]
      split
      · rfl
      · rfl
      · rfl
      · rfl
      · exact congrArg (fun l => some (m, l)) (hoption .label _)
      · rfl
    case h_7 hone _ _ _ _ _ => exact (hone _ rfl).elim
    all_goals
      rename_i heq
      cases heq
  · rw [List.map_cons, List.map_cons, call_many, call_many]
    rfl

variable (FL) in
theorem embeds_get :
    Embeds (World.ofDP : World DPFlatLiteral → World FL) Comp.get Comp.get := .get

theorem embeds_log (c : Effect DPFlatLiteral) :
    Embeds (fun u : Unit => u) (EvalM.log c) (EvalM.log (c.ofDP : Effect FL)) := by
  refine Comp.Along.bind (embeds_get FL) (fun w => ?_)
  have hw : { (w.ofDP : World FL) with trace := (w.ofDP : World FL).trace ++ [c.ofDP] } =
      World.ofDP { w with trace := w.trace ++ [c] } := by
    show World.mk w.metadata (w.trace.map (Effect.ofDP : _ → Effect FL) ++ [c].map Effect.ofDP) =
      World.mk w.metadata ((w.trace ++ [c]).map Effect.ofDP)
    rw [List.map_append]
  rw [hw]
  exact .set _

theorem embeds_metaCall (external method : String) (args : List DPLiteral) :
    Embeds .ofDP (EvalM.metaCall external method args)
      (EvalM.metaCall external method (args.map (Literal.ofDP : DPLiteral → Literal FL))) := by
  refine Comp.Along.bind (embeds_log ⟨external, method, args, false⟩) (fun _ => ?_)
  refine Comp.Along.bind (embeds_get FL) (fun w => ?_)
  have hmeta : (w.ofDP : World FL).metadata = w.metadata := rfl
  dsimp only
  rw [hmeta, call_ofDP]
  cases Meta.call w.metadata.egressId
      (if external = "Ingress" then w.metadata.ingress else w.metadata.egress) method args with
  | none => exact .throw _
  | some r => exact Comp.Along.bind (.set _) (fun _ => .pure r.2)

/-- The services of the plane answer as those of the data plane do. -/
def Alike (D : Runtime DPFlatLiteral) (C : Runtime FL) : Prop :=
  ∀ trace socket c, C.rpc (trace.map .ofDP) socket c.ofDP = (D.rpc trace socket c).map .ofDP

theorem embeds_externalCall {D : Env DPFlatLiteral} {C : Env FL}
    (hrpc : Alike D.toRuntime C.toRuntime) (hsockets : C.sockets = D.sockets)
    (c : Effect DPFlatLiteral) :
    Embeds .ofDP (EvalM.externalCall D c) (EvalM.externalCall C c.ofDP) := by
  refine Comp.Along.bind (embeds_get FL) (fun w => ?_)
  refine Comp.Along.bind (embeds_log c) (fun _ => ?_)
  have htrace : (w.ofDP : World FL).trace = w.trace.map .ofDP := rfl
  have hexternal : (c.ofDP : Effect FL).external = c.external := rfl
  rw [hsockets, hexternal]
  cases D.sockets.get? c.external with
  | none => exact .throw _
  | some socket =>
      dsimp only
      rw [htrace, hrpc]
      cases D.rpc w.trace socket c with
      | ok l => exact .pure l
      | error msg => exact .throw _

/-! ## The parts of one unfolding -/

theorem embeds_finishIter (op : Iter) (lits : List DPLiteral) (rs : List (Outcome DPFlatLiteral))
    (acc : Option (Outcome DPFlatLiteral)) :
    Embeds Outcome.ofDP (finishIter op lits rs acc)
      (finishIter op (lits.map (Literal.ofDP : DPLiteral → Literal FL)) (rs.map .ofDP)
        (acc.map .ofDP)) := by
  unfold finishIter
  rw [literals_ofDP]
  cases Outcome.literals rs with
  | error o => exact .pure o
  | ok ls =>
      show Embeds _ _ (if op = .fold then _ else _)
      by_cases hop : op = .fold
      · rw [if_pos hop]
        dsimp only
        rw [if_pos hop]
        rcases acc with _ | l | o
        · exact .throw _
        · exact .pure _
        · exact .throw _
      · rw [if_neg hop]
        dsimp only
        rw [if_neg hop]
        exact Embeds.lit (.ofExcept (iterResult_ofDP op lits ls))

theorem embeds_boolOperand (o : Outcome DPFlatLiteral) :
    Embeds Outcome.ofDP (boolOperand o) (boolOperand (o.ofDP : Outcome FL)) := by
  cases o with
  | ret o => exact .pure (Outcome.ret o)
  | lit l =>
      show Embeds _ _ (boolOperand (.lit (.ofDP l)))
      unfold boolOperand
      dsimp only
      rw [Literal.isBool_ofDP]
      split
      · exact .pure (Outcome.lit l)
      · exact .throw _

theorem embeds_shortCircuit (decided : Bool) {m : EvalM DPFlatLiteral (Outcome DPFlatLiteral)}
    {m' : EvalM FL (Outcome FL)} (hm : Embeds .ofDP m m') (o : Outcome DPFlatLiteral) :
    Embeds Outcome.ofDP (shortCircuit decided m o) (shortCircuit decided m' o.ofDP) := by
  cases o with
  | ret o => exact .pure (Outcome.ret o)
  | lit l =>
      show Embeds _ _ (shortCircuit decided m' (.lit (.ofDP l)))
      unfold shortCircuit
      dsimp only
      rw [Literal.getBool?_ofDP]
      cases l.getBool? with
      | none => exact .throw _
      | some b =>
          dsimp only
          split
          · exact .pure (Outcome.lit l)
          · exact Comp.Along.bind hm (fun r => embeds_boolOperand r)

variable {ok : String → Prop} {ev : DPExpr → EvalM DPFlatLiteral (Outcome DPFlatLiteral)}
variable {ev' : Expr FL → EvalM FL (Outcome FL)}
variable (hev : ∀ e : DPExpr, e.CallsIn ok → Embeds Outcome.ofDP (ev e) (ev' (Expr.ofDP e)))

include hev

theorem embeds_evalAlternative {a : Option DPExpr} (ha : ∀ e ∈ a, e.CallsIn ok) :
    Embeds Outcome.ofDP (evalAlternative ev a) (evalAlternative ev' (a.map .ofDP)) := by
  cases a with
  | none => exact .pure (Outcome.lit .unit)
  | some e => exact hev e (ha e rfl)

theorem embeds_evalAcc {a : Option (String × DPExpr)} (ha : ∀ x ∈ a, x.2.CallsIn ok) :
    Embeds (Option.map Outcome.ofDP) (evalAcc ev a)
      (evalAcc ev' (a.map (fun x => (x.1, .ofDP x.2)))) := by
  cases a with
  | none => exact .pure none
  | some x => exact (hev x.2 (ha x rfl)).map (fun _ => rfl)

/-- The results of the iterations and the last accumulator. -/
def iterationsOfDP (r : List (Outcome DPFlatLiteral) × Option (Outcome DPFlatLiteral)) :
    List (Outcome FL) × Option (Outcome FL) :=
  (r.1.map .ofDP, r.2.map .ofDP)

theorem embeds_evalIter {vs : List String} {e2 : DPExpr} (he : e2.CallsIn ok)
    (lits : List DPLiteral) (acc : Option (Outcome DPFlatLiteral)) :
    Embeds iterationsOfDP (evalIter ev vs e2 lits acc)
      (evalIter ev' vs (.ofDP e2) (lits.map .ofDP) (acc.map .ofDP)) := by
  induction lits generalizing acc with
  | nil => exact .pure ([], acc)
  | cons l ls ih =>
      have hacc : (acc.map (Outcome.ofDP : _ → Outcome FL)).map Outcome.toExpr =
          (acc.map Outcome.toExpr).map Expr.ofDP := by
        cases acc with
        | none => rfl
        | some o => exact congrArg some (toExpr_ofDP o)
      have hbind : bindIter "eval" vs ((acc.map (Outcome.ofDP : _ → Outcome FL)).map Outcome.toExpr)
          (.ofDP l) (.ofDP e2) = _ := hacc ▸ bindIter_ofDP "eval" vs (acc.map Outcome.toExpr) l e2
      refine Comp.Along.ofExcept_bind hbind (fun e hb => ?_)
      have hcalls : ∀ a ∈ acc.map Outcome.toExpr, a.CallsIn ok := by
        intro a ha
        obtain ⟨o, -, rfl⟩ := Option.map_eq_some_iff.mp ha
        exact callsIn_toExpr o
      refine Comp.Along.bind (hev e (callsIn_bindIter he hcalls hb)) (fun r => ?_)
      have hnext : (acc.map (Outcome.ofDP : _ → Outcome FL)).map (fun _ => (r.ofDP : Outcome FL)) =
          (acc.map (fun _ => r)).map Outcome.ofDP := by cases acc <;> rfl
      rw [hnext]
      exact Comp.Along.bind (ih _) (fun p => .pure (r :: p.1, p.2))

end

/-! ## One unfolding -/

section

variable {FT FL : Type} [TFlatTyp FT] [TFlatLiteral FT FL] [TInterpret FL]

/-- The operators of the plane extend those of the data plane. -/
structure Extends (FL : Type) [TFlatLiteral FT FL] [TInterpret FL] : Prop where
  evalPrefix : ∀ pf p (l : DPLiteral),
    (Literal.ofDP l : Literal FL).evalPrefix pf p = (l.evalPrefix pf p).map (Option.map .ofDP)
  evalInfix : ∀ pf op (l1 l2 : DPLiteral),
    (Literal.ofDP l1 : Literal FL).evalInfix pf op (.ofDP l2) =
      (l1.evalInfix pf op l2).map (Option.map .ofDP)

variable (hFL : Extends FL)

include hFL

theorem embeds_prefixOp (pf : Platform) (p : Prefix) (o : Outcome DPFlatLiteral) :
    Embeds Outcome.ofDP (prefixOp pf p o) (prefixOp pf p (o.ofDP : Outcome FL)) := by
  cases o with
  | ret o => exact .pure (Outcome.ret o)
  | lit l => exact (embeds_lift rfl (hFL.evalPrefix pf p l)).lit

theorem embeds_infixOp (pf : Platform) (op : Infix) (o1 o2 : Outcome DPFlatLiteral) :
    Embeds Outcome.ofDP (infixOp pf op o1 o2) (infixOp pf op (o1.ofDP : Outcome FL) o2.ofDP) := by
  cases o1 with
  | ret o => exact .pure (Outcome.ret o)
  | lit l1 =>
      cases o2 with
      | ret o => exact .pure (Outcome.ret o)
      | lit l2 => exact (embeds_lift rfl (hFL.evalInfix pf op l1 l2)).lit

variable {D : Env DPFlatLiteral} {C : Env FL} {ok : String → Prop}
variable {ev : DPExpr → EvalM DPFlatLiteral (Outcome DPFlatLiteral)}
variable {ev' : Expr FL → EvalM FL (Outcome FL)}

section

variable (hev : ∀ e : DPExpr, e.CallsIn ok → Embeds Outcome.ofDP (ev e) (ev' (Expr.ofDP e)))

include hev

theorem embeds_infixExpr (hplatform : C.platform = D.platform) {op : Infix} {e1 e2 : DPExpr}
    (he : (Expr.infixExpr op e1 e2).CallsIn ok) :
    Embeds Outcome.ofDP (evalStep D ev (.infixExpr op e1 e2))
      (evalStep C ev' (Expr.ofDP (.infixExpr op e1 e2))) := by
  obtain ⟨h1, h2⟩ := Expr.CallsIn.infix_iff.mp he
  have h1 := hev e1 h1
  have h2 := hev e2 h2
  have hop : Embeds Outcome.ofDP
      (ev e1 >>= fun r1 => ev e2 >>= fun r2 => infixOp D.platform op r1 r2)
      (ev' (.ofDP e1) >>= fun r1 => ev' (.ofDP e2) >>= fun r2 => infixOp C.platform op r1 r2) := by
    rw [hplatform]
    exact h1.bind (fun r1 => h2.bind (embeds_infixOp hFL _ op r1))
  cases op with
  | and => exact h1.bind (embeds_shortCircuit false h2)
  | or => exact h1.bind (embeds_shortCircuit true h2)
  | _ => exact hop

omit hFL

theorem embeds_block {e : DPExpr} {es : List DPExpr}
    (he : (Expr.blockExpr .block (e :: es)).CallsIn ok) :
    Embeds Outcome.ofDP (evalStep D ev (.blockExpr .block (e :: es)))
      (evalStep C ev' (Expr.ofDP (.blockExpr .block (e :: es)))) := by
  have hes := Expr.CallsIn.block_iff.mp he
  have hrest := hev (.blockExpr .block es) (Expr.CallsIn.block_iff.mpr
    (fun e he => hes e (List.mem_cons_of_mem _ he)))
  refine Comp.Along.bind (hev e (hes e List.mem_cons_self)) (fun r => ?_)
  rw [isReturn_ofDP, Expr.ofDPs_map, List.isEmpty_map]
  split
  · exact .pure r
  · rwa [Expr.ofDP, Expr.ofDPs_map] at hrest

theorem embeds_elements {b : Block} (hb : b ≠ .block) {e : DPExpr} {es : List DPExpr}
    (he : (Expr.blockExpr b (e :: es)).CallsIn ok) :
    Embeds Outcome.ofDP (evalStep D ev (.blockExpr b (e :: es)))
      (evalStep C ev' (Expr.ofDP (.blockExpr b (e :: es)))) := by
  have hes := Expr.CallsIn.block_iff.mp he
  have hlist := Comp.Along.traverse (fun e he => hev e (hes e he))
  rw [Expr.ofDP, Expr.ofDPs_map]
  cases b with
  | block => exact absurd rfl hb
  | list =>
      refine Comp.Along.bind hlist (fun rs => ?_)
      rw [literals_ofDP]
      cases Outcome.literals rs with
      | error o => exact .pure o
      | ok ls => exact .pure_eq (congrArg Outcome.lit (Literal.ofDP_list ls).symm)
  | tuple =>
      refine Comp.Along.bind hlist (fun rs => ?_)
      rw [literals_ofDP]
      cases Outcome.literals rs with
      | error o => exact .pure o
      | ok ls => exact .pure_eq (congrArg Outcome.lit (Literal.ofDP_tuple ls).symm)

theorem embeds_letExpr {vs : List String} {e1 e2 : DPExpr}
    (he : (Expr.letExpr vs e1 e2).CallsIn ok) :
    Embeds Outcome.ofDP (evalStep D ev (.letExpr vs e1 e2))
      (evalStep C ev' (Expr.ofDP (.letExpr vs e1 e2))) := by
  obtain ⟨h1, h2⟩ := Expr.CallsIn.let_iff.mp he
  refine Comp.Along.bind (hev e1 h1) (fun r => ?_)
  cases r with
  | ret o => exact .pure (Outcome.ret o)
  | lit l =>
      exact Comp.Along.ofExcept_bind (bindLet_ofDP "eval" vs l e2)
        (fun e hb => hev e (callsIn_bindLet h2 hb))

theorem embeds_iter {op : Iter} {vs : List String} {e1 e2 : DPExpr}
    {acc : Option (String × DPExpr)} (he : (Expr.iter op vs e1 e2 acc).CallsIn ok) :
    Embeds Outcome.ofDP (evalStep D ev (.iter op vs e1 e2 acc))
      (evalStep C ev' (Expr.ofDP (.iter op vs e1 e2 acc))) := by
  obtain ⟨h1, h2, ha⟩ := Expr.CallsIn.iter_iff.mp he
  rw [Expr.ofDP_iter]
  refine Comp.Along.bind (hev e1 h1) (fun r => ?_)
  cases r with
  | ret o => exact .pure (Outcome.ret o)
  | lit l =>
      cases l with
      | list lits =>
          have hlist : (Outcome.ofDP (.lit (.list lits)) : Outcome FL) =
              .lit (.list (lits.map .ofDP)) := congrArg Outcome.lit (Literal.ofDP_list lits)
          rw [hlist]
          refine Comp.Along.bind (embeds_evalAcc hev ha) (fun acc => ?_)
          refine Comp.Along.bind (embeds_evalIter hev h2 lits acc) (fun p => ?_)
          exact embeds_finishIter op lits p.1 p.2
      | flat f => exact .throw _
      | tuple ls => exact .throw _

theorem embeds_ifExpr {c t : DPExpr} {a : Option DPExpr} (he : (Expr.ifExpr c t a).CallsIn ok) :
    Embeds Outcome.ofDP (evalStep D ev (.ifExpr c t a))
      (evalStep C ev' (Expr.ofDP (.ifExpr c t a))) := by
  obtain ⟨hc, ht, ha⟩ := Expr.CallsIn.if_iff.mp he
  rw [Expr.ofDP_ifExpr]
  refine Comp.Along.bind (hev c hc) (fun r => ?_)
  cases r with
  | ret o => exact .pure (Outcome.ret o)
  | lit l =>
      dsimp only [Outcome.ofDP]
      rw [Literal.getBool?_ofDP]
      rcases l.getBool? with _ | _ | _
      · exact .throw _
      · exact embeds_evalAlternative hev ha
      · exact hev t ht

theorem embeds_ifSomeMatchExpr {e t : DPExpr} {a : Option DPExpr}
    (he : (Expr.ifSomeMatchExpr e t a).CallsIn ok) :
    Embeds Outcome.ofDP (evalStep D ev (.ifSomeMatchExpr e t a))
      (evalStep C ev' (Expr.ofDP (.ifSomeMatchExpr e t a))) := by
  obtain ⟨h, ht, ha⟩ := Expr.CallsIn.ifSome_iff.mp he
  rw [Expr.ofDP_ifSomeMatchExpr]
  refine Comp.Along.bind (hev e h) (fun r => ?_)
  rcases r with (d | ls | _ | ⟨l, _ | ⟨l', ls⟩⟩) | o
  · exact .throw _
  · exact .throw _
  · exact embeds_evalAlternative hev ha
  · exact Comp.Along.ofExcept_bind (applyTo_literal l t)
      (fun e hb => hev e (callsIn_applyTo ht (Expr.CallsIn.lit _) hb))
  · exact embeds_evalAlternative hev ha
  · exact .pure (Outcome.ret o)

theorem embeds_ifMatchExpr (hplatform : C.platform = D.platform) {vs : List String}
    {ms : List (DPExpr × Pattern)} {t : DPExpr} {a : Option DPExpr}
    (he : (Expr.ifMatchExpr vs ms t a).CallsIn ok) :
    Embeds Outcome.ofDP (evalStep D ev (.ifMatchExpr vs ms t a))
      (evalStep C ev' (Expr.ofDP (.ifMatchExpr vs ms t a))) := by
  obtain ⟨hm, ht, ha⟩ := Expr.CallsIn.ifMatch_iff.mp he
  rw [Expr.ofDP_ifMatchExpr]
  refine Comp.Along.bind (Comp.Along.traverse (f := subjectOfDP) (fun m hmem => ?_)) (fun rs => ?_)
  · rw [hplatform]
    exact (hev m.1 (hm m hmem)).bind (embeds_matchSubject _ m.2)
  · have hfst : (rs.map subjectOfDP).map Prod.fst =
        ((rs.map Prod.fst).map Outcome.ofDP : List (Outcome FL)) := by
      rw [List.map_map, List.map_map]
      rfl
    rw [hfst, literals_ofDP]
    cases Outcome.literals (rs.map Prod.fst) with
    | error o => exact .pure o
    | ok ls =>
        rcases allCaptures_ofDP FL rs with ⟨h, h'⟩ | ⟨caps, caps', h, h', hcaps⟩
        · dsimp only [Except.map, Except.mapError]
          rw [h, h']
          exact embeds_evalAlternative hev ha
        · dsimp only [Except.map, Except.mapError]
          rw [h, h']
          exact Comp.Along.ofExcept_bind (bindCaptures_ofDP hcaps vs t)
            (fun e hb => hev e (callsIn_bindCaptures ht hb))

theorem embeds_callExpr {f : String} {args : List DPExpr} {isAsync : Bool}
    (he : (Expr.callExpr f args isAsync).CallsIn ok)
    (hcall : ok f → ∀ ls : List DPLiteral, Embeds Outcome.ofDP
      (evalCall D ev f isAsync ls) (evalCall C ev' f isAsync (ls.map .ofDP))) :
    Embeds Outcome.ofDP (evalStep D ev (.callExpr f args isAsync))
      (evalStep C ev' (Expr.ofDP (.callExpr f args isAsync))) := by
  obtain ⟨hargs, hf⟩ := Expr.CallsIn.call_iff.mp he
  rw [Expr.ofDP, Expr.ofDPs_map]
  refine Comp.Along.bind (Comp.Along.traverse (fun e he => hev e (hargs e he))) (fun rs => ?_)
  rw [literals_ofDP]
  cases Outcome.literals rs with
  | error o => exact .pure o
  | ok ls => exact hcall hf ls

end

/-- Evaluation commutes for one more unfolding, when the calls that satisfy `ok` do. -/
theorem embeds_evalStep (hplatform : C.platform = D.platform)
    (hev : ∀ e : DPExpr, e.CallsIn ok → Embeds Outcome.ofDP (ev e) (ev' (Expr.ofDP e)))
    (hcall : ∀ f, ok f → ∀ isAsync (args : List DPLiteral), Embeds Outcome.ofDP
      (evalCall D ev f isAsync args) (evalCall C ev' f isAsync (args.map .ofDP)))
    {e : DPExpr} (he : e.CallsIn ok) :
    Embeds Outcome.ofDP (evalStep D ev e) (evalStep C ev' (Expr.ofDP e)) := by
  cases e with
  | var x => exact .throw _
  | bvar x i => exact .throw _
  | litExpr l => exact .pure (Outcome.lit l)
  | closure x e => exact .throw _
  | returnExpr e => exact (hev e he).map (fun _ => rfl)
  | prefixExpr p e =>
      show Embeds _ _ (ev' (.ofDP e) >>= prefixOp C.platform p)
      rw [hplatform]
      exact (hev e he).bind (embeds_prefixOp hFL _ p)
  | infixExpr op e1 e2 => exact embeds_infixExpr hFL hev hplatform he
  | blockExpr b es =>
      cases es with
      | nil => cases b <;> exact .pure (Outcome.lit _)
      | cons e es =>
          cases b with
          | block => exact embeds_block hev he
          | list => exact embeds_elements hev (by decide) he
          | tuple => exact embeds_elements hev (by decide) he
  | letExpr vs e1 e2 => exact embeds_letExpr hev he
  | iter op vs e1 e2 acc => exact embeds_iter hev he
  | ifExpr c t a => exact embeds_ifExpr hev he
  | ifSomeMatchExpr e t a => exact embeds_ifSomeMatchExpr hev he
  | ifMatchExpr vs ms t a => exact embeds_ifMatchExpr hev hplatform he
  | callExpr f args isAsync => exact embeds_callExpr hev he (fun hf ls => hcall f hf isAsync ls)

end

end Armour.Lang
