import Armour.Lang.Returns
import Armour.Lang.Transport

/-! # The order of elements and branches

What the type checker says of a list literal or of the branches of an `if` does not depend on
their order as far as their own types go.  It does depend on the order of the `return`s in them:
the type of the first one is what all others are checked against.
-/

namespace Armour.Lang

open Armour.Lib

variable {FT : Type} [TFlatTyp FT] (FL : Type) [TFlatLiteral FT FL]
variable (pk : Packages) (order : List String → List String) (h : Headers FT)

/-! ## Types of expressions with the types of their returns -/

/-- The type of an expression, and the types of the returns in it. -/
def typing (ctxt : Context FT) (e : Parser.Expr F64) : Option (Typ FT × List (Typ FT)) :=
  ((fromLocExpr pk order Comp.record h ctxt e :
    Comp _ _ (ExprAndMeta FT FL)).success []).map (fun p => (p.1.typ, p.2))

def typingBlock (ctxt : Context FT) (b : Parser.BlockStmt F64) :
    Option (Typ FT × List (Typ FT)) :=
  ((fromBlockStmt pk order Comp.record h ctxt b :
    Comp _ _ (ExprAndMeta FT FL)).success []).map (fun p => (p.1.typ, p.2))

/-- The type that an expression gets in a function with a return type so far, if it type-checks. -/
def outcome (r : ReturnType FT) (ctxt : Context FT) (e : Parser.Expr F64) : Option (Typ FT) :=
  ((fromLocExpr pk order setReturn h ctxt e :
    Comp _ _ (ExprAndMeta FT FL)).success r).map (fun p => p.1.typ)

variable {FL pk order h} {ctxt : Context FT}

/-- An expression type-checks if it has a type, and its returns pass. -/
theorem outcome_eq_some {r : ReturnType FT} {e : Parser.Expr F64} {t : Typ FT} :
    outcome FL pk order h r ctxt e = some t ↔
      ∃ rs, typing FL pk order h ctxt e = some (t, rs) ∧ r.Admits rs := by
  have hfollows : Comp.Follows _ (_ : Comp _ _ (ExprAndMeta FT FL)) _ :=
    fromLocExpr_follows pk order h setReturn_follows ctxt e
  unfold outcome typing
  rw [hfollows.success r]
  cases (fromLocExpr pk order Comp.record h ctxt e :
      Comp _ _ (ExprAndMeta FT FL)).success [] with
  | none => simp
  | some p =>
      obtain ⟨m, rs⟩ := p
      rw [Option.bind_some, Option.map_map, Option.map_eq_some_iff, Option.map_some]
      constructor
      · rintro ⟨r', hfeed, ht⟩
        refine ⟨rs, ?_, (feed_accept r rs).mp (Option.isSome_iff_exists.mpr ⟨r', hfeed⟩)⟩
        rw [← ht]
        rfl
      · rintro ⟨_, heq, hadmits⟩
        cases heq
        obtain ⟨r', hfeed⟩ := Option.isSome_iff_exists.mp ((feed_accept r rs).mpr hadmits)
        exact ⟨r', hfeed, rfl⟩

theorem check_success {σ : Type} (s : String) (v1 v2 : List (Typ FT)) (l : σ) :
    (check s v1 v2 : Comp (CheckError FT) σ Unit).success l =
      if Typ.canUnifys v1 v2 then some ((), l) else none := by
  by_cases hall : Typ.canUnifys v1 v2 = true
  · rw [if_pos hall, check_eq_pure hall, Comp.success_pure]
  · rw [if_neg hall]
    obtain ⟨e, he⟩ := check_fails (σ := σ) (s := s) (Bool.eq_false_iff.mpr hall)
    rw [he, Comp.success_throw]

theorem canUnifys_singleton (t t' : Typ FT) : Typ.canUnifys [t] [t'] = t.canUnify t' := by
  rw [Typ.canUnifys_cons, Typ.canUnifys_nil_nil, Bool.and_true]

/-- An expression after others, for its type. -/
theorem success_fromLocExpr (ctxt : Context FT) (e : Parser.Expr F64) (l : List (Typ FT)) :
    (fromLocExpr pk order Comp.record h ctxt e : Comp _ _ (ExprAndMeta FT FL)).success l =
      ((fromLocExpr pk order Comp.record h ctxt e :
        Comp _ _ (ExprAndMeta FT FL)).success []).map (fun p => (p.1, l ++ p.2)) :=
  (fromLocExpr_follows pk order h Comp.Follows.record_keep ctxt e).success_keep l

theorem success_fromBlockStmt (ctxt : Context FT) (b : Parser.BlockStmt F64) (l : List (Typ FT)) :
    (fromBlockStmt pk order Comp.record h ctxt b : Comp _ _ (ExprAndMeta FT FL)).success l =
      ((fromBlockStmt pk order Comp.record h ctxt b :
        Comp _ _ (ExprAndMeta FT FL)).success []).map (fun p => (p.1, l ++ p.2)) :=
  (fromBlockStmt_follows pk order h Comp.Follows.record_keep ctxt b).success_keep l

/-! ## List literals -/

/-- Elements type-check if each does, and their types can be joined one after the other. -/
theorem fromElements_success (es : List (Parser.Expr F64)) (typ : Typ FT) (l : List (Typ FT))
    (t : Typ FT) (rs : List (Typ FT)) :
    ((fromElements pk order Comp.record h ctxt typ es : Comp _ _ (List (ExprAndMeta FT FL) ×
        Typ FT)).success l).map (fun p => (p.1.2, p.2)) = some (t, rs) ↔
      ∃ ps, List.Forall₂ (fun e p => typing FL pk order h ctxt e = some p) es ps ∧
        (Typ.unifier FT).checked typ (ps.map Prod.fst) = some t ∧
          rs = l ++ ps.flatMap Prod.snd := by
  induction es generalizing typ l with
  | nil =>
      rw [fromElements]
      simp [Coherent.checked, eq_comm]
  | cons e es ih =>
      rw [fromElements, Comp.success_bind, success_fromLocExpr]
      simp only [List.forall₂_cons_left_iff]
      unfold typing
      cases hm : (fromLocExpr pk order Comp.record h ctxt e :
          Comp _ _ (ExprAndMeta FT FL)).success [] with
      | none => simp
      | some p =>
          obtain ⟨m, new⟩ := p
          simp only [Option.map_some, Option.bind_some, Comp.success_bind, check_success,
            canUnifys_singleton, Comp.success_pure]
          by_cases hu : m.typ.canUnify typ = true
          · have ih' := ih (typ.unify m.typ) (l ++ new)
            unfold typing at ih'
            simp only [hu, if_true, Option.bind_some]
            rw [Option.map_bind]
            refine Iff.trans ?_ (Iff.trans ih' ?_)
            · cases (fromElements pk order Comp.record h ctxt (typ.unify m.typ) es :
                Comp _ _ (List (ExprAndMeta FT FL) × Typ FT)).success (l ++ new) <;> rfl
            constructor
            · rintro ⟨ps, hps, ht, hrs⟩
              refine ⟨(m.typ, new) :: ps, ⟨_, ps, rfl, hps, rfl⟩, ?_, ?_⟩
              · rw [List.map_cons, Typ.unifier_checked_cons, if_pos hu]
                exact ht
              · rw [hrs, List.flatMap_cons, List.append_assoc]
            · rintro ⟨_, ⟨p, ps, hp, hps, rfl⟩, ht, hrs⟩
              cases hp
              rw [List.map_cons, Typ.unifier_checked_cons, if_pos hu] at ht
              rw [List.flatMap_cons, ← List.append_assoc] at hrs
              exact ⟨ps, hps, ht, hrs⟩
          · simp only [hu, Bool.false_eq_true, if_false, Option.bind_none, Option.map_none]
            constructor
            · intro hnone
              cases hnone
            · rintro ⟨_, ⟨p, ps, hp, hps, rfl⟩, ht, hrs⟩
              cases hp
              rw [List.map_cons, Typ.unifier_checked_cons, if_neg hu] at ht
              cases ht

theorem typing_listExpr {es : List (Parser.Expr F64)} {t : Typ FT} {rs : List (Typ FT)} :
    typing FL pk order h ctxt (.listExpr es) = some (t, rs) ↔
      ∃ ps, List.Forall₂ (fun e p => typing FL pk order h ctxt e = some p) es ps ∧
        ∃ t', (Typ.unifier FT).checked .rreturn (ps.map Prod.fst) = some t' ∧ t = .list t' ∧
          rs = ps.flatMap Prod.snd := by
  have hels := @fromElements_success _ _ FL _ pk order h ctxt es .rreturn []
  unfold typing at hels ⊢
  rw [fromLocExpr, Comp.success_bind]
  cases hm : (fromElements pk order Comp.record h ctxt .rreturn es :
      Comp _ _ (List (ExprAndMeta FT FL) × Typ FT)).success [] with
  | none =>
      simp only [hm, Option.map_none, List.nil_append] at hels
      constructor
      · intro hnone
        cases hnone
      · rintro ⟨ps, hps, t', ht, -, hrs⟩
        cases (hels t' rs).mpr ⟨ps, hps, ht, hrs⟩
  | some p =>
      obtain ⟨⟨ms, t₀⟩, rs₀⟩ := p
      simp only [hm, Option.map_some, List.nil_append, Option.some.injEq, Prod.mk.injEq] at hels
      simp only [Option.bind_some, Comp.success_pure, Option.map_some, Option.some.injEq,
        Prod.mk.injEq]
      constructor
      · rintro ⟨rfl, rfl⟩
        obtain ⟨ps, hps, ht, hrs⟩ := (hels t₀ rs₀).mp ⟨rfl, rfl⟩
        exact ⟨ps, hps, t₀, ht, rfl, hrs⟩
      · rintro ⟨ps, hps, t', ht, rfl, hrs⟩
        obtain ⟨rfl, rfl⟩ := (hels t' rs).mpr ⟨ps, hps, ht, hrs⟩
        exact ⟨rfl, rfl⟩

/-! ## Branches -/

theorem typing_ifExpr {c : Parser.Expr F64} {a b : Parser.BlockStmt F64} {t : Typ FT}
    {rs : List (Typ FT)} :
    typing FL pk order h ctxt (.ifExpr c a (some b)) = some (t, rs) ↔
      ∃ tc rc ta ra tb rb, typing FL pk order h ctxt c = some (tc, rc) ∧
        typingBlock FL pk order h ctxt a = some (ta, ra) ∧
        typingBlock FL pk order h ctxt b = some (tb, rb) ∧
        tc.canUnify .bool = true ∧ ta.canUnify tb = true ∧ t = ta.unify tb ∧
        rs = rc ++ (ra ++ rb) := by
  unfold typing typingBlock
  rw [fromLocExpr, Comp.success_bind]
  cases hc : (fromLocExpr pk order Comp.record h ctxt c :
      Comp _ _ (ExprAndMeta FT FL)).success [] with
  | none => simp
  | some pc =>
      obtain ⟨mc, rc⟩ := pc
      rw [Option.bind_some, Comp.success_bind, success_fromBlockStmt]
      cases ha : (fromBlockStmt pk order Comp.record h ctxt a :
          Comp _ _ (ExprAndMeta FT FL)).success [] with
      | none => simp
      | some pa =>
          obtain ⟨ma, ra⟩ := pa
          rw [Option.map_some, Option.bind_some, Comp.success_bind, success_fromBlockStmt]
          cases hb : (fromBlockStmt pk order Comp.record h ctxt b :
              Comp _ _ (ExprAndMeta FT FL)).success [] with
          | none => simp
          | some pb =>
              obtain ⟨mb, rb⟩ := pb
              rw [Option.map_some, Option.bind_some, Comp.success_bind, check_success,
                Typ.canUnifys_cons, canUnifys_singleton]
              cases hbool : mc.typ.canUnify .bool
              · simp [hbool]
              · cases hboth : ma.typ.canUnify mb.typ
                · simp [hboth]
                · simp only [Bool.and_self, if_true, Option.bind_some, Comp.success_pure,
                    Option.map_some, Option.some.injEq, Prod.mk.injEq]
                  constructor
                  · rintro ⟨rfl, rfl⟩
                    exact ⟨_, _, _, _, _, _, ⟨rfl, rfl⟩, ⟨rfl, rfl⟩, ⟨rfl, rfl⟩, hbool, hboth,
                      rfl, List.append_assoc _ _ _⟩
                  · rintro ⟨_, _, _, _, _, _, ⟨rfl, rfl⟩, ⟨rfl, rfl⟩, ⟨rfl, rfl⟩, -, -, rfl, rfl⟩
                    exact ⟨rfl, List.append_assoc _ _ _⟩

/-- An `if` as a block, what `else if` is parsed to, is checked as the `if` itself. -/
theorem typingBlock_ofExpr (e : Parser.Expr F64) :
    typingBlock FL pk order h ctxt (.ofExpr e) = typing FL pk order h ctxt e := by
  have hctxt : (ctxt.updateAsyncTag false).updateAsyncTag false = ctxt := by
    simp [Context.updateAsyncTag]
  unfold typingBlock typing
  rw [Parser.BlockStmt.ofExpr, fromBlockStmt, fromStmts, hctxt, Comp.success_bind]
  cases (fromLocExpr pk order Comp.record h ctxt e :
      Comp _ _ (ExprAndMeta FT FL)).success [] <;> rfl

/-- What follows the first branch of a sequence of branches: further conditions with their
branches, and a last branch. -/
def elseIf : List (Parser.Expr F64 × Parser.BlockStmt F64) → Parser.BlockStmt F64 →
    Parser.BlockStmt F64
  | [], last => last
  | (c, b) :: rest, last => .ofExpr (.ifExpr c b (some (elseIf rest last)))

/-- The branches of a sequence. -/
def branches (rest : List (Parser.Expr F64 × Parser.BlockStmt F64))
    (last : Parser.BlockStmt F64) : List (Parser.BlockStmt F64) :=
  rest.map Prod.snd ++ [last]

/-- Branches type-check if each does, the conditions are boolean, and the types of the branches
can be joined; by induction on the branches, each joined to those after it. -/
theorem typing_elseIf {rest : List (Parser.Expr F64 × Parser.BlockStmt F64)}
    {last : Parser.BlockStmt F64} {t : Typ FT} {us : List (Typ FT)} :
    (∃ rs, typingBlock FL pk order h ctxt (elseIf rest last) = some (t, rs) ∧ rs.Perm us) ↔
      ∃ cs bs,
        List.Forall₂ (fun c p => typing FL pk order h ctxt c = some p) (rest.map Prod.fst) cs ∧
        List.Forall₂ (fun b p => typingBlock FL pk order h ctxt b = some p)
          (branches rest last) bs ∧
        (∀ p ∈ cs, p.1.canUnify .bool = true) ∧
        (Typ.unifier FT).checked .rreturn (bs.map Prod.fst) = some t ∧
        (cs.flatMap Prod.snd ++ bs.flatMap Prod.snd).Perm us := by
  induction rest generalizing t us with
  | nil =>
      have hone : ∀ t' : Typ FT, (Typ.unifier FT).checked .rreturn [t'] = some t' := by
        intro t'
        rw [Typ.unifier_checked_cons, Typ.canUnify_rreturn_right, if_pos rfl,
          Typ.unify_rreturn_left]
        rfl
      constructor
      · rintro ⟨rs, hlast, hperm⟩
        refine ⟨[], [(t, rs)], .nil, .cons hlast .nil, by simp, hone t, ?_⟩
        simpa using hperm
      · rintro ⟨cs, bs, hcs, hbs, -, ht, hperm⟩
        cases hcs
        obtain ⟨p, _, hp, hnil, rfl⟩ := List.forall₂_cons_left_iff.mp hbs
        cases hnil
        rw [List.map_singleton, hone, Option.some.injEq] at ht
        exact ⟨p.2, by rw [← ht]; exact hp, by simpa using hperm⟩
  | cons cb rest ih =>
      obtain ⟨c, b⟩ := cb
      constructor
      · rintro ⟨rs, hrs, hperm⟩
        rw [elseIf, typingBlock_ofExpr, typing_ifExpr] at hrs
        obtain ⟨tc, rc, ta, ra, tb, rb, hc, ha, hb, hbool, hunify, rfl, rfl⟩ := hrs
        obtain ⟨cs, bs, hcs, hbs, hall, ht, hperm'⟩ := ih.mp ⟨rb, hb, List.Perm.refl _⟩
        refine ⟨(tc, rc) :: cs, (ta, ra) :: bs, .cons hc hcs, .cons ha hbs,
          List.forall_mem_cons.mpr ⟨hbool, hall⟩, ?_, ?_⟩
        · have hcons := (Typ.unifier FT).checked_cons ta (bs.map Prod.fst)
          refine hcons.trans ?_
          show ((Typ.unifier FT).checked .rreturn (bs.map Prod.fst)).bind _ = _
          rw [ht]
          exact if_pos hunify
        · refine List.Perm.trans ?_ hperm
          rw [List.flatMap_cons, List.flatMap_cons, List.append_assoc]
          refine List.Perm.append_left _ ?_
          refine (List.perm_append_comm_assoc _ ra _).trans ?_
          exact List.Perm.append_left _ hperm'
      · rintro ⟨cs, bs, hcs, hbs, hall, ht, hperm⟩
        obtain ⟨⟨tc, rc⟩, cs, hc, hcs', rfl⟩ := List.forall₂_cons_left_iff.mp hcs
        obtain ⟨⟨ta, ra⟩, bs, hb, hbs', rfl⟩ := List.forall₂_cons_left_iff.mp hbs
        obtain ⟨hbool, hall⟩ := List.forall_mem_cons.mp hall
        have ht' := ((Typ.unifier FT).checked_cons ta (bs.map Prod.fst)).symm.trans ht
        obtain ⟨tb, htb, hjoin⟩ := Option.bind_eq_some_iff.mp ht'
        obtain ⟨hunify, hjoin⟩ := Option.ite_none_right_eq_some.mp hjoin
        obtain ⟨rb, hrb, hperm'⟩ := ih.mpr ⟨cs, bs, hcs', hbs', hall, htb, List.Perm.refl _⟩
        refine ⟨rc ++ (ra ++ rb), ?_, List.Perm.trans ?_ hperm⟩
        · rw [elseIf, typingBlock_ofExpr, typing_ifExpr]
          refine ⟨tc, rc, ta, ra, tb, rb, hc, hb, hrb, hbool, hunify, ?_, rfl⟩
          exact (Option.some.inj hjoin).symm
        · rw [List.flatMap_cons, List.flatMap_cons, List.append_assoc]
          refine List.Perm.append_left _ ?_
          refine List.Perm.trans ?_ (List.perm_append_comm_assoc _ ra _).symm
          exact List.Perm.append_left _ hperm'

/-! ## Another order -/

/-- The same expression with its elements, or its conditions and its branches, in another
order. -/
inductive Reorder : Parser.Expr F64 → Parser.Expr F64 → Prop
  | listExpr {es es' : List (Parser.Expr F64)} (hes : es.Perm es') :
      Reorder (.listExpr es) (.listExpr es')
  | ifExpr {c c' : Parser.Expr F64} {b b' last last' : Parser.BlockStmt F64}
      {rest rest' : List (Parser.Expr F64 × Parser.BlockStmt F64)}
      (hconds : (c :: rest.map Prod.fst).Perm (c' :: rest'.map Prod.fst))
      (hbranches : (b :: branches rest last).Perm (b' :: branches rest' last')) :
      Reorder (.ifExpr c b (some (elseIf rest last))) (.ifExpr c' b' (some (elseIf rest' last')))

theorem Reorder.symm {e e' : Parser.Expr F64} (hre : Reorder e e') : Reorder e' e := by
  cases hre with
  | listExpr hes => exact .listExpr hes.symm
  | ifExpr hconds hbranches => exact .ifExpr hconds.symm hbranches.symm

/-- In another order, an expression has its type, and the same types of returns in some order. -/
theorem Reorder.typing {e e' : Parser.Expr F64} (hre : Reorder e e') {t : Typ FT}
    {rs : List (Typ FT)} (ht : typing FL pk order h ctxt e = some (t, rs)) :
    ∃ rs', typing FL pk order h ctxt e' = some (t, rs') ∧ rs'.Perm rs := by
  cases hre with
  | listExpr hes =>
      obtain ⟨ps, hps, t', ht', rfl, rfl⟩ := typing_listExpr.mp ht
      obtain ⟨ps', hps', hperm⟩ := List.perm_comp_forall₂ hes.symm hps
      refine ⟨ps'.flatMap Prod.snd, typing_listExpr.mpr ⟨ps', hps', t', ?_, rfl, rfl⟩,
        hperm.flatMap_right _⟩
      rw [(Typ.unifier FT).checked_perm (hperm.map Prod.fst)]
      exact ht'
  | @ifExpr c c' b b' last last' rest rest' hconds hbranches =>
      -- the whole expression is a sequence of branches, as a block
      have hchain : ∀ (c : Parser.Expr F64) (b : Parser.BlockStmt F64) rest last,
          typingBlock FL pk order h ctxt (elseIf ((c, b) :: rest) last) =
            Armour.Lang.typing FL pk order h ctxt (.ifExpr c b (some (elseIf rest last))) :=
        fun c b rest last => typingBlock_ofExpr _
      rw [← hchain] at ht
      obtain ⟨cs, bs, hcs, hbs, hall, hjoin, hperm⟩ := typing_elseIf.mp ⟨rs, ht, .refl rs⟩
      obtain ⟨cs', hcs', hpcs⟩ := List.perm_comp_forall₂ hconds.symm hcs
      obtain ⟨bs', hbs', hpbs⟩ := List.perm_comp_forall₂ hbranches.symm hbs
      rw [← hchain]
      refine typing_elseIf.mpr ⟨cs', bs', hcs', hbs', ?_, ?_, ?_⟩
      · exact fun p hp => hall p (hpcs.mem_iff.mp hp)
      · rw [(Typ.unifier FT).checked_perm (hpbs.map Prod.fst)]
        exact hjoin
      · exact ((hpcs.flatMap_right _).append (hpbs.flatMap_right _)).trans hperm

/-- What is admitted by a return type that is set does not depend on the order. -/
theorem ReturnType.admits_perm {t : Typ FT} {rs rs' : List (Typ FT)} (hperm : rs'.Perm rs) :
    ReturnType.Admits (some t) rs ↔ ReturnType.Admits (some t) rs' :=
  forall_congr' (fun _ => imp_congr_left hperm.mem_iff.symm)

/-- Any two of the types unify. -/
abbrev Unifiable (l : List (Typ FT)) : Prop := (Typ.unifier FT).Family l

/-- The laws of `unify` on types of which any two unify: it is commutative and idempotent, and
folding it over them in any order gives one type, with which each of them unifies. -/
structure UnifyLaws (l : List (Typ FT)) : Prop where
  comm : ∀ a ∈ l, ∀ b ∈ l, a.unify b = b.unify a
  idem : ∀ a ∈ l, a.unify a = a
  upper : ∀ a ∈ l, a.canUnify (l.foldl Typ.unify .rreturn) = true
  perm : ∀ l', l.Perm l' → l.foldl Typ.unify .rreturn = l'.foldl Typ.unify .rreturn

theorem Unifiable.laws {l : List (Typ FT)} (hl : Unifiable l) : UnifyLaws l where
  comm a ha b hb := Typ.unify_comm a b (Coherent.Family.compat _ hl ha hb)
  idem a _ := Typ.unify_self a
  upper a ha :=
    (Typ.unifier FT).compat_joins ((Typ.unifier FT).family_bot.mpr hl) a
      (List.mem_cons_of_mem _ ha)
  perm _ hperm := (Typ.unifier FT).joins_perm hperm ((Typ.unifier FT).family_bot.mpr hl)

/-- `unify` has its laws on families.  Whether an expression type-checks in another order of its
elements or branches, and with what type, is not a matter of these types alone: it does exactly
if the return type was set before, or the first type returned in either order unifies with all
that are returned, or in neither. -/
theorem reorder_outcome_iff {l : List (Typ FT)} (hl : Unifiable l) {e e' : Parser.Expr F64}
    (hre : Reorder e e') (r : ReturnType FT) (ctxt : Context FT) :
    UnifyLaws l ∧
      (outcome FL pk order h r ctxt e = outcome FL pk order h r ctxt e' ↔
        (r = none → ∀ t rs rs', typing FL pk order h ctxt e = some (t, rs) →
          typing FL pk order h ctxt e' = some (t, rs') → (Settled rs ↔ Settled rs'))) := by
  refine ⟨hl.laws, ?_⟩
  have hoff : ∀ e : Parser.Expr F64, typing FL pk order h ctxt e = none →
      outcome FL pk order h r ctxt e = none := by
    intro e hnone
    refine Option.eq_none_iff_forall_ne_some.mpr (fun t ht => ?_)
    obtain ⟨rs, htyping, -⟩ := outcome_eq_some.mp ht
    rw [hnone] at htyping
    cases htyping
  cases hte : typing FL pk order h ctxt e with
  | none =>
      have hte' : typing FL pk order h ctxt e' = none := by
        refine Option.eq_none_iff_forall_ne_some.mpr (fun p hp => ?_)
        obtain ⟨rs, hrs, -⟩ := hre.symm.typing (show _ = some (p.1, p.2) from hp)
        rw [hte] at hrs
        cases hrs
      rw [hoff e hte, hoff e' hte']
      simp
  | some p =>
      obtain ⟨t, rs⟩ := p
      obtain ⟨rs', hte', hperm⟩ := hre.typing hte
      have hsame : outcome FL pk order h r ctxt e = outcome FL pk order h r ctxt e' ↔
          (r.Admits rs ↔ r.Admits rs') := by
        have hin : ∀ u, outcome FL pk order h r ctxt e = some u ↔ t = u ∧ r.Admits rs := by
          intro u
          rw [outcome_eq_some, hte]
          simp
        have hin' : ∀ u, outcome FL pk order h r ctxt e' = some u ↔ t = u ∧ r.Admits rs' := by
          intro u
          rw [outcome_eq_some, hte']
          simp
        constructor
        · intro heq
          have hu := (hin t).symm.trans ((iff_of_eq (congrArg (· = some t) heq)).trans (hin' t))
          simpa using hu
        · intro hiff
          exact Option.ext (fun u => (hin u).trans ((and_congr_right' hiff).trans (hin' u).symm))
      rw [hsame, hte']
      cases r with
      | some rtype =>
          refine ⟨fun _ hnone => ?_, fun _ => ReturnType.admits_perm hperm⟩
          cases hnone
      | none =>
          constructor
          · intro hiff _ u us us' hu hu'
            cases hu
            cases hu'
            exact hiff
          · intro hiff
            exact hiff rfl t rs rs' rfl rfl

/-- An element that returns in either branch. -/
def returningBoth (e : Parser.Expr F64) : Parser.Expr F64 :=
  .ifExpr (.litExpr (.bool true)) (.mk [.returnStmt e] false) (some (.mk [.returnStmt e] false))

def returnsNone : Parser.Expr F64 := returningBoth (.litExpr .none)

def returnsInt : Parser.Expr F64 := returningBoth (.callExpr "option::Some" [.litExpr (.int 1)])

def returnsStr : Parser.Expr F64 := returningBoth (.callExpr "option::Some" [.litExpr (.str "a")])

theorem reorder_outcome_returns :
    Unifiable [Typ.anyOption, Typ.i64.option, (.tuple [.rreturn] : Typ FlatTyp)] ∧
      (outcome DPFlatLiteral spelled id ∅ none Context.new
          (.listExpr [returnsInt, returnsNone] : Parser.Expr F64) =
        outcome DPFlatLiteral spelled id ∅ none (Context.new : Context FlatTyp)
          (.listExpr [returnsNone, returnsInt])) := by
  have hfam : Unifiable [Typ.anyOption, Typ.i64.option, (.tuple [.rreturn] : Typ FlatTyp)] := by
    decide
  have hre : Reorder (.listExpr [returnsInt, returnsNone]) (.listExpr [returnsNone, returnsInt]) :=
    .listExpr (.swap _ _ _)
  refine ⟨hfam, (@reorder_outcome_iff _ _ DPFlatLiteral _ spelled id ∅ _ hfam _ _ hre none
    Context.new).2.mpr ?_⟩
  intro _ t rs rs' hrs hrs'
  have h₁ : typing DPFlatLiteral spelled id ∅ (Context.new : Context FlatTyp)
      (.listExpr [returnsInt, returnsNone]) =
        some (.list .rreturn, [.option .i64, .option .i64, .anyOption, .anyOption]) := rfl
  have h₂ : typing DPFlatLiteral spelled id ∅ (Context.new : Context FlatTyp)
      (.listExpr [returnsNone, returnsInt]) =
        some (.list .rreturn, [.anyOption, .anyOption, .option .i64, .option .i64]) := rfl
  cases h₁.symm.trans hrs
  cases h₂.symm.trans hrs'
  refine iff_of_true ?_ ?_
  · show ∀ t ∈ some (Typ.option .i64), ∀ u ∈ _, _
    intro t ht u hu
    cases ht
    revert u
    decide
  · show ∀ t ∈ some Typ.anyOption, ∀ u ∈ _, _
    intro t ht u hu
    cases ht
    revert u
    decide

/-- With `None` first, `Some(1)` and `Some("a")` can both be returned; with `Some(1)` first they
can not. -/
theorem elements_swapped :
    Reorder (.listExpr [returnsNone, returnsInt, returnsStr])
        (.listExpr [returnsInt, returnsNone, returnsStr]) ∧
      outcome DPFlatLiteral spelled id ∅ none (Context.new : Context FlatTyp)
        (.listExpr [returnsNone, returnsInt, returnsStr]) = some (.list .rreturn) ∧
      outcome DPFlatLiteral spelled id ∅ none (Context.new : Context FlatTyp)
        (.listExpr [returnsInt, returnsNone, returnsStr]) = none :=
  ⟨.listExpr (.swap _ _ _), rfl, rfl⟩

end Armour.Lang
