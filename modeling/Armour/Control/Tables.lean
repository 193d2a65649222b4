import Armour.Lang.Tables
import Armour.Control.Specialize

/-! # The tables of the control plane

The control plane lists the built-ins of the data plane and its own; its dispatcher tries the
functions of the control plane, then those on control-plane literals, then those of the data
plane.
-/

namespace Armour.Lang

open Armour.Lib

/-! ## Data-plane results in the control plane -/

theorem cpAgrees : Agrees CPFlatLiteral.flatTyp where
  typ_dp _ := rfl
  eq_dp {f t} h := by
    cases f with
    | dp l => exact ⟨l, rfl, CPFlatTyp.dp.inj h⟩
    | _ => cases h

theorem hasAll_ofDPs {ts : List DPTyp} (h : ∀ t ∈ ts, ∀ l : DPLiteral,
      Typ.Has CPFlatLiteral.flatTyp (t.map .dp) (Literal.ofDP l) ↔
        Typ.Has DPFlatLiteral.typ t l) :
    ∀ ls : List DPLiteral, Typ.HasAll CPFlatLiteral.flatTyp (ts.map (Typ.map .dp))
        (Literal.ofDPs ls) ↔ Typ.HasAll DPFlatLiteral.typ ts ls := by
  induction ts with
  | nil =>
      intro ls
      cases ls <;> simp [Typ.HasAll, Literal.ofDPs]
  | cons t ts ih =>
      intro ls
      cases ls with
      | nil => simp [Typ.HasAll, Literal.ofDPs]
      | cons l ls =>
          rw [List.map_cons, Literal.ofDPs, Typ.HasAll, Typ.HasAll,
            h t List.mem_cons_self, ih (fun t ht => h t (List.mem_cons_of_mem _ ht))]

theorem ofDPs_eq_map (ls : List DPLiteral) :
    (Literal.ofDPs ls : List CPLiteral) = ls.map Literal.ofDP := by
  induction ls with
  | nil => rfl
  | cons l ls ih => rw [Literal.ofDPs, ih, List.map_cons]

/-- The types of literals are those of the data plane. -/
theorem has_ofDP (t : DPTyp) : ∀ l : DPLiteral,
    Typ.Has CPFlatLiteral.flatTyp (t.map .dp) (Literal.ofDP l) ↔
      Typ.Has DPFlatLiteral.typ t l := by
  induction t using Typ.map.induct with
  | case1 t =>
      intro l
      rw [Typ.map, Typ.Has, Typ.Has]
      refine or_congr ⟨fun h => CPFlatTyp.dp.inj h, fun h => congrArg CPFlatTyp.dp h⟩ ?_
      cases l with
      | flat d =>
          constructor
          · rintro ⟨_, ⟨⟩, h⟩
            exact ⟨d, rfl, CPFlatTyp.dp.inj h⟩
          · rintro ⟨_, ⟨⟩, h⟩
            exact ⟨.dp d, rfl, congrArg CPFlatTyp.dp h⟩
      | list ls => simp [Literal.ofDP]
      | tuple ls => simp [Literal.ofDP]
  | case2 t ih =>
      intro l
      rw [Typ.map, Typ.Has, Typ.Has]
      cases l with
      | flat d => simp [Literal.ofDP, Literal.dp]
      | list ls => simp [Literal.ofDP, ofDPs_eq_map, ih]
      | tuple ls => simp [Literal.ofDP]
  | case3 ts ih =>
      intro l
      rw [Typ.map]
      rcases ts with _ | ⟨t, _ | ⟨t', ts⟩⟩
      · rw [List.map_nil, Typ.Has, Typ.Has]
        cases l with
        | flat d => simp [Literal.ofDP, Literal.dp, Literal.none, Literal.some]
        | list ls => simp [Literal.ofDP, Literal.none, Literal.some]
        | tuple ls =>
            rcases ls with _ | ⟨x, _ | ⟨y, ls⟩⟩ <;>
              simp [Literal.ofDP, Literal.ofDPs, Literal.none, Literal.some]
      · have ht := ih t List.mem_cons_self
        rw [List.map_cons, List.map_nil, Typ.Has, Typ.Has]
        cases l with
        | flat d => simp [Literal.ofDP, Literal.dp, Literal.none, Literal.some]
        | list ls => simp [Literal.ofDP, Literal.none, Literal.some]
        | tuple ls =>
            rcases ls with _ | ⟨x, _ | ⟨y, ls⟩⟩ <;>
              simp [Literal.ofDP, Literal.ofDPs, Literal.none, Literal.some, ht]
      · have ht := ih t List.mem_cons_self
        have ht' := ih t' (List.mem_cons_of_mem _ List.mem_cons_self)
        have hts := hasAll_ofDPs (fun u hu =>
          ih u (List.mem_cons_of_mem _ (List.mem_cons_of_mem _ hu)))
        rw [List.map_cons, List.map_cons, Typ.Has, Typ.Has]
        cases l with
        | flat d => simp [Literal.ofDP, Literal.dp]
        | list ls => simp [Literal.ofDP]
        | tuple ls =>
            rcases ls with _ | ⟨x, _ | ⟨y, ls⟩⟩ <;>
              simp [Literal.ofDP, Literal.ofDPs, ht, ht', hts]

theorem ofChecked_answers {r : Checked (Option DPLiteral)} {t : DPTyp} :
    Answers CPFlatLiteral.flatTyp (CPFlatLiteral.ofChecked r) (t.map .dp) ↔
      Answers DPFlatLiteral.typ r t := by
  constructor
  · rintro ⟨l, hl, ht⟩
    rcases r with e | _ | l'
    · cases hl
    · cases hl
    · cases hl
      exact ⟨l', rfl, (has_ofDP t l').1 ht⟩
  · rintro ⟨l, rfl, ht⟩
    exact ⟨_, rfl, (has_ofDP t l).2 ht⟩

theorem refused_dp {pf : Platform} {f : String} {ds : List DPFlatLiteral} :
    Refused pf f (ds.map Literal.dp : List CPLiteral) ↔
      Refused pf f (ds.map Literal.flat : List DPLiteral) := by
  have hcp : ∀ es : List DPFlatLiteral,
      (ds.map Literal.dp : List CPLiteral) = es.map Literal.dp ↔ ds = es := fun es =>
    (List.map_injective_iff.2 (fun _ _ h => by cases h; rfl)).eq_iff
  have hdp : ∀ es : List DPFlatLiteral,
      (ds.map Literal.flat : List DPLiteral) = es.map Literal.flat ↔ ds = es := fun es =>
    (List.map_injective_iff.2 (fun _ _ h => by cases h; rfl)).eq_iff
  have h1 : ∀ d, (ds.map Literal.dp : List CPLiteral) = [.dp d] ↔
      (ds.map Literal.flat : List DPLiteral) = [.dp d] :=
    fun d => (hcp [d]).trans (hdp [d]).symm
  have h2 : ∀ d e, (ds.map Literal.dp : List CPLiteral) = [.dp d, .dp e] ↔
      (ds.map Literal.flat : List DPLiteral) = [.dp d, .dp e] :=
    fun d e => (hcp [d, e]).trans (hdp [d, e]).symm
  simp only [Refused, Literal.int, Literal.ipAddr, h1, h2]

/-- The names that the control plane dispatches on data-plane literals itself. -/
def cpLiteralNames : List String :=
  ["Label::new", "Label::login_time", "OnboardingResult::ErrStr", "OnboardingResult::ErrID"]

theorem cp_evalCall1 {pf : Platform} {f : String} {d : DPFlatLiteral} (hf : f ∉ cpLiteralNames) :
    CPFlatLiteral.evalCall1 pf (.dp d) f = CPFlatLiteral.ofChecked (d.evalCall1 pf f) := by
  simp only [cpLiteralNames, List.mem_cons, List.not_mem_nil, or_false, not_or] at hf
  unfold CPFlatLiteral.evalCall1
  split <;> simp_all

theorem cp_evalCall2 {pf : Platform} {f : String} {d d' : DPFlatLiteral}
    (hf : f ∉ cpLiteralNames) : CPFlatLiteral.evalCall2 pf (.dp d) f (.dp d') =
      CPFlatLiteral.ofChecked (d.evalCall2 pf f d') := by
  simp only [cpLiteralNames, List.mem_cons, List.not_mem_nil, or_false, not_or] at hf
  unfold CPFlatLiteral.evalCall2
  split <;> simp_all

theorem cp_evalCalls {pf : Platform} {f : String} (hf : f ∉ cpLiteralNames)
    (ds : List DPFlatLiteral) :
    (Literal.evalCalls pf f (ds.map Literal.dp) : Checked (Option CPLiteral)) =
      CPFlatLiteral.ofChecked (Literal.evalCalls pf f (ds.map Literal.flat)) := by
  rcases ds with _ | ⟨a, _ | ⟨b, _ | ⟨c, _ | ⟨d, _ | ⟨e, ds⟩⟩⟩⟩⟩
  · rfl
  · exact cp_evalCall1 hf
  · exact cp_evalCall2 hf
  · have h : CPFlatLiteral.evalCall3 (.dp a) f (.dp b) (.dp c) =
        (a.evalCall3 f b c).map Literal.ofDP := by
      unfold CPFlatLiteral.evalCall3
      split <;> simp_all
    exact congrArg Except.ok h
  · have h : CPFlatLiteral.evalCall4 (.dp a) f (.dp b) (.dp c) (.dp d) =
        (a.evalCall4 f b c d).map Literal.ofDP := by
      unfold CPFlatLiteral.evalCall4
      split
      · simp_all
      · simp_all
      · rename_i hno _
        exact (hno a b c d rfl rfl rfl rfl).elim
    exact congrArg Except.ok h
  · rfl

theorem FlatEntry.answers {pf : Platform} {f : String} {s : DPSignature} {ts : List CPTyp}
    {args : List CPLiteral} (h : FlatEntry pf f s) (hf : f ∉ cpLiteralNames)
    (hts : (s.map .dp : CPSignature).args = some ts)
    (hargs : Typ.HasAll CPFlatLiteral.flatTyp ts args) :
    Answers CPFlatLiteral.flatTyp (Literal.evalCalls pf f args) (s.map .dp : CPSignature).typ ↔
      ¬Refused pf f args := by
  obtain ⟨a, t, ha, rfl, hcall⟩ := h
  cases hts
  rw [List.map_map] at hargs
  have hmap : (Typ.map CPFlatTyp.dp ∘ Typ.flatTyp : FlatTyp → CPTyp) =
      fun t => .flatTyp (TFlatTyp.dp t) := by
    funext t
    exact Typ.map.eq_1 _ t
  rw [hmap] at hargs
  obtain ⟨ds, rfl, hds⟩ := cpAgrees.hasAll_flat ha hargs
  rw [cp_evalCalls hf, refused_dp]
  exact ofChecked_answers.trans (hcall ds hds)

/-! ## Literals of the control plane by their type -/

namespace CPFlatTyp

/-- What a flat literal of the type holds. -/
def Values : CPFlatTyp → Type
  | credentials => String
  | dp t => t.Values
  | onboardingData => OnboardingData
  | onboardingResult => OnboardingResult
  | policy => DPPolicies
  | primitive => String

def literal : (t : CPFlatTyp) → t.Values → CPFlatLiteral
  | credentials, c => .credentials c
  | dp t, x => .dp (t.literal x)
  | onboardingData, d => .onboardingData d
  | onboardingResult, r => .onboardingResult r
  | policy, p => .policy p
  | primitive, p => .primitive p

theorem has_literal {a : CPFlatTyp} (x : a.Values) :
    Typ.Has CPFlatLiteral.flatTyp (.flatTyp a) (.flat (a.literal x)) := by
  cases a with
  | dp t =>
      cases t with
      | rreturn => cases x
      | _ => exact Or.inr ⟨_, rfl, rfl⟩
  | _ => exact Or.inr ⟨_, rfl, rfl⟩

theorem has_iff {a : CPFlatTyp} (ha : a ≠ .dp .rreturn) {l : CPLiteral} :
    Typ.Has CPFlatLiteral.flatTyp (.flatTyp a) l ↔ ∃ x, l = .flat (a.literal x) := by
  constructor
  · rw [Typ.Has]
    rintro (h | ⟨f, rfl, rfl⟩)
    · exact absurd h ha
    · cases f with
      | dp d =>
          obtain ⟨x, hx⟩ := FlatTyp.exists_literal d
          exact ⟨x, congrArg (fun d => Literal.flat (CPFlatLiteral.dp d)) hx⟩
      | _ y => exact ⟨y, rfl⟩
  · rintro ⟨x, rfl⟩
    exact has_literal x

end CPFlatTyp

end Armour.Lang

namespace Armour.Control

open Armour.Lib Armour.Lang

/-! ## What the control plane refuses -/

/-- An identity that is not on-boarded: a label is missing or the database fails. -/
def OnboardFails (st : State) (trace : List CPEffect) (id : ID) : Prop :=
  id.findLabel hostPattern = none ∨ id.findLabel serviceIdPattern = none ∨
    ∃ host serviceId, id.findLabel hostPattern = some host ∧
      id.findLabel serviceIdPattern = some serviceId ∧
      ((∃ e, st.present trace serviceId = .error e) ∨
        (st.present trace serviceId = .ok false ∧
          ∃ e, st.insertService trace serviceId id host = .error e))

/-- The global policy cannot be read, or it is not compiled. -/
def CompileFails (st : State) (compile : Compiler) (w : World CPFlatLiteral) (egress : Bool)
    (function : String) (id : ID) : Prop :=
  ¬∃ pol p w', st.globalPol w.trace = .ok pol ∧
    (compile egress pol function id).run w = some (.ok p, w')

/-- Arguments of the declared types that have no result in the control plane. -/
def CPRefused (st : State) (compile : Compiler) (pf : Platform) (w : World CPFlatLiteral)
    (f : String) (args : List CPLiteral) : Prop :=
  Refused pf f args ∨
  (f = "Label::new" ∧ ∃ s e, args = [.str s] ∧ Label.fromStr s = .error e) ∨
  (f = "ControlPlane::onboard" ∧ ∃ id, args = [.id id] ∧ OnboardFails st w.trace id) ∨
  (f = "compile_ingress" ∧ ∃ p id, args = [.flat (.primitive p), .id id] ∧
    CompileFails st compile w false p id) ∨
  (f = "compile_egress" ∧ ∃ p id, args = [.flat (.primitive p), .id id] ∧
    CompileFails st compile w true p id) ∨
  (f = "ControlPlane::onboarded" ∧ ∃ obd, args = [.flat (.onboardingData obd)] ∧
    ∃ e, st.findService w.trace (newID obd) = .error e)

/-- The names that can be refused. -/
def refusedNames : List String :=
  ["i64::abs", "i64::pow", "IpAddr::octets", "Label::new", "ControlPlane::onboard",
    "compile_ingress", "compile_egress", "ControlPlane::onboarded"]

theorem not_cpRefused {st : State} {compile : Compiler} {pf : Platform}
    {w : World CPFlatLiteral} {f : String} {args : List CPLiteral} (hf : f ∉ refusedNames) :
    ¬CPRefused st compile pf w f args := by
  simp only [refusedNames, List.mem_cons, List.not_mem_nil, or_false, not_or] at hf
  rintro (h | ⟨h, _⟩ | ⟨h, _⟩ | ⟨h, _⟩ | ⟨h, _⟩ | ⟨h, _⟩)
  · refine not_refused ?_ h
    simp [hf]
  · exact hf.2.2.2.1 h
  · exact hf.2.2.2.2.1 h
  · exact hf.2.2.2.2.2.1 h
  · exact hf.2.2.2.2.2.2.1 h
  · exact hf.2.2.2.2.2.2.2 h

/-! ## Functions that do not need the state -/

/-- The names that the dispatcher of the control plane treats itself. -/
def stateNames : List String :=
  ["allow_egress", "allow_ingress", "Primitive::allow_rest_request",
    "Primitive::allow_rest_response", "Primitive::allow_tcp_connection", "deny_egress",
    "deny_ingress", "Primitive::on_tcp_disconnect", "ControlPlane::onboard",
    "ControlPlane::onboarded", "ControlPlane::newID", "compile_ingress", "compile_egress",
    "verify_credentials"]

theorem evalCall_eq_evalBuiltin {st : State} {compile : Compiler} {pf : Platform} {f : String}
    (hf : f ∉ stateNames) (args : List CPLiteral) :
    Control.evalCall st compile pf f args = evalBuiltin pf f args := by
  simp only [stateNames, List.mem_cons, List.not_mem_nil, or_false, not_or] at hf
  rcases args with _ | ⟨a, _ | ⟨b, _ | ⟨c, rest⟩⟩⟩
  · have h : sevalCall0 pf f = TInterpret.evalCall0 pf f := by
      unfold sevalCall0
      split <;> simp_all
    rw [Control.evalCall, h]
    rfl
  · show sevalCall1 st pf f a = _
    unfold sevalCall1
    split <;> simp_all
    all_goals rfl
  · show sevalCall2 st compile pf f a b = _
    unfold sevalCall2
    split <;> simp_all
    all_goals rfl
  · rfl

/-! ## The entries of the control plane's own table -/

section

variable {st : State} {compile : Compiler} {pf : Platform}

/-- On literals of the declared types the dispatcher answers unless it refuses. -/
def CPEntry (st : State) (compile : Compiler) (pf : Platform) (f : String)
    (s : CPSignature) : Prop :=
  ∃ ts, s.args = some ts ∧ ∀ args, Typ.HasAll CPFlatLiteral.flatTyp ts args → ∀ w,
    (AnswersAs CPFlatLiteral.flatTyp (.lit <$> Control.evalCall st compile pf f args) w s.typ ↔
      ¬CPRefused st compile pf w f args)

variable {f : String} {t : CPTyp} {a b c d : CPFlatTyp}

theorem cpEntry0 {l : CPLiteral} (hl : sevalCall0 pf f = some l)
    (ht : Typ.Has CPFlatLiteral.flatTyp t l) (hf : f ∉ refusedNames) :
    CPEntry st compile pf f (.new [] t) := by
  refine ⟨[], rfl, fun args hargs w => ?_⟩
  rw [Typ.hasAll_nil.1 hargs]
  exact iff_of_true (lift_answersAs.2 ⟨l, congrArg Except.ok hl, ht⟩) (not_cpRefused hf)

theorem cpEntry1 (ha : a ≠ .dp .rreturn) (h : ∀ (x : a.Values) (w : World CPFlatLiteral),
      AnswersAs CPFlatLiteral.flatTyp
          (.lit <$> Control.evalCall st compile pf f [.flat (a.literal x)]) w t ↔
        ¬CPRefused st compile pf w f [.flat (a.literal x)]) :
    CPEntry st compile pf f (.new [.flatTyp a] t) := by
  refine ⟨_, rfl, fun args hargs w => ?_⟩
  obtain ⟨l, _, rfl, hl, hnil⟩ := Typ.hasAll_cons.1 hargs
  obtain ⟨x, rfl⟩ := (CPFlatTyp.has_iff ha).1 hl
  rw [Typ.hasAll_nil.1 hnil]
  exact h x w

theorem cpEntry2 (ha : a ≠ .dp .rreturn) (hb : b ≠ .dp .rreturn)
    (h : ∀ (x : a.Values) (y : b.Values) (w : World CPFlatLiteral),
      AnswersAs CPFlatLiteral.flatTyp (.lit <$> Control.evalCall st compile pf f
          [.flat (a.literal x), .flat (b.literal y)]) w t ↔
        ¬CPRefused st compile pf w f [.flat (a.literal x), .flat (b.literal y)]) :
    CPEntry st compile pf f (.new [.flatTyp a, .flatTyp b] t) := by
  refine ⟨_, rfl, fun args hargs w => ?_⟩
  obtain ⟨l, _, rfl, hl, hrest⟩ := Typ.hasAll_cons.1 hargs
  obtain ⟨l', _, rfl, hl', hnil⟩ := Typ.hasAll_cons.1 hrest
  obtain ⟨x, rfl⟩ := (CPFlatTyp.has_iff ha).1 hl
  obtain ⟨y, rfl⟩ := (CPFlatTyp.has_iff hb).1 hl'
  rw [Typ.hasAll_nil.1 hnil]
  exact h x y w

/-- A function on literals alone, with one argument. -/
theorem cpEntry1_pure (ha : a ≠ .dp .rreturn) (hst : f ∉ stateNames) (hf : f ∉ refusedNames)
    (h : ∀ x : a.Values, Answers CPFlatLiteral.flatTyp
      (CPFlatLiteral.evalCall1 pf (a.literal x) f) t) :
    CPEntry st compile pf f (.new [.flatTyp a] t) := by
  refine cpEntry1 ha (fun x w => iff_of_true ?_ (not_cpRefused hf))
  rw [evalCall_eq_evalBuiltin hst, evalBuiltin_answersAs]
  exact h x

theorem cpEntry2_pure (ha : a ≠ .dp .rreturn) (hb : b ≠ .dp .rreturn) (hst : f ∉ stateNames)
    (hf : f ∉ refusedNames) (h : ∀ (x : a.Values) (y : b.Values), Answers CPFlatLiteral.flatTyp
      (CPFlatLiteral.evalCall2 pf (a.literal x) f (b.literal y)) t) :
    CPEntry st compile pf f (.new [.flatTyp a, .flatTyp b] t) := by
  refine cpEntry2 ha hb (fun x y w => iff_of_true ?_ (not_cpRefused hf))
  rw [evalCall_eq_evalBuiltin hst, evalBuiltin_answersAs]
  exact h x y

theorem evalCall1_labelNew_ok (pf : Platform) {s : String} {l : Label}
    (h : Label.fromStr s = .ok l) :
    CPFlatLiteral.evalCall1 pf (.dp (.str s)) "Label::new" =
      .ok (some (Literal.label l : CPLiteral)) := by
  simp only [CPFlatLiteral.evalCall1, h]

theorem evalCall1_labelNew_error (pf : Platform) {s e : String} (h : Label.fromStr s = .error e) :
    CPFlatLiteral.evalCall1 pf (.dp (.str s)) "Label::new" = .ok none := by
  simp only [CPFlatLiteral.evalCall1, h]

theorem cpEntry_labelNew : CPEntry st compile pf "Label::new"
    (.new [CPFlatTyp.ofDP .str] (CPFlatTyp.ofDP .label)) := by
  refine cpEntry1 (by decide) (fun (s : String) w => ?_)
  rw [evalCall_eq_evalBuiltin (by decide), evalBuiltin_answersAs]
  have hrefused : CPRefused st compile pf w "Label::new" [.str s] ↔
      ∃ e, Label.fromStr s = .error e := by
    constructor
    · rintro (h | ⟨_, s', e, ⟨⟩, he⟩ | ⟨h, _⟩ | ⟨h, _⟩ | ⟨h, _⟩ | ⟨h, _⟩)
      · exact absurd h (not_refused (by decide))
      · exact ⟨e, he⟩
      all_goals exact absurd h (by decide)
    · rintro ⟨e, he⟩
      exact Or.inr (Or.inl ⟨rfl, s, e, rfl, he⟩)
  refine Iff.trans ?_ (not_congr hrefused).symm
  rcases hs : Label.fromStr s with e | l
  · refine iff_of_false ?_ (fun h => h ⟨e, rfl⟩)
    rintro ⟨l, hl, _⟩
    cases hl.symm.trans (evalCall1_labelNew_error pf hs)
  · refine iff_of_true ⟨_, evalCall1_labelNew_ok pf hs, cpAgrees.has_dp (.label l)⟩ ?_
    rintro ⟨e, he⟩
    cases he

/-- The identity is on-boarded, with the answer `true`, unless that fails. -/
theorem helperOnboard_run (st : State) (id : ID) (w : World CPFlatLiteral) :
    (OnboardFails st w.trace id ∧ ∃ e w', (helperOnboard st id).run w = some (.error e, w')) ∨
      (¬OnboardFails st w.trace id ∧
        ∃ w', (helperOnboard st id).run w = some (.ok (.bool true), w')) := by
  rw [helperOnboard, OnboardFails]
  rcases hhost : id.findLabel hostPattern with _ | host
  · exact Or.inl ⟨Or.inl rfl, _, _, rfl⟩
  rcases hsvc : id.findLabel serviceIdPattern with _ | serviceId
  · exact Or.inl ⟨Or.inr (Or.inl rfl), _, _, rfl⟩
  simp only [Option.some.injEq, reduceCtorEq, false_or, exists_and_left, exists_eq_left']
  rcases hp : st.present w.trace serviceId with e | b
  · have hq : (query fun t => st.present t serviceId).run w =
        some (.error (.external e), w) := query_error hp
    exact Or.inl ⟨Or.inl ⟨e, rfl⟩, _, _, Comp.run_bind_error hq⟩
  have hq : (query fun t => st.present t serviceId).run w = some (.ok b, w) := query_ok hp
  cases b with
  | true => exact Or.inr ⟨by simp, w, Comp.run_bind_ok hq⟩
  | false =>
      rcases hi : st.insertService w.trace serviceId id host with e | u
      · have hi : (query fun t => st.insertService t serviceId id host).run w =
            some (.error (.external e), w) := query_error hi
        refine Or.inl ⟨Or.inr ⟨rfl, e, rfl⟩, .external e, w, ?_⟩
        exact (Comp.run_bind_ok hq).trans (Comp.run_bind_error hi)
      · have hi : (query fun t => st.insertService t serviceId id host).run w =
            some (.ok u, w) := query_ok hi
        have hlog : ∃ w', (do
            EvalM.log ⟨"ControlPlane", "onboard", [.id id], false⟩
            pure (Literal.bool true) : CPEvalM CPLiteral).run w = some (.ok (.bool true), w') :=
          ⟨_, rfl⟩
        obtain ⟨w', hlog⟩ := hlog
        refine Or.inr ⟨by simp, w', ?_⟩
        exact (Comp.run_bind_ok hq).trans ((Comp.run_bind_ok hi).trans hlog)

/-- A literal of the type, out of a run that gives one or fails. -/
theorem answersAs_iff {m : EvalM CPFlatLiteral CPLiteral} {w : World CPFlatLiteral} {P : Prop}
    (hfail : P → ∃ e w', m.run w = some (.error e, w'))
    (hok : ¬P → ∃ l w', m.run w = some (.ok l, w') ∧ t.Has CPFlatLiteral.flatTyp l) :
    AnswersAs CPFlatLiteral.flatTyp (.lit <$> m) w t ↔ ¬P := by
  constructor
  · rintro ⟨l, w', hrun, _⟩ hP
    obtain ⟨e, w'', h⟩ := hfail hP
    cases (Comp.run_bind_error h).symm.trans hrun
  · intro hP
    obtain ⟨l, w', h, ht⟩ := hok hP
    exact ⟨l, w', Comp.run_bind_ok h, ht⟩

theorem cpEntry_onboard : CPEntry st compile pf "ControlPlane::onboard"
    (.new [CPFlatTyp.ofDP .id] (CPFlatTyp.ofDP .bool)) := by
  refine cpEntry1 (by decide) (fun (id : ID) w => ?_)
  have hrefused : CPRefused st compile pf w "ControlPlane::onboard" [.id id] ↔
      OnboardFails st w.trace id := by
    constructor
    · rintro (h | ⟨h, _⟩ | ⟨_, i, ⟨⟩, hi⟩ | ⟨h, _⟩ | ⟨h, _⟩ | ⟨h, _⟩)
      · exact absurd h (not_refused (by decide))
      · exact absurd h (by decide)
      · exact hi
      all_goals exact absurd h (by decide)
    · exact fun h => Or.inr (Or.inr (Or.inl ⟨rfl, id, rfl, h⟩))
  refine Iff.trans ?_ (not_congr hrefused).symm
  refine answersAs_iff (m := helperOnboard st id) (fun h => ?_) (fun h => ?_)
  · rcases helperOnboard_run st id w with ⟨_, hrun⟩ | ⟨hn, _⟩
    · exact hrun
    · exact absurd h hn
  · rcases helperOnboard_run st id w with ⟨hf, _⟩ | ⟨_, w', hrun⟩
    · exact absurd hf h
    · exact ⟨_, w', hrun, cpAgrees.has_dp (.bool true)⟩

theorem cpEntry_compile {egress : Bool} {f : String} (hf : (f = "compile_ingress" ∧
      egress = false) ∨ (f = "compile_egress" ∧ egress = true)) :
    CPEntry st compile pf f
      (.new [.flatTyp .primitive, CPFlatTyp.ofDP .id] (.flatTyp .policy)) := by
  refine cpEntry2 (by decide) (by decide) (fun (p : String) (id : ID) w => ?_)
  have hcall : Control.evalCall st compile pf f [.flat (.primitive p), .id id] =
      helperCompile st compile egress p id := by
    rcases hf with ⟨rfl, rfl⟩ | ⟨rfl, rfl⟩ <;> rfl
  have hrefused : CPRefused st compile pf w f [.flat (.primitive p), .id id] ↔
      CompileFails st compile w egress p id := by
    rcases hf with ⟨rfl, rfl⟩ | ⟨rfl, rfl⟩
    · constructor
      · rintro (h | ⟨h, _⟩ | ⟨h, _⟩ | ⟨_, p', i, ⟨⟩, hi⟩ | ⟨h, _⟩ | ⟨h, _⟩)
        · exact absurd h (not_refused (by decide))
        · exact absurd h (by decide)
        · exact absurd h (by decide)
        · exact hi
        · exact absurd h (by decide)
        · exact absurd h (by decide)
      · exact fun h => Or.inr (Or.inr (Or.inr (Or.inl ⟨rfl, p, id, rfl, h⟩)))
    · constructor
      · rintro (h | ⟨h, _⟩ | ⟨h, _⟩ | ⟨h, _⟩ | ⟨_, p', i, ⟨⟩, hi⟩ | ⟨h, _⟩)
        · exact absurd h (not_refused (by decide))
        · exact absurd h (by decide)
        · exact absurd h (by decide)
        · exact absurd h (by decide)
        · exact hi
        · exact absurd h (by decide)
      · exact fun h => Or.inr (Or.inr (Or.inr (Or.inr (Or.inl ⟨rfl, p, id, rfl, h⟩))))
  refine Iff.trans ?_ (not_congr hrefused).symm
  rw [CompileFails, not_not]
  show AnswersAs _
    (.lit <$> Control.evalCall st compile pf f [.flat (.primitive p), .id id]) w _ ↔ _
  rw [hcall, helperCompile]
  constructor
  · rintro ⟨l, w', hrun, _⟩
    obtain ⟨_, w₁, h, _⟩ := Comp.bind_eq_ok hrun
    obtain ⟨pol, w₂, hpol, h⟩ := Comp.bind_eq_ok h
    obtain ⟨q, w₃, hq, _⟩ := Comp.bind_eq_ok h
    rcases hg : st.globalPol w.trace with e | pol'
    · cases (query_error hg).symm.trans hpol
    · cases (query_ok hg).symm.trans hpol
      exact ⟨_, q, w₃, rfl, hq⟩
  · rintro ⟨pol, q, w', hpol, hc⟩
    have hpol := query_ok hpol
    refine ⟨.flat (.policy q), w', ?_, CPFlatTyp.has_literal (a := .policy) q⟩
    exact Comp.run_bind_ok ((Comp.run_bind_ok hpol).trans (Comp.run_bind_ok hc))

theorem cpEntry_onboarded : CPEntry st compile pf "ControlPlane::onboarded"
    (.new [.flatTyp .onboardingData] (.option (CPFlatTyp.ofDP .id))) := by
  refine cpEntry1 (by decide) (fun (obd : OnboardingData) w => ?_)
  have hrefused : CPRefused st compile pf w "ControlPlane::onboarded"
      [.flat (.onboardingData obd)] ↔ ∃ e, st.findService w.trace (newID obd) = .error e := by
    constructor
    · rintro (h | ⟨h, _⟩ | ⟨h, _⟩ | ⟨h, _⟩ | ⟨h, _⟩ | ⟨_, o, ⟨⟩, ho⟩)
      · exact absurd h (not_refused (by decide))
      · exact absurd h (by decide)
      · exact absurd h (by decide)
      · exact absurd h (by decide)
      · exact absurd h (by decide)
      · exact ho
    · exact fun h => Or.inr (Or.inr (Or.inr (Or.inr (Or.inr ⟨rfl, obd, rfl, h⟩))))
  refine Iff.trans ?_ (not_congr hrefused).symm
  refine answersAs_iff (m := helperOnboarded st obd) ?_ (fun h => ?_)
  · rintro ⟨e, he⟩
    exact ⟨_, w, Comp.run_bind_error (query_error he)⟩
  · cases hfound : st.findService w.trace (newID obd) with
    | error e => exact absurd ⟨e, hfound⟩ h
    | ok found =>
        exact ⟨_, w, Comp.run_bind_ok (query_ok hfound),
          Typ.has_ofOption (fun i => cpAgrees.has_dp (.id i)) _⟩

theorem cpEntry_newID : CPEntry st compile pf "ControlPlane::newID"
    (.new [.flatTyp .onboardingData] (CPFlatTyp.ofDP .id)) := by
  refine cpEntry1 (by decide) (fun (obd : OnboardingData) w => ?_)
  exact iff_of_true ⟨_, w, rfl, cpAgrees.has_dp (.id _)⟩ (not_cpRefused (by decide))

theorem cpEntry_resultOk : CPEntry st compile pf "OnboardingResult::Ok"
    (.new [CPFlatTyp.ofDP .id, .flatTyp .policy, .flatTyp .policy]
      (.flatTyp .onboardingResult)) := by
  refine ⟨_, rfl, fun args hargs w => iff_of_true ?_ (not_cpRefused (by decide))⟩
  simp only [Typ.hasAll_cons, Typ.hasAll_nil] at hargs
  obtain ⟨_, _, rfl, hi, _, _, rfl, hp, _, _, rfl, hq, rfl⟩ := hargs
  obtain ⟨i, rfl⟩ := (CPFlatTyp.has_iff (by decide)).1 hi
  obtain ⟨p, rfl⟩ := (CPFlatTyp.has_iff (by decide)).1 hp
  obtain ⟨q, rfl⟩ := (CPFlatTyp.has_iff (by decide)).1 hq
  exact ⟨_, w, rfl, CPFlatTyp.has_literal (a := .onboardingResult) _⟩

theorem cpEntry_resultErr : CPEntry st compile pf "OnboardingResult::Err"
    (.new [CPFlatTyp.ofDP .str, CPFlatTyp.ofDP .id, .flatTyp .policy, .flatTyp .policy]
      (.flatTyp .onboardingResult)) := by
  refine ⟨_, rfl, fun args hargs w => iff_of_true ?_ (not_cpRefused (by decide))⟩
  simp only [Typ.hasAll_cons, Typ.hasAll_nil] at hargs
  obtain ⟨_, _, rfl, hs, _, _, rfl, hi, _, _, rfl, hp, _, _, rfl, hq, rfl⟩ := hargs
  obtain ⟨s, rfl⟩ := (CPFlatTyp.has_iff (by decide)).1 hs
  obtain ⟨i, rfl⟩ := (CPFlatTyp.has_iff (by decide)).1 hi
  obtain ⟨p, rfl⟩ := (CPFlatTyp.has_iff (by decide)).1 hp
  obtain ⟨q, rfl⟩ := (CPFlatTyp.has_iff (by decide)).1 hq
  exact ⟨_, w, rfl, CPFlatTyp.has_literal (a := .onboardingResult) _⟩

/-- The control plane's own table, but for the name that its dispatcher spells differently. -/
theorem cpEntry_builtinsTable : ∀ e ∈ CPFlatTyp.builtinsTable,
    e.1 ≠ "ControlPlane::verify_credentials" → CPEntry st compile pf e.1 e.2 := by
  simp only [CPFlatTyp.builtinsTable, List.forall_mem_cons, List.not_mem_nil, false_imp_iff,
    imp_true_iff, and_true]
  and_intros
  all_goals
    intro h
    first
      | exact absurd rfl h
      | exact cpEntry_labelNew
      | exact cpEntry_onboard
      | exact cpEntry_onboarded
      | exact cpEntry_newID
      | exact cpEntry_resultOk
      | exact cpEntry_resultErr
      | exact cpEntry_compile (Or.inl ⟨rfl, rfl⟩)
      | exact cpEntry_compile (Or.inr ⟨rfl, rfl⟩)
      | exact cpEntry0 rfl (CPFlatTyp.has_literal _) (by decide)
      | refine cpEntry1_pure (by decide) (by decide) (by decide) (fun x => ⟨_, rfl, ?_⟩)
      | refine cpEntry2_pure (by decide) (by decide) (by decide) (by decide)
          (fun x y => ⟨_, rfl, ?_⟩)
  · exact cpAgrees.has_dp (.label _)
  · exact Typ.has_list_map (fun l => cpAgrees.has_dp (.label l)) _
  · exact cpAgrees.has_dp (.bool _)
  · exact cpAgrees.has_dp (.bool _)
  · exact cpAgrees.has_dp (.label _)
  · exact cpAgrees.has_dp (.label _)
  · exact CPFlatTyp.has_literal (a := .onboardingResult) _
  · exact CPFlatTyp.has_literal (a := .onboardingResult) _

/-! ## The tables of the data plane -/

theorem cpRefused_iff {w : World CPFlatLiteral} {args : List CPLiteral}
    (hlit : f ∉ cpLiteralNames) (hst : f ∉ stateNames) :
    CPRefused st compile pf w f args ↔ Refused pf f args := by
  constructor
  · rintro (h | ⟨rfl, _⟩ | ⟨rfl, _⟩ | ⟨rfl, _⟩ | ⟨rfl, _⟩ | ⟨rfl, _⟩)
    · exact h
    · exact absurd (by decide) hlit
    all_goals exact absurd (by decide) hst
  · exact Or.inl

theorem cpEntry_ofFlat {s : DPSignature} (h : FlatEntry pf f s) (hlit : f ∉ cpLiteralNames)
    (hst : f ∉ stateNames) : CPEntry st compile pf f (s.map .dp) := by
  obtain ⟨as, t, _, hs, _⟩ := id h
  have hts : (s.map CPFlatTyp.dp : CPSignature).args =
      some ((as.map .flatTyp).map (Typ.map .dp)) := by
    rw [hs]
    rfl
  refine ⟨_, hts, fun args hargs w => ?_⟩
  rw [evalCall_eq_evalBuiltin hst, evalBuiltin_answersAs, cpRefused_iff hlit hst]
  exact h.answers hlit hts hargs

theorem sharedTable_map : (Typ.builtinsTable : List (String × CPSignature)) =
    Typ.builtinsTable.map (fun e => (e.1, e.2.map CPFlatTyp.dp)) := by
  simp only [Typ.builtinsTable, Signature.map, Signature.new, List.map_cons, List.map_nil,
    Option.map_some, Typ.map, Typ.anyOption, Typ.option, Typ.rreturn, Typ.bool, Typ.i64, Typ.str,
    Typ.data, Typ.id, Typ.ipAddr, Typ.label, Typ.httpRequest, Typ.httpResponse]
  rfl

/-- How the names of the tables lie to those that the control plane treats itself. -/
theorem table_names :
    (∀ e ∈ (Typ.builtinsTable : List (String × DPSignature)),
      e.1 ∉ cpLiteralNames ∧ e.1 ∉ stateNames) ∧
    (∀ e ∈ FlatTyp.builtinsTable, e.1 ∉ cpLiteralNames ∧ e.1 ∉ stateNames) ∧
    ∀ e ∈ Typ.internalTable CPFlatTyp,
      e.1 ∉ refusedNames ∧ Headers.isBuiltin CPFlatTyp e.1 = false := by
  decide +kernel

theorem sharedTable_names : ∀ e ∈ (Typ.builtinsTable : List (String × DPSignature)),
    e.1 ∉ cpLiteralNames ∧ e.1 ∉ stateNames := table_names.1

theorem builtinsTable_names : ∀ e ∈ FlatTyp.builtinsTable,
    e.1 ∉ cpLiteralNames ∧ e.1 ∉ stateNames := table_names.2.1

theorem cpInternalTable_names : ∀ e ∈ Typ.internalTable CPFlatTyp,
    e.1 ∉ refusedNames ∧ Headers.isBuiltin CPFlatTyp e.1 = false := table_names.2.2

theorem anyTypeNames_names : ∀ f ∈ anyTypeNames, f ∉ refusedNames ∧ f ∉ stateNames := by
  decide

theorem mem_of_internalService {s : CPSignature} (h : Typ.internalService f = some s) :
    (f, s) ∈ Typ.internalTable CPFlatTyp := by
  rw [Typ.internalService, Option.or_eq_some_iff] at h
  rw [Typ.internalTable, List.mem_append]
  refine h.imp mem_of_lookup_eq (fun h => ?_)
  obtain ⟨s', hs', rfl⟩ := Option.map_eq_some_iff.1 h.2
  exact List.mem_map.2 ⟨(f, s'), mem_of_lookup_eq hs', rfl⟩

/-- The arguments that the dispatcher of the control plane has no case for by an oversight. -/
def Overlooked (f : String) (args : List CPLiteral) : Prop :=
  SomeOfNonflat f args ∨ f = "ControlPlane::verify_credentials"

theorem builtins_answersAs {s : CPSignature} {ts : List CPTyp} {args : List CPLiteral}
    {w : World CPFlatLiteral} (hs : Typ.builtins f = some s) (hts : s.args = some ts)
    (hargs : Typ.HasAll CPFlatLiteral.flatTyp ts args) (hover : ¬Overlooked f args) :
    AnswersAs CPFlatLiteral.flatTyp (.lit <$> Control.evalCall st compile pf f args) w s.typ ↔
      ¬CPRefused st compile pf w f args := by
  have entry : CPEntry st compile pf f s →
      (AnswersAs CPFlatLiteral.flatTyp (.lit <$> Control.evalCall st compile pf f args) w s.typ ↔
        ¬CPRefused st compile pf w f args) := by
    rintro ⟨ts', hts', h⟩
    cases hts.symm.trans hts'
    exact h args hargs w
  rcases mem_of_builtins hs with hmem | hown
  · by_cases hany : f ∈ anyTypeNames
    · obtain ⟨ts', hts', hcall⟩ := answers_anyTable cpAgrees pf (f, s) hmem hany
      cases hts.symm.trans hts'
      obtain ⟨href, hst⟩ := anyTypeNames_names f hany
      rw [evalCall_eq_evalBuiltin hst, evalBuiltin_answersAs]
      exact iff_of_true (hcall args hargs) (not_cpRefused href)
    · rw [sharedTable_map] at hmem
      obtain ⟨e, he, heq⟩ := List.mem_map.1 hmem
      obtain ⟨rfl, rfl⟩ := Prod.mk.inj heq
      obtain ⟨hlit, hst⟩ := sharedTable_names e he
      exact entry (cpEntry_ofFlat (flatEntry_sharedTable pf e he hany) hlit hst)
  · rcases Option.or_eq_some_iff.1 hown with hcp | ⟨_, hdp⟩
    · exact entry (cpEntry_builtinsTable (f, s) (mem_of_lookup_eq hcp)
        (fun h => hover (Or.inr h)))
    · obtain ⟨s', hs', rfl⟩ := Option.map_eq_some_iff.1 hdp
      have hmem := mem_of_lookup_eq hs'
      obtain ⟨hlit, hst⟩ := builtinsTable_names (f, s') hmem
      by_cases hf : f = "option::Some"
      · subst hf
        obtain rfl : .new [.rreturn] .rreturn = s' := Option.some.inj hs'
        have hts' : (Signature.new [Typ.rreturn] Typ.rreturn : DPSignature).map CPFlatTyp.dp =
            (.new [Typ.rreturn] Typ.rreturn : CPSignature) := by
          simp only [Signature.map, Signature.new, List.map_cons, List.map_nil, Option.map_some,
            Typ.map, Typ.rreturn]
          rfl
        rw [hts'] at hts ⊢
        cases hts
        obtain ⟨l, _, rfl, _, hnil⟩ := Typ.hasAll_cons.1 hargs
        obtain rfl := Typ.hasAll_nil.1 hnil
        rcases hl : l.dp? with _ | d
        · exact absurd (Or.inl ⟨rfl, l, rfl, hl⟩) hover
        · rw [Literal.eq_dp hl, evalCall_eq_evalBuiltin hst, evalBuiltin_answersAs]
          exact iff_of_true ⟨_, rfl, Typ.has_rreturn _⟩ (not_cpRefused (by decide))
      · exact entry (cpEntry_ofFlat (flatEntry_builtinsTable pf (f, s') hmem hf) hlit hst)

/-- Control plane: as in the data plane, with what the control plane refuses. -/
theorem cpTables_agree {rpc : List CPEffect → String → CPEffect → Except String CPLiteral}
    {p : CPProgram} {ev : CPExpr → CPEvalM (Outcome CPFlatLiteral)} {b : Bool}
    {s : CPSignature} {ts : List CPTyp} {args : List CPLiteral} {w : World CPFlatLiteral}
    (hs : Listed f s) (hts : s.args = some ts)
    (hargs : Typ.HasAll CPFlatLiteral.flatTyp ts args) (hf : p.code.get? f = none)
    (hover : ¬Overlooked f args) :
    AnswersAs CPFlatLiteral.flatTyp
        (Lang.evalCall (Env.new (controlPlane st rpc pf compile) p) ev f b args) w s.typ ↔
      ¬CPRefused st compile pf w f args := by
  have hget : (Env.new (controlPlane st rpc pf compile) p).get f = none := hf
  rcases hs with hs | hs
  · have hb : Headers.isBuiltin CPFlatTyp f = true := by
      rw [Headers.isBuiltin, hs]
      rfl
    rw [evalCall_builtin hget hb]
    exact builtins_answersAs hs hts hargs hover
  · have hmem : (f, s) ∈ Typ.internalTable CPFlatTyp := mem_of_internalService hs
    obtain ⟨href, hb⟩ := cpInternalTable_names (f, s) hmem
    refine iff_of_true ?_ (not_cpRefused href)
    exact evalCall_internal (metaEntry_table cpAgrees (f, s) hmem) hget hb hts hargs

end

/-! ## Both planes -/

/-- A call of a function in the tables, on literals of the declared types, yields a literal of
the declared result type unless it is refused. -/
theorem tables_agree :
    (∀ {rpc : List (Effect DPFlatLiteral) → String → Effect DPFlatLiteral →
          Except String DPLiteral} {pf : Platform} {p : DPProgram}
        {ev : DPExpr → EvalM DPFlatLiteral (Outcome DPFlatLiteral)} {f : String} {b : Bool}
        {s : DPSignature} {ts : List DPTyp} {args : List DPLiteral} {w : World DPFlatLiteral},
      Listed f s → s.args = some ts → Typ.HasAll DPFlatLiteral.typ ts args →
      p.code.get? f = none → ¬SomeOfNonflat f args →
      (AnswersAs DPFlatLiteral.typ
          (Lang.evalCall (Env.new ⟨rpc, pf, evalBuiltin pf⟩ p) ev f b args) w s.typ ↔
        ¬Refused pf f args)) ∧
    (∀ {st : State} {rpc : List CPEffect → String → CPEffect → Except String CPLiteral}
        {pf : Platform} {compile : Compiler} {p : CPProgram}
        {ev : CPExpr → CPEvalM (Outcome CPFlatLiteral)} {f : String} {b : Bool}
        {s : CPSignature} {ts : List CPTyp} {args : List CPLiteral} {w : World CPFlatLiteral},
      Listed f s → s.args = some ts → Typ.HasAll CPFlatLiteral.flatTyp ts args →
      p.code.get? f = none → ¬Overlooked f args →
      (AnswersAs CPFlatLiteral.flatTyp
          (Lang.evalCall (Env.new (controlPlane st rpc pf compile) p) ev f b args) w s.typ ↔
        ¬CPRefused st compile pf w f args)) :=
  ⟨dpTables_agree, cpTables_agree⟩

/-- The absolute value of `5`, and a name of a primitive. -/
theorem tables_agree_calls :
    AnswersAs DPFlatLiteral.typ
        (Lang.evalCall (Env.new ⟨fun _ _ _ => .error "offline", .offline, evalBuiltin .offline⟩
            (⟨∅, .empty, ∅⟩ : DPProgram)) (fun _ => Comp.diverge) "i64::abs" false [.int 5])
        default .i64 ∧
      AnswersAs CPFlatLiteral.flatTyp
        (Lang.evalCall (Env.new (controlPlane .empty (fun _ _ _ => .error "offline") .offline
            (fun _ _ _ _ => Comp.diverge)) (⟨∅, .empty, ∅⟩ : CPProgram)) (fun _ => Comp.diverge)
            "Primitive::on_tcp_disconnect" false [])
        default (.flatTyp .primitive) := by
  constructor
  · refine (tables_agree.1 (s := .new [.i64] .i64) (Or.inl rfl) rfl ?_ rfl ?_).2 ?_
    · exact Typ.hasAll_cons.2 ⟨_, _, rfl, has_dp (.int 5), Typ.hasAll_nil.2 rfl⟩
    · rintro ⟨h, _⟩
      exact absurd h (by decide)
    · rintro (⟨_, _, h⟩ | ⟨h, _⟩ | ⟨h, _⟩)
      · exact absurd (Int64.toInt_inj.2 (DPFlatLiteral.int.inj (Literal.flat.inj
          (List.cons.inj h).1))) (by decide)
      · exact absurd h (by decide)
      · exact absurd h (by decide)
  · refine (tables_agree.2 (s := .new [] (.flatTyp .primitive)) (Or.inl rfl) rfl
      (Typ.hasAll_nil.2 rfl) rfl ?_).2 (not_cpRefused (by decide))
    rintro (⟨h, _⟩ | h)
    · exact absurd h (by decide)
    · exact absurd h (by decide)

/-- An identity without a host is of the declared type, and it is not on-boarded. -/
theorem onboard_not_yields :
    Listed "ControlPlane::onboard" (.new [CPFlatTyp.ofDP .id] (CPFlatTyp.ofDP .bool)) ∧
      Typ.HasAll CPFlatLiteral.flatTyp [CPFlatTyp.ofDP .id] [.id ID.empty] ∧
      ¬AnswersAs CPFlatLiteral.flatTyp
        (Lang.evalCall (Env.new (controlPlane .empty (fun _ _ _ => .error "offline") .offline
            (fun _ _ _ _ => Comp.diverge)) (⟨∅, .empty, ∅⟩ : CPProgram)) (fun _ => Comp.diverge)
            "ControlPlane::onboard" false [.id ID.empty])
        default (CPFlatTyp.ofDP .bool) := by
  have hargs : Typ.HasAll CPFlatLiteral.flatTyp [CPFlatTyp.ofDP .id] [.id ID.empty] :=
    Typ.hasAll_cons.2 ⟨_, _, rfl, cpAgrees.has_dp (.id ID.empty), Typ.hasAll_nil.2 rfl⟩
  refine ⟨Or.inl rfl, hargs, fun h => ?_⟩
  refine (cpTables_agree (s := .new [CPFlatTyp.ofDP .id] (CPFlatTyp.ofDP .bool)) (Or.inl rfl) rfl
    hargs rfl ?_).1 h ?_
  · rintro (⟨h, _⟩ | h)
    · exact absurd h (by decide)
    · exact absurd h (by decide)
  · exact Or.inr (Or.inr (Or.inl ⟨rfl, ID.empty, rfl, Or.inl rfl⟩))

end Armour.Control
