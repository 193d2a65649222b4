import Armour.Lang.Unfolding
import Armour.Lang.Loader
import Armour.Lang.Policies

/-! # Metadata of the ingress

The actor that keeps the metadata changes the metadata of either direction and leaves it to the
types that no program changes those of the ingress: no internal service that does has a type.
But a program may declare an external of the name `Ingress`, whose methods have the types that
it says and whose calls go to the actor.
-/

namespace Armour.Lang

open Armour.Lib

/-- The names under which the actor changes the metadata of the ingress. -/
def ingressMutations : List String :=
  ["Ingress::set_id", "Ingress::push", "Ingress::pop", "Ingress::add_label",
    "Ingress::remove_label", "Ingress::wipe"]

/-- The name is that of a method of an external. -/
def DeclaresMethod {FT FL : Type} (decls : List (Decl FT FL)) (f : String) : Prop :=
  ∃ name url headers, Decl.external name url headers ∈ decls ∧
    ∃ h ∈ headers, f = name ++ "::" ++ h.1

/-! ## The actor -/

section

variable {FT FL : Type} [TFlatTyp FT] [TFlatLiteral FT FL]

/-- Methods other than those leave the metadata alone. -/
theorem Meta.call_eq {egressId : Label} {m m' : Meta} {method : String}
    {args : List (Literal FL)} {l : Literal FL}
    (hmethod : "Ingress::" ++ method ∉ ingressMutations)
    (h : m.call egressId method args = some (m', l)) : m' = m := by
  unfold Meta.call at h
  split at h
  · cases h
    rfl
  · cases h
    rfl
  · exact absurd (by decide) hmethod
  · exact absurd (by decide) hmethod
  · exact absurd (by decide) hmethod
  · split at h
    · exact absurd (by decide) hmethod
    · exact absurd (by decide) hmethod
    · exact absurd (by decide) hmethod
    · cases h
      rfl
    · cases h
      rfl
    · cases h
  · cases h

theorem keeps_log (c : Effect FL) :
    (EvalM.log c).Keeps (fun w : World FL => w.metadata.ingress) := by
  intro w r w' h
  obtain ⟨-, rfl⟩ := Prod.mk.inj (Option.some.inj h)
  rfl

theorem keeps_externalCall (env : Env FL) (c : Effect FL) :
    (EvalM.externalCall env c).Keeps (fun w : World FL => w.metadata.ingress) := by
  have hclosed := @Comp.Keeps.closed (Error FL) (World FL) Meta (fun w => w.metadata.ingress)
  refine hclosed.bind ?_ (fun w => hclosed.bind (keeps_log c) (fun _ => ?_))
  · intro w r w' h
    obtain ⟨-, rfl⟩ := Prod.mk.inj (Option.some.inj h)
    rfl
  · split
    · exact hclosed.throw _
    · split
      · exact hclosed.pure _
      · exact hclosed.throw _

theorem keeps_metaCall {external method : String}
    (h : external = "Ingress" → "Ingress::" ++ method ∉ ingressMutations)
    (args : List (Literal FL)) :
    (EvalM.metaCall external method args).Keeps (fun w : World FL => w.metadata.ingress) := by
  intro w r w' hrun
  rcases Comp.bind_eq_some hrun with ⟨e, he, -⟩ | ⟨u, w₁, hlog, hrun⟩
  · exact keeps_log _ w _ w' he
  · refine Eq.trans ?_ (keeps_log _ w _ w₁ hlog)
    rcases Comp.bind_eq_some hrun with ⟨e, he, -⟩ | ⟨w₂, w₃, hget, hrun⟩
    · cases he
    · obtain ⟨hw, rfl⟩ := Prod.mk.inj (Option.some.inj hget)
      obtain rfl := Except.ok.inj hw
      by_cases hext : external = "Ingress"
      · simp only [if_pos hext] at hrun
        split at hrun
        · cases hrun
          rfl
        · rename_i m' l hcall
          cases hrun
          exact Meta.call_eq (h hext) hcall
      · simp only [if_neg hext] at hrun
        split at hrun
        · cases hrun
          rfl
        · cases hrun
          rfl

end

/-! ## Programs -/

namespace PreProgram

variable {FT FL : Type} {decls : List (Decl FT FL)}

theorem addHeader_nodes {pre pre' : PreProgram FT FL} {name : String} {sig : Signature FT}
    (h : pre.addHeader name sig = some pre') {f : String} {i : Nat}
    (hi : pre'.callGraph.nodes.get? f = some i) :
    f = name ∨ ∃ j, pre.callGraph.nodes.get? f = some j := by
  simp only [PreProgram.addHeader, Option.bind_eq_bind, Option.bind_eq_some_iff] at h
  obtain ⟨headers, -, h⟩ := h
  obtain rfl := Option.some.inj h
  by_cases hf : f = name
  · exact Or.inl hf
  · right
    refine ⟨i, ?_⟩
    rw [← hi]
    exact (BTreeMap.get?_insert_ne pre.callGraph.nodes pre.callGraph.size hf).symm

/-- A node is that of a function or of a method of an external. -/
def Declared (decls : List (Decl FT FL)) (pre : PreProgram FT FL) : Prop :=
  ∀ f i, pre.callGraph.nodes.get? f = some i →
    (∃ d, Decl.fnDecl d ∈ decls ∧ d.name = f) ∨ DeclaresMethod decls f

theorem addHeaders_declared {pre pre' : PreProgram FT FL} (h : Declared decls pre)
    {d : Decl FT FL} (hd : d ∈ decls) (hadd : pre.addHeaders d = some pre') :
    Declared decls pre' := by
  cases d with
  | fnDecl d =>
      intro f i hi
      rcases addHeader_nodes hadd hi with rfl | ⟨j, hj⟩
      · exact Or.inl ⟨d, hd, rfl⟩
      · exact h f j hj
  | external name url headers =>
      simp only [PreProgram.addHeaders, Option.bind_eq_bind, Option.bind_eq_some_iff] at hadd
      obtain ⟨pre₁, hfold, hadd⟩ := hadd
      obtain rfl := Option.some.inj hadd
      have h₁ : Declared decls pre₁ := by
        refine foldlM_keeps_mem (fun {b a b'} ha hb hstep => ?_) h hfold
        intro f i hi
        rcases addHeader_nodes hstep hi with rfl | ⟨j, hj⟩
        · exact Or.inr ⟨name, url, headers, hd, a, ha, rfl⟩
        · exact hb f j hj
      exact h₁

theorem addDecl_code [TFlatTyp FT] {fns : List (FnDecl FT FL)} :
    ∀ {pre pre' : PreProgram FT FL}, fns.foldlM addDecl pre = some pre' →
      (∀ f, (pre.program.code.get? f).isSome = true → (pre'.program.code.get? f).isSome = true) ∧
      ∀ d ∈ fns, (pre'.program.code.get? d.name).isSome = true := by
  induction fns with
  | nil =>
      intro pre pre' h
      obtain rfl := Option.some.inj h
      exact ⟨fun _ hf => hf, fun _ hd => absurd hd List.not_mem_nil⟩
  | cons d fns ih =>
      intro pre pre' h
      rw [List.foldlM_cons, Option.bind_eq_bind, Option.bind_eq_some_iff] at h
      obtain ⟨pre₁, hadd, h⟩ := h
      simp only [PreProgram.addDecl, Option.bind_eq_bind, Option.bind_eq_some_iff] at hadd
      obtain ⟨own, -, g, -, hadd⟩ := hadd
      obtain rfl := Option.some.inj hadd
      obtain ⟨hold, hnew⟩ := ih h
      have hcode : ∀ f, (pre.program.code.insert d.name d.body).get? f =
          if f = d.name then some d.body else pre.program.code.get? f :=
        fun f => BTreeMap.get?_insert pre.program.code d.name f d.body
      refine ⟨fun f hf => hold f ?_, fun d' hd' => ?_⟩
      · rw [hcode]
        split_ifs
        · rfl
        · exact hf
      · rcases List.mem_cons.mp hd' with rfl | hd'
        · refine hold d'.name ?_
          rw [hcode, if_pos rfl]
          rfl
        · exact hnew d' hd'

/-- In an accepted program every function that is called and has neither code nor a type of its
own is the method of an external. -/
theorem declaresMethod_of_calls [TFlatTyp FT] {pre : PreProgram FT FL}
    (h : ofDecls decls = some pre) {f g : String} (hcall : pre.program.Calls f g)
    (hcode : pre.program.code.get? g = none) (hint : Headers.isInternal FT g = false) :
    DeclaresMethod decls g := by
  have hrec := recorded_ofDecls h
  obtain ⟨e, hf, -⟩ := id hcall
  obtain ⟨i, hi⟩ := hrec.node hf
  obtain ⟨j, hj, -⟩ := hrec.edge hcall hint hi
  obtain ⟨pre₁, fns, hheaders, h, hfns⟩ := ofDecls_eq_some h
  have hempty : Declared decls (empty : PreProgram FT FL) := fun _ _ hi => nomatch hi
  have h₁ : Declared decls pre₁ :=
    foldlM_keeps_mem (fun ha hb hstep => addHeaders_declared hb ha hstep) hempty hheaders
  -- the code adds no nodes
  have h₂ : Declared decls pre := by
    refine foldlM_keeps (fun {b d b'} hb hadd => ?_) h₁ h
    simp only [PreProgram.addDecl, Option.bind_eq_bind, Option.bind_eq_some_iff] at hadd
    obtain ⟨own, -, g, hg, hadd⟩ := hadd
    obtain rfl := Option.some.inj hadd
    intro f i hi
    exact hb f i ((addCalls_spec hg).1 ▸ hi)
  rcases h₂ g j hj with ⟨d, hd, rfl⟩ | hmethod
  · have hsome := (addDecl_code h).2 d (hfns d hd)
    rw [hcode] at hsome
    cases hsome
  · exact hmethod

end PreProgram

/-! ## Evaluation -/

theorem split_eq_some {f external method : String} (h : Headers.split f = some (external, method)) :
    f = external ++ "::" ++ method := by
  unfold Headers.split at h
  split at h
  · rename_i m n hsplit
    obtain ⟨rfl, rfl⟩ := Prod.mk.inj (Option.some.inj h)
    have hjoin := Text.intercalate_split (show "::" ≠ "" by decide) f
    rw [hsplit] at hjoin
    rw [← hjoin]
    rfl
  · cases h

/-- No internal service changes the metadata of the ingress. -/
theorem not_isInternal_of_mem {f : String} (h : f ∈ ingressMutations) :
    Headers.isInternal FlatTyp f = false := by
  simp only [ingressMutations, List.mem_cons, List.not_mem_nil, or_false] at h
  rcases h with rfl | rfl | rfl | rfl | rfl | rfl <;> decide +kernel

section

variable {p : DPProgram} {rt : Runtime DPFlatLiteral}

/-- A call of a function that may be reached. -/
theorem keeps_evalCall (hbuiltin : ∀ g args, (rt.builtin g args).Keeps
      (fun w : World DPFlatLiteral => w.metadata.ingress))
    {ok : String → Prop} (hcalls : ∀ f g, ok f → p.Calls f g → ok g)
    (hok : ∀ g, ok g → p.code.get? g = none → g ∉ ingressMutations)
    {ev : Expr DPFlatLiteral → EvalM DPFlatLiteral (Outcome DPFlatLiteral)}
    (hev : ∀ e : Expr DPFlatLiteral, e.CallsIn ok → (ev e).Keeps (fun w => w.metadata.ingress))
    {f : String} (hf : ok f) (isAsync : Bool) (args : List DPLiteral) :
    (evalCall (Env.new rt p) ev f isAsync args).Keeps (fun w => w.metadata.ingress) := by
  have hclosed := @Comp.Keeps.closed (Error DPFlatLiteral) (World DPFlatLiteral) Meta
    (fun w => w.metadata.ingress)
  cases hget : p.code.get? f with
  | some body =>
      have hsome : (Env.new rt p).get f = some body := hget
      have hbody : body.CallsIn ok :=
        fun c hc => hcalls f c.1 hf ⟨body, hget, List.mem_map_of_mem hc⟩
      exact closed_evalCall_user hclosed hev hsome hbody isAsync args
  | none =>
      have hnone : (Env.new rt p).get f = none := hget
      unfold evalCall
      rw [hnone]
      dsimp only
      split
      · exact hclosed.map _ (hbuiltin f args)
      · split
        · rename_i external method hsplit
          split
          · refine hclosed.map _ (keeps_metaCall (fun hext => ?_) args)
            have hname := split_eq_some hsplit
            rw [hext] at hname
            exact hname ▸ hok f hf hget
          · split
            · exact hclosed.bind (keeps_log _) (fun _ => hclosed.pure _)
            · exact hclosed.map _ (keeps_externalCall _ _)
        · exact hclosed.throw _

/-- Evaluation keeps the metadata if no call that changes it leaves the program. -/
theorem keeps_evalN (hbuiltin : ∀ g args, (rt.builtin g args).Keeps
      (fun w : World DPFlatLiteral => w.metadata.ingress))
    {f : String} (hok : ∀ g, Relation.ReflTransGen p.Calls f g → p.code.get? g = none →
      g ∉ ingressMutations) (n : Nat) {e : Expr DPFlatLiteral}
    (he : e.CallsIn (Relation.ReflTransGen p.Calls f)) :
    (evalN (Env.new rt p) n e).Keeps (fun w => w.metadata.ingress) := by
  have hclosed := @Comp.Keeps.closed (Error DPFlatLiteral) (World DPFlatLiteral) Meta
    (fun w => w.metadata.ingress)
  refine Comp.Keeps.iterate (fun ev hev e he => ?_) n e he
  exact closed_evalStep hclosed hev (fun g hg isAsync args =>
    keeps_evalCall hbuiltin (fun _ _ hf hc => hf.tail hc) hok hev hg isAsync args) he

end

/-- No run of an accepted program, or of what is left of it, changes the metadata of the
ingress, if it calls no method that does of an external that it declares. -/
theorem ingress_unchanged {decls : List (Decl FlatTyp DPFlatLiteral)}
    {pre : PreProgram FlatTyp DPFlatLiteral} (h : PreProgram.fromBuf decls = some pre)
    (fs : List String) {f : String} (hf : ((pre.cutTo fs).code.get? f).isSome = true)
    (hcalls : ∀ g, Relation.ReflTransGen (pre.cutTo fs).Calls f g → DeclaresMethod decls g →
      g ∉ ingressMutations)
    (rpc : List (Effect DPFlatLiteral) → String → Effect DPFlatLiteral → Except String DPLiteral)
    (pf : Platform) (n : Nat) (args : List DPLiteral) {w w' : World DPFlatLiteral}
    {r : Except (Error DPFlatLiteral) (Outcome DPFlatLiteral)}
    (hrun : (evaluateN (Env.new ⟨rpc, pf, evalBuiltin pf⟩ (pre.cutTo fs)) n
      (.callExpr f (args.map .litExpr) false)).run w = some (r, w')) :
    w'.metadata.ingress = w.metadata.ingress := by
  have hdecls : PreProgram.ofDecls decls = some pre := by
    simp only [PreProgram.fromBuf, Option.bind_eq_bind, Option.bind_eq_some_iff] at h
    obtain ⟨pre', hpre, h⟩ := h
    split_ifs at h
    exact hpre.trans h
  have hclosed := @Comp.Keeps.closed (Error DPFlatLiteral) (World DPFlatLiteral) Meta
    (fun w => w.metadata.ingress)
  have hok : ∀ g, Relation.ReflTransGen (pre.cutTo fs).Calls f g →
      (pre.cutTo fs).code.get? g = none → g ∉ ingressMutations := by
    intro g hg hcode hmem
    have hint := not_isInternal_of_mem hmem
    rcases hg.cases_tail with rfl | ⟨g', -, hcall⟩
    · rw [hcode] at hf
      cases hf
    · rw [(PreProgram.recorded_ofDecls hdecls).cutTo_get hcall hint] at hcode
      exact hcalls g hg (PreProgram.declaresMethod_of_calls hdecls
        (PreProgram.cutTo_calls hcall) hcode hint) hmem
  have hcall : Expr.CallsIn (Relation.ReflTransGen (pre.cutTo fs).Calls f)
      (.callExpr f (args.map .litExpr) false : Expr DPFlatLiteral) :=
    Expr.CallsIn.call_iff.mpr ⟨callsIn_lits args, Relation.ReflTransGen.refl⟩
  exact hclosed.map _ (keeps_evalN (fun g args => closed_evalBuiltin hclosed pf g args) hok n
    hcall) w r w' hrun

/-! ## Runs of fixed programs -/

/-- An external that has the name of the internal service. -/
def wiping : List (Decl FlatTyp DPFlatLiteral) :=
  [.external "Ingress" "http://localhost" [("wipe", .new [] (.flatTyp .unit))],
    .fnDecl ⟨allowRestRequest, .new [] (.flatTyp .bool),
      .blockExpr .block [.callExpr "Ingress::wipe" [] false, .litExpr (.bool true)]⟩]

/-- A function that wipes the metadata of the egress. -/
def clearing : List (Decl FlatTyp DPFlatLiteral) :=
  [.fnDecl ⟨allowRestRequest, .new [] (.flatTyp .bool),
    .blockExpr .block [.callExpr "Egress::wipe" [] false, .litExpr (.bool true)]⟩]

/-- Metadata with one item of data on the side of the ingress. -/
def marked : World DPFlatLiteral := ⟨⟨⟨none, [[1]], ∅⟩, .empty, ⟨[]⟩⟩, []⟩

/-- The program runs, and the metadata of the ingress stays. -/
theorem ingress_unchanged_clearing : ∃ pre r w', PreProgram.fromBuf clearing = some pre ∧
    (evaluateN (Env.new ⟨fun _ _ _ => .error "", .offline, evalBuiltin .offline⟩
      (pre.cutTo [])) 4 (.callExpr allowRestRequest ([].map .litExpr) false)).run marked =
        some (r, w') ∧
    w'.metadata.ingress = marked.metadata.ingress := by
  have hrun : ∃ pre, PreProgram.fromBuf clearing = some pre ∧
      ((pre.cutTo []).code.get? allowRestRequest).isSome = true ∧
      ∃ r w', (evaluateN (Env.new ⟨fun _ _ _ => .error "", .offline, evalBuiltin .offline⟩
        (pre.cutTo [])) 4 (.callExpr allowRestRequest ([].map .litExpr) false)).run marked =
          some (r, w') := ⟨_, rfl, rfl, _, _, rfl⟩
  obtain ⟨pre, hpre, hf, r, w', hrun⟩ := hrun
  refine ⟨pre, r, w', hpre, hrun, ingress_unchanged hpre [] hf (fun g _ hmethod => ?_) _ _ 4 []
    hrun⟩
  obtain ⟨name, url, headers, hmem, -⟩ := hmethod
  cases List.mem_singleton.mp hmem

/-- The accepted program loses the metadata of the ingress. -/
theorem ingress_wiped : ∃ pre, PreProgram.fromBuf wiping = some pre ∧
    ∃ r w', (evaluateN (Env.new ⟨fun _ _ _ => .error "", .offline, evalBuiltin .offline⟩
        (pre.cutTo [])) 4 (.callExpr allowRestRequest [] false)).run marked = some (r, w') ∧
      w'.metadata.ingress.data = [] ∧ marked.metadata.ingress.data = [[1]] :=
  ⟨_, rfl, _, _, rfl, rfl, rfl⟩

end Armour.Lang
