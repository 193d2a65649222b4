import Armour.Lang.Loader
import Armour.Lang.Policies
import Armour.Control.Specialize

/-! # Accepted programs terminate

A program that the loader accepts has no recursion but through the names of built-in functions
and internal services: the call graph takes such a name for the internal function, the
interpreter for the function of the program.
-/

namespace Armour.Control

open Armour.Lib Armour.Lang

/-! ## Built-in functions of the control plane -/

theorem halts_query {α : Type} (q : List CPEffect → Except String α) : (query q).Halts := by
  refine .bind .get (fun w => ?_)
  split
  · exact .pure _
  · exact .throw _

theorem halts_helperOnboard (st : State) (id : ID) : (helperOnboard st id).Halts := by
  unfold helperOnboard
  split
  · exact .throw _
  · exact .throw _
  · refine .bind (halts_query _) (fun b => ?_)
    split
    · exact .pure _
    · exact .bind (halts_query _) (fun _ => .bind (EvalM.halts_log _) (fun _ => .pure _))

theorem halts_sevalCall1 (st : State) (pf : Platform) (f : String) (l : CPLiteral) :
    (sevalCall1 st pf f l).Halts := by
  unfold sevalCall1
  split
  · exact halts_helperOnboard st _
  · exact .bind (halts_query _) (fun _ => .pure _)
  · exact .pure _
  · exact closed_lift Comp.Halts.closed _ _

/-- The compiler answers whatever it is asked to compile. -/
def CompilerHalts (compile : Compiler) : Prop :=
  ∀ egress pol function id, (compile egress pol function id).Halts

theorem halts_sevalCall2 {st : State} {compile : Compiler} {pf : Platform} {f : String}
    (h : f = "compile_ingress" ∨ f = "compile_egress" → CompilerHalts compile)
    (l1 l2 : CPLiteral) : (sevalCall2 st compile pf f l1 l2).Halts := by
  have hcompile : ∀ egress p id, CompilerHalts compile →
      (helperCompile st compile egress p id).Halts := by
    intro egress p id hc
    exact .bind (halts_query _) (fun pol => .bind (hc _ _ _ _) (fun _ => .pure _))
  unfold sevalCall2
  split
  · exact hcompile _ _ _ (h (Or.inl rfl))
  · exact hcompile _ _ _ (h (Or.inr rfl))
  · exact .pure _
  · exact closed_lift Comp.Halts.closed _ _

theorem halts_evalCall {st : State} {compile : Compiler} {pf : Platform} {f : String}
    (h : f = "compile_ingress" ∨ f = "compile_egress" → CompilerHalts compile)
    (args : List CPLiteral) : (Control.evalCall st compile pf f args).Halts := by
  rcases args with _ | ⟨a, _ | ⟨b, _ | ⟨c, rest⟩⟩⟩
  · exact closed_lift Comp.Halts.closed _ _
  · exact halts_sevalCall1 st pf f a
  · exact halts_sevalCall2 h a b
  · exact closed_evalBuiltin Comp.Halts.closed pf f _

/-- The program calls the compiler. -/
def CallsCompiler (p : CPProgram) : Prop :=
  ∃ f, p.Calls f "compile_ingress" ∨ p.Calls f "compile_egress"

/-! ## Termination -/

theorem dpTerminates {p : DPProgram} (h : p.Acyclic)
    (rpc : List (Effect DPFlatLiteral) → String → Effect DPFlatLiteral → Except String DPLiteral)
    (pf : Platform) : Terminates ⟨rpc, pf, evalBuiltin pf⟩ p :=
  h.terminates (fun _ g _ _ args => closed_evalBuiltin Comp.Halts.closed pf g args)

theorem cpTerminates {p : CPProgram} (h : p.Acyclic) (st : State)
    (rpc : List CPEffect → String → CPEffect → Except String CPLiteral) (pf : Platform)
    {compile : Compiler} (hcompile : CallsCompiler p → CompilerHalts compile) :
    Terminates (controlPlane st rpc pf compile) p := by
  refine h.terminates (fun f g hcall _ args => halts_evalCall ?_ args)
  rintro (rfl | rfl)
  · exact hcompile ⟨f, Or.inl hcall⟩
  · exact hcompile ⟨f, Or.inr hcall⟩

/-- The check for cycles rules out every recursion, and the functions of the program terminate,
exactly when no function with the name of an internal one calls itself; `fs` are the entry
points that the program is cut to. -/
theorem terminates_iff (fs : List String) :
    (∀ {decls : List (Decl FlatTyp DPFlatLiteral)} {pre : PreProgram FlatTyp DPFlatLiteral},
        PreProgram.fromBuf decls = some pre →
      (((pre.cutTo fs).Acyclic ∧
          ∀ rpc pf, Terminates ⟨rpc, pf, evalBuiltin pf⟩ (pre.cutTo fs)) ↔
        (pre.cutTo fs).NamesakesAcyclic)) ∧
    (∀ {decls : List (Decl CPFlatTyp CPFlatLiteral)} {pre : PreProgram CPFlatTyp CPFlatLiteral},
        PreProgram.fromBuf decls = some pre →
      (((pre.cutTo fs).Acyclic ∧
          ∀ st rpc pf compile, (CallsCompiler (pre.cutTo fs) → CompilerHalts compile) →
            Terminates (controlPlane st rpc pf compile) (pre.cutTo fs)) ↔
        (pre.cutTo fs).NamesakesAcyclic)) := by
  constructor
  · intro decls pre h
    rw [← PreProgram.acyclic_iff h fs]
    exact ⟨And.left, fun hacyclic => ⟨hacyclic, dpTerminates hacyclic⟩⟩
  · intro decls pre h
    rw [← PreProgram.acyclic_iff h fs]
    exact ⟨And.left, fun hacyclic =>
      ⟨hacyclic, fun st rpc pf _ hcompile => cpTerminates hacyclic st rpc pf hcompile⟩⟩

/-- `fn allow_rest_request() -> bool { granted() }`, which calls the other function. -/
def granting : List (Decl FlatTyp DPFlatLiteral) :=
  [.fnDecl ⟨"allow_rest_request", .new [] .bool, .call "granted" []⟩,
    .fnDecl ⟨"granted", .new [] .bool, .litExpr (.bool true)⟩]

/-- `fn onboarding_policy(od: OnboardingData) -> OnboardingResult`, with an error as result. -/
def refusing : List (Decl CPFlatTyp CPFlatLiteral) :=
  [.fnDecl ⟨"onboarding_policy", .new [.flatTyp .onboardingData] (.flatTyp .onboardingResult),
    .closure "od" (.call "OnboardingResult::ErrStr" [.litExpr (.str "refused")])⟩]

theorem terminates_policies :
    (∃ pre, PreProgram.fromBuf granting = some pre ∧ ∀ rpc pf,
      Terminates ⟨rpc, pf, evalBuiltin pf⟩ (pre.cutTo ["allow_rest_request"])) ∧
    ∃ pre, PreProgram.fromBuf refusing = some pre ∧ ∀ st rpc pf,
      Terminates (controlPlane st rpc pf (fun _ _ _ _ => pure ∅))
        (pre.cutTo ["onboarding_policy"]) := by
  constructor
  · have h : ∃ pre, PreProgram.fromBuf granting = some pre := ⟨_, rfl⟩
    obtain ⟨pre, h⟩ := h
    have hno := PreProgram.namesakesAcyclic_cutTo h ["allow_rest_request"] (by simp)
      (by decide +kernel)
    exact ⟨pre, h, (((terminates_iff _).1 h).2 hno).2⟩
  · have h : ∃ pre, PreProgram.fromBuf refusing = some pre := ⟨_, rfl⟩
    obtain ⟨pre, h⟩ := h
    have hno := PreProgram.namesakesAcyclic_cutTo h ["onboarding_policy"] (by simp)
      (by decide +kernel)
    exact ⟨pre, h, fun st rpc pf => (((terminates_iff _).2 h).2 hno).2 st rpc pf _
      (fun _ _ _ _ _ => .pure _)⟩

/-- `fn allow_egress() -> Policy { allow_egress() }`, with the name of a built-in function. -/
def namesake : List (Decl CPFlatTyp CPFlatLiteral) :=
  [.fnDecl ⟨"allow_egress", .new [] (.flatTyp .policy), .call "allow_egress" []⟩]

/-- A function that only calls itself runs out of every fuel. -/
theorem evalN_self {env : Env CPFlatLiteral} {f : String} (hf : env.get f = some (.call f []))
    (n : Nat) (w : World CPFlatLiteral) : (evalN env n (.call f [])).run w = none := by
  induction n with
  | zero => rfl
  | succ n ih =>
      have hcall : ∀ ev : CPExpr → CPEvalM (Outcome CPFlatLiteral),
          evalStep env ev (.call f []) = Outcome.stripReturn <$> ev (.call f []) := by
        intro ev
        show Lang.evalCall env ev f false [] = _
        rw [Lang.evalCall, hf]
        rfl
      have hstep : evalN env (n + 1) (.call f []) = evalStep env (evalN env n) (.call f []) := rfl
      rw [hstep, hcall]
      show (evalN env n (.call f []) >>= _).run w = none
      rw [Comp.run_bind, ih]

/-- The loader accepts the program, and its function calls itself for ever. -/
theorem namesake_diverges :
    ∃ pre, PreProgram.fromBuf namesake = some pre ∧
      ((pre.cutTo []).code.get? "allow_egress").isSome = true ∧
      ∀ rt n w, (evaluateN (Env.new rt (pre.cutTo [])) n (.call "allow_egress" [])).run w =
        none := by
  have h : ∃ pre, PreProgram.fromBuf namesake = some pre ∧
      (pre.cutTo []).code.get? "allow_egress" = some (.call "allow_egress" []) :=
    ⟨_, rfl, rfl⟩
  obtain ⟨pre, hload, hcode⟩ := h
  refine ⟨pre, hload, by rw [hcode]; rfl, fun rt n w => ?_⟩
  show (evalN (Env.new rt (pre.cutTo [])) n (.call "allow_egress" []) >>= _).run w = none
  have hget : (Env.new rt (pre.cutTo [])).get "allow_egress" = some (.call "allow_egress" []) :=
    hcode
  rw [Comp.run_bind, evalN_self hget]

theorem functions_not_internal (proto : Protocol) :
    (proto.functions FlatTyp ≠ [] ∧
      ∀ f ∈ proto.functions FlatTyp, Headers.isInternal FlatTyp f = false) ∧
    proto.functions CPFlatTyp ≠ [] ∧
      ∀ f ∈ proto.functions CPFlatTyp, Headers.isInternal CPFlatTyp f = false := by
  cases proto <;> decide +kernel

/-- A policy is cut to what its entry points reach, so its functions terminate. -/
theorem policies_terminate :
    (∀ {decls : List (Decl FlatTyp DPFlatLiteral)} {pre : PreProgram FlatTyp DPFlatLiteral}
        (proto : Protocol), PreProgram.fromBuf decls = some pre → ∀ rpc pf,
      Terminates ⟨rpc, pf, evalBuiltin pf⟩ (pre.cutTo (proto.functions FlatTyp))) ∧
    (∀ {decls : List (Decl CPFlatTyp CPFlatLiteral)} {pre : PreProgram CPFlatTyp CPFlatLiteral}
        (proto : Protocol), PreProgram.fromBuf decls = some pre → ∀ st rpc pf compile,
      (CallsCompiler (pre.cutTo (proto.functions CPFlatTyp)) → CompilerHalts compile) →
      Terminates (controlPlane st rpc pf compile) (pre.cutTo (proto.functions CPFlatTyp))) := by
  constructor
  · intro decls pre proto h rpc pf
    obtain ⟨⟨hne, hfs⟩, _⟩ := functions_not_internal proto
    have hno := PreProgram.namesakesAcyclic_cutTo h _ hne hfs
    exact dpTerminates ((PreProgram.acyclic_iff h _).2 hno) rpc pf
  · intro decls pre proto h st rpc pf compile hcompile
    obtain ⟨_, hne, hfs⟩ := functions_not_internal proto
    have hno := PreProgram.namesakesAcyclic_cutTo h _ hne hfs
    exact cpTerminates ((PreProgram.acyclic_iff h _).2 hno) st rpc pf hcompile

theorem policies_terminate_granting :
    (∃ pre, PreProgram.fromBuf granting = some pre ∧ ∀ rpc pf,
      Terminates ⟨rpc, pf, evalBuiltin pf⟩ (pre.cutTo (Protocol.HTTP.functions FlatTyp))) ∧
    ∃ pre, PreProgram.fromBuf refusing = some pre ∧ ∀ st rpc pf,
      Terminates (controlPlane st rpc pf (fun _ _ _ _ => pure ∅))
        (pre.cutTo (Protocol.HTTP.functions CPFlatTyp)) := by
  have h : ∃ pre, PreProgram.fromBuf granting = some pre := ⟨_, rfl⟩
  have h' : ∃ pre, PreProgram.fromBuf refusing = some pre := ⟨_, rfl⟩
  obtain ⟨pre, h⟩ := h
  obtain ⟨pre', h'⟩ := h'
  refine ⟨⟨pre, h, policies_terminate.1 .HTTP h⟩, pre', h', fun st rpc pf => ?_⟩
  exact policies_terminate.2 .HTTP h' st rpc pf _ (fun _ _ _ _ _ => .pure _)

end Armour.Control
