import Armour.Lang.ControlPlane
import Armour.Lang.Interpret

/-! # Built-in functions of the control plane

`armour-control/src/interpret.rs`: the built-ins that need the state of the control plane,
in front of those that work on literals alone.  The database is outside of the repository;
its answers are a parameter and may depend on everything done before.
-/

namespace Armour.Control

open Armour.Lib Armour.Lang

abbrev CPEffect := Effect CPFlatLiteral
abbrev CPEvalM := EvalM CPFlatLiteral

/-- `State`: the answers of the database, given the effects so far. -/
structure State where
  /-- `present` in the collection of services, by service id. -/
  present : List CPEffect → Label → Except String Bool
  /-- `insert_one` into the collection of services: service id, identity and host. -/
  insertService : List CPEffect → Label → ID → Label → Except String Unit
  /-- `find_one` in the collection of services, by a label of the identity; a database that
  fails finds nothing, and the error is that the document found does not decode. -/
  findService : List CPEffect → Label → Except String (Option ID)
  /-- `get_global_pol`. -/
  globalPol : List CPEffect → Except String GlobalPolicies

/-- A database in which nothing is stored. -/
def State.empty : State where
  present _ _ := .ok false
  insertService _ _ _ _ := .ok ()
  findService _ _ := .ok none
  globalPol _ := .ok ∅

/-- An answer of the database; its error ends the evaluation. -/
def query {α : Type} (f : List CPEffect → Except String α) : CPEvalM α := do
  let w ← Comp.get
  match f w.trace with
  | .ok a => pure a
  | .error msg => Comp.throw (.external msg)

theorem query_ok {α : Type} {q : List CPEffect → Except String α} {w : World CPFlatLiteral}
    {x : α} (h : q w.trace = .ok x) : (query q).run w = some (.ok x, w) := by
  simp only [query, Comp.run_bind, Comp.get, h]
  rfl

theorem query_error {α : Type} {q : List CPEffect → Except String α} {w : World CPFlatLiteral}
    {e : String} (h : q w.trace = .error e) :
    (query q).run w = some (.error (.external e), w) := by
  simp only [query, Comp.run_bind, Comp.get, h]
  rfl

/-- `new_ID`. -/
def newID (obd : OnboardingData) : Label := (Label.concat obd.host obd.service).addPrefix "ServiceID"

/-- `helper_onboarded`. -/
def helperOnboarded (st : State) (obd : OnboardingData) : CPEvalM CPLiteral := do
  let id ← query (fun t => st.findService t (newID obd))
  pure (.ofOption (id.map .id))

def hostPattern : Label := ⟨[.str "Host", .recAny ""]⟩
def serviceIdPattern : Label := ⟨[.str "ServiceID", .recAny ""]⟩

/-- `helper_onboard`. -/
def helperOnboard (st : State) (id : ID) : CPEvalM CPLiteral :=
  match id.findLabel hostPattern, id.findLabel serviceIdPattern with
  | none, _ => Comp.throw (.text "Extracting host from id labels")
  | some _, none => Comp.throw (.text "Extracting service from id labels")
  | some host, some serviceId => do
      if ← query (fun t => st.present t serviceId) then pure (.bool true)
      else do
        query (fun t => st.insertService t serviceId id host)
        EvalM.log ⟨"ControlPlane", "onboard", [.id id], false⟩
        pure (.bool true)

/-- `seval_call0`. -/
def sevalCall0 (pf : Platform) (f : String) : Option CPLiteral :=
  let policy (p : DPPolicies) : Option CPLiteral := some (.flat (.policy p))
  let primitive (name : String) : Option CPLiteral := some (.flat (.primitive name))
  match f with
  | "allow_egress" => policy (Policies.ofStatus FnPolicies.allowEgress)
  | "allow_ingress" => policy (Policies.ofStatus FnPolicies.allowIngress)
  | "Primitive::allow_rest_request" => primitive "allow_rest_request"
  | "Primitive::allow_rest_response" => primitive "allow_rest_response"
  | "Primitive::allow_tcp_connection" => primitive "allow_tcp_connection"
  | "deny_egress" => policy (Policies.ofStatus FnPolicies.denyEgress)
  | "deny_ingress" => policy (Policies.ofStatus FnPolicies.denyIngress)
  | "Primitive::on_tcp_disconnect" => primitive "on_tcp_disconnect"
  | f => TInterpret.evalCall0 pf f

/-- `seval_call1`. -/
def sevalCall1 (st : State) (pf : Platform) (f : String) (l : CPLiteral) : CPEvalM CPLiteral :=
  match f, l with
  | "ControlPlane::onboard", .flat (.dp (.id serviceId)) => helperOnboard st serviceId
  | "ControlPlane::onboarded", .flat (.onboardingData obd) => helperOnboarded st obd
  | "ControlPlane::newID", .flat (.onboardingData obd) =>
      let id : ID := { ID.empty with port := obd.port }
      pure (.id (((id.addLabel (newID obd)).addLabel (obd.service.addPrefix "Service")).addLabel
        (obd.host.addPrefix "Host")))
  | f, l => EvalM.lift (.callType f [l]) (l.evalCall1 pf f)

/-- `compile_ingress` and `compile_egress` (`true`) of a policy, a function and a service. -/
abbrev Compiler := Bool → GlobalPolicies → String → ID → CPEvalM DPPolicies

/-- `helper_compile_ingress` and `helper_compile_egress`. -/
def helperCompile (st : State) (compile : Compiler) (egress : Bool) (function : String)
    (id : ID) : CPEvalM CPLiteral := do
  let globalPol ← query st.globalPol
  let pol ← compile egress globalPol function id
  pure (.flat (.policy pol))

/-- `seval_call2`; the built-in is called `ControlPlane::verify_credentials`, so its arm
here is not reached under that name. -/
def sevalCall2 (st : State) (compile : Compiler) (pf : Platform) (f : String)
    (l1 l2 : CPLiteral) : CPEvalM CPLiteral :=
  match f, l1, l2 with
  | "compile_ingress", .flat (.primitive p), .flat (.dp (.id id)) =>
      helperCompile st compile false p id
  | "compile_egress", .flat (.primitive p), .flat (.dp (.id id)) =>
      helperCompile st compile true p id
  | "verify_credentials", .flat (.onboardingData _), .flat (.dp (.label _)) =>
      pure (.bool true)
  | f, l1, l2 => EvalM.lift (.callType f [l1, l2]) (l1.evalCall2 pf f l2)

/-- `eval_call` of the control plane. -/
def evalCall (st : State) (compile : Compiler) (pf : Platform) (f : String)
    (args : List CPLiteral) : CPEvalM CPLiteral :=
  match args with
  | [] => EvalM.lift (.callType f args) (.ok (sevalCall0 pf f))
  | [l] => sevalCall1 st pf f l
  | [l1, l2] => sevalCall2 st compile pf f l1 l2
  | args => evalBuiltin pf f args

end Armour.Control
