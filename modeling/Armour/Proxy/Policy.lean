import Armour.Lang.Policies
import Armour.Lang.Semantics

/-! # The policy actor

`policy.rs`, `http_policy.rs` and `tcp_policy.rs` of `armour-proxy/src`: the policies that a
proxy has installed, and the evaluation of their functions.  A policy is installed with the
status of its entry functions, which decides what the proxies ask the actor.
-/

namespace Armour.Lang

/-- `Meta::is_empty`. -/
def Meta.isEmpty (m : Meta) : Bool := m.id.isNone && m.data.isEmpty && m.labels.elems.isEmpty

namespace IngressEgress

/-- `IngressEgress::new`. -/
def new (ingress : Option Meta) (egressId : Label) : IngressEgress :=
  ⟨ingress.getD .empty, .empty, egressId⟩

/-- `IngressEgress::default`. -/
def empty : IngressEgress := ⟨.empty, .empty, ⟨[.str "egress"]⟩⟩

/-- `Env::egress`: no metadata when nothing was written. -/
def egressMeta (m : IngressEgress) : Option Meta :=
  if m.egress.isEmpty then none else some { m.egress with id := some m.egressId }

end IngressEgress

end Armour.Lang

namespace Armour.Proxy

open Armour.Lib Armour.Lang

abbrev DPPolicy := Lang.Policy FlatTyp DPFlatLiteral
abbrev DPError := Error DPFlatLiteral
abbrev DPEffect := Effect DPFlatLiteral

/-! ## Evaluation -/

/-- What an evaluation meets outside of the proxy, the time, and how long it runs. -/
structure Outside where
  rpc : List DPEffect → String → DPEffect → Except String DPLiteral
  platform : Platform
  now : Nat
  fuel : Nat

/-- The environment of the data plane. -/
def dpEnv (o : Outside) (policy : DPPolicy) : Env DPFlatLiteral :=
  Env.new ⟨o.rpc, o.platform, evalBuiltin o.platform⟩ policy.program

/-- The conversion of a result to `T`, with the egress metadata. -/
def convert {T : Type} (tryInto : DPLiteral → Option T) :
    Except DPError (Outcome DPFlatLiteral) × World DPFlatLiteral →
      Except DPError (T × Option Meta)
  | (.error e, _) => .error e
  | (.ok (.ret _), _) => .error (.text "did not evaluate to a literal")
  | (.ok (.lit l), w) =>
      match tryInto l with
      | some r => .ok (r, w.metadata.egressMeta)
      | none => .error (.text "literal has wrong type")

/-- `evaluate`: call a function of the policy; `none` when the call has not ended. -/
def evaluate {T : Type} (tryInto : DPLiteral → Option T) (o : Outside) (policy : DPPolicy)
    (function : String) (args : List DPLiteral) (metadata : IngressEgress) :
    Option (Except DPError (T × Option Meta)) :=
  ((evaluateN (dpEnv o policy) o.fuel (.callExpr function (args.map .litExpr) false)).run
    ⟨metadata, []⟩).map (convert tryInto)

/-- An evaluation that has ended answers what the interpreter does, however long it may run. -/
theorem evaluate_eq_some {T : Type} {tryInto : DPLiteral → Option T} {o : Outside}
    {policy : DPPolicy} {function : String} {args : List DPLiteral} {metadata : IngressEgress}
    {r : Except DPError (T × Option Meta)}
    (h : evaluate tryInto o policy function args metadata = some r) :
    ∃ u, (Outcome.stripReturn <$> eval (dpEnv o policy)
        (.callExpr function (args.map .litExpr) false)).run ⟨metadata, []⟩ = some u ∧
      convert tryInto u = r := by
  obtain ⟨u, hu, hr⟩ := Option.map_eq_some_iff.mp h
  have hlimit : Comp.Limit
      (fun n => evaluateN (dpEnv o policy) n (.callExpr function (args.map .litExpr) false))
      (Outcome.stripReturn <$> eval (dpEnv o policy)
        (.callExpr function (args.map .litExpr) false)) :=
    (evalN_limit _ _).map _
  exact ⟨u, hlimit.sound hu, hr⟩

/-- `TryFrom<Literal> for bool`. -/
def tryBool (l : DPLiteral) : Option Bool := l.getBool?

/-- `TryFrom<Literal> for ()`. -/
def tryUnit (l : DPLiteral) : Option Unit :=
  match l.dp? with
  | some .unit => some ()
  | _ => none

/-! ## Installed policies -/

/-- `PolicyStatus`; the timeout is in seconds. -/
structure PolicyStatus where
  timeout : UInt8
  request : FnPolicy
  response : FnPolicy
  allowAll : Bool

/-- The status that a policy gives a function, denial by default. -/
def statusOf (policy : DPPolicy) (function : String) : FnPolicy :=
  (policy.get function).getD default

namespace PolicyStatus

/-- `PolicyStatus::default`. -/
def empty : PolicyStatus := ⟨5, default, default, false⟩

def updateForPolicy (s : PolicyStatus) (policy : DPPolicy) : PolicyStatus :=
  let request := statusOf policy allowRestRequest
  let response := statusOf policy allowRestResponse
  { s with request, response, allowAll := request = .Allow && response = .Allow }

end PolicyStatus

/-- `HttpPolicy`; its environment is that of the policy. -/
structure HttpPolicy where
  policy : DPPolicy
  status : PolicyStatus

namespace HttpPolicy

/-- `HttpPolicy::default`. -/
def empty : HttpPolicy := ⟨Policy.ofStatus FnPolicies.denyAll .HTTP, .empty⟩

def setPolicy (h : HttpPolicy) (p : DPPolicy) : HttpPolicy :=
  ⟨p, h.status.updateForPolicy p⟩

def setTimeout (h : HttpPolicy) (secs : UInt8) : HttpPolicy :=
  { h with status := { h.status with timeout := secs } }

end HttpPolicy

/-- `TcpPolicy`; its environment is that of the policy. -/
structure TcpPolicy where
  connect : FnPolicy
  disconnect : FnPolicy
  policy : DPPolicy

namespace TcpPolicy

/-- `TcpPolicy::default`. -/
def empty : TcpPolicy := ⟨default, default, Policy.ofStatus FnPolicies.denyAll .TCP⟩

def setPolicy (p : DPPolicy) : TcpPolicy :=
  ⟨statusOf p allowTcpConnection, statusOf p onTcpDisconnect, p⟩

end TcpPolicy

/-- Authenticated encryption of metadata, under a nonce that is made of the time. -/
structure Aead where
  encrypt : Nat → Meta → Option String
  decrypt : String → Option Meta

/-- `PolicyActor`. -/
structure PolicyActor where
  label : Label
  connectionNumber : Nat
  http : HttpPolicy
  tcp : TcpPolicy
  aead : Aead

namespace PolicyActor

/-- `create_policy`. -/
def create (label : Label) (timeout : UInt8) (aead : Aead) : PolicyActor :=
  ⟨label, 0, HttpPolicy.empty.setTimeout timeout, .empty, aead⟩

def encryptMeta (a : PolicyActor) (now : Nat) (metadata : Option Meta) : Option String :=
  metadata.bind (a.aead.encrypt now)

def decryptMeta (a : PolicyActor) (message : String) : Option Meta := a.aead.decrypt message

/-- `connection`, for the identities that the two ends are known under. -/
def connection (a : PolicyActor) (ends : ID × ID) : PolicyActor × Connection :=
  ({ a with connectionNumber := a.connectionNumber + 1 },
    ⟨ends.1, ends.2, Int64.ofNat a.connectionNumber⟩)

def installHttp (a : PolicyActor) (p : DPPolicy) : PolicyActor :=
  { a with http := a.http.setPolicy p }

def installTcp (a : PolicyActor) (p : DPPolicy) : PolicyActor :=
  { a with tcp := .setPolicy p }

/-- `PolicyRequest::SetPolicy`: the policy of a protocol is installed if there is one. -/
def setPolicy (a : PolicyActor) (policies : DPPolicies) : PolicyActor :=
  let a := match policies.get? .TCP with
    | some p => a.installTcp p
    | none => a
  match policies.get? .HTTP with
    | some p => a.installHttp p
    | none => a

/-- `PolicyRequest::Timeout`. -/
def setTimeout (a : PolicyActor) (secs : UInt8) : PolicyActor :=
  { a with http := a.http.setTimeout secs }

variable (a : PolicyActor)

@[simp] theorem setTimeout_tcp (secs : UInt8) : (a.setTimeout secs).tcp = a.tcp := rfl

@[simp] theorem setTimeout_policy (secs : UInt8) :
    (a.setTimeout secs).http.policy = a.http.policy := rfl

@[simp] theorem setPolicy_label (ps : DPPolicies) : (a.setPolicy ps).label = a.label := by
  unfold setPolicy
  cases ps.get? .TCP <;> cases ps.get? .HTTP <;> rfl

@[simp] theorem setPolicy_aead (ps : DPPolicies) : (a.setPolicy ps).aead = a.aead := by
  unfold setPolicy
  cases ps.get? .TCP <;> cases ps.get? .HTTP <;> rfl

theorem setPolicy_http (ps : DPPolicies) :
    (a.setPolicy ps).http = match ps.get? .HTTP with
      | some p => a.http.setPolicy p
      | none => a.http := by
  unfold setPolicy
  cases ps.get? .TCP <;> cases ps.get? .HTTP <;> rfl

theorem setPolicy_tcp (ps : DPPolicies) :
    (a.setPolicy ps).tcp = match ps.get? .TCP with
      | some p => .setPolicy p
      | none => a.tcp := by
  unfold setPolicy
  cases ps.get? .TCP <;> cases ps.get? .HTTP <;> rfl

end PolicyActor

end Armour.Proxy
