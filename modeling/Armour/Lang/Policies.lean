import Armour.Lang.Program

/-! # Policies

`armour-lang/src/policies.rs`: a policy is a program with the status of each entry
function, one policy for each protocol.  The loader (`fromProgram`) admits a program
whose entry functions have one of the signatures of their protocol, and allows the entry
functions that the program does not define.
-/

namespace Armour.Lang

open Armour.Lib

/-- Policy for a function. -/
inductive FnPolicy where
  | Allow
  | Deny
  | Args (n : UInt8)
deriving DecidableEq, Repr

/-- `FnPolicy::default`. -/
instance : Inhabited FnPolicy := ⟨.Deny⟩

def allowRestRequest : String := "allow_rest_request"
def allowRestResponse : String := "allow_rest_response"
def allowTcpConnection : String := "allow_tcp_connection"
def onTcpDisconnect : String := "on_tcp_disconnect"

/-- `is_ingress`. -/
def isIngress (function : String) : Bool :=
  allowRestRequest = function || allowTcpConnection = function

/-- `is_egress`. -/
def isEgress (function : String) : Bool := allowRestResponse = function

/-- Map from function name to `FnPolicy`. -/
abbrev FnPolicies := BTreeMap String FnPolicy

namespace FnPolicies

/-- The status `p` for every name that `keep` holds of: `allow_all`, `deny_egress` and so on. -/
def fill (p : FnPolicy) (keep : String → Bool) (names : List String) : FnPolicies :=
  BTreeMap.ofList ((names.filter keep).map (fun name => (name, p)))

def allowAll (names : List String) : FnPolicies := fill .Allow (fun _ => true) names
def allowEgress (names : List String) : FnPolicies := fill .Allow isEgress names
def allowIngress (names : List String) : FnPolicies := fill .Allow isIngress names
def denyAll (names : List String) : FnPolicies := fill .Deny (fun _ => true) names
def denyEgress (names : List String) : FnPolicies := fill .Deny isEgress names
def denyIngress (names : List String) : FnPolicies := fill .Deny isIngress names

def setArgs (ps : FnPolicies) (k : String) (u : UInt8) : FnPolicies := ps.insert k (.Args u)

end FnPolicies

/-! ## Protocols -/

inductive Protocol where
  | HTTP | TCP
deriving DecidableEq, Repr

namespace Protocol

def rank : Protocol → Nat
  | HTTP => 0
  | TCP => 1

theorem rank_injective : Function.Injective rank := by
  intro a b h
  cases a <;> cases b <;> first | rfl | cases h

instance : LinearOrder Protocol := LinearOrder.lift' rank rank_injective

end Protocol

/-- Map from function name to the list of its permitted signatures. -/
abbrev ProtocolPolicy (FT : Type) := BTreeMap String (List (Signature FT))

namespace ProtocolPolicy

variable {FT : Type} [TFlatTyp FT]

def insertBool (p : ProtocolPolicy FT) (name : String) (args : List (List (Typ FT))) :
    ProtocolPolicy FT :=
  p.insert name (args.map (fun v => .new v .bool))

def insertUnit (p : ProtocolPolicy FT) (name : String) (args : List (List (Typ FT))) :
    ProtocolPolicy FT :=
  p.insert name (args.map (fun v => .new v .unit))

end ProtocolPolicy

section

variable {FT : Type} [TFlatTyp FT]

def httpPolicy : ProtocolPolicy FT :=
  let policy := ProtocolPolicy.insertBool ∅ allowRestRequest
    [[.id, .id, .httpRequest, .data], [.httpRequest, .data], [.httpRequest], []]
  policy.insertBool allowRestResponse
    [[.id, .id, .httpResponse, .data], [.httpResponse, .data], [.httpResponse], []]

def tcpPolicy : ProtocolPolicy FT :=
  let policy := ProtocolPolicy.insertBool ∅ allowTcpConnection
    [[.id, .id, .connection], [.connection], []]
  policy.insertUnit onTcpDisconnect
    [[.id, .id, .connection, .i64, .i64], [.connection, .i64, .i64], [.connection], []]

variable (FT) in
def Protocol.policy : Protocol → ProtocolPolicy FT
  | .HTTP => httpPolicy
  | .TCP => tcpPolicy

variable (FT) in
def Protocol.functions (p : Protocol) : List String := BTreeMap.keys (p.policy FT)

end

/-! ## Policies -/

/-- `Policy`. -/
structure Policy (FT FL : Type) where
  program : Program FT FL
  fnPolicies : FnPolicies

namespace Policy

variable {FT FL : Type}

/-- `Policy::default`. -/
def empty : Policy FT FL := ⟨.empty, ∅⟩

instance : Inhabited (Policy FT FL) := ⟨empty⟩

def merge (p other : Policy FT FL) : Policy FT FL :=
  ⟨p.program.merge other.program, p.fnPolicies.extend other.fnPolicies⟩

def get (p : Policy FT FL) (name : String) : Option FnPolicy := p.fnPolicies.get? name

variable [TFlatTyp FT]

/-- The policies without a program: `allow_all`, `deny_egress` and so on. -/
def ofStatus (status : List String → FnPolicies) (p : Protocol) : Policy FT FL :=
  ⟨.empty, status (p.functions FT)⟩

/-- `type_check` of two signatures. -/
def typeCheck (sig1 sig2 : Signature FT) : Bool :=
  Typ.typeCheck [sig1.typ] [sig2.typ] &&
    match sig1.args, sig2.args with
    | some a1, some a2 => Typ.typeCheck a1 a2
    | some _, none => false
    | none, _ => true

/-- `u8::try_from`. -/
def tryU8 (n : Nat) : Option UInt8 := if n < 256 then some (UInt8.ofNat n) else none

/-- `from_program`: the status of every entry function; `none` when one has a signature
that is not permitted. -/
def fromProgram (program : Program FT FL) (proto : ProtocolPolicy FT) : Option (Policy FT FL) :=
  (go proto.entries ∅).map (Policy.mk program)
where
  go : List (String × List (Signature FT)) → FnPolicies → Option FnPolicies
    | [], ps => some ps
    | (function, signatures) :: rest, ps =>
        match Headers.typ program.headers function with
        | some sig =>
            if signatures.any (typeCheck sig) then
              match sig.args.bind (fun v => tryU8 v.length) with
              | some n => go rest (ps.insert function (.Args n))
              | none => go rest ps
            else none
        | none => go rest (ps.insert function .Allow)

end Policy

/-- `Policies`: a policy for each protocol. -/
abbrev Policies (FT FL : Type) := BTreeMap Protocol (Policy FT FL)

abbrev DPPolicies := Policies FlatTyp DPFlatLiteral

namespace Policies

variable {FT FL : Type}

/-- `merge`: a protocol of both has its policies merged, those of `p` winning. -/
def merge (p other : Policies FT FL) : Policies FT FL :=
  other.entries.foldl (fun new kv => new.insert kv.1 (match p.get? kv.1 with
    | some x1 => kv.2.merge x1
    | none => kv.2)) p

variable [TFlatTyp FT]

/-- The policies without programs, for both protocols. -/
def ofStatus (status : List String → FnPolicies) : Policies FT FL :=
  (BTreeMap.insert ∅ .TCP (Policy.ofStatus status .TCP)).insert .HTTP
    (Policy.ofStatus status .HTTP)

/-- `inner_from`: a protocol whose entry functions reach no code gets no policy. -/
def innerFrom (pre : PreProgram FT FL) : Option (Policies FT FL) := do
  let httpProg := pre.cutTo (Protocol.HTTP.functions FT)
  let policies ← if httpProg.isEmpty then some ∅ else do
    some (BTreeMap.insert ∅ .HTTP (← Policy.fromProgram httpProg httpPolicy))
  let tcpProg := pre.cutTo (Protocol.TCP.functions FT)
  if tcpProg.isEmpty then some policies
  else do
    some (policies.insert .TCP (← Policy.fromProgram tcpProg tcpPolicy))

end Policies

end Armour.Lang
