import Armour.Host.RestApi
import Armour.Launch.Convert
import Armour.Lib.Keys

/-! # Firewall rules

`rules` of `armour-launch/src/lib.rs`: the traffic of every service is redirected to the port of
its proxy, which is worked out over the proxies of all records.  `up` sends the records to the
host one by one, and the host works out the port of a proxy from its own record.
-/

namespace Armour.Launch

open Armour.Lib Armour.Lang Armour.Api

/-- What `rules` writes for a network of a service. -/
inductive Rule where
  | redirect (service network : String) (port : UInt16)
  | host (ip : UInt32) (hostname : String)
deriving DecidableEq

variable (checks : Bool) {R : Type}

/-- The loop that fills `port_map`; a later proxy of the same label replaces an earlier one. -/
def portMap (port : UInt16) (proxies : List Proxy) : Except String (BTreeMap Label UInt16) :=
  proxies.foldlM (fun m proxy => do
    let p ← proxy.portAfter checks port
    return m.insert proxy.label p) ∅

def unwrapNone : String := "called `Option::unwrap()` on a `None` value"

/-- `proxy_port` of a service. -/
def proxyPort (ports : BTreeMap Label UInt16) (infos : List OnboardInfo) (service : String) :
    Except String (Option UInt16) :=
  if ports.entries.length = 1 then .ok (ports.entries.head?.map Prod.snd)
  else
    match infos.find? (fun x => (x.services.get? service).isSome) with
    | none => .error unwrapNone
    | some x =>
        match x.proxies.head? with
        | none => .error unwrapNone
        | some proxy => .ok (ports.get? proxy.label)

/-- The rules of one network of a service. -/
def networkRules (ports : BTreeMap Label UInt16) (infos : List OnboardInfo) (name : String)
    (hostname : Option String) (network : String × NetworkRecord) :
    Except String (List Rule) := do
  let port ← proxyPort ports infos name
  return (port.map (.redirect name network.1)).toList ++
    (network.2.ipv4Address.bind (fun ip => hostname.map (.host ip))).toList

/-- The rules of one service: of each network in turn, if the service's name is a label. -/
def serviceRules (ports : BTreeMap Label UInt16) (infos : List OnboardInfo)
    (service : String × Service R) : Except String (List Rule) :=
  match service.2.networks, Label.fromStr service.1 with
  | .dict dict, .ok _ => do
      let rules ← dict.entries.mapM (networkRules ports infos service.1 service.2.hostname)
      return rules.flatten
  | _, _ => .ok []

/-- `rules`, on the converted services, their records, and the proxies of all records. -/
def rules (services : BTreeMap String (Service R)) (infos : List OnboardInfo)
    (information : OnboardInformation) : Except String (List Rule) := do
  let ports ← portMap checks information.topPort information.proxies
  let rules ← services.entries.mapM (serviceRules ports infos)
  return rules.flatten

/-- The command `rules`. -/
def rulesCommand {net : Ipnet} {T : Type} (compose : Compose net R T)
    (infos : List OnboardInfo) : Except String (List Rule) :=
  rules checks compose.services infos ⟨infos.flatMap OnboardInfo.proxies, []⟩

end Armour.Launch
