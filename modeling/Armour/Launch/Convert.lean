import Armour.Api.Host

/-! # Compose descriptions

`armour-compose/src/lib.rs` and `armour-compose/src/service.rs`: `convert_for_armour` gives every
service an internal network of its own, and pairs the services with the proxies that they name.
The settings of a service that the conversion leaves alone are a parameter.
-/

namespace Armour.Launch

open Armour.Lib Armour.Lang Armour.Api

/-- What `ipnet` makes of the addresses from 172.18.0.0 to 172.31.255.0. -/
structure Ipnet where
  Ipv4Net : Type
  /-- `Ipv4Subnets::new`: the subnets in order. -/
  subnets : List Ipv4Net
  hosts : Ipv4Net → List UInt32
  /-- Different subnets have no host in common. -/
  disjoint : subnets.Pairwise (fun a b => ∀ ip ∈ hosts a, ip ∉ hosts b)

/-- `Armour`: the settings of a service under `armour`. -/
structure ArmourSettings where
  labels : BTreeSet Label
  proxies : BTreeSet Label

structure NetworkRecord where
  ipv4Address : Option UInt32

/-- `Networks` -/
inductive Networks where
  | array (names : List String)
  | dict (records : BTreeMap String NetworkRecord)

/-- `ArrayDict` -/
inductive ArrayDict where
  | array (l : List String)
  | dict (m : BTreeMap String String)

inductive Driver where
  | bridge | overlay | host
deriving DecidableEq

structure Network (net : Ipnet) where
  driver : Option Driver
  driverOpts : BTreeMap String String
  ipam : Option net.Ipv4Net
  internal : Bool

structure Service (R : Type) where
  armour : ArmourSettings
  containerName : Option String
  hostname : Option String
  extraHosts : ArrayDict
  networks : Networks
  settings : R

structure ServiceInfo where
  armourLabels : BTreeSet Label
  armourProxies : BTreeSet Label
  ipv4Address : Option UInt32

structure OnboardInfo where
  proxies : List Proxy
  services : BTreeMap String ServiceInfo

/-- `From<&OnboardInfo> for OnboardInformation` -/
def OnboardInfo.information (info : OnboardInfo) : OnboardInformation :=
  ⟨info.proxies, info.services.entries.filterMap
    (fun s => s.2.ipv4Address.map (fun ip => (ip, s.2.armourLabels)))⟩

/-- `Compose`, with the settings that the conversion leaves alone. -/
structure Compose (net : Ipnet) (R T : Type) where
  services : BTreeMap String (Service R)
  networks : BTreeMap String (Network net)
  proxies : List Proxy
  settings : T

namespace Service

variable {R : Type} (net : Ipnet)

/-- `armour_bridge_network` -/
def armourBridgeNetwork (name : String) : String := "arm-" ++ name

/-- `Service::network`: the network of a service, how the service is in it, and its address. -/
def network (name : String) (subnet : Option net.Ipv4Net) :
    Network net × Networks × Option UInt32 :=
  let bridge := armourBridgeNetwork name
  let opts := BTreeMap.insert ∅ "com.docker.network.bridge.name" bridge
  match subnet with
  | some subnet =>
      let address := (net.hosts subnet)[1]?
      (⟨some .bridge, opts, some subnet, true⟩, .dict (BTreeMap.insert ∅ bridge ⟨address⟩),
        address)
  | none => (⟨some .bridge, opts, none, true⟩, .array [bridge], none)

/-- `Service::convert_for_armour` -/
def convertForArmour (service : Service R) (name : String) (subnet : Option net.Ipv4Net) :
    Service R × ServiceInfo × Network net × Option UInt32 :=
  let (network, networks, address) := network net name subnet
  ({ service with armour := ⟨∅, ∅⟩, networks },
    ⟨service.armour.labels, service.armour.proxies, none⟩, network, address)

end Service

/-- What the loop over the services makes of one of them. -/
structure Converted (net : Ipnet) (R : Type) where
  name : String
  service : Service R
  info : ServiceInfo
  network : Network net
  address : Option UInt32

section

variable {R T : Type} {net : Ipnet} (forms : SocketForms)

/-- The body of the loop over the services. -/
def convertService (name : String) (service : Service R) (subnet : Option net.Ipv4Net) :
    Except String (Converted net R) :=
  if 12 < name.utf8ByteSize then .error ("service name too long, max 12 chars: " ++ name)
  else
    match service.containerName.filter (· ≠ name) with
    | some containerName =>
        .error ("container name != service name: " ++ containerName ++ " != " ++ name)
    | none =>
        let (service, info, network, address) :=
          Service.convertForArmour net { service with containerName := some name } name subnet
        .ok ⟨name, service, info, network, address⟩

/-- The loop over the services, which takes the subnets in order. -/
def convertServices : List (String × Service R) → List net.Ipv4Net →
    Except String (List (Converted net R))
  | [], _ => .ok []
  | (name, service) :: rest, subnets => do
      let c ← convertService name service subnets.head?
      let cs ← convertServices rest subnets.tail
      return c :: cs

/-- `extra_hosts` -/
def extraHosts (cs : List (Converted net R)) : BTreeMap String UInt32 :=
  cs.foldl (fun m c =>
    match c.service.hostname, c.address with
    | some hostname, some address => m.insert hostname address
    | _, _ => m) ∅

/-- The proxies that a description without any gets: one for each service that a label names. -/
def defaultProxies (services : BTreeMap String (Service R)) : List Proxy :=
  services.keys.filterMap (fun name =>
    match Label.fromStr name with
    | .ok label => some (.ofLabel label)
    | .error _ => none)

/-- A service names a proxy when one of its labels is equal to the proxy's. -/
def ServiceInfo.names (info : ServiceInfo) (proxy : Proxy) : Bool :=
  info.armourProxies.elems.any (fun l => l == proxy.label)

/-- The services of one proxy; the first proxy also gets those that name none. -/
def pairedServices (services : BTreeMap String ServiceInfo) (k : Nat) (proxy : Proxy) :
    BTreeMap String ServiceInfo :=
  let paired := services.entries.filter (fun s => s.2.names proxy)
  if k = 0 then
    BTreeMap.ofList (paired ++ services.entries.filter (fun s => s.2.armourProxies.elems.isEmpty))
  else BTreeMap.ofList paired

/-- The addresses of all other hosts. -/
def extraHostsOf (showIp : UInt32 → String) (hosts : BTreeMap String UInt32)
    (hostname : Option String) : ArrayDict :=
  .array (hosts.entries.filterMap (fun h =>
    if some h.1 = hostname then none else some (h.1 ++ ":" ++ showIp h.2)))

/-- `Compose::convert_for_armour` -/
def Compose.convertForArmour (showIp : UInt32 → String) (compose : Compose net R T) :
    Except String (Compose net R T × List OnboardInfo) := do
  let cs ← convertServices compose.services.entries net.subnets
  let services := BTreeMap.ofList (cs.map (fun c => (c.name, c.service)))
  let infos := BTreeMap.ofList (cs.map (fun c => (c.name, c.info)))
  let networks := BTreeMap.ofList
    (cs.map (fun c => (Service.armourBridgeNetwork c.name, c.network)))
  let hosts := extraHosts cs
  let services := if hosts.entries.isEmpty then services
    else services.map (fun s => { s with extraHosts := extraHostsOf showIp hosts s.hostname })
  let proxies ← compose.proxies.mapM (Proxy.setIngress forms hosts)
  let proxies := if proxies.isEmpty then defaultProxies compose.services else proxies
  let info := proxies.mapIdx (fun k proxy => ⟨[proxy], pairedServices infos k proxy⟩)
  return ({ compose with services, networks, proxies := [] }, info)

end

end Armour.Launch
