import Armour.Lang.Literals
import Armour.Lib.Machine
import Armour.Lib.Memo

/-! # Identities

The part of `armour-proxy/src/policy.rs` that gives identities to the two ends of a connection.
Labels are assigned to hosts and addresses; an identity is made from what the name service says
and the labels, and is kept in one of two caches until labels change.  The cache of addresses
puts the port in again, the one of hosts does not.
-/

namespace Armour.Proxy.Identities

open Armour.Lib Armour.Lang

abbrev DPID := Lang.ID

inductive Scheme where
  | HTTP | HTTPS | other (name : String)
deriving DecidableEq, Repr

/-- What is asked of a URI. -/
structure Uri where
  scheme : Option Scheme
  host : Option String
  portU16 : Option UInt16
deriving DecidableEq

structure SocketAddr where
  ip : IpAddr
  port : UInt16
deriving DecidableEq

/-- The ends of a connection. -/
inductive ID where
  | uri (u : Uri)
  | socketAddr (s : SocketAddr)
  | anonymous
deriving DecidableEq

/-- The name service and the parser of URIs. -/
structure Network where
  parseUri : String → Option Uri
  lookupHost : String → Option (List IpAddr)
  lookupAddr : IpAddr → Option String

inductive LabelOp where
  | addIp (ipLabels : List (UInt32 × BTreeSet Label))
  | addUri (uriLabels : List (String × BTreeSet Label))
  | removeIp (ip : UInt32) (label : Option Label)
  | removeUri (s : String) (label : Option Label)
  | clear

/-- `Identity` -/
structure Identity where
  hostLabels : BTreeMap String (BTreeSet Label)
  ipLabels : BTreeMap IpAddr (BTreeSet Label)
  hostCache : BTreeMap String DPID
  ipCache : BTreeMap IpAddr DPID

/-- `Identity::default` -/
def Identity.empty : Identity := ⟨∅, ∅, ∅, ∅⟩

/-- A request that fails. -/
inductive PolicyResponse where
  | RequestFailed
deriving DecidableEq, Repr

/-! ## Ports -/

def schemePort (u : Uri) : Option UInt16 :=
  match u.scheme with
  | some .HTTP => some 80
  | some .HTTPS => some 443
  | some (.other _) => none
  | none => none

def getPort (u : Uri) : Option UInt16 := u.portU16.or (schemePort u)

/-! ## Labels -/

/-- `insert` at a key that may not be there. -/
def addLabel {κ : Type} [LinearOrder κ] (m : BTreeMap κ (BTreeSet Label)) (k : κ)
    (label : Label) : BTreeMap κ (BTreeSet Label) :=
  match m.get? k with
  | some labels => m.insert k (labels.insert label)
  | none => m.insert k (BTreeSet.insert ∅ label)

/-- Remove a label, or all of them; a key without labels is removed with its last one. -/
def removeLabel {κ : Type} [LinearOrder κ] (m : BTreeMap κ (BTreeSet Label)) (k : κ)
    (label : Option Label) : BTreeMap κ (BTreeSet Label) :=
  match label with
  | some label =>
      match m.get? k with
      | some labels =>
          if labels.elems.any (· = label) && (labels.erase label).elems.isEmpty then m.erase k
          else m.insert k (labels.erase label)
      | none => m
  | none => m.erase k

namespace Identity

variable (s : Identity)

def clearCaches : Identity := { s with hostCache := ∅, ipCache := ∅ }

def clearLabels : Identity := clearCaches { s with hostLabels := ∅, ipLabels := ∅ }

def addUri (u : Uri) (label : Label) : Identity :=
  match u.host with
  | some host => clearCaches { s with hostLabels := addLabel s.hostLabels host label }
  | none => s

def addIp (ip : IpAddr) (label : Label) : Identity :=
  clearCaches { s with ipLabels := addLabel s.ipLabels ip label }

def removeUri (u : Uri) (label : Option Label) : Identity :=
  match u.host with
  | some host => clearCaches { s with hostLabels := removeLabel s.hostLabels host label }
  | none => s

def removeIp (ip : IpAddr) (label : Option Label) : Identity :=
  clearCaches { s with ipLabels := removeLabel s.ipLabels ip label }

/-- `handle_label_op` -/
def handleLabelOp (net : Network) : LabelOp → Identity × List PolicyResponse
  | .addUri uriLabels =>
      uriLabels.foldl (fun (s, out) (t, labels) =>
        match net.parseUri t with
        | some u => (labels.elems.foldl (fun s label => s.addUri u label) s, out)
        | none => (s, out ++ [.RequestFailed])) (s, [])
  | .addIp ipLabels =>
      (ipLabels.foldl (fun s (ip, labels) =>
        labels.elems.foldl (fun s label => s.addIp (.v4 ip) label) s) s, [])
  | .removeUri t label =>
      match net.parseUri t with
      | some u => (s.removeUri u label, [])
      | none => (s, [.RequestFailed])
  | .removeIp ip label => (s.removeIp (.v4 ip) label, [])
  | .clear => (s.clearLabels, [])

end Identity

/-! ## Identities -/

def isIpv4 : IpAddr → Bool
  | .v4 _ => true
  | .v6 _ => false

/-- `extend` by the labels of a key. -/
def extendLabels {κ : Type} [LinearOrder κ] (labels : BTreeSet Label)
    (m : BTreeMap κ (BTreeSet Label)) (k : κ) : BTreeSet Label :=
  match m.get? k with
  | some lbls => lbls.elems.foldl BTreeSet.insert labels
  | none => labels

namespace Identity

variable (net : Network) (s : Identity)

/-- The identity that `id` makes for a host. -/
def hostId (host : String) (port : Option UInt16) : DPID :=
  let ips := (net.lookupHost host).getD []
  let (ips, labels) := (ips.filter isIpv4).foldl
    (fun (ips, labels) ip => (ips.insert ip, extendLabels labels s.ipLabels ip))
    ((∅ : BTreeSet IpAddr), extendLabels ∅ s.hostLabels host)
  ⟨BTreeSet.insert ∅ host, ips, port, labels⟩

/-- The identity that `id` makes for an address. -/
def addrId (ip : IpAddr) (port : UInt16) : DPID :=
  let (hosts, labels) :=
    match net.lookupAddr ip with
    | some host => (BTreeSet.insert ∅ host, extendLabels ∅ s.hostLabels host)
    | none => ((∅ : BTreeSet String), (∅ : BTreeSet Label))
  if isIpv4 ip then
    ⟨hosts, BTreeSet.insert ∅ ip, some port, extendLabels labels s.ipLabels ip⟩
  else ⟨hosts, ∅, some port, labels⟩

/-- `id` -/
def id : ID → DPID × Identity
  | .anonymous => (.empty, s)
  | .uri u =>
      match u.host with
      | some host =>
          match s.hostCache.get? host with
          | some id => (id, s)
          | none =>
              let id := s.hostId net host (getPort u)
              (id, { s with hostCache := s.hostCache.insert host id })
      | none => (⟨∅, ∅, getPort u, ∅⟩, s)
  | .socketAddr a =>
      match s.ipCache.get? a.ip with
      | some id => (id.setPort a.port, s)
      | none =>
          let id := s.addrId net a.ip a.port
          (id, { s with ipCache := s.ipCache.insert a.ip id })

end Identity

/-- The part of the actor that numbers connections. -/
structure PolicyActor where
  identity : Identity
  connectionNumber : Nat

/-- `connection` -/
def PolicyActor.connection (net : Network) (a : PolicyActor) (source dest : ID) :
    Connection × PolicyActor :=
  let (sourceId, identity) := a.identity.id net source
  let (destId, identity) := identity.id net dest
  (⟨sourceId, destId, Int64.ofNat a.connectionNumber⟩, ⟨identity, a.connectionNumber + 1⟩)

/-! ## The caches as memo tables -/

/-- Identities of hosts; what a query asks for besides the host is the port, and it is not put
in again. -/
def hostMemo (net : Network) : Memo Identity (String × Option UInt16) String DPID where
  compute s q := s.hostId net q.1 q.2
  key := Prod.fst
  restore _ id := id

/-- Identities of addresses; the port is put in again. -/
def ipMemo (net : Network) : Memo Identity SocketAddr IpAddr DPID where
  compute s a := s.addrId net a.ip a.port
  key := SocketAddr.ip
  restore a id := id.setPort a.port

namespace Identity

variable (net : Network) (s : Identity)

theorem id_host {u : Uri} {host : String} (h : u.host = some host) :
    s.id net (.uri u) = (((hostMemo net).lookup s s.hostCache (host, getPort u)).1,
      { s with hostCache := ((hostMemo net).lookup s s.hostCache (host, getPort u)).2 }) := by
  show (match u.host with
    | some host => _
    | none => _) = _
  rw [h]
  unfold Memo.lookup hostMemo
  dsimp only
  cases s.hostCache.get? host <;> rfl

theorem id_noHost {u : Uri} (h : u.host = none) :
    s.id net (.uri u) = (⟨∅, ∅, getPort u, ∅⟩, s) := by
  show (match u.host with
    | some host => _
    | none => _) = _
  rw [h]

theorem id_socketAddr (a : SocketAddr) :
    s.id net (.socketAddr a) = (((ipMemo net).lookup s s.ipCache a).1,
      { s with ipCache := ((ipMemo net).lookup s s.ipCache a).2 }) := by
  unfold Memo.lookup ipMemo Identity.id
  dsimp only
  cases s.ipCache.get? a.ip <;> rfl

/-- Identities of a host differ in their ports alone. -/
theorem hostId_eq_iff (host : String) (p q : Option UInt16) :
    s.hostId net host p = s.hostId net host q ↔ p = q := by
  constructor
  · intro h
    exact congrArg ID.port h
  · exact fun h => h ▸ rfl

theorem setPort_addrId (ip : IpAddr) (p q : UInt16) :
    (s.addrId net ip p).setPort q = s.addrId net ip q := by
  unfold addrId
  cases net.lookupAddr ip <;> cases ip <;> rfl

end Identity

/-- What is in the caches was made from the labels as they are. -/
structure IdentityInv (net : Network) (s : Identity) : Prop where
  hosts : (hostMemo net).Sound s s.hostCache
  ips : (ipMemo net).Sound s s.ipCache

namespace IdentityInv

variable {net : Network} {s : Identity}

theorem clearCaches (s : Identity) : IdentityInv net s.clearCaches :=
  ⟨Memo.Sound.empty _, Memo.Sound.empty _⟩

theorem addUri (h : IdentityInv net s) (u : Uri) (label : Label) :
    IdentityInv net (s.addUri u label) := by
  unfold Identity.addUri
  split
  · exact clearCaches _
  · exact h

theorem removeUri (h : IdentityInv net s) (u : Uri) (label : Option Label) :
    IdentityInv net (s.removeUri u label) := by
  unfold Identity.removeUri
  split
  · exact clearCaches _
  · exact h

/-- Operations on labels clear the caches, if they change anything. -/
theorem handleLabelOp (h : IdentityInv net s) (op : LabelOp) :
    IdentityInv net (s.handleLabelOp net op).1 := by
  cases op with
  | addUri uriLabels =>
      refine List.foldlRecOn (motive := fun r : Identity × List PolicyResponse => IdentityInv net r.1) uriLabels _ h ?_
      rintro ⟨s, out⟩ hs ⟨t, labels⟩ -
      dsimp only
      cases net.parseUri t with
      | some u =>
          exact List.foldlRecOn (motive := IdentityInv net) labels.elems _ hs
            (fun s hs label _ => hs.addUri u label)
      | none => exact hs
  | addIp ipLabels =>
      refine List.foldlRecOn (motive := IdentityInv net) ipLabels _ h ?_
      rintro s hs ⟨ip, labels⟩ -
      exact List.foldlRecOn (motive := IdentityInv net) labels.elems _ hs
        (fun _ _ _ _ => clearCaches _)
  | removeUri t label =>
      show IdentityInv net (match net.parseUri t with
        | some u => (s.removeUri u label, [])
        | none => (s, [PolicyResponse.RequestFailed])).1
      cases net.parseUri t with
      | some u => exact h.removeUri u label
      | none => exact h
  | removeIp ip label => exact clearCaches _
  | clear => exact clearCaches _

theorem id (h : IdentityInv net s) (who : ID) : IdentityInv net (s.id net who).2 := by
  cases who with
  | anonymous => exact h
  | socketAddr a =>
      rw [Identity.id_socketAddr]
      exact ⟨h.hosts, h.ips.lookup a⟩
  | uri u =>
      cases hu : u.host with
      | none =>
          rw [Identity.id_noHost net s hu]
          exact h
      | some host =>
          rw [Identity.id_host net s hu]
          exact ⟨h.hosts.lookup (host, getPort u), h.ips⟩

/-- The answer is the one without caches, unless the host is known under another port. -/
theorem id_eq_iff (h : IdentityInv net s) (who : ID) :
    (s.id net who).1 = (s.clearCaches.id net who).1 ↔
      ∀ u host id, who = .uri u → u.host = some host → s.hostCache.get? host = some id →
        id.port = getPort u := by
  cases who with
  | anonymous => exact ⟨fun _ _ _ _ hu => (nomatch hu), fun _ => rfl⟩
  | socketAddr a =>
      refine ⟨fun _ _ _ _ hu => (nomatch hu), fun _ => ?_⟩
      rw [Identity.id_socketAddr, Identity.id_socketAddr]
      show _ = ((ipMemo net).lookup s.clearCaches ∅ a).1
      rw [Memo.lookup_empty, h.ips.transparent]
      · rfl
      · intro a b hkey
        show (s.addrId net b.ip b.port).setPort a.port = s.addrId net a.ip a.port
        rw [Identity.setPort_addrId, show b.ip = a.ip from hkey]
  | uri u =>
      cases hu : u.host with
      | none =>
          rw [Identity.id_noHost net s hu, Identity.id_noHost net s.clearCaches hu]
          refine ⟨fun _ u' host id hu' hhost => ?_, fun _ => rfl⟩
          obtain rfl := ID.uri.inj hu'
          rw [hu] at hhost
          cases hhost
      | some host =>
          have hmemo := @Memo.lookup_eq_iff _ _ _ _ _ (hostMemo net) s s.hostCache
            (host, getPort u)
          have hport : ∀ id, s.hostCache.get? host = some id →
              (id = s.hostId net host (getPort u) ↔ id.port = getPort u) := by
            intro id hid
            obtain ⟨⟨host', p⟩, hkey, rfl⟩ := h.hosts host id hid
            obtain rfl : host' = host := hkey
            exact s.hostId_eq_iff net host' p (getPort u)
          rw [Identity.id_host net s hu, Identity.id_host net s.clearCaches hu]
          refine hmemo.trans ⟨fun hall u' host' id hu' hhost hid => ?_, fun hall id hid => ?_⟩
          · obtain rfl := ID.uri.inj hu'
            obtain rfl := Option.some.inj (hu.symm.trans hhost)
            exact (hport id hid).mp (hall id hid)
          · exact (hport id hid).mpr (hall u host id rfl hu hid)

end IdentityInv

/-! ## Runs -/

inductive Event where
  | label (op : LabelOp)
  | id (who : ID)
  | connection (source dest : ID)

def Identity.apply (net : Network) (s : Identity) : Event → Identity
  | .label op => (s.handleLabelOp net op).1
  | .id who => (s.id net who).2
  | .connection source dest => (PolicyActor.connection net ⟨s, 0⟩ source dest).2.identity

def identityMachine (net : Network) : Machine Identity Event where
  step s e := some (s.apply net e)

/-- In every state of every run, a look-up gives the identity that it gives without caches
exactly if it is not by a host that was looked up with another port since labels changed. -/
theorem id_transparent_iff (net : Network) (es : List Event) {s : Identity}
    (hvisit : (identityMachine net).Visits .empty es s) (who : ID) :
    (s.id net who).1 = (s.clearCaches.id net who).1 ↔
      ∀ u host id, who = .uri u → u.host = some host → s.hostCache.get? host = some id →
        id.port = getPort u := by
  obtain ⟨pre, -, hrun⟩ := hvisit
  have hinv : IdentityInv net s := by
    refine Machine.run_preserves ?_ (IdentityInv.clearCaches Identity.empty) hrun
    intro t e t' ht hstep
    obtain rfl : t.apply net e = t' := Option.some.inj hstep
    cases e with
    | label op => exact ht.handleLabelOp op
    | id who => exact ht.id who
    | connection source dest => exact (ht.id source).id dest
  exact hinv.id_eq_iff who

/-- A name service that knows nothing. -/
def silent : Network := ⟨fun _ => none, fun _ => none, fun _ => none⟩

/-- `a:port`, as the URI of an authority. -/
def atPort (port : UInt16) : Uri := ⟨none, some "a", some port⟩

/-- A label is added between two look-ups of an address. -/
theorem id_transparent_address : ∃ s,
    (identityMachine silent).run .empty
        [.id (.socketAddr ⟨.v4 1, 80⟩), .label (.addIp [(1, BTreeSet.insert ∅ ⟨[.str "a"]⟩)])] =
      some s ∧
    (s.id silent (.socketAddr ⟨.v4 1, 8080⟩)).1 =
      (s.clearCaches.id silent (.socketAddr ⟨.v4 1, 8080⟩)).1 := by
  refine ⟨_, rfl, ?_⟩
  exact (id_transparent_iff silent
    [.id (.socketAddr ⟨.v4 1, 80⟩), .label (.addIp [(1, BTreeSet.insert ∅ ⟨[.str "a"]⟩)])]
    (Machine.Visits.last rfl) _).mpr (fun _ _ _ hu => nomatch hu)

/-- The same host under two ports: the second look-up gives the first port. -/
theorem id_other_port : ∃ s,
    (identityMachine silent).run .empty [.id (.uri (atPort 80))] = some s ∧
      (s.id silent (.uri (atPort 8080))).1.port = some 80 ∧
      (s.clearCaches.id silent (.uri (atPort 8080))).1.port = some 8080 :=
  ⟨_, rfl, rfl, rfl⟩

end Armour.Proxy.Identities
