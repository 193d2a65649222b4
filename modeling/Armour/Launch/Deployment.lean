import Armour.Launch.Pairing

/-! # Deployment of a description

Whether `convert_for_armour` and `rules` leave any service without a proxy, and whether the
ports that `rules` redirects to are those that the host starts the proxies on when `up` sends it
the records.
-/

namespace Armour.Launch

open Armour.Lib Armour.Lang Armour.Api

variable {R T : Type} {net : Ipnet} {checks : Bool} {compose compose' : Compose net R T}
  {infos : List OnboardInfo} {proxies : List Proxy}

/-- The networks that a service is in. -/
def Networks.names : Networks → List String
  | array names => names
  | dict records => records.keys

/-- The addresses of a service. -/
def Networks.addresses : Networks → List UInt32
  | array _ => []
  | dict records => records.entries.filterMap (fun r => r.2.ipv4Address)

/-- The service `name` is in the record. -/
def OnboardInfo.holds (info : OnboardInfo) (name : String) : Bool :=
  (info.services.get? name).isSome

/-! ## No service is lost -/

/-- Every service is in the records it should be in and in a network of its own, and `rules`
redirects its traffic. -/
structure LosesNoService (checks : Bool) (compose compose' : Compose net R T)
    (infos : List OnboardInfo) : Prop where
  listed : ∀ name service (k : Nat) proxy, compose.services.get? name = some service →
    compose.proxies[k]? = some proxy → (ServiceInfo.of service).names proxy = true →
      ∃ info, infos[k]? = some info ∧ info.holds name = true
  otherwise : ∀ name service, compose.services.get? name = some service →
    (∀ proxy ∈ compose.proxies, (ServiceInfo.of service).names proxy = false) →
      infos.countP (fun info => info.holds name) = 1
  networks : ∀ a b s t, compose'.services.get? a = some s → compose'.services.get? b = some t →
    a ≠ b → (∀ n ∈ s.networks.names, n ∉ t.networks.names) ∧
      ∀ ip ∈ s.networks.addresses, ip ∉ t.networks.addresses
  rules : ∃ out, rulesCommand checks compose' infos = .ok out ∧
    ∀ name, (compose.services.get? name).isSome →
      ∃ network port, .redirect name network port ∈ out

/-- The service names a listed proxy, or it names none at all, or no proxy is listed and it
names exactly one of those that there are by default. -/
def Attached (compose : Compose net R T) (service : Service R) : Prop :=
  (∃ proxy ∈ compose.proxies, (ServiceInfo.of service).names proxy = true) ∨
    service.armour.proxies.elems = [] ∨
    (compose.proxies = [] ∧
      (defaultProxies compose.services).countP (ServiceInfo.of service).names = 1)

section

variable {services : BTreeMap String (Service R)} {name : String} {service : Service R}

theorem countP_mapIdx {α β : Type} {f : Nat → α → β} {g : β → Bool} {p : α → Bool} {l : List α}
    (h : ∀ k a, g (f k a) = p a) : (l.mapIdx f).countP g = l.countP p := by
  induction l generalizing f with
  | nil => rfl
  | cons a l ih =>
      rw [List.mapIdx_cons, List.countP_cons, List.countP_cons, h,
        ih (fun k a => h (k + 1) a)]

/-- The number of records that a service is in. -/
theorem countP_records (hs : services.get? name = some service) :
    (records services proxies).countP (fun info => info.holds name) =
      if service.armour.proxies.elems = [] then min 1 proxies.length
      else proxies.countP (ServiceInfo.of service).names := by
  unfold records OnboardInfo.holds
  by_cases he : service.armour.proxies.elems = []
  · have hpaired : ∀ k p, ((pairedServices (services.map ServiceInfo.of) k p).get? name).isSome =
        decide (k = 0) := by
      intro k p
      rw [Bool.eq_iff_iff, isSome_paired hs, PairedAt, if_pos he, decide_eq_true_iff]
    rw [if_pos he]
    cases proxies with
    | nil => rfl
    | cons p ps =>
        rw [List.mapIdx_cons, List.countP_cons, hpaired, List.length_cons]
        have hrest := @countP_mapIdx _ _
          (fun k p => (⟨[p], pairedServices (services.map ServiceInfo.of) (k + 1) p⟩ : OnboardInfo))
          (fun info => (info.services.get? name).isSome) (fun _ => false) ps
          (fun k p => by rw [hpaired]; rfl)
        rw [hrest, List.countP_false]
        simp
  · rw [if_neg he]
    refine countP_mapIdx (fun k p => ?_)
    rw [Bool.eq_iff_iff, isSome_paired hs, PairedAt, if_neg he]

/-- A converted service is in the network of its place. -/
theorem Accepted.networks (h : Accepted compose compose' infos) {s : Service R}
    (hs : compose'.services.get? name = some s) : ∃ (i : Nat) (service : Service R),
      compose.services.entries[i]? = some (name, service) ∧
        s.networks = networksOf net name net.subnets[i]? := by
  obtain ⟨f, hentries, hconv⟩ := h.services
  have hmem := (BTreeMap.mem_entries compose'.services name s).mpr hs
  rw [hentries, List.mem_mapIdx] at hmem
  obtain ⟨i, hi, heq⟩ := hmem
  obtain ⟨rfl, rfl⟩ := Prod.mk.inj heq
  exact ⟨i, _, List.getElem?_eq_getElem hi, (hconv i _).networks⟩

theorem names_networksOf (subnet : Option net.Ipv4Net) :
    (networksOf net name subnet).names = [Service.armourBridgeNetwork name] := by
  cases subnet <;> rfl

theorem addresses_networksOf (subnet : Option net.Ipv4Net) :
    (networksOf net name subnet).addresses =
      (subnet.bind (fun subnet => (net.hosts subnet)[1]?)).toList := by
  cases subnet with
  | none => rfl
  | some subnet =>
      have hentries : (networksOf net name (some subnet)).addresses =
          [(Service.armourBridgeNetwork name, (⟨(net.hosts subnet)[1]?⟩ : NetworkRecord))].filterMap
            (fun r => r.2.ipv4Address) := rfl
      rw [hentries, Option.bind_some]
      cases hosts : (net.hosts subnet)[1]? <;> rfl

theorem armourBridgeNetwork_injective {a b : String}
    (h : Service.armourBridgeNetwork a = Service.armourBridgeNetwork b) : a = b := by
  have hchars := congrArg String.toList h
  rw [← String.toList_inj]
  simpa [Service.armourBridgeNetwork] using hchars

/-- Different services are in different networks, at different addresses. -/
theorem Accepted.apart (h : Accepted compose compose' infos) {a b : String} {s t : Service R}
    (hs : compose'.services.get? a = some s) (ht : compose'.services.get? b = some t)
    (hab : a ≠ b) : (∀ n ∈ s.networks.names, n ∉ t.networks.names) ∧
      ∀ ip ∈ s.networks.addresses, ip ∉ t.networks.addresses := by
  obtain ⟨i, sa, hi, hns⟩ := h.networks hs
  obtain ⟨j, sb, hj, hnt⟩ := h.networks ht
  rw [hns, hnt, names_networksOf, names_networksOf, addresses_networksOf, addresses_networksOf]
  constructor
  · intro n hn hn'
    rw [List.mem_singleton.mp hn, List.mem_singleton] at hn'
    exact hab (armourBridgeNetwork_injective hn')
  · intro ip hip hip'
    obtain ⟨x, hx, hxip⟩ := Option.bind_eq_some_iff.mp (Option.mem_toList.mp hip)
    obtain ⟨y, hy, hyip⟩ := Option.bind_eq_some_iff.mp (Option.mem_toList.mp hip')
    have hne : i ≠ j := by
      rintro rfl
      rw [hi] at hj
      exact hab (Prod.mk.inj (Option.some.inj hj)).1
    have hxi := List.mem_of_getElem? hxip
    have hyi := List.mem_of_getElem? hyip
    obtain ⟨hilt, rfl⟩ := List.getElem?_eq_some_iff.mp hx
    obtain ⟨hjlt, rfl⟩ := List.getElem?_eq_some_iff.mp hy
    rcases Nat.lt_or_gt_of_ne hne with hlt | hlt
    · exact List.pairwise_iff_getElem.mp net.disjoint i j hilt hjlt hlt ip hxi hyi
    · exact List.pairwise_iff_getElem.mp net.disjoint j i hjlt hilt hlt ip hyi hxi

/-! ### What matters of the proxies -/

theorem names_congr {info : ServiceInfo} {p q : Proxy} (h : p.label = q.label) :
    info.names p = info.names q := by
  unfold ServiceInfo.names
  rw [h]

theorem countP_names_congr {info : ServiceInfo} {ps qs : List Proxy}
    (h : ps.map proxyKey = qs.map proxyKey) : ps.countP info.names = qs.countP info.names := by
  have hkeys : ∀ l : List Proxy, l.countP info.names =
      (l.map proxyKey).countP (fun key => info.armourProxies.elems.any (fun l => l == key.1)) := by
    intro l
    rw [List.countP_map]
    rfl
  rw [hkeys, hkeys, h]

/-- The proxies that there are by default choose no ports, so that no addition overflows. -/
theorem fits_effectiveProxies : Fits checks compose.effectiveProxies ↔ Fits checks compose.proxies := by
  unfold Compose.effectiveProxies
  split_ifs with he
  · have hports : (defaultProxies compose.services).filterMap Proxy.port = [] := by
      rw [List.filterMap_eq_nil_iff]
      intro proxy hp
      obtain ⟨name, -, hname⟩ := List.mem_filterMap.mp hp
      split at hname
      · cases hname
        rfl
      · cases hname
    have htop : topPort (defaultProxies compose.services) = 5999 := by
      rw [topPort, hports]
      rfl
    refine iff_of_true (fun _ proxy _ ho => ?_) (fun _ proxy hp => ?_)
    · have hlast := ho.2
      rw [htop] at hlast
      exact absurd hlast (by decide)
    · rw [List.isEmpty_iff.mp he] at hp
      cases hp
  · exact Iff.rfl

theorem Attached.isSome_firstProxy {service : Service R} (h : Attached compose service)
    (hkeys : proxies.map proxyKey = compose.effectiveProxies.map proxyKey)
    (hne : compose.effectiveProxies ≠ []) : (firstProxy proxies service).isSome := by
  have hlen : proxies.length = compose.effectiveProxies.length := by
    simpa using congrArg List.length hkeys
  unfold firstProxy
  by_cases he : service.armour.proxies.elems = []
  · rw [if_pos he]
    cases proxies with
    | nil => exact absurd (List.eq_nil_of_length_eq_zero hlen.symm) hne
    | cons p ps => rfl
  · rw [if_neg he]
    have hcount : 0 < compose.effectiveProxies.countP (ServiceInfo.of service).names := by
      rcases h with ⟨proxy, hp, hn⟩ | hnil | ⟨hnone, hone⟩
      · have hlisted : compose.effectiveProxies = compose.proxies := by
          unfold Compose.effectiveProxies
          rw [if_neg]
          rw [List.isEmpty_iff]
          exact List.ne_nil_of_mem hp
        rw [hlisted, List.countP_pos_iff]
        exact ⟨proxy, hp, hn⟩
      · exact absurd hnil he
      · have hdefault : compose.effectiveProxies = defaultProxies compose.services := by
          unfold Compose.effectiveProxies
          rw [if_pos (by rw [hnone]; rfl)]
        rw [hdefault, hone]
        exact Nat.one_pos
    rw [← countP_names_congr hkeys, List.countP_pos_iff] at hcount
    rw [List.find?_isSome]
    exact hcount

/-- A service that names no listed proxy is in one record exactly if it is attached. -/
theorem countP_records_eq_one {service : Service R} {name : String}
    (hs : compose.services.get? name = some service)
    (hkeys : proxies.map proxyKey = compose.effectiveProxies.map proxyKey)
    (hne : compose.effectiveProxies ≠ [])
    (hnone : ∀ proxy ∈ compose.proxies, (ServiceInfo.of service).names proxy = false) :
    (records compose.services proxies).countP (fun info => info.holds name) = 1 ↔
      Attached compose service := by
  have hlen : proxies.length = compose.effectiveProxies.length := by
    simpa using congrArg List.length hkeys
  have hpos := List.length_pos_iff.mpr hne
  have hnot : ¬ ∃ proxy ∈ compose.proxies, (ServiceInfo.of service).names proxy = true := by
    rintro ⟨proxy, hp, hn⟩
    rw [hnone proxy hp] at hn
    cases hn
  rw [countP_records hs, Attached, or_iff_right hnot, countP_names_congr hkeys]
  split_ifs with he
  · exact iff_of_true (by omega) (Or.inl he)
  · rw [or_iff_right he]
    unfold Compose.effectiveProxies
    cases hp : compose.proxies with
    | nil => simp
    | cons p ps =>
        have hzero : (p :: ps).countP (ServiceInfo.of service).names = 0 := by
          rw [List.countP_eq_zero]
          intro q hq
          rw [hnone q (by rw [hp]; exact hq)]
          exact Bool.false_ne_true
        simp [hzero]

theorem Ruled.effectiveProxies_ne_nil {name : String} (h : Ruled compose name) :
    compose.effectiveProxies ≠ [] := by
  obtain ⟨i, service, hi, -⟩ := h.subnet
  obtain ⟨label, hlabel⟩ := h.label
  unfold Compose.effectiveProxies
  split_ifs with he
  · refine List.ne_nil_of_mem (a := .ofLabel label) ?_
    refine List.mem_filterMap.mpr ⟨name, ?_, by rw [hlabel]⟩
    exact List.mem_map.mpr ⟨_, List.mem_of_getElem? hi, rfl⟩
  · rwa [List.isEmpty_iff] at he

theorem Ruled.of_length (hlen : compose.services.entries.length ≤ net.subnets.length)
    {name : String} {service : Service R} (hs : compose.services.get? name = some service)
    (hlabel : ∃ label, Label.fromStr name = .ok label) : Ruled compose name := by
  refine ⟨?_, hlabel⟩
  have hmem := (BTreeMap.mem_entries compose.services name service).mpr hs
  obtain ⟨i, hi, heq⟩ := List.mem_iff_getElem.mp hmem
  refine ⟨i, service, by rw [List.getElem?_eq_getElem hi, heq], ?_⟩
  rw [List.getElem?_eq_getElem (Nat.lt_of_lt_of_le hi hlen)]
  rfl

/-- There is a subnet for each service when every one has a rule. -/
theorem length_le_of_ruled
    (h : ∀ name, (compose.services.get? name).isSome → Ruled compose name) :
    compose.services.entries.length ≤ net.subnets.length := by
  by_contra hlt
  obtain ⟨e, he⟩ : ∃ e, compose.services.entries[net.subnets.length]? = some e :=
    ⟨_, List.getElem?_eq_getElem (by omega)⟩
  obtain ⟨name, service⟩ := e
  have hget := (BTreeMap.mem_entries compose.services name service).mp (List.mem_of_getElem? he)
  obtain ⟨j, s, hj, hsub⟩ := (h name (by rw [hget]; rfl)).subnet
  rw [← BTreeMap.place_unique compose.services he hj] at hsub
  simp at hsub

end

/-- No service is lost exactly if every service is attached to a proxy and has the name of a
label, there are enough subnets, and no port overflows. -/
theorem losesNoService_iff {forms : SocketForms} {showIp : UInt32 → String}
    (h : compose.convertForArmour forms showIp = .ok (compose', infos)) :
    LosesNoService checks compose compose' infos ↔
      (∀ name service, compose.services.get? name = some service →
        Attached compose service ∧ ∃ label, Label.fromStr name = .ok label) ∧
      compose.services.entries.length ≤ net.subnets.length ∧ Fits checks compose.proxies := by
  have hacc := Compose.accepted h
  obtain ⟨proxies, hkeys, hinfos⟩ := hacc.records
  have hrecords : infos = records compose.services proxies := hinfos
  have hflat : infos.flatMap OnboardInfo.proxies = proxies := by
    rw [hinfos]
    exact flatMap_proxies _
  have hfits : Fits checks proxies ↔ Fits checks compose.proxies :=
    (fits_congr hkeys).trans fits_effectiveProxies
  obtain ⟨hends, hrules⟩ := @rulesCommand_spec _ _ _ checks _ _ _ _ hacc hflat
  constructor
  · intro hl
    obtain ⟨out, hout, hall⟩ := hl.rules
    have hruled : ∀ name, (compose.services.get? name).isSome → Ruled compose name := by
      intro name hs
      obtain ⟨network, port, hmem⟩ := hall name hs
      exact ((hrules out hout name network port).mp hmem).1
    refine ⟨fun name service hs => ?_, length_le_of_ruled hruled,
      hfits.mp (hends.mp ⟨out, hout⟩).1⟩
    have hr := hruled name (by rw [hs]; rfl)
    refine ⟨?_, hr.label⟩
    by_cases hlisted : ∃ proxy ∈ compose.proxies, (ServiceInfo.of service).names proxy = true
    · exact Or.inl hlisted
    · have hnone : ∀ proxy ∈ compose.proxies, (ServiceInfo.of service).names proxy = false := by
        intro proxy hp
        rw [← Bool.not_eq_true]
        exact fun hn => hlisted ⟨proxy, hp, hn⟩
      refine (countP_records_eq_one hs hkeys hr.effectiveProxies_ne_nil hnone).mp ?_
      rw [← hrecords]
      exact hl.otherwise name service hs hnone
  · rintro ⟨hall, hlen, hfit⟩
    have hruled : ∀ name service, compose.services.get? name = some service →
        Ruled compose name := fun name service hs => .of_length hlen hs (hall name service hs).2
    refine ⟨?_, ?_, fun a b s t hs ht hab => hacc.apart hs ht hab, ?_⟩
    · intro name service k proxy hs hk hn
      have hlisted : compose.effectiveProxies = compose.proxies := by
        unfold Compose.effectiveProxies
        rw [if_neg]
        rw [List.isEmpty_iff]
        exact List.ne_nil_of_mem (List.mem_of_getElem? hk)
      have hkey : (proxies[k]?).map proxyKey = some (proxyKey proxy) := by
        rw [← List.getElem?_map, hkeys, hlisted, List.getElem?_map, hk]
        rfl
      obtain ⟨p, hp, hpk⟩ := Option.map_eq_some_iff.mp hkey
      have hpn : (ServiceInfo.of service).names p = true := by
        rw [names_congr (congrArg Prod.fst hpk), hn]
      have hne : service.armour.proxies.elems ≠ [] := by
        intro he
        rw [names_of_nil he] at hpn
        cases hpn
      refine ⟨_, by rw [hinfos, List.getElem?_mapIdx, hp]; rfl, ?_⟩
      refine (isSome_paired hs k p).mpr ?_
      rw [PairedAt, if_neg hne, hpn]
    · intro name service hs hnone
      have hr := hruled name service hs
      rw [hrecords]
      exact (countP_records_eq_one hs hkeys hr.effectiveProxies_ne_nil hnone).mpr
        (hall name service hs).1
    · have hport : ∀ name service, compose.services.get? name = some service → ∃ r : Proxy,
          proxyPort (portsOf proxies) infos name = .ok (some (r.portOr (topPort proxies))) := by
        intro name service hs
        obtain ⟨q, hq⟩ := Option.isSome_iff_exists.mp ((hall name service hs).1.isSome_firstProxy
          hkeys (hruled name service hs).effectiveProxies_ne_nil)
        obtain ⟨r, -, hr⟩ := proxyPort_paired hs hq
        rw [hrecords]
        exact ⟨r, hr⟩
      obtain ⟨out, hout⟩ := hends.mpr ⟨hfits.mpr hfit, fun name hr => by
        obtain ⟨i, service, hi, -⟩ := hr.subnet
        obtain ⟨r, hp⟩ := hport name service
          ((BTreeMap.mem_entries _ _ _).mp (List.mem_of_getElem? hi))
        exact ⟨_, hp⟩⟩
      refine ⟨out, hout, fun name hs => ?_⟩
      obtain ⟨service, hs⟩ := Option.isSome_iff_exists.mp hs
      obtain ⟨r, hp⟩ := hport name service hs
      exact ⟨_, _, (hrules out hout name _ _).mpr ⟨hruled name service hs, rfl, hp⟩⟩

/-- The first subnet of `ipnet`. -/
def firstSubnet : Ipnet where
  Ipv4Net := UInt32
  subnets := [0xac120000]
  hosts subnet := (List.range 254).map (fun i => subnet + 1 + .ofNat i)
  disjoint := List.pairwise_singleton _ _

/-- A service that names one proxy. -/
def serviceOf (label : Label) : Service Unit :=
  ⟨⟨∅, BTreeSet.ofList [label]⟩, none, none, .array [], .array [], ()⟩

/-- A description with one service, `a`, that names the proxy `label`. -/
def descriptionOf (label : Label) (proxies : List Proxy) : Compose firstSubnet Unit Unit :=
  ⟨BTreeMap.ofList [("a", serviceOf label)], ∅, proxies, ()⟩

/-- A service that names the proxy `x`, which is listed. -/
theorem losesNoService_listed :
    ∃ compose' infos, (descriptionOf ⟨[.str "x"]⟩ [.ofLabel ⟨[.str "x"]⟩]).convertForArmour
        noSockets (fun _ => "") = .ok (compose', infos) ∧
      LosesNoService true (descriptionOf ⟨[.str "x"]⟩ [.ofLabel ⟨[.str "x"]⟩]) compose' infos := by
  refine ⟨_, _, rfl, (@losesNoService_iff _ _ _ _ (descriptionOf ⟨[.str "x"]⟩
    [.ofLabel ⟨[.str "x"]⟩]) _ _ noSockets (fun _ => "") rfl).mpr ⟨?_, by decide, by decide⟩⟩
  intro name service hs
  have hmem := (BTreeMap.mem_entries _ name service).mpr hs
  have hentries : (descriptionOf ⟨[.str "x"]⟩ [.ofLabel ⟨[.str "x"]⟩]).services.entries =
      [("a", serviceOf ⟨[.str "x"]⟩)] := rfl
  rw [hentries, List.mem_singleton] at hmem
  cases hmem
  exact ⟨Or.inl ⟨_, List.mem_singleton_self _, by decide⟩, _, rfl⟩

/-- A service that names the proxy `x`, where `c` and `d` are listed: it is in no record, and
`rules` panics. -/
theorem losesNoService_unlisted :
    ∃ compose' infos,
      (descriptionOf ⟨[.str "x"]⟩ [.ofLabel ⟨[.str "c"]⟩, .ofLabel ⟨[.str "d"]⟩]).convertForArmour
        noSockets (fun _ => "") = .ok (compose', infos) ∧
      infos.map (fun info => info.holds "a") = [false, false] ∧
      rulesCommand true compose' infos = .error unwrapNone ∧
      ¬ LosesNoService true
        (descriptionOf ⟨[.str "x"]⟩ [.ofLabel ⟨[.str "c"]⟩, .ofLabel ⟨[.str "d"]⟩])
        compose' infos := by
  refine ⟨_, _, rfl, rfl, rfl, fun h => ?_⟩
  obtain ⟨out, hout, -⟩ := h.rules
  cases hout

/-! ## Rules and started proxies -/

/-- `rules` ends, and redirects the traffic of a service to the port on which the host starts a
proxy when it is sent a record with the service. -/
def RulesAgree (forms : SocketForms) (checks hostChecks : Bool) (compose' : Compose net R T)
    (infos : List OnboardInfo) : Prop :=
  ∃ out, rulesCommand checks compose' infos = .ok out ∧
    ∀ name network port, .redirect name network port ∈ out →
      ∀ info ∈ infos, info.holds name = true →
        Host.startedPorts forms hostChecks info.information = [port]

/-- The proxy whose port a service is redirected to: the last one with the label of the first
one that the service is paired with. -/
def ruleProxy (proxies : List Proxy) (service : Service R) : Option Proxy :=
  (firstProxy proxies service).bind (fun q => lastOf proxies q.label)

/-- The port of a proxy on its own is the one that it or another proxy has among all; `top` is
the greatest port that is chosen, or 5999. -/
def SamePort (top : UInt16) : Option UInt16 → Option UInt16 → Prop
  | some a, some b => a = b
  | none, some b => b = 6000
  | none, none => top = 5999
  | some a, none => a = 0 ∧ top = 65535

/-- What makes the rules agree with the started proxies. -/
structure PortsMatch (checks : Bool) (compose : Compose net R T) : Prop where
  fits : Fits checks compose.proxies
  found : ∀ name service, compose.services.get? name = some service → Ruled compose name →
    (firstProxy compose.effectiveProxies service).isSome ∨
      ∃ label, ∀ proxy ∈ compose.effectiveProxies, proxy.label = label
  same : ∀ name service, compose.services.get? name = some service → Ruled compose name →
    ∀ (k : Nat) p, compose.effectiveProxies[k]? = some p → PairedAt service k p →
      ∀ q, ruleProxy compose.effectiveProxies service = some q →
        SamePort (topPort compose.effectiveProxies) p.port q.port

theorem samePort_iff {proxies : List Proxy} {p q : Proxy} (hp : p ∈ proxies) :
    p.port.getD 6000 = q.portOr (topPort proxies) ↔
      SamePort (topPort proxies) p.port q.port := by
  have hle : ∀ a, p.port = some a → a ≤ topPort proxies := fun a ha =>
    le_topPort (List.mem_filterMap.mpr ⟨p, hp, ha⟩)
  unfold Proxy.portOr
  generalize topPort proxies = top at hle ⊢
  have htop := top.toNat_lt
  cases hpp : p.port with
  | some a =>
      cases q.port with
      | some b => exact Iff.rfl
      | none =>
          have ha := UInt16.le_iff_toNat_le.mp (hle a hpp)
          simp only [Option.getD_some, Option.getD_none, SamePort]
          rw [← UInt16.toNat_inj, ← UInt16.toNat_inj, ← UInt16.toNat_inj, UInt16.toNat_add]
          simp only [UInt16.toNat_ofNat]
          omega
  | none =>
      cases q.port with
      | some b =>
          simp only [Option.getD_some, Option.getD_none, SamePort]
          exact eq_comm
      | none =>
          simp only [Option.getD_none, SamePort]
          rw [← UInt16.toNat_inj, ← UInt16.toNat_inj, UInt16.toNat_add]
          simp only [UInt16.toNat_ofNat]
          omega

/-- The host starts the proxy of a record on its own port, or on 6000. -/
theorem startedPorts_single (forms : SocketForms) (hostChecks : Bool) (p : Proxy)
    (labels : List (UInt32 × BTreeSet Label)) :
    Host.startedPorts forms hostChecks ⟨[p], labels⟩ = [p.port.getD 6000] := by
  have htop : topPort [p] = p.port.getD 5999 := by
    unfold topPort
    cases hp : p.port <;> simp [hp]
  have hport : p.portAfter hostChecks (topPort [p]) = .ok (p.port.getD 6000) := by
    rw [htop, Proxy.portAfter]
    cases p.port with
    | some a => rfl
    | none => cases hostChecks <;> rfl
  have hstart := (@Host.onBoardProxies_ports forms hostChecks (topPort [p]) labels [p]
    (fun p => p.port.getD 6000) (by simpa using hport)).2
  exact hstart

section

variable {ps qs : List Proxy} {service : Service R}

theorem firstProxy_congr (h : ps.map proxyKey = qs.map proxyKey) :
    (firstProxy ps service).map proxyKey = (firstProxy qs service).map proxyKey := by
  have hfind : ∀ l : List Proxy, (l.find? (ServiceInfo.of service).names).map proxyKey =
      (l.map proxyKey).find?
        (fun key => (ServiceInfo.of service).armourProxies.elems.any (fun l => l == key.1)) := by
    intro l
    rw [List.find?_map]
    rfl
  unfold firstProxy
  split_ifs
  · rw [← List.head?_map, ← List.head?_map, h]
  · rw [hfind, hfind, h]

theorem lastOf_congr (h : ps.map proxyKey = qs.map proxyKey) (label : Label) :
    (lastOf ps label).map proxyKey = (lastOf qs label).map proxyKey := by
  have hfilter : ∀ l : List Proxy, (l.filter (fun proxy => proxy.label = label)).map proxyKey =
      (l.map proxyKey).filter (fun key => key.1 = label) := by
    intro l
    rw [List.filter_map]
    rfl
  unfold lastOf
  rw [← List.getLast?_map, ← List.getLast?_map, hfilter, hfilter, h]

theorem ruleProxy_congr (h : ps.map proxyKey = qs.map proxyKey) :
    (ruleProxy ps service).map proxyKey = (ruleProxy qs service).map proxyKey := by
  have hfirst := @firstProxy_congr R ps qs service h
  unfold ruleProxy
  cases hp : firstProxy ps service with
  | none =>
      rw [hp, Option.map_none, eq_comm, Option.map_eq_none_iff] at hfirst
      rw [hfirst]
      rfl
  | some p =>
      rw [hp, Option.map_some, eq_comm, Option.map_eq_some_iff] at hfirst
      obtain ⟨q, hq, hkey⟩ := hfirst
      have hlabel : q.label = p.label := congrArg Prod.fst hkey
      rw [hq, Option.bind_some, Option.bind_some, hlabel]
      exact lastOf_congr h p.label

/-- There is one port exactly if all proxies have one label. -/
theorem length_portsOf (hne : ps ≠ []) :
    (portsOf ps).entries.length = 1 ↔ ∃ label, ∀ proxy ∈ ps, proxy.label = label := by
  have hkeys : ∀ label, ((portsOf ps).get? label).isSome ↔ ∃ proxy ∈ ps, proxy.label = label := by
    intro label
    rw [get?_portMap, Option.isSome_map, isSome_lastOf]
  have hmem : ∀ label, label ∈ (portsOf ps).keys ↔ ((portsOf ps).get? label).isSome := by
    intro label
    rw [BTreeMap.keys, List.mem_map, Option.isSome_iff_exists]
    constructor
    · rintro ⟨e, he, rfl⟩
      exact ⟨e.2, (BTreeMap.mem_entries _ _ _).mp he⟩
    · rintro ⟨v, hv⟩
      exact ⟨(label, v), (BTreeMap.mem_entries _ _ _).mpr hv, rfl⟩
  have hlen : (portsOf ps).entries.length = (portsOf ps).keys.length := by
    rw [BTreeMap.keys, List.length_map]
  have hnd : (portsOf ps).keys.Nodup :=
    (List.pairwise_map.mpr (portsOf ps).sorted).imp (fun hlt => ne_of_lt hlt)
  rw [hlen]
  constructor
  · intro hone
    obtain ⟨label, hl⟩ := List.length_eq_one_iff.mp hone
    refine ⟨label, fun proxy hp => ?_⟩
    have hin := (hmem proxy.label).mpr ((hkeys proxy.label).mpr ⟨proxy, hp, rfl⟩)
    rw [hl] at hin
    exact List.mem_singleton.mp hin
  · rintro ⟨label, hall⟩
    obtain ⟨p, hp⟩ := List.exists_mem_of_ne_nil ps hne
    have hin := (hmem label).mpr ((hkeys label).mpr ⟨p, hp, hall p hp⟩)
    have hsame : ∀ l ∈ (portsOf ps).keys, l = label := by
      intro l hl
      obtain ⟨q, hq, rfl⟩ := (hkeys l).mp ((hmem l).mp hl)
      exact hall q hq
    have hrep := List.eq_replicate_of_mem hsame
    rw [hrep, List.nodup_replicate] at hnd
    have hpos := List.length_pos_iff.mpr (List.ne_nil_of_mem hin)
    omega

end

/-- Where two lists of proxies agree on what matters, so do their places. -/
theorem getElem?_congr {ps qs : List Proxy} (h : ps.map proxyKey = qs.map proxyKey) {k : Nat}
    {p : Proxy} (hp : ps[k]? = some p) : ∃ q, qs[k]? = some q ∧ proxyKey q = proxyKey p := by
  have hkey : (qs[k]?).map proxyKey = some (proxyKey p) := by
    rw [← List.getElem?_map, ← h, List.getElem?_map, hp]
    rfl
  exact Option.map_eq_some_iff.mp hkey

theorem pairedAt_congr {service : Service R} {k : Nat} {p q : Proxy}
    (h : proxyKey p = proxyKey q) : PairedAt service k p ↔ PairedAt service k q := by
  unfold PairedAt
  rw [names_congr (congrArg Prod.fst h)]

/-- The rules agree with the started proxies exactly if no port overflows, a port is found for
every service with a rule, and the proxies of the service have it on their own. -/
theorem rulesAgree_iff {forms hostForms : SocketForms} {showIp : UInt32 → String}
    {hostChecks : Bool} (h : compose.convertForArmour forms showIp = .ok (compose', infos)) :
    RulesAgree hostForms checks hostChecks compose' infos ↔ PortsMatch checks compose := by
  have hacc := Compose.accepted h
  obtain ⟨proxies, hkeys, hinfos⟩ := hacc.records
  have hrecords : infos = records compose.services proxies := hinfos
  have hflat : infos.flatMap OnboardInfo.proxies = proxies := by
    rw [hinfos]
    exact flatMap_proxies _
  have hfits : Fits checks proxies ↔ Fits checks compose.proxies :=
    (fits_congr hkeys).trans fits_effectiveProxies
  have htop := topPort_congr hkeys
  obtain ⟨hends, hrules⟩ := @rulesCommand_spec _ _ _ checks _ _ _ _ hacc hflat
  -- whether a port is found for a service
  have hfound : ∀ name service, compose.services.get? name = some service →
      Ruled compose name →
        ((∃ port, proxyPort (portsOf proxies) infos name = .ok port) ↔
          (firstProxy compose.effectiveProxies service).isSome ∨
            ∃ label, ∀ proxy ∈ compose.effectiveProxies, proxy.label = label) := by
    intro name service hs hr
    have hfirst := @firstProxy_congr R proxies compose.effectiveProxies service hkeys
    have hne : proxies ≠ [] := by
      rintro rfl
      have hlen := congrArg List.length hkeys
      rw [List.length_map, List.length_map] at hlen
      exact hr.effectiveProxies_ne_nil (List.eq_nil_of_length_eq_zero hlen.symm)
    have hlabels : (∃ label, ∀ proxy ∈ proxies, proxy.label = label) ↔
        ∃ label, ∀ proxy ∈ compose.effectiveProxies, proxy.label = label := by
      refine exists_congr (fun label => ?_)
      have hall : ∀ l : List Proxy, (∀ proxy ∈ l, proxy.label = label) ↔
          ∀ key ∈ l.map proxyKey, key.1 = label := by
        intro l
        rw [List.forall_mem_map]
        rfl
      rw [hall, hall, hkeys]
    rw [hrecords]
    cases hq : firstProxy proxies service with
    | some q =>
        rw [hq] at hfirst
        obtain ⟨r, -, hport⟩ := proxyPort_paired hs hq
        refine iff_of_true ⟨_, hport⟩ (Or.inl ?_)
        rw [← Option.isSome_map (f := proxyKey), ← hfirst]
        rfl
    | none =>
        rw [hq] at hfirst
        rw [proxyPort_lost hs hq, length_portsOf hne, hlabels, or_iff_right]
        rw [← Option.isSome_map (f := proxyKey), ← hfirst]
        exact Bool.false_ne_true
  have hget : ∀ name, Ruled compose name → ∃ service, compose.services.get? name = some service := by
    intro name hr
    obtain ⟨i, service, hi, -⟩ := hr.subnet
    exact ⟨service, (BTreeMap.mem_entries _ _ _).mp (List.mem_of_getElem? hi)⟩
  -- the proxies that a service is paired with, and the one that it is redirected to
  have hpair : ∀ name service (k : Nat) p, compose.services.get? name = some service →
      proxies[k]? = some p → PairedAt service k p →
      ∃ r, ruleProxy proxies service = some r ∧
        proxyPort (portsOf proxies) infos name = .ok (some (r.portOr (topPort proxies))) := by
    intro name service k p hs hk hp
    obtain ⟨q, hq⟩ := Option.isSome_iff_exists.mp (isSome_firstProxy.mpr ⟨k, p, hk, hp⟩)
    obtain ⟨r, hr, hport⟩ := proxyPort_paired hs hq
    rw [hrecords]
    exact ⟨r, by rw [ruleProxy, hq, Option.bind_some, hr], hport⟩
  constructor
  · rintro ⟨out, hout, hall⟩
    obtain ⟨hfit, hports⟩ := hends.mp ⟨out, hout⟩
    refine ⟨hfits.mp hfit, fun name service hs hr => (hfound name service hs hr).mp (hports name hr),
      fun name service hs hr k p hk hp q hq => ?_⟩
    obtain ⟨p', hk', hpkey⟩ := getElem?_congr hkeys.symm hk
    have hp' := (pairedAt_congr hpkey).mpr hp
    obtain ⟨r, hrule, hport⟩ := hpair name service k p' hs hk' hp'
    have hrkey : proxyKey r = proxyKey q := by
      have hcongr := @ruleProxy_congr R proxies compose.effectiveProxies service hkeys
      rw [hrule, hq] at hcongr
      exact Option.some.inj hcongr
    have hstart := hall name _ _ ((hrules out hout name _ _).mpr ⟨hr, rfl, hport⟩)
      ⟨[p'], pairedServices (compose.services.map ServiceInfo.of) k p'⟩
      (by rw [hinfos]
          exact List.mem_of_getElem? (by rw [List.getElem?_mapIdx, hk']; rfl))
      ((isSome_paired hs k p').mpr hp')
    rw [OnboardInfo.information, startedPorts_single, List.cons.injEq] at hstart
    have hsame := (samePort_iff (List.mem_of_getElem? hk')).mp hstart.1
    have hpport : p'.port = p.port := congrArg Prod.snd hpkey
    have hrport : r.port = q.port := congrArg Prod.snd hrkey
    rw [htop, hpport, hrport] at hsame
    exact hsame
  · intro hm
    obtain ⟨out, hout⟩ := hends.mpr ⟨hfits.mpr hm.fits, fun name hr => by
      obtain ⟨service, hs⟩ := hget name hr
      exact (hfound name service hs hr).mpr (hm.found name service hs hr)⟩
    refine ⟨out, hout, fun name network port hmem info hinfo hholds => ?_⟩
    obtain ⟨hr, -, hport⟩ := (hrules out hout name network port).mp hmem
    obtain ⟨service, hs⟩ := hget name hr
    rw [hinfos, List.mem_mapIdx] at hinfo
    obtain ⟨k, hk, rfl⟩ := hinfo
    have hk' := List.getElem?_eq_getElem hk
    have hp := (isSome_paired hs k _).mp hholds
    obtain ⟨r, hrule, hport'⟩ := hpair name service k _ hs hk' hp
    rw [hport] at hport'
    cases hport'
    obtain ⟨p, hke, hpkey⟩ := getElem?_congr hkeys hk'
    obtain ⟨q, hq, hqkey⟩ : ∃ q, ruleProxy compose.effectiveProxies service = some q ∧
        proxyKey q = proxyKey r := by
      have hcongr := @ruleProxy_congr R proxies compose.effectiveProxies service hkeys
      rw [hrule] at hcongr
      exact Option.map_eq_some_iff.mp hcongr.symm
    have hsame := hm.same name service hs hr k p hke ((pairedAt_congr hpkey).mpr hp) q hq
    have hpport : p.port = (proxies[k]).port := congrArg Prod.snd hpkey
    have hqport : q.port = r.port := congrArg Prod.snd hqkey
    rw [← htop, hpport, hqport] at hsame
    rw [OnboardInfo.information, startedPorts_single,
      (samePort_iff (List.mem_of_getElem? hk')).mpr hsame]

/-- A proxy that is to be on the port. -/
def proxyOn (label : Label) (port : UInt16) : Proxy := { Proxy.ofLabel label with port := some port }

/-- One proxy on the port 7000, which its service names. -/
theorem rulesAgree_explicit :
    ∃ compose' infos, (descriptionOf ⟨[.str "x"]⟩ [proxyOn ⟨[.str "x"]⟩ 7000]).convertForArmour
        noSockets (fun _ => "") = .ok (compose', infos) ∧
      RulesAgree noSockets true true compose' infos := by
  refine ⟨_, _, rfl, (@rulesAgree_iff _ _ _ _ (descriptionOf ⟨[.str "x"]⟩
    [proxyOn ⟨[.str "x"]⟩ 7000]) _ _ noSockets noSockets (fun _ => "") true rfl).mpr
    ⟨by decide, ?_, ?_⟩⟩
  · exact fun _ _ _ _ => Or.inr ⟨⟨[.str "x"]⟩, by decide⟩
  · intro name service _ _ k p hk _ q hq
    have hp : p = proxyOn ⟨[.str "x"]⟩ 7000 := List.mem_singleton.mp (List.mem_of_getElem? hk)
    obtain ⟨first, -, hlast⟩ := Option.bind_eq_some_iff.mp hq
    have hmem := (List.mem_filter.mp (List.mem_of_getLast? hlast)).1
    have hqx : q = proxyOn ⟨[.str "x"]⟩ 7000 := List.mem_singleton.mp hmem
    rw [hp, hqx]
    rfl

/-- The service names the proxy `x`, whose port is automatic, and `y` is on 7000: the traffic is
redirected to 7001, where no proxy is started, for the host starts `x` on 6000. -/
theorem rulesAgree_automatic :
    ∃ compose' infos,
      (descriptionOf ⟨[.str "x"]⟩ [.ofLabel ⟨[.str "x"]⟩, proxyOn ⟨[.str "y"]⟩ 7000]).convertForArmour
        noSockets (fun _ => "") = .ok (compose', infos) ∧
      rulesCommand true compose' infos =
        .ok [.redirect "a" (Service.armourBridgeNetwork "a") 7001] ∧
      infos.map (fun info => Host.startedPorts noSockets true info.information) =
        [[6000], [7000]] ∧
      ¬ RulesAgree noSockets true true compose' infos := by
  refine ⟨_, _, rfl, rfl, rfl, fun h => ?_⟩
  obtain ⟨out, hout, hall⟩ := h
  cases hout
  have hstart := hall "a" _ _ (List.mem_singleton_self _) _ (List.mem_cons_self ..) rfl
  exact absurd hstart (by decide)

end Armour.Launch
