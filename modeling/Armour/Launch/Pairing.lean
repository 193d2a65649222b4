import Armour.Launch.Rules
import Armour.Lib.Results

/-! # Services and their proxies

What `convert_for_armour` makes of a description: the services keep their places, each gets the
subnet of its place, and the records are those of the proxies.  A service gets lost when it only
names proxies that are not there.
-/

namespace Armour.Launch

open Armour.Lib Armour.Lang Armour.Api

/-! ## The loop over the services -/

section

variable {R T : Type} {net : Ipnet}

/-- What the conversion makes of a service that it accepts. -/
def converted (name : String) (service : Service R) (subnet : Option net.Ipv4Net) :
    Converted net R :=
  let r := Service.convertForArmour net { service with containerName := some name } name subnet
  ⟨name, r.1, r.2.1, r.2.2.1, r.2.2.2⟩

/-- The record of a service. -/
def ServiceInfo.of (service : Service R) : ServiceInfo :=
  ⟨service.armour.labels, service.armour.proxies, none⟩

/-- How a service is in the network that is made for it. -/
abbrev networksOf (net : Ipnet) (name : String) (subnet : Option net.Ipv4Net) : Networks :=
  (Service.network net name subnet).2.1

theorem convertService_ok {name : String} {service : Service R} {subnet : Option net.Ipv4Net}
    {c : Converted net R} (h : convertService name service subnet = .ok c) :
    c = converted name service subnet := by
  unfold convertService at h
  split_ifs at h
  split at h
  · cases h
  · cases h
    rfl

/-- Every service is converted at its place. -/
theorem convertServices_ok {l : List (String × Service R)} {subnets : List net.Ipv4Net}
    {cs : List (Converted net R)} (h : convertServices l subnets = .ok cs) :
    cs = l.mapIdx (fun i s => converted s.1 s.2 subnets[i]?) := by
  induction l generalizing subnets cs with
  | nil =>
      cases h
      rfl
  | cons s l ih =>
      obtain ⟨name, service⟩ := s
      rw [convertServices, bind_eq_ok] at h
      obtain ⟨c, hc, h⟩ := h
      rw [bind_eq_ok] at h
      obtain ⟨cs', hcs, h⟩ := h
      cases h
      rw [List.mapIdx_cons, convertService_ok hc, ih hcs, List.head?_eq_getElem?]
      simp only [List.getElem?_tail]

/-- A converted service: it keeps its name, and is in a network of its own. -/
structure ConvertedTo (name : String) (subnet : Option net.Ipv4Net) (service : Service R)
    (service' : Service R) : Prop where
  networks : service'.networks = networksOf net name subnet
  hostname : service'.hostname = service.hostname
  settings : service'.settings = service.settings

/-- The proxies that the records are made for. -/
def Compose.effectiveProxies (compose : Compose net R T) : List Proxy :=
  if compose.proxies.isEmpty then defaultProxies compose.services else compose.proxies

/-- What matters of a proxy for the rules. -/
def proxyKey (proxy : Proxy) : Label × Option UInt16 := (proxy.label, proxy.port)

/-- What the conversion gives: the services in their order, and a record for each proxy. -/
structure Accepted (compose compose' : Compose net R T) (infos : List OnboardInfo) : Prop where
  services : ∃ f : Nat → String × Service R → Service R,
    compose'.services.entries = compose.services.entries.mapIdx (fun i s => (s.1, f i s)) ∧
      ∀ i s, ConvertedTo s.1 net.subnets[i]? s.2 (f i s)
  records : ∃ proxies : List Proxy,
    proxies.map proxyKey = compose.effectiveProxies.map proxyKey ∧
      infos = proxies.mapIdx (fun k proxy =>
        ⟨[proxy], pairedServices (compose.services.map ServiceInfo.of) k proxy⟩)

theorem setIngress_keys {forms : SocketForms} {hosts : BTreeMap String UInt32}
    {ps ps' : List Proxy} (h : ps.mapM (Proxy.setIngress forms hosts) = .ok ps') :
    ps'.map proxyKey = ps.map proxyKey := by
  have hall := mapM_eq_ok.mp h
  clear h
  induction hall with
  | nil => rfl
  | cons hp _ ih =>
      obtain ⟨hlabel, hport⟩ := Proxy.setIngress_ok hp
      rw [List.map_cons, List.map_cons, ih, proxyKey, proxyKey, hlabel, hport]

theorem map_mapIdx {α β γ : Type} (f : β → γ) (g : Nat → α → β) (l : List α) :
    (l.mapIdx g).map f = l.mapIdx (fun i a => f (g i a)) :=
  List.ext_getElem (by simp) (fun i h1 h2 => by simp)

theorem Compose.accepted {forms : SocketForms} {showIp : UInt32 → String}
    {compose compose' : Compose net R T} {infos : List OnboardInfo}
    (h : compose.convertForArmour forms showIp = .ok (compose', infos)) :
    Accepted compose compose' infos := by
  unfold Compose.convertForArmour at h
  obtain ⟨cs, hcs, h⟩ := bind_eq_ok.mp h
  obtain ⟨proxies, hproxies, h⟩ := bind_eq_ok.mp h
  cases h
  have hcs := convertServices_ok hcs
  have hsorted : ∀ {V : Type} (g : Nat → String × Service R → V),
      (compose.services.entries.mapIdx (fun i s => (s.1, g i s))).Pairwise
        (fun a b => a.1 < b.1) := by
    intro V g
    refine List.pairwise_map.mp ?_
    have hkeys : (compose.services.entries.mapIdx (fun i s => (s.1, g i s))).map Prod.fst =
        compose.services.entries.map Prod.fst := by
      rw [map_mapIdx]
      exact List.ext_getElem (by simp) (fun i h1 h2 => by simp)
    rw [hkeys]
    exact List.pairwise_map.mpr compose.services.sorted
  have hmap : ∀ {V : Type} (g : Converted net R → V),
      (BTreeMap.ofList (cs.map (fun c => (c.name, g c)))).entries =
        compose.services.entries.mapIdx
          (fun i s => (s.1, g (converted s.1 s.2 net.subnets[i]?))) := by
    intro V g
    rw [hcs, map_mapIdx]
    exact BTreeMap.entries_ofList (hsorted _)
  have hconv : ∀ (i : Nat) (s : String × Service R), ConvertedTo s.1 net.subnets[i]? s.2
      (converted s.1 s.2 net.subnets[i]?).service := fun i s => ⟨rfl, rfl, rfl⟩
  constructor
  · by_cases hhosts : (extraHosts cs).entries.isEmpty = true
    · refine ⟨fun i s => (converted s.1 s.2 net.subnets[i]?).service, ?_, hconv⟩
      rw [if_pos hhosts]
      exact hmap Converted.service
    · refine ⟨fun i s =>
        { (converted s.1 s.2 net.subnets[i]?).service with
          extraHosts := extraHostsOf showIp (extraHosts cs)
            (converted s.1 s.2 net.subnets[i]?).service.hostname },
        ?_, fun i s => ⟨rfl, rfl, rfl⟩⟩
      rw [if_neg hhosts, BTreeMap.map]
      dsimp only
      rw [hmap Converted.service, map_mapIdx]
  · have hinfos : BTreeMap.ofList (cs.map (fun c => (c.name, c.info))) =
        compose.services.map ServiceInfo.of := by
      refine BTreeMap.eq_of_entries ?_
      rw [hmap Converted.info]
      exact List.ext_getElem (by simp [BTreeMap.map]) (fun i h1 h2 => by simp [BTreeMap.map]; rfl)
    rw [hinfos]
    refine ⟨_, ?_, rfl⟩
    have hkeys := setIngress_keys hproxies
    have hempty : proxies.isEmpty = compose.proxies.isEmpty := by
      have hlen := congrArg List.length hkeys
      rw [List.length_map, List.length_map] at hlen
      cases proxies <;> cases hp : compose.proxies <;> simp_all
    unfold Compose.effectiveProxies
    rw [hempty]
    split_ifs
    · rfl
    · exact hkeys

end

/-! ## Ports of labels -/

section

variable {checks : Bool} {port : UInt16} {proxies : List Proxy}

/-- No addition of a checked build overflows. -/
def Fits (checks : Bool) (proxies : List Proxy) : Prop :=
  checks = true → ∀ proxy ∈ proxies, ¬ proxy.Overflows (topPort proxies)

instance : Decidable (Fits checks proxies) := inferInstanceAs (Decidable (_ → _))

theorem portMap_fold (h : checks = true → ∀ proxy ∈ proxies, ¬ proxy.Overflows port)
    (m : BTreeMap Label UInt16) :
    proxies.foldlM (fun m proxy => do
      let p ← proxy.portAfter checks port
      return m.insert proxy.label p) m =
    (.ok ((proxies.map (fun proxy => (proxy.label, proxy.portOr port))).foldl
      (fun m p => m.insert p.1 p.2) m) : Except String (BTreeMap Label UInt16)) := by
  induction proxies generalizing m with
  | nil => rfl
  | cons proxy proxies ih =>
      have hp : proxy.portAfter checks port = .ok (proxy.portOr port) := by
        cases checks with
        | false => exact Proxy.portAfter_false port proxy
        | true => exact Proxy.portAfter_of_not_overflows true (h rfl proxy List.mem_cons_self)
      rw [List.foldlM_cons, hp]
      exact ih (fun hc q hq => h hc q (List.mem_cons_of_mem _ hq)) _

theorem portMap_ok (h : checks = true → ∀ proxy ∈ proxies, ¬ proxy.Overflows port) :
    portMap checks port proxies =
      .ok (BTreeMap.ofList (proxies.map (fun proxy => (proxy.label, proxy.portOr port)))) :=
  portMap_fold h ∅

/-- A checked build panics at an overflow. -/
theorem portMap_fits {m : BTreeMap Label UInt16} (h : portMap true port proxies = .ok m) :
    ∀ proxy ∈ proxies, ¬ proxy.Overflows port := by
  unfold portMap at h
  generalize (∅ : BTreeMap Label UInt16) = m₀ at h
  induction proxies generalizing m₀ with
  | nil => simp
  | cons proxy proxies ih =>
      rw [List.foldlM_cons, bind_eq_ok] at h
      obtain ⟨m₁, hp, hrest⟩ := h
      refine List.forall_mem_cons.mpr ⟨fun ho => ?_, ih _ hrest⟩
      rw [Proxy.portAfter_of_overflows ho] at hp
      cases hp

/-- The last proxy of a label. -/
def lastOf (proxies : List Proxy) (label : Label) : Option Proxy :=
  (proxies.filter (fun proxy => proxy.label = label)).getLast?

/-- A label has the port of its last proxy. -/
theorem get?_portMap (label : Label) :
    (BTreeMap.ofList (proxies.map (fun proxy => (proxy.label, proxy.portOr port)))).get? label =
      (lastOf proxies label).map (Proxy.portOr port) := by
  rw [BTreeMap.get?_ofList, List.filter_map, List.getLast?_map, Option.map_map, lastOf]
  refine congrArg (fun l : List Proxy => Option.map (Proxy.portOr port) l.getLast?) ?_
  exact List.filter_congr (fun proxy _ => by simp)

end

/-! ## Rules of a service -/

section

variable {R : Type} {net : Ipnet} {ports : BTreeMap Label UInt16} {infos : List OnboardInfo}
  {name : String} {service service' : Service R} {subnet : Option net.Ipv4Net}

/-- The rules of a service that has a subnet and the name of a label are those of its port. -/
theorem serviceRules_labelled (h : ConvertedTo name subnet service service')
    (hsubnet : subnet.isSome) {label : Label} (hname : Label.fromStr name = .ok label) :
    (∀ e, proxyPort ports infos name = .error e →
      serviceRules ports infos (name, service') = .error e) ∧
    ∀ port, proxyPort ports infos name = .ok port →
      ∃ rs, serviceRules ports infos (name, service') = .ok rs ∧
        ∀ n bridge p, .redirect n bridge p ∈ rs ↔
          n = name ∧ bridge = Service.armourBridgeNetwork name ∧ port = some p := by
  obtain ⟨subnet, rfl⟩ := Option.isSome_iff_exists.mp hsubnet
  have hdict : service'.networks = .dict (BTreeMap.insert ∅ (Service.armourBridgeNetwork name)
      ⟨(net.hosts subnet)[1]?⟩) := h.networks
  have hentries : (BTreeMap.insert (∅ : BTreeMap String NetworkRecord)
      (Service.armourBridgeNetwork name) ⟨(net.hosts subnet)[1]?⟩).entries =
        [(Service.armourBridgeNetwork name, ⟨(net.hosts subnet)[1]?⟩)] := rfl
  have hrules : serviceRules ports infos (name, service') =
      networkRules ports infos name service'.hostname
        (Service.armourBridgeNetwork name, ⟨(net.hosts subnet)[1]?⟩) := by
    simp only [serviceRules, hdict, hname, hentries, List.mapM_cons, List.mapM_nil]
    cases networkRules ports infos name service'.hostname
        (Service.armourBridgeNetwork name, ⟨(net.hosts subnet)[1]?⟩) with
    | error e => rfl
    | ok rs => simp [bind, Except.bind, pure, Except.pure]
  rw [hrules, networkRules]
  constructor
  · intro e he
    rw [he]
    rfl
  · intro port hport
    rw [hport]
    refine ⟨_, rfl, fun n bridge p => ?_⟩
    rw [List.mem_append, Option.mem_toList, Option.mem_toList]
    constructor
    · rintro (hmem | hmem)
      · obtain ⟨q, hq, hr⟩ := Option.map_eq_some_iff.mp hmem
        cases hr
        exact ⟨rfl, rfl, hq⟩
      · obtain ⟨ip, -, hr⟩ := Option.bind_eq_some_iff.mp hmem
        obtain ⟨hostname, -, hr⟩ := Option.map_eq_some_iff.mp hr
        cases hr
    · rintro ⟨rfl, rfl, rfl⟩
      exact Or.inl rfl

/-- Another service gets no rules. -/
theorem serviceRules_other (h : ConvertedTo name subnet service service')
    (hother : subnet = none ∨ ∀ label, Label.fromStr name ≠ .ok label) :
    serviceRules ports infos (name, service') = .ok [] := by
  rw [serviceRules]
  simp only [h.networks, networksOf]
  rcases hother with rfl | hname
  · rfl
  · cases hl : Label.fromStr name with
    | ok label => exact absurd hl (hname label)
    | error e => cases subnet <;> rfl

end

/-! ## Rules of a description -/

section

variable {R T : Type} {net : Ipnet} {checks : Bool} {compose compose' : Compose net R T}
  {infos : List OnboardInfo} {proxies : List Proxy}

theorem topPort_congr {ps qs : List Proxy} (h : ps.map proxyKey = qs.map proxyKey) :
    topPort ps = topPort qs := by
  have hports : ∀ l : List Proxy, l.filterMap Proxy.port = (l.map proxyKey).filterMap Prod.snd := by
    intro l
    rw [List.filterMap_map]
    rfl
  rw [topPort, topPort, hports, hports, h]

theorem fits_congr {ps qs : List Proxy} (h : ps.map proxyKey = qs.map proxyKey) :
    Fits checks ps ↔ Fits checks qs := by
  have hall : ∀ l : List Proxy, (∀ proxy ∈ l, ¬ proxy.Overflows (topPort ps)) ↔
      ∀ key ∈ l.map proxyKey, ¬ (key.2 = none ∧ topPort ps = 65535) := by
    intro l
    rw [List.forall_mem_map]
    rfl
  unfold Fits
  rw [← topPort_congr h, hall, hall, h]

/-- A service has a rule when it has a subnet and the name of a label. -/
structure Ruled (compose : Compose net R T) (name : String) : Prop where
  subnet : ∃ (i : Nat) (service : Service R),
    compose.services.entries[i]? = some (name, service) ∧ (net.subnets[i]?).isSome
  label : ∃ label, Label.fromStr name = .ok label

theorem flatMap_proxies (f : Nat → Proxy → BTreeMap String ServiceInfo) :
    (proxies.mapIdx (fun k proxy => (⟨[proxy], f k proxy⟩ : OnboardInfo))).flatMap
      OnboardInfo.proxies = proxies := by
  have hsingle : proxies.mapIdx (fun _ proxy => [proxy]) = proxies.map (fun proxy => [proxy]) :=
    List.ext_getElem (by simp) (fun i h1 h2 => by simp)
  rw [List.flatMap_def, map_mapIdx, hsingle]
  induction proxies with
  | nil => rfl
  | cons proxy proxies ih =>
      rw [List.map_cons, List.flatten_cons, ih (List.ext_getElem (by simp) (fun i h1 h2 => by simp))]
      rfl

/-- The ports that `rules` works out. -/
abbrev portsOf (proxies : List Proxy) : BTreeMap Label UInt16 :=
  BTreeMap.ofList
    (proxies.map (fun proxy => (proxy.label, proxy.portOr (topPort proxies))))

theorem Accepted.service_of (h : Accepted compose compose' infos) {i : Nat} {name : String}
    {service : Service R} (hi : compose.services.entries[i]? = some (name, service)) :
    ∃ service', (name, service') ∈ compose'.services.entries ∧
      ConvertedTo name net.subnets[i]? service service' := by
  obtain ⟨f, hentries, hconv⟩ := h.services
  obtain ⟨hlt, hi⟩ := List.getElem?_eq_some_iff.mp hi
  refine ⟨f i (name, service), ?_, hconv i (name, service)⟩
  rw [hentries, List.mem_mapIdx]
  exact ⟨i, hlt, by rw [hi]⟩

theorem Accepted.of_service (h : Accepted compose compose' infos) {name : String}
    {service' : Service R} (hs : (name, service') ∈ compose'.services.entries) :
    ∃ (i : Nat) (service : Service R), compose.services.entries[i]? = some (name, service) ∧
      ConvertedTo name net.subnets[i]? service service' := by
  obtain ⟨f, hentries, hconv⟩ := h.services
  rw [hentries, List.mem_mapIdx] at hs
  obtain ⟨i, hi, heq⟩ := hs
  cases heq
  exact ⟨i, _, List.getElem?_eq_getElem hi, hconv i _⟩

/-- What the rules of a service are: there are some if the service has a port, or none to have. -/
structure Rules (compose : Compose net R T) (ports : BTreeMap Label UInt16)
    (infos : List OnboardInfo) (name : String) (r : Except String (List Rule)) : Prop where
  ends : (∃ rs, r = .ok rs) ↔ (Ruled compose name → ∃ port, proxyPort ports infos name = .ok port)
  redirects : ∀ rs, r = .ok rs → ∀ n network port, .redirect n network port ∈ rs ↔
    n = name ∧ Ruled compose name ∧ network = Service.armourBridgeNetwork name ∧
      proxyPort ports infos name = .ok (some port)

section

variable {ports : BTreeMap Label UInt16} {i : Nat} {name : String} {service service' : Service R}

theorem serviceRules_ruled (hi : compose.services.entries[i]? = some (name, service))
    (hconv : ConvertedTo name net.subnets[i]? service service') (hruled : Ruled compose name) :
    Rules compose ports infos name (serviceRules ports infos (name, service')) := by
  obtain ⟨label, hlabel⟩ := hruled.label
  obtain ⟨j, _, hj, hsub⟩ := hruled.subnet
  rw [BTreeMap.place_unique compose.services hj hi] at hsub
  obtain ⟨herr, hok⟩ := @serviceRules_labelled R net ports infos _ _ _ _ hconv hsub label hlabel
  cases hport : proxyPort ports infos name with
  | error e =>
      rw [herr e hport]
      refine ⟨iff_of_false nofun (fun hall => ?_), nofun⟩
      obtain ⟨port, hp⟩ := hall hruled
      rw [hport] at hp
      cases hp
  | ok port =>
      obtain ⟨rs, hrs, hmem⟩ := hok port hport
      rw [hrs]
      refine ⟨iff_of_true ⟨rs, rfl⟩ (fun _ => ⟨port, hport⟩), ?_⟩
      rintro _ ⟨rfl⟩ n network p
      rw [hmem, and_iff_right hruled, hport, Except.ok.injEq]

theorem serviceRules_unruled (hi : compose.services.entries[i]? = some (name, service))
    (hconv : ConvertedTo name net.subnets[i]? service service') (hruled : ¬ Ruled compose name) :
    Rules compose ports infos name (serviceRules ports infos (name, service')) := by
  have hother : net.subnets[i]? = none ∨ ∀ label, Label.fromStr name ≠ .ok label := by
    by_contra hcon
    obtain ⟨hsub, hlabel⟩ := not_or.mp hcon
    simp only [not_forall, not_not] at hlabel
    exact hruled ⟨⟨i, service, hi, Option.isSome_iff_ne_none.mpr hsub⟩, hlabel⟩
  rw [serviceRules_other hconv hother]
  refine ⟨iff_of_true ⟨[], rfl⟩ (fun hr => absurd hr hruled), ?_⟩
  rintro _ ⟨rfl⟩ n network port
  exact iff_of_false List.not_mem_nil (fun hr => hruled hr.2.1)

end

/-- Every service of the conversion gets its rules. -/
theorem Accepted.rules (h : Accepted compose compose' infos) (ports : BTreeMap Label UInt16)
    {s' : String × Service R} (hs : s' ∈ compose'.services.entries) :
    Rules compose ports infos s'.1 (serviceRules ports infos s') := by
  obtain ⟨i, service, hi, hconv⟩ := h.of_service hs
  by_cases hruled : Ruled compose s'.1
  · exact serviceRules_ruled hi hconv hruled
  · exact serviceRules_unruled hi hconv hruled

/-- A service with a rule is a service of the conversion. -/
theorem Accepted.of_ruled (h : Accepted compose compose' infos) {name : String}
    (hruled : Ruled compose name) : ∃ service', (name, service') ∈ compose'.services.entries := by
  obtain ⟨i, service, hi, -⟩ := hruled.subnet
  obtain ⟨service', hs, -⟩ := h.service_of hi
  exact ⟨service', hs⟩

theorem Accepted.rules_end (h : Accepted compose compose' infos) (ports : BTreeMap Label UInt16) :
    (∃ rs, compose'.services.entries.mapM (serviceRules ports infos) = .ok rs) ↔
      ∀ name, Ruled compose name → ∃ port, proxyPort ports infos name = .ok port := by
  rw [mapM_isOk]
  constructor
  · intro hs name hruled
    obtain ⟨service', hs'⟩ := h.of_ruled hruled
    exact (h.rules ports hs').ends.mp (hs _ hs') hruled
  · exact fun hs s' hs' => (h.rules ports hs').ends.mpr (hs s'.1)

theorem Accepted.mem_rules (h : Accepted compose compose' infos) {ports : BTreeMap Label UInt16}
    {rs : List (List Rule)}
    (hrs : compose'.services.entries.mapM (serviceRules ports infos) = .ok rs) (name : String)
    (network : String) (port : UInt16) : .redirect name network port ∈ rs.flatten ↔
      Ruled compose name ∧ network = Service.armourBridgeNetwork name ∧
        proxyPort ports infos name = .ok (some port) := by
  rw [List.mem_flatten]
  constructor
  · rintro ⟨l, hl, hr⟩
    obtain ⟨s', hs', hl'⟩ := (mem_of_mapM hrs l).mp hl
    obtain ⟨rfl, hport⟩ := ((h.rules ports hs').redirects l hl' name network port).mp hr
    exact hport
  · rintro ⟨hruled, hport⟩
    obtain ⟨service', hs'⟩ := h.of_ruled hruled
    obtain ⟨l, hl⟩ := (h.rules ports hs').ends.mpr (fun _ => ⟨_, hport.2⟩)
    refine ⟨l, (mem_of_mapM hrs l).mpr ⟨_, hs', hl⟩, ?_⟩
    exact ((h.rules ports hs').redirects l hl name network port).mpr ⟨rfl, hruled, hport⟩

/-- The command works out the ports, and then the rules of the services. -/
theorem rulesCommand_eq_ok (hinfos : infos.flatMap OnboardInfo.proxies = proxies)
    {out : List Rule} : rulesCommand checks compose' infos = .ok out ↔ Fits checks proxies ∧
      ∃ rs, compose'.services.entries.mapM (serviceRules (portsOf proxies) infos) = .ok rs ∧
        out = rs.flatten := by
  have hrun : rulesCommand checks compose' infos = (do
      let ports ← portMap checks (topPort proxies) proxies
      let rules ← compose'.services.entries.mapM (serviceRules ports infos)
      return rules.flatten) := by
    rw [rulesCommand, Launch.rules, hinfos]
    rfl
  rw [hrun, bind_eq_ok]
  constructor
  · rintro ⟨ports, hports, hrest⟩
    have hfits : Fits checks proxies := by
      rintro rfl
      exact portMap_fits hports
    rw [portMap_ok hfits] at hports
    cases hports
    obtain ⟨rs, hrs, hflat⟩ := bind_eq_ok.mp hrest
    cases hflat
    exact ⟨hfits, rs, hrs, rfl⟩
  · rintro ⟨hfits, rs, hrs, rfl⟩
    exact ⟨_, portMap_ok hfits, bind_eq_ok.mpr ⟨rs, hrs, rfl⟩⟩

/-- The command ends when no addition overflows and a port is found for every service with a
rule, and these are its rules. -/
theorem rulesCommand_spec (h : Accepted compose compose' infos)
    (hinfos : infos.flatMap OnboardInfo.proxies = proxies) :
    ((∃ out, rulesCommand checks compose' infos = .ok out) ↔ Fits checks proxies ∧
      ∀ name, Ruled compose name →
        ∃ port, proxyPort (portsOf proxies) infos name = .ok port) ∧
    ∀ out, rulesCommand checks compose' infos = .ok out → ∀ name network port,
      .redirect name network port ∈ out ↔ Ruled compose name ∧
        network = Service.armourBridgeNetwork name ∧
        proxyPort (portsOf proxies) infos name = .ok (some port) := by
  simp only [rulesCommand_eq_ok hinfos]
  constructor
  · rw [← h.rules_end]
    constructor
    · rintro ⟨out, hfits, rs, hrs, -⟩
      exact ⟨hfits, rs, hrs⟩
    · rintro ⟨hfits, rs, hrs⟩
      exact ⟨_, hfits, rs, hrs, rfl⟩
  · rintro _ ⟨-, rs, hrs, rfl⟩
    exact h.mem_rules hrs

end

/-! ## Records of a service -/

section

variable {R T : Type} {net : Ipnet} {services : BTreeMap String (Service R)} {name : String}
  {service : Service R} {proxies : List Proxy}

/-- The service is in the record of the proxy at place `k`. -/
def PairedAt (service : Service R) (k : Nat) (proxy : Proxy) : Prop :=
  if service.armour.proxies.elems = [] then k = 0
  else (ServiceInfo.of service).names proxy = true

/-- The first proxy with the service in its record. -/
def firstProxy (proxies : List Proxy) (service : Service R) : Option Proxy :=
  if service.armour.proxies.elems = [] then proxies.head?
  else proxies.find? (ServiceInfo.of service).names

/-- The records of the proxies. -/
def records (services : BTreeMap String (Service R)) (proxies : List Proxy) : List OnboardInfo :=
  proxies.mapIdx (fun k proxy => ⟨[proxy], pairedServices (services.map ServiceInfo.of) k proxy⟩)

theorem names_of_nil (h : service.armour.proxies.elems = []) (proxy : Proxy) :
    (ServiceInfo.of service).names proxy = false := by
  simp [ServiceInfo.names, ServiceInfo.of, h]

theorem isSome_pairedServices (k : Nat) (proxy : Proxy) :
    ((pairedServices (services.map ServiceInfo.of) k proxy).get? name).isSome ↔
      ∃ service, services.get? name = some service ∧ PairedAt service k proxy := by
  have hmem : ∀ f : ServiceInfo → Bool,
      name ∈ ((services.map ServiceInfo.of).entries.filter (fun s => f s.2)).map Prod.fst ↔
        ∃ service, services.get? name = some service ∧ f (.of service) = true := by
    intro f
    rw [List.mem_map]
    constructor
    · rintro ⟨⟨n, info⟩, hn, rfl⟩
      obtain ⟨hn, hf⟩ := List.mem_filter.mp hn
      obtain ⟨⟨m, service⟩, hs, heq⟩ := List.mem_map.mp hn
      cases heq
      exact ⟨service, (BTreeMap.mem_entries services m service).mp hs, hf⟩
    · rintro ⟨service, hs, hf⟩
      refine ⟨(name, .of service), List.mem_filter.mpr ⟨?_, hf⟩, rfl⟩
      exact List.mem_map.mpr ⟨(name, service), (BTreeMap.mem_entries services _ _).mpr hs, rfl⟩
  have hpaired : ∀ service : Service R, PairedAt service k proxy ↔
      (ServiceInfo.of service).names proxy = true ∨
        (k = 0 ∧ (ServiceInfo.of service).armourProxies.elems.isEmpty = true) := by
    intro service
    unfold PairedAt
    by_cases he : service.armour.proxies.elems = []
    · rw [if_pos he, names_of_nil he]
      simp [ServiceInfo.of, he]
    · rw [if_neg he]
      simp [ServiceInfo.of, he]
  unfold pairedServices
  split_ifs with hk
  · rw [BTreeMap.isSome_get?_ofList, List.map_append, List.mem_append,
      hmem (fun info => info.names proxy), hmem (fun info => info.armourProxies.elems.isEmpty),
      ← exists_or]
    refine exists_congr (fun service => ?_)
    rw [hpaired, ← and_or_left, hk]
    simp
  · rw [BTreeMap.isSome_get?_ofList, hmem (fun info => info.names proxy)]
    refine exists_congr (fun service => ?_)
    rw [hpaired]
    simp [hk]

theorem isSome_paired (hs : services.get? name = some service) (k : Nat) (proxy : Proxy) :
    ((pairedServices (services.map ServiceInfo.of) k proxy).get? name).isSome = true ↔
      PairedAt service k proxy := by
  rw [isSome_pairedServices]
  constructor
  · rintro ⟨s, hget, hp⟩
    rw [hs] at hget
    cases hget
    exact hp
  · exact fun hp => ⟨service, hs, hp⟩

theorem find?_mapIdx {α β : Type} {f : Nat → α → β} {g : β → Bool} {p : α → Bool} {l : List α}
    (h : ∀ k a, g (f k a) = p a) :
    (l.find? p = none → (l.mapIdx f).find? g = none) ∧
      ∀ a, l.find? p = some a → ∃ k, (l.mapIdx f).find? g = some (f k a) := by
  induction l generalizing f with
  | nil => simp
  | cons b l ih =>
      obtain ⟨hnone, hsome⟩ := ih (f := fun k a => f (k + 1) a) (fun k a => h (k + 1) a)
      rw [List.mapIdx_cons, List.find?_cons, List.find?_cons, h]
      cases p b with
      | true =>
          refine ⟨nofun, fun a ha => ?_⟩
          cases ha
          exact ⟨0, rfl⟩
      | false =>
          refine ⟨hnone, fun a ha => ?_⟩
          obtain ⟨k, hk⟩ := hsome a ha
          exact ⟨k + 1, hk⟩

/-- The first record with the service is that of its first proxy. -/
theorem find?_records (hs : services.get? name = some service) :
    (firstProxy proxies service = none →
      (records services proxies).find? (fun x => (x.services.get? name).isSome) = none) ∧
    ∀ q, firstProxy proxies service = some q → ∃ x,
      (records services proxies).find? (fun x => (x.services.get? name).isSome) = some x ∧
        x.proxies = [q] := by
  unfold firstProxy records
  by_cases he : service.armour.proxies.elems = []
  · rw [if_pos he]
    cases proxies with
    | nil => exact ⟨fun _ => rfl, nofun⟩
    | cons p ps =>
        refine ⟨nofun, fun q hq => ?_⟩
        cases hq
        have hp : PairedAt service 0 p := by rw [PairedAt, if_pos he]
        rw [List.mapIdx_cons, List.find?_cons, (isSome_paired hs 0 p).mpr hp]
        exact ⟨_, rfl, rfl⟩
  · rw [if_neg he]
    have hcontains : ∀ k p, ((pairedServices (services.map ServiceInfo.of) k p).get?
        name).isSome = (ServiceInfo.of service).names p := by
      intro k p
      rw [Bool.eq_iff_iff, isSome_paired hs, PairedAt, if_neg he]
    obtain ⟨hnone, hsome⟩ := @find?_mapIdx _ _
      (fun k p => (⟨[p], pairedServices (services.map ServiceInfo.of) k p⟩ : OnboardInfo))
      (fun x => (x.services.get? name).isSome) _ proxies hcontains
    refine ⟨hnone, fun q hq => ?_⟩
    obtain ⟨k, hk⟩ := hsome q hq
    exact ⟨_, hk, rfl⟩

theorem mem_of_firstProxy {q : Proxy} (h : firstProxy proxies service = some q) :
    q ∈ proxies := by
  unfold firstProxy at h
  split_ifs at h
  · exact List.mem_of_head? h
  · exact List.mem_of_find?_eq_some h

/-- Some proxy has the service in its record exactly if there is a first one. -/
theorem isSome_firstProxy :
    (firstProxy proxies service).isSome ↔
      ∃ k proxy, proxies[k]? = some proxy ∧ PairedAt service k proxy := by
  unfold firstProxy PairedAt
  by_cases he : service.armour.proxies.elems = []
  · rw [if_pos he]
    simp only [if_pos he]
    cases proxies with
    | nil => simp
    | cons p ps => exact iff_of_true rfl ⟨0, p, rfl, rfl⟩
  · rw [if_neg he, List.find?_isSome]
    simp only [if_neg he]
    constructor
    · rintro ⟨p, hp, hn⟩
      obtain ⟨k, hk, rfl⟩ := List.mem_iff_getElem.mp hp
      exact ⟨k, _, List.getElem?_eq_getElem hk, hn⟩
    · rintro ⟨k, p, hk, hn⟩
      exact ⟨p, List.mem_of_getElem? hk, hn⟩

/-! ## The port of a service -/

theorem isSome_lastOf {l : Label} : (lastOf proxies l).isSome ↔ ∃ p ∈ proxies, p.label = l := by
  rw [lastOf, Option.isSome_iff_ne_none, Ne, List.getLast?_eq_none_iff, List.filter_eq_nil_iff]
  simp

/-- A service that is in a record is given the port of the last proxy of the label. -/
theorem proxyPort_paired (hs : services.get? name = some service) {q : Proxy}
    (hq : firstProxy proxies service = some q) :
    ∃ r, lastOf proxies q.label = some r ∧
      proxyPort (portsOf proxies) (records services proxies) name =
        .ok (some (r.portOr (topPort proxies))) := by
  obtain ⟨r, hr⟩ := Option.isSome_iff_exists.mp
    (isSome_lastOf.mpr ⟨q, mem_of_firstProxy hq, rfl⟩)
  refine ⟨r, hr, ?_⟩
  have hget : (portsOf proxies).get? q.label = some (r.portOr (topPort proxies)) := by
    rw [get?_portMap, hr]
    rfl
  unfold proxyPort
  split_ifs with hone
  · obtain ⟨e, he⟩ := List.length_eq_one_iff.mp hone
    have hmem := (BTreeMap.mem_entries (portsOf proxies) q.label _).mpr hget
    rw [he, List.mem_singleton] at hmem
    rw [he, ← hmem]
    rfl
  · obtain ⟨x, hx, hproxies⟩ := (find?_records hs).2 q hq
    rw [hx]
    simp only [hproxies, List.head?_cons, hget]

/-- A service that is in no record is given a port when there is one label only. -/
theorem proxyPort_lost (hs : services.get? name = some service)
    (hnone : firstProxy proxies service = none) :
    (∃ port, proxyPort (portsOf proxies) (records services proxies) name = .ok port) ↔
      (portsOf proxies).entries.length = 1 := by
  unfold proxyPort
  split_ifs with hone
  · exact iff_of_true ⟨_, rfl⟩ hone
  · rw [(find?_records hs).1 hnone]
    refine iff_of_false ?_ hone
    rintro ⟨port, hport⟩
    cases hport

end

end Armour.Launch
