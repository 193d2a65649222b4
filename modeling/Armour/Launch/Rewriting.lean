import Mathlib.Algebra.Ring.Nat
import Armour.Launch.Deployment
import Armour.Launch.Settings

/-! # Rewriting of a description

`read_armour` of `armour-launch/src/lib.rs`: the description is read, converted and written as a
`docker-compose` file.  A setting that the conversion leaves alone is in the file as the user
wrote it exactly if it has the form that the record it belongs to is written in.
-/

namespace Armour.Launch

open Armour.Lib Armour.Lib.Yaml Armour.Lib.Form Armour.Lang Armour.Api

/-- How the parts of a description are read that the conversion replaces, and the texts of those
that it makes. -/
structure Parts (net : Ipnet) where
  armour : Yaml → Option ArmourSettings
  networks : Yaml → Option Networks
  network : Yaml → Option (Network net)
  proxies : Yaml → Option (List Proxy)
  writeProxy : Proxy → Yaml
  showIp : UInt32 → String
  showNet : net.Ipv4Net → String

/-- The settings of a service that are replaced. -/
def replacedSettings : List String := ["armour", "container_name", "networks", "extra_hosts"]

/-- The parts of a description that are replaced or looked into. -/
def composeParts : List String := ["services", "networks", "proxies"]

variable (cf : CaseForms) (af : AddressForms)

abbrev ServiceSettings := Values (serviceSettings cf af) × BTreeMap String Yaml

abbrev ComposeSettings := Values composeFields × BTreeMap String Yaml

def ArrayDict.ofSum : List String ⊕ BTreeMap String String → ArrayDict
  | .inl l => .array l
  | .inr m => .dict m

def ArrayDict.toSum : ArrayDict → List String ⊕ BTreeMap String String
  | .array l => .inl l
  | .dict m => .inr m

section

variable {net : Ipnet} (parts : Parts net)

/-! ## Reading -/

/-- `Service` -/
def readService : Yaml → Option (Service (ServiceSettings cf af))
  | .map es => do
      let x ← readAll (serviceFields cf af) es
      let armour ← readNamed "armour" parts.armour (some ⟨∅, ∅⟩) es
      let containerName ← readNamed "container_name" (option text).read (some none) es
      let networks ← readNamed "networks" parts.networks (some (.array [])) es
      let extraHosts ← readNamed "extra_hosts" arrayDict.read (some (.inl [])) es
      return { armour, containerName, networks
               hostname := x.1
               extraHosts := .ofSum extraHosts
               settings := (x.2, extras (serviceNames ++ replacedSettings) es) }
  | _ => none

/-- `Map<String, _>` -/
def readMap {α : Type} (read : Yaml → Option α) : Yaml → Option (BTreeMap String α)
  | .map es => (readEntries true read es).map BTreeMap.ofList
  | _ => none

/-- `Compose` -/
def readCompose : Yaml → Option (Compose net (ServiceSettings cf af) ComposeSettings)
  | .map es => do
      let x ← readAll composeFields es
      let services ← readNamed "services" (readMap (readService cf af parts)) (some ∅) es
      let networks ← readNamed "networks" (readMap parts.network) (some ∅) es
      let proxies ← readNamed "proxies" parts.proxies (some []) es
      return { services, networks, proxies
               settings := (x, extras (names composeFields ++ composeParts) es) }
  | _ => none

/-! ## Writing -/

def writeLabels (name : String) (labels : BTreeSet Label) : Entries :=
  if labels.elems.isEmpty then []
  else [(.str name, .seq (labels.elems.map (fun l => .scalar (.str l.display))))]

/-- `Armour` -/
def writeArmour (armour : ArmourSettings) : Entries :=
  if armour.labels.elems.isEmpty && armour.proxies.elems.isEmpty then []
  else [(.str "armour",
    .map (writeLabels "labels" armour.labels ++ writeLabels "proxies" armour.proxies))]

/-- `NetworkRecord` -/
def writeRecord (showIp : UInt32 → String) (record : NetworkRecord) : Yaml :=
  match record.ipv4Address with
  | some ip => .map [(.str "ipv4_address", .scalar (.str (showIp ip)))]
  | none => .map []

/-- `Networks` -/
def writeNetworks (showIp : UInt32 → String) : Networks → Entries
  | .array [] => []
  | .array names => [(.str "networks", .seq (CapSet.texts names))]
  | .dict records => [(.str "networks", .map (writeEntries (writeRecord showIp) records))]

/-- The settings of a service that are replaced. -/
def writeReplaced (service : Service (ServiceSettings cf af)) : Entries :=
  writeArmour service.armour ++
    (textField "container_name").write service.containerName ++
    (dictField "extra_hosts").write service.extraHosts.toSum ++
    writeNetworks parts.showIp service.networks

def writeService (service : Service (ServiceSettings cf af)) : Yaml :=
  .map (writeAll (serviceFields cf af) (service.hostname, service.settings.1) ++
    writeReplaced cf af parts service)

def Driver.text : Driver → String
  | bridge => "bridge"
  | overlay => "overlay"
  | host => "host"

/-- `Network` -/
def writeNetwork (network : Network net) : Yaml :=
  .map ((match network.driver with
      | some driver => [(.str "driver", .scalar (.str driver.text))]
      | none => []) ++
    (if network.driverOpts.entries.isEmpty then []
      else [(.str "driver_opts", .map (writeEntries Form.text.write network.driverOpts))]) ++
    (match network.ipam with
      | some subnet => [(.str "ipam", .map [(.str "config",
          .seq [.map [(.str "subnet", .scalar (.str (parts.showNet subnet)))]])])]
      | none => []) ++
    (if network.internal then [(.str "internal", .scalar (.ofBool true))] else []))

/-- The services, the networks and the proxies of a description. -/
def writeParts (compose : Compose net (ServiceSettings cf af) ComposeSettings) : Entries :=
  (if compose.services.entries.isEmpty then []
    else [(.str "services", .map (writeEntries (writeService cf af parts) compose.services))]) ++
  [(.str "networks", .map (writeEntries (writeNetwork parts) compose.networks))] ++
  (if compose.proxies.isEmpty then []
    else [(.str "proxies", .seq (compose.proxies.map parts.writeProxy))])

def writeCompose (compose : Compose net (ServiceSettings cf af) ComposeSettings) : Yaml :=
  .map (writeAll composeFields compose.settings.1 ++ writeParts cf af parts compose)

/-- `read_armour`: what is written, unless the description is refused. -/
def readArmour (forms : SocketForms) (d : Yaml) : Option (Yaml × List OnboardInfo) := do
  let compose ← readCompose cf af parts d
  let (compose, info) ← (compose.convertForArmour forms parts.showIp).toOption
  return (writeCompose cf af parts compose, info)

/-! ## What is written of a service -/

variable {cf af parts}

theorem keyed_writeReplaced (service : Service (ServiceSettings cf af)) :
    Keyed replacedSettings (writeReplaced cf af parts service) := by
  have harmour : Keyed ["armour"] (writeArmour service.armour) := by
    unfold writeArmour
    split_ifs
    · exact keyed_nil
    · exact keyed_str
  have hnetworks : Keyed ["networks"] (writeNetworks parts.showIp service.networks) := by
    unfold writeNetworks
    split
    · exact keyed_nil
    · exact keyed_str
    · exact keyed_str
  refine (((harmour.mono ?_).append ((Field.keyed_write _).mono ?_)).append
    ((Field.keyed_write _).mono ?_)).append (hnetworks.mono ?_)
  all_goals
    intro n hn
    rw [List.mem_singleton.mp hn]
    simp [replacedSettings, textField, dictField, Field.optional, Field.skipped]

/-- What is read of the settings that are not replaced. -/
theorem readService_eq_some {v : Yaml} {service : Service (ServiceSettings cf af)}
    (h : readService cf af parts v = some service) :
    ∃ es, v = .map es ∧
      readAll (serviceFields cf af) es = some (service.hostname, service.settings.1) := by
  cases v with
  | scalar s => cases h
  | seq vs => cases h
  | map es =>
      obtain ⟨x, hx, h⟩ := Option.bind_eq_some_iff.mp h
      obtain ⟨armour, -, h⟩ := Option.bind_eq_some_iff.mp h
      obtain ⟨containerName, -, h⟩ := Option.bind_eq_some_iff.mp h
      obtain ⟨networks, -, h⟩ := Option.bind_eq_some_iff.mp h
      obtain ⟨extraHosts, -, h⟩ := Option.bind_eq_some_iff.mp h
      cases h
      exact ⟨es, rfl, hx⟩

/-- A setting of a service is in what is written of it exactly if its field keeps it. -/
theorem preservedIn_service {es : Entries} {service service' : Service (ServiceSettings cf af)}
    (hread : readService cf af parts (.map es) = some service)
    (hhost : service'.hostname = service.hostname) (hsettings : service'.settings = service.settings)
    {e : Scalar × Yaml} (he : e ∈ es) (hd : e.2.Distinct) (hname : e.1.text ∉ replacedSettings) :
    PreservedIn e (writeService cf af parts service').entries ↔
      e.1.tag = .str ∧ Keeps (serviceFields cf af) e.1.text e.2 := by
  obtain ⟨es', heq, hall⟩ := readService_eq_some hread
  cases heq
  have hnot := (@keyed_writeReplaced cf af net parts service').not_preservedIn hname
  show PreservedIn e (writeAll (serviceFields cf af) (service'.hostname, service'.settings.1) ++
    writeReplaced cf af parts service') ↔ _
  rw [preservedIn_append, or_iff_left hnot, hhost, hsettings]
  exact preservedIn_writeAll (service_nodup cf af) hall he hd

/-! ## What is written of a description -/

theorem keyed_writeParts (compose : Compose net (ServiceSettings cf af) ComposeSettings) :
    Keyed composeParts (writeParts cf af parts compose) := by
  have hsub : ∀ m ∈ composeParts, ∀ n ∈ [m], n ∈ composeParts :=
    fun m hm n hn => List.mem_singleton.mp hn ▸ hm
  unfold writeParts
  refine (Keyed.append ?_ (keyed_str.mono (hsub "networks" (by decide)))).append ?_
  · split_ifs
    · exact keyed_nil
    · exact keyed_str.mono (hsub "services" (by decide))
  · split_ifs
    · exact keyed_nil
    · exact keyed_str.mono (hsub "proxies" (by decide))

theorem readCompose_eq_some {v : Yaml}
    {compose : Compose net (ServiceSettings cf af) ComposeSettings}
    (h : readCompose cf af parts v = some compose) :
    ∃ es, v = .map es ∧ readAll composeFields es = some compose.settings.1 ∧
      readNamed "services" (readMap (readService cf af parts)) (some ∅) es =
        some compose.services := by
  cases v with
  | scalar s => cases h
  | seq vs => cases h
  | map es =>
      obtain ⟨x, hx, h⟩ := Option.bind_eq_some_iff.mp h
      obtain ⟨services, hservices, h⟩ := Option.bind_eq_some_iff.mp h
      obtain ⟨networks, -, h⟩ := Option.bind_eq_some_iff.mp h
      obtain ⟨proxies, -, h⟩ := Option.bind_eq_some_iff.mp h
      cases h
      exact ⟨es, rfl, hx, hservices⟩

/-- The conversion leaves the settings of the description alone. -/
theorem Compose.settings_convertForArmour {R T : Type} {forms : SocketForms}
    {showIp : UInt32 → String} {compose compose' : Compose net R T} {infos : List OnboardInfo}
    (h : compose.convertForArmour forms showIp = .ok (compose', infos)) :
    compose'.settings = compose.settings := by
  unfold Compose.convertForArmour at h
  obtain ⟨cs, -, h⟩ := bind_eq_ok.mp h
  obtain ⟨proxies, -, h⟩ := bind_eq_ok.mp h
  cases h
  rfl

end

/-! ## Settings of a description -/

/-- The services of a description or of a file. -/
def services (d : Yaml) : Entries := (named "services" d.entries).flatMap Yaml.entries

/-- Every setting that is not replaced is in the file as the user wrote it. -/
def SettingsPreserved (d w : Yaml) : Prop :=
  (∀ e ∈ d.entries, e.1.text ∉ composeParts → PreservedIn e w.entries) ∧
    ∀ s ∈ services d, ∃ s' ∈ services w, s.1.Same s'.1 ∧
      ∀ e ∈ s.2.entries, e.1.text ∉ replacedSettings → PreservedIn e s'.2.entries

theorem mem_services {d : Yaml} {s : Scalar × Yaml} :
    s ∈ services d ↔ ∃ e ∈ d.entries, e.1.text = "services" ∧ s ∈ e.2.entries := by
  unfold services
  rw [List.mem_flatMap]
  constructor
  · rintro ⟨v, hv, hs⟩
    obtain ⟨e, he, hname, rfl⟩ := mem_named.mp hv
    exact ⟨e, he, hname, hs⟩
  · rintro ⟨e, he, hname, hs⟩
    exact ⟨e.2, mem_named.mpr ⟨e, he, hname, rfl⟩, hs⟩

theorem getLast?_forall₂ {α β : Type} {R : α → β → Prop} {l : List α} {m : List β}
    (h : List.Forall₂ R l m) {a : α} (ha : l.getLast? = some a) :
    ∃ b, m.getLast? = some b ∧ R a b := by
  induction h with
  | nil => cases ha
  | @cons a' b' l m hab hlm ih =>
      cases hlm with
      | nil =>
          cases ha
          exact ⟨b', rfl, hab⟩
      | cons hcd hlm => exact ih ha

/-- The last entry of a name is the one that is read. -/
theorem get?_of_last {α : Type} {plain : Bool} {read : Yaml → Option α} {es : Entries}
    {l : List (String × α)} (h : readEntries plain read es = some l) {n : String} {v : Yaml}
    (hv : (named n es).getLast? = some v) :
    ∃ x, read v = some x ∧ (BTreeMap.ofList l).get? n = some x := by
  have hall : List.Forall₂ (fun v x => read v = some x) (named n es)
      ((l.filter (fun p => p.1 = n)).map Prod.snd) := by
    have hread := mapM_eq_some.mp h
    clear h hv
    induction hread with
    | nil => exact .nil
    | @cons e p es l hp _ ih =>
        split at hp
        · obtain ⟨x, hx, rfl⟩ := Option.map_eq_some_iff.mp hp
          unfold named at ih ⊢
          by_cases hname : e.1.text = n
          · rw [List.filter_cons_of_pos (by simpa using hname),
              List.filter_cons_of_pos (by simpa using hname), List.map_cons, List.map_cons]
            exact .cons hx ih
          · rw [List.filter_cons_of_neg (by simpa using hname),
              List.filter_cons_of_neg (by simpa using hname)]
            exact ih
        · cases hp
  obtain ⟨x, hx, hread⟩ := getLast?_forall₂ hall hv
  refine ⟨x, hread, ?_⟩
  rw [BTreeMap.get?_ofList, ← List.getLast?_map]
  exact hx

section

variable {cf : CaseForms} {af : AddressForms} {net : Ipnet} {parts : Parts net}
  {forms : SocketForms} {d w : Yaml} {infos : List OnboardInfo}

theorem readArmour_eq_some (h : readArmour cf af parts forms d = some (w, infos)) :
    ∃ compose compose', readCompose cf af parts d = some compose ∧
      compose.convertForArmour forms parts.showIp = .ok (compose', infos) ∧
      w = writeCompose cf af parts compose' := by
  obtain ⟨compose, hread, h⟩ := Option.bind_eq_some_iff.mp h
  obtain ⟨⟨compose', infos'⟩, hconvert, h⟩ := Option.bind_eq_some_iff.mp h
  cases h
  refine ⟨compose, compose', hread, ?_, rfl⟩
  cases hc : compose.convertForArmour forms parts.showIp with
  | error e =>
      rw [hc] at hconvert
      cases hconvert
  | ok r =>
      rw [hc] at hconvert
      cases hconvert
      rfl

/-- The service that is written for a service of the description. -/
theorem written_service {compose compose' : Compose net (ServiceSettings cf af) ComposeSettings}
    (h : compose.convertForArmour forms parts.showIp = .ok (compose', infos)) {n : String}
    {service : Service (ServiceSettings cf af)} (hget : compose.services.get? n = some service) :
    ∃ service', service'.hostname = service.hostname ∧ service'.settings = service.settings ∧
      (.str n, writeService cf af parts service') ∈ services (writeCompose cf af parts compose') := by
  obtain ⟨f, hentries, hf⟩ := (Compose.accepted h).services
  obtain ⟨i, hi⟩ := List.mem_iff_getElem?.mp ((BTreeMap.mem_entries _ _ _).mpr hget)
  have hmem : (n, f i (n, service)) ∈ compose'.services.entries := by
    rw [hentries]
    exact List.mem_of_getElem? (by rw [List.getElem?_mapIdx, hi]; rfl)
  refine ⟨f i (n, service), (hf i (n, service)).hostname, (hf i (n, service)).settings, ?_⟩
  have hne : compose'.services.entries.isEmpty ≠ true := fun hempty => by
    rw [List.isEmpty_iff.mp hempty] at hmem
    cases hmem
  refine mem_services.mpr ⟨(.str "services",
    .map (writeEntries (writeService cf af parts) compose'.services)), ?_, rfl, ?_⟩
  · show _ ∈ writeAll composeFields compose'.settings.1 ++ writeParts cf af parts compose'
    refine List.mem_append_right _ ?_
    unfold writeParts
    rw [if_neg hne]
    simp
  · exact mem_writeEntries.mpr ⟨n, _, (BTreeMap.mem_entries _ _ _).mp hmem, rfl, rfl⟩

theorem top_setting (hd : d.Distinct) (h : readArmour cf af parts forms d = some (w, infos))
    {e : Scalar × Yaml} (he : e ∈ d.entries) (hname : e.1.text ∉ composeParts) :
    PreservedIn e w.entries ↔ e.1.tag = .str ∧ Keeps composeFields e.1.text e.2 := by
  obtain ⟨compose, compose', hread, hconvert, rfl⟩ := readArmour_eq_some h
  obtain ⟨es, rfl, hall, -⟩ := readCompose_eq_some hread
  have hnot := (@keyed_writeParts cf af net parts compose').not_preservedIn hname
  show PreservedIn e (writeAll composeFields compose'.settings.1 ++ writeParts cf af parts compose')
    ↔ _
  rw [preservedIn_append, or_iff_left hnot, Compose.settings_convertForArmour hconvert]
  exact preservedIn_writeAll compose_nodup hall he (hd.map.2 e he)

theorem service_setting (hd : d.Distinct) (h : readArmour cf af parts forms d = some (w, infos))
    {n : String} {v : Yaml} (hv : (named n (services d)).getLast? = some v) :
    ∃ v', (.str n, v') ∈ services w ∧ ∀ e ∈ v.entries, e.1.text ∉ replacedSettings →
      (PreservedIn e v'.entries ↔ e.1.tag = .str ∧ Keeps (serviceFields cf af) e.1.text e.2) := by
  obtain ⟨compose, compose', hread, hconvert, rfl⟩ := readArmour_eq_some h
  obtain ⟨es, rfl, -, hservices⟩ := readCompose_eq_some hread
  obtain ⟨p, hp, -, rfl⟩ := mem_named.mp (List.mem_of_getLast? hv)
  obtain ⟨e₀, he₀, hname₀, hp₀⟩ := mem_services.mp hp
  obtain ⟨hnamed, hmap⟩ := named_of_readNamed hservices he₀ hname₀
  cases hv₀ : e₀.2 with
  | scalar s =>
      rw [hv₀] at hmap
      cases hmap
  | seq vs =>
      rw [hv₀] at hmap
      cases hmap
  | map ss =>
      rw [hv₀] at hmap hnamed hp₀
      obtain ⟨l, hl, heq⟩ := Option.map_eq_some_iff.mp hmap
      -- there is one entry `services`, and its mapping has all services
      have hall : services (.map es) = ss := by
        show (named "services" es).flatMap Yaml.entries = ss
        rw [hnamed]
        exact List.append_nil ss
      obtain ⟨service, hservice, hget⟩ := get?_of_last hl (hall ▸ hv)
      obtain ⟨service', hhost, hsettings, hwritten⟩ :=
        written_service hconvert (heq ▸ hget)
      obtain ⟨fs, hfs, -⟩ := readService_eq_some hservice
      have hdv : (Yaml.map fs).Distinct :=
        hfs ▸ (hv₀ ▸ hd.map.2 e₀ he₀ : (Yaml.map ss).Distinct).map.2 p hp₀
      refine ⟨_, hwritten, fun e he hname => ?_⟩
      rw [hfs] at he hservice
      exact preservedIn_service hservice hhost hsettings he (hdv.map.2 e he) hname

/-- A setting is in the file as the user wrote it exactly if the field of its name keeps it. -/
theorem setting_preserved_iff (hd : d.Distinct)
    (h : readArmour cf af parts forms d = some (w, infos)) :
    (∀ e ∈ d.entries, e.1.text ∉ "secrets" :: composeParts →
      (PreservedIn e w.entries ↔ e.1.tag = .str ∧ Keeps composeFields e.1.text e.2)) ∧
    ∀ n v, (named n (services d)).getLast? = some v → ∃ v', (.str n, v') ∈ services w ∧
      ∀ e ∈ v.entries, e.1.text ∉ replacedSettings →
        (PreservedIn e v'.entries ↔ e.1.tag = .str ∧ Keeps (serviceFields cf af) e.1.text e.2) :=
  ⟨fun _ he hname => top_setting hd h he (fun hp => hname (List.mem_cons_of_mem _ hp)),
    fun _ _ hv => service_setting hd h hv⟩

end

/-! ## A service with a health check -/

def asciiCase : CaseForms where
  toUppercase := String.toUpper
  toLowercase := String.toLower
  toUppercase_eq s h := by
    refine String.toList_injective ?_
    show (String.map Char.toUpper s).toList = _
    rw [String.toList_map]
    refine (List.map_congr_left (fun c hc => ?_)).trans (List.map_id _)
    have hc := List.all_eq_true.mp h c hc
    have hlower : ¬ ('a'.val ≤ c.val ∧ c.val ≤ 'z'.val) := by
      intro hl
      rcases Bool.or_eq_true_iff.mp hc with hc | hc
      · have hc : c.val ≥ 'A'.val ∧ c.val ≤ 'Z'.val := of_decide_eq_true hc
        exact absurd (UInt32.le_trans hl.1 hc.2) (by decide)
      · rw [beq_iff_eq.mp hc] at hl
        exact absurd hl.1 (by decide)
    exact dif_neg hlower

/-- Texts of addresses, where there are none. -/
def noAddresses : AddressForms := ⟨fun _ => "", fun _ => none⟩

/-- The four bytes of an address. -/
def dotted (ip : UInt32) : String :=
  ".".intercalate ([24, 16, 8, 0].map (fun n => toString (ip.toNat / 2 ^ n % 256)))

/-- The parts of a description that has none of those that are replaced. -/
def plainParts : Parts firstSubnet where
  armour _ := none
  networks _ := none
  network _ := none
  proxies _ := none
  writeProxy _ := .map []
  showIp := dotted
  showNet subnet := dotted subnet ++ "/24"

/-- `command: ["nginx"]` and a health check. -/
def nginx : Yaml :=
  .map [(.str "version", .scalar (.str "3.7")), (.str "services", .map [(.str "a", .map
    [(.str "image", .scalar (.str "nginx")), (.str "command", .seq [.scalar (.str "nginx")]),
      (.str "healthcheck", .map [(.str "disable", .scalar (.ofBool true))])])])]

/-- The command is a string, and the health check is gone. -/
def nginxWritten : Yaml :=
  .map [(.str "version", .scalar (.str "3.7")), (.str "services", .map [(.str "a", .map
    [(.str "image", .scalar (.str "nginx")), (.str "command", .scalar (.str "nginx")),
      (.str "container_name", .scalar (.str "a")),
      (.str "networks", .map [(.str "arm-a",
        .map [(.str "ipv4_address", .scalar (.str "172.18.0.2"))])])])]),
    (.str "networks", .map [(.str "arm-a", .map [(.str "driver", .scalar (.str "bridge")),
      (.str "driver_opts",
        .map [(.str "com.docker.network.bridge.name", .scalar (.str "arm-a"))]),
      (.str "ipam",
        .map [(.str "config", .seq [.map [(.str "subnet", .scalar (.str "172.18.0.0/24"))]])]),
      (.str "internal", .scalar (.ofBool true))])])]

theorem nginx_distinct : nginx.Distinct := by
  simp [nginx, Yaml.Distinct, Yaml.DistinctEntries, Yaml.DistinctAll, Scalar.Same, Scalar.str]

theorem readArmour_nginx : ∃ infos,
    readArmour asciiCase noAddresses plainParts noSockets nginx = some (nginxWritten, infos) :=
  ⟨_, rfl⟩

/-- The settings of the service and what is written of it. -/
def nginxSettings : Entries :=
  [(.str "image", .scalar (.str "nginx")), (.str "command", .seq [.scalar (.str "nginx")]),
    (.str "healthcheck", .map [(.str "disable", .scalar (.ofBool true))])]

/-- The version and the image are kept; the command is not, and nor is the health check. -/
theorem setting_preserved_nginx : ∃ infos w v,
    readArmour asciiCase noAddresses plainParts noSockets nginx = some (w, infos) ∧
    PreservedIn (.str "version", .scalar (.str "3.7")) w.entries ∧
    (.str "a", v) ∈ services w ∧
    PreservedIn (.str "image", .scalar (.str "nginx")) v.entries ∧
    ¬ PreservedIn (.str "command", .seq [.scalar (.str "nginx")]) v.entries ∧
    ¬ PreservedIn (.str "healthcheck", .map [(.str "disable", .scalar (.ofBool true))])
      v.entries := by
  obtain ⟨infos, h⟩ := readArmour_nginx
  obtain ⟨htop, hservice⟩ := setting_preserved_iff nginx_distinct h
  obtain ⟨v, hv, hsettings⟩ := hservice "a" (.map nginxSettings) rfl
  refine ⟨infos, nginxWritten, v, h, ?_, hv, ?_, ?_, ?_⟩
  · exact (htop _ List.mem_cons_self (by decide)).mpr ⟨rfl, rfl⟩
  · refine (hsettings _ List.mem_cons_self (by decide)).mpr ⟨rfl, rfl, ?_⟩
    exact fun hdefault => absurd (show Tag.str = Tag.null from hdefault) (by decide)
  · intro hpres
    obtain ⟨-, hkept, -⟩ := (hsettings _ (List.mem_cons_of_mem _ List.mem_cons_self)
      (by decide)).mp hpres
    exact hkept.1 rfl
  · intro hpres
    exact ((hsettings _ (List.mem_cons_of_mem _ (List.mem_cons_of_mem _ List.mem_cons_self))
      (by decide)).mp hpres).2

/-- The health check is not in the file. -/
theorem not_settingsPreserved_nginx : ∃ infos,
    readArmour asciiCase noAddresses plainParts noSockets nginx = some (nginxWritten, infos) ∧
      ¬ SettingsPreserved nginx nginxWritten := by
  refine ⟨_, rfl, fun h => ?_⟩
  obtain ⟨s', hs', -, hsettings⟩ := h.2 (.str "a", .map nginxSettings) List.mem_cons_self
  have hkeys : Keyed ["image", "command", "container_name", "networks"] s'.2.entries := by
    rw [List.mem_singleton.mp hs']
    intro p hp
    simp only [Yaml.entries, List.mem_cons, List.not_mem_nil, or_false] at hp
    rcases hp with rfl | rfl | rfl | rfl <;> exact ⟨_, by decide, rfl⟩
  refine hkeys.not_preservedIn ?_ (hsettings (.str "healthcheck",
    .map [(.str "disable", .scalar (.ofBool true))]) ?_ (by decide))
  · decide
  · exact List.mem_cons_of_mem _ (List.mem_cons_of_mem _ List.mem_cons_self)

end Armour.Launch
