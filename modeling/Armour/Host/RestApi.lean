import Armour.Host.Instance

/-! # On-boarding requests

`armour-host/src/rest_api.rs`: what `on_board` sends to the host for each proxy of a request, in
order.  The ports of the proxies are pairwise different unless two of them are assigned.
-/

namespace Armour.Host

open Armour.Lib Armour.Lang Armour.Api

/-- What the REST interface sends to the host. -/
inductive Message where
  | launch (m : Launch)
  | command (c : PolicyCommand)

/-- `launch_proxy` -/
def launchProxy (proxy : Proxy) : Message :=
  .launch ⟨false, proxy.label, if proxy.debug then .debug else .info, proxy.timeout⟩

/-- `add_ip_labels` -/
def addIpLabels (inst : InstanceSelector) (ipLabels : List (UInt32 × BTreeSet Label)) : Message :=
  .command (.newWithRetry inst (.label (.addIp ipLabels)))

/-- The map from addresses to labels; labels of one address are put together. -/
def ipLabelsMap (ipLabels : List (UInt32 × BTreeSet Label)) : BTreeMap IpAddr (BTreeSet Label) :=
  ipLabels.foldl (fun m (ip, labels) =>
    match m.get? (.v4 ip) with
    | some labels2 => m.insert (.v4 ip) (labels.elems.foldl BTreeSet.insert labels2)
    | none => m.insert (.v4 ip) labels) ∅

def startOnboarding (inst : InstanceSelector) (ipLabels : List (UInt32 × BTreeSet Label)) :
    Message :=
  .command (.newWithRetry inst (.cpOnboard (ipLabelsMap ipLabels)))

def startProxy (inst : InstanceSelector) (config : HttpConfig) : Message :=
  .command (.newWithRetry inst (.startHttp config))

variable (forms : SocketForms) (checks : Bool)

/-- The loop of `on_board` after `top_port`: the messages it sends, and how it ends. -/
def onBoardProxies (port : UInt16) (ipLabels : List (UInt32 × BTreeSet Label)) :
    List Proxy → List Message × Except String Unit
  | [] => ([], .ok ())
  | proxy :: proxies =>
      let inst := InstanceSelector.label proxy.label
      let first := [launchProxy proxy, addIpLabels inst ipLabels]
      match proxy.config forms checks port with
      | .error e => (first, .error e)
      | .ok config =>
          let rest := onBoardProxies port ipLabels proxies
          (first ++ [startOnboarding inst ipLabels, startProxy inst config] ++ rest.1, rest.2)

/-- `on_board` -/
def onBoard (information : OnboardInformation) : List Message × Except String Unit :=
  onBoardProxies forms checks information.topPort information.labels information.proxies

/-! ## Ports -/

/-- The port that a message starts an HTTP proxy on. -/
def Message.startsOn : Message → Option UInt16
  | .command ⟨_, _, .startHttp config⟩ => some config.portOf
  | _ => none

/-- The ports that the proxies of a request end up with. -/
def startedPorts (information : OnboardInformation) : List UInt16 :=
  (onBoard forms checks information).1.filterMap Message.startsOn

/-- No addition overflows, and the ports are different if the chosen ones are. -/
structure PortsAssigned (information : OnboardInformation) : Prop where
  fits : (onBoard forms true information).2 = .ok ()
  distinct : (information.proxies.filterMap Proxy.port).Nodup →
    ∀ checks, (startedPorts forms checks information).Nodup

section

variable (inst : InstanceSelector) (ipLabels : List (UInt32 × BTreeSet Label))

theorem startsOn_launchProxy (proxy : Proxy) : (launchProxy proxy).startsOn = none := rfl

theorem startsOn_addIpLabels : (addIpLabels inst ipLabels).startsOn = none := rfl

theorem startsOn_startOnboarding : (startOnboarding inst ipLabels).startsOn = none := rfl

theorem startsOn_startProxy (config : HttpConfig) :
    (startProxy inst config).startsOn = some config.portOf := rfl

end

section

variable {forms : SocketForms} {checks : Bool} {port : UInt16}
  {ipLabels : List (UInt32 × BTreeSet Label)} {proxies : List Proxy}

/-- As long as no addition overflows, every proxy is started on its port. -/
theorem onBoardProxies_ports {f : Proxy → UInt16}
    (h : ∀ proxy ∈ proxies, proxy.portAfter checks port = .ok (f proxy)) :
    (onBoardProxies forms checks port ipLabels proxies).2 = .ok () ∧
      (onBoardProxies forms checks port ipLabels proxies).1.filterMap Message.startsOn =
        proxies.map f := by
  induction proxies with
  | nil => exact ⟨rfl, rfl⟩
  | cons proxy proxies ih =>
      obtain ⟨hp, hrest⟩ := List.forall_mem_cons.mp h
      obtain ⟨hok, hports⟩ := ih hrest
      have hconfig : proxy.config forms checks port = .ok (proxy.configOn forms (f proxy)) := by
        rw [Proxy.config_eq, hp]
        rfl
      simp only [onBoardProxies, hconfig]
      refine ⟨hok, ?_⟩
      simp only [List.cons_append, List.nil_append, List.filterMap_cons, startsOn_launchProxy,
        startsOn_addIpLabels, startsOn_startOnboarding, startsOn_startProxy,
        Proxy.portOf_configOn, hports, List.map_cons]

/-- A checked build stops at the first proxy whose port overflows. -/
theorem onBoardProxies_fits :
    (onBoardProxies forms true port ipLabels proxies).2 = .ok () ↔
      ∀ proxy ∈ proxies, ¬ proxy.Overflows port := by
  induction proxies with
  | nil => exact iff_of_true rfl (by simp)
  | cons proxy proxies ih =>
      rw [List.forall_mem_cons, ← ih]
      by_cases ho : proxy.Overflows port
      · have hconfig := Proxy.config_eq forms true port proxy
        rw [Proxy.portAfter_of_overflows ho] at hconfig
        refine iff_of_false ?_ (fun h => h.1 ho)
        simp only [onBoardProxies, hconfig]
        exact nofun
      · have hconfig := Proxy.config_eq forms true port proxy
        rw [Proxy.portAfter_of_not_overflows true ho] at hconfig
        simp only [onBoardProxies, hconfig]
        exact ⟨fun h => ⟨ho, h⟩, fun h => h.2⟩

end

/-- A value that is given to all who have none makes no two equal when at most one has none. -/
theorem nodup_map_getD {α : Type} [DecidableEq α] {l : List (Option α)} {d : α}
    (hd : none ∈ l → some d ∉ l) (hnd : (l.filterMap id).Nodup) :
    (l.map (fun o => o.getD d)).Nodup ↔ l.count none ≤ 1 := by
  induction l with
  | nil => simp
  | cons o l ih =>
      have hd' : none ∈ l → some d ∉ l := fun hn hs =>
        hd (List.mem_cons_of_mem _ hn) (List.mem_cons_of_mem _ hs)
      have hmem : ∀ a, (none ∈ l → a ≠ d) → (a ∈ l.map (fun o => o.getD d) ↔ some a ∈ l) := by
        intro a ha
        rw [List.mem_map]
        constructor
        · rintro ⟨o, ho, hoa⟩
          cases o with
          | none => exact absurd hoa.symm (ha ho)
          | some b => rwa [← hoa]
        · exact fun h => ⟨some a, h, rfl⟩
      rw [List.map_cons, List.nodup_cons]
      cases o with
      | none =>
          have hds : some d ∉ l := fun hs => hd List.mem_cons_self (List.mem_cons_of_mem _ hs)
          have hnone : d ∈ l.map (fun o => o.getD d) ↔ none ∈ l := by
            rw [List.mem_map]
            constructor
            · rintro ⟨o, ho, hod⟩
              cases o with
              | none => exact ho
              | some b =>
                  obtain rfl : b = d := hod
                  exact absurd ho hds
            · exact fun h => ⟨none, h, rfl⟩
          have ih' := ih hd' (by simpa using hnd)
          rw [Option.getD_none, hnone, List.count_cons_self, ih']
          have hzero := @List.count_eq_zero _ _ _ (none : Option α) l
          constructor
          · rintro ⟨hn, -⟩
            have := hzero.mpr hn
            omega
          · intro hle
            exact ⟨hzero.mp (by omega), by omega⟩
      | some a =>
          have had : none ∈ l → a ≠ d := by
            rintro hn rfl
            exact hd (List.mem_cons_of_mem _ hn) List.mem_cons_self
          obtain ⟨ha, hnd'⟩ := List.nodup_cons.mp hnd
          have hnot : some a ∉ l := fun h => ha (List.mem_filterMap.mpr ⟨some a, h, rfl⟩)
          rw [Option.getD_some, hmem a had, List.count_cons_of_ne (by simp), ih hd' hnd']
          exact and_iff_right hnot

/-- The ports of a request are assigned well exactly if a proxy without a port of its own does
not come with one on the last port, and no two proxies without one come together. -/
theorem portsAssigned_iff (forms : SocketForms) (information : OnboardInformation) :
    PortsAssigned forms information ↔
      ((∃ proxy ∈ information.proxies, proxy.port = none) →
        ∀ proxy ∈ information.proxies, proxy.port ≠ some 65535) ∧
      ((information.proxies.filterMap Proxy.port).Nodup →
        (information.proxies.map Proxy.port).count none ≤ 1) := by
  generalize hps : information.proxies = ps
  have hfits : (onBoard forms true information).2 = .ok () ↔
      ∀ proxy ∈ ps, ¬ proxy.Overflows (topPort ps) := by
    rw [← hps]
    exact onBoardProxies_fits
  have hlast : (∀ proxy ∈ ps, ¬ proxy.Overflows (topPort ps)) ↔
      ((∃ proxy ∈ ps, proxy.port = none) → ∀ proxy ∈ ps, proxy.port ≠ some 65535) := by
    have htop : topPort ps = 65535 ↔ ∃ proxy ∈ ps, proxy.port = some 65535 := by
      rw [topPort_eq_last, List.mem_filterMap]
    constructor
    · rintro h ⟨proxy, hp, hnone⟩ q hq hport
      exact h proxy hp ⟨hnone, htop.mpr ⟨q, hq, hport⟩⟩
    · rintro h proxy hp ⟨hnone, hmax⟩
      obtain ⟨q, hq, hport⟩ := htop.mp hmax
      exact h ⟨proxy, hp, hnone⟩ q hq hport
  have hdistinct : (∀ proxy ∈ ps, ¬ proxy.Overflows (topPort ps)) →
      ∀ checks, startedPorts forms checks information =
        (ps.map Proxy.port).map (fun o => o.getD (topPort ps + 1)) := by
    intro h checks
    have hports := @onBoardProxies_ports forms checks information.topPort information.labels
      information.proxies (fun proxy => proxy.portOr information.topPort) (by
        intro proxy hp
        rw [hps] at hp
        refine Proxy.portAfter_of_not_overflows checks ?_
        rw [OnboardInformation.topPort, hps]
        exact h proxy hp)
    rw [startedPorts, onBoard, hports.2, OnboardInformation.topPort, hps, List.map_map]
    rfl
  have hcount : (∀ proxy ∈ ps, ¬ proxy.Overflows (topPort ps)) →
      (ps.filterMap Proxy.port).Nodup → ∀ checks,
        ((startedPorts forms checks information).Nodup ↔ (ps.map Proxy.port).count none ≤ 1) := by
    intro h hnd checks
    rw [hdistinct h checks]
    refine nodup_map_getD (fun hnone hmem => ?_) (by rwa [List.filterMap_map])
    obtain ⟨proxy, hp, hport⟩ := List.mem_map.mp hnone
    have hne : topPort ps ≠ 65535 := fun he => h proxy hp ⟨hport, he⟩
    obtain ⟨q, hq, hqp⟩ := List.mem_map.mp hmem
    exact succ_topPort_not_mem hne (List.mem_filterMap.mpr ⟨q, hq, hqp⟩)
  constructor
  · intro h
    have hov := hfits.mp h.fits
    refine ⟨hlast.mp hov, fun hnd => (hcount hov hnd true).mp ?_⟩
    exact h.distinct (by rwa [hps]) true
  · rintro ⟨hov, hone⟩
    have hov' := hlast.mpr hov
    refine ⟨hfits.mpr hov', fun hnd checks => ?_⟩
    rw [hps] at hnd
    exact (hcount hov' hnd checks).mpr (hone hnd)

/-- Two proxies without ports of their own are both started on port 6000; one that comes with a
proxy on the last port makes the addition overflow. -/
theorem portsAssigned_fails :
    ∃ (forms : SocketForms) (a b c : Proxy),
      startedPorts forms true ⟨[a, b], []⟩ = [6000, 6000] ∧
      ¬ PortsAssigned forms ⟨[a, b], []⟩ ∧
      (onBoard forms true ⟨[c, a], []⟩).2 = .error "attempt to add with overflow" ∧
      ¬ PortsAssigned forms ⟨[c, a], []⟩ := by
  refine ⟨⟨fun _ => "", fun _ => none⟩, .ofLabel ⟨[.str "a"]⟩, .ofLabel ⟨[.str "b"]⟩,
    { Proxy.ofLabel ⟨[.str "c"]⟩ with port := some 65535 }, rfl, fun h => ?_, rfl, fun h => ?_⟩
  · have hnd := h.distinct List.nodup_nil true
    revert hnd
    decide
  · cases h.fits

end Armour.Host
