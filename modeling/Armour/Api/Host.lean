import Armour.Lang.Policies
import Armour.Proxy.Identities

/-! # Messages of the data plane host

`armour-api/src/host.rs` and `armour-api/src/proxy.rs`: the proxies of an on-boarding request,
with the ports they are to listen on, and the requests that a proxy is sent.  A proxy without a
port of its own gets the one after the greatest port that the request chooses.
-/

namespace Armour.Api

open Armour.Lib Armour.Lang

/-- `std::net::SocketAddrV4` -/
structure SocketAddrV4 where
  ip : UInt32
  port : UInt16
deriving DecidableEq, Repr

/-- The text form of socket addresses. -/
structure SocketForms where
  toText : SocketAddrV4 → String
  parse : String → Option SocketAddrV4

/-- Texts of socket addresses, where there are none. -/
def noSockets : SocketForms := ⟨fun _ => "", fun _ => none⟩

inductive HttpConfig where
  | port (p : UInt16)
  | ingress (p : UInt16) (socket : SocketAddrV4)
deriving DecidableEq, Repr

/-- `HttpConfig::port` -/
def HttpConfig.portOf : HttpConfig → UInt16
  | port p => p
  | ingress p _ => p

/-- `HttpConfig::ingress` -/
def HttpConfig.ingressOf : HttpConfig → Option SocketAddrV4
  | port _ => none
  | ingress _ socket => some socket

/-- `PolicyRequest`: what a proxy instance is sent. -/
inductive PolicyRequest where
  | cpOnboard (ipLabels : BTreeMap IpAddr (BTreeSet Label))
  | label (op : Proxy.Identities.LabelOp)
  | setPolicy (policies : DPPolicies)
  | shutdown
  | startHttp (config : HttpConfig)
  | startTcp (port : UInt16)
  | status
  | stop (protocol : Protocol)
  | timeout (secs : UInt8)

structure Proxy where
  label : Label
  port : Option UInt16
  timeout : Option UInt8
  debug : Bool
  ingress : Option String
deriving DecidableEq

/-- `p += 1`, in a build that checks additions for overflow or in one that wraps around. -/
def increment (checks : Bool) (p : UInt16) : Except String UInt16 :=
  if checks && p == 65535 then .error "attempt to add with overflow" else .ok (p + 1)

namespace Proxy

/-- `From<Label> for Proxy` -/
def ofLabel (label : Label) : Proxy := ⟨label, none, none, false, none⟩

/-- `Proxy::port` -/
def portAfter (checks : Bool) (p : UInt16) (proxy : Proxy) : Except String UInt16 :=
  match proxy.port with
  | some q => .ok q
  | none => increment checks p

variable (forms : SocketForms)

/-- `Proxy::ingress` -/
def ingressSocket (proxy : Proxy) : Option SocketAddrV4 := proxy.ingress.bind forms.parse

/-- `port.parse::<u16>()` -/
def parsePort (s : String) : Option UInt16 :=
  ((Text.parseUsize s).filter (· < 65536)).map UInt16.ofNat

/-- `Proxy::set_ingress` -/
def setIngress (hosts : BTreeMap String UInt32) (proxy : Proxy) : Except String Proxy :=
  match proxy.ingressSocket forms with
  | some _ => .ok proxy
  | none =>
      match proxy.ingress with
      | none => .ok proxy
      | some ingress =>
          match Text.split ":" ingress with
          | [host, port] =>
              match hosts.get? host, parsePort port with
              | some ip, some port => .ok { proxy with ingress := some (forms.toText ⟨ip, port⟩) }
              | _, _ => .error ("failed to set ingress: " ++ ingress)
          | _ => .error ("failed to set ingress: " ++ ingress)

/-- `Proxy::config` -/
def config (checks : Bool) (p : UInt16) (proxy : Proxy) : Except String HttpConfig := do
  let port ← proxy.portAfter checks p
  match proxy.ingressSocket forms with
  | some ingress => return .ingress port ingress
  | none => return .port port

/-- The configuration for a port. -/
def configOn (port : UInt16) (proxy : Proxy) : HttpConfig :=
  match proxy.ingressSocket forms with
  | some ingress => .ingress port ingress
  | none => .port port

theorem config_eq (checks : Bool) (p : UInt16) (proxy : Proxy) :
    proxy.config forms checks p = (proxy.portAfter checks p).map (proxy.configOn forms) := by
  unfold config configOn
  cases proxy.portAfter checks p with
  | error e => rfl
  | ok port => cases proxy.ingressSocket forms <;> rfl

@[simp] theorem portOf_configOn (port : UInt16) (proxy : Proxy) :
    (proxy.configOn forms port).portOf = port := by
  unfold configOn
  cases proxy.ingressSocket forms <;> rfl

/-- `set_ingress` changes nothing else. -/
theorem setIngress_ok {forms : SocketForms} {hosts : BTreeMap String UInt32} {p p' : Proxy}
    (h : p.setIngress forms hosts = .ok p') : p'.label = p.label ∧ p'.port = p.port := by
  unfold setIngress at h
  split at h
  · cases h
    exact ⟨rfl, rfl⟩
  · split at h
    · cases h
      exact ⟨rfl, rfl⟩
    · split at h
      · split at h
        · cases h
          exact ⟨rfl, rfl⟩
        · cases h
      · cases h

end Proxy

/-- The greatest port that a list of proxies chooses, or the one before the first of those
that are assigned. -/
def topPort (proxies : List Proxy) : UInt16 := ((proxies.filterMap Proxy.port).max?).getD 5999

structure OnboardInformation where
  proxies : List Proxy
  labels : List (UInt32 × BTreeSet Label)

/-- `OnboardInformation::top_port` -/
def OnboardInformation.topPort (info : OnboardInformation) : UInt16 := Api.topPort info.proxies

/-! ## Ports of proxies -/

/-- The port of a proxy when additions do not overflow. -/
def Proxy.portOr (p : UInt16) (proxy : Proxy) : UInt16 := proxy.port.getD (p + 1)

/-- An addition goes wrong: a proxy has no port of its own, and there is none after `p`. -/
def Proxy.Overflows (p : UInt16) (proxy : Proxy) : Prop := proxy.port = none ∧ p = 65535

instance (p : UInt16) (proxy : Proxy) : Decidable (proxy.Overflows p) :=
  inferInstanceAs (Decidable (_ ∧ _))

theorem Proxy.portAfter_of_not_overflows {p : UInt16} {proxy : Proxy} (checks : Bool)
    (h : ¬ proxy.Overflows p) : proxy.portAfter checks p = .ok (proxy.portOr p) := by
  unfold portAfter portOr
  cases hp : proxy.port with
  | some q => rfl
  | none =>
      have hne : p ≠ 65535 := fun he => h ⟨hp, he⟩
      simp [increment, hne]

theorem Proxy.portAfter_of_overflows {p : UInt16} {proxy : Proxy} (h : proxy.Overflows p) :
    proxy.portAfter true p = .error "attempt to add with overflow" := by
  unfold portAfter
  rw [h.1, h.2]
  rfl

/-- A build that wraps around goes on with any sum. -/
theorem Proxy.portAfter_false (p : UInt16) (proxy : Proxy) :
    proxy.portAfter false p = .ok (proxy.portOr p) := by
  unfold portAfter portOr
  cases proxy.port with
  | some q => rfl
  | none => rfl

theorem le_foldl_max {l : List UInt16} {p q : UInt16} (h : q ≤ p ∨ q ∈ l) : q ≤ l.foldl max p := by
  induction l generalizing p with
  | nil => exact h.resolve_right (by simp)
  | cons a l ih =>
      have hmax : max p a = if p ≤ a then a else p := rfl
      rw [List.foldl_cons, hmax]
      simp only [UInt16.le_iff_toNat_le] at h ih ⊢
      rcases h with h | h
      · refine ih (Or.inl ?_)
        split_ifs
        · omega
        · exact h
      · rcases List.mem_cons.mp h with rfl | h
        · refine ih (Or.inl ?_)
          split_ifs
          · exact Nat.le_refl _
          · omega
        · exact ih (Or.inr h)

/-- No chosen port is greater than the greatest one. -/
theorem le_topPort {proxies : List Proxy} {q : UInt16}
    (h : q ∈ proxies.filterMap Proxy.port) : q ≤ topPort proxies := by
  unfold topPort
  cases hl : proxies.filterMap Proxy.port with
  | nil =>
      rw [hl] at h
      cases h
  | cons a l =>
      rw [hl] at h
      rw [List.max?_cons', Option.getD_some]
      rcases List.mem_cons.mp h with rfl | h
      · exact le_foldl_max (Or.inl (UInt16.le_iff_toNat_le.mpr (Nat.le_refl _)))
      · exact le_foldl_max (Or.inr h)

theorem foldl_max_mem (l : List UInt16) (p : UInt16) : l.foldl max p ∈ p :: l := by
  induction l generalizing p with
  | nil => exact List.mem_singleton_self p
  | cons a l ih =>
      have hmax : max p a = if p ≤ a then a else p := rfl
      rw [List.foldl_cons]
      rcases List.mem_cons.mp (ih (max p a)) with h | h
      · rw [h, hmax]
        split_ifs
        · exact List.mem_cons_of_mem _ List.mem_cons_self
        · exact List.mem_cons_self
      · exact List.mem_cons_of_mem _ (List.mem_cons_of_mem _ h)

/-- There is no port after the greatest one exactly if the last port is chosen. -/
theorem topPort_eq_last {proxies : List Proxy} :
    topPort proxies = 65535 ↔ 65535 ∈ proxies.filterMap Proxy.port := by
  constructor
  · intro h
    unfold topPort at h
    cases hl : proxies.filterMap Proxy.port with
    | nil =>
        rw [hl] at h
        exact absurd h (by decide)
    | cons a l =>
        rw [hl, List.max?_cons', Option.getD_some] at h
        rw [← h]
        exact foldl_max_mem l a
  · intro h
    have hle := UInt16.le_iff_toNat_le.mp (le_topPort h)
    have hlt := (topPort proxies).toNat_lt
    have hlast : (65535 : UInt16).toNat = 65535 := rfl
    exact UInt16.toNat_inj.mp (by omega)

/-- A port that is assigned is none of those that are chosen. -/
theorem succ_topPort_not_mem {proxies : List Proxy} (h : topPort proxies ≠ 65535) :
    topPort proxies + 1 ∉ proxies.filterMap Proxy.port := by
  intro hmem
  have hle := UInt16.le_iff_toNat_le.mp (le_topPort hmem)
  have hlt := (topPort proxies).toNat_lt
  have hne : (topPort proxies).toNat ≠ 65535 := fun he => h (UInt16.toNat_inj.mp he)
  have hsucc : (topPort proxies + 1).toNat = (topPort proxies).toNat + 1 := by
    rw [UInt16.toNat_add]
    exact Nat.mod_eq_of_lt (by simp only [UInt16.toNat_one]; omega)
  omega

end Armour.Api
