import Armour.Lib.Schema

/-! # Capabilities

`armour-compose/src/capabilities.rs`: the Linux capabilities that a service gets or drops.
-/

namespace Armour.Launch

open Armour.Lib Armour.Lib.Yaml

inductive Capability where
  | chown | dacOverride | dacReadSearch | fowner | fsetid | kill | setgid | setuid | setpcap
  | linuxImmutable | netBindService | netBroadcast | netAdmin | netRaw | ipcLock | ipcOwner
  | sysModule | sysRawio | sysChroot | sysPtrace | sysPacct | sysAdmin | sysBoot | sysNice
  | sysResource | sysTime | sysTtyConfig | mknod | lease | auditWrite | auditControl | setfcap
  | macOverride | macAdmin | syslog | wakeAlarm | blockSuspend | auditRead
deriving DecidableEq

namespace Capability

theorem ctorIdx_injective : Function.Injective Capability.ctorIdx := by
  intro a b h
  rw [← Capability.ofNat_ctorIdx a, ← Capability.ofNat_ctorIdx b, h]

instance : LinearOrder Capability := LinearOrder.lift' Capability.ctorIdx ctorIdx_injective

def name : Capability → String
  | chown => "CHOWN"
  | dacOverride => "DAC_OVERRIDE"
  | dacReadSearch => "DAC_READ_SEARCH"
  | fowner => "FOWNER"
  | fsetid => "FSETID"
  | kill => "KILL"
  | setgid => "SETGID"
  | setuid => "SETUID"
  | setpcap => "SETPCAP"
  | linuxImmutable => "LINUX_IMMUTABLE"
  | netBindService => "NET_BIND_SERVICE"
  | netBroadcast => "NET_BROADCAST"
  | netAdmin => "NET_ADMIN"
  | netRaw => "NET_RAW"
  | ipcLock => "IPC_LOCK"
  | ipcOwner => "IPC_OWNER"
  | sysModule => "SYS_MODULE"
  | sysRawio => "SYS_RAWIO"
  | sysChroot => "SYS_CHROOT"
  | sysPtrace => "SYS_PTRACE"
  | sysPacct => "SYS_PACCT"
  | sysAdmin => "SYS_ADMIN"
  | sysBoot => "SYS_BOOT"
  | sysNice => "SYS_NICE"
  | sysResource => "SYS_RESOURCE"
  | sysTime => "SYS_TIME"
  | sysTtyConfig => "SYS_TTY_CONFIG"
  | mknod => "MKNOD"
  | lease => "LEASE"
  | auditWrite => "AUDIT_WRITE"
  | auditControl => "AUDIT_CONTROL"
  | setfcap => "SETFCAP"
  | macOverride => "MAC_OVERRIDE"
  | macAdmin => "MAC_ADMIN"
  | syslog => "SYSLOG"
  | wakeAlarm => "WAKE_ALARM"
  | blockSuspend => "BLOCK_SUSPEND"
  | auditRead => "AUDIT_READ"

/-- `all_caps` -/
def all : List Capability :=
  [.chown, .dacOverride, .dacReadSearch, .fowner, .fsetid, .kill, .setgid, .setuid, .setpcap,
   .linuxImmutable, .netBindService, .netBroadcast, .netAdmin, .netRaw, .ipcLock, .ipcOwner,
   .sysModule, .sysRawio, .sysChroot, .sysPtrace, .sysPacct, .sysAdmin, .sysBoot, .sysNice,
   .sysResource, .sysTime, .sysTtyConfig, .mknod, .lease, .auditWrite, .auditControl, .setfcap,
   .macOverride, .macAdmin, .syslog, .wakeAlarm, .blockSuspend, .auditRead]

theorem all_sorted : all.Pairwise (· < ·) := by decide

end Capability

/-- `str::to_uppercase`, which leaves text in upper case alone, and `str::to_lowercase`. -/
structure CaseForms where
  toUppercase : String → String
  toLowercase : String → String
  toUppercase_eq : ∀ s, s.toList.all (fun c => c.isUpper || c == '_') = true → toUppercase s = s

namespace Capability

variable (cf : CaseForms)

/-- `FromStr for Capability` -/
def fromStr (s : String) : Option Capability :=
  all.find? (fun c => c.name == cf.toUppercase s)

theorem fromStr_name (c : Capability) : fromStr cf c.name = some c := by
  have hupper : cf.toUppercase c.name = c.name := cf.toUppercase_eq _ (by cases c <;> rfl)
  rw [fromStr, hupper]
  cases c <;> rfl

theorem fromStr_all : fromStr cf "ALL" = none := by
  rw [fromStr, cf.toUppercase_eq "ALL" rfl]
  rfl

end Capability

namespace CapSet

variable (cf : CaseForms)

def allCaps : BTreeSet Capability := ⟨Capability.all, Capability.all_sorted⟩

/-- `visit_seq`, which stops at `ALL`: nothing may come after it. -/
def visitSeq : List Yaml → BTreeSet Capability → Option (BTreeSet Capability)
  | [], s => some s
  | .scalar ⟨value, .str⟩ :: rest, s =>
      match Capability.fromStr cf value with
      | some cap => visitSeq rest (s.insert cap)
      | none =>
          if cf.toUppercase value = "ALL" ∧ rest.isEmpty then some allCaps else none
  | _, _ => none

def serialize (s : BTreeSet Capability) : List String :=
  if s.elems.length = allCaps.elems.length then ["ALL"] else s.elems.map Capability.name

/-- A list of texts as it is written. -/
abbrev texts (l : List String) : List Yaml := l.map (fun s => .scalar (.str s))

theorem preserved_texts {vs : List Yaml} {l : List String} :
    Preserved (.seq vs) (.seq (texts l)) ↔ vs = texts l := by
  rw [preserved_seq]
  constructor
  · intro h
    induction l generalizing vs with
    | nil => exact List.forall₂_nil_right_iff.mp h
    | cons s l ih =>
        obtain ⟨v, vs', hv, hvs, rfl⟩ := List.forall₂_cons_right_iff.mp h
        rw [texts, List.map_cons, ih hvs]
        cases v with
        | scalar a =>
            obtain ⟨text, tag⟩ := a
            obtain ⟨rfl, rfl⟩ := Scalar.same_str.mp (preserved_scalar.mp hv)
            rfl
        | seq vs => exact absurd hv not_preserved_seq_scalar
        | map es => exact absurd hv not_preserved_map_scalar
  · rintro rfl
    exact List.forall₂_same.mpr (fun v _ => preserved_refl v)

theorem visitSeq_names (caps : List Capability) (s : BTreeSet Capability) :
    visitSeq cf (texts (caps.map Capability.name)) s = some (caps.foldl BTreeSet.insert s) := by
  induction caps generalizing s with
  | nil => rfl
  | cons c caps ih =>
      show (match Capability.fromStr cf c.name with
        | some cap => visitSeq cf (texts (caps.map Capability.name)) (s.insert cap)
        | none => _) = _
      rw [Capability.fromStr_name]
      exact ih _

theorem visitSeq_all (s : BTreeSet Capability) : visitSeq cf (texts ["ALL"]) s = some allCaps := by
  show (match Capability.fromStr cf "ALL" with
    | some cap => visitSeq cf [] (s.insert cap)
    | none => if cf.toUppercase "ALL" = "ALL" ∧ true then some allCaps else none) = _
  rw [Capability.fromStr_all, cf.toUppercase_eq "ALL" rfl]
  rfl

/-- The names of a list of capabilities that is in order and not that of all of them, or `ALL`. -/
def Normal (vs : List Yaml) : Prop :=
  vs = texts ["ALL"] ∨ ∃ caps : List Capability, caps.Pairwise (· < ·) ∧
    caps.length ≠ allCaps.elems.length ∧ vs = texts (caps.map Capability.name)

theorem serialize_iff {vs : List Yaml} {s : BTreeSet Capability} (h : visitSeq cf vs ∅ = some s) :
    vs = texts (serialize s) ↔ Normal vs := by
  constructor
  · intro hvs
    unfold serialize at hvs
    split at hvs
    · exact .inl hvs
    · next hne => exact .inr ⟨s.elems, s.sorted, hne, hvs⟩
  · rintro (rfl | ⟨caps, hsorted, hne, rfl⟩)
    · rw [visitSeq_all] at h
      cases h
      rfl
    · rw [visitSeq_names] at h
      cases h
      have hcaps : caps.foldl BTreeSet.insert ∅ = ⟨caps, hsorted⟩ :=
        BTreeSet.ofList_elems ⟨caps, hsorted⟩
      rw [hcaps, serialize, if_neg hne]

/-- `CapSet` -/
def form : Form (BTreeSet Capability) where
  read
    | .scalar ⟨_, .null⟩ => some ∅
    | .seq vs => visitSeq cf vs ∅
    | _ => none
  write s := .seq (texts (serialize s))
  isDefault s := s.elems.isEmpty
  Kept
    | .seq vs => Normal vs
    | _ => False
  Default
    | .seq vs => vs = []
    | _ => False
  kept_iff v s _ hread := by
    split at hread
    · exact iff_of_false not_preserved_scalar_seq (fun h => h)
    · rw [preserved_texts, serialize_iff cf hread]
    · cases hread
  default_iff v s hread hkept := by
    split at hread
    · cases hkept
    · next vs =>
      have hvs := (serialize_iff cf hread).mpr hkept
      show _ ↔ vs = []
      rw [hvs, List.isEmpty_iff, texts, List.map_eq_nil_iff]
      unfold serialize
      split
      · next hlen =>
        refine iff_of_false (fun h => ?_) (by simp)
        rw [h] at hlen
        cases hlen
      · exact List.map_eq_nil_iff.symm
    · cases hread

end CapSet

end Armour.Launch
