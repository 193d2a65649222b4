import Mathlib.Algebra.Ring.Nat
import Armour.Lang.Literals
import Armour.Launch.Capabilities

/-! # Settings of a compose description

The records of `armour-compose`, with the fields that the conversion leaves alone: how each is
read, what it is when it is absent, and when it is written.
-/

namespace Armour.Launch

open Armour.Lib Armour.Lib.Yaml Armour.Lib.Form Armour.Lang

/-! ## Common forms -/

/-- `usize` -/
def usize : Form Nat := nat (2 ^ 64)

/-- `u16` -/
def u16 : Form Nat := nat (2 ^ 16)

/-- `ArrayDict` -/
def arrayDict : Form (List String ⊕ BTreeMap String String) :=
  either isSeq (list string) (map false string)

/-- A setting that is a text or absent. -/
def textField (name : String) : Field := .optional name text

/-- A setting that is a list, a map or a flag. -/
def listField {α : Type} (name : String) (f : Form α) : Field := .skipped name (list f) [] rfl

def flagField (name : String) : Field := .skipped name bool false rfl

def dictField (name : String) : Field := .skipped name arrayDict (.inl []) rfl

def stringListField (name : String) : Field := .skipped name stringList [] rfl

/-- `ExternalRecord` -/
def externalRecordFields : List Field := [.required "name" string]

/-- `External` -/
def external : Form (Bool ⊕ Values externalRecordFields) :=
  either isScalar bool (record false externalRecordFields (by decide))

/-- `external` is always written. -/
def externalField : Field :=
  ⟨_, "external", external, some (.inl false), .always, fun _ h => by cases h; rfl⟩

/-! ## `config.rs` -/

/-- `ConfigConfig`, and `SecretConfig` -/
def configConfigFields : List Field :=
  [textField "name", textField "file", externalField, dictField "labels"]

def configConfig : Form (Values configConfigFields × BTreeMap String Yaml) :=
  openRecord configConfigFields (by decide)

/-- `ConfigRecord` -/
def configRecordFields : List Field :=
  [.skipped "source" text "" rfl, textField "target", textField "uid", textField "gid",
    .optional "mode" u16]

/-- `Config`, and `Secret` -/
def config : Form (String ⊕ (Values configRecordFields × BTreeMap String Yaml)) :=
  either isScalar string (openRecord configRecordFields (by decide))

/-! ## `volume.rs` -/

/-- `VolumeConfig` -/
def volumeConfigFields : List Field :=
  [textField "name", textField "driver", .skipped "driver_opts" (map true text) ∅ rfl,
    externalField, dictField "labels"]

def volumeConfig : Form (Values volumeConfigFields × BTreeMap String Yaml) :=
  openRecord volumeConfigFields (by decide)

/-- `Bind` -/
def bindFields : List Field := [.required "popogation" text]

/-- `VolumeOptions` -/
def volumeOptionsFields : List Field := [.required "nocopy" bool]

/-- `Tmpfs` -/
def tmpfsFields : List Field := [.required "size" usize]

/-- `VolumeRecord` -/
def volumeRecordFields : List Field :=
  [.skipped "type" text "" rfl, .skipped "source" text "" rfl, .skipped "target" text "" rfl,
    flagField "read_only", .skipped "consistency" text "" rfl,
    .skipped "bind" (record true bindFields (by decide)) ("", ()) rfl,
    .skipped "volume" (record true volumeOptionsFields (by decide)) (false, ()) rfl,
    .skipped "tmpfs" (record true tmpfsFields (by decide)) ((0 : Nat), ()) rfl]

/-- `Volume` -/
def volume : Form (String ⊕ (Values volumeRecordFields × BTreeMap String Yaml)) :=
  either isScalar string (openRecord volumeRecordFields (by decide))

/-! ## `service.rs` -/

/-- `Build` -/
def buildFields : List Field :=
  [.required "context" text, textField "dockerfile", dictField "args", listField "cache_from" text,
    dictField "labels", textField "shm_size", textField "target"]

/-- `FromStr for Build` -/
def buildOfString (s : String) : Values buildFields × BTreeMap String Yaml :=
  ((s, none, .inl [], [], .inl [], none, none, ()), ∅)

def build : Form (Values buildFields × BTreeMap String Yaml) :=
  @stringOr buildFields (by decide) buildOfString

/-- `PortRecord` -/
def portRecordFields : List Field :=
  [.required "target" u16, .required "published" u16, .required "protocol" text,
    .required "mode" text]

/-- The text of a port, or its number. -/
def portText : Form String where
  read
    | .scalar ⟨value, .str⟩ => some value
    | .scalar ⟨_, .int n⟩ => if 0 ≤ n ∧ n < 2 ^ 64 then some (toString n) else none
    | _ => none
  write s := .scalar (.str s)
  isDefault _ := false
  Kept
    | .scalar s => s.tag = .str
    | _ => False
  Default _ := False
  kept_iff v x _ hread := by
    split at hread
    · cases hread
      exact iff_of_true (preserved_scalar.mpr (.refl _)) rfl
    · refine iff_of_false (fun h => ?_) (fun h => by cases h)
      cases (preserved_scalar.mp h).1
    · cases hread
  default_iff v x _ _ := by simp

/-- `Port` -/
def port : Form (String ⊕ (Values portRecordFields × BTreeMap String Yaml)) :=
  either isScalar portText (openRecord portRecordFields (by decide))

/-- The text form of addresses. -/
structure AddressForms where
  toText : IpAddr → String
  parse : String → Option IpAddr

inductive Order where
  | startFirst | stopFirst
deriving DecidableEq

def Order.text : Order → String
  | startFirst => "start-first"
  | stopFirst => "stop-first"

section

variable (cf : CaseForms) (af : AddressForms)

/-- `FromStr for Order` -/
def Order.fromStr (s : String) : Option Order :=
  match cf.toLowercase s with
  | "start-first" => some .startFirst
  | "stop-first" => some .stopFirst
  | _ => none

/-- `Config` of a deployment -/
def updateConfigFields : List Field :=
  [.optional "parallelism" usize, textField "delay", textField "failure_action",
    textField "monitor", .optional "max_failure_ratio" usize,
    .optional "order" (refine (Order.fromStr cf) Order.text false)]

def updateConfigNames : List String :=
  ["parallelism", "delay", "failure_action", "monitor", "max_failure_ratio", "order"]

theorem updateConfig_nodup : (names (updateConfigFields cf)).Nodup :=
  show updateConfigNames.Nodup by decide

def updateConfig : Form (Values (updateConfigFields cf) × BTreeMap String Yaml) :=
  openRecord (updateConfigFields cf) (updateConfig_nodup cf)

/-- `Resource` -/
def resourceFields : List Field := [textField "cpus", textField "memory"]

def noResource : Values resourceFields × BTreeMap String Yaml := ((none, none, ()), ∅)

def resourceField (name : String) : Field :=
  .skipped name (openRecord resourceFields (by decide)) noResource rfl

/-- `Resources` -/
def resourcesFields : List Field := [resourceField "limits", resourceField "reservations"]

def updateConfigField (name : String) : Field :=
  .skipped name (updateConfig cf) ((none, none, none, none, none, none, ()), ∅) rfl

/-- `Deployment` -/
def deploymentFields : List Field :=
  [textField "mode", textField "endpoint_mode", .optional "replicas" usize, dictField "labels",
    updateConfigField cf "rollback_config", updateConfigField cf "update_config",
    .skipped "resources" (openRecord resourcesFields (by decide)) ((noResource, noResource, ()), ∅)
      rfl,
    .optional "restart_policy" value, .optional "placement" value]

def deploymentNames : List String :=
  ["mode", "endpoint_mode", "replicas", "labels", "rollback_config", "update_config", "resources",
    "restart_policy", "placement"]

theorem deployment_nodup : (names (deploymentFields cf)).Nodup :=
  show deploymentNames.Nodup by decide

def deployment : Form (Values (deploymentFields cf) × BTreeMap String Yaml) :=
  openRecord (deploymentFields cf) (deployment_nodup cf)

/-- `Deployment::default` -/
def noDeployment : Values (deploymentFields cf) × BTreeMap String Yaml :=
  let noConfig := ((none, none, none, none, none, none, ()), ∅)
  ((none, none, none, .inl [], noConfig, noConfig, ((noResource, noResource, ()), ∅), none, none,
    ()), ∅)

/-- `Vec<IpAddr>`, or one address. -/
def addresses : Form (List IpAddr) := listOrOne (refine af.parse af.toText true)

/-- The settings of a `Service` other than `hostname` and those that are replaced. -/
def serviceSettings : List Field :=
  [.skipped "build" build (buildOfString "") rfl,
    textField "cgroup_parent", textField "domainname", textField "image", textField "ipc",
    textField "isolation", textField "mac_address", textField "network_mode", textField "pid",
    textField "restart", textField "shm_size", textField "stop_grace_period",
    textField "stop_signal", textField "user", textField "userns_mode", textField "working_dir",
    listField "depends_on" text, listField "devices" text, listField "expose" text,
    listField "external_links" text, listField "security_opt" text,
    listField "configs" config, listField "ports" port, listField "secrets" config,
    listField "volumes" volume,
    flagField "init", flagField "privileged", flagField "read_only", flagField "stdin_open",
    flagField "tty",
    .skipped "cap_add" (CapSet.form cf) ∅ rfl, .skipped "cap_drop" (CapSet.form cf) ∅ rfl,
    stringListField "command", stringListField "dns_search", stringListField "entrypoint",
    stringListField "env_file", stringListField "tmpfs",
    .skipped "dns" (addresses af) [] rfl,
    dictField "environment", dictField "labels", dictField "sysctls",
    .skipped "deploy" (deployment cf) (noDeployment cf) rfl]

def serviceFields : List Field := textField "hostname" :: serviceSettings cf af

def serviceNames : List String :=
  ["hostname", "build", "cgroup_parent", "domainname", "image", "ipc", "isolation", "mac_address",
    "network_mode", "pid", "restart", "shm_size", "stop_grace_period", "stop_signal", "user",
    "userns_mode", "working_dir", "depends_on", "devices", "expose", "external_links",
    "security_opt", "configs", "ports", "secrets", "volumes", "init", "privileged", "read_only",
    "stdin_open", "tty", "cap_add", "cap_drop", "command", "dns_search", "entrypoint", "env_file",
    "tmpfs", "dns", "environment", "labels", "sysctls", "deploy"]

theorem service_nodup : (names (serviceFields cf af)).Nodup :=
  show serviceNames.Nodup by decide

end

/-! ## `lib.rs` -/

/-- The settings of a `Compose` other than those that are replaced; `secrets` is not written. -/
def composeFields : List Field :=
  [.required "version" text,
    .skipped "volumes" (map true (option volumeConfig)) ∅ rfl,
    .skipped "configs" (map true (option configConfig)) ∅ rfl,
    ⟨_, "secrets", map true (option configConfig), some ∅, .never, fun _ h => by cases h; rfl⟩]

theorem compose_nodup : (names composeFields).Nodup := by decide

end Armour.Launch
