import Armour.Api.Host

/-! # Instances of the data plane host

`armour-host/src/instance.rs`, and the messages of `armour-host/src/host.rs` that the REST
interface sends.
-/

namespace Armour.Host

open Armour.Lib Armour.Lang Armour.Api

/-- `literals::DPID` -/
abbrev DPID := Lang.ID

inductive InstanceSelector where
  | all
  | label (l : Label)
  | id (n : Nat)

/-- What a proxy process tells of itself. -/
structure Meta where
  pid : UInt32
  tmpDpid : Option DPID
  label : Label
  http : String
  tcp : String

/-- Whether the selector is about the instance with this number and information. -/
def InstanceSelector.selects : InstanceSelector → Nat → Option Meta → Bool
  | .all, _, _ => true
  | .label l, _, some m => l.matchesWith m.label
  | .label _, _, none => false
  | .id n, k, _ => n = k

inductive Level where
  | debug | info
deriving DecidableEq, Repr

/-- `Launch` -/
structure Launch where
  force : Bool
  label : Label
  log : Level
  timeout : Option UInt8

/-- `PolicyCommand`; a command that selects no instance is tried once more if `retry`. -/
structure PolicyCommand where
  retry : Bool
  instances : InstanceSelector
  request : PolicyRequest

namespace PolicyCommand

/-- `PolicyCommand::new` -/
def new (instances : InstanceSelector) (request : PolicyRequest) : PolicyCommand :=
  ⟨false, instances, request⟩

def newWithRetry (instances : InstanceSelector) (request : PolicyRequest) : PolicyCommand :=
  ⟨true, instances, request⟩

def secondAttempt (c : PolicyCommand) : PolicyCommand := { c with retry := false }

end PolicyCommand

end Armour.Host
