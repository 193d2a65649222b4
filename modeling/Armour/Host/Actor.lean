import Armour.Api.Control
import Armour.Host.Instance
import Mathlib.Logic.Function.Basic

/-! # The data plane host

The actor of `armour-host/src/host.rs`: which instances are connected, what they told of
themselves, and which processes the host has started.  Each handler is a function; what happens
between two messages is up to the systems that are built on them.
-/

namespace Armour.Host

open Armour.Lib Armour.Lang Armour.Api

/-- `ArmourDataHost`.  An instance has its `Meta` once it has registered.  `count` numbers the
instances, so that no later number is in use. -/
structure ArmourDataHost where
  label : Label
  onboarded : Bool
  instances : Nat → Option (Option Meta)
  children : UInt32 → Bool
  count : Nat
  fresh : ∀ id, count ≤ id → instances id = none

namespace ArmourDataHost

variable (h : ArmourDataHost)

/-- A host without instances. -/
def start (label : Label) (onboarded : Bool) : ArmourDataHost :=
  ⟨label, onboarded, fun _ => none, fun _ => false, 0, fun _ _ => rfl⟩

/-- The selector is about the instance. -/
def selects (sel : InstanceSelector) (id : Nat) : Bool :=
  match h.instances id with
  | some info => sel.selects id info
  | none => false

/-- `get_instances`, the numbers of the instances. -/
def getInstances (sel : InstanceSelector) : List Nat := (List.range h.count).filter (h.selects sel)

/-- `Handler<Connect>` -/
def connect : ArmourDataHost :=
  { h with
    instances := Function.update h.instances h.count (some none)
    count := h.count + 1
    fresh := by
      intro id hid
      rw [Function.update_of_ne (by omega)]
      exact h.fresh id (by omega) }

/-- What is known of an instance that is there changes. -/
def modifyMeta (id : Nat) (f : Option Meta → Option Meta) : ArmourDataHost :=
  { h with
    instances := Function.update h.instances id ((h.instances id).map f)
    fresh := by
      intro other hle
      by_cases heq : other = id
      · subst heq
        rw [Function.update_self, h.fresh other hle]
        rfl
      · rw [Function.update_of_ne heq]
        exact h.fresh other hle }

/-- `Handler<RegisterProxy>` -/
def registerProxy (id : Nat) (info : Meta) : ArmourDataHost := h.modifyMeta id (fun _ => some info)

def removeInstance (id : Nat) : ArmourDataHost :=
  { h with
    instances := Function.update h.instances id none
    fresh := by
      intro other hle
      by_cases heq : other = id
      · rw [heq, Function.update_self]
      · rw [Function.update_of_ne heq]
        exact h.fresh other hle }

/-- `update_instances` -/
def updateInstances (sel : InstanceSelector) (tmpDpid : DPID) : ArmourDataHost :=
  { h with
    instances := fun id =>
      if h.selects sel id then
        (h.instances id).map (Option.map (fun info => { info with tmpDpid := some tmpDpid }))
      else h.instances id
    fresh := by
      intro id hid
      rw [h.fresh id hid]
      split <;> rfl }

/-- Whether `Handler<Launch>` starts a process. -/
def launches (msg : Launch) : Bool := msg.force || (h.getInstances (.label msg.label)).isEmpty

/-- A process was started. -/
def addChild (pid : UInt32) : ArmourDataHost :=
  { h with children := Function.update h.children pid true }

/-- The process that `Handler<Disconnect>` waits for: the one of the instance, if the host has
started it. -/
def awaited (id : Nat) : Option UInt32 :=
  match h.instances id with
  | some (some info) => if h.children info.pid then some info.pid else none
  | _ => none

/-- What `Handler<Disconnect>` forgets. -/
def disconnect (id : Nat) : ArmourDataHost :=
  match h.awaited id with
  | some pid => { h.removeInstance id with children := Function.update h.children pid false }
  | none => h.removeInstance id

/-! ## Selected instances -/

variable {h} {sel : InstanceSelector} {id : Nat} {info : Meta}

theorem mem_getInstances : id ∈ h.getInstances sel ↔ h.selects sel id = true := by
  unfold getInstances
  rw [List.mem_filter, List.mem_range]
  refine and_iff_right_of_imp (fun hs => ?_)
  by_contra hlt
  rw [selects, h.fresh id (Nat.le_of_not_lt hlt)] at hs
  exact Bool.false_ne_true hs

theorem isEmpty_getInstances :
    (h.getInstances sel).isEmpty = true ↔ ∀ id, h.selects sel id = false := by
  rw [List.isEmpty_iff, List.eq_nil_iff_forall_not_mem]
  refine forall_congr' (fun id => ?_)
  rw [mem_getInstances, Bool.not_eq_true]

theorem selects_label {l : Label} : h.selects (.label l) id = true ↔
    ∃ info, h.instances id = some (some info) ∧ l.matchesWith info.label = true := by
  unfold selects
  cases h.instances id with
  | none => simp
  | some info? => cases info? <;> simp [InstanceSelector.selects]

/-! ## What the handlers change -/

@[simp] theorem instances_connect :
    h.connect.instances = Function.update h.instances h.count (some none) := rfl

@[simp] theorem instances_modifyMeta (f : Option Meta → Option Meta) :
    (h.modifyMeta id f).instances = Function.update h.instances id ((h.instances id).map f) := rfl

@[simp] theorem instances_registerProxy : (h.registerProxy id info).instances =
    Function.update h.instances id ((h.instances id).map (fun _ => some info)) := rfl

@[simp] theorem instances_addChild (pid : UInt32) : (h.addChild pid).instances = h.instances := rfl

@[simp] theorem instances_disconnect :
    (h.disconnect id).instances = Function.update h.instances id none := by
  unfold disconnect
  split <;> rfl

end ArmourDataHost

end Armour.Host
