import Armour.Api.Control
import Armour.Control.Interpret
import Armour.Lib.Collection
import Armour.Lib.Machine

/-! # The database of the control plane

The three collections of `armour-control/src/rest_api.rs` and what requests, and the built-in
`ControlPlane::onboard`, do to them.  Requests that are refused leave the database as it is.
-/

namespace Armour.Control

open Armour.Lib Armour.Lang Armour.Api

/-- The database `armour`. -/
structure Database where
  hosts : Collection
  services : Collection
  policies : Collection

def globalPolicyLabel : Label := ⟨[.str "global_policy"]⟩
def onboardingPolicyLabel : Label := ⟨[.str "onboarding_policy"]⟩

namespace Database

/-- The control plane starts from an empty database. -/
def empty : Database := ⟨[], [], []⟩

/-- `to_bson` of a label. -/
def labelBson (l : Label) : Document := Label.serde.ser l

/-- `present` -/
def present (c : Collection) (f : Filter) : Bool := !(c.find f).isEmpty

variable (tf : TextForms) (pk : Packages) (db : Database)

/-! ## Hosts -/

/-- `host::on_board` -/
def hostOnBoard (request : OnboardHostRequest tf) : Database :=
  if present db.hosts (.field "label" (labelBson request.label)) then db
  else { db with hosts := db.hosts.insertOne ((OnboardHostRequest.record tf).put request) }

/-- `host::drop` -/
def hostDrop (request : OnboardHostRequest tf) : Database :=
  { db with
    hosts := db.hosts.deleteOne (.ofFields ((OnboardHostRequest.record tf).put request))
    services := db.services.deleteMany (.field "label" (labelBson request.label)) }

/-! ## Services -/

/-- `helper_onboard`, as far as the database. -/
def helperOnboard (id : ID) : Database :=
  match id.findLabel hostPattern, id.findLabel serviceIdPattern with
  | some host, some serviceId =>
      if present db.services (.field "service_id" (labelBson serviceId)) then db
      else { db with
        services := db.services.insertOne
          ((POnboardServiceRequest.record tf).put ⟨serviceId, id, host⟩) }
  | _, _ => db

/-- `service::drop` -/
def serviceDrop (request : OnboardServiceRequest) : Database :=
  match request.tmpDpid.bind (·.findLabel serviceIdPattern) with
  | some service =>
      { db with services := db.services.deleteOne (.field "service" (.text service.display)) }
  | none => db

/-! ## Policies -/

/-- An update of the policy of a label: the old ones are deleted and the new one inserted. -/
def replacePolicy (label : Label) (d : Fields) : Database :=
  { db with
    policies := (db.policies.deleteMany (.field "label" (labelBson label))).insertOne d }

/-- `save_policy` and `helper_update`, as far as the database. -/
def savePolicy (request : PolicyUpdateRequest) : Database :=
  db.replacePolicy request.label ((PolicyUpdateRequest.record pk).put request)

/-- `services_full`: all services, if each of them can be read. -/
def servicesFull : Option (List POnboardServiceRequest) :=
  db.services.mapM (POnboardServiceRequest.record tf).get

/-- `get_local_service_label`: the service of a label, by the name that its host gives it. -/
def localServiceLabel (label : Label) : Option Label := do
  let d ← db.services.findOne (.field "service" (labelBson label))
  let service ← (POnboardServiceRequest.record tf).get d
  service.serviceId.findLabel ⟨[.str "Service", .recAny ""]⟩

/-- `update`: the policy of a service that is stored. -/
def update (request : PolicyUpdateRequest) : Database :=
  match db.localServiceLabel tf request.label with
  | some _ => db.savePolicy pk request
  | none => db

/-- The policies of services, one after the other until one cannot be made. -/
def updateServices (labels : LabelMap) (compile : POnboardServiceRequest → Option DPPolicies) :
    Database → List POnboardServiceRequest → Database
  | db, [] => db
  | db, s :: ss =>
      match compile s with
      | some policy =>
          updateServices labels compile (db.savePolicy pk ⟨s.service, policy, labels⟩) ss
      | none => db

/-- `update_global`: the global policy, then those of the selected services, which are what
`compile` makes of it. -/
def updateGlobal (request : CPPolicyUpdateRequest)
    (compile : POnboardServiceRequest → Option DPPolicies) : Database :=
  let request := { request with label := globalPolicyLabel }
  let db := db.replacePolicy request.label ((CPPolicyUpdateRequest.record pk).put request)
  let selector := request.selector.getD serviceIdPattern
  match db.servicesFull tf with
  | some services =>
      updateServices pk request.labels compile db
        (services.filter (fun s => s.serviceId.hasLabel selector))
  | none => db

/-- `update_onboarding` -/
def updateOnboarding (request : OnboardingUpdateRequest) : Database :=
  let request := { request.pack with label := onboardingPolicyLabel }
  db.replacePolicy request.label ((CPPolicyUpdateRequest.record pk).put request)

/-- `policy::drop` -/
def policyDrop (label : Label) : Database :=
  { db with policies := db.policies.deleteOne (.field "label" (.text label.display)) }

/-- `drop_all`: nothing is dropped unless all policies can be read. -/
def dropAll : Database :=
  match db.policies.mapM (PolicyUpdateRequest.record pk).get with
  | some _ => { db with policies := [] }
  | none => db

end Database

/-- What is asked of the control plane.  The calls of `ControlPlane::onboard` that an
on-boarding policy makes are operations of their own, and `serviceOnBoard` is what remains of
the request that it was evaluated for: the policy of the service is saved. -/
inductive Operation (tf : TextForms) where
  | hostOnBoard (request : OnboardHostRequest tf)
  | hostDrop (request : OnboardHostRequest tf)
  | onboard (id : ID)
  | serviceOnBoard (merged : PolicyUpdateRequest)
  | serviceDrop (request : OnboardServiceRequest)
  | update (request : PolicyUpdateRequest)
  | updateGlobal (request : CPPolicyUpdateRequest)
      (compile : POnboardServiceRequest → Option DPPolicies)
  | updateOnboarding (request : OnboardingUpdateRequest)
  | policyDrop (label : Label)
  | dropAll

namespace Operation

variable {tf : TextForms} (pk : Packages)

def apply (db : Database) : Operation tf → Database
  | hostOnBoard request => db.hostOnBoard tf request
  | hostDrop request => db.hostDrop tf request
  | onboard id => db.helperOnboard tf id
  | serviceOnBoard merged => db.savePolicy pk merged
  | serviceDrop request => db.serviceDrop request
  | update request => db.update tf pk request
  | updateGlobal request compile => db.updateGlobal tf pk request compile
  | updateOnboarding request => db.updateOnboarding pk request
  | policyDrop label => db.policyDrop label
  | dropAll => db.dropAll pk

end Operation

/-- The control plane as a machine on its database. -/
def restMachine (tf : TextForms) (pk : Packages) : Machine Database (Operation tf) where
  step db op := some (op.apply pk db)

end Armour.Control
