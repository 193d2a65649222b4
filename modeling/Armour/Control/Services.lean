import Armour.Control.Database

/-! # The collection of services

What a run of the control plane does to the collection of services.  On-boarding looks for the
label of the service under `service_id`, which holds the whole identity, so it never finds a
service that is already there; dropping a host looks for services under `label`, a field that
they do not have.  The services are as they should be exactly in the runs that do neither for
a stored service.
-/

namespace Armour.Control

open Armour.Lib Armour.Lang Armour.Api

/-- The documents of a service. -/
def serviceFilter (service : Label) : Filter := .field "service" (.text service.display)

/-- The documents of the services of a host; their host label has `Host` in front. -/
def hostFilter (label : Label) : Filter :=
  .field "host" (.text (label.addPrefix "Host").display)

/-- The collection of services before and after an operation is as it should be. -/
structure ServicesKept {tf : TextForms} (before after : Database) (op : Operation tf) :
    Prop where
  unique : ∀ service, after.services.count (serviceFilter service) ≤ 1
  onboard : ∀ id host service, op = .onboard id → id.findLabel hostPattern = some host →
    id.findLabel serviceIdPattern = some service →
    before.services.count (serviceFilter service) ≠ 0 → after.services = before.services
  serviceDrop : ∀ request dpid service, op = .serviceDrop request →
    request.tmpDpid = some dpid → dpid.findLabel serviceIdPattern = some service →
    after.services.count (serviceFilter service) = 0
  hostDrop : ∀ request, op = .hostDrop request →
    after.services.count (hostFilter request.label) = 0

/-- No stored service is on-boarded again, and no host is dropped that has services. -/
def Operation.Fresh {tf : TextForms} (db : Database) : Operation tf → Prop
  | .onboard id => ∀ host service, id.findLabel hostPattern = some host →
      id.findLabel serviceIdPattern = some service →
      db.services.count (serviceFilter service) = 0
  | .hostDrop request => db.services.count (hostFilter request.label) = 0
  | _ => True

/-! ## The documents of services -/

/-- The record of a service, as a document. -/
def serviceFields (tf : TextForms) (r : POnboardServiceRequest) : Fields :=
  (POnboardServiceRequest.record tf).put r

section

variable (tf : TextForms) (r : POnboardServiceRequest)

theorem accepts_serviceFilter (service : Label) :
    (serviceFilter service).accepts (serviceFields tf r) = true ↔
      r.service.display = service.display := by
  have hname : Document.named "service" (serviceFields tf r) = [.text r.service.display] := by
    simp [serviceFields, POnboardServiceRequest.record, Record.iso, Record.pair, Record.field,
      Label.serde, Serde.refine, Serde.text]
  rw [serviceFilter, Filter.accepts_field, hname]
  simp [Document.admits]

/-- The identity of a service is a document, so no label is found in its place. -/
theorem not_accepts_serviceId (service : Label) :
    (Filter.field "service_id" (Database.labelBson service)).accepts (serviceFields tf r) =
      false := by
  have hname : Document.named "service_id" (serviceFields tf r) =
      [.doc ((ID.record tf).put r.serviceId)] := by
    simp [serviceFields, POnboardServiceRequest.record, Record.iso, Record.pair, Record.field,
      ID.serde, Record.serde]
  rw [Filter.accepts_field, hname]
  simp [Document.admits, Database.labelBson, Label.serde, Serde.refine, Serde.text]

/-- No service has a field `label`. -/
theorem not_accepts_label (v : Document) :
    (Filter.field "label" v).accepts (serviceFields tf r) = false := by
  have hname : Document.named "label" (serviceFields tf r) = [] := by
    simp [serviceFields, POnboardServiceRequest.record, Record.iso, Record.pair, Record.field]
  rw [Filter.accepts_field, hname]
  rfl

theorem count_insert (db : Database) (service : Label) :
    Collection.count (db.services ++ [serviceFields tf r]) (serviceFilter service) =
      db.services.count (serviceFilter service) +
        if r.service.display = service.display then 1 else 0 := by
  have hins := @Collection.count_insertOne db.services (serviceFilter service) (serviceFields tf r)
  simp only [accepts_serviceFilter tf r service] at hins
  exact hins

end

/-- The services of a run: each document is that of a service, one for each service. -/
structure ServicesInv (tf : TextForms) (db : Database) : Prop where
  docs : ∀ d ∈ db.services, ∃ r, d = serviceFields tf r
  unique : ∀ service, db.services.count (serviceFilter service) ≤ 1

namespace ServicesInv

variable {tf : TextForms} {db : Database} (h : ServicesInv tf db)

theorem empty (tf : TextForms) : ServicesInv tf .empty :=
  ⟨fun _ hd => absurd hd List.not_mem_nil, fun _ => Nat.zero_le _⟩

include h

theorem not_present (service : Label) :
    Database.present db.services (.field "service_id" (Database.labelBson service)) = false := by
  have hcount : db.services.count (.field "service_id" (Database.labelBson service)) = 0 := by
    refine Collection.count_eq_zero.mpr (fun d hd => ?_)
    obtain ⟨r, rfl⟩ := h.docs d hd
    exact not_accepts_serviceId tf r service
  rw [Database.present, Collection.find_eq_nil.mpr hcount]
  rfl

/-- Every call of `ControlPlane::onboard` adds a document. -/
theorem helperOnboard_services {id : ID} {host service : Label}
    (hhost : id.findLabel hostPattern = some host)
    (hservice : id.findLabel serviceIdPattern = some service) :
    (db.helperOnboard tf id).services =
      db.services ++ [serviceFields tf ⟨service, id, host⟩] := by
  simp only [Database.helperOnboard, hhost, hservice, h.not_present service]
  rfl

/-- Dropping a host removes no service. -/
theorem hostDrop_services (request : OnboardHostRequest tf) :
    (db.hostDrop tf request).services = db.services := by
  refine Collection.deleteMany_eq_self (Collection.count_eq_zero.mpr (fun d hd => ?_))
  obtain ⟨r, rfl⟩ := h.docs d hd
  exact not_accepts_label tf r _

omit h in
/-- Requests for policies leave the services alone. -/
theorem policyRequest_services (tf : TextForms) (pk : Packages) (db : Database) :
    (∀ request, (db.update tf pk request).services = db.services) ∧
      (∀ request compile, (db.updateGlobal tf pk request compile).services = db.services) ∧
      (db.dropAll pk).services = db.services := by
  refine ⟨fun request => ?_, fun request compile => ?_, ?_⟩
  · unfold Database.update
    split <;> rfl
  · have hall : ∀ (labels : LabelMap) (ss : List POnboardServiceRequest) (db : Database),
        (Database.updateServices pk labels compile db ss).services = db.services := by
      intro labels ss
      induction ss with
      | nil => exact fun _ => rfl
      | cons s ss ih =>
          intro db
          unfold Database.updateServices
          split
          · exact ih _
          · rfl
    unfold Database.updateGlobal
    dsimp only
    split
    · exact hall _ _ _
    · rfl
  · unfold Database.dropAll
    split <;> rfl

/-- What an operation that meets the condition keeps. -/
theorem step (pk : Packages) (op : Operation tf) (hfresh : op.Fresh db) :
    ServicesInv tf (op.apply pk db) := by
  cases op with
  | hostOnBoard request =>
      show ServicesInv tf (db.hostOnBoard tf request)
      unfold Database.hostOnBoard
      split_ifs
      · exact h
      · exact ⟨h.docs, h.unique⟩
  | hostDrop request =>
      have hsame := h.hostDrop_services request
      exact ⟨hsame ▸ h.docs, hsame ▸ h.unique⟩
  | serviceOnBoard merged => exact ⟨h.docs, h.unique⟩
  | update request =>
      have hsame := (policyRequest_services tf pk db).1 request
      exact ⟨hsame ▸ h.docs, hsame ▸ h.unique⟩
  | updateGlobal request compile =>
      have hsame := (policyRequest_services tf pk db).2.1 request compile
      exact ⟨hsame ▸ h.docs, hsame ▸ h.unique⟩
  | updateOnboarding request => exact ⟨h.docs, h.unique⟩
  | policyDrop label => exact ⟨h.docs, h.unique⟩
  | dropAll =>
      have hsame := (policyRequest_services tf pk db).2.2
      exact ⟨hsame ▸ h.docs, hsame ▸ h.unique⟩
  | serviceDrop request =>
      show ServicesInv tf (db.serviceDrop request)
      unfold Database.serviceDrop
      split
      · exact ⟨fun d hd => h.docs d (Collection.mem_of_mem_deleteOne hd),
          fun service => Collection.count_deleteOne_le.trans (h.unique service)⟩
      · exact h
  | onboard id =>
      show ServicesInv tf (db.helperOnboard tf id)
      rcases hhost : id.findLabel hostPattern with _ | host
      · simp only [Database.helperOnboard, hhost]
        exact h
      · rcases hservice : id.findLabel serviceIdPattern with _ | service
        · simp only [Database.helperOnboard, hhost, hservice]
          exact h
        · have hsame := h.helperOnboard_services hhost hservice
          constructor
          · intro d hd
            rw [hsame] at hd
            rcases List.mem_append.mp hd with hd | hd
            · exact h.docs d hd
            · exact ⟨_, List.mem_singleton.mp hd⟩
          · intro other
            rw [hsame, count_insert]
            by_cases heq : service.display = other.display
            · -- the two labels have one filter, and it accepts no document so far
              have hzero : db.services.count (serviceFilter other) = 0 := by
                rw [serviceFilter, ← heq]
                exact hfresh host service hhost hservice
              rw [if_pos heq, hzero]
            · rw [if_neg heq]
              exact h.unique other

/-- One operation leaves the services as they should be exactly if it meets the condition. -/
theorem kept_iff (pk : Packages) (op : Operation tf) :
    ServicesKept db (op.apply pk db) op ↔ op.Fresh db := by
  constructor
  · intro hkept
    cases op with
    | onboard id =>
        intro host service hhost hservice
        by_contra hne
        have hsame := hkept.onboard id host service rfl hhost hservice hne
        have hlen := congrArg List.length (hsame.symm.trans
          (h.helperOnboard_services hhost hservice))
        simp at hlen
    | hostDrop request =>
        have hzero := hkept.hostDrop request rfl
        have hsame : ((Operation.hostDrop request).apply pk db).services = db.services :=
          h.hostDrop_services request
        rwa [hsame] at hzero
    | _ => trivial
  · intro hfresh
    refine ⟨(h.step pk op hfresh).unique, ?_, ?_, ?_⟩
    · rintro id host service rfl hhost hservice hne
      exact absurd (hfresh host service hhost hservice) hne
    · rintro request dpid service rfl hdpid hservice
      have hbind : request.tmpDpid.bind (·.findLabel serviceIdPattern) = some service := by
        rw [hdpid, Option.bind_some, hservice]
      show ((db.serviceDrop request).services).count (serviceFilter service) = 0
      simp only [Database.serviceDrop, hbind]
      have hone := h.unique service
      have hdel := @Collection.count_deleteOne_self db.services (serviceFilter service)
      rw [serviceFilter] at hone hdel ⊢
      omega
    · rintro request rfl
      show ((db.hostDrop tf request).services).count (hostFilter request.label) = 0
      rw [h.hostDrop_services]
      exact hfresh

end ServicesInv

/-- Along a run from the empty database, the services are as they should be after every
operation exactly if no stored service is on-boarded again and no host is dropped that has
services. -/
theorem services_kept_iff (tf : TextForms) (pk : Packages) (ops : List (Operation tf)) :
    (restMachine tf pk).Steps (fun db op => ServicesKept db (op.apply pk db) op) .empty ops ↔
      (restMachine tf pk).Steps (fun db op => op.Fresh db) .empty ops := by
  symm
  refine Machine.steps_congr (P := ServicesInv tf) ?_ ?_ (ServicesInv.empty tf) ops
  · rintro db op db' h hfresh hstep
    obtain rfl : op.apply pk db = db' := Option.some.inj hstep
    exact h.step pk op hfresh
  · exact fun db op h => (h.kept_iff pk op).symm

/-! ## Runs that fail -/

/-- Addresses as the texts of their bytes; every text is a URL. -/
def TextForms.spelled : TextForms where
  showIp a := Packages.pack Lang.spelled ((IpAddr.codec.write a).getD [])
  readIp s := ((Packages.unpack Lang.spelled s).bind IpAddr.codec.read).map Prod.fst
  readIp_showIp a := by
    obtain ⟨bs, hbs⟩ : ∃ bs, IpAddr.codec.write a = some bs := by
      cases a with
      | v4 a =>
          have hlt : a.toNat < 256 ^ 4 := a.toNat_lt
          exact ⟨_, cat_eq_some.mpr ⟨_, _, rfl, Option.map_eq_some_iff.mpr
            ⟨_, if_pos hlt, rfl⟩, rfl⟩⟩
      | v6 a =>
          have hlt : a.toNat < 256 ^ 16 := a.isLt
          exact ⟨_, cat_eq_some.mpr ⟨_, _, rfl, Option.map_eq_some_iff.mpr
            ⟨_, if_pos hlt, rfl⟩, rfl⟩⟩
    have hread := (IpAddr.codec.exact bs.length a).reads trivial bs hbs le_rfl []
    rw [List.append_nil] at hread
    simp [hbs, Lang.spelled.unpack_pack, hread]
  parseUrl := some

/-- The service `b` of a host `a`, and the request that drops the host. -/
def serviceB : ID :=
  (ID.empty.addLabel ⟨[.str "ServiceID", .str "a", .str "b"]⟩).addLabel ⟨[.str "Host", .str "a"]⟩

def hostA : OnboardHostRequest TextForms.spelled := ⟨⟨"https://a", rfl⟩, ⟨[.str "a"]⟩, ""⟩

/-- On-boarded twice, the service has two documents, and both stay when its host is dropped. -/
theorem onboard_twice_drop : ∃ db,
    (restMachine TextForms.spelled Lang.spelled).run .empty
        [.onboard serviceB, .onboard serviceB, .hostDrop hostA] = some db ∧
      db.services.count (serviceFilter ⟨[.str "ServiceID", .str "a", .str "b"]⟩) = 2 ∧
      db.services.count (hostFilter hostA.label) = 2 :=
  ⟨_, rfl, by decide +kernel, by decide +kernel⟩

end Armour.Control
