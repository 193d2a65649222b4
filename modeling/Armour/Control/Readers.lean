import Armour.Control.Identity
import Armour.Control.Services
import Armour.Lang.Convert

/-! # Readers of the database

The requests of `armour-control/src/rest_api.rs` and `interpret.rs` that read stored documents,
each as the record type that it expects.  Services are stored without the credentials that the
list of services and the look-up of hosts ask for, and policies of either plane are kept in one
collection that is listed as policies of the data plane.
-/

namespace Armour.Control

open Armour.Lib Armour.Lang Armour.Api

namespace Database

variable (tf : TextForms) (pk : Packages) (db : Database)

/-- `host::list` -/
def hostList : Option (List (OnboardHostRequest tf)) :=
  db.hosts.mapM (OnboardHostRequest.record tf).get

/-- `service::list` -/
def serviceList : Option (List OnboardServiceRequest) :=
  db.services.mapM (OnboardServiceRequest.record tf).get

/-- The host of a stored service, if it is on-boarded; labels of hosts are stored without
`Host` in front. -/
def hostOf (host : Label) : Option (Option (OnboardHostRequest tf)) :=
  match db.hosts.findOne (.field "label" (labelBson ⟨host.nodes.tail⟩)) with
  | some d => ((OnboardHostRequest.record tf).get d).map some
  | none => some none

/-- `hosts`: where the policy of a service is pushed. -/
def hostsOf (label : Label) : Option (List (OnboardHostRequest tf)) := do
  let services ← (db.services.find (.field "service" (labelBson label))).mapM
    (OnboardServiceRequest.record tf).get
  let hosts ← services.mapM (fun s => db.hostOf tf s.host)
  return hosts.filterMap id

/-- `policy::list`, and `services`, by which `drop_all` enumerates the services. -/
def policyList : Option (List PolicyUpdateRequest) :=
  db.policies.mapM (PolicyUpdateRequest.record pk).get

/-- What is found under a label, read as a record; nothing found is no error. -/
def queryAs {α : Type} (r : Record α) (label : Label) : Option (Option α) :=
  match db.policies.findOne (.field "label" (labelBson label)) with
  | some d => (r.get d).map some
  | none => some none

/-- `query` -/
def query (label : Label) : Option (Option PolicyUpdateRequest) :=
  db.queryAs (PolicyUpdateRequest.record pk) label

/-- `query_global` -/
def queryGlobal (label : Label) : Option (Option CPPolicyUpdateRequest) :=
  db.queryAs (CPPolicyUpdateRequest.record pk) label

/-- `get_global_pol`; without one there are no policies. -/
def getGlobalPol : Option CPPolicyUpdateRequest :=
  (db.queryGlobal pk globalPolicyLabel).map (·.getD ⟨globalPolicyLabel, ∅, ∅, none⟩)

/-- `get_onboarding_policy`; without one, the default denies. -/
def getOnboardingPolicy : Option (Option GlobalPolicy) := do
  match ← db.queryGlobal pk onboardingPolicyLabel with
  | some request => (OnboardingUpdateRequest.unpack request).toOption.map (some ·.policy)
  | none => some none

/-- `helper_onboarded`: the identity stored with a label of a service. -/
def findService (service : Label) : Option (Option ID) :=
  match db.services.findOne [⟨["service_id", "labels"], labelBson service⟩] with
  | some d => ((POnboardServiceRequest.record tf).get d).map (some ·.serviceId)
  | none => some none

/-- The database after the calls of `ControlPlane::onboard` that an evaluation has made. -/
def after (trace : List CPEffect) : Database :=
  trace.foldl (fun db c =>
    match c.external, c.method, c.args with
    | "ControlPlane", "onboard", [.flat (.dp (.id id))] => db.helperOnboard tf id
    | _, _, _ => db) db

/-- `State`: this database answers an evaluation, by what the calls so far have left in it. -/
def state : State where
  present t service :=
    .ok (present (db.after tf t).services (.field "service_id" (labelBson service)))
  insertService _ _ _ _ := .ok ()
  findService t service := (((db.after tf t).findService tf service).map Except.ok).getD
    (.error "Bson conversion error")
  globalPol t := (((db.after tf t).getGlobalPol pk).map (fun r => Except.ok r.policy)).getD
    (.error "Bson conversion error")

end Database

/-- What the two planes read in a document of a policy is the same policy. -/
structure SameRequest (r : PolicyUpdateRequest) (q : CPPolicyUpdateRequest) : Prop where
  label : r.label = q.label
  policy : Policies.toDP? q.policy = some r.policy
  labels : r.labels = q.labels

/-- Both planes read the document, as it was written and as one policy. -/
def ReadAlike (pk : Packages) (d : Fields) : Prop :=
  ∃ r q, (PolicyUpdateRequest.record pk).ReadsAs d r ∧
    (CPPolicyUpdateRequest.record pk).ReadsAs d q ∧ SameRequest r q

/-- Every document is read by everything that reads its collection, as it was written. -/
structure DocumentsRead (tf : TextForms) (pk : Packages) (db : Database) : Prop where
  hosts : ∀ d ∈ db.hosts, (OnboardHostRequest.record tf).Reads d
  services : ∀ d ∈ db.services,
    (OnboardServiceRequest.record tf).Reads d ∧ (POnboardServiceRequest.record tf).Reads d
  policies : ∀ d ∈ db.policies, ReadAlike pk d
  onboarding : ∀ d ∈ db.policies,
    (Filter.field "label" (Database.labelBson onboardingPolicyLabel)).accepts d = true →
    ∀ r, (CPPolicyUpdateRequest.record pk).get d = some r → (r.policy.get? .HTTP).isSome = true

/-- The same policies on the two planes have one stored form, which both planes read. -/
structure SameForm (pk : Packages) (p : DPPolicies) (g : GlobalPolicies) : Prop where
  same : Policies.toDP? g = some p
  ser : (Policies.serde pk (dpPlane pk)).ser p = (Policies.serde pk (cpPlane pk)).ser g
  dp : (Policies.serde pk (dpPlane pk)).Clean p
  cp : (Policies.serde pk (cpPlane pk)).Clean g

/-- All labels of the map have a text that is read as them. -/
def LabelsReadable (labels : LabelMap) : Prop :=
  ∀ e ∈ labels.entries, ∀ l ∈ e.2.elems, l.Readable

/-- No service is on-boarded, and policies are stored in a form that is the one of the same
policies on the other plane. -/
def Operation.Readable {tf : TextForms} (pk : Packages) : Operation tf → Prop
  | .hostOnBoard request => request.label.Readable
  | .onboard id => id.findLabel hostPattern = none ∨ id.findLabel serviceIdPattern = none
  | .serviceOnBoard merged => merged.label.Readable ∧
      (∃ ns, merged.label.nodes = .str "ServiceID" :: ns) ∧ LabelsReadable merged.labels ∧
      ∃ g, SameForm pk merged.policy g
  | .updateGlobal request _ => LabelsReadable request.labels ∧
      (∀ l ∈ request.selector, l.Readable) ∧ ∃ p, SameForm pk p request.policy
  | .updateOnboarding request => LabelsReadable request.labels ∧
      ∃ p, SameForm pk p request.pack.policy
  | _ => True

/-! ## Records -/

section

variable {pk : Packages}

theorem labelMap_clean {labels : LabelMap} (h : LabelsReadable labels) :
    LabelMap.serde.Clean labels :=
  fun e he l hl => (Label.serde_clean l).mpr (h e he l hl)

/-- Policies of a service are read as the same policies on either plane. -/
theorem dpRecord_reads {r : PolicyUpdateRequest} {g : GlobalPolicies} (hl : r.label.Readable)
    (hlabels : LabelsReadable r.labels) (hform : SameForm pk r.policy g) :
    ReadAlike pk ((PolicyUpdateRequest.record pk).put r) := by
  have hlabel := (Label.serde_clean r.label).mpr hl
  have hmap := labelMap_clean hlabels
  refine ⟨r, ⟨r.label, g, r.labels, none⟩, Record.readsAs_put
    ((PolicyUpdateRequest.record_clean pk r).mpr ⟨hlabel, hform.dp, hmap⟩), ⟨?_, ?_⟩,
    rfl, hform.same, rfl⟩
  · have hpolicy : Document.named "policy" ((PolicyUpdateRequest.record pk).put r) =
        [(Policies.serde pk (cpPlane pk)).ser g] := by
      rw [← hform.ser]
      simp [PolicyUpdateRequest.put_record]
    refine CPPolicyUpdateRequest.get_record ((Serde.required_ser ?_).mpr hlabel)
      ((Serde.required_ser hpolicy).mpr hform.cp) ((Serde.required_ser ?_).mpr hmap) ?_
    · simp [PolicyUpdateRequest.put_record]
    · simp [PolicyUpdateRequest.put_record]
    · simp [PolicyUpdateRequest.put_record, Document.optional]
  · intro n hn
    simp only [CPPolicyUpdateRequest.put_record, PolicyUpdateRequest.put_record, hform.ser]
    have hnames : n = "label" ∨ n = "policy" ∨ n = "labels" ∨ n = "selector" := by
      simpa [CPPolicyUpdateRequest.record, Record.iso, Record.pair, Record.field,
        Record.optional] using hn
    rcases hnames with rfl | rfl | rfl | rfl <;> simp [Serde.serOption]

/-- Policies of the control plane are read as the same policies on either plane. -/
theorem cpRecord_reads {q : CPPolicyUpdateRequest} {p : DPPolicies} (hl : q.label.Readable)
    (hlabels : LabelsReadable q.labels) (hsel : ∀ l ∈ q.selector, l.Readable)
    (hform : SameForm pk p q.policy) :
    ReadAlike pk ((CPPolicyUpdateRequest.record pk).put q) := by
  have hlabel := (Label.serde_clean q.label).mpr hl
  have hmap := labelMap_clean hlabels
  have hclean : (PolicyUpdateRequest.record pk).Clean ⟨q.label, p, q.labels⟩ :=
    (PolicyUpdateRequest.record_clean pk _).mpr ⟨hlabel, hform.dp, hmap⟩
  refine ⟨⟨q.label, p, q.labels⟩, q, Record.readsAs_of_named hclean (fun n hn => ?_),
    Record.readsAs_put ((CPPolicyUpdateRequest.record_clean pk q).mpr ⟨hlabel, hform.cp, hmap,
      fun l hl => (Label.serde_clean l).mpr (hsel l hl)⟩), rfl, hform.same, rfl⟩
  simp only [CPPolicyUpdateRequest.put_record, PolicyUpdateRequest.put_record, hform.ser]
  have hnames : n = "label" ∨ n = "policy" ∨ n = "labels" := by
    simpa [PolicyUpdateRequest.record, Record.iso, Record.pair, Record.field] using hn
  rcases hnames with rfl | rfl | rfl <;> simp

end

/-! ## Runs -/

/-- Two labels that are read from their texts are told apart by them. -/
theorem eq_of_display {a b : Label} (ha : a.Readable) (hb : b.Readable)
    (h : a.display = b.display) : a = b := by
  have hfrom := Label.fromStr_display.mpr ha
  rw [h, Label.fromStr_display.mpr hb] at hfrom
  exact (Except.ok.inj hfrom).symm

theorem globalPolicyLabel_readable : globalPolicyLabel.Readable := by decide

theorem onboardingPolicyLabel_readable : onboardingPolicyLabel.Readable := by decide

theorem globalPolicyLabel_ne :
    globalPolicyLabel.display ≠ onboardingPolicyLabel.display := by decide

/-- What a run keeps: no service is stored, and all documents are read. -/
structure ReadInv (tf : TextForms) (pk : Packages) (db : Database) : Prop where
  services : db.services = []
  read : DocumentsRead tf pk db

namespace ReadInv

variable {tf : TextForms} {pk : Packages} {db : Database}

theorem empty : ReadInv tf pk .empty where
  services := rfl
  read :=
    { hosts := fun _ hd => absurd hd List.not_mem_nil
      services := fun _ hd => absurd hd List.not_mem_nil
      policies := fun _ hd => absurd hd List.not_mem_nil
      onboarding := fun _ hd => absurd hd List.not_mem_nil }

/-- Fewer hosts and policies are read as well. -/
theorem of_subset {db' : Database} (h : ReadInv tf pk db) (hservices : db'.services = [])
    (hhosts : ∀ d ∈ db'.hosts, d ∈ db.hosts) (hpolicies : ∀ d ∈ db'.policies, d ∈ db.policies) :
    ReadInv tf pk db' where
  services := hservices
  read :=
    { hosts := fun d hd => h.read.hosts d (hhosts d hd)
      services := fun _ hd => absurd (hservices ▸ hd) List.not_mem_nil
      policies := fun d hd => h.read.policies d (hpolicies d hd)
      onboarding := fun _ hd => h.read.onboarding _ (hpolicies _ hd) }

/-- A policy that both planes read may replace those of its label. -/
theorem replacePolicy (h : ReadInv tf pk db) (label : Label) {d : Fields} (hreads : ReadAlike pk d)
    (honboarding :
      (Filter.field "label" (Database.labelBson onboardingPolicyLabel)).accepts d = true →
      ∀ r, (CPPolicyUpdateRequest.record pk).get d = some r →
        (r.policy.get? .HTTP).isSome = true) :
    ReadInv tf pk (db.replacePolicy label d) where
  services := h.services
  read :=
    { hosts := h.read.hosts
      services := h.read.services
      policies := by
        intro x hx
        rcases List.mem_append.mp hx with hx | hx
        · exact h.read.policies x (Collection.mem_deleteMany.mp hx).1
        · obtain rfl := List.mem_singleton.mp hx
          exact hreads
      onboarding := by
        intro x hx
        rcases List.mem_append.mp hx with hx | hx
        · exact h.read.onboarding x (Collection.mem_deleteMany.mp hx).1
        · obtain rfl := List.mem_singleton.mp hx
          exact honboarding }

theorem accepts_label (pk : Packages) (r : PolicyUpdateRequest) (label : Label) :
    (Filter.field "label" (Database.labelBson label)).accepts
      ((PolicyUpdateRequest.record pk).put r) = true ↔ r.label.display = label.display := by
  rw [Filter.accepts_field, PolicyUpdateRequest.put_record]
  simp [Document.admits, Database.labelBson, Label.serde, Serde.refine, Serde.text]

theorem accepts_cpLabel (pk : Packages) (r : CPPolicyUpdateRequest) (label : Label) :
    (Filter.field "label" (Database.labelBson label)).accepts
      ((CPPolicyUpdateRequest.record pk).put r) = true ↔ r.label.display = label.display := by
  rw [Filter.accepts_field, CPPolicyUpdateRequest.put_record]
  simp [Document.admits, Database.labelBson, Label.serde, Serde.refine, Serde.text]

/-- One operation that meets the condition. -/
theorem step (h : ReadInv tf pk db) (op : Operation tf) (hok : op.Readable pk) :
    ReadInv tf pk (op.apply pk db) := by
  cases op with
  | hostOnBoard request =>
      show ReadInv tf pk (db.hostOnBoard tf request)
      unfold Database.hostOnBoard
      split_ifs
      · exact h
      · refine ⟨h.services, ⟨?_, h.read.services, h.read.policies, h.read.onboarding⟩⟩
        intro d hd
        rcases List.mem_append.mp hd with hd | hd
        · exact h.read.hosts d hd
        · obtain rfl := List.mem_singleton.mp hd
          exact ⟨_, Record.readsAs_put ((OnboardHostRequest.serde_clean tf request).mpr hok)⟩
  | hostDrop request =>
      refine h.of_subset ?_ (fun d hd => Collection.mem_of_mem_deleteOne hd) (fun _ hd => hd)
      show db.services.deleteMany _ = []
      rw [h.services]
      rfl
  | onboard id =>
      have hsame : db.helperOnboard tf id = db := by
        unfold Database.helperOnboard
        rcases hok with hnone | hnone
        · rw [hnone]
        · rw [hnone]
          cases id.findLabel hostPattern <;> rfl
      show ReadInv tf pk (db.helperOnboard tf id)
      rwa [hsame]
  | serviceOnBoard merged =>
      obtain ⟨hl, ⟨ns, hns⟩, hlabels, g, hform⟩ := hok
      refine h.replacePolicy merged.label (dpRecord_reads hl hlabels hform) (fun hacc => ?_)
      -- the label of a service is not the one of the on-boarding policy
      have hlabel := eq_of_display hl (by decide) ((accepts_label pk merged _).mp hacc)
      rw [hlabel] at hns
      simp [onboardingPolicyLabel] at hns
  | serviceDrop request =>
      show ReadInv tf pk (db.serviceDrop request)
      unfold Database.serviceDrop
      split
      · refine h.of_subset ?_ (fun _ hd => hd) (fun _ hd => hd)
        show db.services.deleteOne _ = []
        rw [h.services]
        rfl
      · exact h
  | update request =>
      have hnone : db.localServiceLabel tf request.label = none := by
        unfold Database.localServiceLabel
        rw [h.services]
        rfl
      show ReadInv tf pk (db.update tf pk request)
      unfold Database.update
      rw [hnone]
      exact h
  | updateGlobal request compile =>
      obtain ⟨hlabels, hsel, p, hform⟩ := hok
      have hdb := @replacePolicy tf pk db h globalPolicyLabel
        ((CPPolicyUpdateRequest.record pk).put { request with label := globalPolicyLabel })
        (@cpRecord_reads pk { request with label := globalPolicyLabel } p
          globalPolicyLabel_readable hlabels hsel hform)
        (fun hacc => absurd ((accepts_cpLabel pk _ _).mp hacc) globalPolicyLabel_ne)
      have hfull : Database.servicesFull tf (db.replacePolicy globalPolicyLabel
          ((CPPolicyUpdateRequest.record pk).put
            { request with label := globalPolicyLabel })) = some [] := by
        unfold Database.servicesFull
        rw [hdb.services]
        rfl
      show ReadInv tf pk (db.updateGlobal tf pk request compile)
      unfold Database.updateGlobal
      simp only [hfull]
      exact hdb
  | updateOnboarding request =>
      obtain ⟨hlabels, p, hform⟩ := hok
      refine h.replacePolicy onboardingPolicyLabel
        (@cpRecord_reads pk { request.pack with label := onboardingPolicyLabel } p
          onboardingPolicyLabel_readable hlabels nofun hform) (fun _ r hr => ?_)
      -- what is read is the packed request, which holds a policy of HTTP
      have hclean : (CPPolicyUpdateRequest.record pk).Clean
          { request.pack with label := onboardingPolicyLabel } :=
        (CPPolicyUpdateRequest.record_clean pk _).mpr
          ⟨(Label.serde_clean _).mpr onboardingPolicyLabel_readable, hform.cp,
            labelMap_clean hlabels, nofun⟩
      have hget := ((CPPolicyUpdateRequest.record pk).exact _ _ (fun _ _ => rfl)).mpr hclean
      obtain rfl := Option.some.inj (hget.symm.trans hr)
      simp [OnboardingUpdateRequest.pack]
  | policyDrop label =>
      exact h.of_subset h.services (fun _ hd => hd)
        (fun d hd => Collection.mem_of_mem_deleteOne hd)
  | dropAll =>
      show ReadInv tf pk (db.dropAll pk)
      unfold Database.dropAll
      split
      · exact h.of_subset h.services (fun _ hd => hd) (fun _ hd => absurd hd List.not_mem_nil)
      · exact h

end ReadInv

/-- In every run in which no service is on-boarded and only policies are stored that have a
form of both planes, all documents are read by all that reads them. -/
theorem documents_read (tf : TextForms) (pk : Packages) (ops : List (Operation tf))
    (h : ∀ op ∈ ops, op.Readable pk) {db : Database}
    (hvisit : (restMachine tf pk).Visits .empty ops db) : DocumentsRead tf pk db := by
  obtain ⟨pre, hpre, hrun⟩ := hvisit
  have hok : (restMachine tf pk).Steps (fun _ op => op.Readable pk) .empty pre :=
    Machine.Steps.of_forall (fun op hop => h op (hpre.subset hop))
  refine (Machine.run_invariant ?_ ReadInv.empty hok hrun).read
  intro db op db' hinv hop hstep
  obtain rfl : op.apply pk db = db' := Option.some.inj hstep
  exact hinv.step op hop

/-- A look-up succeeds where all documents are read. -/
theorem queryAs_isSome {α : Type} {r : Record α} {db : Database}
    (h : ∀ d ∈ db.policies, r.Reads d) (label : Label) : (db.queryAs r label).isSome = true := by
  unfold Database.queryAs
  split
  · rename_i d hd
    obtain ⟨a, ha⟩ := h d (List.mem_of_find?_eq_some hd)
    rw [ha.get]
    rfl
  · rfl

/-- A listing succeeds where all documents are read. -/
theorem mapM_isSome {α β : Type} {f : α → Option β} {l : List α}
    (h : ∀ a ∈ l, (f a).isSome = true) : (l.mapM f).isSome = true := by
  induction l with
  | nil => rfl
  | cons a l ih =>
      obtain ⟨b, hb⟩ := Option.isSome_iff_exists.mp (h a List.mem_cons_self)
      obtain ⟨bs, hbs⟩ :=
        Option.isSome_iff_exists.mp (ih (fun c hc => h c (List.mem_cons_of_mem a hc)))
      rw [List.mapM_cons, hb, hbs]
      rfl

theorem mapM_get_isSome {α : Type} {r : Record α} {l : List Fields} (h : ∀ d ∈ l, r.Reads d) :
    (l.mapM r.get).isSome = true := by
  refine mapM_isSome (fun d hd => ?_)
  obtain ⟨a, ha⟩ := h d hd
  rw [ha.get]
  rfl

namespace DocumentsRead

variable {tf : TextForms} {pk : Packages} {db : Database} (h : DocumentsRead tf pk db)

include h

/-- The hosts of every service are found. -/
theorem hostsOf (label : Label) : (db.hostsOf tf label).isSome = true := by
  have hfind : ∀ d ∈ db.services.find (.field "service" (Database.labelBson label)),
      (OnboardServiceRequest.record tf).Reads d :=
    fun d hd => (h.services d (List.mem_filter.mp hd).1).1
  obtain ⟨ss, hss⟩ := Option.isSome_iff_exists.mp (mapM_get_isSome hfind)
  have hhosts : ∀ s ∈ ss, (db.hostOf tf s.host).isSome = true := by
    intro s _
    unfold Database.hostOf
    split
    · rename_i d hd
      obtain ⟨a, ha⟩ := h.hosts d (List.mem_of_find?_eq_some hd)
      rw [ha.get]
      rfl
    · rfl
  obtain ⟨hs, hhs⟩ := Option.isSome_iff_exists.mp (mapM_isSome hhosts)
  rw [Database.hostsOf, hss]
  show (List.mapM (fun s => db.hostOf tf s.host) ss >>=
    fun hosts => some (hosts.filterMap id)).isSome = true
  rw [hhs]
  rfl

theorem getOnboardingPolicy : (db.getOnboardingPolicy pk).isSome = true := by
  unfold Database.getOnboardingPolicy Database.queryGlobal Database.queryAs
  split
  · rename_i d hd
    obtain ⟨_, r, -, ⟨hr, -⟩, -⟩ := h.policies d (List.mem_of_find?_eq_some hd)
    obtain ⟨p, hp⟩ :=
      Option.isSome_iff_exists.mp (h.onboarding d (List.mem_of_find?_eq_some hd)
        (List.find?_some hd) r hr)
    rw [hr]
    show ((OnboardingUpdateRequest.unpack r).toOption.map _).isSome = true
    rw [OnboardingUpdateRequest.unpack, hp]
    rfl
  · rfl

theorem findService (service : Label) : (db.findService tf service).isSome = true := by
  unfold Database.findService
  split
  · rename_i d hd
    obtain ⟨r, hr⟩ := (h.services d (List.mem_of_find?_eq_some hd)).2
    rw [hr.get]
    rfl
  · rfl

/-- All readers succeed. -/
theorem readers :
    (db.hostList tf).isSome = true ∧ (db.serviceList tf).isSome = true ∧
      (∀ label, (db.hostsOf tf label).isSome = true) ∧
      (db.servicesFull tf).isSome = true ∧ (db.policyList pk).isSome = true ∧
      (∀ label, (db.query pk label).isSome = true) ∧
      (∀ label, (db.queryGlobal pk label).isSome = true) ∧
      (db.getGlobalPol pk).isSome = true ∧ (db.getOnboardingPolicy pk).isSome = true ∧
      ∀ service, (db.findService tf service).isSome = true := by
  have hdp : ∀ d ∈ db.policies, (PolicyUpdateRequest.record pk).Reads d := by
    intro d hd
    obtain ⟨r, _, hr, -⟩ := h.policies d hd
    exact ⟨r, hr⟩
  have hcp : ∀ d ∈ db.policies, (CPPolicyUpdateRequest.record pk).Reads d := by
    intro d hd
    obtain ⟨_, q, -, hq, -⟩ := h.policies d hd
    exact ⟨q, hq⟩
  have hglobal : ∀ label, (db.queryGlobal pk label).isSome = true := queryAs_isSome hcp
  refine ⟨mapM_get_isSome h.hosts, mapM_get_isSome (fun d hd => (h.services d hd).1), h.hostsOf,
    mapM_get_isSome (fun d hd => (h.services d hd).2),
    mapM_get_isSome hdp,
    queryAs_isSome hdp, hglobal, ?_, h.getOnboardingPolicy,
    h.findService⟩
  rw [Database.getGlobalPol, Option.isSome_map]
  exact hglobal _

end DocumentsRead

/-- No stored service is read by the list of services: it has no credentials. -/
theorem get_serviceFields (tf : TextForms) (r : POnboardServiceRequest) :
    (OnboardServiceRequest.record tf).get (serviceFields tf r) = none := by
  have hcredentials : Document.required Serde.text.de "credentials" (serviceFields tf r) =
      none := by
    simp [Document.required, serviceFields, POnboardServiceRequest.record, Record.iso,
      Record.pair, Record.field]
  simp [OnboardServiceRequest.record, Record.iso, Record.pair, Record.field, Record.optional,
    hcredentials]

/-- A policy of the control plane whose bytes are not those of a policy of the data plane is
not read as one. -/
theorem get_cpPolicy {pk : Packages} {r : CPPolicyUpdateRequest} {p : GlobalPolicy}
    (hpolicy : r.policy = BTreeMap.insert ∅ .HTTP p)
    (hread : ((Policy.codec pk (cpPlane pk)).write p).bind (Policy.codec pk (dpPlane pk)).read =
      none) :
    (PolicyUpdateRequest.record pk).get ((CPPolicyUpdateRequest.record pk).put r) = none := by
  have hde : (Policies.serde pk (dpPlane pk)).de ((Policies.serde pk (cpPlane pk)).ser r.policy) =
      none := by
    rw [hpolicy]
    cases hw : (Policy.codec pk (cpPlane pk)).write p with
    | none =>
        have hdoc : Policies.toDocument pk (cpPlane pk) (BTreeMap.insert ∅ .HTTP p) = none := by
          show Policies.writeFields pk (cpPlane pk) [(.HTTP, p)] = none
          rw [Policies.writeFields, Policy.toBincode, hw]
          rfl
        simp only [Policies.serde, hdoc]
        rfl
    | some bs =>
        have hdoc : Policies.toDocument pk (cpPlane pk) (BTreeMap.insert ∅ .HTTP p) =
            some [("HTTP", pk.pack bs)] := by
          show Policies.writeFields pk (cpPlane pk) [(.HTTP, p)] = _
          rw [Policies.writeFields, Policy.toBincode, hw]
          rfl
        rw [hw, Option.bind_some] at hread
        have hfrom : Policy.fromBincode pk (dpPlane pk) (pk.pack bs) = none := by
          rw [Policy.fromBincode, pk.unpack_pack, Option.bind_some, hread]
          rfl
        simp only [Policies.serde, hdoc]
        show (Policies.readFields pk (dpPlane pk) [("HTTP", pk.pack bs)]).map _ = none
        rw [Policies.readFields, hfrom]
        rfl
  have hnamed : Document.named "policy" ((CPPolicyUpdateRequest.record pk).put r) =
      [(Policies.serde pk (cpPlane pk)).ser r.policy] := by
    simp [CPPolicyUpdateRequest.put_record]
  have hrequired : Document.required (Policies.serde pk (dpPlane pk)).de "policy"
      ((CPPolicyUpdateRequest.record pk).put r) = none := by
    simp [Document.required, hnamed, hde]
  simp [PolicyUpdateRequest.record, Record.iso, Record.pair, Record.field, hrequired]

/-! ## Calls of on-boarding policies -/

theorem after_onboard (tf : TextForms) (db : Database) (t : List CPEffect) (id : ID) :
    db.after tf (t ++ [⟨"ControlPlane", "onboard", [.id id], false⟩]) =
      (db.after tf t).helperOnboard tf id := by
  rw [Database.after, List.foldl_append]
  rfl

/-- In an evaluation that asks this database, the built-in does what the operation does. -/
theorem helperOnboard_after (tf : TextForms) (pk : Packages) (db : Database) (id : ID)
    (w : World CPFlatLiteral) :
    ∃ r w', (helperOnboard (db.state tf pk) id).run w = some (r, w') ∧
      db.after tf w'.trace = (db.after tf w.trace).helperOnboard tf id := by
  cases hhost : id.findLabel hostPattern with
  | none => exact ⟨.error (.text "Extracting host from id labels"), w,
      by simp [helperOnboard, hhost], by simp [Database.helperOnboard, hhost]⟩
  | some host =>
      cases hservice : id.findLabel serviceIdPattern with
      | none => exact ⟨.error (.text "Extracting service from id labels"), w,
          by simp [helperOnboard, hhost, hservice],
          by simp [Database.helperOnboard, hhost, hservice]⟩
      | some service =>
          cases hfound : Database.present (db.after tf w.trace).services
              (.field "service_id" (Database.labelBson service)) with
          | true =>
              refine ⟨.ok (.bool true), w, ?_, ?_⟩
              · simp only [helperOnboard, hhost, hservice, query, Comp.run_bind, Comp.get,
                  Database.state, hfound, if_true, Comp.run_pure]
              · simp only [Database.helperOnboard, hhost, hservice, hfound, if_true]
          | false =>
              refine ⟨.ok (.bool true), ⟨w.metadata, w.trace ++
                [⟨"ControlPlane", "onboard", [.id id], false⟩]⟩, ?_,
                after_onboard tf db w.trace id⟩
              simp only [helperOnboard, hhost, hservice, query, Comp.run_bind, Comp.get,
                Database.state, hfound, EvalM.log, Comp.set, Comp.run_pure, Bool.false_eq_true,
                if_false]

/-- `ControlPlane::onboarded` answers unless the document of the service does not decode. -/
theorem helperOnboarded_after (tf : TextForms) (pk : Packages) (db : Database)
    (obd : OnboardingData) (w : World CPFlatLiteral) :
    (helperOnboarded (db.state tf pk) obd).run w =
      some (match (db.after tf w.trace).findService tf (newID obd) with
        | some id => .ok (.ofOption (id.map .id))
        | none => .error (.external "Bson conversion error"), w) := by
  have hanswer : (db.state tf pk).findService w.trace (newID obd) =
      (((db.after tf w.trace).findService tf (newID obd)).map Except.ok).getD
        (.error "Bson conversion error") := rfl
  cases hfound : (db.after tf w.trace).findService tf (newID obd) with
  | none => exact Comp.run_bind_error (query_error (hanswer.trans (by rw [hfound]; rfl)))
  | some id => exact Comp.run_bind_ok (query_ok (hanswer.trans (by rw [hfound]; rfl)))

/-- Two services on different hosts get one identifier; when both have been on-boarded, the
second one is answered with the identity of the first. -/
theorem overlapping_same_serviceId :
    ((newIdentity overlapping.1).findLabel serviceIdPattern =
        some ⟨[.str "ServiceID", .str "a", .str "b", .str "c"]⟩ ∧
      (newIdentity overlapping.2).findLabel serviceIdPattern =
        some ⟨[.str "ServiceID", .str "a", .str "b", .str "c"]⟩ ∧
      overlapping.1.host ≠ overlapping.2.host ∧
      overlapping.1.service ≠ overlapping.2.service) ∧
    ∃ r₁ w₁ r₂ w₂,
      (helperOnboard (Database.empty.state TextForms.spelled Lang.spelled)
        (newIdentity overlapping.1)).run default = some (r₁, w₁) ∧
      (helperOnboard (Database.empty.state TextForms.spelled Lang.spelled)
        (newIdentity overlapping.2)).run w₁ = some (r₂, w₂) ∧
      (helperOnboarded (Database.empty.state TextForms.spelled Lang.spelled) overlapping.2).run w₂ =
        some (.ok (.ofOption (some (.id (newIdentity overlapping.1)))), w₂) := by
  refine ⟨by decide +kernel, ?_⟩
  obtain ⟨r₁, w₁, h₁, hafter₁⟩ := helperOnboard_after TextForms.spelled Lang.spelled .empty
    (newIdentity overlapping.1) default
  obtain ⟨r₂, w₂, h₂, hafter₂⟩ := helperOnboard_after TextForms.spelled Lang.spelled .empty
    (newIdentity overlapping.2) w₁
  refine ⟨r₁, w₁, r₂, w₂, h₁, h₂, ?_⟩
  rw [helperOnboarded_after, hafter₂, hafter₁]
  rfl

/-! ## Runs on fixed requests -/

/-- The global policy that denies everything on the egress side, without a program. -/
def denyGlobal : CPPolicyUpdateRequest :=
  ⟨globalPolicyLabel, Policies.ofStatus FnPolicies.denyEgress, ∅, none⟩

/-- Policies without programs hold no expression. -/
theorem sendable_ofStatus {FT FL : Type} [TFlatTyp FT] (P : FL → Prop)
    (status : List String → FnPolicies) :
    (Policies.ofStatus status : Policies FT FL).Sendable P := by
  intro e he f hf
  have hempty : e.2.program.code = ∅ := by
    rcases List.mem_cons.mp he with rfl | he
    · rfl
    · obtain rfl := List.mem_singleton.mp he
      rfl
  rw [hempty] at hf
  exact absurd hf List.not_mem_nil

theorem denyGlobal_sameForm :
    SameForm Lang.spelled (Policies.ofStatus FnPolicies.denyEgress) denyGlobal.policy where
  same := rfl
  ser := by decide +kernel
  dp := ⟨by decide +kernel, sendable_ofStatus _ _⟩
  cp := ⟨by decide +kernel, sendable_ofStatus _ _⟩

/-- A host and a global policy. -/
theorem documents_read_global :
    DocumentsRead TextForms.spelled Lang.spelled
      ((Database.empty.hostOnBoard TextForms.spelled hostA).updateGlobal TextForms.spelled
        Lang.spelled denyGlobal (fun _ => none)) := by
  refine documents_read TextForms.spelled Lang.spelled
    [.hostOnBoard hostA, .updateGlobal denyGlobal (fun _ => none)] ?_
    (Machine.Visits.last rfl)
  intro op hop
  rcases List.mem_cons.mp hop with rfl | hop
  · show hostA.label.Readable
    decide
  · obtain rfl := List.mem_singleton.mp hop
    exact ⟨nofun, nofun, _, denyGlobal_sameForm⟩

/-- A global policy with a function from `bool` to `bool`. -/
def flagGlobal : GlobalPolicy :=
  ⟨⟨∅, .empty,
    BTreeMap.insert ∅ "f" (.new [.flatTyp (.dp .bool)] (.flatTyp (.dp .bool)))⟩, ∅⟩

/-- Once a service is on-boarded the list of services fails, and once there is a global policy
with a function the list of policies does. -/
theorem onboarded_not_listed :
    (∃ db, (restMachine TextForms.spelled Lang.spelled).run .empty [.onboard serviceB] = some db ∧
      db.serviceList TextForms.spelled = none) ∧
    ∃ db, (restMachine TextForms.spelled Lang.spelled).run .empty
        [.updateGlobal ⟨globalPolicyLabel, BTreeMap.insert ∅ .HTTP flagGlobal, ∅, none⟩
          (fun _ => none)] = some db ∧
      db.policyList Lang.spelled = none := by
  refine ⟨⟨_, rfl, ?_⟩, _, rfl, ?_⟩
  · show ([serviceFields TextForms.spelled _].mapM _) = none
    rw [List.mapM_cons, get_serviceFields]
    rfl
  · show ([(CPPolicyUpdateRequest.record Lang.spelled).put _].mapM _) = none
    rw [List.mapM_cons, @get_cpPolicy Lang.spelled
      ⟨globalPolicyLabel, BTreeMap.insert ∅ .HTTP flagGlobal, ∅, none⟩ flagGlobal rfl
      (Option.isNone_iff_eq_none.mp (by decide +kernel))]
    rfl

end Armour.Control
