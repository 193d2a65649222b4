import Armour.Lang.Documents
import Armour.Lang.Transport

/-! # Records of the control plane

`armour-api/src/control.rs`: the requests that the control plane answers and the records that
it stores.  All instances are derived, so that a record is a document with the names of its
fields; policies are a document with one text for each protocol.
-/

namespace Armour.Lang.Policies

open Armour.Lib

variable {FT FL : Type} (pk : Packages) (pl : Plane FT FL)

/-- Policies that have a form are a document of texts. -/
def serde : Serde (Policies FT FL) where
  ser ps := ((toDocument pk pl ps).map (fun d => .doc (d.map (fun f => (f.1, .text f.2))))).getD .null
  de
    | .doc fs => (fs.mapM Serde.text.deEntry).bind (ofDocument pk pl)
    | _ => none
  Clean ps := (toDocument pk pl ps).isSome = true ∧ ps.Sendable pl.lit.Clean
  exact ps := by
    cases hd : toDocument pk pl ps with
    | none => simp
    | some d =>
        have htext := @Serde.mapM_deEntry_ser _ Serde.text d (fun _ _ => trivial)
        show (((d.map (fun f => (f.1, Serde.text.ser f.2))).mapM Serde.text.deEntry).bind
          (ofDocument pk pl)) = some ps ↔ _
        rw [htext, Option.bind_some, ofDocument_eq_some pk pl hd]
        simp

end Armour.Lang.Policies

namespace Armour.Api

open Armour.Lib Armour.Lang

/-- `url::Url`: a text in its normal form. -/
structure Url (tf : TextForms) where
  text : String
  normal : tf.parseUrl text = some text

/-- What a text is read as. -/
def Url.parse (tf : TextForms) (s : String) : Option (Url tf) :=
  (tf.parseUrl s).bind (fun t => if h : tf.parseUrl t = some t then some ⟨t, h⟩ else none)

theorem Url.parse_text {tf : TextForms} (u : Url tf) : Url.parse tf u.text = some u := by
  simp [Url.parse, u.normal]

def Url.serde (tf : TextForms) : Serde (Url tf) :=
  Serde.text.refine (fun _ => trivial) (Url.parse tf) Url.text

/-- From domains to labels. -/
abbrev LabelMap := BTreeMap String (BTreeSet Label)

def LabelMap.serde : Serde LabelMap :=
  (Label.serde.set Label.serde_closed).map (Serde.set_closed Label.serde_closed)

structure OnboardHostRequest (tf : TextForms) where
  host : Url tf
  label : Label
  credentials : String

structure OnboardServiceRequest where
  service : Label
  host : Label
  tmpDpid : Option ID
  credentials : String

/-- The record of an on-boarded service. -/
structure POnboardServiceRequest where
  service : Label
  serviceId : ID
  host : Label

structure PolicyUpdateRequest where
  label : Label
  policy : DPPolicies
  labels : LabelMap

structure CPPolicyUpdateRequest where
  label : Label
  policy : GlobalPolicies
  labels : LabelMap
  selector : Option Label

structure OnboardingUpdateRequest where
  label : Label
  policy : GlobalPolicy
  labels : LabelMap

namespace OnboardingUpdateRequest

/-- `pack`: the policy is the one of HTTP. -/
def pack (r : OnboardingUpdateRequest) : CPPolicyUpdateRequest :=
  ⟨r.label, BTreeMap.insert ∅ .HTTP r.policy, r.labels, none⟩

/-- `unpack`; it panics without a policy of HTTP. -/
def unpack (r : CPPolicyUpdateRequest) : Checked OnboardingUpdateRequest :=
  match r.policy.get? .HTTP with
  | some p => .ok ⟨r.label, p, r.labels⟩
  | none => .error "unwrap"

end OnboardingUpdateRequest

/-! ## Their documents -/

namespace OnboardHostRequest

variable (tf : TextForms)

theorem fields_disjoint :
    (∀ n ∈ ["label"], n ∉ ["credentials"]) ∧ (∀ n ∈ ["host"], n ∉ ["label", "credentials"]) := by
  decide

def record : Record (OnboardHostRequest tf) :=
  ((Record.field "host" (Url.serde tf)).pair
    ((Record.field "label" Label.serde).pair (Record.field "credentials" Serde.text)
      fields_disjoint.1) fields_disjoint.2).iso
    (fun p => ⟨p.1, p.2.1, p.2.2⟩) (fun r => (r.host, r.label, r.credentials))
    (fun _ => rfl) (fun _ => rfl)

def serde : Serde (OnboardHostRequest tf) := (record tf).serde

theorem serde_clean (r : OnboardHostRequest tf) : (serde tf).Clean r ↔ r.label.Readable := by
  show Url.parse tf r.host.text = some r.host ∧ Label.serde.Clean r.label ∧ True ↔ _
  rw [and_iff_right r.host.parse_text, and_true, Label.serde_clean]

end OnboardHostRequest

namespace OnboardServiceRequest

variable (tf : TextForms)

theorem fields_disjoint :
    (∀ n ∈ ["tmp_dpid"], n ∉ ["credentials"]) ∧
      (∀ n ∈ ["host"], n ∉ ["tmp_dpid", "credentials"]) ∧
      (∀ n ∈ ["service"], n ∉ ["host", "tmp_dpid", "credentials"]) := by
  decide

def record : Record OnboardServiceRequest :=
  ((Record.field "service" Label.serde).pair ((Record.field "host" Label.serde).pair
    ((Record.optional "tmp_dpid" (ID.serde tf) (ID.record tf).serde_ne_null).pair
      (Record.field "credentials" Serde.text) fields_disjoint.1) fields_disjoint.2.1)
    fields_disjoint.2.2).iso
    (fun p => ⟨p.1, p.2.1, p.2.2.1, p.2.2.2⟩)
    (fun r => (r.service, r.host, r.tmpDpid, r.credentials))
    (fun _ => rfl) (fun _ => rfl)

end OnboardServiceRequest

namespace POnboardServiceRequest

variable (tf : TextForms)

theorem fields_disjoint :
    (∀ n ∈ ["service_id"], n ∉ ["host"]) ∧
      (∀ n ∈ ["service"], n ∉ ["service_id", "host"]) := by
  decide

def record : Record POnboardServiceRequest :=
  ((Record.field "service" Label.serde).pair ((Record.field "service_id" (ID.serde tf)).pair
    (Record.field "host" Label.serde) fields_disjoint.1) fields_disjoint.2).iso
    (fun p => ⟨p.1, p.2.1, p.2.2⟩) (fun r => (r.service, r.serviceId, r.host))
    (fun _ => rfl) (fun _ => rfl)

end POnboardServiceRequest

namespace PolicyUpdateRequest

theorem fields_disjoint :
    (∀ n ∈ ["policy"], n ∉ ["labels"]) ∧ (∀ n ∈ ["label"], n ∉ ["policy", "labels"]) := by
  decide

def record (pk : Packages) : Record PolicyUpdateRequest :=
  ((Record.field "label" Label.serde).pair
    ((Record.field "policy" (Policies.serde pk (dpPlane pk))).pair
      (Record.field "labels" LabelMap.serde) fields_disjoint.1) fields_disjoint.2).iso
    (fun p => ⟨p.1, p.2.1, p.2.2⟩) (fun r => (r.label, r.policy, r.labels))
    (fun _ => rfl) (fun _ => rfl)

theorem put_record (pk : Packages) (r : PolicyUpdateRequest) :
    (record pk).put r = [("label", Label.serde.ser r.label),
      ("policy", (Policies.serde pk (dpPlane pk)).ser r.policy),
      ("labels", LabelMap.serde.ser r.labels)] :=
  rfl

theorem record_clean (pk : Packages) (r : PolicyUpdateRequest) :
    (record pk).Clean r ↔ Label.serde.Clean r.label ∧
      (Policies.serde pk (dpPlane pk)).Clean r.policy ∧ LabelMap.serde.Clean r.labels :=
  Iff.rfl

end PolicyUpdateRequest

namespace CPPolicyUpdateRequest

theorem fields_disjoint :
    (∀ n ∈ ["labels"], n ∉ ["selector"]) ∧ (∀ n ∈ ["policy"], n ∉ ["labels", "selector"]) ∧
      (∀ n ∈ ["label"], n ∉ ["policy", "labels", "selector"]) := by
  decide

def record (pk : Packages) : Record CPPolicyUpdateRequest :=
  ((Record.field "label" Label.serde).pair
    ((Record.field "policy" (Policies.serde pk (cpPlane pk))).pair
      ((Record.field "labels" LabelMap.serde).pair
        (Record.optional "selector" Label.serde Label.serde_ne_null) fields_disjoint.1)
      fields_disjoint.2.1) fields_disjoint.2.2).iso
    (fun p => ⟨p.1, p.2.1, p.2.2.1, p.2.2.2⟩)
    (fun r => (r.label, r.policy, r.labels, r.selector))
    (fun _ => rfl) (fun _ => rfl)

theorem put_record (pk : Packages) (r : CPPolicyUpdateRequest) :
    (record pk).put r = [("label", Label.serde.ser r.label),
      ("policy", (Policies.serde pk (cpPlane pk)).ser r.policy),
      ("labels", LabelMap.serde.ser r.labels), ("selector", Label.serde.serOption r.selector)] :=
  rfl

/-- A record is read from its fields; without a selector there is none. -/
theorem get_record {pk : Packages} {fs : Fields} {label : Label} {policy : GlobalPolicies}
    {labels : LabelMap} {selector : Option Label}
    (h1 : Document.required Label.serde.de "label" fs = some label)
    (h2 : Document.required (Policies.serde pk (cpPlane pk)).de "policy" fs = some policy)
    (h3 : Document.required LabelMap.serde.de "labels" fs = some labels)
    (h4 : Document.optional Label.serde.de "selector" fs = some selector) :
    (record pk).get fs = some ⟨label, policy, labels, selector⟩ := by
  show Option.map _ ((Document.required Label.serde.de "label" fs).bind (fun a =>
    Option.map _ ((Document.required (Policies.serde pk (cpPlane pk)).de "policy" fs).bind
      (fun b => Option.map _ ((Document.required LabelMap.serde.de "labels" fs).bind
        (fun c => Option.map _ (Document.optional Label.serde.de "selector" fs))))))) = _
  rw [h1, h2, h3, h4]
  rfl

theorem record_clean (pk : Packages) (r : CPPolicyUpdateRequest) :
    (record pk).Clean r ↔ Label.serde.Clean r.label ∧
      (Policies.serde pk (cpPlane pk)).Clean r.policy ∧ LabelMap.serde.Clean r.labels ∧
      ∀ l ∈ r.selector, Label.serde.Clean l :=
  Iff.rfl

end CPPolicyUpdateRequest

end Armour.Api
