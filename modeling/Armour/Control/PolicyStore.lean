import Armour.Control.Database

/-! # Concurrent policy requests

The database steps of the requests for policies in `armour-control/src/rest_api.rs`, each of
them atomic, and their interleavings.  An update is a deletion followed by an insertion, and
some updates read other collections before or after that; any step can fail, which ends its
request with an error.
-/

namespace Armour.Control

open Armour.Lib Armour.Lang Armour.Api

/-- The documents of the policy of a label. -/
def byLabel (label : Label) : Filter := .field "label" (.text label.display)

/-- A document with the policy of a label. -/
structure PolicyDocument where
  label : Label
  fields : Fields
  labelled : Document.named "label" fields = [.text label.display]

namespace PolicyDocument

variable (pk : Packages)

theorem labelled_record (r : PolicyUpdateRequest) :
    Document.named "label" ((PolicyUpdateRequest.record pk).put r) = [.text r.label.display] := by
  simp [PolicyUpdateRequest.record, Record.iso, Record.pair, Record.field, Label.serde,
    Serde.refine, Serde.text]

theorem labelled_cpRecord (r : CPPolicyUpdateRequest) :
    Document.named "label" ((CPPolicyUpdateRequest.record pk).put r) =
      [.text r.label.display] := by
  simp [CPPolicyUpdateRequest.record, Record.iso, Record.pair, Record.field, Record.optional,
    Label.serde, Serde.refine, Serde.text]

def ofRequest (r : PolicyUpdateRequest) : PolicyDocument :=
  ⟨r.label, (PolicyUpdateRequest.record pk).put r, labelled_record pk r⟩

def ofCPRequest (r : CPPolicyUpdateRequest) : PolicyDocument :=
  ⟨r.label, (CPPolicyUpdateRequest.record pk).put r, labelled_cpRecord pk r⟩

theorem accepts (d : PolicyDocument) (label : Label) :
    (byLabel label).accepts d.fields = true ↔ d.label.display = label.display := by
  rw [byLabel, Filter.accepts_field, d.labelled]
  simp [Document.admits]

end PolicyDocument

/-! ## Requests -/

/-- A step on the collection of policies, or one that reads another collection. -/
inductive DbStep where
  | read
  | findOne (label : Label)
  | deleteMany (label : Label)
  | insertOne (d : PolicyDocument)
  | deleteOne (label : Label)

/-- The requests for policies, with the number of steps that they take on the collections of
hosts and services: it depends on the contents of these. -/
inductive Request where
  | savePolicy (request : PolicyUpdateRequest)
  | update (request : PolicyUpdateRequest) (reads : Nat)
  | updateGlobal (request : CPPolicyUpdateRequest) (reads : Nat)
      (services : List (PolicyUpdateRequest × Nat))
  | updateOnboarding (request : OnboardingUpdateRequest)
  | drop (label : Label) (reads : Nat)
  | query (label : Label)

namespace Request

variable (pk : Packages)

/-- Delete the policies of the label and insert the new one. -/
def replace (d : PolicyDocument) : List DbStep := [.deleteMany d.label, .insertOne d]

/-- `helper_update`: the new policy is stored before the hosts are looked up. -/
def helperUpdate (r : PolicyUpdateRequest) (reads : Nat) : List DbStep :=
  replace (.ofRequest pk r) ++ List.replicate reads .read

def steps : Request → List DbStep
  | savePolicy r => replace (.ofRequest pk r)
  | update r reads => .read :: helperUpdate pk r reads
  | updateGlobal r reads services =>
      replace (.ofCPRequest pk { r with label := globalPolicyLabel }) ++
        List.replicate reads .read ++
        services.flatMap (fun s => .read :: helperUpdate pk s.1 s.2)
  | updateOnboarding r =>
      replace (.ofCPRequest pk { r.pack with label := onboardingPolicyLabel })
  | drop label reads => .deleteOne label :: List.replicate reads .read
  | query label => [.findOne label]

end Request

namespace DbStep

def run (c : Collection) : DbStep → Collection
  | read | findOne _ => c
  | deleteMany label => c.deleteMany (byLabel label)
  | insertOne d => c.insertOne d.fields
  | deleteOne label => c.deleteOne (byLabel label)

/-- The step removes a policy or inserts one. -/
def touches (c : Collection) : DbStep → Bool
  | read | findOne _ => false
  | deleteMany label | deleteOne label => c.count (byLabel label) ≠ 0
  | insertOne _ => true

/-- What is the policy of a label, by the updates and drops that have taken effect: an update
does so when it inserts, a drop when it deletes. -/
def latest (m : String → Option Fields) : DbStep → String → Option Fields
  | insertOne d => Function.update m d.label.display (some d.fields)
  | deleteOne label => Function.update m label.display none
  | _ => m

/-- A step changes the collection exactly if it removes a policy or inserts one. -/
theorem run_ne_iff {c : Collection} {st : DbStep} : st.run c ≠ c ↔ st.touches c = true := by
  cases st with
  | read | findOne label => simp [run, touches]
  | deleteMany label =>
      simp only [run, touches, decide_eq_true_eq]
      refine not_congr ⟨fun h => ?_, Collection.deleteMany_eq_self⟩
      rw [← Collection.find_eq_nil, ← h, Collection.find_deleteMany_self]
  | insertOne d =>
      refine iff_of_true (fun h => ?_) rfl
      have hlen := congrArg List.length h
      simp [run, Collection.insertOne] at hlen
  | deleteOne label =>
      simp only [run, touches, decide_eq_true_eq]
      refine not_congr ⟨fun h => ?_, Collection.deleteOne_eq_self⟩
      have hdel := @Collection.count_deleteOne_self c (byLabel label)
      rw [h] at hdel
      omega

/-- A deletion that removes nothing, and an insertion beside no other policy of the label. -/
def Free (c : Collection) : DbStep → Prop
  | deleteMany label => c.count (byLabel label) = 0
  | insertOne d => c.count (byLabel d.label) = 0
  | _ => True

instance (c : Collection) (st : DbStep) : Decidable (st.Free c) :=
  match st with
  | deleteMany label => inferInstanceAs (Decidable (c.count (byLabel label) = 0))
  | insertOne d => inferInstanceAs (Decidable (c.count (byLabel d.label) = 0))
  | read | findOne _ | deleteOne _ => isTrue trivial

end DbStep

/-! ## Interleavings -/

/-- A request in progress: the steps that it still has to take, whether it has removed or
inserted a policy, and whether the collection is another one by what it did. -/
structure Process where
  rest : List DbStep
  touched : Bool
  wrote : Bool

structure Requests where
  policies : Collection
  processes : Nat → Option Process
  latest : String → Option Fields

/-- A request arrives, or one takes its next step, which succeeds or fails. -/
inductive RequestEvent where
  | arrive (i : Nat) (r : Request)
  | step (i : Nat) (ok : Bool)

namespace Requests

def empty : Requests := ⟨[], fun _ => none, fun _ => none⟩

/-- A process takes a step. -/
def advance (s : Requests) (i : Nat) (p : Process) (st : DbStep) (rest : List DbStep) :
    Requests where
  policies := st.run s.policies
  processes := Function.update s.processes i
    (some ⟨rest, p.touched || st.touches s.policies,
      p.wrote || st.run s.policies ≠ s.policies⟩)
  latest := st.latest s.latest

/-- A process ends with an error. -/
def fail (s : Requests) (i : Nat) (p : Process) : Requests :=
  { s with processes := Function.update s.processes i (some { p with rest := [] }) }

def step (pk : Packages) (s : Requests) : RequestEvent → Option Requests
  | .arrive i r =>
      match s.processes i with
      | none => some { s with
          processes := Function.update s.processes i (some ⟨r.steps pk, false, false⟩) }
      | some _ => none
  | .step i ok =>
      match s.processes i with
      | some p =>
          match p.rest with
          | [] => none
          | st :: rest => some (if ok then s.advance i p st rest else s.fail i p)
      | none => none

end Requests

/-- The requests as a machine. -/
def requestMachine (pk : Packages) : Machine Requests RequestEvent := ⟨Requests.step pk⟩

/-- What an event shows is right: no label has two policies; a request that fails has changed
nothing; the policy of a label is the one of the latest update or drop to take effect; and that
is the policy that a query finds. -/
structure PoliciesKept (before : Requests) (e : RequestEvent) (after : Requests) : Prop where
  unique : ∀ label, after.policies.count (byLabel label) ≤ 1
  failed : ∀ i p, e = .step i false → before.processes i = some p → p.wrote = false
  stored : ∀ label, after.policies.find (byLabel label) = (after.latest label.display).toList
  queried : ∀ i p label rest, e = .step i true → before.processes i = some p →
    p.rest = .findOne label :: rest →
    before.policies.findOne (byLabel label) = before.latest label.display

/-- A process takes a step that is free, or fails before it has removed or inserted a policy. -/
def Process.Orderly (c : Collection) (ok : Bool) (p : Process) : Prop :=
  match p.rest with
  | [] => True
  | st :: _ => if ok then st.Free c else p.touched = false

instance (c : Collection) (ok : Bool) : (p : Process) → Decidable (p.Orderly c ok)
  | ⟨[], _, _⟩ => isTrue trivial
  | ⟨st :: _, touched, _⟩ =>
      inferInstanceAs (Decidable (if ok then st.Free c else touched = false))

/-- An update deletes and inserts only while its label has no policy, and a request that has
removed or inserted a policy does not fail. -/
def RequestEvent.Orderly (s : Requests) : RequestEvent → Prop
  | .arrive _ _ => True
  | .step i ok => ∀ p ∈ s.processes i, p.Orderly s.policies ok

instance (s : Requests) (e : RequestEvent) : Decidable (e.Orderly s) :=
  match e with
  | .arrive _ _ => isTrue trivial
  | .step i ok => inferInstanceAs (Decidable (∀ p ∈ s.processes i, p.Orderly s.policies ok))

/-! ## The invariant -/

structure RequestsInv (s : Requests) : Prop where
  docs : ∀ d ∈ s.policies, ∃ D : PolicyDocument, d = D.fields
  stored : ∀ label, s.policies.find (byLabel label) = (s.latest label.display).toList
  wrote : ∀ i p, s.processes i = some p → p.wrote = p.touched

namespace RequestsInv

theorem empty : RequestsInv .empty :=
  ⟨fun _ hd => absurd hd List.not_mem_nil, fun _ => rfl,
    fun _ _ h => absurd h (Option.some_ne_none _).symm⟩

/-- One process has changed, and the others are as they were. -/
theorem wrote_update {f : Nat → Option Process} {i : Nat} {p : Process}
    (hf : ∀ j q, f j = some q → q.wrote = q.touched) (hp : p.wrote = p.touched) :
    ∀ j q, Function.update f i (some p) j = some q → q.wrote = q.touched := by
  intro j q hq
  by_cases hj : j = i
  · subst hj
    rw [Function.update_self] at hq
    obtain rfl := Option.some.inj hq
    exact hp
  · rw [Function.update_of_ne hj] at hq
    exact hf j q hq

variable {s : Requests} (h : RequestsInv s)

include h

theorem unique (label : Label) : s.policies.count (byLabel label) ≤ 1 := by
  rw [← Collection.length_find, h.stored label]
  cases s.latest label.display <;> simp

/-- Documents of one label are not those of another. -/
theorem disjoint {label other : Label} (hne : label.display ≠ other.display) :
    ∀ d ∈ s.policies, (byLabel label).accepts d = true → (byLabel other).accepts d = false := by
  intro d hd hacc
  obtain ⟨D, rfl⟩ := h.docs d hd
  rw [D.accepts] at hacc
  rw [Bool.eq_false_iff, ne_eq, D.accepts, hacc]
  exact hne

/-- The policy of a label after a step of a request. -/
theorem stored_run {st : DbStep} (hfree : st.Free s.policies) (label : Label) :
    (st.run s.policies).find (byLabel label) = (st.latest s.latest label.display).toList := by
  cases st with
  | read | findOne other => exact h.stored label
  | deleteMany other =>
      show (s.policies.deleteMany (byLabel other)).find (byLabel label) = _
      rw [Collection.deleteMany_eq_self hfree]
      exact h.stored label
  | insertOne d =>
      show (s.policies.insertOne d.fields).find (byLabel label) =
        (Function.update s.latest d.label.display (some d.fields) label.display).toList
      rw [Collection.find_insertOne]
      by_cases hlabel : d.label.display = label.display
      · have hsame : byLabel d.label = byLabel label := by rw [byLabel, hlabel, byLabel]
        have hzero : s.policies.count (byLabel d.label) = 0 := hfree
        have hnil := Collection.find_eq_nil.mpr (hsame ▸ hzero)
        rw [if_pos ((d.accepts label).mpr hlabel), hnil, ← hlabel, Function.update_self]
        rfl
      · have hacc : ¬ (byLabel label).accepts d.fields = true :=
          fun hacc => hlabel ((d.accepts label).mp hacc)
        rw [if_neg hacc, List.append_nil, Function.update_of_ne (Ne.symm hlabel)]
        exact h.stored label
  | deleteOne other =>
      show (s.policies.deleteOne (byLabel other)).find (byLabel label) =
        (Function.update s.latest other.display none label.display).toList
      by_cases hlabel : label.display = other.display
      · have hsame : byLabel label = byLabel other := by rw [byLabel, hlabel, byLabel]
        have hone := h.unique other
        rw [← Collection.length_find] at hone
        rw [hsame, Collection.find_deleteOne_self, hlabel, Function.update_self]
        exact List.eq_nil_of_length_eq_zero (by rw [List.length_tail]; omega)
      · rw [Collection.find_deleteOne_of_disjoint (h.disjoint hlabel),
          Function.update_of_ne hlabel]
        exact h.stored label

/-- A deletion that removes the policy, or an insertion beside it, does not leave the policy that
should be stored. -/
theorem free_of_stored {st : DbStep} (hstored : ∀ label,
    (st.run s.policies).find (byLabel label) = (st.latest s.latest label.display).toList) :
    st.Free s.policies := by
  cases st with
  | read | findOne other | deleteOne other => trivial
  | deleteMany other =>
      have hsame : (s.policies.deleteMany (byLabel other)).find (byLabel other) =
          (s.latest other.display).toList := hstored other
      rw [Collection.find_deleteMany_self, ← h.stored other] at hsame
      exact Collection.find_eq_nil.mp hsame.symm
  | insertOne d =>
      have hsame : (s.policies.insertOne d.fields).find (byLabel d.label) =
          (Function.update s.latest d.label.display (some d.fields) d.label.display).toList :=
        hstored d.label
      have hlen := congrArg List.length hsame
      rw [Collection.find_insertOne, if_pos ((d.accepts d.label).mpr rfl), List.length_append,
        Collection.length_find, Function.update_self] at hlen
      exact Nat.succ.inj hlen

theorem advance {i : Nat} {p : Process} {st : DbStep} {rest : List DbStep}
    (hp : s.processes i = some p) (hfree : st.Free s.policies) :
    RequestsInv (s.advance i p st rest) where
  docs := by
    intro d hd
    cases st with
    | read | findOne label => exact h.docs d hd
    | deleteMany label => exact h.docs d (Collection.mem_deleteMany.mp hd).1
    | insertOne D =>
        rcases List.mem_append.mp hd with hd | hd
        · exact h.docs d hd
        · exact ⟨D, List.mem_singleton.mp hd⟩
    | deleteOne label => exact h.docs d (Collection.mem_of_mem_deleteOne hd)
  stored := h.stored_run hfree
  wrote := by
    have hran : decide (st.run s.policies ≠ s.policies) = st.touches s.policies :=
      Bool.eq_iff_iff.mpr (decide_eq_true_iff.trans DbStep.run_ne_iff)
    exact wrote_update h.wrote (congrArg₂ (· || ·) (h.wrote i p hp) hran)

theorem fail {i : Nat} {p : Process} (hp : s.processes i = some p) : RequestsInv (s.fail i p) :=
  ⟨h.docs, h.stored, wrote_update h.wrote (h.wrote i p hp)⟩

/-- An event that meets the condition keeps the invariant. -/
theorem step (pk : Packages) {e : RequestEvent} {s' : Requests} (hok : e.Orderly s)
    (hstep : s.step pk e = some s') : RequestsInv s' := by
  cases e with
  | arrive i r =>
      simp only [Requests.step] at hstep
      split at hstep
      · obtain rfl := Option.some.inj hstep
        exact ⟨h.docs, h.stored, wrote_update h.wrote rfl⟩
      · cases hstep
  | step i ok =>
      simp only [Requests.step] at hstep
      split at hstep
      · rename_i p hp
        split at hstep
        · cases hstep
        · rename_i st rest hrest
          obtain rfl := Option.some.inj hstep
          have hnext := hok p hp
          rw [Process.Orderly, hrest] at hnext
          cases ok with
          | true => exact h.advance hp hnext
          | false => exact h.fail hp
      · cases hstep

/-- What an event shows is right exactly if it meets the condition. -/
theorem kept_iff (pk : Packages) (e : RequestEvent) :
    (∀ s', s.step pk e = some s' → PoliciesKept s e s') ↔ e.Orderly s := by
  constructor
  · intro hkept
    cases e with
    | arrive i r => trivial
    | step i ok =>
        intro p hp
        cases hrest : p.rest with
        | nil => simp only [Process.Orderly, hrest]
        | cons st rest =>
            have hstep : s.step pk (.step i ok) =
                some (if ok then s.advance i p st rest else s.fail i p) := by
              simp only [Requests.step, Option.mem_def.mp hp, hrest]
            have hright := hkept _ hstep
            rw [Process.Orderly, hrest]
            cases ok with
            | true => exact h.free_of_stored hright.stored
            | false => exact (h.wrote i p hp).symm.trans (hright.failed i p rfl hp)
  · intro hok s' hstep
    have hinv := h.step pk hok hstep
    refine ⟨hinv.unique, ?_, hinv.stored, ?_⟩
    · rintro i p rfl hp
      rw [h.wrote i p hp]
      have hnext := hok p hp
      cases hrest : p.rest with
      | nil => simp [Requests.step, hp, hrest] at hstep
      | cons st rest =>
          rw [Process.Orderly, hrest] at hnext
          exact hnext
    · intro i p label rest _ _ _
      rw [Collection.findOne_eq_head?, h.stored label]
      cases s.latest label.display <;> rfl

end RequestsInv

/-- In every interleaving of requests, what the events show is right exactly if they all meet
the condition. -/
theorem policies_kept (pk : Packages) (es : List RequestEvent) :
    (requestMachine pk).Steps
        (fun s e => ∀ s', s.step pk e = some s' → PoliciesKept s e s') .empty es ↔
      (requestMachine pk).Steps (fun s e => e.Orderly s) .empty es := by
  symm
  refine Machine.steps_congr (P := RequestsInv) ?_ ?_ RequestsInv.empty es
  · exact fun s e s' h hok hstep => h.step pk hok hstep
  · exact fun s e h => (h.kept_iff pk e).symm

/-! ## Runs on fixed requests -/

/-- An update of the policy of `a`. -/
def updateA : Request := .savePolicy ⟨⟨[.str "a"]⟩, ∅, ∅⟩

/-- An update of the policy of `b`. -/
def updateB : Request := .savePolicy ⟨⟨[.str "b"]⟩, ∅, ∅⟩

/-- Updates of two labels in turns, and a query of one of them between the steps of the
other. -/
theorem policies_kept_query :
    (requestMachine spelled).Steps
      (fun s e => ∀ s', s.step spelled e = some s' → PoliciesKept s e s') .empty
      [.arrive 0 updateA, .arrive 1 updateB, .step 0 true, .step 1 true, .step 0 true,
        .arrive 2 (.query ⟨[.str "a"]⟩), .step 2 true, .step 1 true] := by
  refine (policies_kept spelled _).mpr ?_
  decide +kernel

/-- Two updates of one label in turns leave two policies, and an update that fails between its
two steps leaves none. -/
theorem updates_interleaved :
    (∃ s, (requestMachine spelled).run .empty [.arrive 0 updateA, .arrive 1 updateA,
        .step 0 true, .step 1 true, .step 0 true, .step 1 true] = some s ∧
      s.policies.count (byLabel ⟨[.str "a"]⟩) = 2) ∧
    ∃ s, (requestMachine spelled).run .empty [.arrive 0 updateA, .step 0 true, .step 0 true,
        .arrive 1 updateA, .step 1 true, .step 1 false] = some s ∧
      s.policies.count (byLabel ⟨[.str "a"]⟩) = 0 ∧ (s.latest "a").isSome = true :=
  ⟨⟨_, rfl, by decide +kernel⟩, _, rfl, by decide +kernel, by decide +kernel⟩

end Armour.Control
