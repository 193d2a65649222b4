import Armour.Control.Interpret
import Armour.Host.Actor
import Armour.Lib.Machine

/-! # Life cycle of a service

The host on-boards a proxy with the control plane, which assigns a global identifier to its
service.  The host learns it from a message to itself, and asks the control plane to drop the
service when the proxy has disconnected.
-/

namespace Armour.Host.LifeCycle

open Armour.Lib Armour.Lang Armour.Api
open Armour.Control (serviceIdPattern)

/-- What the host asks of the control plane. -/
inductive CPRequest where
  | onBoard (r : OnboardServiceRequest)
  | query (label : Label)
  | drop (r : OnboardServiceRequest)

/-- `ServiceGlobalID`, with the instance that it comes from. -/
structure ServiceGlobalID where
  source : Nat
  dpid : DPID
  label : Label

/-- `sent` are the requests to the control plane, with the instances that they are about.
`launched` tells which instances registered as processes that the host has started, and
`assigned` which identifiers the control plane gave to them. -/
structure State where
  host : ArmourDataHost
  pending : List ServiceGlobalID
  sent : List (Nat × CPRequest)
  launched : Nat → Bool
  assigned : Nat → List Label

inductive Event where
  /-- A process is started. -/
  | launch (pid : UInt32)
  /-- A proxy connects. -/
  | connect
  /-- A proxy tells what it is. -/
  | register (id : Nat) (pid : UInt32) (label : Label) (http tcp : String)
  /-- `CPOnboardProxy`, with the identifier that the control plane assigns, if it does, and
  whether it answers the query for a policy.  The host waits for both answers. -/
  | onboard (id : Nat) (ipLabels : List (IpAddr × BTreeSet Label)) (answer : Option Label)
      (policy : Bool)
  /-- A `ServiceGlobalID` that was put off is handled. -/
  | globalId (k : Nat)
  /-- `Disconnect`, and whether the host could wait for the process. -/
  | disconnect (id : Nat) (waited : Bool)

/-- The identity that an instance is on-boarded with; there is at most one service for a proxy. -/
def onboardDpid (info : Meta) (ipLabels : List (IpAddr × BTreeSet Label)) : DPID :=
  let dpid := info.tmpDpid.getD ID.empty
  match ipLabels with
  | [] => dpid
  | (ip, labels) :: _ => { dpid with ips := BTreeSet.ofList [ip], labels := labels }

/-- The service that is to be dropped with an instance. -/
def dropService (info : Meta) : Label :=
  match info.tmpDpid with
  | some dpid => (dpid.findLabel serviceIdPattern).getD info.label
  | none => info.label

namespace State

def start (label : Label) : State := ⟨.start label true, [], [], fun _ => false, fun _ => []⟩

/-- `Handler<CPOnboardProxy>` -/
def onboard (s : State) (id : Nat) (info : Meta) (ipLabels : List (IpAddr × BTreeSet Label))
    (answer : Option Label) (policy : Bool) : State :=
  let dpid := onboardDpid info ipLabels
  -- without an answer the label of the proxy is used
  let serviceId := answer.getD info.label
  { s with
    sent := s.sent ++ [(id, .onBoard ⟨info.label, s.host.label, some dpid, ""⟩),
      (id, .query serviceId)]
    assigned := Function.update s.assigned id (s.assigned id ++ answer.toList)
    pending := s.pending ++
      if policy then [⟨id, dpid.addLabel serviceId, info.label⟩] else [] }

/-- `Handler<Disconnect>` -/
def disconnect (s : State) (id : Nat) (waited : Bool) : State :=
  { s with
    host := s.host.disconnect id
    sent := s.sent ++
      match s.host.instances id, s.host.awaited id with
      | some (some info), some _ =>
          if waited && s.host.onboarded then
            [(id, .drop ⟨dropService info, s.host.label, info.tmpDpid, ""⟩)]
          else []
      | _, _ => [] }

def step (s : State) : Event → Option State
  | .launch pid => some { s with host := s.host.addChild pid }
  | .connect => some { s with host := s.host.connect }
  | .register id pid label http tcp =>
      match s.host.instances id with
      | some none => some { s with
          host := s.host.registerProxy id ⟨pid, none, label, http, tcp⟩
          launched := Function.update s.launched id (s.host.children pid) }
      | _ => none
  | .onboard id ipLabels answer policy =>
      -- the control plane answers with a label of this form
      if answer.all serviceIdPattern.matchesWith then
        match s.host.onboarded, s.host.instances id with
        | true, some (some info) => some (s.onboard id info ipLabels answer policy)
        | _, _ => some s
      else none
  | .globalId k => (s.pending[k]?).map (fun n => { s with
      host := s.host.updateInstances (.label n.label) n.dpid
      pending := s.pending.eraseIdx k })
  | .disconnect id waited => some (s.disconnect id waited)

/-- The proxy was launched by the host and has disconnected. -/
def Ended (s : State) (id : Nat) : Prop :=
  id < s.host.count ∧ s.host.instances id = none ∧ s.launched id = true

end State

def machine : Machine State Event := ⟨State.step⟩

/-- The identifier that the control plane drops for a request. -/
def asked (r : OnboardServiceRequest) : Option Label := r.tmpDpid.bind (·.findLabel serviceIdPattern)

/-- The control plane was asked to drop the identifiers that it had assigned to the proxies that
have disconnected, and no others. -/
structure Right (s : State) : Prop where
  dropped : ∀ id, s.Ended id → ∀ g ∈ s.assigned id, ∃ r, (id, .drop r) ∈ s.sent ∧ asked r = some g
  own : ∀ id r g, (id, .drop r) ∈ s.sent → asked r = some g → g ∈ s.assigned id

/-! ## Runs in which all is right -/

/-- The host learns all identifiers that are assigned to the instance, when it is on-boarded: there
is only one, it is the only label of its form among those that are passed on, and the query
succeeds; or there is no new one. -/
structure Learns (s : State) (id : Nat) (info : Meta) (ipLabels : List (IpAddr × BTreeSet Label))
    (answer : Option Label) (policy : Bool) : Prop where
  one : ∀ a b, (a ∈ s.assigned id ∨ answer = some a) → (b ∈ s.assigned id ∨ answer = some b) → a = b
  labels : policy = true → ∀ l, serviceIdPattern.matchesWith l = true →
    ((l = answer.getD info.label ∨ l ∈ (onboardDpid info ipLabels).labels.elems) ↔
      (l ∈ s.assigned id ∨ answer = some l))
  known : policy = false ∨ (∃ n ∈ s.pending, n.source = id) →
    ∀ g, answer = some g → g ∈ s.assigned id

/-- Numbers of processes are not in use; the host learns what is assigned; a message with an
identity selects its source, and only instances that have the same identifiers; and a process
that disconnects can be waited for, and no message of its instance is still to be handled. -/
def Fits (s : State) : Event → Prop
  | .launch pid => ∀ id info, s.host.instances id = some (some info) → info.pid ≠ pid
  | .connect => True
  | .register _ pid _ _ _ => ∀ id info, s.host.instances id = some (some info) → info.pid ≠ pid
  | .onboard id ipLabels answer policy => ∀ info, s.host.instances id = some (some info) →
      Learns s id info ipLabels answer policy
  | .globalId k => ∀ n, s.pending[k]? = some n →
      (∀ info, s.host.instances n.source = some (some info) →
        n.label.matchesWith info.label = true) ∧
      ∀ id, s.host.selects (.label n.label) id = true →
        ∀ g, g ∈ s.assigned id ↔ g ∈ s.assigned n.source
  | .disconnect id waited => s.launched id = true → s.host.instances id ≠ none →
      waited = true ∧ ∀ n ∈ s.pending, n.source ≠ id

/-- The identity is that of a proxy with these identifiers. -/
def Knows (dpid : Option DPID) (ids : List Label) : Prop :=
  ∀ g, dpid.bind (·.findLabel serviceIdPattern) = some g ↔ g ∈ ids

structure Kept (s : State) : Prop where
  onboarded : s.host.onboarded = true
  ids : ∀ id, ∀ g ∈ s.assigned id, serviceIdPattern.matchesWith g = true
  one : ∀ id, ∀ a ∈ s.assigned id, ∀ b ∈ s.assigned id, a = b
  children : ∀ id info, s.host.instances id = some (some info) →
    s.host.children info.pid = s.launched id
  pids : ∀ i j a b, s.host.instances i = some (some a) → s.host.instances j = some (some b) →
    a.pid = b.pid → i = j
  pending : ∀ n ∈ s.pending, Knows (some n.dpid) (s.assigned n.source)
  knows : ∀ id info, s.host.instances id = some (some info) →
    (∃ n ∈ s.pending, n.source = id) ∨ Knows info.tmpDpid (s.assigned id)
  sources : ∀ n ∈ s.pending, n.source < s.host.count ∧ s.host.instances n.source ≠ some none
  unborn : ∀ id, (s.host.instances id = some none ∨ s.host.count ≤ id) →
    s.assigned id = [] ∧ s.launched id = false
  drops : ∀ id r, (id, .drop r) ∈ s.sent → id < s.host.count ∧ s.host.instances id = none
  right : Right s

section

variable {s : State}

theorem Kept.start (label : Label) : Kept (.start label) where
  onboarded := rfl
  ids := fun _ _ h => absurd h List.not_mem_nil
  one := fun _ _ h => absurd h List.not_mem_nil
  children := fun _ _ h => by cases h
  pids := fun _ _ _ _ h => by cases h
  pending := fun _ h => absurd h List.not_mem_nil
  knows := fun _ _ h => by cases h
  sources := fun _ h => absurd h List.not_mem_nil
  unborn := fun _ _ => ⟨rfl, rfl⟩
  drops := fun _ _ h => absurd h List.not_mem_nil
  right := ⟨fun id hid => absurd hid.1 (Nat.not_lt_zero id),
    fun _ _ _ h => absurd h List.not_mem_nil⟩

theorem Kept.launch (h : Kept s) {pid : UInt32} (hfits : Fits s (.launch pid)) :
    Kept { s with host := s.host.addChild pid } where
  onboarded := h.onboarded
  ids := h.ids
  one := h.one
  children := by
    intro id info hid
    have hne := hfits id info hid
    show Function.update s.host.children pid true info.pid = s.launched id
    rw [Function.update_of_ne hne]
    exact h.children id info hid
  pids := h.pids
  pending := h.pending
  knows := h.knows
  sources := h.sources
  unborn := h.unborn
  drops := h.drops
  right := ⟨h.right.dropped, h.right.own⟩

theorem Kept.connect (h : Kept s) : Kept { s with host := s.host.connect } := by
  have hcount : ∀ id, id ≠ s.host.count → s.host.connect.instances id = s.host.instances id :=
    fun id hne => by rw [ArmourDataHost.instances_connect, Function.update_of_ne hne]
  have hnew : s.host.connect.instances s.host.count = some none := by
    rw [ArmourDataHost.instances_connect, Function.update_self]
  have hsome : ∀ id info, s.host.connect.instances id = some (some info) →
      s.host.instances id = some (some info) := by
    intro id info hid
    by_cases heq : id = s.host.count
    · rw [heq, hnew] at hid
      cases hid
    · rwa [hcount id heq] at hid
  have hnone : ∀ id, id < s.host.count + 1 → s.host.connect.instances id = none →
      id < s.host.count ∧ s.host.instances id = none := by
    intro id hlt hid
    have hne : id ≠ s.host.count := by
      rintro rfl
      rw [hnew] at hid
      cases hid
    rw [hcount id hne] at hid
    exact ⟨by omega, hid⟩
  refine ⟨h.onboarded, h.ids, h.one, fun id info hid => h.children id info (hsome id info hid),
    fun i j a b hi hj => h.pids i j a b (hsome i a hi) (hsome j b hj), h.pending,
    fun id info hid => h.knows id info (hsome id info hid), fun n hn => ?_, fun id hid => ?_,
    fun id r hr => ?_, ⟨fun id hid => ?_, h.right.own⟩⟩
  · obtain ⟨hlt, hne⟩ := h.sources n hn
    refine ⟨Nat.lt_succ_of_lt hlt, ?_⟩
    show s.host.connect.instances n.source ≠ some none
    rwa [hcount n.source (Nat.ne_of_lt hlt)]
  · refine h.unborn id ?_
    rcases hid with hid | hle
    · by_cases heq : id = s.host.count
      · exact Or.inr (Nat.le_of_eq heq.symm)
      · exact Or.inl ((hcount id heq).symm.trans hid)
    · exact Or.inr (Nat.le_of_succ_le hle)
  · obtain ⟨hlt, hid⟩ := h.drops id r hr
    exact ⟨Nat.lt_succ_of_lt hlt, (hcount id (Nat.ne_of_lt hlt)).trans hid⟩
  · obtain ⟨hlt, hgone⟩ := hnone id hid.1 hid.2.1
    exact h.right.dropped id ⟨hlt, hgone, hid.2.2⟩

theorem Kept.register (h : Kept s) {id : Nat} {pid : UInt32} {label : Label} {http tcp : String}
    (hid : s.host.instances id = some none) (hfits : Fits s (.register id pid label http tcp)) :
    Kept { s with
      host := s.host.registerProxy id ⟨pid, none, label, http, tcp⟩
      launched := Function.update s.launched id (s.host.children pid) } := by
  have hthis : (s.host.registerProxy id ⟨pid, none, label, http, tcp⟩).instances id =
      some (some ⟨pid, none, label, http, tcp⟩) := by
    rw [ArmourDataHost.instances_registerProxy, Function.update_self, hid]
    rfl
  have hother : ∀ j, j ≠ id →
      (s.host.registerProxy id ⟨pid, none, label, http, tcp⟩).instances j = s.host.instances j :=
    fun j hne => by rw [ArmourDataHost.instances_registerProxy, Function.update_of_ne hne]
  have hcount : id < s.host.count := by
    by_contra hlt
    rw [s.host.fresh id (Nat.le_of_not_lt hlt)] at hid
    cases hid
  obtain ⟨hnil, -⟩ := h.unborn id (Or.inl hid)
  refine ⟨h.onboarded, h.ids, h.one, fun j info hj => ?_, fun i j a b hi hj hpid => ?_,
    h.pending, fun j info hj => ?_, fun n hn => ?_, fun j hj => ?_, fun j r hr => ?_,
    ⟨fun j hj => ?_, h.right.own⟩⟩
  · by_cases heq : j = id
    · subst heq
      rw [hthis] at hj
      cases hj
      show s.host.children pid = Function.update s.launched j (s.host.children pid) j
      rw [Function.update_self]
    · rw [hother j heq] at hj
      exact (h.children j info hj).trans (Function.update_of_ne heq ..).symm
  · by_cases hi' : i = id <;> by_cases hj' : j = id
    · rw [hi', hj']
    · subst hi'
      rw [hthis] at hi
      rw [hother j hj'] at hj
      cases hi
      exact absurd hpid.symm (hfits j b hj)
    · subst hj'
      rw [hthis] at hj
      rw [hother i hi'] at hi
      cases hj
      exact absurd hpid (hfits i a hi)
    · rw [hother i hi'] at hi
      rw [hother j hj'] at hj
      exact h.pids i j a b hi hj hpid
  · by_cases heq : j = id
    · subst heq
      rw [hthis] at hj
      cases hj
      refine Or.inr (fun g => ?_)
      rw [hnil]
      exact iff_of_false (fun hg => by cases hg) List.not_mem_nil
    · rw [hother j heq] at hj
      exact h.knows j info hj
  · obtain ⟨hlt, hne⟩ := h.sources n hn
    refine ⟨hlt, ?_⟩
    show (s.host.registerProxy id ⟨pid, none, label, http, tcp⟩).instances n.source ≠ some none
    rw [hother n.source (fun heq => hne (by rw [heq, hid]))]
    exact hne
  · have hne : j ≠ id := by
      rintro rfl
      rcases hj with hj | hle
      · rw [hthis] at hj
        cases hj
      · exact absurd hle (Nat.not_le_of_lt hcount)
    rw [hother j hne] at hj
    obtain ⟨ha, hl⟩ := h.unborn j hj
    exact ⟨ha, (Function.update_of_ne hne ..).trans hl⟩
  · obtain ⟨hlt, hnone⟩ := h.drops j r hr
    refine ⟨hlt, ?_⟩
    show (s.host.registerProxy id ⟨pid, none, label, http, tcp⟩).instances j = none
    rw [hother j (fun heq => by rw [heq, hid] at hnone; cases hnone)]
    exact hnone
  · obtain ⟨hlt, hnone, hl⟩ := hj
    have hne : j ≠ id := by
      rintro rfl
      rw [hthis] at hnone
      cases hnone
    rw [hother j hne] at hnone
    exact h.right.dropped j ⟨hlt, hnone, (Function.update_of_ne hne ..).symm.trans hl⟩

/-- What is found in an identity whose labels of the form are exactly the assigned ones. -/
theorem knows_addLabel {dpid : DPID} {l : Label} {ids : List Label}
    (hids : ∀ g ∈ ids, serviceIdPattern.matchesWith g = true)
    (hone : ∀ a ∈ ids, ∀ b ∈ ids, a = b)
    (hlabels : ∀ g, serviceIdPattern.matchesWith g = true →
      ((g = l ∨ g ∈ dpid.labels.elems) ↔ g ∈ ids)) : Knows (some (dpid.addLabel l)) ids := by
  have hfound : ∀ g, (dpid.addLabel l).findLabel serviceIdPattern = some g → g ∈ ids := by
    intro g hg
    have hmem := List.mem_of_find?_eq_some hg
    exact (hlabels g (List.find?_some hg)).mp (BTreeSet.mem_insert.mp hmem)
  intro g
  rw [Option.bind_some]
  constructor
  · exact hfound g
  · intro hg
    have hm := hids g hg
    have hin : g ∈ (dpid.labels.insert l).elems := BTreeSet.mem_insert.mpr ((hlabels g hm).mpr hg)
    obtain ⟨x, hx⟩ := Option.isSome_iff_exists.mp (List.find?_isSome.mpr ⟨g, hin, hm⟩)
    have hsame := hone x (hfound x hx) g hg
    rw [← hsame]
    exact hx

theorem Kept.onboard (h : Kept s) {id : Nat} {info : Meta}
    {ipLabels : List (IpAddr × BTreeSet Label)} {answer : Option Label} {policy : Bool}
    (hid : s.host.instances id = some (some info))
    (hanswer : answer.all serviceIdPattern.matchesWith = true)
    (hfits : Learns s id info ipLabels answer policy) :
    Kept (s.onboard id info ipLabels answer policy) := by
  have hmem : ∀ g, g ∈ s.assigned id ++ answer.toList ↔ g ∈ s.assigned id ∨ answer = some g := by
    intro g
    rw [List.mem_append, Option.mem_toList]
  have hthis : (s.onboard id info ipLabels answer policy).assigned id =
      s.assigned id ++ answer.toList := Function.update_self ..
  have hother : ∀ j, j ≠ id →
      (s.onboard id info ipLabels answer policy).assigned j = s.assigned j :=
    fun j hne => Function.update_of_ne hne ..
  have hids : ∀ g ∈ s.assigned id ++ answer.toList, serviceIdPattern.matchesWith g = true := by
    intro g hg
    rcases (hmem g).mp hg with hg | rfl
    · exact h.ids id g hg
    · exact hanswer
  have hone : ∀ a ∈ s.assigned id ++ answer.toList, ∀ b ∈ s.assigned id ++ answer.toList, a = b :=
    fun a ha b hb => hfits.one a b ((hmem a).mp ha) ((hmem b).mp hb)
  -- what was known before is still all, if there is nothing new
  have hsame : (policy = false ∨ ∃ n ∈ s.pending, n.source = id) →
      ∀ {d : Option DPID}, Knows d (s.assigned id) → Knows d (s.assigned id ++ answer.toList) := by
    intro hcase d hd g
    rw [hd g, hmem]
    exact ⟨Or.inl, fun hg => hg.elim (fun hg => hg) (hfits.known hcase g)⟩
  have hpend : ∀ n, n ∈ (s.onboard id info ipLabels answer policy).pending ↔ n ∈ s.pending ∨
      (policy = true ∧
        n = ⟨id, (onboardDpid info ipLabels).addLabel (answer.getD info.label), info.label⟩) := by
    intro n
    unfold State.onboard
    cases policy <;> simp
  have hsent : ∀ j r, (j, CPRequest.drop r) ∈ (s.onboard id info ipLabels answer policy).sent →
      (j, .drop r) ∈ s.sent := by
    intro j r hr
    unfold State.onboard at hr
    simpa using hr
  refine ⟨h.onboarded, fun j g hg => ?_, fun j a ha b hb => ?_, h.children, h.pids,
    fun n hn => ?_, fun j info' hj => ?_, fun n hn => ?_, fun j hj => ?_,
    fun j r hr => h.drops j r (hsent j r hr), ⟨fun j hj g hg => ?_, fun j r g hr hg => ?_⟩⟩
  · by_cases heq : j = id
    · rw [heq, hthis] at hg
      exact hids g hg
    · rw [hother j heq] at hg
      exact h.ids j g hg
  · by_cases heq : j = id
    · rw [heq, hthis] at ha hb
      exact hone a ha b hb
    · rw [hother j heq] at ha hb
      exact h.one j a ha b hb
  · rcases (hpend n).mp hn with hn | ⟨hpolicy, rfl⟩
    · by_cases heq : n.source = id
      · rw [heq, hthis]
        exact hsame (Or.inr ⟨n, hn, heq⟩) (heq ▸ h.pending n hn)
      · rw [hother n.source heq]
        exact h.pending n hn
    · rw [hthis]
      refine knows_addLabel hids hone (fun g hg => ?_)
      rw [hfits.labels hpolicy g hg, hmem]
  · by_cases heq : j = id
    · subst heq
      have hj : s.host.instances j = some (some info') := hj
      cases policy with
      | true => exact Or.inl ⟨_, (hpend _).mpr (Or.inr ⟨rfl, rfl⟩), rfl⟩
      | false =>
          rcases h.knows j info' hj with ⟨n, hn, hsource⟩ | hknows
          · exact Or.inl ⟨n, (hpend n).mpr (Or.inl hn), hsource⟩
          · refine Or.inr ?_
            rw [hthis]
            exact hsame (Or.inl rfl) hknows
    · rcases h.knows j info' hj with ⟨n, hn, hsource⟩ | hknows
      · exact Or.inl ⟨n, (hpend n).mpr (Or.inl hn), hsource⟩
      · refine Or.inr ?_
        rw [hother j heq]
        exact hknows
  · rcases (hpend n).mp hn with hn | ⟨-, rfl⟩
    · exact h.sources n hn
    · refine ⟨?_, ?_⟩
      · by_contra hlt
        have hnone := s.host.fresh id (Nat.le_of_not_lt hlt)
        rw [hid] at hnone
        cases hnone
      · show s.host.instances id ≠ some none
        rw [hid]
        exact fun hc => by cases hc
  · have hne : j ≠ id := by
      rintro rfl
      rcases hj with hj | hle
      · have hj : s.host.instances j = some none := hj
        rw [hid] at hj
        cases hj
      · have hnone := s.host.fresh j hle
        rw [hid] at hnone
        cases hnone
    rw [hother j hne]
    exact h.unborn j hj
  · have hne : j ≠ id := by
      rintro rfl
      have hnone : s.host.instances j = none := hj.2.1
      rw [hid] at hnone
      cases hnone
    rw [hother j hne] at hg
    obtain ⟨r, hr, hasked⟩ := h.right.dropped j hj g hg
    exact ⟨r, List.mem_append_left _ hr, hasked⟩
  · have hold := h.right.own j r g (hsent j r hr) hg
    by_cases heq : j = id
    · rw [heq, hthis]
      exact List.mem_append_left _ (heq ▸ hold)
    · rw [hother j heq]
      exact hold

/-- What an instance has told changes only in its identity. -/
theorem instances_updateInstances {h : ArmourDataHost} {sel : InstanceSelector} {dpid : DPID}
    {id : Nat} {info : Meta} (hid : (h.updateInstances sel dpid).instances id = some (some info)) :
    ∃ old, h.instances id = some (some old) ∧ info.pid = old.pid ∧ info.label = old.label ∧
      info.tmpDpid = if h.selects sel id then some dpid else old.tmpDpid := by
  unfold ArmourDataHost.updateInstances at hid
  dsimp only at hid
  split_ifs at hid ⊢ with hsel
  · obtain ⟨meta?, hm, hsome⟩ := Option.map_eq_some_iff.mp hid
    obtain ⟨old, rfl, rfl⟩ := Option.map_eq_some_iff.mp hsome
    exact ⟨old, hm, rfl, rfl, rfl⟩
  · exact ⟨info, hid, rfl, rfl, rfl⟩

theorem instances_updateInstances_eq {h : ArmourDataHost} {sel : InstanceSelector} {dpid : DPID}
    {id : Nat} : ((h.updateInstances sel dpid).instances id = none ↔ h.instances id = none) ∧
      ((h.updateInstances sel dpid).instances id = some none ↔ h.instances id = some none) := by
  unfold ArmourDataHost.updateInstances
  dsimp only
  split_ifs
  · cases h.instances id with
    | none => simp
    | some meta? => cases meta? <;> simp
  · exact ⟨Iff.rfl, Iff.rfl⟩

theorem Kept.globalId (h : Kept s) {k : Nat} {n : ServiceGlobalID} (hk : s.pending[k]? = some n)
    (hfits : Fits s (.globalId k)) :
    Kept { s with
      host := s.host.updateInstances (.label n.label) n.dpid
      pending := s.pending.eraseIdx k } := by
  obtain ⟨hself, hsame⟩ := hfits n hk
  have hsub : ∀ m ∈ s.pending.eraseIdx k, m ∈ s.pending := fun m hm =>
    List.mem_of_mem_eraseIdx hm
  have hrest : ∀ m ∈ s.pending, m ∈ s.pending.eraseIdx k ∨ m = n := by
    intro m hm
    obtain ⟨i, hi, rfl⟩ := List.mem_iff_getElem.mp hm
    by_cases heq : i = k
    · subst heq
      rw [List.getElem?_eq_getElem hi] at hk
      exact Or.inr (Option.some.inj hk)
    · exact Or.inl (List.mem_eraseIdx_iff_getElem?.mpr ⟨i, heq, List.getElem?_eq_getElem hi⟩)
  refine ⟨h.onboarded, h.ids, h.one, fun id info hid => ?_, fun i j a b hi hj hpid => ?_,
    fun m hm => h.pending m (hsub m hm), fun id info hid => ?_, fun m hm => ?_, fun id hid => ?_,
    fun id r hr => ?_, ⟨fun id hid => ?_, h.right.own⟩⟩
  · obtain ⟨old, hold, hpid, -, -⟩ := instances_updateInstances hid
    rw [hpid]
    exact h.children id old hold
  · obtain ⟨old, hold, hpa, -, -⟩ := instances_updateInstances hi
    obtain ⟨old', hold', hpb, -, -⟩ := instances_updateInstances hj
    exact h.pids i j old old' hold hold' (by rw [← hpa, ← hpb, hpid])
  · obtain ⟨old, hold, -, -, htmp⟩ := instances_updateInstances hid
    rw [htmp]
    split_ifs with hsel
    · -- the identity is that of the source, and so are the identifiers
      refine Or.inr (fun g => ?_)
      rw [h.pending n (List.mem_of_getElem? hk) g, hsame id hsel g]
    · refine (h.knows id old hold).imp ?_ (fun hknows => hknows)
      rintro ⟨m, hm, hsource⟩
      refine ⟨m, (hrest m hm).resolve_right ?_, hsource⟩
      rintro rfl
      rw [← hsource] at hold hsel
      exact hsel (ArmourDataHost.selects_label.mpr ⟨old, hold, hself old hold⟩)
  · obtain ⟨hlt, hne⟩ := h.sources m (hsub m hm)
    exact ⟨hlt, fun hc => hne (instances_updateInstances_eq.2.mp hc)⟩
  · exact h.unborn id (hid.imp_left instances_updateInstances_eq.2.mp)
  · obtain ⟨hlt, hnone⟩ := h.drops id r hr
    exact ⟨hlt, instances_updateInstances_eq.1.mpr hnone⟩
  · exact h.right.dropped id ⟨hid.1, instances_updateInstances_eq.1.mp hid.2.1, hid.2.2⟩

/-- An instance is removed, and the process of another one is still known. -/
theorem Kept.removed (h : Kept s) {id : Nat} (hpend : s.host.instances id ≠ none →
      s.launched id = true → ∀ n ∈ s.pending, n.source ≠ id)
    {sent : List (Nat × CPRequest)}
    (hsent : ∀ j r, (j, CPRequest.drop r) ∈ sent → (j, .drop r) ∈ s.sent ∨
      (j = id ∧ ∃ info, s.host.instances id = some (some info) ∧ asked r =
        info.tmpDpid.bind (·.findLabel serviceIdPattern) ∧ s.launched id = true))
    (hold : ∀ e ∈ s.sent, e ∈ sent)
    (hdrop : ∀ info, s.host.instances id = some (some info) → s.launched id = true →
      ∃ r, (id, .drop r) ∈ sent ∧ asked r = info.tmpDpid.bind (·.findLabel serviceIdPattern)) :
    Kept { s with host := s.host.disconnect id, sent := sent } := by
  have hthis : (s.host.disconnect id).instances id = none := by
    rw [ArmourDataHost.instances_disconnect, Function.update_self]
  have hother : ∀ j, j ≠ id → (s.host.disconnect id).instances j = s.host.instances j :=
    fun j hne => by rw [ArmourDataHost.instances_disconnect, Function.update_of_ne hne]
  have hkeep : ∀ j a, (s.host.disconnect id).instances j = some a →
      j ≠ id ∧ s.host.instances j = some a := by
    intro j a hj
    have hne : j ≠ id := by
      rintro rfl
      rw [hthis] at hj
      cases hj
    exact ⟨hne, (hother j hne).symm.trans hj⟩
  have hcount : (s.host.disconnect id).count = s.host.count := by
    unfold ArmourDataHost.disconnect
    split <;> rfl
  have hknows : ∀ info, s.host.instances id = some (some info) → s.launched id = true →
      Knows info.tmpDpid (s.assigned id) := by
    intro info hid hl
    refine (h.knows id info hid).resolve_left ?_
    rintro ⟨n, hn, hsource⟩
    exact hpend (fun hnone => by rw [hid] at hnone; cases hnone) hl n hn hsource
  refine ⟨?_, h.ids, h.one, fun j info hj => ?_, fun i j a b hi hj hpid => ?_, h.pending,
    fun j info hj => h.knows j info (hkeep j _ hj).2, fun n hn => ?_, fun j hj => ?_,
    fun j r hr => ?_, ⟨fun j hj g hg => ?_, fun j r g hr hg => ?_⟩⟩
  · have hon : (s.host.disconnect id).onboarded = s.host.onboarded := by
      unfold ArmourDataHost.disconnect
      split <;> rfl
    exact hon.trans h.onboarded
  · obtain ⟨hne, hj⟩ := hkeep j _ hj
    rw [← h.children j info hj]
    show (s.host.disconnect id).children info.pid = _
    unfold ArmourDataHost.disconnect
    split
    · next pid hawaited =>
      refine Function.update_of_ne (fun heq => hne ?_) ..
      unfold ArmourDataHost.awaited at hawaited
      split at hawaited
      · next old hid =>
        split at hawaited
        · cases hawaited
          exact h.pids j id info old hj hid heq
        · cases hawaited
      · cases hawaited
    · rfl
  · exact h.pids i j a b (hkeep i _ hi).2 (hkeep j _ hj).2 hpid
  · obtain ⟨hlt, hne⟩ := h.sources n hn
    refine ⟨hcount.symm ▸ hlt, fun hc => hne (hkeep _ _ hc).2⟩
  · rcases hj with hj | hle
    · exact h.unborn j (Or.inl (hkeep j _ hj).2)
    · exact h.unborn j (Or.inr (hcount ▸ hle))
  · rcases hsent j r hr with hr | ⟨rfl, info, hid, -, -⟩
    · obtain ⟨hlt, hnone⟩ := h.drops j r hr
      refine ⟨hcount.symm ▸ hlt, ?_⟩
      by_cases heq : j = id
      · rw [heq]
        exact hthis
      · exact (hother j heq).trans hnone
    · refine ⟨?_, hthis⟩
      show j < (s.host.disconnect j).count
      rw [hcount]
      by_contra hlt
      rw [s.host.fresh j (Nat.le_of_not_lt hlt)] at hid
      cases hid
  · by_cases heq : j = id
    · subst heq
      cases hid : s.host.instances j with
      | none =>
          obtain ⟨r, hr, hasked⟩ := h.right.dropped j ⟨hcount ▸ hj.1, hid, hj.2.2⟩ g hg
          exact ⟨r, hold _ hr, hasked⟩
      | some meta? =>
          cases meta? with
          | none =>
              have hnil : s.assigned j = [] := (h.unborn j (Or.inl hid)).1
              have hg : g ∈ s.assigned j := hg
              rw [hnil] at hg
              cases hg
          | some info =>
              obtain ⟨r, hr, hasked⟩ := hdrop info hid hj.2.2
              exact ⟨r, hr, hasked.trans ((hknows info hid hj.2.2 g).mpr hg)⟩
    · obtain ⟨r, hr, hasked⟩ := h.right.dropped j
        ⟨hcount ▸ hj.1, (hother j heq).symm.trans hj.2.1, hj.2.2⟩ g hg
      exact ⟨r, hold _ hr, hasked⟩
  · rcases hsent j r hr with hr | ⟨rfl, info, hid, hasked, hl⟩
    · exact h.right.own j r g hr hg
    · exact (hknows info hid hl g).mp (hasked.symm.trans hg)

theorem asked_drop {info : Meta} {host : Label} :
    asked ⟨dropService info, host, info.tmpDpid, ""⟩ =
      info.tmpDpid.bind (·.findLabel serviceIdPattern) := rfl

theorem Kept.disconnect (h : Kept s) {id : Nat} {waited : Bool}
    (hfits : Fits s (.disconnect id waited)) : Kept (s.disconnect id waited) := by
  have hawaited : ∀ info, s.host.instances id = some (some info) →
      s.host.awaited id = if s.launched id then some info.pid else none := by
    intro info hid
    unfold ArmourDataHost.awaited
    rw [hid, ← h.children id info hid]
  refine h.removed (fun hne hl => (hfits hl hne).2) (fun j r hr => ?_)
    (fun e he => List.mem_append_left _ he) (fun info hid hl => ?_)
  · rcases List.mem_append.mp hr with hr | hr
    · exact Or.inl hr
    · refine Or.inr ?_
      split at hr
      · next info pid hid haw =>
        split at hr
        · rw [List.mem_singleton] at hr
          cases hr
          refine ⟨rfl, info, hid, asked_drop, ?_⟩
          rw [hawaited info hid] at haw
          by_contra hl
          rw [if_neg hl] at haw
          cases haw
        · cases hr
      · cases hr
  · have hw := (hfits hl (fun hnone => by rw [hid] at hnone; cases hnone)).1
    refine ⟨⟨dropService info, s.host.label, info.tmpDpid, ""⟩, ?_, asked_drop⟩
    refine List.mem_append_right _ ?_
    rw [hid, hawaited info hid, if_pos hl, hw, h.onboarded]
    exact List.mem_singleton_self _

theorem Kept.step (h : Kept s) {e : Event} {s' : State} (hfits : Fits s e)
    (hstep : machine.step s e = some s') : Kept s' := by
  have hstep : s.step e = some s' := hstep
  cases e with
  | launch pid =>
      cases hstep
      exact h.launch hfits
  | connect =>
      cases hstep
      exact h.connect
  | register id pid label http tcp =>
      unfold State.step at hstep
      dsimp only at hstep
      split at hstep
      · next hid =>
        cases hstep
        exact h.register hid hfits
      · cases hstep
  | onboard id ipLabels answer policy =>
      unfold State.step at hstep
      dsimp only at hstep
      split at hstep
      · next hanswer =>
        split at hstep
        · next info _ hid =>
          cases hstep
          exact h.onboard hid hanswer (hfits info hid)
        · cases hstep
          exact h
      · cases hstep
  | globalId k =>
      obtain ⟨n, hk, rfl⟩ := Option.map_eq_some_iff.mp hstep
      exact h.globalId hk hfits
  | disconnect id waited =>
      cases hstep
      exact h.disconnect hfits

end

/-- In every state of a run whose steps all fit, all is right. -/
theorem dropped_of_fits {label : Label} {es : List Event} {t : State}
    (hfits : machine.Steps Fits (.start label) es)
    (hrun : machine.run (.start label) es = some t) : Right t :=
  (Machine.run_invariant (P := Kept) (fun _ _ _ h hf hs => h.step hf hs) (.start label) hfits
    hrun).right

/-- The identifier of the service `a` on the host `h`. -/
def serviceOf : Label := ⟨[.str "ServiceID", .str "h", .str "a"]⟩

/-- The proxy `a` is launched and registers. -/
def arrival : List Event := [.launch 7, .connect, .register 0 7 ⟨[.str "a"]⟩ "" ""]

/-- It is on-boarded, the host learns its identifier, and it disconnects. -/
def wholeLife : List Event :=
  arrival ++ [.onboard 0 [] (some serviceOf) true, .globalId 0, .disconnect 0 true]

theorem right_wholeLife : ∃ t, machine.run (.start ⟨[.str "h"]⟩) wholeLife = some t ∧
    t.sent.map Prod.fst = [0, 0, 0] ∧ t.assigned 0 = [serviceOf] ∧ t.Ended 0 ∧ Right t := by
  refine ⟨_, rfl, rfl, rfl, ⟨Nat.one_pos, rfl, rfl⟩, @dropped_of_fits _ wholeLife _ ?_ rfl⟩
  refine ⟨fun id info hid => (by cases hid), fun _ h => ?_⟩
  cases h
  refine ⟨trivial, fun _ h => ?_⟩
  cases h
  refine ⟨fun id info hid => ?_, fun _ h => ?_⟩
  · by_cases heq : id = 0
    · rw [heq] at hid
      cases hid
    · exact absurd hid (by simp [ArmourDataHost.connect, ArmourDataHost.addChild, State.start,
        ArmourDataHost.start, heq])
  cases h
  refine ⟨fun info hid => ⟨fun a b ha hb => ?_, fun _ l _ => ?_, fun hcase => ?_⟩, fun _ h => ?_⟩
  · have hone : ∀ c, (c ∈ [] ∨ some serviceOf = some c) → c = serviceOf := fun c hc =>
      hc.elim (fun hc => absurd hc List.not_mem_nil) (fun hc => (Option.some.inj hc).symm)
    exact (hone a ha).trans (hone b hb).symm
  · cases hid
    constructor
    · rintro (rfl | hl)
      · exact Or.inr rfl
      · exact absurd hl List.not_mem_nil
    · rintro (hl | hl)
      · exact absurd hl List.not_mem_nil
      · exact Or.inl (Option.some.inj hl).symm
  · rcases hcase with hcase | ⟨n, hn, -⟩
    · cases hcase
    · exact absurd hn List.not_mem_nil
  cases h
  refine ⟨fun n hn => ⟨fun info hid => ?_, fun id hsel g => ?_⟩, fun _ h => ?_⟩
  · cases hn
    cases hid
    decide
  · cases hn
    by_cases heq : id = 0
    · rw [heq]
    · exact absurd hsel (by simp [ArmourDataHost.selects, ArmourDataHost.registerProxy,
        ArmourDataHost.modifyMeta, ArmourDataHost.connect, ArmourDataHost.addChild, State.start,
        ArmourDataHost.start, State.onboard, heq])
  cases h
  exact ⟨fun _ _ => ⟨rfl, fun n hn => absurd hn List.not_mem_nil⟩, fun _ _ => trivial⟩

/-- The query for a policy fails after the proxy has been on-boarded, and its identifier is never
dropped: the request is about the label of the proxy. -/
theorem dropped_without_id : ∃ t r, machine.run (.start ⟨[.str "h"]⟩)
      (arrival ++ [.onboard 0 [] (some serviceOf) false, .disconnect 0 true]) = some t ∧
    t.assigned 0 = [serviceOf] ∧ t.pending = [] ∧ t.sent.getLast? = some (0, .drop r) ∧
    r.service = ⟨[.str "a"]⟩ ∧ asked r = none ∧ ¬ Right t := by
  refine ⟨_, _, rfl, rfl, rfl, rfl, rfl, rfl, fun h => ?_⟩
  obtain ⟨r, hr, hasked⟩ := h.dropped 0 ⟨Nat.one_pos, rfl, rfl⟩ serviceOf (List.mem_singleton_self _)
  have hlast : (0, CPRequest.drop r) ∈ [(0, CPRequest.drop
      ⟨⟨[.str "a"]⟩, ⟨[.str "h"]⟩, none, ""⟩)] := by
    rcases List.mem_append.mp hr with hr | hr
    · rcases List.mem_cons.mp hr with hr | hr
      · cases hr
      · cases List.mem_singleton.mp hr
    · exact hr
  cases List.mem_singleton.mp hlast
  cases hasked

end Armour.Host.LifeCycle
