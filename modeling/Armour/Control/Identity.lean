import Armour.Control.Interpret

/-! # Service identifiers

`ControlPlane::newID` makes the identifier of a service out of the label of its host and the
label of the service, and `ControlPlane::onboard` stores the service under the label it finds
below `ServiceID`.  Paths are joined without a mark between them, so two services share an
identifier exactly when one host label goes on where the other leaves off.
-/

namespace Armour.Lang.Label

/-- `p::**` matches the labels that go on below `p`. -/
theorem matchesWith_below (p : String) (l : Label) :
    (⟨[.str p, .recAny ""]⟩ : Label).matchesWith l = true ↔
      ∃ n ns, l.nodes = .str p :: n :: ns := by
  have hrec : ∀ (k : Nat) (ns : List Node) (m : Match),
      matchPairs (fun a b => !captureEq a b) ((List.replicate k (.recAny "")).zip ns) m =
        some m := by
    intro k
    induction k with
    | zero => intro ns m; rfl
    | succ k ih =>
        intro ns m
        cases ns with
        | nil => rfl
        | cons n ns => exact ih ns m
  obtain ⟨nodes⟩ := l
  rcases nodes with _ | ⟨a, _ | ⟨b, rest⟩⟩
  · simp [matchesWith, matchWith, matchWithBy, expand]
  · simp [matchesWith, matchWith, matchWithBy, expand]
  · have hlen : (2 + (rest.length + 1 + 1 - 2)) = rest.length + 1 + 1 := by omega
    have hexp : expand ⟨[.str p, .recAny ""]⟩ ⟨a :: b :: rest⟩ =
        .str p :: List.replicate (rest.length + 1) (.recAny "") := by
      simp [expand, List.replicate_succ]
    simp only [matchesWith, matchWith, matchWithBy, hexp, List.length_cons,
      List.length_replicate, if_true, List.zip_cons_cons, matchPairs]
    cases a with
    | str s =>
        by_cases hs : p = s
        · subst hs
          have hm : matchNode (.str p) (.str p) = .matched := by simp [matchNode]
          rw [hm]
          show (matchPairs _ _ _).isSome = true ↔ _
          rw [hrec (rest.length + 1) (b :: rest)]
          simp
        · have hm : matchNode (.str p) (.str s) = .mismatch := by simp [matchNode, hs]
          rw [hm]
          simp [Ne.symm hs]
    | any x => simp [matchNode]
    | recAny x => simp [matchNode]

end Armour.Lang.Label

namespace Armour.Control

open Armour.Lib Armour.Lang

/-- The identity that `ControlPlane::newID` makes. -/
def newIdentity (obd : OnboardingData) : ID :=
  let id : ID := { ID.empty with port := obd.port }
  ((id.addLabel (newID obd)).addLabel (obd.service.addPrefix "Service")).addLabel
    (obd.host.addPrefix "Host")

theorem sevalCall1_newID (st : State) (pf : Platform) (obd : OnboardingData) :
    sevalCall1 st pf "ControlPlane::newID" (.flat (.onboardingData obd)) =
      pure (.id (newIdentity obd)) := rfl

theorem pure_id_injective {a b : ID}
    (h : (pure (.id a) : CPEvalM CPLiteral) = pure (.id b)) : a = b := by
  have hlit := Comp.pure_injective h
  simpa [Literal.id, Literal.dp, TFlatLiteral.dp] using hlit

theorem mem_newIdentity (obd : OnboardingData) (l : Label) :
    l ∈ (newIdentity obd).labels.elems ↔
      l = obd.host.addPrefix "Host" ∨ l = obd.service.addPrefix "Service" ∨ l = newID obd := by
  simp [newIdentity, ID.addLabel, BTreeSet.mem_insert, ID.empty, EmptyCollection.emptyCollection,
    BTreeSet.empty]

/-- What `ControlPlane::onboard` stores a new identity under. -/
theorem findLabel_newIdentity (obd : OnboardingData) :
    (newIdentity obd).findLabel serviceIdPattern =
      if obd.host.nodes ++ obd.service.nodes = [] then none else some (newID obd) := by
  unfold ID.findLabel serviceIdPattern
  have hmatch : ∀ l ∈ (newIdentity obd).labels.elems,
      (⟨[.str "ServiceID", .recAny ""]⟩ : Label).matchesWith l = true →
        l = newID obd ∧ obd.host.nodes ++ obd.service.nodes ≠ [] := by
    intro l hl hm
    obtain ⟨n, ns, hn⟩ := (Label.matchesWith_below "ServiceID" l).mp hm
    rcases (mem_newIdentity obd l).mp hl with rfl | rfl | rfl
    · simp [Label.addPrefix] at hn
    · simp [Label.addPrefix] at hn
    · refine ⟨rfl, ?_⟩
      simp only [newID, Label.addPrefix, Label.concat, List.cons.injEq, true_and] at hn
      simp [hn]
  by_cases hempty : obd.host.nodes ++ obd.service.nodes = []
  · rw [if_pos hempty, List.find?_eq_none]
    intro l hl hm
    exact (hmatch l hl hm).2 hempty
  · rw [if_neg hempty]
    have hself : (⟨[.str "ServiceID", .recAny ""]⟩ : Label).matchesWith (newID obd) = true := by
      obtain ⟨n, ns, hn⟩ := List.exists_cons_of_ne_nil hempty
      exact (Label.matchesWith_below _ _).mpr ⟨n, ns, by
        simp [newID, Label.addPrefix, Label.concat, hn]⟩
    have hmem : newID obd ∈ (newIdentity obd).labels.elems :=
      (mem_newIdentity obd _).mpr (Or.inr (Or.inr rfl))
    cases hf : (newIdentity obd).labels.elems.find?
        (⟨[.str "ServiceID", .recAny ""]⟩ : Label).matchesWith with
    | none => exact absurd hself (List.find?_eq_none.mp hf _ hmem)
    | some l =>
        rw [(hmatch l (List.mem_of_find?_eq_some hf) (List.find?_some hf)).1]

/-- The host label of one service goes on into what is the service label of the other. -/
def Overlap (a b : OnboardingData) : Prop :=
  ∃ m : List Node, m ≠ [] ∧ b.host.nodes = a.host.nodes ++ m ∧
    a.service.nodes = m ++ b.service.nodes

theorem newID_eq_iff (a b : OnboardingData) :
    newID a = newID b ↔
      (a.host = b.host ∧ a.service = b.service) ∨ Overlap a b ∨ Overlap b a := by
  obtain ⟨⟨ha⟩, ⟨sa⟩, _, _, _, _⟩ := a
  obtain ⟨⟨hb⟩, ⟨sb⟩, _, _, _, _⟩ := b
  simp only [newID, Label.addPrefix, Label.concat, Label.mk.injEq, List.cons.injEq, true_and,
    Overlap]
  constructor
  · intro h
    rcases List.append_eq_append_iff.mp h with ⟨m, hm, hs⟩ | ⟨m, hm, hs⟩
    · by_cases hnil : m = []
      · subst hnil
        exact Or.inl ⟨by simpa using hm.symm, by simpa using hs⟩
      · exact Or.inr (Or.inl ⟨m, hnil, hm, hs⟩)
    · by_cases hnil : m = []
      · subst hnil
        exact Or.inl ⟨by simpa using hm, by simpa using hs.symm⟩
      · exact Or.inr (Or.inr ⟨m, hnil, hm, hs⟩)
  · rintro (⟨rfl, rfl⟩ | ⟨m, -, rfl, rfl⟩ | ⟨m, -, rfl, rfl⟩)
    · rfl
    · simp
    · simp

/-- Two services that cannot overlap do not; such are two of one host, and two whose host
labels are equally long. -/
theorem not_overlap_of_length {a b : OnboardingData}
    (h : b.host.nodes.length ≤ a.host.nodes.length) : ¬ Overlap a b := by
  rintro ⟨m, hne, hhost, -⟩
  have hlen := congrArg List.length hhost
  have hpos := List.length_pos_of_ne_nil hne
  rw [List.length_append] at hlen
  omega

theorem findLabel_newIdentity_eq_iff (a b : OnboardingData) :
    (newIdentity a).findLabel serviceIdPattern = (newIdentity b).findLabel serviceIdPattern ↔
      newID a = newID b := by
  have hid : newID a = newID b ↔
      a.host.nodes ++ a.service.nodes = b.host.nodes ++ b.service.nodes := by
    simp [newID, Label.addPrefix, Label.concat]
  rw [findLabel_newIdentity, findLabel_newIdentity, hid]
  by_cases ha : a.host.nodes ++ a.service.nodes = [] <;>
    by_cases hb : b.host.nodes ++ b.service.nodes = []
  · rw [if_pos ha, if_pos hb, ha, hb]
    simp
  · rw [if_pos ha, if_neg hb, ha]
    exact ⟨fun h => by simp at h, fun h => absurd h.symm hb⟩
  · rw [if_neg ha, if_pos hb, hb]
    exact ⟨fun h => by simp at h, fun h => absurd h ha⟩
  · rw [if_neg ha, if_neg hb, Option.some.injEq, hid]

/-- The identifiers under which two services are on-boarded tell their pairs of host and
service label apart, exactly when neither overlaps the other. -/
theorem onboarded_serviceId_unique (st : State) (pf : Platform) (a b : OnboardingData)
    (ida idb : ID)
    (ha : sevalCall1 st pf "ControlPlane::newID" (.flat (.onboardingData a)) = pure (.id ida))
    (hb : sevalCall1 st pf "ControlPlane::newID" (.flat (.onboardingData b)) = pure (.id idb)) :
    (ida.findLabel serviceIdPattern = idb.findLabel serviceIdPattern ↔
      (a.host = b.host ∧ a.service = b.service)) ↔ ¬ (Overlap a b ∨ Overlap b a) := by
  obtain rfl : newIdentity a = ida := pure_id_injective ha
  obtain rfl : newIdentity b = idb := pure_id_injective hb
  rw [findLabel_newIdentity_eq_iff, newID_eq_iff]
  have hdisjoint : a.host = b.host ∧ a.service = b.service → ¬ (Overlap a b ∨ Overlap b a) := by
    rintro ⟨hhost, -⟩ (hover | hover)
    · exact not_overlap_of_length (by rw [hhost]) hover
    · exact not_overlap_of_length (by rw [hhost]) hover
  constructor
  · intro h hover
    exact hdisjoint (h.mp (Or.inr hover)) hover
  · intro hover
    exact ⟨fun h => h.resolve_right hover, Or.inl⟩

/-- Host `a` with a service `b::c`, and host `a::b` with a service `c`. -/
def overlapping : OnboardingData × OnboardingData :=
  (⟨⟨[.str "a"]⟩, ⟨[.str "b", .str "c"]⟩, "", none, ∅, ∅⟩,
   ⟨⟨[.str "a", .str "b"]⟩, ⟨[.str "c"]⟩, "", none, ∅, ∅⟩)

theorem onboarded_serviceId_unique_overlapping :
    ((newIdentity overlapping.1).findLabel serviceIdPattern =
        (newIdentity overlapping.2).findLabel serviceIdPattern ↔
      (overlapping.1.host = overlapping.2.host ∧
        overlapping.1.service = overlapping.2.service)) ↔
      ¬ (Overlap overlapping.1 overlapping.2 ∨ Overlap overlapping.2 overlapping.1) :=
  onboarded_serviceId_unique .empty Platform.offline overlapping.1 overlapping.2 _ _
    (sevalCall1_newID _ _ _) (sevalCall1_newID _ _ _)

end Armour.Control
