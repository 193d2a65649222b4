import Armour.Lang.Captures
import Armour.Lib.Keys

/-! # Label equality and the order of labels

`impl PartialEq for Label` matches the two labels in both directions, while `Ord` is derived
from the nodes.  Two labels are `==` when they have the same texts at the same positions, and
matching each of them against such a label does not fail at a capture that repeats.
-/

namespace Armour.Lang

open Armour.Lib

namespace Label

/-- The number of nodes in the capture `x` after one more node of the pattern. -/
def collect (x : String) (k : Nat) : Node → Nat
  | .any y => if y = x then 1 else k
  | .recAny y => if y = x then k + 1 else k
  | .str _ => k

/-- The number of nodes in the capture `x` after the nodes `ps` of the pattern. -/
def collected (x : String) (ps : List Node) : Nat := ps.foldl (collect x) 0

/-- A named capture comes after nodes that collect at most one node for its name. -/
def SteadyAt (pre : List Node) (p : Node) : Prop :=
  ∀ x, p = .any x → x.isEmpty = false → collected x pre ≤ 1

/-- Where a capture repeats, what it meets is compared with a single node. -/
def Steady (l : Label) : Prop :=
  ∀ pre p post, l.nodes = pre ++ p :: post → SteadyAt pre p

/-- The texts of a label, and where it has captures and wildcards. -/
def shape (l : Label) : List (Option String) := l.nodes.map Node.getStr

/-! ## Labels of one shape -/

theorem collected_concat (x : String) (ps : List Node) (p : Node) :
    collected x (ps ++ [p]) = collect x (collected x ps) p := by
  rw [collected, List.foldl_append]
  rfl

/-- The captures after the nodes `pre` of the pattern, matched against a label of its shape. -/
structure Held (pre : List Node) (m : Match) : Prop where
  count : ∀ x, x.isEmpty = false → (m.value x).length = collected x pre
  wild : ∀ x, ∀ n ∈ m.value x, n.getStr = none
  filled : ∀ x l, m.get? x = some l → l.nodes ≠ []

theorem Match.value_insert (m : Match) (x v : String) (l : Label) :
    Match.value (m.insert x l) v = if v = x then l.nodes else m.value v := by
  rw [Match.value, BTreeMap.get?_insert]
  by_cases hv : v = x
  · rw [if_pos hv, if_pos hv, Option.elim_some]
  · rw [if_neg hv, if_neg hv, Match.value]

section

variable {pre ps ns : List Node} {p n : Node} {m₀ m : Match}

/-- A node that is kept in a capture. -/
theorem Held.insert (h : Held pre m₀) {x : String} {l : Label} (hne : l.nodes ≠ [])
    (hwild : ∀ n ∈ l.nodes, n.getStr = none)
    (hcount : ∀ y, y.isEmpty = false →
      collected y (pre ++ [p]) = if y = x then l.nodes.length else collected y pre) :
    Held (pre ++ [p]) (m₀.insert x l) := by
  refine ⟨fun y hy => ?_, fun y k hk => ?_, fun y l' hl' => ?_⟩
  · rw [hcount y hy, Match.value_insert]
    by_cases hyx : y = x
    · rw [if_pos hyx, if_pos hyx]
    · rw [if_neg hyx, if_neg hyx, h.count y hy]
  · rw [Match.value_insert] at hk
    split_ifs at hk
    · exact hwild k hk
    · exact h.wild y k hk
  · rw [BTreeMap.get?_insert] at hl'
    split_ifs at hl'
    · rw [← Option.some.inj hl']
      exact hne
    · exact h.filled y l' hl'

/-- A node that is not kept. -/
theorem Held.skip (h : Held pre m₀)
    (hcount : ∀ y, y.isEmpty = false → collected y (pre ++ [p]) = collected y pre) :
    Held (pre ++ [p]) m₀ :=
  ⟨fun y hy => (h.count y hy).trans (hcount y hy).symm, h.wild, h.filled⟩

/-- An earlier capture can be compared with one node when it is itself one node. -/
theorem Held.compares (h : Held pre m₀) {x : String} (hx : x.isEmpty = false)
    (hn : n.getStr = none) {other : Label} (hget : m₀.get? x = some other) :
    differ other ⟨[n]⟩ = false ↔ collected x pre ≤ 1 := by
  have hval := Match.value_of_get? hget
  have hcount := h.count x hx
  rw [hval] at hcount
  have hpos := List.length_pos_iff.mpr (h.filled x other hget)
  rw [differ, Bool.not_eq_false', beq_single]
  constructor
  · rintro ⟨k, hk, -⟩
    rw [← hcount, hk]
    exact Nat.le_refl 1
  · intro hle
    obtain ⟨k, hk⟩ := List.length_eq_one_iff.mp (by omega : other.nodes.length = 1)
    refine ⟨k, hk, ?_⟩
    rw [hn]
    exact h.wild x k (by rw [hval, hk]; exact List.mem_singleton_self k)

/-- The loop passes a node unless it is a capture that repeats more than one node. -/
theorem Held.step (h : Held pre m₀) (hpn : p.getStr = n.getStr) :
    (SteadyAt pre p → ∃ m₁, Held (pre ++ [p]) m₁ ∧
      ∀ rest, matchPairs differ ((p, n) :: rest) m₀ = matchPairs differ rest m₁) ∧
    (¬ SteadyAt pre p → ∀ rest, matchPairs differ ((p, n) :: rest) m₀ = none) := by
  cases p with
  | str s =>
      have hsteady : SteadyAt pre (.str s) := fun x hx => by cases hx
      refine ⟨fun _ => ⟨m₀, ?_, fun rest => ?_⟩, fun hf => absurd hsteady hf⟩
      · exact h.skip (fun y _ => collected_concat y pre _)
      · cases n with
        | str t =>
            obtain rfl : s = t := Option.some.inj hpn
            simp [matchPairs_cons, matchNode]
        | any y | recAny y => cases hpn
  | any x =>
      cases hx : x.isEmpty with
      | true =>
          have hsteady : SteadyAt pre (.any x) := by
            intro y hy he
            cases hy
            rw [hx] at he
            cases he
          refine ⟨fun _ => ⟨m₀, ?_, fun rest => matchPairs_anonymous_any hx n⟩,
            fun hf => absurd hsteady hf⟩
          refine h.skip (fun y hy => ?_)
          have hne : x ≠ y := fun e => by rw [e, hy] at hx; cases hx
          rw [collected_concat, collect, if_neg hne]
      | false =>
          have hsteady : SteadyAt pre (.any x) ↔ collected x pre ≤ 1 := by
            refine ⟨fun hs => hs x rfl hx, fun hle y hy _ => ?_⟩
            cases hy
            exact hle
          rw [hsteady]
          have hheld : Held (pre ++ [.any x]) (m₀.insert x ⟨[n]⟩) := by
            refine h.insert (List.cons_ne_nil _ _) ?_ (fun y _ => ?_)
            · intro k hk
              rw [List.mem_singleton.mp hk, ← hpn]
              rfl
            · rw [collected_concat, collect]
              by_cases hyx : y = x
              · rw [if_pos hyx, if_pos hyx.symm]
                rfl
              · rw [if_neg hyx, if_neg (fun e => hyx e.symm)]
          cases hget : m₀.get? x with
          | none =>
              have hzero : collected x pre = 0 := by
                rw [← h.count x hx, Match.value, hget]
                rfl
              refine ⟨fun _ => ⟨_, hheld, fun rest => ?_⟩, fun hf => absurd (by omega) hf⟩
              simp only [matchPairs_cons, matchNode, hx, hget, Bool.false_eq_true, if_false]
          | some other =>
              have hcmp := h.compares hx hpn.symm hget
              constructor
              · intro hle
                refine ⟨_, hheld, fun rest => ?_⟩
                simp only [matchPairs_cons, matchNode, hx, hget, hcmp.mpr hle, Bool.false_eq_true,
                  if_false]
              · intro hnle rest
                have hdiff : differ other ⟨[n]⟩ = true := by
                  rw [← Bool.not_eq_false]
                  exact fun hf => hnle (hcmp.mp hf)
                simp only [matchPairs_cons, matchNode, hx, hget, hdiff, Bool.false_eq_true,
                  if_false, if_true]
  | recAny x =>
      have hsteady : SteadyAt pre (.recAny x) := fun y hy => by cases hy
      refine ⟨fun _ => ?_, fun hf => absurd hsteady hf⟩
      cases hx : x.isEmpty with
      | true =>
          refine ⟨m₀, h.skip (fun y hy => ?_), fun rest => ?_⟩
          · have hne : x ≠ y := fun e => by rw [e, hy] at hx; cases hx
            rw [collected_concat, collect, if_neg hne]
          · simp only [matchPairs_cons, matchNode, hx, if_true]
      | false =>
          refine ⟨m₀.insert x ⟨m₀.value x ++ [n]⟩, ?_, fun rest => ?_⟩
          · refine h.insert (by simp) (fun k hk => ?_) (fun y hy => ?_)
            · rcases List.mem_append.mp hk with hk | hk
              · exact h.wild x k hk
              · rw [List.mem_singleton.mp hk, ← hpn]
                rfl
            · rw [collected_concat, collect]
              by_cases hyx : y = x
              · rw [if_pos hyx, if_pos hyx.symm, hyx, List.length_append, h.count x hx]
                rfl
              · rw [if_neg hyx, if_neg (fun e => hyx e.symm)]
          · simp only [matchPairs_cons, matchNode, hx, Bool.false_eq_true, if_false]
            cases hget : m₀.get? x with
            | none => simp [Match.value, hget]
            | some other => simp [Match.value, hget]

/-- Against a label of the same shape, the loop ends well when all captures are steady. -/
theorem Held.run (h : Held pre m₀) (hshape : ps.map Node.getStr = ns.map Node.getStr) :
    (matchPairs differ (ps.zip ns) m₀).isSome ↔
      ∀ a p b, ps = a ++ p :: b → SteadyAt (pre ++ a) p := by
  induction ps generalizing ns pre m₀ with
  | nil =>
      refine iff_of_true rfl (fun a p b hab => ?_)
      cases a <;> cases hab
  | cons p ps ih =>
      cases ns with
      | nil => cases hshape
      | cons n ns =>
          obtain ⟨hpn, hrest⟩ := List.cons.inj hshape
          obtain ⟨hgo, hstop⟩ := h.step hpn
          rw [List.zip_cons_cons]
          by_cases hs : SteadyAt pre p
          · obtain ⟨m₁, hm₁, heq⟩ := hgo hs
            rw [heq, ih hm₁ hrest]
            constructor
            · intro hall a q b hab
              cases a with
              | nil =>
                  cases hab
                  rwa [List.append_nil]
              | cons c a =>
                  cases hab
                  have hq := hall a q b rfl
                  rwa [List.append_assoc] at hq
            · intro hall a q b hab
              rw [List.append_assoc]
              exact hall (p :: a) q b (by rw [hab]; rfl)
          · rw [hstop hs]
            refine iff_of_false (fun hf => (nomatch hf)) (fun hall => hs ?_)
            have hp := hall [] p ps rfl
            rwa [List.append_nil] at hp

end

/-! ## Equality -/

theorem matchPairs_texts {d : Label → Label → Bool} {l : List (Node × Node)} {m : Match}
    (h : (matchPairs d l m).isSome) : ∀ q ∈ l, ∀ s, q.1 = .str s → q.2 = .str s := by
  induction l generalizing m with
  | nil => intro q hq; cases hq
  | cons q l ih =>
      obtain ⟨p, n⟩ := q
      have hhead : (matchNode p n = .mismatch → False) ∧ ∃ m', (matchPairs d l m').isSome := by
        simp only [matchPairs_cons] at h
        cases hp : matchNode p n with
        | mismatch =>
            rw [hp] at h
            cases h
        | matched =>
            rw [hp] at h
            exact ⟨nofun, m, h⟩
        | map x r =>
            rw [hp] at h
            refine ⟨by simp, m.insert x ⟨[r]⟩, ?_⟩
            cases hget : m.get? x with
            | none => simpa [hget] using h
            | some other =>
                simp only [hget] at h
                split_ifs at h
                · cases h
                · exact h
        | mapRec x r =>
            rw [hp] at h
            refine ⟨by simp, ?_⟩
            cases hget : m.get? x with
            | none => exact ⟨m.insert x ⟨[r]⟩, by simpa [hget] using h⟩
            | some other => exact ⟨m.insert x ⟨other.nodes ++ [r]⟩, by simpa [hget] using h⟩
      obtain ⟨hmatch, m', hrest⟩ := hhead
      refine List.forall_mem_cons.mpr ⟨fun s hs => ?_, ih hrest⟩
      obtain rfl : p = .str s := hs
      cases n with
      | str t =>
          by_cases hst : s = t
          · rw [hst]
          · exact absurd (by simp [matchNode, hst]) hmatch
      | any y | recAny y => exact absurd rfl hmatch

theorem length_le_expand (a b : Label) : a.nodes.length ≤ (a.expand b).length := by
  unfold expand
  split
  · rw [List.length_append]
    omega
  · exact Nat.le_refl _

/-- Between labels of one length, a recursive node at the end meets one node. -/
theorem matchWith_same_length {ps ns : List Node} (h : ps.length = ns.length) :
    matchWith ⟨ps⟩ ⟨ns⟩ = matchPairs differ (ps.zip ns) BTreeMap.empty := by
  have hexp : expand ⟨ps⟩ ⟨ns⟩ = ps := by
    unfold expand
    split
    · simp [h]
    · rfl
  rw [matchWith_eq, matchWithBy, hexp, if_pos h]

theorem map_getStr_eq {ps ns : List Node} (h : ps.length = ns.length)
    (hp : ∀ q ∈ ps.zip ns, ∀ s, q.1 = .str s → q.2 = .str s)
    (hn : ∀ q ∈ ns.zip ps, ∀ s, q.1 = .str s → q.2 = .str s) :
    ps.map Node.getStr = ns.map Node.getStr := by
  induction ps generalizing ns with
  | nil =>
      obtain rfl := List.eq_nil_of_length_eq_zero h.symm
      rfl
  | cons p ps ih =>
      cases ns with
      | nil => cases h
      | cons n ns =>
          rw [List.zip_cons_cons, List.forall_mem_cons] at hp hn
          have hhead : p.getStr = n.getStr := by
            cases p with
            | str s =>
                have hns : n = .str s := hp.1 s rfl
                rw [hns]
            | any x | recAny x =>
                cases n with
                | str t => exact absurd (hn.1 t rfl) (by simp)
                | any y | recAny y => rfl
          rw [List.map_cons, List.map_cons, hhead, ih (Nat.succ.inj h) hp.2 hn.2]

theorem held_empty : Held [] BTreeMap.empty := by
  refine ⟨fun _ _ => rfl, ?_, ?_⟩
  · intro x n hn
    cases hn
  · intro x l hl
    cases hl

theorem matchesWith_iff {a b : Label} (h : a.shape = b.shape) :
    a.matchesWith b = true ↔ a.Steady := by
  have hlen : a.nodes.length = b.nodes.length := by
    simpa [shape] using congrArg List.length h
  rw [matchesWith, matchWith_same_length hlen, held_empty.run h]
  rfl

/-- Equality of labels. -/
theorem beq_iff (a b : Label) :
    (a == b) = true ↔ a.shape = b.shape ∧ a.Steady ∧ b.Steady := by
  have hdef : (a == b) = (a.matchesWith b && b.matchesWith a) := rfl
  rw [hdef, Bool.and_eq_true]
  constructor
  · rintro ⟨hab, hba⟩
    have hle : ∀ {a b : Label}, a.matchesWith b = true → a.nodes.length ≤ b.nodes.length := by
      intro a b h
      rw [matchesWith, matchWith, matchWithBy] at h
      split_ifs at h with hlen
      · rw [← hlen]
        exact length_le_expand a b
      · cases h
    have hlen : a.nodes.length = b.nodes.length := Nat.le_antisymm (hle hab) (hle hba)
    have hshape : a.shape = b.shape := by
      have hab' := hab
      have hba' := hba
      rw [matchesWith, matchWith_same_length hlen] at hab'
      rw [matchesWith, matchWith_same_length hlen.symm] at hba'
      exact map_getStr_eq hlen (matchPairs_texts hab') (matchPairs_texts hba')
    exact ⟨hshape, (matchesWith_iff hshape).mp hab, (matchesWith_iff hshape.symm).mp hba⟩
  · rintro ⟨hshape, ha, hb⟩
    exact ⟨(matchesWith_iff hshape).mpr ha, (matchesWith_iff hshape.symm).mpr hb⟩

/-- Equality belongs to the order on labels that are steady and of which no two have one
shape. -/
theorem keyEquality_labels (S : Set Label) :
    KeyEquality S ↔
      (∀ a ∈ S, a.Steady) ∧ ∀ a ∈ S, ∀ b ∈ S, a.shape = b.shape → a = b := by
  rw [keyEquality_iff]
  constructor
  · intro h
    have hsteady : ∀ a ∈ S, a.Steady := fun a ha =>
      ((beq_iff a a).mp ((h a ha a ha).mpr rfl)).2.1
    refine ⟨hsteady, fun a ha b hb hshape => ?_⟩
    exact (h a ha b hb).mp ((beq_iff a b).mpr ⟨hshape, hsteady a ha, hsteady b hb⟩)
  · rintro ⟨hsteady, hone⟩ a ha b hb
    rw [beq_iff]
    constructor
    · exact fun hab => hone a ha b hb hab.1
    · rintro rfl
      exact ⟨rfl, hsteady a ha, hsteady a ha⟩

/-- `<x>::<<x>>::<x>` is not equal to itself, and `<a>` is equal to `<b>`, which the order puts
after it. -/
theorem beq_unlawful :
    ¬ KeyEquality (Set.univ : Set Label) ∧
      ∃ a b c : Label, [a, b, c].map display = ["<x>::<<x>>::<x>", "<a>", "<b>"] ∧
        (a == a) = false ∧ (b == c) = true ∧ compare b c = .lt ∧
        (BTreeSet.ofList [b, c]).elems = [b, c] := by
  have hrefl : ((⟨[.any "x", .recAny "x", .any "x"]⟩ : Label) ==
      ⟨[.any "x", .recAny "x", .any "x"]⟩) = false := by decide
  refine ⟨fun h => ?_, _, ⟨[.any "a"]⟩, ⟨[.any "b"]⟩, by decide, hrefl, by decide, by decide,
    by decide⟩
  rw [h.refl _ trivial] at hrefl
  cases hrefl

end Label

end Armour.Lang
