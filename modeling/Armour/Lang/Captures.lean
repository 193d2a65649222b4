import Armour.Lang.Labels

/-! # Captures of labels

What `match_with` of `armour-lang/src/labels.rs` collects.  A pattern whose only recursive node
is its last one becomes a label when its captures are replaced by nodes; the loop of
`match_with` looks for these nodes.
-/

namespace Armour.Lang

open Armour.Lib

namespace Label

/-- The nodes that a variable of the pattern stands for: one node, or all that are left for a
recursive node at the end. -/
def part : List Node → List Node → String → Option (List Node)
  | [.recAny x], ns, v => if (Node.recAny x).getAny = some v then some ns else none
  | p :: ps, n :: ns, v => if p.getAny = some v then some [n] else part ps ns v
  | _, _, _ => none

theorem expand_cons (p q n : Node) (ps ns : List Node) :
    expand ⟨p :: q :: ps⟩ ⟨n :: ns⟩ = p :: expand ⟨q :: ps⟩ ⟨ns⟩ := by
  unfold expand
  simp only [List.getLast?_cons_cons, List.length_cons, Nat.add_sub_add_right]
  split
  · rfl
  · rfl

/-- A node whose variable is new adds the node it meets. -/
theorem matchPairs_new {d : Label → Label → Bool} {p n : Node} {rest : List (Node × Node)}
    {m₀ m : Match} (hnew : ∀ v, p.getAny = some v → m₀.get? v = none)
    (h : matchPairs d ((p, n) :: rest) m₀ = some m) :
    matchPairs d rest (p.getAny.elim m₀ (fun v => m₀.insert v ⟨[n]⟩)) = some m := by
  cases p with
  | str x =>
      cases n with
      | str y =>
          simp only [matchPairs_cons, matchNode] at h
          by_cases hxy : x = y
          · simpa [hxy, Node.getAny] using h
          · simp [hxy] at h
      | any y | recAny y => cases h
  | any x =>
      simp only [matchPairs_cons, matchNode] at h
      by_cases hx : x.isEmpty = true
      · simpa [Node.getAny, hx] using h
      · have hv := hnew x (by simp [Node.getAny, hx])
        simpa [Node.getAny, hx, hv] using h
  | recAny x =>
      simp only [matchPairs_cons, matchNode] at h
      by_cases hx : x.isEmpty = true
      · simpa [Node.getAny, hx] using h
      · have hv := hnew x (by simp [Node.getAny, hx])
        simpa [Node.getAny, hx, hv] using h

/-- The assignment that a match is. -/
def Match.value (m : Match) (v : String) : List Node := (m.get? v).elim [] Label.nodes

theorem Match.value_of_get? {m : Match} {v : String} {l : Label} (h : m.get? v = some l) :
    m.value v = l.nodes := by
  rw [Match.value, h, Option.elim_some]

/-- Repeats of a named recursive node add what they meet to its capture. -/
theorem matchPairs_tail (d : Label → Label → Bool) {x : String} (hx : x.isEmpty = false)
    (ns : List Node) :
    ∀ {m₀ : Match} {n : Node}, ∃ m,
      matchPairs d ((List.replicate (ns.length + 1) (.recAny x)).zip (n :: ns)) m₀ = some m ∧
        m.get? x = some ⟨m₀.value x ++ n :: ns⟩ ∧ ∀ v, v ≠ x → m.get? v = m₀.get? v := by
  induction ns with
  | nil =>
      intro m₀ n
      refine ⟨m₀.insert x ⟨m₀.value x ++ [n]⟩, ?_, BTreeMap.get?_insert_self _ _ _,
        fun v hv => BTreeMap.get?_insert_ne _ _ hv⟩
      simp only [List.length_nil, List.replicate_succ, List.zip_cons_cons, matchPairs_cons,
        matchNode, hx, Bool.false_eq_true, if_false]
      cases hget : m₀.get? x with
      | none => simp [Match.value, hget]
      | some other => simp [Match.value, hget]
  | cons n' ns ih =>
      intro m₀ n
      obtain ⟨m, hrun, hself, hothers⟩ :=
        @ih (m₀.insert x ⟨m₀.value x ++ [n]⟩) n'
      refine ⟨m, ?_, ?_, fun v hv => ?_⟩
      · rw [List.length_cons, List.replicate_succ, List.zip_cons_cons]
        simp only [matchPairs_cons, matchNode, hx, Bool.false_eq_true, if_false]
        cases hget : m₀.get? x with
        | none => simpa [Match.value, hget] using hrun
        | some other => simpa [Match.value, hget] using hrun
      · rw [hself, Match.value_of_get? (BTreeMap.get?_insert_self _ _ _)]
        simp
      · rw [hothers v hv, BTreeMap.get?_insert_ne _ _ hv]

/-- Repeats of an anonymous recursive node collect nothing. -/
theorem matchPairs_anonymous (d : Label → Label → Bool) (x : String) (ns : List Node)
    (hx : x.isEmpty = true) (m₀ : Match) :
    matchPairs d ((List.replicate ns.length (.recAny x)).zip ns) m₀ = some m₀ := by
  induction ns with
  | nil => rfl
  | cons n ns ih =>
      simp only [List.length_cons, List.replicate_succ, List.zip_cons_cons, matchPairs_cons,
        matchNode, hx, if_true]
      exact ih

/-- A node that is not a recursive one at the end meets one node. -/
theorem expand_part {p : Node} {ps : List Node} (h : ps = [] → ∀ x, p ≠ .recAny x) (n : Node)
    (ns : List Node) :
    expand ⟨p :: ps⟩ ⟨n :: ns⟩ = p :: expand ⟨ps⟩ ⟨ns⟩ ∧
      ∀ v, part (p :: ps) (n :: ns) v = if p.getAny = some v then some [n] else part ps ns v := by
  cases ps with
  | nil =>
      cases p with
      | recAny x => exact absurd rfl (h rfl x)
      | any x | str x => exact ⟨rfl, fun v => rfl⟩
  | cons q ps =>
      refine ⟨expand_cons p q n ps ns, fun v => ?_⟩
      cases p <;> rfl

/-- The last node of a pattern when it is recursive. -/
theorem matchPairs_last {d : Label → Label → Bool} {x : String} {ns : List Node} {m₀ m : Match}
    (hnew : ∀ v, (Node.recAny x).getAny = some v → m₀.get? v = none)
    (hlen : (expand ⟨[.recAny x]⟩ ⟨ns⟩).length = ns.length)
    (h : matchPairs d ((expand ⟨[.recAny x]⟩ ⟨ns⟩).zip ns) m₀ = some m) :
    (∀ v, (Node.recAny x).getAny = some v →
      ∃ q, part [.recAny x] ns v = some q ∧ m.get? v = some ⟨q⟩) ∧
    ∀ v, (Node.recAny x).getAny ≠ some v → m.get? v = m₀.get? v := by
  cases ns with
  | nil => simp [expand] at hlen
  | cons n ns =>
      have hexp : expand ⟨[.recAny x]⟩ ⟨n :: ns⟩ = List.replicate (ns.length + 1) (.recAny x) := by
        simp [expand, List.replicate_succ]
      rw [hexp] at h
      cases hx : x.isEmpty with
      | true =>
          have hnone : (Node.recAny x).getAny = none := by simp [Node.getAny, hx]
          have hrun := matchPairs_anonymous d x (n :: ns) hx m₀
          rw [List.length_cons, h] at hrun
          cases hrun
          rw [hnone]
          refine ⟨?_, fun v _ => rfl⟩
          intro v hv
          cases hv
      | false =>
          have hsome : (Node.recAny x).getAny = some x := by simp [Node.getAny, hx]
          obtain ⟨m', hrun, hself, hothers⟩ := @matchPairs_tail d x hx ns m₀ n
          rw [h] at hrun
          cases hrun
          have hnone : m₀.value x = [] := by
            rw [Match.value, hnew x hsome, Option.elim_none]
          rw [hnone, List.nil_append] at hself
          rw [hsome]
          refine ⟨fun v hv => ?_, fun v hv => ?_⟩
          · cases hv
            exact ⟨n :: ns, by rw [part, hsome, if_pos rfl], hself⟩
          · exact hothers v (fun hvx => hv (congrArg some hvx.symm))

/-- The variables of a pattern that has none twice are bound to their parts, and nothing else
is bound. -/
theorem matchPairs_part {d : Label → Label → Bool} {ps : List Node} :
    ∀ {ns : List Node} {m₀ m : Match}, (ps.filterMap Node.getAny).Nodup →
      (∀ v ∈ ps.filterMap Node.getAny, m₀.get? v = none) →
      (expand ⟨ps⟩ ⟨ns⟩).length = ns.length →
      matchPairs d ((expand ⟨ps⟩ ⟨ns⟩).zip ns) m₀ = some m →
        (∀ v ∈ ps.filterMap Node.getAny, ∃ q, part ps ns v = some q ∧ m.get? v = some ⟨q⟩) ∧
        ∀ v, v ∉ ps.filterMap Node.getAny → m.get? v = m₀.get? v := by
  induction ps with
  | nil =>
      intro ns m₀ m _ _ hlen h
      obtain rfl : ns = [] := List.eq_nil_of_length_eq_zero hlen.symm
      cases h
      exact ⟨fun v hv => (nomatch hv), fun v _ => rfl⟩
  | cons p ps ih =>
      intro ns m₀ m hnd hnew hlen h
      have hvar : ∀ v, v ∈ (p :: ps).filterMap Node.getAny ↔
          p.getAny = some v ∨ v ∈ ps.filterMap Node.getAny := by
        intro v
        simp only [List.mem_filterMap, List.exists_mem_cons_iff]
      by_cases hlast : ps = [] ∧ ∃ x, p = .recAny x
      · obtain ⟨rfl, x, rfl⟩ := hlast
        have hone : ∀ v, v ∈ [Node.recAny x].filterMap Node.getAny ↔
            (Node.recAny x).getAny = some v := by
          intro v
          rw [hvar]
          simp
        obtain ⟨h1, h2⟩ := matchPairs_last (fun v hv => hnew v ((hone v).mpr hv)) hlen h
        exact ⟨fun v hv => h1 v ((hone v).mp hv), fun v hv => h2 v (fun e => hv ((hone v).mpr e))⟩
      · have hne : ps = [] → ∀ x, p ≠ .recAny x := fun hps x hp => hlast ⟨hps, x, hp⟩
        cases ns with
        | nil =>
            rw [List.length_nil, List.length_eq_zero_iff] at hlen
            unfold expand at hlen
            split at hlen <;> simp at hlen
        | cons n ns =>
            obtain ⟨hexp, hpart⟩ := expand_part hne n ns
            rw [hexp, List.zip_cons_cons] at h
            rw [hexp, List.length_cons, List.length_cons, Nat.add_right_cancel_iff] at hlen
            have hfirst : ∀ v, p.getAny = some v → v ∉ ps.filterMap Node.getAny := by
              intro v hv hmem
              rw [List.filterMap_cons_some hv, List.nodup_cons] at hnd
              exact hnd.1 hmem
            have hnd' : (ps.filterMap Node.getAny).Nodup :=
              hnd.sublist (List.Sublist.filterMap _ (List.sublist_cons_self p ps))
            have hnew' : ∀ v ∈ ps.filterMap Node.getAny,
                (p.getAny.elim m₀ (fun v => m₀.insert v ⟨[n]⟩)).get? v = none := by
              intro v hv
              cases hp : p.getAny with
              | none => exact hnew v ((hvar v).mpr (Or.inr hv))
              | some u =>
                  have huv : v ≠ u := fun e => hfirst u hp (e ▸ hv)
                  rw [Option.elim_some, BTreeMap.get?_insert_ne _ _ huv]
                  exact hnew v ((hvar v).mpr (Or.inr hv))
            obtain ⟨h1, h2⟩ := ih hnd' hnew' hlen
              (matchPairs_new (fun v hv => hnew v ((hvar v).mpr (Or.inl hv))) h)
            refine ⟨fun v hv => ?_, fun v hv => ?_⟩
            · rcases (hvar v).mp hv with hv | hv
              · refine ⟨[n], by rw [hpart, if_pos hv], ?_⟩
                rw [h2 v (hfirst v hv), hv, Option.elim_some, BTreeMap.get?_insert_self]
              · obtain ⟨q, hq, hm⟩ := h1 v hv
                exact ⟨q, by rw [hpart, if_neg (fun e => hfirst v e hv), hq], hm⟩
            · obtain ⟨hv1, hv2⟩ := not_or.mp ((hvar v).not.mp hv)
              rw [h2 v hv2]
              cases hp : p.getAny with
              | none => rfl
              | some u =>
                  have huv : v ≠ u := fun e => hv1 (e ▸ hp)
                  rw [Option.elim_some, BTreeMap.get?_insert_ne _ _ huv]

/-- A pattern that has no variable twice binds its variables, each to its part. -/
theorem matchWith_part {p l : Label} {m : Match} (hnd : p.vars.Nodup)
    (h : p.matchWith l = some m) :
    (∀ v ∈ p.vars, ∃ q, part p.nodes l.nodes v = some q ∧ m.get? v = some ⟨q⟩) ∧
      ∀ v, v ∉ p.vars → m.get? v = none := by
  unfold matchWith matchWithBy at h
  split_ifs at h with hlen
  exact matchPairs_part hnd (fun v _ => rfl) hlen h

/-! ## What matching is for -/

/-- The nodes that a node of a pattern can stand for when `σ` says what the captures are. -/
def Fits (σ : String → List Node) : Node → List Node → Prop
  | .str s, ns => ns = [.str s]
  | .any x, ns => ∃ n, ns = [n] ∧ (x.isEmpty = false → σ x = [n])
  | .recAny x, ns => ns ≠ [] ∧ (x.isEmpty = false → σ x = ns)

/-- The pattern becomes `ns` when its nodes are replaced. -/
def Becomes (σ : String → List Node) (ps ns : List Node) : Prop :=
  ∃ parts, List.Forall₂ (Fits σ) ps parts ∧ parts.flatten = ns

/-- No node is recursive. -/
def Plain (ps : List Node) : Prop := ∀ x, .recAny x ∉ ps

/-- "can only be define at the end of a pattern". -/
def RecursiveAtEnd (p : Label) : Prop := Plain p.nodes.dropLast

/-- A label without captures and wildcards. -/
def Concrete (l : Label) : Prop := ∀ n ∈ l.nodes, ∃ s, n = .str s

/-- The match holds what `σ` says of the variables, and nothing else. -/
def Match.Assigns (m : Match) (vars : List String) (σ : String → List Node) : Prop :=
  ∀ v, m.get? v = if v ∈ vars then some ⟨σ v⟩ else none

/-- `match_with` finds the assignment under which the pattern becomes the label. -/
structure Correct (p l : Label) : Prop where
  succeeds : (p.matchWith l).isSome ↔ ∃ σ, Becomes σ p.nodes l.nodes
  returns : ∀ m σ, p.matchWith l = some m → Becomes σ p.nodes l.nodes → m.Assigns p.vars σ

section

variable {σ : String → List Node} {p n : Node} {ps ns : List Node}

@[simp] theorem becomes_nil : Becomes σ [] ns ↔ ns = [] := by
  constructor
  · rintro ⟨parts, hfits, rfl⟩
    cases hfits
    rfl
  · rintro rfl
    exact ⟨[], .nil, rfl⟩

theorem becomes_cons :
    Becomes σ (p :: ps) ns ↔ ∃ a b, Fits σ p a ∧ Becomes σ ps b ∧ a ++ b = ns := by
  constructor
  · rintro ⟨parts, hfits, rfl⟩
    cases hfits with
    | cons ha hb => exact ⟨_, _, ha, ⟨_, hb, rfl⟩, rfl⟩
  · rintro ⟨a, b, ha, ⟨parts, hb, rfl⟩, rfl⟩
    exact ⟨a :: parts, .cons ha hb, rfl⟩

theorem becomes_append {qs : List Node} :
    Becomes σ (ps ++ qs) ns ↔ ∃ a b, Becomes σ ps a ∧ Becomes σ qs b ∧ a ++ b = ns := by
  induction ps generalizing ns with
  | nil => simp
  | cons p ps ih =>
      rw [List.cons_append, becomes_cons]
      constructor
      · rintro ⟨a, b, ha, hb, rfl⟩
        obtain ⟨c, d, hc, hd, rfl⟩ := ih.mp hb
        exact ⟨a ++ c, d, becomes_cons.mpr ⟨a, c, ha, hc, rfl⟩, hd, by rw [List.append_assoc]⟩
      · rintro ⟨a, b, ha, hb, rfl⟩
        obtain ⟨c, d, hc, hd, rfl⟩ := becomes_cons.mp ha
        exact ⟨c, d ++ b, hc, ih.mpr ⟨d, b, hd, hb, rfl⟩, by rw [List.append_assoc]⟩

theorem becomes_single : Becomes σ [p] ns ↔ Fits σ p ns := by
  rw [becomes_cons]
  constructor
  · rintro ⟨a, b, ha, hb, rfl⟩
    rw [becomes_nil.mp hb, List.append_nil]
    exact ha
  · intro h
    exact ⟨ns, [], h, becomes_nil.mpr rfl, by rw [List.append_nil]⟩

/-- A node that is not recursive stands for one node. -/
theorem Fits.single (h : Fits σ p ns) (hp : ∀ x, p ≠ .recAny x) : ∃ n, ns = [n] := by
  cases p with
  | str s => exact ⟨_, h⟩
  | any x =>
      obtain ⟨n, rfl, -⟩ := h
      exact ⟨n, rfl⟩
  | recAny x => exact absurd rfl (hp x)

theorem Plain.of_cons (h : Plain (p :: ps)) : (∀ x, p ≠ .recAny x) ∧ Plain ps := by
  refine ⟨fun x hx => h x (by rw [hx]; exact List.mem_cons_self), fun x hx => ?_⟩
  exact h x (List.mem_cons_of_mem _ hx)

theorem becomes_cons_plain (hp : ∀ x, p ≠ .recAny x) :
    Becomes σ (p :: ps) (n :: ns) ↔ Fits σ p [n] ∧ Becomes σ ps ns := by
  rw [becomes_cons]
  constructor
  · rintro ⟨a, b, ha, hb, hab⟩
    obtain ⟨m, rfl⟩ := ha.single hp
    rw [List.cons_append, List.nil_append] at hab
    cases hab
    exact ⟨ha, hb⟩
  · rintro ⟨ha, hb⟩
    exact ⟨[n], ns, ha, hb, rfl⟩

theorem Becomes.length (h : Becomes σ ps ns) (hps : Plain ps) : ns.length = ps.length := by
  induction ps generalizing ns with
  | nil => rw [becomes_nil.mp h]
  | cons p ps ih =>
      obtain ⟨hp, hps⟩ := hps.of_cons
      obtain ⟨a, b, ha, hb, rfl⟩ := becomes_cons.mp h
      obtain ⟨n, rfl⟩ := ha.single hp
      rw [List.cons_append, List.nil_append, List.length_cons, List.length_cons, ih hb hps]

end

/-! ## The loop on concrete labels -/

theorem matchPairs_append (d : Label → Label → Bool) (l l' : List (Node × Node)) (m : Match) :
    matchPairs d (l ++ l') m = (matchPairs d l m).bind (matchPairs d l') := by
  induction l generalizing m with
  | nil => rfl
  | cons q l ih =>
      obtain ⟨p, n⟩ := q
      simp only [List.cons_append, matchPairs_cons]
      cases matchNode p n with
      | mismatch => rfl
      | matched => exact ih m
      | map x r =>
          dsimp only
          cases m.get? x with
          | none => exact ih _
          | some other =>
              dsimp only
              split_ifs
              · rfl
              · exact ih _
      | mapRec x r =>
          dsimp only
          cases m.get? x with
          | none => exact ih _
          | some other => exact ih _

/-- A single node matches another one unless it is another text. -/
theorem matchWithBy_single (d : Label → Label → Bool) (n r : Node) :
    (matchWithBy d ⟨[n]⟩ ⟨[r]⟩).isSome ↔ ∀ s, n = .str s → r = .str s := by
  cases n with
  | str s =>
      cases r with
      | str t =>
          by_cases hst : s = t
          · simp [matchWithBy, expand, matchPairs_cons, matchNode, hst]
          · have hts : t ≠ s := fun h => hst h.symm
            simp [matchWithBy, expand, matchPairs_cons, matchNode, hst, hts]
      | any y | recAny y => simp [matchWithBy, expand, matchPairs_cons, matchNode]
  | any x | recAny x =>
      cases hx : x.isEmpty <;> simp [matchWithBy, expand, matchPairs_cons, matchNode, hx]

/-- A capture equals a single node when it is one node, and both are the same text or both are
no texts. -/
theorem beq_single (l : Label) (r : Node) :
    Label.beq l ⟨[r]⟩ = true ↔ ∃ n, l.nodes = [n] ∧ n.getStr = r.getStr := by
  obtain ⟨ns⟩ := l
  rw [← captureEq_eq_beq, captureEq]
  match ns with
  | [] => simp [matchWithBy, expand]
  | [n] =>
      rw [Bool.and_eq_true, matchWithBy_single, matchWithBy_single]
      cases n <;> cases r <;> simp only [Node.getStr, Node.str.injEq, reduceCtorEq] <;> grind
  | n :: n' :: rest =>
      have hlen : (expand ⟨n :: n' :: rest⟩ ⟨[r]⟩).length ≠ 1 := by
        unfold expand
        split <;> simp
      simp [matchWithBy, hlen]

/-- How `match_with` compares two captures of one name. -/
abbrev differ (a b : Label) : Bool := !Label.beq a b

/-- Every capture is one text. -/
def Match.Single (m : Match) : Prop := ∀ v l, m.get? v = some l → ∃ s, l = ⟨[.str s]⟩

/-- What the match holds is what `σ` says. -/
def Match.Holds (m : Match) (σ : String → List Node) : Prop :=
  ∀ v l, m.get? v = some l → l = ⟨σ v⟩

theorem Match.single_empty : Match.Single BTreeMap.empty := by
  intro v l hl
  cases hl

theorem Match.single_insert {m : Match} (hm : m.Single) (x s : String) :
    Match.Single (m.insert x ⟨[.str s]⟩) := by
  intro v l hl
  rw [BTreeMap.get?_insert] at hl
  split_ifs at hl
  · exact ⟨s, (Option.some.inj hl).symm⟩
  · exact hm v l hl

section

variable {m₀ m : Match} {rest : List (Node × Node)} {x s : String}

/-- The loop goes on at a capture when an earlier one of that name is the same node. -/
theorem matchPairs_any (hx : x.isEmpty = false) (hm : m₀.Single) :
    matchPairs differ ((.any x, .str s) :: rest) m₀ = some m ↔
      (∀ l, m₀.get? x = some l → l = ⟨[.str s]⟩) ∧
        matchPairs differ rest (m₀.insert x ⟨[.str s]⟩) = some m := by
  simp only [matchPairs_cons, matchNode, hx, Bool.false_eq_true, if_false]
  cases hget : m₀.get? x with
  | none => simp
  | some other =>
      obtain ⟨t, rfl⟩ := hm x other hget
      have heq : Label.beq ⟨[.str t]⟩ ⟨[.str s]⟩ = true ↔ t = s := by
        rw [beq_single]
        simp [Node.getStr]
      cases hc : Label.beq ⟨[.str t]⟩ ⟨[.str s]⟩ with
      | true =>
          have hts : t = s := heq.mp hc
          subst hts
          simp [differ, hc]
      | false =>
          have hts : t ≠ s := fun h => by simp [heq.mpr h] at hc
          simp [differ, hc, hts]

theorem matchPairs_anonymous_any (hx : x.isEmpty = true) (n : Node) :
    matchPairs differ ((.any x, n) :: rest) m₀ = matchPairs differ rest m₀ := by
  simp only [matchPairs_cons, matchNode, hx, if_true]

theorem matchPairs_str (t : String) :
    matchPairs differ ((.str t, .str s) :: rest) m₀ = some m ↔
      t = s ∧ matchPairs differ rest m₀ = some m := by
  simp only [matchPairs_cons, matchNode]
  by_cases hts : t = s
  · simp [hts]
  · simp [hts]

end

section

variable {σ : String → List Node} {ps : List Node}

/-- Where an assignment exists, the loop finds it. -/
theorem matchPairs_complete :
    ∀ {ns : List Node} {m₀ : Match}, Plain ps → Concrete ⟨ns⟩ → m₀.Single → m₀.Holds σ →
      Becomes σ ps ns → ∃ m, matchPairs differ (ps.zip ns) m₀ = some m ∧ m.Single ∧
        m.Holds σ ∧ ∀ v, (m.get? v).isSome ↔ (m₀.get? v).isSome ∨ v ∈ ps.filterMap Node.getAny := by
  induction ps with
  | nil =>
      intro ns m₀ _ _ hm hσ _
      exact ⟨m₀, rfl, hm, hσ, by simp⟩
  | cons p ps ih =>
      intro ns m₀ hps hns hm hσ hbec
      obtain ⟨hp, hps'⟩ := hps.of_cons
      have hlen := hbec.length hps
      cases ns with
      | nil => cases hlen
      | cons n ns =>
          obtain ⟨hfit, hrest⟩ := (becomes_cons_plain hp).mp hbec
          have hns' : Concrete ⟨ns⟩ := fun k hk => hns k (List.mem_cons_of_mem _ hk)
          obtain ⟨s, rfl⟩ := hns n List.mem_cons_self
          rw [List.zip_cons_cons]
          cases p with
          | recAny x => exact absurd rfl (hp x)
          | str t =>
              obtain ⟨m, hrun, hm', hσ', hdom⟩ := ih hps' hns' hm hσ hrest
              have hts : t = s := by simpa [Fits, eq_comm] using hfit
              exact ⟨m, (matchPairs_str t).mpr ⟨hts, hrun⟩, hm', hσ', hdom⟩
          | any x =>
              cases hx : x.isEmpty with
              | true =>
                  obtain ⟨m, hrun, hm', hσ', hdom⟩ := ih hps' hns' hm hσ hrest
                  refine ⟨m, by rw [matchPairs_anonymous_any hx, hrun], hm', hσ', fun v => ?_⟩
                  have hnone : (Node.any x).getAny = none := by simp [Node.getAny, hx]
                  rw [List.filterMap_cons_none hnone]
                  exact hdom v
              | false =>
                  have hval : σ x = [.str s] := by
                    obtain ⟨k, hk, hv⟩ := hfit
                    cases hk
                    exact hv hx
                  have hσ₁ : Match.Holds (m₀.insert x ⟨[.str s]⟩) σ := by
                    intro v l hl
                    rw [BTreeMap.get?_insert] at hl
                    split_ifs at hl with hvx
                    · rw [← Option.some.inj hl, hvx, hval]
                    · exact hσ v l hl
                  obtain ⟨m, hrun, hm', hσ', hdom⟩ :=
                    ih hps' hns' (Match.single_insert hm x s) hσ₁ hrest
                  refine ⟨m, (matchPairs_any hx hm).mpr ⟨fun l hl => ?_, hrun⟩, hm', hσ',
                    fun v => ?_⟩
                  · rw [hσ x l hl, hval]
                  · have hsome : (Node.any x).getAny = some x := by simp [Node.getAny, hx]
                    rw [List.filterMap_cons_some hsome, hdom v, BTreeMap.get?_insert,
                      List.mem_cons]
                    by_cases hvx : v = x
                    · simp [hvx]
                    · simp [hvx]

/-- What the loop finds is an assignment. -/
theorem matchPairs_sound :
    ∀ {ns : List Node} {m₀ m : Match}, Plain ps → Concrete ⟨ns⟩ → ns.length = ps.length →
      m₀.Single → matchPairs differ (ps.zip ns) m₀ = some m →
        m.Single ∧ (∀ v l, m₀.get? v = some l → m.get? v = some l) ∧
          Becomes m.value ps ns := by
  induction ps with
  | nil =>
      intro ns m₀ m _ _ hlen hm h
      obtain rfl := List.eq_nil_of_length_eq_zero hlen
      cases h
      exact ⟨hm, fun v l hl => hl, becomes_nil.mpr rfl⟩
  | cons p ps ih =>
      intro ns m₀ m hps hns hlen hm h
      obtain ⟨hp, hps'⟩ := hps.of_cons
      cases ns with
      | nil => cases hlen
      | cons n ns =>
          have hns' : Concrete ⟨ns⟩ := fun k hk => hns k (List.mem_cons_of_mem _ hk)
          have hlen' : ns.length = ps.length := Nat.succ.inj hlen
          obtain ⟨s, rfl⟩ := hns n List.mem_cons_self
          rw [List.zip_cons_cons] at h
          rw [becomes_cons_plain hp]
          cases p with
          | recAny x => exact absurd rfl (hp x)
          | str t =>
              obtain ⟨rfl, hrun⟩ := (matchPairs_str t).mp h
              obtain ⟨hm', hle, hbec⟩ := ih hps' hns' hlen' hm hrun
              exact ⟨hm', hle, rfl, hbec⟩
          | any x =>
              cases hx : x.isEmpty with
              | true =>
                  rw [matchPairs_anonymous_any hx] at h
                  obtain ⟨hm', hle, hbec⟩ := ih hps' hns' hlen' hm h
                  exact ⟨hm', hle, ⟨_, rfl, fun hf => by rw [hx] at hf; cases hf⟩, hbec⟩
              | false =>
                  obtain ⟨hsame, h⟩ := (matchPairs_any hx hm).mp h
                  obtain ⟨hm', hle, hbec⟩ :=
                    ih hps' hns' hlen' (Match.single_insert hm x s) h
                  have hget := hle x _ (BTreeMap.get?_insert_self _ _ _)
                  refine ⟨hm', fun v l hl => ?_, ⟨_, rfl, fun _ => ?_⟩, hbec⟩
                  · by_cases hvx : v = x
                    · rw [hvx] at hl ⊢
                      rw [hsame l hl, hget]
                    · exact hle v l (by rw [BTreeMap.get?_insert_ne _ _ hvx, hl])
                  · exact Match.value_of_get? hget

end

/-! ## A recursive node at the end -/

/-- A pattern without recursive nodes is compared node by node. -/
theorem matchWith_plain {ps ns : List Node} (hps : Plain ps) :
    matchWith ⟨ps⟩ ⟨ns⟩ =
      if ps.length = ns.length then matchPairs differ (ps.zip ns) BTreeMap.empty else none := by
  have hexp : expand ⟨ps⟩ ⟨ns⟩ = ps := by
    unfold expand
    split
    · rename_i y hy
      exact absurd (List.mem_of_getLast? hy) (hps y)
    · rfl
  rw [matchWith_eq, matchWithBy, hexp]

/-- A recursive node at the end is repeated up to the end of the label. -/
theorem matchWith_recAny (ps a : List Node) (x : String) (n : Node) (ns : List Node)
    (hlen : a.length = ps.length) :
    matchWith ⟨ps ++ [.recAny x]⟩ ⟨a ++ n :: ns⟩ =
      (matchPairs differ (ps.zip a) BTreeMap.empty).bind
        (matchPairs differ ((List.replicate (ns.length + 1) (.recAny x)).zip (n :: ns))) := by
  have hexp : expand ⟨ps ++ [.recAny x]⟩ ⟨a ++ n :: ns⟩ =
      ps ++ List.replicate (ns.length + 1) (.recAny x) := by
    have hcount : (a ++ n :: ns).length - (ps ++ [Node.recAny x]).length = ns.length := by
      simp only [List.length_append, List.length_cons, List.length_nil]
      omega
    simp only [expand, List.getLast?_append, List.getLast?_singleton, Option.some_or, hcount,
      List.append_assoc, List.replicate_succ, List.singleton_append]
  have hlens : (ps ++ List.replicate (ns.length + 1) (Node.recAny x)).length =
      (a ++ n :: ns).length := by
    simp only [List.length_append, List.length_replicate, List.length_cons]
    omega
  rw [matchWith_eq, matchWithBy, hexp, if_pos hlens, List.zip_append hlen.symm, matchPairs_append]

/-- The recursive node at the end needs a node. -/
theorem matchWith_recAny_short {ps ns : List Node} {x : String} (h : ns.length ≤ ps.length) :
    matchWith ⟨ps ++ [.recAny x]⟩ ⟨ns⟩ = none := by
  have hexp : (expand ⟨ps ++ [.recAny x]⟩ ⟨ns⟩).length ≠ ns.length := by
    simp only [expand, List.getLast?_append, List.getLast?_singleton, Option.some_or,
      List.length_append, List.length_replicate, List.length_cons, List.length_nil]
    omega
  rw [matchWith_eq, matchWithBy, if_neg hexp]

/-! ## Matching is correct unless the last capture repeats -/

section

variable {σ τ : String → List Node} {ps ns : List Node}

theorem becomes_congr (h : ∀ v ∈ ps.filterMap Node.getAny, σ v = τ v) (hb : Becomes σ ps ns) :
    Becomes τ ps ns := by
  have hfits : ∀ p ∈ ps, ∀ a, Fits σ p a → Fits τ p a := by
    intro p hp a ha
    cases p with
    | str s => exact ha
    | any x =>
        obtain ⟨n, rfl, hx⟩ := ha
        refine ⟨n, rfl, fun he => ?_⟩
        rw [← h x (List.mem_filterMap.mpr ⟨_, hp, by simp [Node.getAny, he]⟩), hx he]
    | recAny x =>
        refine ⟨ha.1, fun he => ?_⟩
        rw [← h x (List.mem_filterMap.mpr ⟨_, hp, by simp [Node.getAny, he]⟩), ha.2 he]
  obtain ⟨parts, hparts, rfl⟩ := hb
  refine ⟨parts, ?_, rfl⟩
  clear h
  induction hparts with
  | nil => exact .nil
  | cons ha hrest ih =>
      refine .cons (hfits _ List.mem_cons_self _ ha) (ih (fun p hp => ?_))
      exact hfits p (List.mem_cons_of_mem _ hp)

theorem Match.Holds.assigns {m : Match} {vars : List String} (h : m.Holds σ)
    (hdom : ∀ v, (m.get? v).isSome ↔ v ∈ vars) : m.Assigns vars σ := by
  intro v
  cases hget : m.get? v with
  | none =>
      have hv : v ∉ vars := fun hv => by simpa [hget] using (hdom v).mpr hv
      rw [if_neg hv]
  | some l => rw [if_pos ((hdom v).mp (by rw [hget]; rfl)), h v l hget]

/-- The assignment under which nodes that are not recursive become `ns`. -/
theorem find_plain (hps : Plain ps) (hns : Concrete ⟨ns⟩) (hb : Becomes σ ps ns) :
    ∃ m, matchPairs differ (ps.zip ns) BTreeMap.empty = some m ∧
      m.Assigns (ps.filterMap Node.getAny) σ := by
  have hholds : Match.Holds BTreeMap.empty σ := by
    intro v l hl
    cases hl
  obtain ⟨m, hrun, _, hσ, hdom⟩ := matchPairs_complete hps hns Match.single_empty hholds hb
  exact ⟨m, hrun, hσ.assigns (by simpa using hdom)⟩

theorem becomes_of_find (hps : Plain ps) (hns : Concrete ⟨ns⟩) (hlen : ns.length = ps.length)
    {m : Match} (h : matchPairs differ (ps.zip ns) BTreeMap.empty = some m) :
    Becomes m.value ps ns :=
  (matchPairs_sound hps hns hlen Match.single_empty h).2.2

theorem correct_plain (hps : Plain ps) (hns : Concrete ⟨ns⟩) : Correct ⟨ps⟩ ⟨ns⟩ := by
  constructor
  · rw [matchWith_plain hps, Option.isSome_iff_exists]
    constructor
    · rintro ⟨m, hm⟩
      split_ifs at hm with hlen
      exact ⟨m.value, becomes_of_find hps hns hlen.symm hm⟩
    · rintro ⟨σ, hσ⟩
      obtain ⟨m, hm, -⟩ := find_plain hps hns hσ
      rw [if_pos (hσ.length hps).symm]
      exact ⟨m, hm⟩
  · intro m σ hm hσ
    rw [matchWith_plain hps, if_pos (hσ.length hps).symm] at hm
    obtain ⟨m', hm', hassign⟩ := find_plain hps hns hσ
    rw [hm] at hm'
    cases hm'
    exact hassign

section

variable {x : String} {a rest : List Node} {n : Node}

theorem becomes_recAny (hps : Plain ps) (hlen : a.length = ps.length) :
    Becomes σ (ps ++ [.recAny x]) (a ++ n :: rest) ↔
      Becomes σ ps a ∧ (x.isEmpty = false → σ x = n :: rest) := by
  rw [becomes_append]
  constructor
  · rintro ⟨b, c, hb, hc, hbc⟩
    obtain ⟨rfl, rfl⟩ := List.append_inj hbc ((hb.length hps).trans hlen.symm)
    exact ⟨hb, (becomes_single.mp hc).2⟩
  · rintro ⟨hb, hx⟩
    exact ⟨a, n :: rest, hb, becomes_single.mpr ⟨List.cons_ne_nil _ _, hx⟩, rfl⟩

/-- Once the nodes before it match, a recursive node takes all that is left. -/
theorem find_recAny (hps : Plain ps) (ha : Concrete ⟨a⟩) (hb : Becomes σ ps a) :
    ∃ m₁ m, m₁.Assigns (ps.filterMap Node.getAny) σ ∧
      matchWith ⟨ps ++ [.recAny x]⟩ ⟨a ++ n :: rest⟩ = some m ∧
      (x.isEmpty = true → m = m₁) ∧
      (x.isEmpty = false → m.get? x = some ⟨m₁.value x ++ n :: rest⟩ ∧
        ∀ v, v ≠ x → m.get? v = m₁.get? v) := by
  obtain ⟨m₁, hrun, hassign⟩ := find_plain hps ha hb
  have hmatch := matchWith_recAny ps a x n rest (hb.length hps)
  rw [hrun, Option.bind_some] at hmatch
  cases hx : x.isEmpty with
  | true =>
      refine ⟨m₁, m₁, hassign, ?_, fun _ => rfl, fun h => (nomatch h)⟩
      rw [hmatch]
      exact matchPairs_anonymous differ x (n :: rest) hx m₁
  | false =>
      obtain ⟨m, htail, hself, hothers⟩ := @matchPairs_tail differ x hx rest m₁ n
      exact ⟨m₁, m, hassign, hmatch.trans htail, fun h => (nomatch h),
        fun _ => ⟨hself, hothers⟩⟩

theorem becomes_of_find_recAny (hps : Plain ps) (ha : Concrete ⟨a⟩)
    (hlen : a.length = ps.length) {m : Match}
    (h : matchWith ⟨ps ++ [.recAny x]⟩ ⟨a ++ n :: rest⟩ = some m) : ∃ σ, Becomes σ ps a := by
  rw [matchWith_recAny ps a x n rest hlen] at h
  obtain ⟨m₁, hm₁, -⟩ := Option.bind_eq_some_iff.mp h
  exact ⟨m₁.value, becomes_of_find hps ha hlen hm₁⟩

theorem vars_recAny :
    (Label.mk (ps ++ [.recAny x])).vars =
      ps.filterMap Node.getAny ++ (if x.isEmpty then [] else [x]) := by
  simp only [vars, List.filterMap_append]
  cases hx : x.isEmpty <;> simp [Node.getAny, hx]

theorem mem_vars_plain (hps : Plain ps) (hx : x.isEmpty = false) :
    x ∈ ps.filterMap Node.getAny ↔ .any x ∈ ps := by
  rw [List.mem_filterMap]
  constructor
  · rintro ⟨p, hp, hpx⟩
    cases p with
    | str s => cases hpx
    | recAny y => exact absurd hp (hps y)
    | any y =>
        simp only [Node.getAny] at hpx
        split_ifs at hpx
        cases hpx
        exact hp
  · intro h
    exact ⟨_, h, by simp [Node.getAny, hx]⟩

/-- A final capture with a name of its own is what is left of the label. -/
theorem correct_recAny (hps : Plain ps) (ha : Concrete ⟨a⟩) (hlen : a.length = ps.length)
    (hown : x.isEmpty = false → .any x ∉ ps) :
    Correct ⟨ps ++ [.recAny x]⟩ ⟨a ++ n :: rest⟩ := by
  constructor
  · rw [Option.isSome_iff_exists]
    constructor
    · rintro ⟨m, hm⟩
      obtain ⟨σ, hσ⟩ := becomes_of_find_recAny hps ha hlen hm
      refine ⟨fun v => if x.isEmpty = false ∧ v = x then n :: rest else σ v, ?_⟩
      refine (becomes_recAny hps hlen).mpr ⟨becomes_congr (fun v hv => ?_) hσ, fun hx => ?_⟩
      · rw [if_neg]
        rintro ⟨hx, rfl⟩
        exact hown hx ((mem_vars_plain hps hx).mp hv)
      · rw [if_pos ⟨hx, rfl⟩]
    · rintro ⟨σ, hσ⟩
      obtain ⟨hb, -⟩ := (becomes_recAny hps hlen).mp hσ
      obtain ⟨m₁, m, -, hm, -⟩ := @find_recAny σ ps x a rest n hps ha hb
      exact ⟨m, hm⟩
  · intro m σ hm hσ
    obtain ⟨hb, hx⟩ := (becomes_recAny hps hlen).mp hσ
    obtain ⟨m₁, m', hassign, hm', hanon, hnamed⟩ := @find_recAny σ ps x a rest n hps ha hb
    rw [hm] at hm'
    cases hm'
    intro v
    rw [vars_recAny]
    cases he : x.isEmpty with
    | true =>
        rw [hanon he, if_pos rfl, List.append_nil]
        exact hassign v
    | false =>
        obtain ⟨hself, hothers⟩ := hnamed he
        have hnot : x ∉ ps.filterMap Node.getAny := fun h => hown he ((mem_vars_plain hps he).mp h)
        have hnone : m₁.value x = [] := by
          rw [Match.value, hassign x, if_neg hnot, Option.elim_none]
        rw [if_neg Bool.false_ne_true]
        by_cases hv : v = x
        · rw [hv, hself, hnone, hx he, List.nil_append, if_pos (by simp)]
        · rw [hothers v hv, hassign v]
          simp only [List.mem_append, List.mem_singleton, hv, or_false]

/-- A final capture whose name is taken absorbs the earlier capture. -/
theorem not_correct_recAny (hps : Plain ps) (ha : Concrete ⟨a⟩) (hb : Becomes σ ps a)
    (hx : x.isEmpty = false) (hmem : .any x ∈ ps) :
    ¬ Correct ⟨ps ++ [.recAny x]⟩ ⟨a ++ n :: rest⟩ := by
  intro hc
  obtain ⟨m₀, m, -, hm, -, -⟩ := @find_recAny σ ps x a rest n hps ha hb
  obtain ⟨τ, hτ⟩ := hc.succeeds.mp (Option.isSome_iff_exists.mpr ⟨m, hm⟩)
  have hvalue := hc.returns m τ hm hτ x
  obtain ⟨hbτ, hτx⟩ := (becomes_recAny hps (hb.length hps)).mp hτ
  obtain ⟨m₁, m', hassign, hm', -, hnamed⟩ := @find_recAny τ ps x a rest n hps ha hbτ
  rw [hm] at hm'
  cases hm'
  have hvars := (mem_vars_plain hps hx).mpr hmem
  have hone : m₁.value x = n :: rest := by
    rw [Match.value, hassign x, if_pos hvars, Option.elim_some, hτx hx]
  -- the capture holds the nodes twice: those of the earlier capture are those that are left
  rw [(hnamed hx).1, hone, vars_recAny, if_pos (List.mem_append_left _ hvars), hτx hx] at hvalue
  have hlens := congrArg List.length (congrArg Label.nodes (Option.some.inj hvalue))
  simp only [List.length_append, List.length_cons] at hlens
  omega

end

/-- The name of the recursive capture at the end is also that of an earlier capture. -/
def RepeatsAtEnd (p : Label) : Prop :=
  ∃ x : String, x.isEmpty = false ∧ p.nodes.getLast? = some (.recAny x) ∧
    .any x ∈ p.nodes.dropLast

/-- The nodes before the last one become the beginning of the label, and a node is left. -/
def BeginsLike (p l : Label) : Prop :=
  p.nodes.length ≤ l.nodes.length ∧
    ∃ σ, Becomes σ p.nodes.dropLast (l.nodes.take (p.nodes.length - 1))

/-- `match_with` is correct on a concrete label except where a pattern whose final capture
repeats an earlier one gets as far as that capture. -/
theorem matchWith_correct_iff {p l : Label} (hp : p.RecursiveAtEnd) (hl : l.Concrete) :
    Correct p l ↔ ¬ (p.RepeatsAtEnd ∧ p.BeginsLike l) := by
  obtain ⟨ps⟩ := p
  obtain ⟨ns⟩ := l
  by_cases hplain : Plain ps
  · refine ⟨fun _ => ?_, fun _ => correct_plain hplain hl⟩
    rintro ⟨⟨x, -, hlast, -⟩, -⟩
    exact hplain x (List.mem_of_getLast? hlast)
  obtain ⟨init, x, hps⟩ : ∃ init x, ps = init ++ [.recAny x] := by
    obtain ⟨x, hx⟩ := not_forall_not.mp hplain
    rcases List.eq_nil_or_concat' ps with rfl | ⟨init, last, rfl⟩
    · cases hx
    · rcases List.mem_append.mp hx with hx | hx
      · refine absurd hx ?_
        have hinit : Plain (init ++ [last]).dropLast := hp
        rw [List.dropLast_concat] at hinit
        exact hinit x
      · exact ⟨init, x, by rw [List.mem_singleton.mp hx]⟩
  subst hps
  have hinit : Plain init := by
    have h : Plain (init ++ [Node.recAny x]).dropLast := hp
    rwa [List.dropLast_concat] at h
  have hrepeats : RepeatsAtEnd ⟨init ++ [.recAny x]⟩ ↔ x.isEmpty = false ∧ .any x ∈ init := by
    unfold RepeatsAtEnd
    simp
  have hbegins : BeginsLike ⟨init ++ [.recAny x]⟩ ⟨ns⟩ ↔
      init.length < ns.length ∧ ∃ σ, Becomes σ init (ns.take init.length) := by
    unfold BeginsLike
    simp only [List.length_append, List.length_singleton, Nat.succ_le_iff, List.dropLast_concat,
      Nat.add_sub_cancel]
  rw [hrepeats, hbegins]
  by_cases hlong : init.length < ns.length
  · obtain ⟨n, rest, hdrop⟩ : ∃ n rest, ns.drop init.length = n :: rest :=
      List.exists_cons_of_ne_nil (by simpa using hlong)
    have hns : ns.take init.length ++ n :: rest = ns := by
      rw [← hdrop, List.take_append_drop]
    have hlen : (ns.take init.length).length = init.length := by
      rw [List.length_take]
      omega
    have ha : Concrete ⟨ns.take init.length⟩ := fun k hk => hl k (List.mem_of_mem_take hk)
    have hcorrect := @correct_recAny init x (ns.take init.length) rest n hinit ha hlen
    have hnot := fun σ => @not_correct_recAny σ init x (ns.take init.length) rest n hinit ha
    rw [hns] at hcorrect hnot
    constructor
    · rintro hc ⟨⟨hx, hmem⟩, -, σ, hσ⟩
      exact hnot σ hσ hx hmem hc
    · intro h
      by_cases hown : x.isEmpty = false ∧ .any x ∈ init
      · have hnone : ¬ ∃ σ, Becomes σ init (ns.take init.length) :=
          fun hσ => h ⟨hown, hlong, hσ⟩
        have hfail : matchWith ⟨init ++ [.recAny x]⟩ ⟨ns⟩ = none := by
          rw [Option.eq_none_iff_forall_ne_some]
          intro m hm
          rw [← hns] at hm
          exact hnone (becomes_of_find_recAny hinit ha hlen hm)
        refine ⟨?_, fun m σ hm => by rw [hfail] at hm; cases hm⟩
        rw [hfail]
        refine ⟨fun h => (nomatch h), fun ⟨σ, hσ⟩ => absurd ?_ hnone⟩
        have hσ' : Becomes σ (init ++ [.recAny x]) (ns.take init.length ++ n :: rest) := by
          rw [hns]
          exact hσ
        exact ⟨σ, ((becomes_recAny hinit hlen).mp hσ').1⟩
      · exact hcorrect (fun hx hmem => hown ⟨hx, hmem⟩)
  · refine ⟨fun _ h => hlong h.2.1, fun _ => ?_⟩
    have hfail := @matchWith_recAny_short init ns x (Nat.le_of_not_lt hlong)
    refine ⟨?_, fun m σ hm => by rw [hfail] at hm; cases hm⟩
    rw [hfail]
    refine ⟨fun h => (nomatch h), fun ⟨σ, hσ⟩ => absurd ?_ hlong⟩
    obtain ⟨b, c, hb, hc, hbc⟩ := becomes_append.mp hσ
    have hpos := List.length_pos_iff.mpr (becomes_single.mp hc).1
    have hlens : b.length + c.length = ns.length := by
      rw [← List.length_append, hbc]
    have hblen := hb.length hinit
    omega

end

/-- `a::<x>::<x>::<<y>>` on `a::b::b::c::d`. -/
theorem matchWith_correct_named :
    Correct ⟨[.str "a", .any "x", .any "x", .recAny "y"]⟩
      ⟨[.str "a", .str "b", .str "b", .str "c", .str "d"]⟩ := by
  refine (matchWith_correct_iff ?_ ?_).mpr ?_
  · simp [RecursiveAtEnd, Plain]
  · simp [Concrete]
  · rintro ⟨⟨x, -, hlast, hmem⟩, -⟩
    have hx : x = "y" := by simpa using hlast.symm
    subst hx
    simp at hmem

/-- `<x>::<<x>>` on `a::b`: the match says that `x` is `a::b`, under which the pattern is
longer. -/
theorem matchWith_repeated :
    ∃ p l : Label, p.RecursiveAtEnd ∧ l.Concrete ∧ ¬ Correct p l ∧
      (p.matchWith l).map Match.pairs = some [("x", "a::b")] ∧
      ¬ ∃ σ, Becomes σ p.nodes l.nodes := by
  have hp : Plain [.any "x"] := by simp [Plain]
  have hnone : ∀ σ, ¬ Becomes σ [.any "x", .recAny "x"] [.str "a", .str "b"] := by
    intro σ hσ
    have hσ' : Becomes σ ([.any "x"] ++ [.recAny "x"]) ([.str "a"] ++ .str "b" :: []) := hσ
    have hlen : [Node.str "a"].length = [Node.any "x"].length := rfl
    obtain ⟨hb, hx⟩ := (becomes_recAny hp hlen).mp hσ'
    obtain ⟨k, hk, hxa⟩ := becomes_single.mp hb
    cases hk
    have hab := (hxa (by decide)).symm.trans (hx (by decide))
    simp at hab
  refine ⟨⟨[.any "x", .recAny "x"]⟩, ⟨[.str "a", .str "b"]⟩, ?_, ?_, ?_, by decide, ?_⟩
  · simp [RecursiveAtEnd, Plain]
  · simp [Concrete]
  · intro hc
    obtain ⟨σ, hσ⟩ := hc.succeeds.mp (by decide)
    exact hnone σ hσ
  · rintro ⟨σ, hσ⟩
    exact hnone σ hσ

end Label

end Armour.Lang
