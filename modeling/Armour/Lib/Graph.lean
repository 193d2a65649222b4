import Mathlib.Data.List.Lattice
import Mathlib.Logic.Relation
import Mathlib.Logic.Function.Iterate
import Mathlib.Order.WellFoundedSet

/-! # Cycles of finite graphs

A graph is the list of its edges.  A node stays when it has an edge to a node that stays;
the nodes that stay for ever are those from which a cycle is reached.
-/

namespace Armour.Lib.Graph

variable {α : Type} [DecidableEq α]

/-- There is an edge. -/
def Edge (es : List (α × α)) (a b : α) : Prop := (a, b) ∈ es

/-- The nodes of a list that have an edge to a node of the list. -/
def peel (es : List (α × α)) (ns : List α) : List α :=
  ns.filter (fun a => es.any (fun e => e.1 = a ∧ e.2 ∈ ns))

/-- No node stays; as many rounds as there are edges decide it. -/
def isAcyclic (es : List (α × α)) : Bool :=
  ((peel es)^[es.length] (es.map Prod.fst)).isEmpty

variable {es : List (α × α)}

theorem mem_peel {ns : List α} {a : α} :
    a ∈ peel es ns ↔ a ∈ ns ∧ ∃ b ∈ ns, Edge es a b := by
  simp only [peel, List.mem_filter, List.any_eq_true, decide_eq_true_eq, Prod.exists, Edge]
  constructor
  · rintro ⟨ha, a', b, hmem, rfl, hb⟩
    exact ⟨ha, b, hb, hmem⟩
  · rintro ⟨ha, b, hb, hmem⟩
    exact ⟨ha, a, b, hmem, rfl, hb⟩

/-- Nodes that all have an edge to one of them stay. -/
theorem stays {P : α → Prop} (hP : ∀ a, P a → ∃ b, P b ∧ Edge es a b) (n : Nat) :
    ∀ {ns : List α}, (∀ a, P a → a ∈ ns) → ∀ a, P a → a ∈ (peel es)^[n] ns := by
  induction n with
  | zero => exact fun h => h
  | succ n ih =>
      intro ns h
      rw [Function.iterate_succ_apply]
      refine ih (fun a ha => ?_)
      obtain ⟨b, hb, hab⟩ := hP a ha
      exact mem_peel.2 ⟨h a ha, b, h b hb, hab⟩

/-- On a cycle every node has an edge to a node of the cycle. -/
theorem not_transGen_of_isAcyclic (h : isAcyclic es = true) (a : α) :
    ¬Relation.TransGen (Edge es) a a := by
  intro hcycle
  have hstay : ∀ b, Relation.TransGen (Edge es) b a →
      ∃ c, Relation.TransGen (Edge es) c a ∧ Edge es b c := by
    intro b hb
    obtain ⟨c, hbc, hca⟩ := Relation.TransGen.head'_iff.1 hb
    exact ⟨c, Relation.TransGen.trans_right hca hcycle, hbc⟩
  have hsource : ∀ b, Relation.TransGen (Edge es) b a → b ∈ es.map Prod.fst := by
    intro b hb
    obtain ⟨c, hbc, _⟩ := Relation.TransGen.head'_iff.1 hb
    exact List.mem_map.2 ⟨(b, c), hbc, rfl⟩
  have hmem := stays hstay es.length hsource a hcycle
  rw [List.isEmpty_iff.1 h] at hmem
  cases hmem

omit [DecidableEq α] in
/-- Without cycles, a relation on finitely many elements can be recursed on. -/
theorem wellFounded_of_acyclic {r : α → α → Prop} (ks : List α)
    (hks : ∀ a b, r a b → a ∈ ks ∧ b ∈ ks) (h : ∀ a, ¬Relation.TransGen r a a) :
    WellFounded (fun b a => r a b) := by
  have hstrict : IsStrictOrder α (fun b a => Relation.TransGen r a b) :=
    { irrefl := h
      trans := fun _ _ _ hba hcb => Relation.TransGen.trans hcb hba }
  have hwf := Set.wellFoundedOn_iff.1 ((List.finite_toSet ks).wellFoundedOn
    (r := fun b a => Relation.TransGen r a b))
  refine Subrelation.wf (fun {b a} hab => ?_) hwf
  exact ⟨.single hab, (hks a b hab).2, (hks a b hab).1⟩

end Armour.Lib.Graph
