import Mathlib.Data.List.Perm.Basic
import Mathlib.Data.List.Pairwise

/-! # Joins of compatible elements

A partial join that is defined on compatible elements: what is compatible with two elements is
compatible with their join.  Joining a list one element after the other, each against the join
of those before it, then depends neither on the order nor on the nesting.
-/

namespace Armour.Lib

/-- A join with a least element, and the laws that it has on compatible elements. -/
structure Coherent (α : Type) where
  compat : α → α → Bool
  join : α → α → α
  bot : α
  refl : ∀ a, compat a a = true
  symm : ∀ a b, compat a b = compat b a
  compat_bot : ∀ a, compat bot a = true
  join_bot : ∀ a, join bot a = a
  join_self : ∀ a, join a a = a
  join_comm : ∀ a b, compat a b = true → join a b = join b a
  compat_join : ∀ a b c, compat a b = true →
    compat (join a b) c = (compat a c && compat b c)
  join_assoc : ∀ a b c, compat a b = true → compat a c = true → compat b c = true →
    join (join a b) c = join a (join b c)

namespace Coherent

variable {α : Type} (C : Coherent α)

/-- Any two of the elements are compatible. -/
def Family (l : List α) : Prop := l.Pairwise (fun a b => C.compat a b = true)

instance (l : List α) : Decidable (C.Family l) := inferInstanceAs (Decidable (l.Pairwise _))

/-- The join of the elements, one after the other. -/
def joins (a : α) (l : List α) : α := l.foldl C.join a

/-- The join of the elements, each checked against the join of those before it. -/
def checked : α → List α → Option α
  | a, [] => some a
  | a, b :: l => if C.compat b a then checked (C.join a b) l else none

theorem family_perm {l l' : List α} (h : l.Perm l') : C.Family l ↔ C.Family l' :=
  h.pairwise_iff (fun {a b} hab => (C.symm a b).symm.trans hab)

theorem family_cons {a : α} {l : List α} :
    C.Family (a :: l) ↔ (∀ b ∈ l, C.compat a b = true) ∧ C.Family l :=
  List.pairwise_cons

/-- Any two members of a family are compatible, a member with itself among them. -/
theorem Family.compat {l : List α} (h : C.Family l) {a b : α} (ha : a ∈ l) (hb : b ∈ l) :
    C.compat a b = true := by
  have hsymm : Std.Symm (fun a b => C.compat a b = true) :=
    ⟨fun a b hab => (C.symm b a).trans hab⟩
  exact List.Pairwise.forall_of_forall (fun a _ => C.refl a) h ha hb

/-- A family stays one when two of its members are joined. -/
theorem Family.join {a b : α} {l : List α} (h : C.Family (a :: b :: l)) :
    C.Family (C.join a b :: l) := by
  obtain ⟨ha, hbl⟩ := C.family_cons.mp h
  obtain ⟨hb, hl⟩ := C.family_cons.mp hbl
  have hab := ha b List.mem_cons_self
  refine C.family_cons.mpr ⟨fun c hc => ?_, hl⟩
  rw [C.compat_join a b c hab, ha c (List.mem_cons_of_mem _ hc), hb c hc, Bool.and_self]

/-- The check of each element against the join of those before it tells whether the elements
are a family. -/
theorem checked_eq (a : α) (l : List α) :
    C.checked a l = if C.Family (a :: l) then some (C.joins a l) else none := by
  induction l generalizing a with
  | nil =>
      have hone : C.Family [a] := List.pairwise_singleton _ _
      rw [if_pos hone]
      rfl
  | cons b l ih =>
      rw [checked, C.symm b a]
      by_cases hab : C.compat a b = true
      · rw [if_pos hab, ih]
        have hiff : C.Family (C.join a b :: l) ↔ C.Family (a :: b :: l) := by
          refine ⟨fun h => ?_, Family.join C⟩
          obtain ⟨hjoin, hl⟩ := C.family_cons.mp h
          have hboth : ∀ c ∈ l, C.compat a c = true ∧ C.compat b c = true := by
            intro c hc
            have hc' := hjoin c hc
            rw [C.compat_join a b c hab, Bool.and_eq_true] at hc'
            exact hc'
          refine C.family_cons.mpr ⟨List.forall_mem_cons.mpr ⟨hab, fun c hc => (hboth c hc).1⟩, ?_⟩
          exact C.family_cons.mpr ⟨fun c hc => (hboth c hc).2, hl⟩
        by_cases hfam : C.Family (a :: b :: l)
        · rw [if_pos hfam, if_pos (hiff.mpr hfam)]
          rfl
        · rw [if_neg hfam, if_neg (fun h => hfam (hiff.mp h))]
      · have hnot : ¬ C.Family (a :: b :: l) :=
          fun h => hab ((C.family_cons.mp h).1 b List.mem_cons_self)
        rw [if_neg hab, if_neg hnot]

/-- In a family, the join does not depend on the order. -/
theorem joins_perm {l l' : List α} (h : l.Perm l') :
    ∀ {a : α}, C.Family (a :: l) → C.joins a l = C.joins a l' := by
  induction h with
  | nil =>
      intro a _
      rfl
  | cons b _ ih =>
      intro a hfam
      exact ih (Family.join C hfam)
  | swap b c l =>
      intro a hfam
      obtain ⟨ha, hcl⟩ := C.family_cons.mp hfam
      have hac := ha c List.mem_cons_self
      have hab := ha b (List.mem_cons_of_mem _ List.mem_cons_self)
      have hcb := (C.family_cons.mp hcl).1 b List.mem_cons_self
      have hbc := (C.symm b c).trans hcb
      show l.foldl C.join (C.join (C.join a c) b) = l.foldl C.join (C.join (C.join a b) c)
      rw [C.join_assoc a c b hac hab hcb, C.join_comm c b hcb, ← C.join_assoc a b c hab hac hbc]
  | trans hl _ ih ih' =>
      intro a hfam
      have hfam' := (C.family_perm (hl.cons a)).mp hfam
      exact (ih hfam).trans (ih' hfam')

/-- Every member of a family is compatible with its join. -/
theorem compat_joins {l : List α} :
    ∀ {a : α}, C.Family (a :: l) → ∀ b ∈ a :: l, C.compat b (C.joins a l) = true := by
  induction l with
  | nil =>
      intro a _ b hb
      rw [List.mem_singleton.mp hb]
      exact C.refl a
  | cons c l ih =>
      intro a hfam b hb
      have hjoin := Family.join C hfam
      have hac := (C.family_cons.mp hfam).1 c List.mem_cons_self
      rcases List.mem_cons.mp hb with rfl | hb
      · have hall := ih hjoin (C.join b c) List.mem_cons_self
        rw [C.compat_join b c _ hac, Bool.and_eq_true] at hall
        exact hall.1
      · rcases List.mem_cons.mp hb with rfl | hb
        · have hall := ih hjoin (C.join a b) List.mem_cons_self
          rw [C.compat_join a b _ hac, Bool.and_eq_true] at hall
          exact hall.2
        · exact ih hjoin b (List.mem_cons_of_mem _ hb)

/-- A first element that is compatible with a family joins in from the left as from the right. -/
theorem joins_join {a : α} {l : List α} (h : C.Family (a :: l)) :
    ∀ {b : α}, (∀ c ∈ a :: l, C.compat b c = true) →
      C.joins (C.join b a) l = C.join b (C.joins a l) := by
  induction l generalizing a with
  | nil =>
      intro b _
      rfl
  | cons c l ih =>
      intro b hb
      have hac := (C.family_cons.mp h).1 c List.mem_cons_self
      have hba := hb a List.mem_cons_self
      have hbc := hb c (List.mem_cons_of_mem _ List.mem_cons_self)
      show C.joins (C.join (C.join b a) c) l = C.join b (C.joins (C.join a c) l)
      rw [C.join_assoc b a c hba hbc hac]
      refine ih (Family.join C h) (fun d hd => ?_)
      rcases List.mem_cons.mp hd with rfl | hd
      · rw [C.symm, C.compat_join a c b hac, C.symm a b, hba, C.symm c b, hbc, Bool.and_self]
      · exact hb d (List.mem_cons_of_mem _ (List.mem_cons_of_mem _ hd))

/-- What is compatible with a join is compatible with all that is joined. -/
theorem joins_compat_iff {l : List α} :
    ∀ {a c : α}, C.Family (a :: l) →
      (C.compat (C.joins a l) c = true ↔ ∀ b ∈ a :: l, C.compat b c = true) := by
  induction l with
  | nil =>
      intro a c _
      rw [List.forall_mem_singleton]
      exact Iff.rfl
  | cons b l ih =>
      intro a c hfam
      have hab := (C.family_cons.mp hfam).1 b List.mem_cons_self
      show C.compat (C.joins (C.join a b) l) c = true ↔ _
      rw [ih (Family.join C hfam), List.forall_mem_cons, List.forall_mem_cons,
        List.forall_mem_cons, C.compat_join a b c hab, Bool.and_eq_true, and_assoc]

theorem family_bot {l : List α} : C.Family (C.bot :: l) ↔ C.Family l := by
  rw [family_cons]
  exact ⟨And.right, fun h => ⟨fun b _ => C.compat_bot b, h⟩⟩

/-- Elements can be joined and checked from the other end. -/
theorem checked_cons (a : α) (l : List α) :
    C.checked C.bot (a :: l) =
      (C.checked C.bot l).bind (fun t => if C.compat a t then some (C.join a t) else none) := by
  have hbot : C.compat a C.bot = true := (C.symm a C.bot).trans (C.compat_bot a)
  have hfirst : C.join a C.bot = a := (C.join_comm a C.bot hbot).trans (C.join_bot a)
  rw [checked, hbot, if_pos rfl, C.join_bot, checked_eq, checked_eq]
  by_cases hl : C.Family l
  · have hfam := C.family_bot.mpr hl
    have hiff : C.compat a (C.joins C.bot l) = true ↔ C.Family (a :: l) := by
      rw [C.symm, C.joins_compat_iff hfam, List.forall_mem_cons, C.family_cons]
      refine ⟨fun h => ⟨fun b hb => (C.symm a b).trans (h.2 b hb), hl⟩, fun h => ⟨?_, ?_⟩⟩
      · exact C.compat_bot a
      · exact fun b hb => (C.symm b a).trans (h.1 b hb)
    rw [if_pos hfam, Option.bind_some]
    by_cases ha : C.Family (a :: l)
    · rw [if_pos ha, if_pos (hiff.mpr ha)]
      have hall : ∀ c ∈ C.bot :: l, C.compat a c = true :=
        List.forall_mem_cons.mpr ⟨hbot, (C.family_cons.mp ha).1⟩
      rw [← C.joins_join hfam hall, hfirst]
    · rw [if_neg ha, if_neg (fun h => ha (hiff.mp h))]
  · rw [if_neg (fun h => hl (C.family_bot.mp h)), if_neg (fun h => hl (C.family_cons.mp h).2)]
    rfl

/-- Elements that are joined and checked do not need to be in one order. -/
theorem checked_perm {l l' : List α} (h : l.Perm l') (a : α) : C.checked a l = C.checked a l' := by
  rw [checked_eq, checked_eq]
  by_cases hfam : C.Family (a :: l)
  · rw [if_pos hfam, if_pos ((C.family_perm (h.cons a)).mp hfam), C.joins_perm h hfam]
  · rw [if_neg hfam, if_neg (fun h' => hfam ((C.family_perm (h.cons a)).mpr h'))]

end Coherent

end Armour.Lib
