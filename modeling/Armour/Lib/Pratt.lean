import Mathlib.Order.Basic
import Mathlib.Data.Nat.Basic

/-! # Operator precedence

Trees of atoms, prefix operators and infix operators, and the chains that their in-order
flattenings are.  A precedence parser takes the right operand of an operator as far as the
precedences allow; `Full` says of a tree that it is what such a parser makes of its chain, and
`build` finds the one tree of this kind for every chain.  Where no level mixes associativities,
these are the trees whose nodes respect the precedences of their children.
-/

namespace Armour.Lib.Pratt

inductive Assoc where
  | left | right
deriving DecidableEq, Repr

/-- Infix operators: a level, above the one of whole expressions, and an associativity. -/
structure Operators (ω : Type) where
  prec : ω → Nat
  assoc : ω → Assoc
  pos : ∀ o, 0 < prec o

/-- Expressions over atoms `α` with prefix operators `υ` and infix operators `ω`. -/
inductive Tree (α υ ω : Type) where
  | leaf (a : α)
  | pre (u : υ) (t : Tree α υ ω)
  | node (l : Tree α υ ω) (o : ω) (r : Tree α υ ω)

/-- Operands with infix operators between them; an operand is an atom under prefix
operators. -/
inductive Chain (α υ ω : Type) where
  | last (a : α)
  | step (a : α) (o : ω) (c : Chain α υ ω)
  | pre (u : υ) (c : Chain α υ ω)

section

variable {α υ ω : Type}

def Chain.append : Chain α υ ω → ω → Chain α υ ω → Chain α υ ω
  | .last a, o, d => .step a o d
  | .step a o' c, o, d => .step a o' (c.append o d)
  | .pre u c, o, d => .pre u (c.append o d)

/-- The in-order flattening of a tree. -/
def Tree.chain : Tree α υ ω → Chain α υ ω
  | .leaf a => .last a
  | .pre u t => .pre u t.chain
  | .node l o r => l.chain.append o r.chain

/-- The infix operators of a chain. -/
def Chain.ops : Chain α υ ω → List ω
  | .last _ => []
  | .step _ o c => o :: c.ops
  | .pre _ c => c.ops

theorem Chain.ops_append (c : Chain α υ ω) (o : ω) (d : Chain α υ ω) :
    (c.append o d).ops = c.ops ++ o :: d.ops := by
  induction c with
  | last a => rfl
  | step a o' c ih => rw [append, ops, ih, ops, List.cons_append]
  | pre u c ih => rw [append, ops, ih, ops]

/-! ## Trees of a precedence parser -/

variable (T : Operators ω)

/-- An operator that goes on an operand read at the level. -/
def Operators.Admits (p : Nat) (o : ω) : Prop :=
  match T.assoc o with
  | .left => p < T.prec o
  | .right => p ≤ T.prec o

instance (p : Nat) (o : ω) : Decidable (T.Admits p o) := by
  unfold Operators.Admits
  cases T.assoc o <;> infer_instance

variable {T} in
theorem Operators.Admits.mono {p q : Nat} {o : ω} (h : T.Admits q o) (hpq : p ≤ q) :
    T.Admits p o := by
  unfold Operators.Admits at *
  cases hT : T.assoc o <;> rw [hT] at h <;> dsimp only at * <;> omega

variable {T} in
theorem Operators.Admits.le {p : Nat} {o : ω} (h : T.Admits p o) : p ≤ T.prec o := by
  unfold Operators.Admits at h
  cases hT : T.assoc o <;> rw [hT] at h <;> dsimp only at h <;> omega

/-- The operator that follows, if any, does not go on an operand of the level. -/
def Operators.Stops (p : Nat) (next : Option ω) : Prop := ∀ o ∈ next, ¬T.Admits p o

/-- An operand read at the level `p` may begin with the tree, `next` being the operator after
it: the operators on the left spine are admitted, and each right operand was read as far as
its operator admits.  What is under a prefix operator goes on to the end. -/
def Tree.Spine : Nat → Tree α υ ω → Option ω → Prop
  | _, .leaf _, _ => True
  | _, .pre _ t, next => next = none ∧ Spine 0 t none
  | p, .node l o r, next =>
      T.Admits p o ∧ Spine p l (some o) ∧ Spine (T.prec o) r next ∧ T.Stops (T.prec o) next

/-- The tree is the whole operand read at the level. -/
def Tree.Full (p : Nat) (t : Tree α υ ω) (next : Option ω) : Prop :=
  t.Spine T p next ∧ T.Stops p next

/-- All operators on the left spine are admitted at the level. -/
def Tree.Admitted (p : Nat) : Tree α υ ω → Prop
  | .leaf _ => True
  | .pre _ _ => True
  | .node l o _ => T.Admits p o ∧ l.Admitted p

instance decidableAdmitted (p : Nat) : (t : Tree α υ ω) → Decidable (t.Admitted T p)
  | .leaf _ => isTrue trivial
  | .pre _ _ => isTrue trivial
  | .node l o _ =>
      have := decidableAdmitted p l
      inferInstanceAs (Decidable (T.Admits p o ∧ l.Admitted T p))

variable {T}

theorem Tree.Spine.admitted {p : Nat} {t : Tree α υ ω} {next : Option ω}
    (h : t.Spine T p next) : t.Admitted T p := by
  induction t generalizing next with
  | leaf a => trivial
  | pre u t _ => trivial
  | node l o r ihl _ => exact ⟨h.1, ihl h.2.1⟩

/-- The level matters only for the left spine. -/
theorem Tree.Spine.level {p q : Nat} {t : Tree α υ ω} {next : Option ω}
    (h : t.Spine T p next) (ha : t.Admitted T q) : t.Spine T q next := by
  induction t generalizing next with
  | leaf a => trivial
  | pre u t _ => exact h
  | node l o r ihl _ => exact ⟨ha.1, ihl h.2.1 ha.2, h.2.2⟩

theorem Tree.Admitted.mono {p q : Nat} {t : Tree α υ ω} (h : t.Admitted T q) (hpq : p ≤ q) :
    t.Admitted T p := by
  induction t with
  | leaf a => trivial
  | pre u t _ => trivial
  | node l o r ihl _ => exact ⟨h.1.mono hpq, ihl h.2⟩

theorem Operators.admits_zero (o : ω) : T.Admits 0 o := by
  unfold Operators.Admits
  cases T.assoc o
  · exact T.pos o
  · exact Nat.zero_le _

theorem Tree.admitted_zero (t : Tree α υ ω) : t.Admitted T 0 := by
  induction t with
  | leaf a => trivial
  | pre u t _ => trivial
  | node l o r ihl _ => exact ⟨Operators.admits_zero o, ihl⟩

theorem Operators.stops_none (p : Nat) : T.Stops p none := nofun

/-! ## The tree of a chain -/

variable (T) in
/-- Put an atom and an operator before a tree: the operator takes the part of the left spine
whose operators it admits. -/
def Tree.insert (a : α) (o : ω) : Tree α υ ω → Tree α υ ω
  | .leaf b => .node (.leaf a) o (.leaf b)
  | .pre u t => .node (.leaf a) o (.pre u t)
  | .node l o' r =>
      if (Tree.node l o' r).Admitted T (T.prec o) then .node (.leaf a) o (.node l o' r)
      else .node (l.insert a o) o' r

variable (T) in
/-- What a precedence parser makes of a chain. -/
def Chain.build : Chain α υ ω → Tree α υ ω
  | .last a => .leaf a
  | .step a o c => c.build.insert T a o
  | .pre u c => .pre u c.build

theorem Tree.insert_of_admitted {a : α} {o : ω} {t : Tree α υ ω} (h : t.Admitted T (T.prec o)) :
    t.insert T a o = .node (.leaf a) o t := by
  cases t with
  | leaf b => rfl
  | pre u t => rfl
  | node l o' r => exact if_pos h

theorem Tree.chain_insert (a : α) (o : ω) (t : Tree α υ ω) :
    (t.insert T a o).chain = .step a o t.chain := by
  induction t with
  | leaf b => rfl
  | pre u t _ => rfl
  | node l o' r ihl _ =>
      rw [insert]
      split_ifs
      · rfl
      · rw [chain, ihl, chain, Chain.append]

theorem Chain.chain_build (c : Chain α υ ω) : (c.build T).chain = c := by
  induction c with
  | last a => rfl
  | step a o c ih => rw [build, Tree.chain_insert, ih]
  | pre u c ih => rw [build, Tree.chain, ih]

/-- Inserting keeps the tree one of the parser, unless the new operator would take all of it
and go on. -/
theorem Tree.Spine.insert {p : Nat} {a : α} {o : ω} {t : Tree α υ ω} {next : Option ω}
    (h : t.Spine T p next) (ho : T.Admits p o)
    (hnext : t.Admitted T (T.prec o) → T.Stops (T.prec o) next) :
    (t.insert T a o).Spine T p next := by
  have whole : ∀ {t : Tree α υ ω}, t.Spine T p next → t.Admitted T (T.prec o) →
      T.Stops (T.prec o) next → (Tree.node (.leaf a) o t).Spine T p next :=
    fun h ha hs => ⟨ho, trivial, h.level ha, hs⟩
  induction t generalizing next with
  | leaf b => exact whole h trivial (hnext trivial)
  | pre u t _ => exact whole h trivial (hnext trivial)
  | node l o' r ihl _ =>
      rw [Tree.insert]
      by_cases ha : (Tree.node l o' r).Admitted T (T.prec o)
      · rw [if_pos ha]
        exact whole h ha (hnext ha)
      · rw [if_neg ha]
        refine ⟨h.1, ihl h.2.1 ?_ ?_, h.2.2⟩
        · -- the operator above the left part ends what the new one takes
          rintro hl o'' ⟨⟩ ho'
          exact ha ⟨ho', hl⟩
        · exact fun h ha hs => ⟨ho, trivial, h.level ha, hs⟩

theorem Chain.full_build (c : Chain α υ ω) : (c.build T).Full T 0 none := by
  refine ⟨?_, Operators.stops_none 0⟩
  induction c with
  | last a => trivial
  | step a o c ih => exact ih.insert (Operators.admits_zero o) (fun _ => Operators.stops_none _)
  | pre u c ih => exact ⟨rfl, ih⟩

/-! ## Uniqueness -/

theorem Chain.append_ne_last (c d : Chain α υ ω) (o : ω) (a : α) : c.append o d ≠ .last a := by
  cases c <;> nofun

/-- A tree that begins with an atom and an operator is what inserting them gives. -/
theorem Tree.Spine.uninsert {p : Nat} {t : Tree α υ ω} {next : Option ω} {a : α} {o : ω}
    {c : Chain α υ ω} (h : t.Spine T p next) (hc : t.chain = .step a o c) :
    ∃ t' : Tree α υ ω, t'.chain = c ∧ t'.Spine T p next ∧ t = t'.insert T a o ∧
      (t'.Admitted T (T.prec o) → T.Stops (T.prec o) next) := by
  induction t generalizing next c with
  | leaf b => cases hc
  | pre u t _ => cases hc
  | node l o' r ihl _ =>
      obtain ⟨ho', hl, hr, hstop⟩ := h
      rw [Tree.chain] at hc
      cases hlc : l.chain with
      | last b =>
          rw [hlc] at hc
          cases hc
          cases l with
          | leaf b' =>
              -- the new operator is the root
              cases hlc
              have hadm : r.Admitted T (T.prec o) := hr.admitted
              refine ⟨r, rfl, hr.level (hadm.mono ho'.le), ?_, fun _ => hstop⟩
              rw [Tree.insert_of_admitted hadm]
          | pre u l => cases hlc
          | node l₁ o₁ r₁ => exact absurd hlc (Chain.append_ne_last _ _ _ _)
      | pre u d =>
          rw [hlc] at hc
          cases hc
      | step a' o₁ d =>
          rw [hlc] at hc
          cases hc
          obtain ⟨l', rfl, hl', rfl, hstop'⟩ := ihl hl hlc
          refine ⟨.node l' o' r, rfl, ⟨ho', hl', hr, hstop⟩, ?_, ?_⟩
          · -- the operator above is not one that the new operator takes
            have hna : ¬(Tree.node l' o' r).Admitted T (T.prec o) :=
              fun ha => hstop' ha.2 o' rfl ha.1
            rw [Tree.insert, if_neg hna]
          · exact fun ha => absurd ha.1 (hstop' ha.2 o' rfl)

/-- What is before an operator does not begin with a prefix operator. -/
theorem Tree.Spine.chain_ne_pre {p : Nat} {t : Tree α υ ω} {o : ω} (h : t.Spine T p (some o))
    (u : υ) (c : Chain α υ ω) : t.chain ≠ .pre u c := by
  induction t generalizing o c with
  | leaf a => nofun
  | pre u' t _ =>
      intro _
      cases h.1
  | node l o' r ihl _ =>
      intro hc
      rw [Tree.chain] at hc
      cases hlc : l.chain with
      | last a =>
          rw [hlc] at hc
          cases hc
      | step a o₁ d =>
          rw [hlc] at hc
          cases hc
      | pre u' d => 
          rw [hlc] at hc
          cases hc
          exact ihl h.2.1 d hlc

/-- A parser makes one tree only of a chain. -/
theorem Tree.Spine.eq_build {t : Tree α υ ω} (h : t.Spine T 0 none) : t = t.chain.build T := by
  generalize hc : t.chain = c
  induction c generalizing t with
  | last a =>
      cases t with
      | leaf b =>
          cases hc
          rfl
      | pre u t => cases hc
      | node l o r => exact absurd hc (Chain.append_ne_last _ _ _ _)
  | step a o c ih =>
      obtain ⟨t', hc', h', rfl, -⟩ := h.uninsert hc
      rw [Chain.build, ← ih h' hc']
  | pre u c ih =>
      cases t with
      | leaf b => cases hc
      | pre u' t =>
          cases hc
          rw [Chain.build, ← ih h.2 rfl]
      | node l o r =>
          rw [Tree.chain] at hc
          cases hlc : l.chain with
          | last a =>
              rw [hlc] at hc
              cases hc
          | step a o₁ d =>
              rw [hlc] at hc
              cases hc
          | pre u' d => exact absurd hlc (h.2.1.chain_ne_pre u' d)

/-! ## Precedences of children -/

/-- The operator at the root. -/
def Tree.root : Tree α υ ω → Option ω
  | .node _ o _ => some o
  | _ => none

/-- No level of the operators mixes associativities. -/
def Uniform (T : Operators ω) (os : List ω) : Prop :=
  ∀ o ∈ os, ∀ o' ∈ os, T.prec o = T.prec o' → T.assoc o = T.assoc o'

variable (T) in
/-- A child under an operator binds tighter than it, or is on the side to which operators of
the level group. -/
def Binds (side : Assoc) (o : ω) (child : Tree α υ ω) : Prop :=
  ∀ o' ∈ child.root, T.prec o < T.prec o' ∨
    (T.prec o = T.prec o' ∧ T.assoc o = side ∧ T.assoc o' = side)

variable (T) in
/-- Every node respects the precedences and associativities of its children; there are no
prefix operators. -/
def Tree.Respects : Tree α υ ω → Prop
  | .leaf _ => True
  | .pre _ _ => False
  | .node l o r => Binds T .left o l ∧ Binds T .right o r ∧ l.Respects ∧ r.Respects

/-- The infix operators of a tree. -/
def Tree.ops (t : Tree α υ ω) : List ω := t.chain.ops

theorem Tree.ops_node (l : Tree α υ ω) (o : ω) (r : Tree α υ ω) :
    (Tree.node l o r).ops = l.ops ++ o :: r.ops :=
  Chain.ops_append _ _ _

theorem Tree.mem_ops_of_root {t : Tree α υ ω} {o : ω} (h : o ∈ t.root) : o ∈ t.ops := by
  cases t with
  | leaf a => cases h
  | pre u t => cases h
  | node l o' r =>
      cases h
      rw [ops_node]
      exact List.mem_append_right _ List.mem_cons_self

theorem Uniform.sublist {os os' : List ω} (h : Uniform T os) (hsub : ∀ o ∈ os', o ∈ os) :
    Uniform T os' :=
  fun o ho o' ho' => h o (hsub o ho) o' (hsub o' ho')

theorem Uniform.left {l r : Tree α υ ω} {o : ω} (h : Uniform T (Tree.node l o r).ops) :
    Uniform T l.ops :=
  h.sublist (fun o ho => by rw [Tree.ops_node]; exact List.mem_append_left _ ho)

theorem Uniform.right {l r : Tree α υ ω} {o : ω} (h : Uniform T (Tree.node l o r).ops) :
    Uniform T r.ops :=
  h.sublist (fun o ho => by
    rw [Tree.ops_node]
    exact List.mem_append_right _ (List.mem_cons_of_mem _ ho))

theorem Tree.Respects.admitted {p : Nat} {t : Tree α υ ω} (h : t.Respects T)
    (hroot : ∀ o ∈ t.root, T.Admits p o) : t.Admitted T p := by
  induction t with
  | leaf a => trivial
  | pre u t _ => trivial
  | node l o r ihl _ =>
      obtain ⟨hleft, -, hl, -⟩ := h
      have ho : T.Admits p o := hroot o rfl
      refine ⟨ho, ihl hl (fun o' ho' => ?_)⟩
      have hle := ho.le
      unfold Operators.Admits at *
      rcases hleft o' ho' with hlt | ⟨heq, ha, ha'⟩
      · cases T.assoc o' <;> dsimp only <;> omega
      · rw [ha] at ho
        rw [ha']
        dsimp only at *
        omega

theorem Tree.Respects.spine {p : Nat} {t : Tree α υ ω} {next : Option ω} (h : t.Respects T)
    (hp : t.Admitted T p) (hroot : ∀ o ∈ t.root, T.Stops (T.prec o) next) : t.Spine T p next := by
  induction t generalizing p next with
  | leaf a => trivial
  | pre u t _ => exact h.elim
  | node l o r ihl ihr =>
      obtain ⟨hleft, hright, hl, hr⟩ := h
      have hstop := hroot o rfl
      refine ⟨hp.1, ihl hl hp.2 ?_, ihr hr (hr.admitted ?_) ?_, hstop⟩
      · -- the left child does not take the operator
        rintro o' ho' _ ⟨⟩ hadm
        have hle := hadm.le
        rcases hleft o' ho' with hlt | ⟨heq, ha, -⟩
        · omega
        · unfold Operators.Admits at hadm
          rw [ha] at hadm
          dsimp only at hadm
          omega
      · -- the right child is taken by the operator
        intro o' ho'
        unfold Operators.Admits
        rcases hright o' ho' with hlt | ⟨heq, -, ha⟩
        · cases T.assoc o' <;> dsimp only <;> omega
        · rw [ha]
          exact heq.le
      · intro o' ho' o'' ho'' hadm
        have hle : T.prec o ≤ T.prec o' := by
          rcases hright o' ho' with hlt | ⟨heq, -⟩ <;> omega
        exact hstop o'' ho'' (hadm.mono hle)

theorem Tree.Spine.respects {p : Nat} {t : Tree α Empty ω} {next : Option ω}
    (h : t.Spine T p next) (hu : Uniform T t.ops) : t.Respects T := by
  induction t generalizing p next with
  | leaf a => trivial
  | pre u t _ => exact u.elim
  | node l o r ihl ihr =>
      obtain ⟨ho, hl, hr, hstop⟩ := h
      have hmem : o ∈ (Tree.node l o r).ops := by
        rw [Tree.ops_node]
        exact List.mem_append_right _ List.mem_cons_self
      refine ⟨fun o' ho' => ?_, fun o' ho' => ?_, ihl hl hu.left, ihr hr hu.right⟩
      · have hmem' : o' ∈ (Tree.node l o r).ops := by
          rw [Tree.ops_node]
          exact List.mem_append_left _ (Tree.mem_ops_of_root ho')
        have hsame := hu o hmem o' hmem'
        have hnot : ¬T.Admits (T.prec o') o := by
          cases l with
          | leaf a => cases ho'
          | pre u l => cases ho'
          | node l₁ o₁ r₁ =>
              cases ho'
              exact hl.2.2.2 o rfl
        unfold Operators.Admits at hnot
        cases hassoc : T.assoc o with
        | left =>
            rw [hassoc] at hnot hsame
            rcases Nat.lt_or_ge (T.prec o) (T.prec o') with hlt | hge
            · exact Or.inl hlt
            · have heq : T.prec o = T.prec o' := by
                dsimp only at hnot
                omega
              exact Or.inr ⟨heq, rfl, (hsame heq).symm⟩
        | right =>
            rw [hassoc] at hnot
            dsimp only at hnot
            exact Or.inl (by omega)
      · have hmem' : o' ∈ (Tree.node l o r).ops := by
          rw [Tree.ops_node]
          exact List.mem_append_right _ (List.mem_cons_of_mem _ (Tree.mem_ops_of_root ho'))
        have hsame := hu o hmem o' hmem'
        have hadm : T.Admits (T.prec o) o' := by
          cases r with
          | leaf a => cases ho'
          | pre u r => cases ho'
          | node l₁ o₁ r₁ =>
              cases ho'
              exact hr.1
        unfold Operators.Admits at hadm
        cases hassoc : T.assoc o' with
        | left =>
            rw [hassoc] at hadm
            exact Or.inl hadm
        | right =>
            rw [hassoc] at hadm hsame
            dsimp only at hadm
            rcases Nat.lt_or_ge (T.prec o) (T.prec o') with hlt | hge
            · exact Or.inl hlt
            · have heq : T.prec o = T.prec o' := by omega
              exact Or.inr ⟨heq, hsame heq, rfl⟩

/-- Where no level mixes associativities, the tree of a chain is the one that respects the
precedences and associativities. -/
theorem Chain.respects_iff {c : Chain α Empty ω} (hu : Uniform T c.ops) {t : Tree α Empty ω} :
    (t.chain = c ∧ t.Respects T) ↔ t = c.build T := by
  constructor
  · rintro ⟨rfl, h⟩
    have hadm := t.admitted_zero (T := T)
    exact (h.spine hadm (fun _ _ => Operators.stops_none _)).eq_build
  · rintro rfl
    have hchain := c.chain_build (T := T)
    refine ⟨hchain, c.full_build.1.respects ?_⟩
    rw [Tree.ops, hchain]
    exact hu

end

end Armour.Lib.Pratt
