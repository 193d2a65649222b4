import Armour.Lang.Types
import Armour.Lib.Coherent

/-! # Unification of types

`unify` and `can_unify` of `armour-lang/src/types.rs`.  The wildcard unifies with every type, so
`can_unify` is not transitive; but what unifies with two types that unify does so with their
unifier, and `unify` is a join on families of types of which any two unify.
-/

namespace Armour.Lang

open Armour.Lib

variable {FT : Type} [TFlatTyp FT]

namespace Typ

/-! ## Equations -/

theorem unify_flatTyp (t : FT) (b : Typ FT) :
    unify (flatTyp t) b = if t = TFlatTyp.dp .rreturn then b else flatTyp t := rfl

theorem unify_list_flatTyp (a : Typ FT) (t : FT) : unify (list a) (flatTyp t) = list a := by
  show (if flatTyp t = rreturn then list a else list a) = list a
  rw [ite_self]

theorem unify_tuple_flatTyp (l : List (Typ FT)) (t : FT) :
    unify (tuple l) (flatTyp t) = tuple l := by
  show (if flatTyp t = rreturn then tuple l else tuple l) = tuple l
  rw [ite_self]

theorem unify_list (a b : Typ FT) : unify (list a) (list b) = list (unify a b) := by
  show (if list b = rreturn then list a else list (unify a b)) = list (unify a b)
  rw [if_neg (by simp [rreturn])]

theorem unify_tuple (l l' : List (Typ FT)) :
    unify (tuple l) (tuple l') =
      if l.length = 0 then tuple l'
      else if l'.length = 0 then tuple l
      else tuple (unifys l l') := by
  show (if tuple l' = rreturn then tuple l else _) = _
  rw [if_neg (by simp [rreturn])]

@[simp] theorem unifys_nil (l : List (Typ FT)) : unifys [] l = [] := rfl

@[simp] theorem unifys_cons_nil (t : Typ FT) (ts : List (Typ FT)) : unifys (t :: ts) [] = [] := rfl

theorem unifys_cons (t t' : Typ FT) (ts ts' : List (Typ FT)) :
    unifys (t :: ts) (t' :: ts') = unify t t' :: unifys ts ts' := rfl

theorem canUnify_flatTyp_eq (t : FT) (b : Typ FT) :
    canUnify (flatTyp t) b = (t = TFlatTyp.dp .rreturn || b = rreturn || flatTyp t = b) := rfl

theorem canUnify_list_flatTyp (a : Typ FT) (t : FT) :
    canUnify (list a) (flatTyp t) = decide (t = TFlatTyp.dp .rreturn) := by
  show (decide (flatTyp t = rreturn) || false) = _
  simp [rreturn]

theorem canUnify_list (a b : Typ FT) : canUnify (list a) (list b) = canUnify a b := by
  show (decide (list b = rreturn) || canUnify a b) = _
  simp [rreturn]

theorem canUnify_list_tuple (a : Typ FT) (l : List (Typ FT)) :
    canUnify (list a) (tuple l) = false := by
  show (decide (tuple l = rreturn) || false) = _
  simp [rreturn]

theorem canUnify_tuple_flatTyp (l : List (Typ FT)) (t : FT) :
    canUnify (tuple l) (flatTyp t) = decide (t = TFlatTyp.dp .rreturn) := by
  show (decide (flatTyp t = rreturn) || false) = _
  simp [rreturn]

theorem canUnify_tuple_list (l : List (Typ FT)) (a : Typ FT) :
    canUnify (tuple l) (list a) = false := by
  show (decide (list a = rreturn) || false) = _
  simp [rreturn]

theorem canUnify_tuple (l l' : List (Typ FT)) :
    canUnify (tuple l) (tuple l') =
      (canUnifys l l' || (l.length = 0 && l'.length = 1) || (l.length = 1 && l'.length = 0)) := by
  show (decide (tuple l' = rreturn) || _) = _
  simp [rreturn]

@[simp] theorem canUnifys_nil_nil : canUnifys ([] : List (Typ FT)) [] = true := rfl

@[simp] theorem canUnifys_nil_cons (t : Typ FT) (ts : List (Typ FT)) :
    canUnifys [] (t :: ts) = false := rfl

@[simp] theorem canUnifys_cons_nil (t : Typ FT) (ts : List (Typ FT)) :
    canUnifys (t :: ts) [] = false := rfl

theorem canUnifys_cons (t t' : Typ FT) (ts ts' : List (Typ FT)) :
    canUnifys (t :: ts) (t' :: ts') = (canUnify t t' && canUnifys ts ts') := rfl

theorem unify_rreturn_left (b : Typ FT) : unify rreturn b = b := by
  rw [rreturn, unify_flatTyp, if_pos rfl]

theorem unify_rreturn_right (a : Typ FT) : unify a rreturn = a := by
  cases a with
  | flatTyp t =>
      rw [unify_flatTyp]
      by_cases ht : t = TFlatTyp.dp .rreturn
      · rw [if_pos ht, ht, rreturn]
      · rw [if_neg ht]
  | list a => exact unify_list_flatTyp a _
  | tuple l => exact unify_tuple_flatTyp l _

theorem canUnify_rreturn_left (b : Typ FT) : canUnify rreturn b = true := by
  rw [rreturn, canUnify_flatTyp_eq]
  simp

theorem canUnify_rreturn_right (a : Typ FT) : canUnify a rreturn = true := by
  cases a with
  | flatTyp t =>
      rw [canUnify_flatTyp_eq]
      simp
  | list a =>
      rw [rreturn, canUnify_list_flatTyp]
      simp
  | tuple l =>
      rw [rreturn, canUnify_tuple_flatTyp]
      simp

theorem canUnify_flatTyp {t : FT} (ht : t ≠ TFlatTyp.dp .rreturn) {b : Typ FT}
    (hb : b ≠ rreturn) : canUnify (flatTyp t) b = decide (flatTyp t = b) := by
  rw [canUnify_flatTyp_eq]
  simp [ht, hb]

theorem length_of_canUnifys : ∀ {l l' : List (Typ FT)}, canUnifys l l' = true →
    l.length = l'.length
  | [], [], _ => rfl
  | [], _ :: _, h => by simp at h
  | _ :: _, [], h => by simp at h
  | t :: ts, t' :: ts', h => by
      rw [canUnifys_cons, Bool.and_eq_true] at h
      rw [List.length_cons, List.length_cons, length_of_canUnifys h.2]

theorem unify_nil_left (l : List (Typ FT)) : unify (tuple []) (tuple l) = tuple l := by
  rw [unify_tuple, if_pos List.length_nil]

theorem unify_nil_right (l : List (Typ FT)) : unify (tuple l) (tuple []) = tuple l := by
  cases l with
  | nil => exact unify_nil_left []
  | cons t ts =>
      rw [unify_tuple, if_neg (by simp), if_pos List.length_nil]

theorem unify_cons (t t' : Typ FT) (ts ts' : List (Typ FT)) :
    unify (tuple (t :: ts)) (tuple (t' :: ts')) = tuple (unify t t' :: unifys ts ts') := by
  rw [unify_tuple, if_neg (by simp), if_neg (by simp), unifys_cons]

theorem canUnify_nil_nil : canUnify (tuple [] : Typ FT) (tuple []) = true := by
  rw [canUnify_tuple, canUnifys_nil_nil, Bool.true_or, Bool.true_or]

theorem canUnify_nil_cons (t : Typ FT) (ts : List (Typ FT)) :
    canUnify (tuple []) (tuple (t :: ts)) = ts.isEmpty := by
  rw [canUnify_tuple]
  cases ts <;> simp

theorem canUnify_cons_nil (t : Typ FT) (ts : List (Typ FT)) :
    canUnify (tuple (t :: ts)) (tuple []) = ts.isEmpty := by
  rw [canUnify_tuple]
  cases ts <;> simp

theorem canUnify_cons (t t' : Typ FT) (ts ts' : List (Typ FT)) :
    canUnify (tuple (t :: ts)) (tuple (t' :: ts')) = (canUnify t t' && canUnifys ts ts') := by
  rw [canUnify_tuple, canUnifys_cons]
  simp

/-! ## Two types -/

mutual
theorem canUnify_self : ∀ a : Typ FT, canUnify a a = true
  | flatTyp t => by
      by_cases ht : t = TFlatTyp.dp .rreturn
      · rw [ht]
        exact canUnify_rreturn_left _
      · rw [canUnify_flatTyp_eq]
        simp
  | list a => by rw [canUnify_list, canUnify_self a]
  | tuple l => by rw [canUnify_tuple, canUnifys_self l, Bool.true_or, Bool.true_or]

theorem canUnifys_self : ∀ l : List (Typ FT), canUnifys l l = true
  | [] => canUnifys_nil_nil
  | t :: ts => by rw [canUnifys_cons, canUnify_self t, canUnifys_self ts, Bool.and_self]
end

theorem canUnify_comm_flat (t : FT) (b : Typ FT) :
    canUnify (flatTyp t) b = canUnify b (flatTyp t) := by
  by_cases ht : t = TFlatTyp.dp .rreturn
  · rw [ht]
    show canUnify rreturn b = canUnify b rreturn
    rw [canUnify_rreturn_left, canUnify_rreturn_right]
  · by_cases hb : b = rreturn
    · rw [hb, canUnify_rreturn_left, canUnify_rreturn_right]
    · rw [canUnify_flatTyp ht hb]
      have hflat : flatTyp t ≠ rreturn := fun h => ht (by cases h; rfl)
      cases b with
      | flatTyp t' =>
          have ht' : t' ≠ TFlatTyp.dp .rreturn := fun h => hb (by rw [h, rreturn])
          rw [canUnify_flatTyp ht' hflat]
          exact decide_eq_decide.mpr eq_comm
      | list b =>
          rw [canUnify_list_flatTyp, decide_eq_false ht]
          simp
      | tuple l =>
          rw [canUnify_tuple_flatTyp, decide_eq_false ht]
          simp

mutual
theorem canUnify_comm : ∀ a b : Typ FT, canUnify a b = canUnify b a
  | flatTyp t, b => canUnify_comm_flat t b
  | list a, b => by
      cases b with
      | flatTyp t => exact (canUnify_comm_flat t (list a)).symm
      | list b => rw [canUnify_list, canUnify_list, canUnify_comm a b]
      | tuple l => rw [canUnify_list_tuple, canUnify_tuple_list]
  | tuple l, b => by
      cases b with
      | flatTyp t => exact (canUnify_comm_flat t (tuple l)).symm
      | list b => rw [canUnify_list_tuple, canUnify_tuple_list]
      | tuple l' =>
          rw [canUnify_tuple, canUnify_tuple, canUnifys_comm l l']
          cases canUnifys l' l <;> cases decide (l.length = 0) <;>
            cases decide (l.length = 1) <;> simp [Bool.or_comm]

theorem canUnifys_comm : ∀ l l' : List (Typ FT), canUnifys l l' = canUnifys l' l
  | [], [] => rfl
  | [], _ :: _ => by simp
  | _ :: _, [] => by simp
  | t :: ts, t' :: ts' => by
      rw [canUnifys_cons, canUnifys_cons, canUnify_comm t t', canUnifys_comm ts ts']
end

/-- A flat type unifies with the wildcard and with itself. -/
theorem canUnify_flatTyp_iff {t : FT} {b : Typ FT} (h : canUnify (flatTyp t) b = true) :
    flatTyp t = rreturn ∨ b = rreturn ∨ b = flatTyp t := by
  by_cases ht : t = TFlatTyp.dp .rreturn
  · exact Or.inl (congrArg flatTyp ht)
  · by_cases hb : b = rreturn
    · exact Or.inr (Or.inl hb)
    · rw [canUnify_flatTyp ht hb, decide_eq_true_eq] at h
      exact Or.inr (Or.inr h.symm)

mutual
theorem unify_self : ∀ a : Typ FT, unify a a = a
  | flatTyp t => by
      rw [unify_flatTyp]
      split <;> rfl
  | list a => by rw [unify_list, unify_self a]
  | tuple [] => unify_nil_left []
  | tuple (t :: ts) => by rw [unify_cons, unify_self t, unifys_self ts]

theorem unifys_self : ∀ l : List (Typ FT), unifys l l = l
  | [] => unifys_nil []
  | t :: ts => by rw [unifys_cons, unify_self t, unifys_self ts]
end

theorem unify_comm_flatTyp {t : FT} {b : Typ FT} (h : canUnify (flatTyp t) b = true) :
    unify (flatTyp t) b = unify b (flatTyp t) := by
  rcases canUnify_flatTyp_iff h with ht | hb | hb
  · rw [ht, unify_rreturn_left, unify_rreturn_right]
  · rw [hb, unify_rreturn_left, unify_rreturn_right]
  · rw [hb]

mutual
theorem unify_comm : ∀ a b : Typ FT, canUnify a b = true → unify a b = unify b a
  | flatTyp t, b, h => unify_comm_flatTyp h
  | list a, b, h => by
      cases b with
      | flatTyp t => exact (unify_comm_flatTyp ((canUnify_comm _ _).trans h)).symm
      | list b =>
          rw [canUnify_list] at h
          rw [unify_list, unify_list, unify_comm a b h]
      | tuple l =>
          rw [canUnify_list_tuple] at h
          cases h
  | tuple l, b, h => by
      cases b with
      | flatTyp t => exact (unify_comm_flatTyp ((canUnify_comm _ _).trans h)).symm
      | list b =>
          rw [canUnify_tuple_list] at h
          cases h
      | tuple l' =>
          match l, l' with
          | [], _ => rw [unify_nil_left, unify_nil_right]
          | _ :: _, [] => rw [unify_nil_left, unify_nil_right]
          | t :: ts, t' :: ts' =>
              rw [canUnify_cons, Bool.and_eq_true] at h
              rw [unify_cons, unify_cons, unify_comm t t' h.1, unifys_comm ts ts' h.2]

theorem unifys_comm : ∀ l l' : List (Typ FT), canUnifys l l' = true → unifys l l' = unifys l' l
  | [], [], _ => rfl
  | [], _ :: _, h => by simp at h
  | _ :: _, [], h => by simp at h
  | t :: ts, t' :: ts', h => by
      rw [canUnifys_cons, Bool.and_eq_true] at h
      rw [unifys_cons, unifys_cons, unify_comm t t' h.1, unifys_comm ts ts' h.2]
end

/-! ## Three types -/

mutual
/-- What unifies with the unifier of two types unifies with both of them. -/
theorem canUnify_unify : ∀ a b c : Typ FT, canUnify a b = true →
    canUnify (unify a b) c = (canUnify a c && canUnify b c)
  | flatTyp t, b, c, h => by
      rcases canUnify_flatTyp_iff h with ht | hb | hb
      · rw [ht, unify_rreturn_left, canUnify_rreturn_left, Bool.true_and]
      · rw [hb, unify_rreturn_right, canUnify_rreturn_left, Bool.and_true]
      · rw [hb, unify_self, Bool.and_self]
  | list a, b, c, h => by
      cases b with
      | flatTyp t =>
          rw [canUnify_list_flatTyp, decide_eq_true_eq] at h
          have hb : flatTyp t = rreturn := congrArg flatTyp h
          rw [hb, unify_rreturn_right, canUnify_rreturn_left, Bool.and_true]
      | list b =>
          rw [canUnify_list] at h
          rw [unify_list]
          cases c with
          | flatTyp t =>
              rw [canUnify_list_flatTyp, canUnify_list_flatTyp, canUnify_list_flatTyp,
                Bool.and_self]
          | list c => rw [canUnify_list, canUnify_list, canUnify_list, canUnify_unify a b c h]
          | tuple l =>
              rw [canUnify_list_tuple, canUnify_list_tuple, canUnify_list_tuple, Bool.and_self]
      | tuple l =>
          rw [canUnify_list_tuple] at h
          cases h
  | tuple l, b, c, h => by
      cases b with
      | flatTyp t =>
          rw [canUnify_tuple_flatTyp, decide_eq_true_eq] at h
          have hb : flatTyp t = rreturn := congrArg flatTyp h
          rw [hb, unify_rreturn_right, canUnify_rreturn_left, Bool.and_true]
      | list b =>
          rw [canUnify_tuple_list] at h
          cases h
      | tuple l' =>
          obtain ⟨u, hu⟩ : ∃ u, unify (tuple l) (tuple l') = tuple u := by
            rw [unify_tuple]
            split_ifs <;> exact ⟨_, rfl⟩
          cases c with
          | flatTyp t =>
              rw [hu, canUnify_tuple_flatTyp, canUnify_tuple_flatTyp, canUnify_tuple_flatTyp,
                Bool.and_self]
          | list c =>
              rw [hu, canUnify_tuple_list, canUnify_tuple_list, canUnify_tuple_list,
                Bool.and_self]
          | tuple l'' =>
              -- an option of nothing takes the length of the other option
              match l, l', l'' with
              | [], [], _ => rw [unify_nil_left, Bool.and_self]
              | [], t' :: ts', [] => rw [unify_nil_left, canUnify_nil_nil, Bool.true_and]
              | [], t' :: ts', t'' :: ts'' =>
                  rw [canUnify_nil_cons] at h
                  rw [unify_nil_left, canUnify_nil_cons, canUnify_cons]
                  cases ts' with
                  | nil => cases ts'' <;> simp
                  | cons u us => cases h
              | t :: ts, [], [] => rw [unify_nil_right, canUnify_nil_nil, Bool.and_true]
              | t :: ts, [], t'' :: ts'' =>
                  rw [canUnify_cons_nil] at h
                  rw [unify_nil_right, canUnify_nil_cons, canUnify_cons]
                  cases ts with
                  | nil => cases ts'' <;> simp
                  | cons u us => cases h
              | t :: ts, t' :: ts', [] =>
                  rw [canUnify_cons, Bool.and_eq_true] at h
                  have hlen := length_of_canUnifys h.2
                  rw [unify_cons, canUnify_cons_nil, canUnify_cons_nil, canUnify_cons_nil]
                  cases ts <;> cases ts' <;> simp_all [unifys_cons]
              | t :: ts, t' :: ts', t'' :: ts'' =>
                  rw [canUnify_cons, Bool.and_eq_true] at h
                  rw [unify_cons, canUnify_cons, canUnify_cons, canUnify_cons,
                    canUnify_unify t t' t'' h.1, canUnifys_unifys ts ts' ts'' h.2]
                  ac_rfl

theorem canUnifys_unifys : ∀ l l' l'' : List (Typ FT), canUnifys l l' = true →
    canUnifys (unifys l l') l'' = (canUnifys l l'' && canUnifys l' l'')
  | [], [], l'', _ => by rw [unifys_nil, Bool.and_self]
  | [], _ :: _, _, h => by simp at h
  | _ :: _, [], _, h => by simp at h
  | t :: ts, t' :: ts', [], h => by simp [unifys_cons]
  | t :: ts, t' :: ts', t'' :: ts'', h => by
      rw [canUnifys_cons, Bool.and_eq_true] at h
      rw [unifys_cons, canUnifys_cons, canUnifys_cons, canUnifys_cons,
        canUnify_unify t t' t'' h.1, canUnifys_unifys ts ts' ts'' h.2]
      ac_rfl
end

mutual
theorem unify_assoc : ∀ a b c : Typ FT, canUnify a b = true → canUnify a c = true →
    canUnify b c = true → unify (unify a b) c = unify a (unify b c)
  | flatTyp t, b, c, hab, hac, hbc => by
      rcases canUnify_flatTyp_iff hab with ht | hb | hb
      · rw [ht, unify_rreturn_left, unify_rreturn_left]
      · rw [hb, unify_rreturn_right, unify_rreturn_left]
      · rw [hb, unify_self]
        rcases canUnify_flatTyp_iff hac with ht | hc | hc
        · rw [ht, unify_rreturn_left, unify_rreturn_left]
        · rw [hc, unify_rreturn_right, unify_self]
        · rw [hc, unify_self, unify_self]
  | list a, b, c, hab, hac, hbc => by
      cases b with
      | flatTyp t =>
          rw [canUnify_list_flatTyp, decide_eq_true_eq] at hab
          have hb : flatTyp t = rreturn := congrArg flatTyp hab
          rw [hb, unify_rreturn_right, unify_rreturn_left]
      | list b =>
          cases c with
          | flatTyp t =>
              rw [canUnify_list_flatTyp, decide_eq_true_eq] at hac
              have hc : flatTyp t = rreturn := congrArg flatTyp hac
              rw [hc, unify_rreturn_right, unify_rreturn_right]
          | list c =>
              rw [canUnify_list] at hab hac hbc
              rw [unify_list, unify_list, unify_list, unify_list, unify_assoc a b c hab hac hbc]
          | tuple l =>
              rw [canUnify_list_tuple] at hac
              cases hac
      | tuple l =>
          rw [canUnify_list_tuple] at hab
          cases hab
  | tuple l, b, c, hab, hac, hbc => by
      cases b with
      | flatTyp t =>
          rw [canUnify_tuple_flatTyp, decide_eq_true_eq] at hab
          have hb : flatTyp t = rreturn := congrArg flatTyp hab
          rw [hb, unify_rreturn_right, unify_rreturn_left]
      | list b =>
          rw [canUnify_tuple_list] at hab
          cases hab
      | tuple l' =>
          cases c with
          | flatTyp t =>
              rw [canUnify_tuple_flatTyp, decide_eq_true_eq] at hac
              have hc : flatTyp t = rreturn := congrArg flatTyp hac
              rw [hc, unify_rreturn_right, unify_rreturn_right]
          | list c =>
              rw [canUnify_tuple_list] at hac
              cases hac
          | tuple l'' =>
              match l, l', l'' with
              | [], l', l'' =>
                  obtain ⟨u, hu⟩ : ∃ u, unify (tuple l') (tuple l'') = tuple u := by
                    rw [unify_tuple]
                    split_ifs <;> exact ⟨_, rfl⟩
                  rw [unify_nil_left, hu, unify_nil_left]
              | t :: ts, [], l'' => rw [unify_nil_right, unify_nil_left]
              | t :: ts, t' :: ts', [] => rw [unify_nil_right, unify_cons, unify_nil_right]
              | t :: ts, t' :: ts', t'' :: ts'' =>
                  rw [canUnify_cons, Bool.and_eq_true] at hab hac hbc
                  rw [unify_cons, unify_cons, unify_cons, unify_cons,
                    unify_assoc t t' t'' hab.1 hac.1 hbc.1,
                    unifys_assoc ts ts' ts'' hab.2 hac.2 hbc.2]

theorem unifys_assoc : ∀ l l' l'' : List (Typ FT), canUnifys l l' = true →
    canUnifys l l'' = true → canUnifys l' l'' = true →
    unifys (unifys l l') l'' = unifys l (unifys l' l'')
  | [], _, _, _, _, _ => by rw [unifys_nil, unifys_nil, unifys_nil]
  | _ :: _, [], _, h, _, _ => by simp at h
  | _ :: _, _ :: _, [], _, h, _ => by simp at h
  | t :: ts, t' :: ts', t'' :: ts'', hab, hac, hbc => by
      rw [canUnifys_cons, Bool.and_eq_true] at hab hac hbc
      rw [unifys_cons, unifys_cons, unifys_cons, unifys_cons,
        unify_assoc t t' t'' hab.1 hac.1 hbc.1, unifys_assoc ts ts' ts'' hab.2 hac.2 hbc.2]
end

variable (FT) in
/-- Types, with the wildcard as the least one. -/
def unifier : Coherent (Typ FT) where
  compat := canUnify
  join := unify
  bot := rreturn
  refl := canUnify_self
  symm := canUnify_comm
  compat_bot := canUnify_rreturn_left
  join_bot := unify_rreturn_left
  join_self := unify_self
  join_comm := unify_comm
  compat_join := canUnify_unify
  join_assoc := unify_assoc

theorem unifier_checked_cons (typ t : Typ FT) (ts : List (Typ FT)) :
    (unifier FT).checked typ (t :: ts) =
      if canUnify t typ then (unifier FT).checked (unify typ t) ts else none := rfl

end Typ

end Armour.Lang
