import Armour.Lib.BTree

/-! # Memo tables

A table keeps what was computed for a key of a query, and an answer is made from it for each
later query of that key.  The answers are right exactly where the rest of the query makes no
difference, or what is made of the stored value puts it in again.
-/

namespace Armour.Lib

/-- What is computed in a world, under which key it is kept, and what a query makes of it. -/
structure Memo (ω Q K V : Type) where
  compute : ω → Q → V
  key : Q → K
  restore : Q → V → V

namespace Memo

variable {ω Q K V : Type} [LinearOrder K] (m : Memo ω Q K V)

/-- Answer from the table, or compute and keep. -/
def lookup (w : ω) (t : BTreeMap K V) (q : Q) : V × BTreeMap K V :=
  match t.get? (m.key q) with
  | some v => (m.restore q v, t)
  | none => (m.compute w q, t.insert (m.key q) (m.compute w q))

/-- Everything in the table was computed in this world for a query of its key. -/
def Sound (w : ω) (t : BTreeMap K V) : Prop :=
  ∀ k v, t.get? k = some v → ∃ q, m.key q = k ∧ m.compute w q = v

variable {m} {w : ω} {t : BTreeMap K V} {q : Q}

theorem Sound.empty (w : ω) : m.Sound w ∅ := fun _ _ h => nomatch h

theorem Sound.lookup (h : m.Sound w t) (q : Q) : m.Sound w (m.lookup w t q).2 := by
  unfold Memo.lookup
  cases hq : t.get? (m.key q) with
  | some v => exact h
  | none =>
      intro k v hk
      by_cases hkey : k = m.key q
      · subst hkey
        rw [BTreeMap.get?_insert_self] at hk
        exact ⟨q, rfl, Option.some.inj hk⟩
      · rw [BTreeMap.get?_insert_ne t _ hkey] at hk
        exact h k v hk

theorem lookup_empty (w : ω) (q : Q) : (m.lookup w ∅ q).1 = m.compute w q := rfl

/-- An answer is what is computed, unless a stored value says otherwise. -/
theorem lookup_eq_iff : (m.lookup w t q).1 = m.compute w q ↔
    ∀ v, t.get? (m.key q) = some v → m.restore q v = m.compute w q := by
  unfold Memo.lookup
  cases hq : t.get? (m.key q) with
  | some v =>
      constructor
      · intro h v' hv'
        obtain rfl := Option.some.inj hv'
        exact h
      · exact fun h => h v rfl
  | none => exact ⟨fun _ _ hv => (nomatch hv), fun _ => rfl⟩

/-- A table whose keys leave out nothing that is not restored is never seen. -/
theorem Sound.transparent (h : m.Sound w t)
    (hrestore : ∀ q q', m.key q' = m.key q → m.restore q (m.compute w q') = m.compute w q) :
    (m.lookup w t q).1 = m.compute w q := by
  refine lookup_eq_iff.mpr (fun v hv => ?_)
  obtain ⟨q', hkey, rfl⟩ := h _ v hv
  exact hrestore q q' hkey

end Memo

end Armour.Lib
