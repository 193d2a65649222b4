import Mathlib.Data.List.Basic

/-! # Incremental decoding

A decoder is asked for the next item of a buffer and answers `more` when the buffer does not
hold a whole one.  If appending to the buffer does not change what is decoded (`Stable`), a
stream can be cut into chunks anywhere: `receive_eq_drain`.
-/

namespace Armour.Lib

variable {α β ε : Type}

/-- The answer of a decoder, with the rest of the buffer. -/
inductive Step (α β ε : Type) where
  | more
  | item (a : α) (rest : List β)
  | fail (e : ε) (rest : List β)

/-- Items decoded, an error that ended the decoding, and the rest of the buffer. -/
structure Decoded (α β ε : Type) where
  items : List α
  error : Option ε
  rest : List β

/-- The items that come before those of `d`. -/
def Decoded.prepend (as : List α) (d : Decoded α β ε) : Decoded α β ε :=
  { d with items := as ++ d.items }

/-- What is decoded does not depend on what follows in the buffer, and every item takes some
of the buffer away. -/
structure Stable (next : List β → Step α β ε) : Prop where
  item : ∀ {s a r}, next s = .item a r → ∀ t, next (s ++ t) = .item a (r ++ t)
  fail : ∀ {s e r}, next s = .fail e r → ∀ t, next (s ++ t) = .fail e (r ++ t)
  progress : ∀ {s a r}, next s = .item a r → r.length < s.length

/-- Ask for items until there is none; `n` bounds their number. -/
def drainN (next : List β → Step α β ε) : Nat → List β → Decoded α β ε
  | 0, s => ⟨[], none, s⟩
  | n + 1, s =>
      match next s with
      | .more => ⟨[], none, s⟩
      | .item a r => (drainN next n r).prepend [a]
      | .fail e r => ⟨[], some e, r⟩

def drain (next : List β → Step α β ε) (s : List β) : Decoded α β ε :=
  drainN next (s.length + 1) s

/-- Decode after each chunk, until an error. -/
def receive (next : List β → Step α β ε) : List (List β) → List β → Decoded α β ε
  | [], buf => ⟨[], none, buf⟩
  | c :: cs, buf =>
      let d := drain next (buf ++ c)
      match d.error with
      | some _ => d
      | none => (receive next cs d.rest).prepend d.items

variable {next : List β → Step α β ε}

theorem Decoded.prepend_append (as bs : List α) (d : Decoded α β ε) :
    (d.prepend bs).prepend as = d.prepend (as ++ bs) := by
  simp [prepend, List.append_assoc]

/-- Induction along the items of a buffer. -/
theorem Stable.induct (h : Stable next) {P : List β → Prop}
    (step : ∀ s, (∀ a r, next s = .item a r → P r) → P s) (s : List β) : P s := by
  suffices hall : ∀ n, ∀ s : List β, s.length < n → P s from hall (s.length + 1) s (by omega)
  intro n
  induction n with
  | zero => intro s hs; omega
  | succ n ih =>
      intro s hs
      refine step s (fun a r hr => ih r ?_)
      have := h.progress hr
      omega

theorem drainN_of_le (h : Stable next) (s : List β) :
    ∀ {n : Nat}, s.length < n → drainN next n s = drain next s := by
  induction s using h.induct with
  | step s ih =>
      intro n hn
      obtain ⟨n, rfl⟩ : ∃ k, n = k + 1 := ⟨n - 1, by omega⟩
      unfold drain
      simp only [drainN]
      cases hs : next s with
      | more => rfl
      | fail e r => rfl
      | item a r =>
          have hr := h.progress hs
          have h1 : r.length < n := by omega
          simp only [ih a r hs h1, ih a r hs hr]

theorem drain_eq (h : Stable next) (s : List β) :
    drain next s =
      match next s with
      | .more => ⟨[], none, s⟩
      | .item a r => (drain next r).prepend [a]
      | .fail e r => ⟨[], some e, r⟩ := by
  rw [drain, drainN]
  cases hs : next s with
  | more => rfl
  | fail e r => rfl
  | item a r => simp only [drainN_of_le h r (h.progress hs)]

theorem drain_more (h : Stable next) {s : List β} (hs : next s = .more) :
    drain next s = ⟨[], none, s⟩ := by
  rw [drain_eq h, hs]

theorem drain_item (h : Stable next) {s r : List β} {a : α} (hs : next s = .item a r) :
    drain next s = (drain next r).prepend [a] := by
  rw [drain_eq h, hs]

theorem drain_fail (h : Stable next) {s r : List β} {e : ε} (hs : next s = .fail e r) :
    drain next s = ⟨[], some e, r⟩ := by
  rw [drain_eq h, hs]

/-- After draining there is nothing more to decode, or there was an error. -/
theorem drain_rest (h : Stable next) (s : List β) (he : (drain next s).error = none) :
    next (drain next s).rest = .more := by
  induction s using h.induct with
  | step s ih =>
      cases hs : next s with
      | more => rwa [drain_more h hs]
      | fail e r =>
          rw [drain_fail h hs] at he
          cases he
      | item a r =>
          rw [drain_item h hs] at he ⊢
          exact ih a r hs he

/-- Decoding a prefix first; an error of the prefix is one of the whole. -/
theorem drain_append (h : Stable next) (s t : List β) :
    match (drain next s).error with
    | none => drain next (s ++ t) =
        (drain next ((drain next s).rest ++ t)).prepend (drain next s).items
    | some e => (drain next (s ++ t)).error = some e := by
  induction s using h.induct with
  | step s ih =>
      cases hs : next s with
      | more =>
          rw [drain_more h hs]
          simp [Decoded.prepend]
      | fail e r =>
          rw [drain_fail h hs, drain_fail h (h.fail hs t)]
      | item a r =>
          have ih := ih a r hs
          rw [drain_item h hs, drain_item h (h.item hs t)]
          show match (drain next r).error with
            | none => (drain next (r ++ t)).prepend [a] = _
            | some e => (drain next (r ++ t)).error = some e
          cases he : (drain next r).error with
          | none =>
              rw [he] at ih
              dsimp only at ih ⊢
              rw [ih, Decoded.prepend_append]
              rfl
          | some e =>
              rw [he] at ih
              exact ih

/-- The chunks of a stream without errors give the items of the stream. -/
theorem receive_eq_drain (h : Stable next) (cs : List (List β)) (buf : List β)
    (hbuf : next buf = .more) (he : (drain next (buf ++ cs.flatten)).error = none) :
    receive next cs buf = drain next (buf ++ cs.flatten) := by
  induction cs generalizing buf with
  | nil =>
      rw [receive, List.flatten_nil, List.append_nil, drain_eq h, hbuf]
  | cons c cs ih =>
      rw [List.flatten_cons, ← List.append_assoc] at he ⊢
      have happ := drain_append h (buf ++ c) cs.flatten
      cases hc : (drain next (buf ++ c)).error with
      | some e =>
          rw [hc] at happ
          exact absurd (he.symm.trans happ) (by simp)
      | none =>
          rw [hc] at happ
          dsimp only at happ
          rw [happ] at he ⊢
          simp only [receive, hc]
          rw [ih _ (drain_rest h _ hc) he]

end Armour.Lib
