import Armour.Lib.BTree
import Mathlib.Algebra.Ring.Nat

/-! # Binary formats

A value is written as a list of bytes and read off the front of one; a value that the format
cannot hold has no bytes.  `Exact` says what becomes of one value: it is read back when a
condition holds of it, and never read back otherwise.  The conditions compose, so that a
format of nested values knows exactly which of them survive it.
-/

namespace Armour.Lib

variable {α β γ : Type}

/-- Takes a value off the front of a list of bytes. -/
abbrev Parser (α : Type) := List UInt8 → Option (α × List UInt8)

namespace Parser

def fail : Parser α := fun _ => none

def pure (a : α) : Parser α := fun s => some (a, s)

def bind (rd : Parser α) (f : α → Parser β) : Parser β :=
  fun s => (rd s).bind (fun p => f p.1 p.2)

def map (rd : Parser α) (f : α → β) : Parser β := rd.bind (fun a => pure (f a))

def filterMap (rd : Parser α) (f : α → Option β) : Parser β :=
  rd.bind (fun a => ((f a).map pure).getD fail)

def pair (ra : Parser α) (rb : Parser β) : Parser (α × β) :=
  ra.bind (fun a => rb.map (fun b => (a, b)))

/-- A given number of values, one after the other. -/
def times (rd : Parser α) : Nat → Parser (List α)
  | 0 => pure []
  | n + 1 => (rd.pair (times rd n)).map (fun p => p.1 :: p.2)

def byte : Parser UInt8
  | [] => none
  | b :: s => some (b, s)

theorem bind_eq_some {rd : Parser α} {f : α → Parser β} {s r : List UInt8} {b : β} :
    rd.bind f s = some (b, r) ↔ ∃ a t, rd s = some (a, t) ∧ f a t = some (b, r) := by
  simp [bind, Option.bind_eq_some_iff]

theorem map_eq_some {rd : Parser α} {f : α → β} {s r : List UInt8} {b : β} :
    rd.map f s = some (b, r) ↔ ∃ a, rd s = some (a, r) ∧ f a = b := by
  simp only [map, bind_eq_some, pure, Option.some.injEq, Prod.mk.injEq]
  constructor
  · rintro ⟨a, t, h, rfl, rfl⟩
    exact ⟨a, h, rfl⟩
  · rintro ⟨a, h, rfl⟩
    exact ⟨a, r, h, rfl, rfl⟩

theorem filterMap_eq_some {rd : Parser α} {f : α → Option β} {s r : List UInt8} {b : β} :
    rd.filterMap f s = some (b, r) ↔ ∃ a, rd s = some (a, r) ∧ f a = some b := by
  simp only [filterMap, bind_eq_some]
  constructor
  · rintro ⟨a, t, h, hf⟩
    cases hfa : f a with
    | none => simp [hfa, fail] at hf
    | some b' =>
        simp only [hfa, Option.map_some, Option.getD_some, pure, Option.some.injEq,
          Prod.mk.injEq] at hf
        obtain ⟨rfl, rfl⟩ := hf
        exact ⟨a, h, hfa⟩
  · rintro ⟨a, h, hf⟩
    exact ⟨a, r, h, by simp [hf, pure]⟩

theorem pair_eq_some {ra : Parser α} {rb : Parser β} {s r : List UInt8} {p : α × β} :
    ra.pair rb s = some (p, r) ↔ ∃ t, ra s = some (p.1, t) ∧ rb t = some (p.2, r) := by
  obtain ⟨a, b⟩ := p
  simp only [pair, bind_eq_some, map_eq_some, Prod.mk.injEq]
  constructor
  · rintro ⟨a, t, ha, b, hb, rfl, rfl⟩
    exact ⟨t, ha, hb⟩
  · rintro ⟨t, ha, hb⟩
    exact ⟨a, t, ha, b, hb, rfl, rfl⟩

theorem times_succ_eq_some {rd : Parser α} {k : Nat} {s r : List UInt8} {l : List α} :
    rd.times (k + 1) s = some (l, r) ↔
      ∃ a t as, rd s = some (a, t) ∧ rd.times k t = some (as, r) ∧ l = a :: as := by
  simp only [times, map_eq_some, pair_eq_some]
  constructor
  · rintro ⟨⟨a, as⟩, ⟨t, ha, has⟩, rfl⟩
    exact ⟨a, t, as, ha, has, rfl⟩
  · rintro ⟨a, t, as, ha, has, rfl⟩
    exact ⟨(a, as), ⟨t, ha, has⟩, rfl⟩

theorem times_length {rd : Parser α} {k : Nat} {s r : List UInt8} {l : List α}
    (h : rd.times k s = some (l, r)) : l.length = k := by
  induction k generalizing s l with
  | zero =>
      cases h
      rfl
  | succ k ih =>
      obtain ⟨a, t, as, -, has, rfl⟩ := times_succ_eq_some.mp h
      rw [List.length_cons, ih has]

/-- What is read one value at a time has what every value that is read has. -/
theorem times_forall {rd : Parser α} {P : α → Prop}
    (hrd : ∀ s a r, rd s = some (a, r) → P a) {k : Nat} {s r : List UInt8} {l : List α}
    (h : rd.times k s = some (l, r)) : ∀ a ∈ l, P a := by
  induction k generalizing s l with
  | zero =>
      cases h
      simp
  | succ k ih =>
      obtain ⟨a, t, as, ha, has, rfl⟩ := times_succ_eq_some.mp h
      exact List.forall_mem_cons.mpr ⟨hrd s a t ha, ih has⟩

end Parser

/-! ## Writing -/

/-- The bytes of one value followed by those of another. -/
def cat (a b : Option (List UInt8)) : Option (List UInt8) := a.bind (fun x => b.map (x ++ ·))

theorem cat_eq_some {a b : Option (List UInt8)} {bs : List UInt8} :
    cat a b = some bs ↔ ∃ x y, a = some x ∧ b = some y ∧ bs = x ++ y := by
  cases a <;> cases b <;> simp [cat, eq_comm]

/-- The bytes of a list of values, in order. -/
def catMap (write : α → Option (List UInt8)) : List α → Option (List UInt8)
  | [] => some []
  | x :: xs => cat (write x) (catMap write xs)

/-! ## Exactness -/

/-- What becomes of a value `x` written as `w`, when that is at most `n` bytes: the value is
read back if `c` holds, and otherwise it is not, whatever follows it. -/
structure Exact (n : Nat) (rd : Parser α) (w : Option (List UInt8)) (x : α) (c : Prop) :
    Prop where
  reads : c → ∀ bs, w = some bs → bs.length ≤ n → ∀ rest, rd (bs ++ rest) = some (x, rest)
  misreads : ¬ c → ∀ bs, w = some bs → bs.length ≤ n → ∀ rest rest',
    rd (bs ++ rest) ≠ some (x, rest')

namespace Exact

variable {n : Nat} {ra : Parser α} {rb : Parser β} {wa wb : Option (List UInt8)} {a : α}
  {b : β} {ca cb c : Prop}

theorem congr (h : Exact n ra wa a ca) (hc : ca ↔ c) : Exact n ra wa a c :=
  propext hc ▸ h

/-- A value that is always read back. -/
theorem of_reads
    (h : ∀ bs, wa = some bs → bs.length ≤ n → ∀ rest, ra (bs ++ rest) = some (a, rest)) :
    Exact n ra wa a True :=
  ⟨fun _ => h, fun hc => absurd trivial hc⟩

theorem pure (a : α) : Exact n (Parser.pure a) (some []) a True :=
  of_reads (fun bs hbs _ rest => by cases hbs; rfl)

/-- A first value that is always read back decides how the next one is read. -/
theorem andThen {f : α → Parser β} (ha : Exact n ra wa a True) (hb : Exact n (f a) wb b c) :
    Exact n (ra.bind f) (cat wa wb) b c := by
  have hread : ∀ x y, wa = some x → (x ++ y).length ≤ n → ∀ rest,
      ra.bind f (x ++ y ++ rest) = f a (y ++ rest) := by
    intro x y hx hle rest
    rw [List.length_append] at hle
    simp [Parser.bind, ha.reads trivial x hx (by omega)]
  constructor
  · intro hc bs hbs hle rest
    obtain ⟨x, y, hx, hy, rfl⟩ := cat_eq_some.mp hbs
    rw [hread x y hx hle]
    exact hb.reads hc y hy (by rw [List.length_append] at hle; omega) rest
  · intro hc bs hbs hle rest rest'
    obtain ⟨x, y, hx, hy, rfl⟩ := cat_eq_some.mp hbs
    rw [hread x y hx hle]
    exact hb.misreads hc y hy (by rw [List.length_append] at hle; omega) rest rest'

theorem filterMap {f : α → Option β} (ha : Exact n ra wa a ca)
    (hinj : ∀ a', f a' = some b → a' = a) :
    Exact n (ra.filterMap f) wa b (ca ∧ f a = some b) := by
  constructor
  · rintro ⟨hca, hf⟩ bs hbs hle rest
    exact Parser.filterMap_eq_some.mpr ⟨a, ha.reads hca bs hbs hle rest, hf⟩
  · intro hc bs hbs hle rest rest' h
    obtain ⟨a', hread, hf⟩ := Parser.filterMap_eq_some.mp h
    obtain rfl := hinj a' hf
    exact ha.misreads (fun hca => hc ⟨hca, hf⟩) bs hbs hle rest rest' hread

theorem map {f : α → β} (ha : Exact n ra wa a ca) (hinj : ∀ a', f a' = f a → a' = a) :
    Exact n (ra.map f) wa (f a) ca := by
  constructor
  · intro hca bs hbs hle rest
    exact Parser.map_eq_some.mpr ⟨a, ha.reads hca bs hbs hle rest, rfl⟩
  · intro hca bs hbs hle rest rest' h
    obtain ⟨a', hread, hf⟩ := Parser.map_eq_some.mp h
    obtain rfl := hinj a' hf
    exact ha.misreads hca bs hbs hle rest rest' hread

theorem pair (ha : Exact n ra wa a ca) (hb : Exact n rb wb b cb) :
    Exact n (ra.pair rb) (cat wa wb) (a, b) (ca ∧ cb) := by
  constructor
  · rintro ⟨hca, hcb⟩ bs hbs hle rest
    obtain ⟨x, y, hx, hy, rfl⟩ := cat_eq_some.mp hbs
    rw [List.length_append] at hle
    rw [List.append_assoc]
    exact Parser.pair_eq_some.mpr ⟨y ++ rest, ha.reads hca x hx (by omega) _,
      hb.reads hcb y hy (by omega) rest⟩
  · intro hc bs hbs hle rest rest' h
    obtain ⟨x, y, hx, hy, rfl⟩ := cat_eq_some.mp hbs
    rw [List.length_append] at hle
    rw [List.append_assoc] at h
    obtain ⟨t, hreada, hreadb⟩ := Parser.pair_eq_some.mp h
    by_cases hca : ca
    · -- the first value is read back, so the second one is read from its own bytes
      have ht := ha.reads hca x hx (by omega) (y ++ rest)
      rw [ht] at hreada
      cases hreada
      exact hb.misreads (fun hcb => hc ⟨hca, hcb⟩) y hy (by omega) rest rest' hreadb
    · exact ha.misreads hca x hx (by omega) _ _ hreada

theorem times {rd : Parser α} {write : α → Option (List UInt8)} {P : α → Prop} :
    ∀ {xs : List α}, (∀ x ∈ xs, Exact n rd (write x) x (P x)) →
      Exact n (rd.times xs.length) (catMap write xs) xs (∀ x ∈ xs, P x)
  | [], _ => (Exact.pure []).congr (by simp)
  | x :: xs, h => by
      have hx := h x List.mem_cons_self
      have hxs := times (fun y hy => h y (List.mem_cons_of_mem _ hy))
      refine Exact.congr ?_ List.forall_mem_cons.symm
      refine (hx.pair hxs).map (f := fun p => p.1 :: p.2) ?_
      rintro ⟨y, ys⟩ he
      cases he
      rfl

/-- A reader of nested values that may go one level deeper for each byte there is. -/
theorem ofDepth {rd : Nat → Parser α} (h : ∀ n, Exact n (rd n) wa a c) (n : Nat) :
    Exact n (fun s => rd s.length s) wa a c := by
  have hle : ∀ bs rest : List UInt8, bs.length ≤ (bs ++ rest).length := by simp
  exact ⟨fun hc bs hbs _ rest => (h _).reads hc bs hbs (hle bs rest) rest,
    fun hc bs hbs _ rest rest' => (h _).misreads hc bs hbs (hle bs rest) rest rest'⟩

end Exact

/-! ## Numbers -/

/-- The `k` lowest bytes of a number, the lowest one first. -/
def putLE : Nat → Nat → List UInt8
  | 0, _ => []
  | k + 1, n => UInt8.ofNat n :: putLE k (n / 256)

def getLE : List UInt8 → Nat
  | [] => 0
  | b :: bs => b.toNat + 256 * getLE bs

theorem putLE_length (k n : Nat) : (putLE k n).length = k := by
  induction k generalizing n with
  | zero => rfl
  | succ k ih => rw [putLE, List.length_cons, ih]

theorem getLE_putLE {k n : Nat} (h : n < 256 ^ k) : getLE (putLE k n) = n := by
  induction k generalizing n with
  | zero =>
      rw [pow_zero] at h
      simp only [putLE, getLE]
      omega
  | succ k ih =>
      have hdiv : n / 256 < 256 ^ k := by
        rw [pow_succ] at h
        exact Nat.div_lt_of_lt_mul (by rwa [Nat.mul_comm])
      simp only [putLE, getLE, ih hdiv, UInt8.toNat_ofNat']
      omega

theorem times_byte (l rest : List UInt8) :
    Parser.byte.times l.length (l ++ rest) = some (l, rest) := by
  induction l with
  | nil => rfl
  | cons b l ih => exact Parser.times_succ_eq_some.mpr ⟨b, _, l, rfl, ih, rfl⟩

/-- A number that fits in `k` bytes. -/
def writeLE (k n : Nat) : Option (List UInt8) :=
  if n < 256 ^ k then some (putLE k n) else none

def readLE (k : Nat) : Parser Nat := (Parser.byte.times k).map getLE

theorem writeLE_eq_some {k n : Nat} {bs : List UInt8} :
    writeLE k n = some bs ↔ n < 256 ^ k ∧ putLE k n = bs := by
  unfold writeLE
  split_ifs with h <;> simp [h]

theorem Exact.le (k n : Nat) (m : Nat) : Exact m (readLE k) (writeLE k n) n True := by
  refine Exact.of_reads (fun bs hbs _ rest => ?_)
  obtain ⟨hlt, rfl⟩ := writeLE_eq_some.mp hbs
  have ht := times_byte (putLE k n) rest
  rw [putLE_length] at ht
  exact Parser.map_eq_some.mpr ⟨putLE k n, ht, getLE_putLE hlt⟩

/-! ## Lists, options and variants -/

/-- A list: the number of its elements in eight bytes, then the elements. -/
def writeList (write : α → Option (List UInt8)) (xs : List α) : Option (List UInt8) :=
  cat (writeLE 8 xs.length) (catMap write xs)

def Parser.list (rd : Parser α) : Parser (List α) := (readLE 8).bind rd.times

def writeOption (write : α → Option (List UInt8)) : Option α → Option (List UInt8)
  | none => some [0]
  | some a => cat (some [1]) (write a)

/-- An option: a byte that says whether there is a value, then the value. -/
def Parser.option (rd : Parser α) : Parser (Option α) :=
  byte.bind (fun b => if b = 0 then pure none else if b = 1 then rd.map some else fail)

/-- A variant: its number in four bytes, then its contents. -/
def tagged (i : Nat) (w : Option (List UInt8)) : Option (List UInt8) := cat (writeLE 4 i) w

/-- Variants in the order of their numbers. -/
def Parser.variant (alts : List (Parser α)) : Parser α :=
  (readLE 4).bind (fun i => (alts[i]?).getD fail)

/-- Variants whose contents may be of the same type again, to a given depth. -/
def Parser.nested (alts : Parser α → List (Parser α)) : Nat → Parser α
  | 0 => fail
  | n + 1 => variant (alts (nested alts n))

/-- Nested variants: each level takes at least the bytes of its number, so there are no more
levels than bytes. -/
def Parser.recursive (alts : Parser α → List (Parser α)) : Parser α :=
  fun s => nested alts s.length s

namespace Exact

variable {n : Nat} {rd : Parser α} {write : α → Option (List UInt8)} {w : Option (List UInt8)}
  {x : α} {P : α → Prop} {c : Prop}

theorem list {xs : List α} (h : ∀ a ∈ xs, Exact n rd (write a) a (P a)) :
    Exact n rd.list (writeList write xs) xs (∀ a ∈ xs, P a) :=
  (le 8 xs.length n).andThen (times h)

theorem option {o : Option α} (h : ∀ a ∈ o, Exact n rd (write a) a (P a)) :
    Exact n rd.option (writeOption write o) o (∀ a ∈ o, P a) := by
  have hbyte : ∀ b : UInt8, Exact n Parser.byte (some [b]) b True := fun b =>
    of_reads (fun bs hbs _ rest => by cases hbs; rfl)
  cases o with
  | none =>
      have h0 : Exact n rd.option (cat (some [0]) (some [])) none True :=
        (hbyte 0).andThen (Exact.pure none)
      exact h0.congr (by simp)
  | some a =>
      have h1 : Exact n rd.option (cat (some [1]) (write a)) (some a) (P a) :=
        (hbyte 1).andThen ((h a rfl).map (fun a' he => Option.some.inj he))
      exact h1.congr (by simp)

theorem variant {alts : List (Parser α)} {i : Nat} (hi : alts[i]? = some rd)
    (h : Exact n rd w x c) : Exact n (Parser.variant alts) (tagged i w) x c :=
  (le 4 i n).andThen (by rwa [hi, Option.getD_some])

/-- The rule for one variant of a recursive type: the contents are one level further down. -/
theorem nested {alts : Parser α → List (Parser α)} {i : Nat}
    (h : ∀ n, ∃ rd, (alts (Parser.nested alts n))[i]? = some rd ∧ Exact n rd w x c) :
    ∀ n, Exact n (Parser.nested alts n) (tagged i w) x c := by
  have hlen : ∀ bs, tagged i w = some bs → ∃ y, w = some y ∧ bs.length = 4 + y.length := by
    intro bs hbs
    obtain ⟨t, y, ht, hy, rfl⟩ := cat_eq_some.mp hbs
    obtain ⟨-, rfl⟩ := writeLE_eq_some.mp ht
    exact ⟨y, hy, by rw [List.length_append, putLE_length]⟩
  intro n
  cases n with
  | zero =>
      constructor
      · intro _ bs hbs hle
        obtain ⟨y, -, hy⟩ := hlen bs hbs
        omega
      · intro _ bs hbs hle
        obtain ⟨y, -, hy⟩ := hlen bs hbs
        omega
  | succ n =>
      obtain ⟨rd, hi, hrd⟩ := h n
      have hup : Exact (n + 1) rd (w.filter (fun y => y.length ≤ n)) x c := by
        constructor
        · intro hc bs hbs hle
          obtain ⟨hbs, hn⟩ := Option.filter_eq_some_iff.mp hbs
          exact hrd.reads hc bs hbs (by simpa using hn)
        · intro hc bs hbs hle
          obtain ⟨hbs, hn⟩ := Option.filter_eq_some_iff.mp hbs
          exact hrd.misreads hc bs hbs (by simpa using hn)
      have hvar := variant hi hup
      have hsub : ∀ bs, tagged i w = some bs → bs.length ≤ n + 1 →
          tagged i (w.filter (fun y => y.length ≤ n)) = some bs := by
        intro bs hbs hle
        obtain ⟨t, y, ht, hy, rfl⟩ := cat_eq_some.mp hbs
        obtain ⟨y', hy', hl⟩ := hlen _ hbs
        cases hy.symm.trans hy'
        refine cat_eq_some.mpr ⟨t, y, ht, ?_, rfl⟩
        exact Option.filter_eq_some_iff.mpr ⟨hy, by simp only [decide_eq_true_eq]; omega⟩
      exact ⟨fun hc bs hbs hle => hvar.reads hc bs (hsub bs hbs hle) hle,
        fun hc bs hbs hle => hvar.misreads hc bs (hsub bs hbs hle) hle⟩

end Exact

end Armour.Lib
