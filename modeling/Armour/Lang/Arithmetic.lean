import Armour.Lang.Semantics
import Armour.Lang.Tables
import Armour.Lang.ControlPlane
import Mathlib.Algebra.Group.Int.Units

/-! # Integer arithmetic

Integers of the language are `i64`.  An operator or built-in function on integers is exact
when its result is that of mathematics; the condition `InRange` says for which arguments the
interpreter answers so, and for all others it panics, wraps or truncates.
-/

namespace Armour.Lang

open Armour.Lib

/-- An operator or built-in function that takes integers, with the arguments. -/
inductive IntegerCall where
  | neg (i : Int64)
  | plus (i j : Int64)
  | minus (i j : Int64)
  | multiply (i j : Int64)
  | divide (i j : Int64)
  | remainder (i j : Int64)
  | abs (i : Int64)
  | pow (i j : Int64)
  | min (i j : Int64)
  | max (i j : Int64)
  | newResponse (code : Int64)
  | setPort (id : ID) (port : Int64)
  | ipFrom (a b c d : Int64)

namespace IntegerCall

/-- The functions among them; no identifier of a program is one of these names. -/
def functions : List String :=
  ["i64::abs", "i64::pow", "i64::min", "i64::max", "HttpResponse::new", "ID::set_port",
    "IpAddr::from"]

section

variable {FT FL : Type} [TFlatTyp FT] [TFlatLiteral FT FL]

def args : IntegerCall → List (Literal FL)
  | neg i | abs i | newResponse i => [.int i]
  | plus i j | minus i j | multiply i j | divide i j | remainder i j
  | pow i j | min i j | max i j => [.int i, .int j]
  | setPort id q => [.id id, .int q]
  | ipFrom a b c d => [.int a, .int b, .int c, .int d]

/-- The operator or function applied to operands. -/
def expr (isAsync : Bool) : IntegerCall → List (Expr FL) → Option (Expr FL)
  | neg _, [e] => some (.prefixExpr .minus e)
  | plus _ _, [e1, e2] => some (.infixExpr .plus e1 e2)
  | minus _ _, [e1, e2] => some (.infixExpr .minus e1 e2)
  | multiply _ _, [e1, e2] => some (.infixExpr .multiply e1 e2)
  | divide _ _, [e1, e2] => some (.infixExpr .divide e1 e2)
  | remainder _ _, [e1, e2] => some (.infixExpr .remainder e1 e2)
  | abs _, es => some (.callExpr "i64::abs" es isAsync)
  | pow _ _, es => some (.callExpr "i64::pow" es isAsync)
  | min _ _, es => some (.callExpr "i64::min" es isAsync)
  | max _ _, es => some (.callExpr "i64::max" es isAsync)
  | newResponse _, es => some (.callExpr "HttpResponse::new" es isAsync)
  | setPort _ _, es => some (.callExpr "ID::set_port" es isAsync)
  | ipFrom _ _ _ _, es => some (.callExpr "IpAddr::from" es isAsync)
  | _, _ => none

end

/-! ## Exact results -/

/-- `k` is the power `i ^ j`; a negative exponent asks for the reciprocal. -/
def IsPower (i j k : Int) : Prop :=
  (0 ≤ j ∧ k = i ^ j.toNat) ∨ (j < 0 ∧ k * i ^ (-j).toNat = 1)

/-- The mathematically exact result. -/
def Denotes : IntegerCall → DPLiteral → Prop
  | neg i, l => ∃ k : Int64, l = .int k ∧ k.toInt = -i.toInt
  | plus i j, l => ∃ k : Int64, l = .int k ∧ k.toInt = i.toInt + j.toInt
  | minus i j, l => ∃ k : Int64, l = .int k ∧ k.toInt = i.toInt - j.toInt
  | multiply i j, l => ∃ k : Int64, l = .int k ∧ k.toInt = i.toInt * j.toInt
  | divide i j, l => ∃ k : Int64, l = .int k ∧ j ≠ 0 ∧ k.toInt = i.toInt.tdiv j.toInt
  | remainder i j, l => ∃ k : Int64, l = .int k ∧ j ≠ 0 ∧ k.toInt = i.toInt.tmod j.toInt
  | abs i, l => ∃ k : Int64, l = .int k ∧ k.toInt = |i.toInt|
  | pow i j, l => ∃ k : Int64, l = .int k ∧ IsPower i.toInt j.toInt k.toInt
  | min i j, l => ∃ k : Int64, l = .int k ∧ k.toInt = Min.min i.toInt j.toInt
  | max i j, l => ∃ k : Int64, l = .int k ∧ k.toInt = Max.max i.toInt j.toInt
  | newResponse c, l => ∃ s : UInt16, (s.toNat : Int) = c.toInt ∧
      l = .dp (.httpResponse { HttpResponse.empty with status := s })
  | setPort id q, l => ∃ p : UInt16, (p.toNat : Int) = q.toInt ∧ l = .id (id.setPort p)
  | ipFrom a b c d, l => ∃ o₁ o₂ o₃ o₄ : UInt8, (o₁.toNat : Int) = a.toInt ∧
      (o₂.toNat : Int) = b.toInt ∧ (o₃.toNat : Int) = c.toInt ∧ (o₄.toNat : Int) = d.toInt ∧
      l = .ipAddr (.ofOctets o₁ o₂ o₃ o₄)

/-- The integer fits in 64 bits. -/
def Fits (n : Int) : Prop := -2 ^ 63 ≤ n ∧ n < 2 ^ 63

/-- The arguments for which the interpreter is exact, or fails with an error. -/
def InRange : IntegerCall → Prop
  | neg i | abs i => i ≠ Int64.minValue
  | plus i j => Fits (i.toInt + j.toInt)
  | minus i j => Fits (i.toInt - j.toInt)
  | multiply i j => Fits (i.toInt * j.toInt)
  | divide i j | remainder i j => ¬(i = Int64.minValue ∧ j = -1)
  | pow i j =>
      (0 ≤ j.toInt ∧ Fits (i.toInt ^ j.toInt.toNat) ∧
        ¬(i = 0 ∧ j ≠ 0 ∧ (2 : Int) ^ 32 ∣ j.toInt)) ∨
      (j.toInt < 0 ∧ (i = 1 ∨ i = -1))
  | min _ _ | max _ _ => True
  | newResponse q | setPort _ q => 0 ≤ q.toInt ∧ q.toInt < 2 ^ 16
  | ipFrom a b c d => ∀ o ∈ [a, b, c, d], 0 ≤ o.toInt ∧ o.toInt < 2 ^ 8

/-! ## Machine integers -/

theorem fits_toInt (k : Int64) : Fits k.toInt := ⟨k.minValue_le_toInt, k.toInt_lt⟩

theorem toInt_ofInt {n : Int} (h : Fits n) : (Int64.ofInt n).toInt = n :=
  Int64.toInt_ofInt_of_le h.1 h.2

theorem i64_of_fits {pf : Platform} {n : Int} {msg : String} (h : Fits n) :
    pf.i64 n msg = .ok (Int64.ofInt n) := if_pos h

/-- A result that meets the specification, or none. -/
def Sound (P : DPLiteral → Prop) (r : Checked (Option DPLiteral)) : Prop :=
  r = .ok none ∨ ∃ l, r = .ok (some l) ∧ P l

theorem sound_some {P : DPLiteral → Prop} {l : DPLiteral} : Sound P (.ok (some l)) ↔ P l := by
  constructor
  · rintro (h | ⟨l', h, hl⟩)
    · cases h
    · cases h
      exact hl
  · exact fun h => Or.inr ⟨l, rfl, h⟩

theorem int_inj {i j : Int64} (h : (.int i : DPLiteral) = .int j) : i = j := by
  cases h
  rfl

/-- An operation of the machine: outside 64 bits it panics or wraps, and either way misses
a specification that only integers outside 64 bits meet. -/
theorem sound_i64 {pf : Platform} {n : Int} {msg : String} {Q : Int → Prop}
    (hQ : ∀ m, Fits m → Q m → Fits n) :
    Sound (fun l => ∃ k : Int64, l = .int k ∧ Q k.toInt)
        (do return some (.int (← pf.i64 n msg))) ↔ Fits n ∧ Q n := by
  by_cases hn : Fits n
  · rw [i64_of_fits hn]
    show Sound _ (.ok (some (.int (Int64.ofInt n)))) ↔ _
    rw [sound_some]
    constructor
    · rintro ⟨k, hk, hq⟩
      rw [← int_inj hk, toInt_ofInt hn] at hq
      exact ⟨hn, hq⟩
    · intro h
      refine ⟨_, rfl, ?_⟩
      rw [toInt_ofInt hn]
      exact h.2
  · refine iff_of_false ?_ (fun h => hn h.1)
    unfold Platform.i64
    rw [if_neg (show ¬(-2 ^ 63 ≤ n ∧ n < 2 ^ 63) from hn)]
    -- a debug build panics, a release build wraps
    cases pf.overflowChecks
    · show ¬Sound _ (.ok (some (.int (Int64.ofInt n))))
      rw [sound_some]
      rintro ⟨k, -, hq⟩
      exact hn (hQ k.toInt (fits_toInt k) hq)
    · rintro (h | ⟨l, h, -⟩) <;> cases h

/-- An operation whose specification is the very integer that the machine computes with. -/
theorem sound_i64_eq {pf : Platform} {n : Int} {msg : String} :
    Sound (fun l => ∃ k : Int64, l = .int k ∧ k.toInt = n)
        (do return some (.int (← pf.i64 n msg))) ↔ Fits n := by
  refine (sound_i64 (Q := fun m => m = n) (fun m hm hq => ?_)).trans (and_iff_left rfl)
  rwa [← hq]

/-! ## Powers -/

/-- The exponent that `as u32` leaves. -/
theorem toUInt32_toNat (j : Int64) : (j.toUInt64.toUInt32.toNat : Int) = j.toInt % 2 ^ 32 := by
  have h : j.toInt = j.toUInt64.toBitVec.toInt := rfl
  rw [h, BitVec.toInt_eq_toNat_cond, UInt64.toNat_toUInt32]
  have hlt := j.toUInt64.toNat_lt
  show ((j.toUInt64.toNat % 2 ^ 32 : Nat) : Int) = _
  have hb : j.toUInt64.toBitVec.toNat = j.toUInt64.toNat := rfl
  rw [hb]
  split <;> omega

theorem fits_neg_one_zero_one {n : Int} (h : n = 0 ∨ n = 1 ∨ n = -1) : Fits n := by
  unfold Fits
  omega

theorem small_or_big (i : Int) : (i = 0 ∨ i = 1 ∨ i = -1) ∨ 2 ≤ i.natAbs := by omega

theorem pow_small {i : Int} (h : i = 0 ∨ i = 1 ∨ i = -1) (n : Nat) :
    i ^ n = 0 ∨ i ^ n = 1 ∨ i ^ n = -1 := by
  rcases h with rfl | rfl | rfl
  · cases n with
    | zero => exact Or.inr (Or.inl rfl)
    | succ n => exact Or.inl (by rw [pow_succ, mul_zero])
  · exact Or.inr (Or.inl (one_pow n))
  · exact Or.inr (neg_one_pow_eq_or Int n)

/-- A power of an integer of at least two digits fits only up to the exponent 63. -/
theorem lt_of_fits_pow {i : Int} {n : Nat} (hi : 2 ≤ i.natAbs) (h : Fits (i ^ n)) : n < 64 := by
  have hle : (i ^ n).natAbs ≤ 2 ^ 63 := by
    unfold Fits at h
    omega
  rw [Int.natAbs_pow] at hle
  have hpow : 2 ^ n ≤ 2 ^ 63 := le_trans (Nat.pow_le_pow_left hi n) hle
  have := (Nat.pow_le_pow_iff_right (by decide : 1 < 2)).mp hpow
  omega

/-- Only units have a reciprocal. -/
theorem unit_of_mul_pow {i k : Int} {n : Nat} (hn : n ≠ 0) (h : k * i ^ n = 1) :
    i = 1 ∨ i = -1 := by
  have hdvd : i ∣ 1 := h ▸ Dvd.dvd.mul_left (dvd_pow_self i hn) k
  exact Int.isUnit_iff.mp (isUnit_of_dvd_one hdvd)

theorem neg_one_pow_congr {a b : Nat} (h : (a : Int) % 2 = (b : Int) % 2) :
    (-1 : Int) ^ a = (-1) ^ b := by
  have h' : a % 2 = b % 2 := by omega
  rw [neg_one_pow_eq_pow_mod_two, h', ← neg_one_pow_eq_pow_mod_two]

section

variable {i j : Int} {e : Nat}

/-- If the exact power fits, then so does the one that is computed. -/
theorem fits_of_isPower (he : (e : Int) = j % 2 ^ 32) {m : Int} (hm : Fits m)
    (h : IsPower i j m) : Fits (i ^ e) := by
  rcases small_or_big i with hi | hi
  · exact fits_neg_one_zero_one (pow_small hi e)
  · rcases h with ⟨hj, rfl⟩ | ⟨hj, h⟩
    · have hlt := lt_of_fits_pow hi hm
      have hej : e = j.toNat := by omega
      rwa [hej]
    · rcases unit_of_mul_pow (by omega) h with rfl | rfl <;> omega

/-- The computed power is the exact one. -/
theorem isPower_iff (he : (e : Int) = j % 2 ^ 32) :
    (Fits (i ^ e) ∧ IsPower i j (i ^ e)) ↔
      (0 ≤ j ∧ Fits (i ^ j.toNat) ∧ ¬(i = 0 ∧ j ≠ 0 ∧ (2 : Int) ^ 32 ∣ j)) ∨
      (j < 0 ∧ (i = 1 ∨ i = -1)) := by
  constructor
  · rintro ⟨hfit, ⟨hj, h⟩ | ⟨hj, h⟩⟩
    · refine Or.inl ⟨hj, h ▸ hfit, ?_⟩
      rintro ⟨rfl, hj0, hdvd⟩
      have he0 : e = 0 := by omega
      rw [he0, pow_zero, zero_pow (by omega)] at h
      exact one_ne_zero h
    · exact Or.inr ⟨hj, unit_of_mul_pow (by omega) h⟩
  · rintro (⟨hj, hfit, hzero⟩ | ⟨hj, hi⟩)
    · -- the exponent is kept, or the base is too small for it to matter
      have hpow : i ^ e = i ^ j.toNat := by
        rcases small_or_big i with (rfl | rfl | rfl) | hi
        · by_cases hj0 : j = 0
          · have he0 : e = j.toNat := by omega
            rw [he0]
          · rw [zero_pow (by omega), zero_pow (by omega)]
        · rw [one_pow, one_pow]
        · exact neg_one_pow_congr (by omega)
        · have hlt := lt_of_fits_pow hi hfit
          have hej : e = j.toNat := by omega
          rw [hej]
      rw [hpow]
      exact ⟨hfit, Or.inl ⟨hj, rfl⟩⟩
    · refine ⟨fits_neg_one_zero_one (pow_small (Or.inr hi) e), Or.inr ⟨hj, ?_⟩⟩
      rcases hi with rfl | rfl
      · rw [one_pow, one_pow, one_mul]
      · rw [neg_one_pow_congr (show (e : Int) % 2 = ((-j).toNat : Int) % 2 by omega), ← pow_add]
        exact Even.neg_one_pow ⟨_, rfl⟩

end

/-! ## Narrowing conversions -/

theorem toUInt64_toNat (q : Int64) : (q.toUInt64.toNat : Int) = q.toInt % 2 ^ 64 := by
  have h : q.toInt = q.toUInt64.toBitVec.toInt := rfl
  have hlt := q.toUInt64.toNat_lt
  have hb : q.toUInt64.toBitVec.toNat = q.toUInt64.toNat := rfl
  rw [h, BitVec.toInt_eq_toNat_cond, hb]
  split <;> omega

theorem toUInt16_toNat (q : Int64) : (q.toUInt64.toUInt16.toNat : Int) = q.toInt % 2 ^ 16 := by
  have h := toUInt64_toNat q
  rw [UInt64.toNat_toUInt16]
  omega

theorem toUInt8_toNat (q : Int64) : (q.toUInt64.toUInt8.toNat : Int) = q.toInt % 2 ^ 8 := by
  have h := toUInt64_toNat q
  rw [UInt64.toNat_toUInt8]
  omega

theorem inRange_of_uint16 {q : Int} {p : UInt16} (h : (p.toNat : Int) = q) :
    0 ≤ q ∧ q < 2 ^ 16 := by
  have := p.toNat_lt
  omega

theorem inRange_of_uint8 {q : Int} {p : UInt8} (h : (p.toNat : Int) = q) :
    0 ≤ q ∧ q < 2 ^ 8 := by
  have := p.toNat_lt
  omega

/-! ## The table -/

/-- What the interpreter answers. -/
def answer (pf : Platform) : IntegerCall → Checked (Option DPLiteral)
  | neg i => DPFlatLiteral.evalPrefix pf (.int i) .minus
  | plus i j => DPFlatLiteral.evalInfix pf (.int i) .plus (.int j)
  | minus i j => DPFlatLiteral.evalInfix pf (.int i) .minus (.int j)
  | multiply i j => DPFlatLiteral.evalInfix pf (.int i) .multiply (.int j)
  | divide i j => DPFlatLiteral.evalInfix pf (.int i) .divide (.int j)
  | remainder i j => DPFlatLiteral.evalInfix pf (.int i) .remainder (.int j)
  | abs i => DPFlatLiteral.evalCall1 pf (.int i) "i64::abs"
  | pow i j => DPFlatLiteral.evalCall2 pf (.int i) "i64::pow" (.int j)
  | min i j => DPFlatLiteral.evalCall2 pf (.int i) "i64::min" (.int j)
  | max i j => DPFlatLiteral.evalCall2 pf (.int i) "i64::max" (.int j)
  | newResponse c => DPFlatLiteral.evalCall1 pf (.int c) "HttpResponse::new"
  | setPort id q => DPFlatLiteral.evalCall2 pf (.id id) "ID::set_port" (.int q)
  | ipFrom a b c d => .ok (DPFlatLiteral.evalCall4 (.int a) "IpAddr::from" (.int b) (.int c) (.int d))

theorem fits_neg_iff (i : Int64) : Fits (-i.toInt) ↔ i ≠ Int64.minValue := by
  have h := fits_toInt i
  rw [Ne, ← Int64.toInt_inj, show Int64.minValue.toInt = -2 ^ 63 from rfl]
  unfold Fits at *
  omega

theorem fits_abs_iff (i : Int64) : Fits |i.toInt| ↔ i ≠ Int64.minValue := by
  have h := fits_toInt i
  rw [Ne, ← Int64.toInt_inj, show Int64.minValue.toInt = -2 ^ 63 from rfl]
  rcases le_total 0 i.toInt with hi | hi
  · rw [abs_of_nonneg hi]
    unfold Fits at *
    omega
  · rw [abs_of_nonpos hi]
    unfold Fits at *
    omega

theorem sound_divide (pf : Platform) (i j : Int64) :
    Sound (Denotes (divide i j)) (answer pf (divide i j)) ↔ InRange (divide i j) := by
  show Sound _ (if j = 0 then .ok none
    else if i = Int64.minValue ∧ j = -1 then .error "attempt to divide with overflow"
    else .ok (some (.int (i / j)))) ↔ ¬(i = Int64.minValue ∧ j = -1)
  by_cases hj : j = 0
  · rw [if_pos hj]
    refine iff_of_true (Or.inl rfl) ?_
    rintro ⟨-, rfl⟩
    cases hj
  · rw [if_neg hj]
    by_cases hmin : i = Int64.minValue ∧ j = -1
    · rw [if_pos hmin]
      refine iff_of_false ?_ (fun h => h hmin)
      rintro (h | ⟨l, h, -⟩) <;> cases h
    · rw [if_neg hmin, sound_some]
      refine iff_of_true ⟨_, rfl, hj, ?_⟩ hmin
      by_cases hi : i = Int64.minValue
      · exact Int64.toInt_div_of_ne_right i j (fun h => hmin ⟨hi, h⟩)
      · exact Int64.toInt_div_of_ne_left i j hi

theorem sound_remainder (pf : Platform) (i j : Int64) :
    Sound (Denotes (remainder i j)) (answer pf (remainder i j)) ↔ InRange (remainder i j) := by
  show Sound _ (if j = 0 then .ok none
    else if i = Int64.minValue ∧ j = -1 then
      .error "attempt to calculate the remainder with overflow"
    else .ok (some (.int (i % j)))) ↔ ¬(i = Int64.minValue ∧ j = -1)
  by_cases hj : j = 0
  · rw [if_pos hj]
    refine iff_of_true (Or.inl rfl) ?_
    rintro ⟨-, rfl⟩
    cases hj
  · rw [if_neg hj]
    by_cases hmin : i = Int64.minValue ∧ j = -1
    · rw [if_pos hmin]
      refine iff_of_false ?_ (fun h => h hmin)
      rintro (h | ⟨l, h, -⟩) <;> cases h
    · rw [if_neg hmin, sound_some]
      exact iff_of_true ⟨_, rfl, hj, Int64.toInt_mod i j⟩ hmin

/-- A status or a port is kept when it fits in 16 bits. -/
theorem uint16_iff {q : Int64} {f : UInt16 → DPLiteral} :
    (∃ p : UInt16, (p.toNat : Int) = q.toInt ∧ f q.toUInt64.toUInt16 = f p) ↔
      0 ≤ q.toInt ∧ q.toInt < 2 ^ 16 := by
  constructor
  · rintro ⟨p, hp, -⟩
    exact inRange_of_uint16 hp
  · intro h
    refine ⟨_, ?_, rfl⟩
    rw [toUInt16_toNat]
    omega

theorem sound_ipFrom (pf : Platform) (a b c d : Int64) :
    Sound (Denotes (ipFrom a b c d)) (answer pf (ipFrom a b c d)) ↔
      InRange (ipFrom a b c d) := by
  refine sound_some.trans ?_
  show _ ↔ ∀ o ∈ [a, b, c, d], 0 ≤ o.toInt ∧ o.toInt < 2 ^ 8
  rw [List.forall_mem_cons, List.forall_mem_cons, List.forall_mem_cons,
    List.forall_mem_singleton]
  constructor
  · rintro ⟨o₁, o₂, o₃, o₄, h₁, h₂, h₃, h₄, -⟩
    exact ⟨inRange_of_uint8 h₁, inRange_of_uint8 h₂, inRange_of_uint8 h₃, inRange_of_uint8 h₄⟩
  · rintro ⟨ha, hb, hc, hd⟩
    refine ⟨_, _, _, _, ?_, ?_, ?_, ?_, rfl⟩ <;> rw [toUInt8_toNat] <;> omega

/-- The interpreter is exact on the arguments in range and on no others. -/
theorem sound_iff (pf : Platform) (c : IntegerCall) : Sound c.Denotes (c.answer pf) ↔ c.InRange := by
  cases c with
  | neg i => exact sound_i64_eq.trans (fits_neg_iff i)
  | plus i j => exact sound_i64_eq
  | minus i j => exact sound_i64_eq
  | multiply i j => exact sound_i64_eq
  | divide i j => exact sound_divide pf i j
  | remainder i j => exact sound_remainder pf i j
  | abs i => exact sound_i64_eq.trans (fits_abs_iff i)
  | pow i j =>
      have he := toUInt32_toNat j
      refine (sound_i64 (Q := IsPower i.toInt j.toInt)
        (fun m hm hq => fits_of_isPower he hm hq)).trans ((isPower_iff he).trans ?_)
      simp only [InRange, ← Int64.toInt_inj, Ne]
      rfl
  | min i j =>
      refine sound_some.trans (iff_of_true ⟨_, rfl, ?_⟩ trivial)
      split <;> rename_i h <;> rw [Int64.le_iff_toInt_le] at h <;> omega
  | max i j =>
      refine sound_some.trans (iff_of_true ⟨_, rfl, ?_⟩ trivial)
      split <;> rename_i h <;> rw [Int64.le_iff_toInt_le] at h <;> omega
  | newResponse q => exact sound_some.trans (uint16_iff (f := fun s =>
        .dp (.httpResponse { HttpResponse.empty with status := s })))
  | setPort id q => exact sound_some.trans (uint16_iff (f := fun p => .id (id.setPort p)))
  | ipFrom a b c d => exact sound_ipFrom pf a b c d

end IntegerCall

/-! ## Evaluation -/

/-- The error is a panic of the process. -/
def Error.IsPanic {FL : Type} : Error FL → Prop
  | .overflow _ | .notBool _ | .panic _ => True
  | _ => False

namespace Literal

variable {FT FL : Type} [TFlatTyp FT] [TFlatLiteral FT FL]

mutual
theorem toDP?_ofDP : (l : DPLiteral) → toDP? (ofDP l : Literal FL) = .some l
  | flat d => by rw [ofDP, dp, toDP?, TFlatLiteral.toDP?_dp, Option.map_some]
  | list ls => by rw [ofDP, toDP?, toDPs?_ofDPs ls, Option.map_some]
  | tuple ls => by rw [ofDP, toDP?, toDPs?_ofDPs ls, Option.map_some]

theorem toDPs?_ofDPs : (ls : List DPLiteral) → toDPs? (ofDPs ls : List (Literal FL)) = .some ls
  | [] => by rw [ofDPs, toDPs?]
  | l :: ls => by
      rw [ofDPs, toDPs?, toDP?_ofDP l, toDPs?_ofDPs ls]
      rfl
end

theorem ofDP_injective {a b : DPLiteral} (h : (ofDP a : Literal FL) = ofDP b) : a = b := by
  have h' := congrArg toDP? h
  rw [toDP?_ofDP, toDP?_ofDP] at h'
  exact Option.some.inj h'

mutual
/-- The data plane keeps its literals. -/
theorem ofDP_eq : (l : DPLiteral) → (ofDP l : DPLiteral) = l
  | flat d => rfl
  | list ls => by rw [ofDP, ofDPs_eq ls]
  | tuple ls => by rw [ofDP, ofDPs_eq ls]

theorem ofDPs_eq : (ls : List DPLiteral) → (ofDPs ls : List DPLiteral) = ls
  | [] => rfl
  | l :: ls => by rw [ofDPs, ofDP_eq l, ofDPs_eq ls]
end

end Literal

namespace IntegerCall

section

variable {FT FL : Type} [TFlatTyp FT] [TFlatLiteral FT FL]

/-- A run that ends with the exact result, or with an error of evaluation. -/
def Exactly (c : IntegerCall) (r : Option (Except (Error FL) (Outcome FL) × World FL)) : Prop :=
  ∃ a w, r = some (a, w) ∧
    ((∃ l, a = .ok (.lit (.ofDP l)) ∧ c.Denotes l) ∨ ∃ e, a = .error e ∧ ¬e.IsPanic)

theorem exactly_lift {c : IntegerCall} {err : Error FL} {r : Checked (Option DPLiteral)}
    {w : World FL} (herr : ¬err.IsPanic) :
    c.Exactly ((Outcome.lit <$> EvalM.lift err (r.map (Option.map Literal.ofDP))).run w) ↔
      Sound c.Denotes r := by
  constructor
  · rintro ⟨a, w', hrun, h⟩
    rcases r with msg | _ | l
    · cases hrun
      rcases h with ⟨l, hl, -⟩ | ⟨e, he, hpanic⟩
      · cases hl
      · cases he
        exact absurd trivial hpanic
    · exact Or.inl rfl
    · cases hrun
      rcases h with ⟨l', hl, hden⟩ | ⟨e, he, -⟩
      · have heq : l = l' := Literal.ofDP_injective (Outcome.lit.inj (Except.ok.inj hl))
        rw [heq]
        exact Or.inr ⟨l', rfl, hden⟩
      · cases he
  · rintro (rfl | ⟨l, rfl, hl⟩)
    · exact ⟨_, w, rfl, Or.inr ⟨err, rfl, herr⟩⟩
    · exact ⟨_, w, rfl, Or.inl ⟨l, rfl, hl⟩⟩

variable [TInterpret FL]

/-- `answer`, by the tables of the plane. -/
def answerIn (pf : Platform) : IntegerCall → Checked (Option (Literal FL))
  | neg i => Literal.evalPrefix pf .minus (.int i)
  | plus i j => Literal.evalInfix pf .plus (.int i) (.int j)
  | minus i j => Literal.evalInfix pf .minus (.int i) (.int j)
  | multiply i j => Literal.evalInfix pf .multiply (.int i) (.int j)
  | divide i j => Literal.evalInfix pf .divide (.int i) (.int j)
  | remainder i j => Literal.evalInfix pf .remainder (.int i) (.int j)
  | abs i => Literal.evalCall1 pf "i64::abs" (.int i)
  | pow i j => Literal.evalCall2 pf "i64::pow" (.int i) (.int j)
  | min i j => Literal.evalCall2 pf "i64::min" (.int i) (.int j)
  | max i j => Literal.evalCall2 pf "i64::max" (.int i) (.int j)
  | newResponse c => Literal.evalCall1 pf "HttpResponse::new" (.int c)
  | setPort id q => Literal.evalCall2 pf "ID::set_port" (.id id) (.int q)
  | ipFrom a b c d => .ok (Literal.evalCall4 "IpAddr::from" (.int a) (.int b) (.int c) (.int d))

/-- The call in every program of an environment, on operands that evaluate to the arguments:
exact, or an error of evaluation. -/
def Total (env : Env FL) (c : IntegerCall) : Prop :=
  ∀ (isAsync : Bool) (es : List (Expr FL)) (e : Expr FL) (w w' : World FL),
    c.expr isAsync es = some e →
      (Comp.traverse (eval env) es).run w = some (.ok (c.args.map .lit), w') →
      c.Exactly ((eval env e).run w)

variable {env : Env FL} {w w' : World FL}

theorem run_prefix {p : Prefix} {e : Expr FL} {l : Literal FL}
    (h : (Comp.traverse (eval env) [e]).run w = some (.ok [.lit l], w')) :
    (eval env (.prefixExpr p e)).run w =
      (Outcome.lit <$> EvalM.lift (.prefixType p l) (l.evalPrefix env.platform p)).run w' := by
  obtain ⟨r, w₁, h1, h2⟩ := Comp.bind_eq_ok h
  cases h2
  rw [eval_eq]
  exact Comp.run_bind_ok h1

theorem run_infix {op : Infix} {e1 e2 : Expr FL} {l1 l2 : Literal FL} (hand : op ≠ .and)
    (hor : op ≠ .or)
    (h : (Comp.traverse (eval env) [e1, e2]).run w = some (.ok [.lit l1, .lit l2], w')) :
    (eval env (.infixExpr op e1 e2)).run w =
      (Outcome.lit <$> EvalM.lift (.infixType op l1 l2)
        (l1.evalInfix env.platform op l2)).run w' := by
  obtain ⟨r1, w₁, h1, h2⟩ := Comp.bind_eq_ok h
  obtain ⟨rs, w₂, h2, h3⟩ := Comp.bind_eq_ok h2
  cases h3
  obtain ⟨r2, w₃, h2, h3⟩ := Comp.bind_eq_ok h2
  cases h3
  rw [eval_eq]
  have hstep : evalStep env (eval env) (.infixExpr op e1 e2) =
      (do infixOp env.platform op (← eval env e1) (← eval env e2)) := by
    cases op with
    | and => exact absurd rfl hand
    | or => exact absurd rfl hor
    | _ => rfl
  rw [hstep, Comp.run_bind_ok h1, Comp.run_bind_ok h2]
  rfl

theorem run_builtin {f : String} {isAsync : Bool} {es : List (Expr FL)} {ls : List (Literal FL)}
    (hf : env.get f = none) (hb : Headers.isBuiltin FT f = true)
    (h : (Comp.traverse (eval env) es).run w = some (.ok (ls.map .lit), w')) :
    (eval env (.callExpr f es isAsync)).run w =
      (Outcome.lit <$> env.builtin f ls).run w' := by
  rw [eval_eq]
  refine (Comp.run_bind_ok h).trans ?_
  rw [literals_lits]
  exact congrArg (fun m => Comp.run m w') (evalCall_builtin hf hb)

/-- A call of the program is answered by the tables of its plane. -/
theorem run_expr {rpc : List (Effect FL) → String → Effect FL → Except String (Literal FL)}
    {pf : Platform} {p : Program FT FL} (c : IntegerCall)
    (hnames : ∀ f ∈ functions, p.code.get? f = none)
    (hbuiltin : ∀ f ∈ functions, Headers.isBuiltin FT f = true) {isAsync : Bool}
    {es : List (Expr FL)} {e : Expr FL} (he : c.expr isAsync es = some e)
    (h : (Comp.traverse (eval (Env.new ⟨rpc, pf, evalBuiltin pf⟩ p)) es).run w =
      some (.ok (c.args.map .lit), w')) :
    ∃ err : Error FL, ¬err.IsPanic ∧
      (eval (Env.new ⟨rpc, pf, evalBuiltin pf⟩ p) e).run w =
        (Outcome.lit <$> EvalM.lift err (c.answerIn pf)).run w' := by
  have call : ∀ f ∈ functions, ∀ ls : List (Literal FL), c.args = ls →
      (eval (Env.new ⟨rpc, pf, evalBuiltin pf⟩ p) (.callExpr f es isAsync)).run w =
        (Outcome.lit <$> evalBuiltin pf f ls).run w' := by
    rintro f hf ls rfl
    exact run_builtin (hnames f hf) (hbuiltin f hf) h
  cases c with
  | neg i =>
      rcases es with _ | ⟨e1, _ | _⟩ <;> cases he
      refine ⟨_, ?_, run_prefix h⟩
      exact fun h => h
  | plus i j | minus i j | multiply i j | divide i j | remainder i j =>
      rcases es with _ | ⟨e1, _ | ⟨e2, _ | _⟩⟩ <;> cases he
      refine ⟨_, ?_, run_infix (by decide) (by decide) h⟩
      exact fun h => h
  | abs i | pow i j | min i j | max i j | newResponse i | setPort id i | ipFrom a b c d =>
      cases he
      refine ⟨_, ?_, call _ (by decide) _ rfl⟩
      exact fun h => h

theorem total_iff_of {rpc : List (Effect FL) → String → Effect FL → Except String (Literal FL)}
    {pf : Platform} {p : Program FT FL} (c : IntegerCall)
    (hnames : ∀ f ∈ functions, p.code.get? f = none)
    (hbuiltin : ∀ f ∈ functions, Headers.isBuiltin FT f = true)
    (htable : (c.answerIn pf : Checked (Option (Literal FL))) =
      (c.answer pf).map (Option.map .ofDP)) :
    Total (Env.new ⟨rpc, pf, evalBuiltin pf⟩ p) c ↔ c.InRange := by
  rw [← sound_iff pf c]
  constructor
  · intro h
    -- the operands may be the literals themselves
    have hexpr : ∃ e : Expr FL, c.expr false (c.args.map .litExpr) = some e := by
      cases c <;> exact ⟨_, rfl⟩
    obtain ⟨e, he⟩ := hexpr
    have hlits : ∀ ls : List (Literal FL),
        Comp.traverse (eval (Env.new ⟨rpc, pf, evalBuiltin pf⟩ p)) (ls.map .litExpr) =
          pure (ls.map .lit) := by
      intro ls
      induction ls with
      | nil => rfl
      | cons l ls ih =>
          rw [List.map_cons, Comp.traverse_cons, ih, eval_eq]
          rfl
    have hrun := congrArg (fun m => Comp.run m default) (hlits c.args)
    obtain ⟨err, herr, heq⟩ := run_expr c hnames hbuiltin he hrun
    have hc := h false _ e default default he hrun
    rw [heq, htable] at hc
    exact (exactly_lift herr).mp hc
  · intro h isAsync es e w w' he hrun
    obtain ⟨err, herr, heq⟩ := run_expr c hnames hbuiltin he hrun
    rw [heq, htable]
    exact (exactly_lift herr).mpr h

end

theorem answerIn_dp (pf : Platform) (c : IntegerCall) :
    (c.answerIn pf : Checked (Option DPLiteral)) = (c.answer pf).map (Option.map .ofDP) := by
  have hid : ∀ r : Checked (Option DPLiteral), r.map (Option.map .ofDP) = r := by
    rintro (msg | _ | l)
    · rfl
    · rfl
    · exact congrArg (fun l => Except.ok (some l)) (Literal.ofDP_eq l)
  rw [hid]
  cases c <;> rfl

theorem answerIn_cp (pf : Platform) (c : IntegerCall) :
    (c.answerIn pf : Checked (Option CPLiteral)) = (c.answer pf).map (Option.map .ofDP) := by
  cases c <;> rfl

/-- In either plane, integer operators and built-in functions are exact or fail with an error
on the arguments in range, and on no others. -/
theorem total_iff (pf : Platform) (c : IntegerCall) :
    (∀ (rpc : List (Effect DPFlatLiteral) → String → Effect DPFlatLiteral →
        Except String DPLiteral) (p : DPProgram), (∀ f ∈ functions, p.code.get? f = none) →
      (Total (Env.new ⟨rpc, pf, evalBuiltin pf⟩ p) c ↔ c.InRange)) ∧
    ∀ (rpc : List (Effect CPFlatLiteral) → String → Effect CPFlatLiteral →
        Except String CPLiteral) (p : CPProgram), (∀ f ∈ functions, p.code.get? f = none) →
      (Total (Env.new ⟨rpc, pf, evalBuiltin pf⟩ p) c ↔ c.InRange) :=
  ⟨fun _ _ hnames => total_iff_of c hnames (by decide +kernel) (answerIn_dp pf c),
    fun _ _ hnames => total_iff_of c hnames (by decide +kernel) (answerIn_cp pf c)⟩

/-- A port that fits, in the empty programs of both planes. -/
theorem total_setPort :
    Total (Env.new ⟨fun _ _ _ => .error "", .offline, evalBuiltin .offline⟩
        (Program.empty : DPProgram)) (setPort .empty 443) ∧
      Total (Env.new ⟨fun _ _ _ => .error "", .offline, evalBuiltin .offline⟩
        (Program.empty : CPProgram)) (setPort .empty 443) :=
  ⟨((total_iff .offline (setPort .empty 443)).1 (fun _ _ _ => .error "") .empty
      (fun _ _ => rfl)).mpr ⟨by decide, by decide⟩,
    ((total_iff .offline (setPort .empty 443)).2 (fun _ _ _ => .error "") .empty
      (fun _ _ => rfl)).mpr ⟨by decide, by decide⟩⟩

/-- An octet is cut to its low byte, and a negative exponent read as a huge one. -/
theorem not_total :
    ¬Total (Env.new ⟨fun _ _ _ => .error "", .offline, evalBuiltin .offline⟩
        (Program.empty : DPProgram)) (ipFrom 256 0 0 1) ∧
      ¬Total (Env.new ⟨fun _ _ _ => .error "", .offline, evalBuiltin .offline⟩
        (Program.empty : DPProgram)) (pow 2 (-1)) := by
  constructor
  · intro h
    have hin := (total_iff_of _ (fun _ _ => rfl) (by decide +kernel) (answerIn_dp _ _)).mp h
    have hbyte := hin 256 List.mem_cons_self
    revert hbyte
    decide
  · intro h
    have hin := (total_iff_of _ (fun _ _ => rfl) (by decide +kernel) (answerIn_dp _ _)).mp h
    rcases hin with ⟨hj, -⟩ | ⟨-, hi⟩
    · revert hj
      decide
    · revert hi
      decide

end IntegerCall

end Armour.Lang
