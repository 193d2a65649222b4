import Mathlib.Algebra.Ring.Nat
import Mathlib.Data.List.Basic

/-! # Base64

The standard alphabet with padding: three bytes are four digits of six bits, and a last group
that is shorter is filled up with `=`.
-/

namespace Armour.Lib.Base64

def alphabet : List Char :=
  ['A', 'B', 'C', 'D', 'E', 'F', 'G', 'H', 'I', 'J', 'K', 'L', 'M', 'N', 'O', 'P', 'Q', 'R', 'S',
    'T', 'U', 'V', 'W', 'X', 'Y', 'Z', 'a', 'b', 'c', 'd', 'e', 'f', 'g', 'h', 'i', 'j', 'k', 'l',
    'm', 'n', 'o', 'p', 'q', 'r', 's', 't', 'u', 'v', 'w', 'x', 'y', 'z', '0', '1', '2', '3', '4',
    '5', '6', '7', '8', '9', '+', '/']

def digit (n : Nat) : Char := alphabet.getD n '='

def value (c : Char) : Option Nat := if c ∈ alphabet then some (alphabet.idxOf c) else none

/-- The six bits of `n` above those that `d` divides away, as a digit. -/
def digitAt (n d : Nat) : Char := digit (n / d % 64)

def encodeBytes : List UInt8 → List Char
  | a :: b :: c :: rest =>
      let n := a.toNat * 65536 + b.toNat * 256 + c.toNat
      digitAt n 262144 :: digitAt n 4096 :: digitAt n 64 :: digitAt n 1 :: encodeBytes rest
  | [a, b] =>
      let n := a.toNat * 65536 + b.toNat * 256
      [digitAt n 262144, digitAt n 4096, digitAt n 64, '=']
  | [a] =>
      let n := a.toNat * 65536
      [digitAt n 262144, digitAt n 4096, '=', '=']
  | [] => []

/-- The byte of `n` above the bits that `d` divides away. -/
def byteAt (n d : Nat) : UInt8 := .ofNat (n / d)

/-- The last group; bits that no byte takes are zero. -/
def decodeLast (c1 c2 c3 c4 : Char) : Option (List UInt8) := do
  let a ← value c1
  let b ← value c2
  let n := a * 262144 + b * 4096
  if c4 = '=' then
    if c3 = '=' then if b % 16 = 0 then some [byteAt n 65536] else none
    else
      let c ← value c3
      let n := n + c * 64
      if c % 4 = 0 then some [byteAt n 65536, byteAt n 256] else none
  else
    let c ← value c3
    let d ← value c4
    let n := n + c * 64 + d
    some [byteAt n 65536, byteAt n 256, byteAt n 1]

def decodeChars : List Char → Option (List UInt8)
  | [] => some []
  | [c1, c2, c3, c4] => decodeLast c1 c2 c3 c4
  | c1 :: c2 :: c3 :: c4 :: rest => do
      let a ← value c1
      let b ← value c2
      let c ← value c3
      let d ← value c4
      let n := a * 262144 + b * 4096 + c * 64 + d
      return byteAt n 65536 :: byteAt n 256 :: byteAt n 1 :: (← decodeChars rest)
  | _ => none

def encode (bs : List UInt8) : String := String.ofList (encodeBytes bs)

def decode (s : String) : Option (List UInt8) := decodeChars s.toList

/-! ## The round trip -/

theorem digit_spec : ∀ n < 64, value (digit n) = some n ∧ digit n ≠ '=' ∧ digit n ≠ ';' := by
  decide +kernel

@[simp] theorem value_digitAt (n d : Nat) : value (digitAt n d) = some (n / d % 64) :=
  (digit_spec _ (Nat.mod_lt _ (by decide))).1

theorem digitAt_ne_pad (n d : Nat) : digitAt n d ≠ '=' :=
  (digit_spec _ (Nat.mod_lt _ (by decide))).2.1

theorem digitAt_ne_semicolon (n d : Nat) : ';' ≠ digitAt n d :=
  (digit_spec _ (Nat.mod_lt _ (by decide))).2.2.symm

theorem byteAt_eq {n d : Nat} {b : UInt8} (h : n / d % 256 = b.toNat) : byteAt n d = b := by
  rw [byteAt, ← UInt8.toNat_inj, UInt8.toNat_ofNat']
  exact h

/-- The digits of a group hold the number that they are digits of. -/
theorem digits_sum {n : Nat} (h : n < 16777216) :
    n / 262144 % 64 * 262144 + n / 4096 % 64 * 4096 + n / 64 % 64 * 64 +
      n / 1 % 64 = n := by
  omega

theorem group_bytes (a b c : UInt8) :
    a.toNat * 65536 + b.toNat * 256 + c.toNat < 16777216 ∧
      byteAt (a.toNat * 65536 + b.toNat * 256 + c.toNat) 65536 = a ∧
      byteAt (a.toNat * 65536 + b.toNat * 256 + c.toNat) 256 = b ∧
      byteAt (a.toNat * 65536 + b.toNat * 256 + c.toNat) 1 = c := by
  have ha := a.toNat_lt
  have hb := b.toNat_lt
  have hc := c.toNat_lt
  refine ⟨by omega, byteAt_eq ?_, byteAt_eq ?_, byteAt_eq ?_⟩ <;> omega

section

variable {c1 c2 c3 c4 : Char} {a b c d n : Nat}

theorem decodeLast_of_values (h1 : value c1 = some a) (h2 : value c2 = some b)
    (h3 : value c3 = some c) (h4 : value c4 = some d) (hpad : c4 ≠ '=')
    (hn : a * 262144 + b * 4096 + c * 64 + d = n) :
    decodeLast c1 c2 c3 c4 = some [byteAt n 65536, byteAt n 256, byteAt n 1] := by
  simp [decodeLast, h1, h2, h3, h4, hpad, hn]

theorem decodeLast_of_pad (h1 : value c1 = some a) (h2 : value c2 = some b)
    (h3 : value c3 = some c) (hpad : c3 ≠ '=') (hc : c % 4 = 0)
    (hn : a * 262144 + b * 4096 + c * 64 = n) :
    decodeLast c1 c2 c3 '=' = some [byteAt n 65536, byteAt n 256] := by
  simp [decodeLast, h1, h2, h3, hpad, hc, hn]

theorem decodeLast_of_pads (h1 : value c1 = some a) (h2 : value c2 = some b)
    (hb : b % 16 = 0) (hn : a * 262144 + b * 4096 = n) :
    decodeLast c1 c2 '=' '=' = some [byteAt n 65536] := by
  simp [decodeLast, h1, h2, hb, hn]

theorem decodeLast_full (h : n < 16777216) :
    decodeLast (digitAt n 262144) (digitAt n 4096) (digitAt n 64) (digitAt n 1) =
      some [byteAt n 65536, byteAt n 256, byteAt n 1] :=
  decodeLast_of_values (value_digitAt n _) (value_digitAt n _) (value_digitAt n _)
    (value_digitAt n _) (digitAt_ne_pad n 1) (digits_sum h)

theorem decodeLast_two (h : n < 16777216) (hn : n % 256 = 0) :
    decodeLast (digitAt n 262144) (digitAt n 4096) (digitAt n 64) '=' =
      some [byteAt n 65536, byteAt n 256] :=
  decodeLast_of_pad (value_digitAt n _) (value_digitAt n _) (value_digitAt n _)
    (digitAt_ne_pad n 64) (by omega) (by omega)

theorem decodeLast_one (h : n < 16777216) (hn : n % 65536 = 0) :
    decodeLast (digitAt n 262144) (digitAt n 4096) '=' '=' = some [byteAt n 65536] :=
  decodeLast_of_pads (value_digitAt n _) (value_digitAt n _) (by omega) (by omega)

end

theorem decodeChars_encodeBytes (bs : List UInt8) : decodeChars (encodeBytes bs) = some bs := by
  fun_induction encodeBytes bs with
  | case1 a b c rest n ih =>
      obtain ⟨hlt, ha, hb, hc⟩ := group_bytes a b c
      cases hrest : encodeBytes rest with
      | nil =>
          rw [hrest] at ih
          obtain rfl : [] = rest := by simpa [decodeChars] using ih
          rw [decodeChars, decodeLast_full hlt, ha, hb, hc]
      | cons d ds =>
          have hsum := digits_sum hlt
          rw [hrest] at ih
          rw [decodeChars]
          · simp only [value_digitAt, Option.bind_eq_bind, Option.bind_some, ih]
            rw [hsum, ha, hb, hc]
            rfl
          · simp
  | case2 a b n =>
      obtain ⟨hlt, ha, hb, -⟩ := group_bytes a b 0
      rw [UInt8.toNat_zero, Nat.add_zero] at hlt ha hb
      rw [decodeChars, decodeLast_two hlt (by omega), ha, hb]
  | case3 a n =>
      obtain ⟨hlt, ha, -, -⟩ := group_bytes a 0 0
      simp only [UInt8.toNat_zero, Nat.zero_mul, Nat.add_zero] at hlt ha
      rw [decodeChars, decodeLast_one hlt (by omega), ha]
  | case4 => rfl

theorem decode_encode (bs : List UInt8) : decode (encode bs) = some bs := by
  rw [decode, encode, String.toList_ofList, decodeChars_encodeBytes]

theorem semicolon_not_mem_encode (bs : List UInt8) : ';' ∉ (encode bs).toList := by
  rw [encode, String.toList_ofList]
  fun_induction encodeBytes bs with
  | case1 a b c rest n ih => simp [digitAt_ne_semicolon, ih]
  | case2 a b n => simp [digitAt_ne_semicolon]
  | case3 a n => simp [digitAt_ne_semicolon]
  | case4 => simp

end Armour.Lib.Base64
