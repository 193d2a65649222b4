import Armour.Lib.Wire

/-! # Authenticated encryption

A cipher encrypts a message under a nonce and decrypts what it has encrypted.  The instance is
ChaCha20-Poly1305 without associated data: a key stream, and a tag of sixteen bytes behind the
encrypted message.
-/

namespace Armour.Lib

abbrev Nonce := { bs : List UInt8 // bs.length = 12 }

structure Cipher where
  encrypt : Nonce → List UInt8 → Option (List UInt8)
  decrypt : Nonce → List UInt8 → Option (List UInt8)

/-- What was encrypted is decrypted under the same nonce. -/
def Cipher.Correct (c : Cipher) : Prop :=
  ∀ n m s, c.encrypt n m = some s → c.decrypt n s = some m

namespace ChaCha

/-- `x <<< k ||| x >>> (32 - k)` -/
def rotl (x : UInt32) (k : UInt32) : UInt32 := (x <<< k) ||| (x >>> (32 - k))

def quarterRound (s : Array UInt32) (a b c d : Nat) : Array UInt32 :=
  let step (s : Array UInt32) (x y z : Nat) (k : UInt32) : Array UInt32 :=
    let s := s.setIfInBounds x (s.getD x 0 + s.getD y 0)
    s.setIfInBounds z (rotl (s.getD z 0 ^^^ s.getD x 0) k)
  step (step (step (step s a b d 16) c d b 12) a b d 8) c d b 7

def doubleRound (s : Array UInt32) : Array UInt32 :=
  let s := quarterRound (quarterRound s 0 4 8 12) 1 5 9 13
  let s := quarterRound (quarterRound s 2 6 10 14) 3 7 11 15
  let s := quarterRound (quarterRound s 0 5 10 15) 1 6 11 12
  quarterRound (quarterRound s 2 7 8 13) 3 4 9 14

/-- The words of a list of bytes, little endian. -/
def words : List UInt8 → List UInt32
  | a :: b :: c :: d :: rest => .ofNat (getLE [a, b, c, d]) :: words rest
  | _ => []

/-- A block of the key stream. -/
def block (key : List UInt8) (nonce : Nonce) (counter : Nat) : List UInt8 :=
  let s := (([0x61707865, 0x3320646e, 0x79622d32, 0x6b206574] : List UInt32) ++ words key ++
    [UInt32.ofNat counter] ++ words nonce.1).toArray
  let t := Nat.repeat doubleRound 10 s
  (List.zipWith (· + ·) s.toList t.toList).flatMap (fun w => putLE 4 w.toNat)

/-- The bytes from the `i`-th on, combined with the key stream. -/
def xorFrom (key : List UInt8) (nonce : Nonce) : Nat → List UInt8 → List UInt8
  | _, [] => []
  | i, b :: bs =>
      (b ^^^ (block key nonce (i / 64 + 1)).getD (i % 64) 0) :: xorFrom key nonce (i + 1) bs

/-- Poly1305 over blocks of sixteen bytes. -/
def poly (r : Nat) (acc : Nat) : List (List UInt8) → Nat
  | [] => acc
  | b :: bs => poly r ((acc + getLE (b ++ [1])) * r % (2 ^ 130 - 5)) bs

/-- The tag of an encrypted message. -/
def tag (key : List UInt8) (nonce : Nonce) (c : List UInt8) : List UInt8 :=
  let k := block key nonce 0
  let r := getLE (k.take 16) &&& 0x0ffffffc0ffffffc0ffffffc0fffffff
  let padded := c ++ List.replicate ((16 - c.length % 16) % 16) 0
  let authenticated := padded ++ putLE 8 0 ++ putLE 8 c.length
  let blocks := (List.range (authenticated.length / 16)).map
    (fun i => (authenticated.drop (16 * i)).take 16)
  putLE 16 (poly r 0 blocks + getLE ((k.drop 16).take 16))

theorem tag_length (key : List UInt8) (nonce : Nonce) (c : List UInt8) :
    (tag key nonce c).length = 16 := putLE_length 16 _

theorem xorFrom_xorFrom (key : List UInt8) (nonce : Nonce) (i : Nat) (bs : List UInt8) :
    xorFrom key nonce i (xorFrom key nonce i bs) = bs := by
  induction bs generalizing i with
  | nil => rfl
  | cons b bs ih => rw [xorFrom, xorFrom, ih, UInt8.xor_assoc, UInt8.xor_self, UInt8.xor_zero]

end ChaCha

/-- ChaCha20-Poly1305 under a key. -/
def chacha20Poly1305 (key : List UInt8) : Cipher where
  encrypt n m :=
    let c := ChaCha.xorFrom key n 0 m
    some (c ++ ChaCha.tag key n c)
  decrypt n s :=
    let c := s.take (s.length - 16)
    if 16 ≤ s.length ∧ ChaCha.tag key n c = s.drop (s.length - 16) then
      some (ChaCha.xorFrom key n 0 c)
    else none

theorem chacha20Poly1305_correct (key : List UInt8) : (chacha20Poly1305 key).Correct := by
  rintro n m s h
  obtain rfl := Option.some.inj h
  have htag := ChaCha.tag_length key n (ChaCha.xorFrom key n 0 m)
  simp only [chacha20Poly1305, List.length_append, htag, Nat.add_sub_cancel,
    List.take_left, List.drop_left, Nat.le_add_left, and_self, if_true, ChaCha.xorFrom_xorFrom]

end Armour.Lib
