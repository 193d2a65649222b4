import Armour.Lib.Document
import Armour.Lang.Serialize

/-! # Documents of labels

The instances that write the types of a policy to JSON and to the documents of the database.
-/

namespace Armour.Lang

open Armour.Lib

namespace Label

/-- A label in a document: its text. -/
def serde : Serde Label := Serde.text.refine (fun _ => trivial) ofText display

theorem serde_clean (l : Label) : serde.Clean l ↔ l.Readable := by
  rw [← fromStr_display, ← ofText_eq_some]
  rfl

theorem serde_closed : serde.Closed := by
  intro v l h
  obtain ⟨s, -, hs⟩ := Option.bind_eq_some_iff.mp h
  exact (serde_clean l).mpr (of_fromStr (ofText_eq_some.mp hs)).1

theorem serde_ne_null (l : Label) : serde.ser l ≠ .null := nofun

end Label

/-- A set of labels in a document. -/
def labelsSerde : Serde (BTreeSet Label) := Label.serde.set Label.serde_closed

/-! ## Ports -/

namespace F64

theorem isNaN_ofBits {n e m : Nat} (hn : n = e * 2 ^ 52 + m) (hm : m < 2 ^ 52) (he : e < 2047) :
    isNaN ⟨UInt64.ofNat n⟩ = false := by
  have hlt : n < 2 ^ 64 := by omega
  have hexp : ¬ ((UInt64.ofNat n >>> 52) &&& 0x7ff = 0x7ff) := by
    intro h
    have h' := congrArg UInt64.toNat h
    rw [UInt64.toNat_and, UInt64.toNat_shiftRight, UInt64.toNat_ofNat', Nat.mod_eq_of_lt hlt] at h'
    have h52 : (52 : UInt64).toNat % 64 = 52 := rfl
    have h7 : (0x7ff : UInt64).toNat = 2 ^ 11 - 1 := rfl
    rw [h52, h7, Nat.and_two_pow_sub_one_eq_mod, Nat.shiftRight_eq_div_pow] at h'
    omega
  simp [isNaN, hexp]

/-- The number of a port is written exactly. -/
theorem toU16_ofU16 (p : UInt16) : toU16 (ofU16 p) = p := by
  by_cases hp : p = 0
  · subst hp
    rfl
  · have hpos : p.toNat ≠ 0 := fun h => hp (UInt16.toNat_inj.mp h)
    have hk : p.toNat.log2 < 16 := (Nat.log2_lt hpos).mpr p.toNat_lt
    have hle := Nat.log2_self_le hpos
    have hlt := @Nat.lt_log2_self p.toNat
    unfold ofU16
    rw [if_neg hp]
    dsimp only
    generalize hlog : p.toNat.log2 = k at hk hle hlt ⊢
    -- the significand has room for all bits of the port
    have hpow : (2 : Nat) ^ k * 2 ^ (52 - k) = 2 ^ 52 := by
      rw [← pow_add, Nat.add_sub_cancel' (by omega)]
    have hm : (p.toNat - 2 ^ k) * 2 ^ (52 - k) < 2 ^ 52 := by
      rw [← hpow]
      exact Nat.mul_lt_mul_of_pos_right (by rw [pow_succ] at hlt; omega) (Nat.two_pow_pos _)
    generalize hn : (1023 + k) * 2 ^ 52 + (p.toNat - 2 ^ k) * 2 ^ (52 - k) = n
    have hn64 : n < 2 ^ 64 := by omega
    have hbits : (UInt64.ofNat n).toNat = n := by
      rw [UInt64.toNat_ofNat', Nat.mod_eq_of_lt hn64]
    have hexp : n / 2 ^ 52 % 2 ^ 11 = 1023 + k := by omega
    have hfrac : n % 2 ^ 52 = (p.toNat - 2 ^ k) * 2 ^ (52 - k) := by omega
    have hnan := isNaN_ofBits hn.symm hm (by omega)
    have hsum : (2 ^ 52 + (p.toNat - 2 ^ k) * 2 ^ (52 - k)) / 2 ^ (52 - k) = p.toNat := by
      rw [← hpow, ← Nat.add_mul, Nat.mul_div_cancel _ (Nat.two_pow_pos _)]
      omega
    unfold toU16
    simp only [hbits, hexp, hnan, hfrac]
    have hsmall : ¬ (false = true ∨ 2 ^ 63 ≤ n ∨ 1023 + k < 1023) := by
      rintro (h | h | h)
      · cases h
      · omega
      · omega
    rw [if_neg hsmall, if_neg (by omega), Nat.add_sub_cancel_left, hsum]
    simp

end F64

/-- `port_serde`: a port is a floating point number, and may be read from any number. -/
def portSerde : Serde UInt16 where
  ser p := .double (F64.ofU16 p).bits
  de
    | .double b => some (F64.toU16 ⟨b⟩)
    | .int n => some (.ofNat (min n.toNat 65535))
    | _ => none
  Clean _ := True
  exact p := iff_true_intro (congrArg some (F64.toU16_ofU16 p))

theorem portSerde_ne_null (p : UInt16) : portSerde.ser p ≠ .null := nofun

/-! ## Addresses and identities -/

/-- The text forms of addresses and URLs. -/
structure TextForms where
  showIp : IpAddr → String
  readIp : String → Option IpAddr
  readIp_showIp : ∀ a, readIp (showIp a) = some a
  /-- The normal form of a URL. -/
  parseUrl : String → Option String

def IpAddr.serde (tf : TextForms) : Serde IpAddr :=
  Serde.text.refine (fun _ => trivial) tf.readIp tf.showIp

theorem IpAddr.serde_total (tf : TextForms) : (IpAddr.serde tf).Total := tf.readIp_showIp

/-- Phantom data. -/
def phantomSerde : Serde Unit where
  ser _ := .null
  de
    | .null => some ()
    | _ => none
  Clean _ := True
  exact _ := by simp

namespace ID

variable (tf : TextForms)

def hostsSerde : Serde (BTreeSet String) := Serde.text.set (fun _ _ _ => trivial)

def ipsSerde : Serde (BTreeSet IpAddr) :=
  (IpAddr.serde tf).set (fun _ a _ => IpAddr.serde_total tf a)

theorem fields_disjoint :
    (∀ n ∈ ["labels"], n ∉ ["phantom"]) ∧ (∀ n ∈ ["port"], n ∉ ["labels", "phantom"]) ∧
      (∀ n ∈ ["ips"], n ∉ ["port", "labels", "phantom"]) ∧
      (∀ n ∈ ["hosts"], n ∉ ["ips", "port", "labels", "phantom"]) := by
  decide

def record : Record ID :=
  ((Record.field "hosts" hostsSerde).pair ((Record.field "ips" (ipsSerde tf)).pair
    ((Record.optional "port" portSerde portSerde_ne_null).pair
      ((Record.field "labels" labelsSerde).pair (Record.field "phantom" phantomSerde)
        fields_disjoint.1) fields_disjoint.2.1) fields_disjoint.2.2.1) fields_disjoint.2.2.2).iso
    (fun p => ⟨p.1, p.2.1, p.2.2.1, p.2.2.2.1⟩)
    (fun id => (id.hosts, id.ips, id.port, id.labels, ()))
    (fun _ => rfl) (fun _ => rfl)

def serde : Serde ID := (record tf).serde

end ID

end Armour.Lang
