import Armour.Lib.Base64

/-! # ASCII texts

A text of ASCII characters is one byte for each character, so it is a header value that is read
back.  Base64 texts are of this kind.
-/

namespace Armour.Lib.Ascii

/-! ## Bytes -/

theorem loop_eq (bs : ByteArray) (i : Nat) (r : List UInt8) :
    ByteArray.toList.loop bs i r = r.reverse ++ bs.data.toList.drop i := by
  fun_induction ByteArray.toList.loop bs i r with
  | case1 i r hi ih =>
      have hi' : i < bs.data.toList.length := hi
      have hget : bs.get! i = bs.data.toList[i] := by
        show bs.data[i]! = _
        rw [getElem!_pos bs.data i hi]
        rfl
      rw [ih, List.reverse_cons, List.append_assoc, hget, List.singleton_append,
        List.drop_eq_getElem_cons hi']
  | case2 i r hi =>
      have hi' : bs.data.toList.length ≤ i := Nat.le_of_not_lt hi
      rw [List.drop_eq_nil_of_le hi', List.append_nil]

theorem toList_eq (bs : ByteArray) : bs.toList = bs.data.toList := loop_eq bs 0 []

/-- The bytes of a text of ASCII characters are their numbers. -/
theorem toUTF8_ofList {cs : List Char} (h : ∀ c ∈ cs, c.toNat < 128) :
    (String.ofList cs).toUTF8.toList = cs.map (fun c => UInt8.ofNat c.toNat) := by
  show (String.ofList cs).toByteArray.toList = _
  rw [toList_eq, String.toByteArray_ofList]
  show (List.flatMap String.utf8EncodeChar cs).toByteArray.data.toList = _
  rw [List.data_toByteArray]
  show List.flatMap String.utf8EncodeChar cs = _
  induction cs with
  | nil => rfl
  | cons c cs ih =>
      have hc : c.toNat < 128 := h c List.mem_cons_self
      -- the first range of UTF-8
      have hone : String.utf8EncodeChar c = [UInt8.ofNat c.toNat] := by
        have hsize : c.utf8Size = 1 := Char.utf8Size_eq_one_iff.mpr (Nat.le_of_lt_succ hc)
        exact String.utf8EncodeChar_eq_singleton hsize
      rw [List.flatMap_cons, ih (fun c hc => h c (List.mem_cons_of_mem _ hc)), hone]
      rfl

/-! ## Printed characters -/

/-- Characters that can be printed, other than a blank. -/
def Printable (s : String) : Prop := ∀ c ∈ s.toList, 33 ≤ c.toNat ∧ c.toNat < 127

theorem printable_digit (n : Nat) :
    33 ≤ (Base64.digit n).toNat ∧ (Base64.digit n).toNat < 127 := by
  by_cases hn : n < 64
  · have hall : ∀ n < 64, 33 ≤ (Base64.digit n).toNat ∧ (Base64.digit n).toNat < 127 := by
      decide
    exact hall n hn
  · have hlen : Base64.alphabet.length ≤ n := Nat.le_of_not_lt hn
    rw [Base64.digit, List.getD_eq_getElem?_getD, List.getElem?_eq_none hlen]
    decide

theorem printable_encode (bs : List UInt8) : Printable (Base64.encode bs) := by
  intro c hc
  rw [Base64.encode, String.toList_ofList] at hc
  have hpad : 33 ≤ ('=' : Char).toNat ∧ ('=' : Char).toNat < 127 := by decide
  fun_induction Base64.encodeBytes bs with
  | case1 a b c rest n ih =>
      simp only [List.mem_cons] at hc
      rcases hc with rfl | rfl | rfl | rfl | hc
      · exact printable_digit _
      · exact printable_digit _
      · exact printable_digit _
      · exact printable_digit _
      · exact ih hc
  | case2 a b n =>
      simp only [List.mem_cons, List.not_mem_nil, or_false] at hc
      rcases hc with rfl | rfl | rfl | rfl
      · exact printable_digit _
      · exact printable_digit _
      · exact printable_digit _
      · exact hpad
  | case3 a n =>
      simp only [List.mem_cons, List.not_mem_nil, or_false] at hc
      rcases hc with rfl | rfl | rfl | rfl
      · exact printable_digit _
      · exact printable_digit _
      · exact hpad
      · exact hpad
  | case4 => exact absurd hc List.not_mem_nil

/-- Characters that are printed are one byte each. -/
theorem toUTF8_printable {s : String} (h : Printable s) :
    s.toUTF8.toList = s.toList.map (fun c => UInt8.ofNat c.toNat) := by
  rw [← toUTF8_ofList (fun c hc => Nat.lt_succ_of_lt (h c hc).2), String.ofList_toList]

end Armour.Lib.Ascii
