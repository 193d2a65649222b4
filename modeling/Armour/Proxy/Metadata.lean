import Armour.Lib.Base64
import Armour.Lib.Cipher
import Armour.Lang.Documents
import Armour.Proxy.Policy

/-! # Encrypted metadata

`encrypt_meta` and `decrypt_meta` of `armour-proxy/src/policy.rs`: metadata is written as JSON,
encrypted under a nonce made of the time, and sent as two base64 texts, the encrypted bytes and
the nonce, with a semicolon between them.  The crates for base64, JSON and encryption are
parameters.
-/

namespace Armour.Lang

open Armour.Lib

/-- The base64 crate: texts are decoded to the bytes they were made of, and have no mark of
another alphabet in them. -/
structure Platform.Base64 (pf : Platform) : Prop where
  decode_encode : ∀ bs, pf.base64Decode (pf.base64Encode bs) = some bs
  plain : ∀ bs, ';' ∉ (pf.base64Encode bs).toList

namespace Meta

/-- All labels in the metadata have a text that is read as them. -/
def Readable (m : Meta) : Prop :=
  (∀ l ∈ m.id, l.Readable) ∧ ∀ l ∈ m.labels.elems, l.Readable

/-- `data`, as lists of numbers. -/
def dataSerde : Serde (List Bytes) := Serde.u8.list.list

def record : Record Meta :=
  ((Record.optional "id" Label.serde Label.serde_ne_null).pair
    ((Record.field "data" dataSerde).pair (Record.field "labels" labelsSerde)
      (by decide)) (by decide)).iso
    (fun p => ⟨p.1, p.2.1, p.2.2⟩) (fun m => (m.id, m.data, m.labels))
    (fun _ => rfl) (fun _ => rfl)

def serde : Serde Meta := record.serde

theorem serde_clean (m : Meta) : serde.Clean m ↔ m.Readable := by
  show (∀ l ∈ m.id, Label.serde.Clean l) ∧ (dataSerde.Clean m.data ∧
    labelsSerde.Clean m.labels) ↔ _
  have hbytes : dataSerde.Clean m.data := fun _ _ _ _ => trivial
  rw [and_iff_right hbytes]
  simp only [Label.serde_clean]
  exact and_congr_right (fun _ => forall₂_congr (fun l _ => Label.serde_clean l))

end Meta

end Armour.Lang

namespace Armour.Proxy

open Armour.Lib Armour.Lang

/-- `serde_json`, between documents and texts; it reads bytes. -/
structure Json where
  print : Document → String
  parse : Bytes → Option Document

/-- What the metadata header is made with. -/
structure MetaCrypto where
  aead : Cipher
  json : Json
  platform : Platform

/-- `GenericArray::from_slice`, of the length of a nonce. -/
def fromSlice (bs : Bytes) : Checked Nonce :=
  if h : bs.length = 12 then .ok ⟨bs, h⟩ else .error "from_slice: wrong length"

namespace MetaCrypto

variable (k : MetaCrypto)

/-- `nonce`, at a time in nanoseconds from the epoch: `armo` and the low half of the time. -/
def nonce (now : Int) : Option Bytes :=
  if 0 ≤ now then some ([0x61, 0x72, 0x6d, 0x6f] ++ (putLE 16 now.toNat).reverse.drop 8)
  else none

def encrypt (now : Int) (message : String) : Checked (Option String) :=
  match nonce now with
  | none => .ok none
  | some nonce => do
      let n ← fromSlice nonce
      return (k.aead.encrypt n message.toUTF8.toList).map (fun block =>
        k.platform.base64Encode block ++ ";" ++ k.platform.base64Encode nonce)

def decrypt (message : String) : Checked (Option Bytes) :=
  match (Text.split ";" message).mapM k.platform.base64Decode with
  | some [block, nonce] => do
      let n ← fromSlice nonce
      return k.aead.decrypt n block
  | _ => .ok none

/-- Metadata as JSON. -/
def text (m : Meta) : String := k.json.print (Meta.serde.ser m)

/-- The JSON of the metadata is read as the document that it was made of. -/
def JsonReads (m : Meta) : Prop :=
  k.json.parse (k.text m).toUTF8.toList = some (Meta.serde.ser m)

def encryptMeta (now : Int) : Option Meta → Checked (Option String)
  | none => .ok none
  | some m => k.encrypt now (k.text m)

def decryptMeta (message : String) : Checked (Option Meta) := do
  let bytes ← k.decrypt message
  return (bytes.bind k.json.parse).bind Meta.serde.de

/-! ## Headers -/

/-- The header is made of two base64 texts, and the second one is not that of a nonce. -/
def WrongNonce (message : String) : Prop :=
  ∃ a b block nonce, Text.split ";" message = [a, b] ∧ k.platform.base64Decode a = some block ∧
    k.platform.base64Decode b = some nonce ∧ nonce.length ≠ 12

theorem fromSlice_of_length {bs : Bytes} (h : bs.length = 12) : fromSlice bs = .ok ⟨bs, h⟩ :=
  dif_pos h

theorem nonce_length {now : Int} {bs : Bytes} (h : nonce now = some bs) : bs.length = 12 := by
  unfold nonce at h
  split_ifs at h
  obtain rfl := Option.some.inj h
  rw [List.length_append, List.length_drop, List.length_reverse, putLE_length]
  rfl

/-- Encryption never panics: its nonce has the length that the cipher takes. -/
theorem encrypt_eq_ok (now : Int) (message : String) : ∃ r, k.encrypt now message = .ok r := by
  unfold encrypt
  cases hn : nonce now with
  | none => exact ⟨none, rfl⟩
  | some bs =>
      dsimp only
      rw [fromSlice_of_length (nonce_length hn)]
      exact ⟨_, rfl⟩

theorem mapM_pair {f : String → Option Bytes} {ps : List String} {x y : Bytes} :
    ps.mapM f = some [x, y] ↔ ∃ a b, ps = [a, b] ∧ f a = some x ∧ f b = some y := by
  constructor
  · intro h
    rcases ps with _ | ⟨a, _ | ⟨b, _ | ⟨c, ps⟩⟩⟩
    · simp at h
    · simp [Option.bind_eq_some_iff] at h
    · simp [Option.bind_eq_some_iff] at h
      exact ⟨a, b, rfl, h⟩
    · simp [Option.bind_eq_some_iff] at h
  · rintro ⟨a, b, rfl, ha, hb⟩
    simp [ha, hb]

/-- `decrypt_meta` panics on the headers with a nonce of another length, and on no other. -/
theorem decryptMeta_eq_ok (message : String) :
    (∃ r, k.decryptMeta message = .ok r) ↔ ¬ k.WrongNonce message := by
  have hwrong : k.WrongNonce message ↔ ∃ block nonce : Bytes,
      (Text.split ";" message).mapM k.platform.base64Decode = some [block, nonce] ∧
        nonce.length ≠ 12 := by
    constructor
    · rintro ⟨a, b, block, nonce, hs, ha, hb, hlen⟩
      exact ⟨block, nonce, mapM_pair.mpr ⟨a, b, hs, ha, hb⟩, hlen⟩
    · rintro ⟨block, nonce, hm, hlen⟩
      obtain ⟨a, b, hs, ha, hb⟩ := mapM_pair.mp hm
      exact ⟨a, b, block, nonce, hs, ha, hb, hlen⟩
  rw [hwrong]
  unfold decryptMeta decrypt
  split
  · rename_i block nonce hm
    rw [hm]
    by_cases hlen : nonce.length = 12
    · rw [fromSlice_of_length hlen]
      constructor
      · rintro - ⟨b, n, he, hne⟩
        cases he
        exact hne hlen
      · exact fun _ => ⟨_, rfl⟩
    · have hbad : fromSlice nonce = .error "from_slice: wrong length" := dif_neg hlen
      rw [hbad]
      constructor
      · rintro ⟨r, h⟩
        cases h
      · exact fun h => absurd ⟨block, nonce, rfl, hlen⟩ h
  · rename_i hm
    constructor
    · rintro - ⟨block, nonce, he, -⟩
      exact hm block nonce he
    · exact fun _ => ⟨_, rfl⟩

section

variable {k} {now : Int} {message header : String}

theorem encrypt_eq_some (h : k.encrypt now message = .ok (some header)) :
    ∃ (n : Nonce) (block : Bytes), k.aead.encrypt n message.toUTF8.toList = some block ∧
      header = k.platform.base64Encode block ++ ";" ++ k.platform.base64Encode n.1 := by
  unfold encrypt at h
  cases hn : nonce now with
  | none => rw [hn] at h; cases h
  | some bs =>
      rw [hn] at h
      simp only [fromSlice_of_length (nonce_length hn)] at h
      obtain ⟨block, hblock, rfl⟩ := Option.map_eq_some_iff.mp (Except.ok.inj h)
      exact ⟨⟨bs, nonce_length hn⟩, block, hblock, rfl⟩

/-- What was encrypted is decrypted. -/
theorem decrypt_encrypt (h64 : k.platform.Base64) (haead : k.aead.Correct)
    (h : k.encrypt now message = .ok (some header)) :
    k.decrypt header = .ok (some message.toUTF8.toList) := by
  obtain ⟨n, block, hblock, rfl⟩ := encrypt_eq_some h
  have hsplit : Text.split ";" (k.platform.base64Encode block ++ ";" ++
      k.platform.base64Encode n.1) = [k.platform.base64Encode block,
        k.platform.base64Encode n.1] := by
    have hsep : (";" : String).toList = [';'] := rfl
    have hparts := Text.split_intercalate hsep
      (List.cons_ne_nil (k.platform.base64Encode block) [k.platform.base64Encode n.1])
      (by simp [h64.plain])
    rwa [String.intercalate_cons_cons, String.intercalate_singleton] at hparts
  have hmap := mapM_pair.mpr ⟨_, _, hsplit, h64.decode_encode block, h64.decode_encode n.1⟩
  unfold decrypt
  rw [hmap]
  simp only [fromSlice_of_length n.2]
  exact congrArg Except.ok (haead n _ _ hblock)

end

/-- What becomes of the header of metadata. -/
theorem decryptMeta_sealed (h64 : k.platform.Base64) (haead : k.aead.Correct) {sealed : String}
    {now : Int} {m : Meta}
    (hjson : k.JsonReads m)
    (hsealed : k.encryptMeta now (some m) = .ok (some sealed)) :
    k.decryptMeta sealed = .ok (Meta.serde.de (Meta.serde.ser m)) := by
  unfold decryptMeta
  rw [decrypt_encrypt h64 haead hsealed]
  show Except.ok ((k.json.parse (k.text m).toUTF8.toList).bind Meta.serde.de) = _
  rw [show k.json.parse (k.text m).toUTF8.toList = _ from hjson, Option.bind_some]

/-- A received header is decrypted without a panic, and the header of metadata gives the
metadata back, exactly if the first has no nonce of a wrong length and the metadata has
readable labels. -/
theorem decryptMeta_correct (h64 : k.platform.Base64) (haead : k.aead.Correct)
    (header sealed : String) (now : Int) (m : Meta)
    (hjson : k.JsonReads m)
    (hsealed : k.encryptMeta now (some m) = .ok (some sealed)) :
    ((∃ r, k.decryptMeta header = .ok r) ∧ k.decryptMeta sealed = .ok (some m)) ↔
      ¬ k.WrongNonce header ∧ m.Readable := by
  rw [decryptMeta_eq_ok, k.decryptMeta_sealed h64 haead hjson hsealed, Except.ok.injEq,
    Meta.serde.exact, Meta.serde_clean]

/-- The encryption that a policy actor is created with; a panic ends the actor, so that no
metadata comes of it. -/
def toAead : Aead where
  encrypt now m := (k.encryptMeta now (some m)).toOption.join
  decrypt message := (k.decryptMeta message).toOption.join

theorem toAead_decrypt_encrypt (h64 : k.platform.Base64) (haead : k.aead.Correct)
    {sealed : String} {now : Nat} {m : Meta} (hm : m.Readable)
    (hjson : k.JsonReads m)
    (h : k.toAead.encrypt now m = some sealed) : k.toAead.decrypt sealed = some m := by
  obtain ⟨r, hr⟩ := k.encrypt_eq_ok now (k.text m)
  have hsealed : k.encryptMeta now (some m) = .ok (some sealed) := by
    have hjoin : (Except.toOption (.ok r : Checked (Option String))).join = some sealed := hr ▸ h
    obtain rfl : r = some sealed := hjoin
    exact hr
  show (k.decryptMeta sealed).toOption.join = some m
  rw [k.decryptMeta_sealed h64 haead hjson hsealed, (Meta.serde.exact m).mpr ((Meta.serde_clean m).mpr hm)]
  rfl

/-! ## An instance -/

def platform64 : Platform :=
  { Platform.offline with base64Encode := Base64.encode, base64Decode := Base64.decode }

theorem platform64_base64 : platform64.Base64 :=
  ⟨Base64.decode_encode, Base64.semicolon_not_mem_encode⟩

/-- Metadata with an identity, some data and a label. -/
def sampleMeta : Meta := ⟨some ⟨[.str "a"]⟩, [[1, 2]], BTreeSet.empty.insert ⟨[.str "b"]⟩⟩

/-- JSON of this metadata. -/
def sampleJson : Json where
  print _ := "\x7b\"id\":\"a\",\"data\":[[1,2]],\"labels\":[\"b\"]\x7d"
  parse bs :=
    if bs = "\x7b\"id\":\"a\",\"data\":[[1,2]],\"labels\":[\"b\"]\x7d".toUTF8.toList then
      some (Meta.serde.ser sampleMeta)
    else none

def sample : MetaCrypto := ⟨chacha20Poly1305 (List.replicate 32 7), sampleJson, platform64⟩

theorem decryptMeta_correct_sample : ∃ sealed,
    sample.encryptMeta 0 (some sampleMeta) = .ok (some sealed) ∧
      (((∃ r, sample.decryptMeta "AAAA" = .ok r) ∧
        sample.decryptMeta sealed = .ok (some sampleMeta)) ↔
          ¬ sample.WrongNonce "AAAA" ∧ sampleMeta.Readable) :=
  ⟨_, rfl, decryptMeta_correct sample platform64_base64 (chacha20Poly1305_correct _) "AAAA" _ 0
    sampleMeta (if_pos rfl) rfl⟩

/-- Two base64 texts of three bytes each: the second one is taken for a nonce. -/
theorem decryptMeta_panics : ¬ ∃ r, sample.decryptMeta "AAAA;AAAA" = .ok r := by
  rw [decryptMeta_eq_ok, not_not]
  exact ⟨"AAAA", "AAAA", [0, 0, 0], [0, 0, 0], by decide +kernel, by decide +kernel,
    by decide +kernel, by decide⟩

end MetaCrypto

end Armour.Proxy
