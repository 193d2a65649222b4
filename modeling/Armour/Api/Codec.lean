import Armour.Lib.Chunks
import Armour.Lib.Wire
import Mathlib.Data.List.Forall2

/-! # Transport between host and proxy

`armour-api/src/lib.rs`: a message is sent as the length of its bincode encoding, two bytes,
followed by the encoding.  `HostCodec` and `PolicyCodec` are the two uses of the same encoder
and decoder, with requests and responses exchanged.
-/

namespace Armour.Api

open Armour.Lib

/-- The bincode encoding of a message type. -/
structure Bincode (M : Type) where
  serialize : M → List UInt8
  deserialize : List UInt8 → Except String M

variable {M : Type}

/-- `put_u16`, big endian. -/
def putU16 (n : UInt16) : List UInt8 :=
  [UInt8.ofNat (n.toNat / 256), UInt8.ofNat n.toNat]

/-- `BigEndian::read_u16`. -/
def readU16 (hi lo : UInt8) : Nat := 256 * hi.toNat + lo.toNat

/-- `serialize_encode`: note that the length is cut to sixteen bits. -/
def serializeEncode (bin : Bincode M) (msg : M) (dst : List UInt8) :
    Except String (List UInt8) :=
  let body := bin.serialize msg
  .ok (dst ++ putU16 (UInt16.ofNat body.length) ++ body)

/-- `deserialize_decode`: the buffer keeps what follows the message. -/
def deserializeDecode (bin : Bincode M) : List UInt8 → Step M UInt8 String
  | hi :: lo :: rest =>
      let size := readU16 hi lo
      if size ≤ rest.length then
        match bin.deserialize (rest.take size) with
        | .ok msg => .item msg (rest.drop size)
        | .error e => .fail e (rest.drop size)
      else .more
  | _ => .more

/-- The stream of a sequence of messages. -/
def encodeAll (bin : Bincode M) : List M → List UInt8 → Except String (List UInt8)
  | [], dst => .ok dst
  | msg :: msgs, dst => do encodeAll bin msgs (← serializeEncode bin msg dst)

/-- The length of the message does not fit in the header. -/
def Oversized (bin : Bincode M) (msg : M) : Prop := 2 ^ 16 ≤ (bin.serialize msg).length

/-! ## Frames -/

def frame (bin : Bincode M) (msg : M) : List UInt8 :=
  putU16 (UInt16.ofNat (bin.serialize msg).length) ++ bin.serialize msg

theorem encodeAll_eq (bin : Bincode M) (msgs : List M) (dst : List UInt8) :
    encodeAll bin msgs dst = .ok (dst ++ (msgs.map (frame bin)).flatten) := by
  induction msgs generalizing dst with
  | nil => simp [encodeAll]
  | cons msg msgs ih =>
      show encodeAll bin msgs _ = _
      rw [ih]
      simp [frame, List.append_assoc]

theorem frame_eq (bin : Bincode M) (msg : M) :
    frame bin msg =
      UInt8.ofNat ((bin.serialize msg).length % 2 ^ 16 / 256) ::
        UInt8.ofNat ((bin.serialize msg).length % 2 ^ 16) :: bin.serialize msg := by
  rw [frame, putU16, UInt16.toNat_ofNat']
  rfl

theorem readU16_putU16 {n : Nat} (h : n < 2 ^ 16) :
    readU16 (UInt8.ofNat (n / 256)) (UInt8.ofNat n) = n := by
  simp only [readU16, UInt8.toNat_ofNat']
  omega

theorem deserializeDecode_stable (bin : Bincode M) : Stable (deserializeDecode bin) := by
  have hstep : ∀ (hi lo : UInt8) (rest t : List UInt8), readU16 hi lo ≤ rest.length →
      deserializeDecode bin (hi :: lo :: rest ++ t) =
        match bin.deserialize (rest.take (readU16 hi lo)) with
        | .ok msg => .item msg (rest.drop (readU16 hi lo) ++ t)
        | .error e => .fail e (rest.drop (readU16 hi lo) ++ t) := by
    intro hi lo rest t hsize
    have hlen : readU16 hi lo ≤ (rest ++ t).length := by
      rw [List.length_append]
      omega
    simp only [List.cons_append, deserializeDecode, if_pos hlen,
      List.take_append_of_le_length hsize, List.drop_append_of_le_length hsize]
  have hcases : ∀ s, deserializeDecode bin s = .more ∨ ∃ hi lo rest, s = hi :: lo :: rest ∧
      readU16 hi lo ≤ rest.length := by
    intro s
    rcases s with _ | ⟨hi, _ | ⟨lo, rest⟩⟩
    · exact Or.inl rfl
    · exact Or.inl rfl
    · by_cases hsize : readU16 hi lo ≤ rest.length
      · exact Or.inr ⟨hi, lo, rest, rfl, hsize⟩
      · exact Or.inl (by simp only [deserializeDecode, if_neg hsize])
  constructor
  · intro s a r h t
    rcases hcases s with hmore | ⟨hi, lo, rest, rfl, hsize⟩
    · rw [hmore] at h
      cases h
    · rw [hstep hi lo rest t hsize]
      simp only [deserializeDecode, if_pos hsize] at h
      cases hd : bin.deserialize (rest.take (readU16 hi lo)) with
      | ok msg => rw [hd] at h; cases h; rfl
      | error e => rw [hd] at h; cases h
  · intro s e r h t
    rcases hcases s with hmore | ⟨hi, lo, rest, rfl, hsize⟩
    · rw [hmore] at h
      cases h
    · rw [hstep hi lo rest t hsize]
      simp only [deserializeDecode, if_pos hsize] at h
      cases hd : bin.deserialize (rest.take (readU16 hi lo)) with
      | ok msg => rw [hd] at h; cases h
      | error e => rw [hd] at h; cases h; rfl
  · intro s a r h
    rcases hcases s with hmore | ⟨hi, lo, rest, rfl, hsize⟩
    · rw [hmore] at h
      cases h
    · simp only [deserializeDecode, if_pos hsize] at h
      cases hd : bin.deserialize (rest.take (readU16 hi lo)) with
      | ok msg =>
          rw [hd] at h
          cases h
          simp only [List.length_drop, List.length_cons]
          omega
      | error e => rw [hd] at h; cases h

theorem decode_frame {bin : Bincode M} (roundTrip : ∀ m, bin.deserialize (bin.serialize m) = .ok m)
    {msg : M} (hsize : ¬ Oversized bin msg) (t : List UInt8) :
    deserializeDecode bin (frame bin msg ++ t) = .item msg t := by
  have hlt : (bin.serialize msg).length < 2 ^ 16 := by
    unfold Oversized at hsize
    omega
  rw [frame_eq, Nat.mod_eq_of_lt hlt]
  simp only [List.cons_append, deserializeDecode, readU16_putU16 hlt, List.length_append,
    Nat.le_add_right, if_true, List.take_left, List.drop_left, roundTrip]

/-- Messages that fit are decoded from their stream. -/
theorem drain_frames {bin : Bincode M} (roundTrip : ∀ m, bin.deserialize (bin.serialize m) = .ok m)
    {msgs : List M} (hsize : ∀ m ∈ msgs, ¬ Oversized bin m) :
    drain (deserializeDecode bin) (msgs.map (frame bin)).flatten = ⟨msgs, none, []⟩ := by
  induction msgs with
  | nil => rfl
  | cons msg msgs ih =>
      have hmsg := decode_frame roundTrip (hsize msg List.mem_cons_self)
        (msgs.map (frame bin)).flatten
      rw [List.map_cons, List.flatten_cons, drain_item (deserializeDecode_stable bin) hmsg,
        ih (fun m hm => hsize m (List.mem_cons_of_mem _ hm))]
      rfl

/-! ## The codec -/

/-- An oversized message is refused, and what is sent arrives, however the stream is cut. -/
def Transports (bin : Bincode M) (msgs : List M) : Prop :=
  (∀ m ∈ msgs, Oversized bin m → ∃ e, serializeEncode bin m [] = .error e) ∧
  ∀ stream, encodeAll bin msgs [] = .ok stream → ∀ chunks : List (List UInt8),
    chunks.flatten = stream →
      receive (deserializeDecode bin) chunks [] = ⟨msgs, none, []⟩

/-- The encoder refuses nothing: exactly the sequences without an oversized message are
transported. -/
theorem transports_iff {bin : Bincode M}
    (roundTrip : ∀ m, bin.deserialize (bin.serialize m) = .ok m) (msgs : List M) :
    Transports bin msgs ↔ ∀ m ∈ msgs, ¬ Oversized bin m := by
  constructor
  · rintro ⟨hrefused, -⟩ m hm hover
    obtain ⟨e, he⟩ := hrefused m hm hover
    cases he
  · intro hsize
    refine ⟨fun m hm hover => absurd hover (hsize m hm), ?_⟩
    intro stream hstream chunks hchunks
    rw [encodeAll_eq, List.nil_append] at hstream
    cases hstream
    have hstable := deserializeDecode_stable bin
    have hdrain := drain_frames roundTrip hsize
    rw [receive_eq_drain hstable chunks [] rfl]
    · rw [List.nil_append, hchunks, hdrain]
    · rw [List.nil_append, hchunks, hdrain]

/-- A byte is its own encoding. -/
def byteBincode : Bincode UInt8 where
  serialize b := [b]
  deserialize
    | b :: _ => .ok b
    | [] => .error "unexpected end of file"

/-- Two bytes arrive, however the stream is cut. -/
theorem transports_bytes : Transports byteBincode [1, 2] := by
  refine (transports_iff (fun _ => rfl) [1, 2]).mpr (fun m _ hover => ?_)
  simp [Oversized, byteBincode] at hover

/-! ## A length that wraps -/

/-- Bincode of a byte vector: the length in eight bytes, then the bytes. -/
def vecBincode : Bincode (List UInt8) where
  serialize bs := putLE 8 bs.length ++ bs
  deserialize s :=
    let n := getLE (s.take 8)
    if 8 ≤ s.length ∧ n ≤ (s.drop 8).length then .ok ((s.drop 8).take n)
    else .error "unexpected end of file"

theorem vecBincode_roundTrip {bs : List UInt8} (h : bs.length < 256 ^ 8) :
    vecBincode.deserialize (vecBincode.serialize bs) = .ok bs := by
  have htake : (putLE 8 bs.length ++ bs).take 8 = putLE 8 bs.length :=
    List.take_left' (putLE_length 8 _)
  have hdrop : (putLE 8 bs.length ++ bs).drop 8 = bs :=
    List.drop_left' (putLE_length 8 _)
  simp only [vecBincode, htake, hdrop, getLE_putLE h, List.length_append, putLE_length,
    List.take_length]
  simp

theorem receive_wrapped {bs : List UInt8} (h : bs.length = 65528) :
    receive (deserializeDecode vecBincode) [frame vecBincode bs] [] =
      ⟨[], some "unexpected end of file", vecBincode.serialize bs⟩ := by
  have hlen : (vecBincode.serialize bs).length % 2 ^ 16 = 0 := by
    simp only [vecBincode, List.length_append, putLE_length]
    omega
  have hnext : deserializeDecode vecBincode (frame vecBincode bs) =
      .fail "unexpected end of file" (vecBincode.serialize bs) := by
    rw [frame_eq, hlen]
    rfl
  simp only [receive, List.nil_append, drain_fail (deserializeDecode_stable vecBincode) hnext]

/-- A vector whose encoding has `2 ^ 16` bytes is sent with the length zero. -/
theorem transports_wraps :
    ¬ Transports vecBincode [List.replicate 65528 0] ∧
    vecBincode.deserialize (vecBincode.serialize (List.replicate 65528 0)) =
      .ok (List.replicate 65528 0) ∧
    encodeAll vecBincode [List.replicate 65528 0] [] =
      .ok (frame vecBincode (List.replicate 65528 0)) ∧
    receive (deserializeDecode vecBincode) [frame vecBincode (List.replicate 65528 0)] [] =
      ⟨[], some "unexpected end of file", vecBincode.serialize (List.replicate 65528 0)⟩ := by
  have hlen : (List.replicate 65528 (0 : UInt8)).length = 65528 := List.length_replicate
  generalize List.replicate 65528 (0 : UInt8) = bs at hlen
  refine ⟨?_, vecBincode_roundTrip (by omega), rfl, receive_wrapped hlen⟩
  rintro ⟨hrefused, -⟩
  have hover : Oversized vecBincode bs := by
    simp only [Oversized, vecBincode, List.length_append, putLE_length]
    omega
  obtain ⟨e, he⟩ := hrefused bs List.mem_cons_self hover
  cases he

end Armour.Api
