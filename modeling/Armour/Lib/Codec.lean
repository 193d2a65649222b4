import Armour.Lib.Wire

/-! # Codecs

A codec is a format of a type together with the values that survive it.  The codecs of
numbers, texts, pairs, sets and maps are those of a compact format without field names:
little endian numbers, lengths and variants as numbers, options as one byte.
-/

namespace Armour.Lib

variable {α β κ ν : Type}

/-- A format of `α`: the values that it keeps are the `Clean` ones. -/
structure Codec (α : Type) where
  write : α → Option (List UInt8)
  read : Parser α
  Clean : α → Prop
  exact : ∀ n x, Exact n read (write x) x (Clean x)

namespace Codec

/-- All values survive. -/
def Total (c : Codec α) : Prop := ∀ x, c.Clean x

/-- What is read survives being written again. -/
def Closed (c : Codec α) : Prop := ∀ s x r, c.read s = some (x, r) → c.Clean x

theorem Total.closed {c : Codec α} (h : c.Total) : c.Closed := fun _ x _ _ => h x

theorem Total.exact {c : Codec α} (h : c.Total) (n : Nat) (x : α) :
    Exact n c.read (c.write x) x True :=
  (c.exact n x).congr (iff_true_intro (h x))

/-- A value is written as a value of another type; not every one of those need be read. -/
def refine (c : Codec α) (f : α → Option β) (g : β → α)
    (h : ∀ a b, f a = some b → a = g b) : Codec β where
  write b := c.write (g b)
  read := c.read.filterMap f
  Clean b := c.Clean (g b) ∧ f (g b) = some b
  exact n b := (c.exact n (g b)).filterMap (fun a ha => h a b ha)

theorem refine_closed {c : Codec α} (hc : c.Closed) {f : α → Option β} {g : β → α}
    {h : ∀ a b, f a = some b → a = g b} : (c.refine f g h).Closed := by
  intro s b r hread
  obtain ⟨a, ha, hf⟩ := Parser.filterMap_eq_some.mp hread
  obtain rfl := h a b hf
  exact ⟨hc s _ r ha, hf⟩

/-- A type with the same values under another name. -/
def iso (c : Codec α) (f : α → β) (g : β → α) (h : ∀ b, f (g b) = b) (h' : ∀ a, g (f a) = a) :
    Codec β where
  write b := c.write (g b)
  read := c.read.map f
  Clean b := c.Clean (g b)
  exact n b := by
    have hmap := (c.exact n (g b)).map (f := f)
      (fun a ha => (h' a).symm.trans ((congrArg g ha).trans (h' _)))
    rwa [h] at hmap

/-- A type whose values are among those of another one, all of which survive. -/
def retract (c : Codec α) (hc : c.Total) (f : α → Option β) (g : β → α)
    (h : ∀ b, f (g b) = some b) : Codec β where
  write b := c.write (g b)
  read := c.read.filterMap f
  Clean _ := True
  exact n b := Exact.of_reads (fun bs hbs hle rest => by
    refine Parser.filterMap_eq_some.mpr ⟨g b, ?_, h b⟩
    exact (c.exact n (g b)).reads (hc (g b)) bs hbs hle rest)

/-- The same format, with another description of the values that survive. -/
def withClean (c : Codec α) (P : α → Prop) (h : ∀ x, c.Clean x ↔ P x) : Codec α where
  write := c.write
  read := c.read
  Clean := P
  exact n x := (c.exact n x).congr (h x)

theorem withClean_closed {c : Codec α} (hc : c.Closed) {P : α → Prop}
    {h : ∀ x, c.Clean x ↔ P x} : (c.withClean P h).Closed :=
  fun s x r hread => (h x).mp (hc s x r hread)

def pair (a : Codec α) (b : Codec β) : Codec (α × β) where
  write p := cat (a.write p.1) (b.write p.2)
  read := a.read.pair b.read
  Clean p := a.Clean p.1 ∧ b.Clean p.2
  exact n p := (a.exact n p.1).pair (b.exact n p.2)

def list (c : Codec α) : Codec (List α) where
  write := writeList c.write
  read := c.read.list
  Clean xs := ∀ x ∈ xs, c.Clean x
  exact n _ := Exact.list (fun x _ => c.exact n x)

def option (c : Codec α) : Codec (Option α) where
  write := writeOption c.write
  read := c.read.option
  Clean o := ∀ x ∈ o, c.Clean x
  exact n _ := Exact.option (fun x _ => c.exact n x)

/-! ## Numbers, bytes and texts -/

/-- A number in `k` bytes, little endian. -/
def le (k : Nat) : Codec Nat where
  write := writeLE k
  read := readLE k
  Clean _ := True
  exact n x := Exact.le k x n

theorem le_total (k : Nat) : (le k).Total := fun _ => trivial

def u8 : Codec UInt8 :=
  (le 1).retract (le_total 1) (fun n => some (.ofNat n)) UInt8.toNat (by simp)
def u16 : Codec UInt16 :=
  (le 2).retract (le_total 2) (fun n => some (.ofNat n)) UInt16.toNat (by simp)
theorem some_ofNat_toNat (b : UInt32) : some (UInt32.ofNat b.toNat) = some b :=
  congrArg some UInt32.ofNat_toNat

def u32 : Codec UInt32 :=
  (le 4).retract (le_total 4) (fun n => some (.ofNat n)) UInt32.toNat some_ofNat_toNat
def u64 : Codec UInt64 :=
  (le 8).retract (le_total 8) (fun n => some (.ofNat n)) UInt64.toNat (by simp)

def i64 : Codec Int64 :=
  u64.retract (fun _ => trivial) (fun n => some n.toInt64) Int64.toUInt64 (by simp)

/-- A number in `k` bytes, big endian: the octets of an address. -/
def be (k : Nat) : Codec Nat where
  write n := (writeLE k n).map List.reverse
  read := (Parser.byte.times k).map (fun l => getLE l.reverse)
  Clean _ := True
  exact n x := Exact.of_reads (fun bs hbs hle rest => by
    obtain ⟨l, hl, rfl⟩ := Option.map_eq_some_iff.mp hbs
    obtain ⟨hlt, rfl⟩ := writeLE_eq_some.mp hl
    have ht := times_byte (putLE k x).reverse rest
    rw [List.length_reverse, putLE_length] at ht
    exact Parser.map_eq_some.mpr ⟨_, ht, by rw [List.reverse_reverse, getLE_putLE hlt]⟩)

/-- A Boolean is a byte, zero or one. -/
def bool : Codec Bool :=
  u8.refine (fun b => if b = 0 then some false else if b = 1 then some true else none)
    (fun b => if b then 1 else 0) (by
      intro a b h
      split_ifs at h <;> cases h <;> assumption)

/-- A text: the bytes of its UTF-8 form. -/
def text : Codec String :=
  u8.list.refine (fun bs => String.fromUTF8? ⟨bs.toArray⟩) (fun s => s.toUTF8.data.toList) (by
    intro bs s h
    unfold String.fromUTF8? at h
    split_ifs at h
    cases h
    simp [String.fromUTF8])

theorem bool_total : bool.Total := by
  intro b
  refine ⟨trivial, ?_⟩
  cases b <;> rfl

theorem text_total : text.Total := by
  intro s
  refine ⟨fun _ _ => trivial, ?_⟩
  have hv : ByteArray.IsValidUTF8 ⟨s.toUTF8.data.toList.toArray⟩ := by
    simpa using s.isValidUTF8
  simp only [String.fromUTF8?, dif_pos hv]
  simp [String.fromUTF8]

/-- An enumeration: the number of the variant. -/
def enum [DecidableEq α] (vs : List α) (h : ∀ x, x ∈ vs) : Codec α where
  write x := tagged (vs.idxOf x) (some [])
  read := Parser.variant (vs.map Parser.pure)
  Clean _ := True
  exact n x := Exact.variant (by
    rw [List.getElem?_map, List.getElem?_idxOf (h x), Option.map_some]) (Exact.pure x)

/-! ## Sets and maps -/

/-- The first value of a list of entries that does not survive is read as another one,
under its own key. -/
theorem exists_ne_of_misread {k : Codec κ} {v : Codec ν} (hk : k.Total) {n : Nat} :
    ∀ {xs : List (κ × ν)} {bs rest r : List UInt8} {l : List (κ × ν)},
      (¬ ∀ p ∈ xs, v.Clean p.2) → catMap (k.pair v).write xs = some bs → bs.length ≤ n →
      (k.pair v).read.times xs.length (bs ++ rest) = some (l, r) →
      ∃ p ∈ xs, ∃ b, (p.1, b) ∈ l ∧ b ≠ p.2
  | [], _, _, _, _, hc, _, _, _ => absurd (by simp) hc
  | (a, b) :: xs, bs, rest, r, l, hc, hbs, hle, h => by
      obtain ⟨y, ys, hy, hys, rfl⟩ := cat_eq_some.mp hbs
      obtain ⟨x, z, hx, hz, rfl⟩ := cat_eq_some.mp hy
      rw [List.length_append, List.length_append] at hle
      obtain ⟨⟨a', b'⟩, t, as, hread, has, rfl⟩ := Parser.times_succ_eq_some.mp h
      obtain ⟨u, ha, hb⟩ := Parser.pair_eq_some.mp hread
      rw [List.append_assoc, List.append_assoc,
        (k.exact n a).reads (hk a) x hx (by omega)] at ha
      cases ha
      by_cases hv : v.Clean b
      · have hb' := (v.exact n b).reads hv z hz (by omega) (ys ++ rest)
        rw [hb'] at hb
        cases hb
        have hxs : ¬ ∀ p ∈ xs, v.Clean p.2 := by
          intro hall
          exact hc (List.forall_mem_cons.mpr ⟨hv, hall⟩)
        obtain ⟨p, hp, c, hc, hne⟩ := exists_ne_of_misread hk hxs hys
          (show ys.length ≤ n by omega) has
        exact ⟨p, List.mem_cons_of_mem _ hp, c, List.mem_cons_of_mem _ hc, hne⟩
      · refine ⟨_, List.mem_cons_self, b', List.mem_cons_self, fun he => ?_⟩
        obtain rfl : b' = b := he
        exact (v.exact n b').misreads hv z hz (by omega) _ _ hb

section

variable [LinearOrder κ]

/-- A set: its elements in order; they are inserted as they are read. -/
def set (c : Codec κ) (hc : c.Closed) : Codec (BTreeSet κ) where
  write s := writeList c.write s.elems
  read := c.read.list.map BTreeSet.ofList
  Clean s := ∀ x ∈ s.elems, c.Clean x
  exact n s := by
    constructor
    · intro hs bs hbs hle rest
      have h := (c.list.exact n s.elems).reads hs bs hbs hle rest
      exact Parser.map_eq_some.mpr ⟨s.elems, h, BTreeSet.ofList_elems s⟩
    · intro hs bs hbs hle rest rest' h
      obtain ⟨l, hl, hls⟩ := Parser.map_eq_some.mp h
      obtain ⟨k, t, -, hk⟩ := Parser.bind_eq_some.mp hl
      refine hs (fun x hx => Parser.times_forall hc hk x ?_)
      rw [← hls] at hx
      exact BTreeSet.mem_of_mem_ofList hx

/-- A map: its entries in order; they are inserted as they are read. -/
def map (k : Codec κ) (hk : k.Total) (v : Codec ν) : Codec (BTreeMap κ ν) where
  write m := writeList (k.pair v).write m.entries
  read := (k.pair v).read.list.map BTreeMap.ofList
  Clean m := ∀ p ∈ m.entries, v.Clean p.2
  exact n m := by
    constructor
    · intro hm bs hbs hle rest
      have h := ((k.pair v).list.exact n m.entries).reads
        (fun p hp => ⟨hk p.1, hm p hp⟩) bs hbs hle rest
      exact Parser.map_eq_some.mpr ⟨m.entries, h, BTreeMap.ofList_entries m⟩
    · intro hm bs hbs hle rest rest' h
      obtain ⟨l, hl, rfl⟩ := Parser.map_eq_some.mp h
      obtain ⟨x, y, hx, hy, rfl⟩ := cat_eq_some.mp hbs
      rw [List.length_append] at hle
      obtain ⟨j, t, hj, htimes⟩ := Parser.bind_eq_some.mp hl
      rw [List.append_assoc, (Exact.le 8 _ n).reads trivial x hx (by omega)] at hj
      cases hj
      have hlen := Parser.times_length htimes
      obtain ⟨p, hp, b, hb, hne⟩ := exists_ne_of_misread hk hm hy
        (show y.length ≤ n by omega) htimes
      -- the list read is as long as the map, so none of its entries is lost
      have hb' := BTreeMap.mem_ofList_of_length hlen.symm _ hb
      have h1 := (BTreeMap.mem_entries _ _ _).mp hb'
      have h2 := (BTreeMap.mem_entries _ p.1 p.2).mp hp
      exact hne (Option.some.inj (h1.symm.trans h2))

end

end Codec

end Armour.Lib
