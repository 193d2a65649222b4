import Armour.Lib.Codec
import Armour.Lang.ControlPlane

/-! # Serialized literals and expressions

The `Serialize` and `Deserialize` instances of the types of a policy, over the format of
`bincode`: fields in the order of their declaration, variants by their number.  Most instances
are derived; those of ports (`port_serde`), labels (as text) and regular expressions (as their
source) are written by hand.  The variants that only hold phantom data have no values, so they
are left out.
-/

namespace Armour.Lang

open Armour.Lib

/-- What the formats take from other packages: regular expressions, and the compression and
the text form of encoded policies. -/
structure Packages where
  /-- `regex::escape` -/
  escape : String → String
  /-- `Regex::new` succeeds -/
  compiles : String → Bool
  /-- gzip, then base64 -/
  pack : List UInt8 → String
  unpack : String → Option (List UInt8)
  unpack_pack : ∀ bs, unpack (pack bs) = some bs

/-! ## Ports -/

namespace F64

def codec : Codec F64 := Codec.u64.iso F64.mk F64.bits (fun _ => rfl) (fun _ => rfl)

/-- `u16 as f64`. -/
def ofU16 (p : UInt16) : F64 :=
  if p = 0 then zero
  else
    let k := p.toNat.log2
    ⟨UInt64.ofNat ((1023 + k) * 2 ^ 52 + (p.toNat - 2 ^ k) * 2 ^ (52 - k))⟩

/-- `f64 as u16`: toward zero, and the nearest bound outside the range. -/
def toU16 (x : F64) : UInt16 :=
  let b := x.bits.toNat
  let e := b / 2 ^ 52 % 2 ^ 11
  if x.isNaN ∨ 2 ^ 63 ≤ b ∨ e < 1023 then 0
  else if 1023 + 16 ≤ e then 65535
  else UInt16.ofNat ((2 ^ 52 + b % 2 ^ 52) / 2 ^ (52 - (e - 1023)))

/-- The lowest byte of the number of a port is zero. -/
theorem ofU16_low (p : UInt16) : (ofU16 p).bits.toNat % 256 = 0 := by
  unfold ofU16
  split_ifs with hp
  · rfl
  · have hpos : p.toNat ≠ 0 := fun h => hp (UInt16.toNat_inj.mp h)
    have hlog : p.toNat.log2 < 16 := (Nat.log2_lt hpos).mpr p.toNat_lt
    obtain ⟨j, hj⟩ : ∃ j, 52 - p.toNat.log2 = 8 + j := ⟨44 - p.toNat.log2, by omega⟩
    have h52 : (2 : Nat) ^ 52 = 256 * 2 ^ 44 := by decide
    have hpow : (2 : Nat) ^ (52 - p.toNat.log2) = 256 * 2 ^ j := by
      rw [hj, pow_add]
      rfl
    rw [UInt64.toNat_ofNat', hpow, h52]
    have hsum : (1023 + p.toNat.log2) * (256 * 2 ^ 44) +
        (p.toNat - 2 ^ p.toNat.log2) * (256 * 2 ^ j) =
          256 * ((1023 + p.toNat.log2) * 2 ^ 44 + (p.toNat - 2 ^ p.toNat.log2) * 2 ^ j) := by
      rw [Nat.mul_add, Nat.mul_left_comm, Nat.mul_left_comm (p.toNat - _)]
    rw [hsum]
    omega

end F64

/-- `port_serde`: a port is written as a floating point number, without the byte that says
that there is one, and read as an option. -/
def portCodec : Codec (Option UInt16) where
  write
    | none => some [0]
    | some p => F64.codec.write (F64.ofU16 p)
  read := (F64.codec.read.map F64.toU16).option
  Clean o := o = none
  exact n o := by
    cases o with
    | none =>
        refine (Exact.of_reads (fun bs hbs _ rest => ?_)).congr (by simp)
        cases hbs
        rfl
    | some p =>
        refine ⟨fun h => absurd h (Option.some_ne_none p), fun _ bs hbs _ rest rest' h => ?_⟩
        -- the lowest byte of the number is taken for the byte of `None`
        obtain ⟨-, rfl⟩ := writeLE_eq_some.mp hbs
        have hlow : UInt8.ofNat (F64.ofU16 p).bits.toNat = 0 := by
          rw [← UInt8.toNat_inj, UInt8.toNat_ofNat']
          exact F64.ofU16_low p
        have hread : (F64.codec.read.map F64.toU16).option
            (putLE 8 (F64.ofU16 p).bits.toNat ++ rest) =
              some (none, putLE 7 ((F64.ofU16 p).bits.toNat / 256) ++ rest) := by
          rw [putLE, hlow]
          rfl
        rw [hread] at h
        cases h

/-! ## Addresses and labels -/

namespace IpAddr

def v4Codec : Codec UInt32 :=
  (Codec.be 4).retract (fun _ => trivial) (fun n => some (.ofNat n)) UInt32.toNat
    Codec.some_ofNat_toNat

def v6Codec : Codec (BitVec 128) :=
  (Codec.be 16).retract (fun _ => trivial) (fun n => some (.ofNat 128 n)) BitVec.toNat
    (fun a => congrArg some (BitVec.ofNat_toNat 128 a ▸ BitVec.setWidth_eq a))

def codec : Codec IpAddr where
  write
    | v4 a => tagged 0 (v4Codec.write a)
    | v6 a => tagged 1 (v6Codec.write a)
  read := Parser.variant [v4Codec.read.map v4, v6Codec.read.map v6]
  Clean _ := True
  exact n a := by
    cases a with
    | v4 a => exact Exact.variant rfl ((v4Codec.exact n a).map (fun _ h => v4.inj h))
    | v6 a => exact Exact.variant rfl ((v6Codec.exact n a).map (fun _ h => v6.inj h))

theorem codec_total : codec.Total := fun _ => trivial

end IpAddr

namespace Label

def ofText (s : String) : Option Label := (fromStr s).toOption

theorem ofText_eq_some {s : String} {l : Label} : ofText s = some l ↔ fromStr s = .ok l := by
  unfold ofText
  cases fromStr s with
  | error e => simp [Except.toOption]
  | ok l' => simp [Except.toOption]

/-- A label is written as its text. -/
def textCodec : Codec Label :=
  Codec.text.refine ofText display (fun _ _ h => (of_fromStr (ofText_eq_some.mp h)).2.symm)

def codec : Codec Label :=
  textCodec.withClean Readable (fun l => by
    rw [← fromStr_display, ← ofText_eq_some]
    exact and_iff_right (Codec.text_total _))

theorem codec_closed : codec.Closed :=
  Codec.withClean_closed (Codec.refine_closed Codec.text_total.closed)

end Label

/-! ## Identities and messages -/

/-- An identity that survives its format: it has no port, and its labels can be read. -/
def ID.Sendable (i : ID) : Prop := i.port = none ∧ ∀ l ∈ i.labels.elems, l.Readable

def Connection.Sendable (c : Connection) : Prop := c.fromId.Sendable ∧ c.toId.Sendable

def ID.codec : Codec ID :=
  (((Codec.set Codec.text Codec.text_total.closed).pair
    ((Codec.set IpAddr.codec IpAddr.codec_total.closed).pair
      (portCodec.pair (Codec.set Label.codec Label.codec_closed)))).iso
    (fun p => ⟨p.1, p.2.1, p.2.2.1, p.2.2.2⟩) (fun i => (i.hosts, i.ips, i.port, i.labels))
    (fun _ => rfl) (fun _ => rfl)).withClean ID.Sendable (fun i => by
      refine Iff.trans (and_iff_right (fun _ _ => Codec.text_total _)) ?_
      exact and_iff_right (fun _ _ => IpAddr.codec_total _))

def Connection.codec : Codec Connection :=
  ((ID.codec.pair (ID.codec.pair Codec.i64)).iso
    (fun p => ⟨p.1, p.2.1, p.2.2⟩) (fun c => (c.fromId, c.toId, c.number))
    (fun _ => rfl) (fun _ => rfl)).withClean Connection.Sendable (fun c => by
      exact and_congr_right (fun _ => and_iff_left trivial))

def Method.codec : Codec Method :=
  Codec.enum [.GET, .POST, .PUT, .DELETE, .HEAD, .OPTIONS, .CONNECT, .PATCH, .TRACE]
    (by intro m; cases m <;> decide)

def Version.codec : Codec Version :=
  Codec.enum [.HTTP_09, .HTTP_10, .HTTP_11, .HTTP_20] (by intro v; cases v <;> decide)

def HttpHeaders.codec : Codec HttpHeaders :=
  Codec.map Codec.text Codec.text_total Codec.u8.list.list

theorem HttpHeaders.codec_total : HttpHeaders.codec.Total :=
  fun _ _ _ _ _ _ _ => trivial

def HttpRequest.codec : Codec HttpRequest :=
  ((Method.codec.pair (Version.codec.pair (Codec.text.pair (Codec.text.pair
    (HttpHeaders.codec.pair Connection.codec))))).iso
    (fun p => ⟨p.1, p.2.1, p.2.2.1, p.2.2.2.1, p.2.2.2.2.1, p.2.2.2.2.2⟩)
    (fun r => (r.method, r.version, r.path, r.query, r.headers, r.connection))
    (fun _ => rfl) (fun _ => rfl)).withClean (fun r => r.connection.Sendable) (fun r => by
      refine (and_iff_right trivial).trans ((and_iff_right trivial).trans ?_)
      refine (and_iff_right (Codec.text_total _)).trans ?_
      refine (and_iff_right (Codec.text_total _)).trans ?_
      exact and_iff_right (HttpHeaders.codec_total _))

def HttpResponse.codec : Codec HttpResponse :=
  ((Version.codec.pair (Codec.u16.pair (HttpHeaders.codec.pair
    (Codec.text.option.pair Connection.codec)))).iso
    (fun p => ⟨p.1, p.2.1, p.2.2.1, p.2.2.2.1, p.2.2.2.2⟩)
    (fun r => (r.version, r.status, r.headers, r.reason, r.connection))
    (fun _ => rfl) (fun _ => rfl)).withClean (fun r => r.connection.Sendable) (fun r => by
      refine (and_iff_right trivial).trans ((and_iff_right trivial).trans ?_)
      refine (and_iff_right (HttpHeaders.codec_total _)).trans ?_
      exact and_iff_right (fun _ _ => Codec.text_total _))

/-! ## Patterns -/

namespace Pat

/-- `to_regex_str`; `none` is the class that the source takes for unreachable. -/
def classRegex (s : String) : Option String :=
  [("alpha", "[[:alpha:]]"), ("alphanum", "[[:alnum:]]"),
    ("base64", "(([A-Za-z0-9+/]\x7b4\x7d)*([A-Za-z0-9+/]\x7b2\x7d==|[A-Za-z0-9+/]\x7b3\x7d=)?)"),
    ("digit", "[[:digit:]]"), ("hex_digit", "[[:xdigit:]]"), ("s", "[[:space:]]")].lookup s

mutual
def toRegexStr (escape : String → String) (ignoreWs : Bool) : Pat → Option String
  | any => some "."
  | lit s => some (escape s)
  | cls s => classRegex s
  | alt vs => (toRegexStrs escape ignoreWs vs).map (fun l => "(" ++ "|".intercalate l ++ ")")
  | seq vs => (toRegexStrs escape ignoreWs vs).map
      (fun l => "(" ++ (if ignoreWs then "\\s*" else "").intercalate l ++ ")")
  | as id .str => some ("(?P<" ++ id ++ ">.+?)")
  | as id .i64 => some ("(?P<_i64" ++ id ++ ">-?[[:digit:]]+)")
  | as id .base64 => some ("(?P<_b64" ++ id ++
      ">([A-Za-z0-9+/]\x7b4\x7d)*([A-Za-z0-9+/]\x7b2\x7d==|[A-Za-z0-9+/]\x7b3\x7d=)?)")
  | opt p => (toRegexStr escape ignoreWs p).map (· ++ "?")
  | star p => (toRegexStr escape ignoreWs p).map (· ++ "*?")
  | plus p => (toRegexStr escape ignoreWs p).map (· ++ "+?")
  | caseInsensitive p => (toRegexStr escape ignoreWs p).map (fun s => "(?i:" ++ s ++ ")")
  | ignoreWhitespace p => toRegexStr escape true p

def toRegexStrs (escape : String → String) (ignoreWs : Bool) : List Pat → Option (List String)
  | [] => some []
  | p :: ps => do
      let s ← toRegexStr escape ignoreWs p
      let l ← toRegexStrs escape ignoreWs ps
      some (s :: l)
end

theorem ind {P : Pat → Prop} (any : P any) (lit : ∀ s, P (lit s)) (cls : ∀ s, P (cls s))
    (alt : ∀ ps, (∀ p ∈ ps, P p) → P (alt ps)) (seq : ∀ ps, (∀ p ∈ ps, P p) → P (seq ps))
    (as : ∀ i a, P (as i a)) (opt : ∀ p, P p → P (opt p)) (star : ∀ p, P p → P (star p))
    (plus : ∀ p, P p → P (plus p)) (caseInsensitive : ∀ p, P p → P (caseInsensitive p))
    (ignoreWhitespace : ∀ p, P p → P (ignoreWhitespace p)) : ∀ p, P p :=
  Pat.rec (motive_1 := P) (motive_2 := fun ps => ∀ p ∈ ps, P p) any lit cls alt seq as opt star
    plus caseInsensitive ignoreWhitespace (fun _ h => nomatch h)
    (fun _ _ h hs _ hm => (List.mem_cons.mp hm).elim (fun e => e ▸ h) (fun hm => hs _ hm))

def asCodec : Codec As := Codec.enum [.str, .i64, .base64] (by intro a; cases a <;> decide)

mutual
def write : Pat → Option (List UInt8)
  | any => tagged 0 (some [])
  | lit s => tagged 1 (Codec.text.write s)
  | cls s => tagged 2 (Codec.text.write s)
  | alt ps => tagged 3 (cat (writeLE 8 ps.length) (writes ps))
  | seq ps => tagged 4 (cat (writeLE 8 ps.length) (writes ps))
  | as id a => tagged 5 (cat (Codec.text.write id) (asCodec.write a))
  | opt p => tagged 6 (write p)
  | star p => tagged 7 (write p)
  | plus p => tagged 8 (write p)
  | caseInsensitive p => tagged 9 (write p)
  | ignoreWhitespace p => tagged 10 (write p)

def writes : List Pat → Option (List UInt8)
  | [] => some []
  | p :: ps => cat (write p) (writes ps)
end

theorem writes_eq (ps : List Pat) : writes ps = catMap write ps := by
  induction ps with
  | nil => rfl
  | cons p ps ih => rw [writes, catMap, ih]

/-- The variants of `Pat`, whose parts `rd` reads. -/
def variants (rd : Parser Pat) : List (Parser Pat) :=
  [Parser.pure any, Codec.text.read.map lit, Codec.text.read.map cls, rd.list.map alt,
    rd.list.map seq, (Codec.text.read.pair asCodec.read).map (fun p => as p.1 p.2), rd.map opt,
    rd.map star, rd.map plus, rd.map caseInsensitive, rd.map ignoreWhitespace]

theorem exact_nested (p : Pat) : ∀ n, Exact n (Parser.nested variants n) (write p) p True := by
  have text := Codec.text_total.exact
  have items : ∀ (n : Nat) (ps : List Pat),
      (∀ p ∈ ps, ∀ n, Exact n (Parser.nested variants n) (write p) p True) →
        Exact n (Parser.nested variants n).list (cat (writeLE 8 ps.length) (writes ps)) ps
          True := by
    intro n ps h
    rw [writes_eq]
    exact (Exact.list (fun p hp => h p hp n)).congr (by simp)
  induction p using ind with
  | any => exact Exact.nested (fun n => ⟨_, rfl, Exact.pure any⟩)
  | lit s => exact Exact.nested (fun n => ⟨_, rfl, (text n s).map (fun _ h => lit.inj h)⟩)
  | cls s => exact Exact.nested (fun n => ⟨_, rfl, (text n s).map (fun _ h => cls.inj h)⟩)
  | alt ps ih =>
      exact Exact.nested (fun n => ⟨_, rfl, (items n ps ih).map (fun _ h => alt.inj h)⟩)
  | seq ps ih =>
      exact Exact.nested (fun n => ⟨_, rfl, (items n ps ih).map (fun _ h => seq.inj h)⟩)
  | as id a =>
      refine Exact.nested (fun n => ⟨_, rfl, ?_⟩)
      have hpair := ((text n id).pair (asCodec.exact n a)).congr (c := True) (iff_of_true
        ⟨trivial, trivial⟩ trivial)
      exact hpair.map (f := fun p => Pat.as p.1 p.2) (fun ⟨i, b⟩ h => by cases h; rfl)
  | opt p ih => exact Exact.nested (fun n => ⟨_, rfl, (ih n).map (fun _ h => opt.inj h)⟩)
  | star p ih => exact Exact.nested (fun n => ⟨_, rfl, (ih n).map (fun _ h => star.inj h)⟩)
  | plus p ih => exact Exact.nested (fun n => ⟨_, rfl, (ih n).map (fun _ h => plus.inj h)⟩)
  | caseInsensitive p ih =>
      exact Exact.nested (fun n => ⟨_, rfl, (ih n).map (fun _ h => caseInsensitive.inj h)⟩)
  | ignoreWhitespace p ih =>
      exact Exact.nested (fun n => ⟨_, rfl, (ih n).map (fun _ h => ignoreWhitespace.inj h)⟩)

def codec : Codec Pat where
  write := write
  read := Parser.recursive variants
  Clean _ := True
  exact n p := Exact.ofDepth (exact_nested p) n

end Pat

/-! ## Regular expressions -/

namespace PolicyRegex

/-- `from_pat`: the source of the regular expression, if there is one. -/
def source (pk : Packages) (p : Pat) : Option String :=
  ((p.toRegexStr pk.escape false).map (fun s => "^" ++ s ++ "$")).filter pk.compiles

/-- The pattern, then the source of its regular expression, which is compiled again. -/
def codec (pk : Packages) : Codec PolicyRegex where
  write r := (source pk r.pat).bind (fun s => cat (Pat.codec.write r.pat) (Codec.text.write s))
  read := (Pat.codec.read.pair Codec.text.read).filterMap
    (fun p => if pk.compiles p.2 then some ⟨p.1⟩ else none)
  Clean _ := True
  exact n r := by
    refine Exact.of_reads (fun bs hbs hle rest => ?_)
    obtain ⟨s, hs, hbs⟩ := Option.bind_eq_some_iff.mp hbs
    have hpair := (Pat.codec.pair Codec.text).exact n (r.pat, s)
    have hread := hpair.reads ⟨trivial, Codec.text_total s⟩ bs hbs hle rest
    have hc : pk.compiles s = true := (Option.filter_eq_some_iff.mp hs).2
    exact Parser.filterMap_eq_some.mpr ⟨_, hread, by simp only [hc, if_true]⟩

end PolicyRegex

namespace Pattern

def Sendable : Pattern → Prop
  | regex _ => True
  | label l => l.Readable

def codec (pk : Packages) : Codec Pattern where
  write
    | regex r => tagged 0 ((PolicyRegex.codec pk).write r)
    | label l => tagged 1 (Label.codec.write l)
  read := Parser.variant [(PolicyRegex.codec pk).read.map regex, Label.codec.read.map label]
  Clean := Sendable
  exact n p := by
    cases p with
    | regex r =>
        exact Exact.variant rfl (((PolicyRegex.codec pk).exact n r).map
          (fun _ h => regex.inj h))
    | label l => exact Exact.variant rfl ((Label.codec.exact n l).map (fun _ h => label.inj h))

end Pattern

/-! ## Literals -/

namespace DPFlatLiteral

/-- The identities in a literal have no ports, and its labels can be read. -/
def Sendable : DPFlatLiteral → Prop
  | connection c => c.Sendable
  | httpRequest r => r.connection.Sendable
  | httpResponse r => r.connection.Sendable
  | id i => i.Sendable
  | label l => l.Readable
  | _ => True

def codec (pk : Packages) : Codec DPFlatLiteral where
  write
    | bool b => tagged 0 (Codec.bool.write b)
    | connection c => tagged 1 (Connection.codec.write c)
    | data d => tagged 2 (Codec.u8.list.write d)
    | float f => tagged 3 (F64.codec.write f)
    | httpRequest r => tagged 4 (HttpRequest.codec.write r)
    | httpResponse r => tagged 5 (HttpResponse.codec.write r)
    | id i => tagged 6 (ID.codec.write i)
    | int i => tagged 7 (Codec.i64.write i)
    | ipAddr a => tagged 8 (IpAddr.codec.write a)
    | label l => tagged 9 (Label.codec.write l)
    | regex r => tagged 10 ((PolicyRegex.codec pk).write r)
    | str s => tagged 11 (Codec.text.write s)
    | unit => tagged 12 (some [])
  read := Parser.variant
    [Codec.bool.read.map bool, Connection.codec.read.map connection,
      Codec.u8.list.read.map data, F64.codec.read.map float,
      HttpRequest.codec.read.map httpRequest, HttpResponse.codec.read.map httpResponse,
      ID.codec.read.map id, Codec.i64.read.map int, IpAddr.codec.read.map ipAddr,
      Label.codec.read.map label, (PolicyRegex.codec pk).read.map regex,
      Codec.text.read.map str, Parser.pure unit]
  Clean := Sendable
  exact n l := by
    cases l with
    | bool b =>
        exact Exact.variant rfl ((Codec.bool_total.exact n b).map (fun _ h => bool.inj h))
    | connection c =>
        exact Exact.variant rfl ((Connection.codec.exact n c).map (fun _ h => connection.inj h))
    | data d =>
        exact Exact.variant rfl (((Codec.u8.list.exact n d).congr
          (iff_true_intro (fun _ _ => trivial))).map (fun _ h => data.inj h))
    | float f => exact Exact.variant rfl ((F64.codec.exact n f).map (fun _ h => float.inj h))
    | httpRequest r =>
        exact Exact.variant rfl ((HttpRequest.codec.exact n r).map
          (fun _ h => httpRequest.inj h))
    | httpResponse r =>
        exact Exact.variant rfl ((HttpResponse.codec.exact n r).map
          (fun _ h => httpResponse.inj h))
    | id i => exact Exact.variant rfl ((ID.codec.exact n i).map (fun _ h => id.inj h))
    | int i => exact Exact.variant rfl ((Codec.i64.exact n i).map (fun _ h => int.inj h))
    | ipAddr a => exact Exact.variant rfl ((IpAddr.codec.exact n a).map (fun _ h => ipAddr.inj h))
    | label l => exact Exact.variant rfl ((Label.codec.exact n l).map (fun _ h => label.inj h))
    | regex r =>
        exact Exact.variant rfl (((PolicyRegex.codec pk).exact n r).map
          (fun _ h => regex.inj h))
    | str s =>
        exact Exact.variant rfl ((Codec.text_total.exact n s).map (fun _ h => str.inj h))
    | unit => exact Exact.variant rfl (Exact.pure unit)

end DPFlatLiteral

namespace Literal

variable {FL : Type}

mutual
/-- `P` holds of every flat literal. -/
def All (P : FL → Prop) : Literal FL → Prop
  | flat l => P l
  | list ls => Alls P ls
  | tuple ls => Alls P ls

def Alls (P : FL → Prop) : List (Literal FL) → Prop
  | [] => True
  | l :: ls => All P l ∧ Alls P ls
end

theorem alls_iff {P : FL → Prop} {ls : List (Literal FL)} :
    Alls P ls ↔ ∀ l ∈ ls, All P l := by
  induction ls with
  | nil => simp [Alls]
  | cons l ls ih => simp [Alls, ih]

mutual
def write (fl : Codec FL) : Literal FL → Option (List UInt8)
  | flat l => tagged 0 (fl.write l)
  | list ls => tagged 1 (cat (writeLE 8 ls.length) (writes fl ls))
  | tuple ls => tagged 2 (cat (writeLE 8 ls.length) (writes fl ls))

def writes (fl : Codec FL) : List (Literal FL) → Option (List UInt8)
  | [] => .some []
  | l :: ls => cat (write fl l) (writes fl ls)
end

theorem writes_eq (fl : Codec FL) (ls : List (Literal FL)) :
    writes fl ls = catMap (write fl) ls := by
  induction ls with
  | nil => rfl
  | cons l ls ih => rw [writes, catMap, ih]

def variants (fl : Codec FL) (rd : Parser (Literal FL)) : List (Parser (Literal FL)) :=
  [fl.read.map flat, rd.list.map list, rd.list.map tuple]

theorem exact_nested (fl : Codec FL) (l : Literal FL) :
    ∀ n, Exact n (Parser.nested (variants fl) n) (write fl l) l (All fl.Clean l) := by
  have items : ∀ (n : Nat) (ls : List (Literal FL)),
      (∀ l ∈ ls, ∀ n, Exact n (Parser.nested (variants fl) n) (write fl l) l
        (All fl.Clean l)) →
      Exact n (Parser.nested (variants fl) n).list (cat (writeLE 8 ls.length) (writes fl ls)) ls
        (Alls fl.Clean ls) := by
    intro n ls h
    rw [writes_eq]
    exact (Exact.list (fun l hl => h l hl n)).congr alls_iff.symm
  induction l using ind with
  | flat l => exact Exact.nested (fun n => ⟨_, rfl, (fl.exact n l).map (fun _ h => flat.inj h)⟩)
  | list ls ih =>
      exact Exact.nested (fun n => ⟨_, rfl, (items n ls ih).map (fun _ h => list.inj h)⟩)
  | tuple ls ih =>
      exact Exact.nested (fun n => ⟨_, rfl, (items n ls ih).map (fun _ h => tuple.inj h)⟩)

def codec (fl : Codec FL) : Codec (Literal FL) where
  write := write fl
  read := Parser.recursive (variants fl)
  Clean := All fl.Clean
  exact n l := Exact.ofDepth (exact_nested fl l) n

end Literal

/-! ## Types -/

def FlatTyp.codec : Codec FlatTyp :=
  Codec.enum [.bool, .connection, .data, .f64, .httpRequest, .httpResponse, .i64, .id, .ipAddr,
    .label, .regex, .rreturn, .str, .unit] (by intro t; cases t <;> decide)

namespace CPFlatTyp

def codec : Codec CPFlatTyp where
  write
    | credentials => tagged 0 (some [])
    | dp t => tagged 1 (FlatTyp.codec.write t)
    | onboardingData => tagged 2 (some [])
    | onboardingResult => tagged 3 (some [])
    | policy => tagged 4 (some [])
    | primitive => tagged 5 (some [])
  read := Parser.variant
    [Parser.pure credentials, FlatTyp.codec.read.map dp, Parser.pure onboardingData,
      Parser.pure onboardingResult, Parser.pure policy, Parser.pure primitive]
  Clean _ := True
  exact n t := by
    cases t with
    | credentials => exact Exact.variant rfl (Exact.pure credentials)
    | dp t => exact Exact.variant rfl ((FlatTyp.codec.exact n t).map (fun _ h => dp.inj h))
    | onboardingData => exact Exact.variant rfl (Exact.pure onboardingData)
    | onboardingResult => exact Exact.variant rfl (Exact.pure onboardingResult)
    | policy => exact Exact.variant rfl (Exact.pure policy)
    | primitive => exact Exact.variant rfl (Exact.pure primitive)

end CPFlatTyp

namespace Typ

variable {FT : Type}

theorem ind {P : Typ FT → Prop} (flatTyp : ∀ t, P (flatTyp t)) (list : ∀ t, P t → P (list t))
    (tuple : ∀ ts, (∀ t ∈ ts, P t) → P (tuple ts)) : ∀ t, P t :=
  Typ.rec (motive_1 := P) (motive_2 := fun ts => ∀ t ∈ ts, P t) flatTyp list tuple
    (fun _ h => nomatch h)
    (fun _ _ h hs _ hm => (List.mem_cons.mp hm).elim (fun e => e ▸ h) (fun hm => hs _ hm))

mutual
def write (ft : Codec FT) : Typ FT → Option (List UInt8)
  | flatTyp t => tagged 0 (ft.write t)
  | list t => tagged 1 (write ft t)
  | tuple ts => tagged 2 (cat (writeLE 8 ts.length) (writes ft ts))

def writes (ft : Codec FT) : List (Typ FT) → Option (List UInt8)
  | [] => some []
  | t :: ts => cat (write ft t) (writes ft ts)
end

theorem writes_eq (ft : Codec FT) (ts : List (Typ FT)) :
    writes ft ts = catMap (write ft) ts := by
  induction ts with
  | nil => rfl
  | cons t ts ih => rw [writes, catMap, ih]

def variants (ft : Codec FT) (rd : Parser (Typ FT)) : List (Parser (Typ FT)) :=
  [ft.read.map flatTyp, rd.map list, rd.list.map tuple]

theorem exact_nested {ft : Codec FT} (hft : ft.Total) (t : Typ FT) :
    ∀ n, Exact n (Parser.nested (variants ft) n) (write ft t) t True := by
  induction t using ind with
  | flatTyp t =>
      exact Exact.nested (fun n => ⟨_, rfl, (hft.exact n t).map (fun _ h => flatTyp.inj h)⟩)
  | list t ih => exact Exact.nested (fun n => ⟨_, rfl, (ih n).map (fun _ h => list.inj h)⟩)
  | tuple ts ih =>
      refine Exact.nested (fun n => ⟨_, rfl, ?_⟩)
      have hts := (Exact.list (fun t ht => ih t ht n)).congr (c := True) (by simp)
      rw [writes_eq]
      exact hts.map (fun _ h => tuple.inj h)

def codec (ft : Codec FT) (hft : ft.Total) : Codec (Typ FT) where
  write := write ft
  read := Parser.recursive (variants ft)
  Clean _ := True
  exact n t := Exact.ofDepth (exact_nested hft t) n

end Typ

namespace Signature

variable {FT : Type}

def codec (ft : Codec FT) (hft : ft.Total) : Codec (Signature FT) :=
  ((Typ.codec ft hft).list.option.pair (Typ.codec ft hft)).iso (fun p => ⟨p.1, p.2⟩)
    (fun s => (s.args, s.typ)) (fun _ => rfl) (fun _ => rfl)

theorem codec_total (ft : Codec FT) (hft : ft.Total) : (codec ft hft).Total :=
  fun _ => ⟨fun _ _ _ _ => trivial, trivial⟩

end Signature

end Armour.Lang
