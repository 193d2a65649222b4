import Armour.Lang.Serialize

/-! # Serialized policies

Expressions, programs and policies in the format of `bincode` (`armour-lang/src/expressions.rs`,
`lang.rs`, `policies.rs`).  A policy travels as a text: its bytes compressed and put in base64.
A map of policies is written, in every format, as a map to such texts.
-/

namespace Armour.Lang

open Armour.Lib

/-! ## Expressions -/

def Prefix.codec : Codec Prefix := Codec.enum [.minus, .not] (by intro p; cases p <;> decide)

def Infix.codec : Codec Infix :=
  Codec.enum [.equal, .notEqual, .plus, .minus, .divide, .multiply, .remainder,
    .greaterThanEqual, .lessThanEqual, .greaterThan, .lessThan, .and, .or, .concat, .concatStr,
    .module, .isIn, .dot] (by intro op; cases op <;> decide)

def Iter.codec : Codec Iter :=
  Codec.enum [.all, .any, .filter, .filterMap, .forEach, .fold, .map]
    (by intro op; cases op <;> decide)

def Block.codec : Codec Block :=
  Codec.enum [.list, .tuple, .block] (by intro b; cases b <;> decide)

namespace Expr

variable {FL : Type}

mutual
/-- `P` holds of the literals and `Q` of the patterns. -/
def All (P : Literal FL → Prop) (Q : Pattern → Prop) : Expr FL → Prop
  | var _ | bvar _ _ => True
  | litExpr l => P l
  | returnExpr e | prefixExpr _ e | closure _ e => All P Q e
  | infixExpr _ e1 e2 | letExpr _ e1 e2 => All P Q e1 ∧ All P Q e2
  | blockExpr _ es => Alls P Q es
  | iter _ _ e1 e2 acc => All P Q e1 ∧ All P Q e2 ∧ AllAcc P Q acc
  | ifExpr c t a => All P Q c ∧ All P Q t ∧ AllOpt P Q a
  | ifMatchExpr _ ms t a => AllSubjects P Q ms ∧ All P Q t ∧ AllOpt P Q a
  | ifSomeMatchExpr e t a => All P Q e ∧ All P Q t ∧ AllOpt P Q a
  | callExpr _ args _ => Alls P Q args

def Alls (P : Literal FL → Prop) (Q : Pattern → Prop) : List (Expr FL) → Prop
  | [] => True
  | e :: es => All P Q e ∧ Alls P Q es

def AllSubjects (P : Literal FL → Prop) (Q : Pattern → Prop) :
    List (Expr FL × Pattern) → Prop
  | [] => True
  | (e, p) :: ms => (All P Q e ∧ Q p) ∧ AllSubjects P Q ms

def AllOpt (P : Literal FL → Prop) (Q : Pattern → Prop) : Option (Expr FL) → Prop
  | none => True
  | some e => All P Q e

def AllAcc (P : Literal FL → Prop) (Q : Pattern → Prop) : Option (String × Expr FL) → Prop
  | none => True
  | some (_, e) => All P Q e
end

section

variable {P : Literal FL → Prop} {Q : Pattern → Prop}

theorem alls_iff {es : List (Expr FL)} : Alls P Q es ↔ ∀ e ∈ es, All P Q e := by
  induction es with
  | nil => simp [Alls]
  | cons e es ih => simp [Alls, ih]

theorem allSubjects_iff {ms : List (Expr FL × Pattern)} :
    AllSubjects P Q ms ↔ ∀ m ∈ ms, All P Q m.1 ∧ Q m.2 := by
  induction ms with
  | nil => simp [AllSubjects]
  | cons m ms ih => simp [AllSubjects, ih]

theorem allOpt_iff {a : Option (Expr FL)} : AllOpt P Q a ↔ ∀ e ∈ a, All P Q e := by
  cases a <;> simp [AllOpt]

theorem allAcc_iff {a : Option (String × Expr FL)} :
    AllAcc P Q a ↔ ∀ p ∈ a, True ∧ All P Q p.2 := by
  cases a <;> simp [AllAcc]

end

/-- Names of variables. -/
def names : Codec (List String) := Codec.text.list

theorem names_total : names.Total := fun _ _ _ => Codec.text_total _

section

variable (pk : Packages) (lit : Codec (Literal FL))

mutual
def write : Expr FL → Option (List UInt8)
  | var x => tagged 0 (Codec.text.write x)
  | bvar x i => tagged 1 (cat (Codec.text.write x) (writeLE 8 i))
  | litExpr l => tagged 2 (lit.write l)
  | returnExpr e => tagged 3 (write e)
  | prefixExpr p e => tagged 4 (cat (Prefix.codec.write p) (write e))
  | infixExpr op e1 e2 => tagged 5 (cat (Infix.codec.write op) (cat (write e1) (write e2)))
  | blockExpr b es =>
      tagged 6 (cat (Block.codec.write b) (cat (writeLE 8 es.length) (writes es)))
  | letExpr vs e1 e2 => tagged 7 (cat (names.write vs) (cat (write e1) (write e2)))
  | iter op vs e1 e2 acc =>
      tagged 8 (cat (Iter.codec.write op)
        (cat (names.write vs) (cat (write e1) (cat (write e2) (writeAcc acc)))))
  | closure x e => tagged 9 (cat (Codec.text.write x) (write e))
  | ifExpr c t a => tagged 10 (cat (write c) (cat (write t) (writeOpt a)))
  | ifMatchExpr vs ms t a =>
      tagged 11 (cat (names.write vs)
        (cat (cat (writeLE 8 ms.length) (writeSubjects ms)) (cat (write t) (writeOpt a))))
  | ifSomeMatchExpr e t a => tagged 12 (cat (write e) (cat (write t) (writeOpt a)))
  | callExpr f args b =>
      tagged 13 (cat (Codec.text.write f)
        (cat (cat (writeLE 8 args.length) (writes args)) (Codec.bool.write b)))

def writes : List (Expr FL) → Option (List UInt8)
  | [] => some []
  | e :: es => cat (write e) (writes es)

def writeSubjects : List (Expr FL × Pattern) → Option (List UInt8)
  | [] => some []
  | (e, p) :: ms => cat (cat (write e) ((Pattern.codec pk).write p)) (writeSubjects ms)

def writeOpt : Option (Expr FL) → Option (List UInt8)
  | none => some [0]
  | some e => cat (some [1]) (write e)

def writeAcc : Option (String × Expr FL) → Option (List UInt8)
  | none => some [0]
  | some (x, e) => cat (some [1]) (cat (Codec.text.write x) (write e))
end

theorem writes_eq (es : List (Expr FL)) : writes pk lit es = catMap (write pk lit) es := by
  induction es with
  | nil => rfl
  | cons e es ih => rw [writes, catMap, ih]

theorem writeSubjects_eq (ms : List (Expr FL × Pattern)) :
    writeSubjects pk lit ms =
      catMap (fun m => cat (write pk lit m.1) ((Pattern.codec pk).write m.2)) ms := by
  induction ms with
  | nil => rfl
  | cons m ms ih =>
      obtain ⟨e, p⟩ := m
      rw [writeSubjects, catMap, ih]

theorem writeOpt_eq (a : Option (Expr FL)) :
    writeOpt pk lit a = writeOption (write pk lit) a := by
  cases a <;> rfl

theorem writeAcc_eq (a : Option (String × Expr FL)) :
    writeAcc pk lit a =
      writeOption (fun p => cat (Codec.text.write p.1) (write pk lit p.2)) a := by
  cases a <;> rfl

/-- The variants of `Expr`, whose subexpressions `rd` reads. -/
def variants (rd : Parser (Expr FL)) : List (Parser (Expr FL)) :=
  [Codec.text.read.map var,
    (Codec.text.read.pair (readLE 8)).map (fun p => bvar p.1 p.2),
    lit.read.map litExpr,
    rd.map returnExpr,
    (Prefix.codec.read.pair rd).map (fun p => prefixExpr p.1 p.2),
    (Infix.codec.read.pair (rd.pair rd)).map (fun p => infixExpr p.1 p.2.1 p.2.2),
    (Block.codec.read.pair rd.list).map (fun p => blockExpr p.1 p.2),
    (names.read.pair (rd.pair rd)).map (fun p => letExpr p.1 p.2.1 p.2.2),
    (Iter.codec.read.pair (names.read.pair (rd.pair
      (rd.pair (Codec.text.read.pair rd).option)))).map
        (fun p => iter p.1 p.2.1 p.2.2.1 p.2.2.2.1 p.2.2.2.2),
    (Codec.text.read.pair rd).map (fun p => closure p.1 p.2),
    (rd.pair (rd.pair rd.option)).map (fun p => ifExpr p.1 p.2.1 p.2.2),
    (names.read.pair ((rd.pair (Pattern.codec pk).read).list.pair (rd.pair rd.option))).map
      (fun p => ifMatchExpr p.1 p.2.1 p.2.2.1 p.2.2.2),
    (rd.pair (rd.pair rd.option)).map (fun p => ifSomeMatchExpr p.1 p.2.1 p.2.2),
    (Codec.text.read.pair (rd.list.pair Codec.bool.read)).map
      (fun p => callExpr p.1 p.2.1 p.2.2)]

theorem exact_nested (e : Expr FL) :
    ∀ n, Exact n (Parser.nested (variants pk lit) n) (write pk lit e) e
      (All lit.Clean Pattern.Sendable e) := by
  have text := Codec.text_total.exact
  have vars := names_total.exact
  induction e using ind with
  | var x => exact Exact.nested (fun n => ⟨_, rfl, (text n x).map (fun _ h => var.inj h)⟩)
  | bvar x i =>
      refine Exact.nested (fun n => ⟨_, rfl, ?_⟩)
      refine (((text n x).pair (Exact.le 8 i n)).map ?_).congr (by simp [All])
      rintro ⟨y, j⟩ h
      cases h
      rfl
  | litExpr l =>
      exact Exact.nested (fun n => ⟨_, rfl, (lit.exact n l).map (fun _ h => litExpr.inj h)⟩)
  | returnExpr e ih =>
      exact Exact.nested (fun n => ⟨_, rfl, (ih n).map (fun _ h => returnExpr.inj h)⟩)
  | prefixExpr p e ih =>
      refine Exact.nested (fun n => ⟨_, rfl, ?_⟩)
      refine (((Prefix.codec.exact n p).pair (ih n)).map ?_).congr (and_iff_right trivial)
      rintro ⟨q, e'⟩ h
      cases h
      rfl
  | infixExpr op e1 e2 ih1 ih2 =>
      refine Exact.nested (fun n => ⟨_, rfl, ?_⟩)
      refine (((Infix.codec.exact n op).pair ((ih1 n).pair (ih2 n))).map ?_).congr
        (and_iff_right trivial)
      rintro ⟨op', d1, d2⟩ h
      cases h
      rfl
  | blockExpr b es ih =>
      refine Exact.nested (fun n => ⟨_, rfl, ?_⟩)
      rw [writes_eq]
      refine (((Block.codec.exact n b).pair (Exact.list (fun e he => ih e he n))).map ?_).congr
        ((and_iff_right trivial).trans alls_iff.symm)
      rintro ⟨b', es'⟩ h
      cases h
      rfl
  | letExpr vs e1 e2 ih1 ih2 =>
      refine Exact.nested (fun n => ⟨_, rfl, ?_⟩)
      refine (((vars n vs).pair ((ih1 n).pair (ih2 n))).map ?_).congr (and_iff_right trivial)
      rintro ⟨vs', d1, d2⟩ h
      cases h
      rfl
  | iter op vs e1 e2 acc ih1 ih2 iha =>
      refine Exact.nested (fun n => ⟨_, rfl, ?_⟩)
      rw [writeAcc_eq]
      have hacc := Exact.option (fun a ha => (text n a.1).pair (iha a ha n))
      refine (((Iter.codec.exact n op).pair ((vars n vs).pair
        ((ih1 n).pair ((ih2 n).pair hacc)))).map ?_).congr ?_
      · rintro ⟨op', vs', d1, d2, a'⟩ h
        cases h
        rfl
      · rw [All, allAcc_iff]
        exact (and_iff_right trivial).trans (and_iff_right trivial)
  | closure x e ih =>
      refine Exact.nested (fun n => ⟨_, rfl, ?_⟩)
      refine (((text n x).pair (ih n)).map ?_).congr (and_iff_right trivial)
      rintro ⟨y, e'⟩ h
      cases h
      rfl
  | ifExpr c t a ihc iht iha =>
      refine Exact.nested (fun n => ⟨_, rfl, ?_⟩)
      rw [writeOpt_eq]
      have halt := Exact.option (fun e he => iha e he n)
      refine (((ihc n).pair ((iht n).pair halt)).map ?_).congr (by rw [All, allOpt_iff])
      rintro ⟨c', t', a'⟩ h
      cases h
      rfl
  | ifMatchExpr vs ms t a ihm iht iha =>
      refine Exact.nested (fun n => ⟨_, rfl, ?_⟩)
      rw [writeOpt_eq, writeSubjects_eq]
      have hms := Exact.list (fun m hm => (ihm m hm n).pair ((Pattern.codec pk).exact n m.2))
      have halt := Exact.option (fun e he => iha e he n)
      refine (((vars n vs).pair (hms.pair ((iht n).pair halt))).map ?_).congr ?_
      · rintro ⟨vs', ms', t', a'⟩ h
        cases h
        rfl
      · rw [All, allSubjects_iff, allOpt_iff]
        exact and_iff_right trivial
  | ifSomeMatchExpr e t a ihe iht iha =>
      refine Exact.nested (fun n => ⟨_, rfl, ?_⟩)
      rw [writeOpt_eq]
      have halt := Exact.option (fun e he => iha e he n)
      refine (((ihe n).pair ((iht n).pair halt)).map ?_).congr (by rw [All, allOpt_iff])
      rintro ⟨e', t', a'⟩ h
      cases h
      rfl
  | callExpr f args b ih =>
      refine Exact.nested (fun n => ⟨_, rfl, ?_⟩)
      rw [writes_eq]
      have hargs := Exact.list (fun e he => ih e he n)
      refine (((text n f).pair (hargs.pair (Codec.bool_total.exact n b))).map ?_).congr ?_
      · rintro ⟨f', args', b'⟩ h
        cases h
        rfl
      · rw [All, alls_iff]
        exact (and_iff_right trivial).trans (and_iff_left trivial)

def codec : Codec (Expr FL) where
  write := write pk lit
  read := Parser.recursive (variants pk lit)
  Clean := All lit.Clean Pattern.Sendable
  exact n e := Exact.ofDepth (exact_nested pk lit e) n

end

end Expr

/-! ## Programs -/

namespace Duration

/-- `Duration::new`, which carries whole seconds over. -/
def ofParts (secs : UInt64) (nanos : UInt32) : Option Duration :=
  if secs.toNat + nanos.toNat / 1000000000 < 2 ^ 64 then
    some ⟨UInt64.ofNat (secs.toNat + nanos.toNat / 1000000000),
      UInt32.ofNat (nanos.toNat % 1000000000), by
        rw [UInt32.toNat_ofNat']
        omega⟩
  else none

theorem ofParts_self (d : Duration) : ofParts d.secs d.nanos = some d := by
  obtain ⟨secs, nanos, hlt⟩ := d
  have hdiv : nanos.toNat / 1000000000 = 0 := Nat.div_eq_of_lt hlt
  have hsecs : secs.toNat < 2 ^ 64 := secs.toNat_lt
  simp only [ofParts, hdiv, Nat.add_zero, if_pos hsecs, Nat.mod_eq_of_lt hlt, Option.some.injEq,
    Duration.mk.injEq]
  exact ⟨by simp, by simp⟩

def codec : Codec Duration :=
  (Codec.u64.pair Codec.u32).retract (fun _ => ⟨trivial, trivial⟩) (fun p => ofParts p.1 p.2)
    (fun d => (d.secs, d.nanos)) ofParts_self

end Duration

def Externals.codec : Codec Externals :=
  ((Codec.map Codec.text Codec.text_total Codec.text).pair Duration.codec).iso
    (fun p => ⟨p.1, p.2⟩) (fun e => (e.sockets, e.timeout)) (fun _ => rfl) (fun _ => rfl)

theorem Externals.codec_total : Externals.codec.Total :=
  fun _ => ⟨fun _ _ => Codec.text_total _, trivial⟩

/-- The formats of the types and flat literals of a plane. -/
structure Plane (FT FL : Type) where
  typ : Codec FT
  typ_total : typ.Total
  lit : Codec FL

section

variable {FT FL : Type} (pk : Packages) (pl : Plane FT FL)

/-- The identities in the code have no ports, and the labels in it can be read. -/
def Program.Sendable (P : FL → Prop) (p : Program FT FL) : Prop :=
  ∀ f ∈ p.code.entries, Expr.All (Literal.All P) Pattern.Sendable f.2

def Program.codec : Codec (Program FT FL) :=
  (((Codec.map Codec.text Codec.text_total (Expr.codec pk (Literal.codec pl.lit))).pair
    (Externals.codec.pair (Codec.map Codec.text Codec.text_total
      (Signature.codec pl.typ pl.typ_total)))).iso
    (fun p => ⟨p.1, p.2.1, p.2.2⟩) (fun p => (p.code, p.externals, p.headers))
    (fun _ => rfl) (fun _ => rfl)).withClean (Program.Sendable pl.lit.Clean) (fun p => by
      refine and_iff_left ⟨Externals.codec_total _, ?_⟩
      exact fun _ _ => Signature.codec_total pl.typ pl.typ_total _)

/-! ## Policies -/

namespace FnPolicy

def codec : Codec FnPolicy where
  write
    | Allow => tagged 0 (some [])
    | Deny => tagged 1 (some [])
    | Args n => tagged 2 (Codec.u8.write n)
  read := Parser.variant [Parser.pure Allow, Parser.pure Deny, Codec.u8.read.map Args]
  Clean _ := True
  exact n p := by
    cases p with
    | Allow => exact Exact.variant rfl (Exact.pure Allow)
    | Deny => exact Exact.variant rfl (Exact.pure Deny)
    | Args k => exact Exact.variant rfl ((Codec.u8.exact n k).map (fun _ h => Args.inj h))

end FnPolicy

namespace Policy

def Sendable (P : FL → Prop) (p : Policy FT FL) : Prop := p.program.Sendable P

def codec : Codec (Policy FT FL) :=
  (((Program.codec pk pl).pair (Codec.map Codec.text Codec.text_total FnPolicy.codec)).iso
    (fun p => (⟨p.1, p.2⟩ : Policy FT FL)) (fun p => (p.program, p.fnPolicies))
    (fun _ => rfl) (fun _ => rfl)).withClean (Sendable pl.lit.Clean) (fun _ =>
      and_iff_left (fun _ _ => trivial))

/-- `to_bincode`. -/
def toBincode (p : Policy FT FL) : Option String := ((codec pk pl).write p).map pk.pack

/-- `from_bincode`; what follows the policy is not looked at. -/
def fromBincode (s : String) : Option (Policy FT FL) :=
  (pk.unpack s).bind (fun bs => ((codec pk pl).read bs).map Prod.fst)

/-- A policy that has an encoding is decoded from it exactly if it is sendable. -/
theorem fromBincode_eq_some {p : Policy FT FL} {s : String} (hs : toBincode pk pl p = some s) :
    fromBincode pk pl s = some p ↔ p.Sendable pl.lit.Clean := by
  obtain ⟨bs, hbs, rfl⟩ := Option.map_eq_some_iff.mp hs
  have hexact := (codec pk pl).exact bs.length p
  simp only [fromBincode, pk.unpack_pack, Option.bind_some, Option.map_eq_some_iff]
  constructor
  · rintro ⟨⟨q, r⟩, hread, hq⟩
    obtain rfl : q = p := hq
    by_contra hp
    refine hexact.misreads hp bs hbs le_rfl [] r ?_
    rwa [List.append_nil]
  · intro hp
    refine ⟨(p, []), ?_, rfl⟩
    simpa using hexact.reads hp bs hbs le_rfl []

/-- A policy as a text inside another value. -/
def textCodec : Codec (Policy FT FL) where
  write p := (toBincode pk pl p).bind Codec.text.write
  read := Codec.text.read.filterMap (fromBincode pk pl)
  Clean := Sendable pl.lit.Clean
  exact n p := by
    have htext : ∀ {bs : List UInt8}, (toBincode pk pl p).bind Codec.text.write = some bs →
        bs.length ≤ n → ∃ s, toBincode pk pl p = some s ∧
          ∀ rest, Codec.text.read (bs ++ rest) = some (s, rest) := by
      intro bs hbs hle
      obtain ⟨s, hs, hw⟩ := Option.bind_eq_some_iff.mp hbs
      exact ⟨s, hs, (Codec.text_total.exact n s).reads trivial bs hw hle⟩
    constructor
    · intro hp bs hbs hle rest
      obtain ⟨s, hs, hread⟩ := htext hbs hle
      exact Parser.filterMap_eq_some.mpr ⟨s, hread rest, (fromBincode_eq_some pk pl hs).mpr hp⟩
    · intro hp bs hbs hle rest rest' h
      obtain ⟨s, hs, hread⟩ := htext hbs hle
      obtain ⟨s', hread', hf⟩ := Parser.filterMap_eq_some.mp h
      rw [hread] at hread'
      cases hread'
      exact hp ((fromBincode_eq_some pk pl hs).mp hf)

end Policy

namespace Protocol

def codec : Codec Protocol := Codec.enum [HTTP, TCP] (by intro p; cases p <;> decide)

/-- The key of a protocol in a format with names. -/
def name : Protocol → String
  | HTTP => "HTTP"
  | TCP => "TCP"

def ofName (s : String) : Option Protocol := [("HTTP", HTTP), ("TCP", TCP)].lookup s

theorem ofName_name (p : Protocol) : ofName p.name = some p := by
  cases p <;> decide

end Protocol

namespace Policies

def Sendable (P : FL → Prop) (ps : Policies FT FL) : Prop :=
  ∀ e ∈ ps.entries, e.2.Sendable P

/-- The map in the binary format. -/
def codec : Codec (Policies FT FL) :=
  (Codec.map Protocol.codec (fun _ => trivial) (Policy.textCodec pk pl)).withClean
    (Sendable pl.lit.Clean) (fun _ => Iff.rfl)

/-- `serialize`: the fields of the map in a format with names. -/
def writeFields : List (Protocol × Policy FT FL) → Option (List (String × String))
  | [] => some []
  | (k, p) :: es => do
      let s ← p.toBincode pk pl
      let d ← writeFields es
      some ((k.name, s) :: d)

/-- `visit_map`, as far as the entries of the map. -/
def readFields : List (String × String) → Option (List (Protocol × Policy FT FL))
  | [] => some []
  | (name, s) :: d => do
      let k ← Protocol.ofName name
      let p ← Policy.fromBincode pk pl s
      let es ← readFields d
      some ((k, p) :: es)

def toDocument (ps : Policies FT FL) : Option (List (String × String)) :=
  writeFields pk pl ps.entries

def ofDocument (d : List (String × String)) : Option (Policies FT FL) :=
  (readFields pk pl d).map BTreeMap.ofList

theorem readFields_cons {k : Protocol} {s : String} {d : List (String × String)}
    {l : List (Protocol × Policy FT FL)} :
    readFields pk pl ((k.name, s) :: d) = some l ↔
      ∃ q es, Policy.fromBincode pk pl s = some q ∧ readFields pk pl d = some es ∧
        l = (k, q) :: es := by
  simp only [readFields, Protocol.ofName_name, Option.bind_eq_bind, Option.bind_some,
    Option.bind_eq_some_iff, Option.some.injEq]
  constructor
  · rintro ⟨q, hq, es, hes, rfl⟩
    exact ⟨q, es, hq, hes, rfl⟩
  · rintro ⟨q, es, hq, hes, rfl⟩
    exact ⟨q, hq, es, hes, rfl⟩

theorem writeFields_cons {k : Protocol} {p : Policy FT FL} {es : List (Protocol × Policy FT FL)}
    {d : List (String × String)} (h : writeFields pk pl ((k, p) :: es) = some d) :
    ∃ s d', p.toBincode pk pl = some s ∧ writeFields pk pl es = some d' ∧
      d = (k.name, s) :: d' := by
  simp only [writeFields, Option.bind_eq_bind, Option.bind_eq_some_iff, Option.some.injEq] at h
  obtain ⟨s, hs, d', hd', rfl⟩ := h
  exact ⟨s, d', hs, hd', rfl⟩

/-- Fields keep their number and their keys; all of them are read back, or one is read as
another policy. -/
theorem readFields_writeFields {es : List (Protocol × Policy FT FL)} :
    ∀ {d : List (String × String)}, writeFields pk pl es = some d →
      ((∀ e ∈ es, e.2.Sendable pl.lit.Clean) → readFields pk pl d = some es) ∧
      ∀ l, readFields pk pl d = some l → l.length = es.length ∧
        ((∀ e ∈ es, e.2.Sendable pl.lit.Clean) ∨ ∃ e ∈ es, ∃ q, (e.1, q) ∈ l ∧ q ≠ e.2) := by
  induction es with
  | nil =>
      intro d h
      cases h
      refine ⟨fun _ => rfl, fun l hl => ?_⟩
      cases hl
      exact ⟨rfl, Or.inl (by simp)⟩
  | cons e es ih =>
      obtain ⟨k, p⟩ := e
      intro d h
      obtain ⟨s, d', hs, hd', rfl⟩ := writeFields_cons pk pl h
      obtain ⟨ih1, ih2⟩ := ih hd'
      have hp := Policy.fromBincode_eq_some pk pl hs
      refine ⟨fun hall => ?_, fun l hl => ?_⟩
      · obtain ⟨hk, hes⟩ := List.forall_mem_cons.mp hall
        exact (readFields_cons pk pl).mpr ⟨p, es, hp.mpr hk, ih1 hes, rfl⟩
      · obtain ⟨q, l', hq, hl', rfl⟩ := (readFields_cons pk pl).mp hl
        obtain ⟨hlen, hor⟩ := ih2 l' hl'
        refine ⟨by rw [List.length_cons, List.length_cons, hlen], ?_⟩
        by_cases hqp : q = p
        · subst hqp
          refine hor.imp (fun hes => List.forall_mem_cons.mpr ⟨hp.mp hq, hes⟩) ?_
          rintro ⟨e, he, r, hr, hne⟩
          exact ⟨e, List.mem_cons_of_mem _ he, r, List.mem_cons_of_mem _ hr, hne⟩
        · exact Or.inr ⟨(k, p), List.mem_cons_self, q, List.mem_cons_self, hqp⟩

theorem ofDocument_eq_some {ps : Policies FT FL} {d : List (String × String)}
    (hd : toDocument pk pl ps = some d) :
    ofDocument pk pl d = some ps ↔ ps.Sendable pl.lit.Clean := by
  obtain ⟨h1, h2⟩ := readFields_writeFields pk pl hd
  constructor
  · intro h
    obtain ⟨l, hl, rfl⟩ := Option.map_eq_some_iff.mp h
    obtain ⟨hlen, hall | ⟨e, he, q, hq, hne⟩⟩ := h2 l hl
    · exact hall
    · -- no field is lost, so the map would hold two policies under one key
      have hq' := BTreeMap.mem_ofList_of_length hlen.symm _ hq
      have hk1 := (BTreeMap.mem_entries _ _ _).mp hq'
      have hk2 := (BTreeMap.mem_entries _ e.1 e.2).mp he
      exact absurd (Option.some.inj (hk1.symm.trans hk2)) hne
  · intro hps
    rw [ofDocument, h1 hps, Option.map_some, BTreeMap.ofList_entries]

end Policies

end

/-! ## The planes -/

def dpPlane (pk : Packages) : Plane FlatTyp DPFlatLiteral :=
  ⟨FlatTyp.codec, fun _ => trivial, DPFlatLiteral.codec pk⟩

def DPPolicies.Sendable (ps : DPPolicies) : Prop := Policies.Sendable DPFlatLiteral.Sendable ps

def DPPolicies.codec (pk : Packages) : Codec DPPolicies := Policies.codec pk (dpPlane pk)

namespace OnboardingData

def Sendable (o : OnboardingData) : Prop :=
  o.host.Readable ∧ o.service.Readable ∧ ∀ l ∈ o.proposedLabels.elems, l.Readable

def codec : Codec OnboardingData :=
  ((Label.codec.pair (Label.codec.pair (Codec.text.pair (Codec.u16.option.pair
    ((Codec.set Label.codec Label.codec_closed).pair
      (Codec.set IpAddr.codec IpAddr.codec_total.closed)))))).iso
    (fun p => ⟨p.1, p.2.1, p.2.2.1, p.2.2.2.1, p.2.2.2.2.1, p.2.2.2.2.2⟩)
    (fun o => (o.host, o.service, o.credentials, o.port, o.proposedLabels, o.ips))
    (fun _ => rfl) (fun _ => rfl)).withClean Sendable (fun o => by
      refine and_congr_right (fun _ => and_congr_right (fun _ => ?_))
      refine (and_iff_right (Codec.text_total _)).trans ?_
      refine (and_iff_right (fun _ _ => trivial)).trans ?_
      exact and_iff_left (fun _ _ => IpAddr.codec_total _))

end OnboardingData

namespace OnboardingResult

def Sendable : OnboardingResult → Prop
  | ok id ingress egress => id.Sendable ∧ ingress.Sendable ∧ egress.Sendable
  | err _ id policies =>
      (∀ i ∈ id, i.Sendable) ∧ ∀ p ∈ policies, p.1.Sendable ∧ p.2.Sendable

def okCodec (pk : Packages) : Codec (ID × DPPolicies × DPPolicies) :=
  ID.codec.pair ((DPPolicies.codec pk).pair (DPPolicies.codec pk))

def errCodec (pk : Packages) : Codec (String × Option ID × Option (DPPolicies × DPPolicies)) :=
  Codec.text.pair (ID.codec.option.pair
    ((DPPolicies.codec pk).pair (DPPolicies.codec pk)).option)

def codec (pk : Packages) : Codec OnboardingResult where
  write
    | ok id ingress egress => tagged 0 ((okCodec pk).write (id, ingress, egress))
    | err message id policies => tagged 1 ((errCodec pk).write (message, id, policies))
  read := Parser.variant
    [(okCodec pk).read.map (fun p => ok p.1 p.2.1 p.2.2),
      (errCodec pk).read.map (fun p => err p.1 p.2.1 p.2.2)]
  Clean := Sendable
  exact n r := by
    cases r with
    | ok id ingress egress =>
        refine Exact.variant rfl (((okCodec pk).exact n (id, ingress, egress)).map ?_)
        rintro ⟨i, p, q⟩ h
        cases h
        rfl
    | err message id policies =>
        have herr := ((errCodec pk).exact n (message, id, policies)).congr
          (and_iff_right (Codec.text_total _))
        refine Exact.variant rfl (herr.map ?_)
        rintro ⟨m, i, p⟩ h
        cases h
        rfl

end OnboardingResult

namespace CPFlatLiteral

def Sendable : CPFlatLiteral → Prop
  | dp l => l.Sendable
  | onboardingData d => d.Sendable
  | onboardingResult r => r.Sendable
  | policy p => p.Sendable
  | _ => True

def codec (pk : Packages) : Codec CPFlatLiteral where
  write
    | credentials v => tagged 0 (Codec.text.write v)
    | dp l => tagged 1 ((DPFlatLiteral.codec pk).write l)
    | onboardingData d => tagged 2 (OnboardingData.codec.write d)
    | onboardingResult r => tagged 3 ((OnboardingResult.codec pk).write r)
    | policy p => tagged 4 ((DPPolicies.codec pk).write p)
    | primitive name => tagged 5 (Codec.text.write name)
  read := Parser.variant
    [Codec.text.read.map credentials, (DPFlatLiteral.codec pk).read.map dp,
      OnboardingData.codec.read.map onboardingData,
      (OnboardingResult.codec pk).read.map onboardingResult,
      (DPPolicies.codec pk).read.map policy, Codec.text.read.map primitive]
  Clean := Sendable
  exact n l := by
    cases l with
    | credentials v =>
        exact Exact.variant rfl ((Codec.text_total.exact n v).map
          (fun _ h => credentials.inj h))
    | dp l => exact Exact.variant rfl (((DPFlatLiteral.codec pk).exact n l).map
        (fun _ h => dp.inj h))
    | onboardingData d => exact Exact.variant rfl ((OnboardingData.codec.exact n d).map
        (fun _ h => onboardingData.inj h))
    | onboardingResult r => exact Exact.variant rfl (((OnboardingResult.codec pk).exact n r).map
        (fun _ h => onboardingResult.inj h))
    | policy p => exact Exact.variant rfl (((DPPolicies.codec pk).exact n p).map
        (fun _ h => policy.inj h))
    | primitive name => exact Exact.variant rfl ((Codec.text_total.exact n name).map
        (fun _ h => primitive.inj h))

end CPFlatLiteral

def cpPlane (pk : Packages) : Plane CPFlatTyp CPFlatLiteral :=
  ⟨CPFlatTyp.codec, fun _ => trivial, CPFlatLiteral.codec pk⟩

def GlobalPolicies.Sendable (ps : GlobalPolicies) : Prop :=
  Policies.Sendable CPFlatLiteral.Sendable ps

/-! ## Round trips -/

namespace Policies

variable {FT FL : Type}

/-- The policies have a binary form.  All values of the source have one: indices and lengths
are of type `usize`, and a regular expression in a policy has been compiled. -/
def Encodable (pk : Packages) (pl : Plane FT FL) (ps : Policies FT FL) : Prop :=
  ((codec pk pl).write ps).isSome

/-- Every form of the policies is decoded to them: the text of each one, the fields of the
map, and its binary form. -/
structure RoundTrips (pk : Packages) (pl : Plane FT FL) (ps : Policies FT FL) : Prop where
  bincode : ∀ e ∈ ps.entries, ∃ s, e.2.toBincode pk pl = some s ∧
    Policy.fromBincode pk pl s = some e.2
  document : ∃ d, ps.toDocument pk pl = some d ∧ ofDocument pk pl d = some ps
  binary : ∃ bs, (codec pk pl).write ps = some bs ∧ (codec pk pl).read bs = some (ps, [])

theorem Encodable.fields {pk : Packages} {pl : Plane FT FL} {ps : Policies FT FL}
    (h : ps.Encodable pk pl) :
    (∀ e ∈ ps.entries, ∃ s, e.2.toBincode pk pl = some s) ∧
      ∃ d, ps.toDocument pk pl = some d := by
  obtain ⟨bs, hbs⟩ := Option.isSome_iff_exists.mp h
  obtain ⟨-, y, -, hy, -⟩ := cat_eq_some.mp hbs
  unfold toDocument
  clear h hbs
  generalize ps.entries = es at hy ⊢
  induction es generalizing y with
  | nil => exact ⟨by simp, [], rfl⟩
  | cons e es ih =>
      obtain ⟨z, ys, hz, hys, -⟩ := cat_eq_some.mp hy
      obtain ⟨hes, d, hd⟩ := ih ys hys
      obtain ⟨-, t, -, ht, -⟩ := cat_eq_some.mp hz
      obtain ⟨s, hs, -⟩ := Option.bind_eq_some_iff.mp ht
      refine ⟨List.forall_mem_cons.mpr ⟨⟨s, hs⟩, hes⟩, (e.1.name, s) :: d, ?_⟩
      simp [writeFields, hs, hd]

theorem roundTrips_iff {pk : Packages} {pl : Plane FT FL} {ps : Policies FT FL}
    (h : ps.Encodable pk pl) : ps.RoundTrips pk pl ↔ ps.Sendable pl.lit.Clean := by
  obtain ⟨hes, d, hd⟩ := h.fields
  constructor
  · intro hr
    obtain ⟨d', hd', hof⟩ := hr.document
    exact (ofDocument_eq_some pk pl hd').mp hof
  · intro hps
    refine ⟨fun e he => ?_, ⟨d, hd, (ofDocument_eq_some pk pl hd).mpr hps⟩, ?_⟩
    · obtain ⟨s, hs⟩ := hes e he
      exact ⟨s, hs, (Policy.fromBincode_eq_some pk pl hs).mpr (hps e he)⟩
    · obtain ⟨bs, hbs⟩ := Option.isSome_iff_exists.mp h
      have hread := ((codec pk pl).exact bs.length ps).reads hps bs hbs le_rfl []
      exact ⟨bs, hbs, by simpa using hread⟩

end Policies

/-- Policies of either plane come back from all their forms exactly if no identity in them
has a port and all labels in them can be read. -/
theorem policies_roundTrip (pk : Packages) :
    (∀ ps : DPPolicies, Policies.Encodable pk (dpPlane pk) ps →
      (Policies.RoundTrips pk (dpPlane pk) ps ↔ ps.Sendable)) ∧
    (∀ ps : GlobalPolicies, Policies.Encodable pk (cpPlane pk) ps →
      (Policies.RoundTrips pk (cpPlane pk) ps ↔ ps.Sendable)) :=
  ⟨fun _ h => Policies.roundTrips_iff h, fun _ h => Policies.roundTrips_iff h⟩

/-- Texts that spell the bytes. -/
def spelled : Packages where
  escape s := s
  compiles _ := true
  pack bs := String.ofList (bs.map (fun b => Char.ofNat b.toNat))
  unpack s := some (s.toList.map (fun c => UInt8.ofNat c.toNat))
  unpack_pack bs := by
    have hb : ∀ b : UInt8, UInt8.ofNat (Char.ofNat b.toNat).toNat = b := by
      intro b
      have hlt : b.toNat < 256 := b.toNat_lt
      have hv : b.toNat.isValidChar := Or.inl (by omega)
      unfold Char.ofNat
      rw [dif_pos hv]
      exact UInt8.ofNat_toNat
    simp [List.map_map, Function.comp_def, hb]

/-- A policy that compares the destination of a request with an identity. -/
def compareTo (i : ID) : DPPolicies :=
  BTreeMap.insert ∅ .HTTP
    ⟨⟨BTreeMap.insert ∅ allowRestRequest (.closure "req" (.infixExpr .equal
        (.callExpr "HttpRequest::to" [.bvar "req" 0] false) (.litExpr (.id i)))), .empty,
      BTreeMap.insert ∅ allowRestRequest (.new [.httpRequest] .bool)⟩,
      FnPolicies.setArgs ∅ allowRestRequest 1⟩

/-- An identity with a host and a label. -/
def database : ID := (ID.empty.addHost "db").addLabel ⟨[.str "db"]⟩

/-- Without a port the comparison comes back. -/
theorem policies_roundTrip_database :
    Policies.RoundTrips spelled (dpPlane spelled) (compareTo database) ∧
      Policies.RoundTrips spelled (cpPlane spelled)
        (BTreeMap.insert ∅ .TCP Policy.empty : GlobalPolicies) := by
  obtain ⟨hdp, hcp⟩ := policies_roundTrip spelled
  refine ⟨(hdp (compareTo database) ?_).mpr ?_, (hcp _ ?_).mpr ?_⟩
  · unfold Policies.Encodable
    decide +kernel
  · intro e he
    obtain rfl := List.mem_singleton.mp he
    intro f hf
    obtain rfl := List.mem_singleton.mp hf
    exact ⟨⟨trivial, trivial⟩, rfl, by decide⟩
  · unfold Policies.Encodable
    decide +kernel
  · intro e he
    obtain rfl := List.mem_singleton.mp he
    exact fun f hf => nomatch hf

/-- With port 80 it does not. -/
theorem port_not_roundTrips :
    Policies.Encodable spelled (dpPlane spelled) (compareTo (database.setPort 80)) ∧
      ¬ Policies.RoundTrips spelled (dpPlane spelled) (compareTo (database.setPort 80)) := by
  have hw : Policies.Encodable spelled (dpPlane spelled) (compareTo (database.setPort 80)) := by
    unfold Policies.Encodable
    decide +kernel
  refine ⟨hw, fun h => ?_⟩
  have hs := (Policies.roundTrips_iff hw).mp h
  have hport : (database.setPort 80).port = none :=
    (hs (_, _) (List.mem_singleton_self _) (_, _) (List.mem_singleton_self _)).2.1
  cases hport

end Armour.Lang
