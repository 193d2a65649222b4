import Armour.Lang.Labels
import Armour.Lang.Types
import Armour.Lib.Text
import Mathlib.Data.BitVec

/-! # Literals

`armour-lang/src/literals.rs`: the values of policies.  `Literal` is generic in
the flat literals of a plane; identities, connections, requests and responses
carry only phantom types in the source and are shared by the two planes here.
-/

namespace Armour.Lang

open Armour.Lib

/-! ## Flat values -/

/-- A double, by its bits: equality is the IEEE one. -/
structure F64 where
  bits : UInt64
deriving DecidableEq, Repr

namespace F64

def isNaN (x : F64) : Bool :=
  (x.bits >>> 52) &&& 0x7ff = 0x7ff && (x.bits &&& 0xfffffffffffff) ≠ 0

def isZero (x : F64) : Bool := x.bits <<< 1 = 0

protected def beq (x y : F64) : Bool :=
  !x.isNaN && !y.isNaN && (x.bits = y.bits || (x.isZero && y.isZero))

instance : BEq F64 := ⟨F64.beq⟩

def zero : F64 := ⟨0⟩
def one : F64 := ⟨0x3ff0000000000000⟩

end F64

inductive IpAddr where
  | v4 (a : UInt32)
  | v6 (a : BitVec 128)
deriving DecidableEq, Repr

namespace IpAddr

def key : IpAddr → Nat ×ₗ Nat
  | v4 a => toLex (0, a.toNat)
  | v6 a => toLex (1, a.toNat)

theorem key_injective : Function.Injective key := by
  intro a b h
  have h' : ofLex (key a) = ofLex (key b) := congrArg ofLex h
  cases a <;> cases b <;> simp_all [key, UInt32.toNat_inj, BitVec.toNat_inj]

instance : LinearOrder IpAddr := LinearOrder.lift' key key_injective

def octets (a : UInt32) : List UInt8 :=
  [(a >>> 24).toUInt8, (a >>> 16).toUInt8, (a >>> 8).toUInt8, a.toUInt8]

/-- `Ipv4Addr::new`. -/
def ofOctets (a b c d : UInt8) : IpAddr :=
  v4 ((a.toUInt32 <<< 24) ||| (b.toUInt32 <<< 16) ||| (c.toUInt32 <<< 8) ||| d.toUInt32)

/-- `Ipv6Addr::to_ipv4`: the addresses `::a.b.c.d` and `::ffff:a.b.c.d`. -/
def toIpv4 (a : BitVec 128) : Option UInt32 :=
  if a.toNat / 2 ^ 32 = 0 ∨ a.toNat / 2 ^ 32 = 0xffff then
    some (UInt32.ofNat (a.toNat % 2 ^ 32))
  else none

end IpAddr

/-- What an `as` capture is read as. -/
inductive As where
  | str | i64 | base64
deriving DecidableEq, Repr

/-- Patterns of the policy language (`parser::Pat`). -/
inductive Pat where
  | any
  | lit (s : String)
  | cls (s : String)
  | alt (ps : List Pat)
  | seq (ps : List Pat)
  | as (id : String) (a : As)
  | opt (p : Pat)
  | star (p : Pat)
  | plus (p : Pat)
  | caseInsensitive (p : Pat)
  | ignoreWhitespace (p : Pat)
deriving Repr

namespace Pat

mutual
def beq : Pat → Pat → Bool
  | any, any => true
  | lit s, lit t => s = t
  | cls s, cls t => s = t
  | alt ps, alt qs => beqs ps qs
  | seq ps, seq qs => beqs ps qs
  | as i a, as j b => i = j && a = b
  | opt p, opt q => beq p q
  | star p, star q => beq p q
  | plus p, plus q => beq p q
  | caseInsensitive p, caseInsensitive q => beq p q
  | ignoreWhitespace p, ignoreWhitespace q => beq p q
  | _, _ => false

def beqs : List Pat → List Pat → Bool
  | [], [] => true
  | p :: ps, q :: qs => beq p q && beqs ps qs
  | _, _ => false
end

mutual
/-- Names of the capturing groups, in the order of the regular expression. -/
def captureNames : Pat → List String
  | any | lit _ | cls _ => []
  | alt ps | seq ps => captureNamesList ps
  | as id .str => [id]
  | as id .i64 => ["_i64" ++ id]
  | as id .base64 => ["_b64" ++ id]
  | opt p | star p | plus p | caseInsensitive p | ignoreWhitespace p => captureNames p

def captureNamesList : List Pat → List String
  | [] => []
  | p :: ps => captureNames p ++ captureNamesList ps
end

/-- `Pat::strip_as`. -/
def stripAs (s : String) : String × As :=
  if Text.startsWith s "_i64" then
    (Text.trimStartMatches s "_i64", .i64)
  else if Text.startsWith s "_b64" then
    (Text.trimStartMatches s "_b64", .base64)
  else (s, .str)

end Pat

/-- A compiled pattern; equality is that of the patterns. -/
structure PolicyRegex where
  pat : Pat
deriving Repr

instance : BEq PolicyRegex := ⟨fun a b => a.pat.beq b.pat⟩

inductive Method where
  | GET | POST | PUT | DELETE | HEAD | OPTIONS | CONNECT | PATCH | TRACE
deriving DecidableEq, Repr

def Method.display : Method → String
  | .GET => "GET"
  | .POST => "POST"
  | .PUT => "PUT"
  | .DELETE => "DELETE"
  | .HEAD => "HEAD"
  | .OPTIONS => "OPTIONS"
  | .CONNECT => "CONNECT"
  | .PATCH => "PATCH"
  | .TRACE => "TRACE"

inductive Version where
  | HTTP_09 | HTTP_10 | HTTP_11 | HTTP_20
deriving DecidableEq, Repr

def Version.display : Version → String
  | .HTTP_09 => "HTTP/0.9"
  | .HTTP_10 => "HTTP/1.0"
  | .HTTP_11 => "HTTP/1.1"
  | .HTTP_20 => "HTTP/2.0"

/-- `Vec<u8>`. -/
abbrev Bytes := List UInt8

/-- HTTP headers: the values under a name in order. -/
abbrev HttpHeaders := BTreeMap String (List Bytes)

structure ID where
  hosts : BTreeSet String
  ips : BTreeSet IpAddr
  port : Option UInt16
  labels : BTreeSet Label

namespace ID

/-- `ID::default`. -/
def empty : ID := ⟨∅, ∅, none, ∅⟩

instance : Inhabited ID := ⟨empty⟩

/-- `PartialEq`: labels are compared with label equality, in their order. -/
protected def beq (a b : ID) : Bool :=
  a.hosts.elems = b.hosts.elems && a.ips.elems = b.ips.elems && a.port = b.port
    && List.beq a.labels.elems b.labels.elems

instance : BEq ID := ⟨ID.beq⟩

def addLabel (id : ID) (l : Label) : ID := { id with labels := id.labels.insert l }
def addHost (id : ID) (h : String) : ID := { id with hosts := id.hosts.insert h }
def addIp (id : ID) (ip : IpAddr) : ID := { id with ips := id.ips.insert ip }
def setPort (id : ID) (p : UInt16) : ID := { id with port := some p }
def findLabel (id : ID) (l : Label) : Option Label := id.labels.elems.find? l.matchesWith
def hasLabel (id : ID) (l : Label) : Bool := id.labels.elems.any l.matchesWith
def hasHost (id : ID) (h : String) : Bool := id.hosts.elems.any (· = h)
def hasIp (id : ID) (ip : IpAddr) : Bool := id.ips.elems.any (· = ip)

end ID

structure Connection where
  fromId : ID
  toId : ID
  number : Int64

namespace Connection

/-- `Connection::default`. -/
def empty : Connection := ⟨.empty, .empty, 0⟩

instance : Inhabited Connection := ⟨empty⟩

protected def beq (a b : Connection) : Bool :=
  a.fromId == b.fromId && a.toId == b.toId && a.number = b.number

instance : BEq Connection := ⟨Connection.beq⟩

end Connection

structure HttpRequest where
  method : Method
  version : Version
  path : String
  query : String
  headers : HttpHeaders
  connection : Connection

namespace HttpRequest

/-- `HttpRequest::default`. -/
def empty : HttpRequest := ⟨.GET, .HTTP_11, "", "", ∅, .empty⟩

protected def beq (a b : HttpRequest) : Bool :=
  a.method = b.method && a.version = b.version && a.path = b.path && a.query = b.query
    && a.headers.entries = b.headers.entries && a.connection == b.connection

instance : BEq HttpRequest := ⟨HttpRequest.beq⟩

end HttpRequest

structure HttpResponse where
  version : Version
  status : UInt16
  headers : HttpHeaders
  reason : Option String
  connection : Connection

namespace HttpResponse

/-- `HttpResponse::default`. -/
def empty : HttpResponse := ⟨.HTTP_11, 0, ∅, none, .empty⟩

protected def beq (a b : HttpResponse) : Bool :=
  a.version = b.version && a.status = b.status && a.headers.entries = b.headers.entries
    && a.reason = b.reason && a.connection == b.connection

instance : BEq HttpResponse := ⟨HttpResponse.beq⟩

end HttpResponse

/-- `Headers::set_header`: a further value under the name. -/
def HttpHeaders.setHeader (h : HttpHeaders) (k : String) (v : Bytes) : HttpHeaders :=
  match BTreeMap.get? h k with
  | some l => BTreeMap.insert h k (l ++ [v])
  | none => BTreeMap.insert h k [v]

/-- `FlatLiteral`, the flat literals of the data plane. -/
inductive DPFlatLiteral where
  | bool (b : Bool)
  | connection (c : Connection)
  | data (d : Bytes)
  | float (f : F64)
  | httpRequest (r : HttpRequest)
  | httpResponse (r : HttpResponse)
  | id (i : ID)
  | int (i : Int64)
  | ipAddr (a : IpAddr)
  | label (l : Label)
  | regex (r : PolicyRegex)
  | str (s : String)
  | unit

namespace DPFlatLiteral

protected def beq : DPFlatLiteral → DPFlatLiteral → Bool
  | bool a, bool b => a = b
  | connection a, connection b => a == b
  | data a, data b => a = b
  | float a, float b => a == b
  | httpRequest a, httpRequest b => a == b
  | httpResponse a, httpResponse b => a == b
  | id a, id b => a == b
  | int a, int b => a = b
  | ipAddr a, ipAddr b => a = b
  | label a, label b => Label.beq a b
  | regex a, regex b => a == b
  | str a, str b => a = b
  | unit, unit => true
  | _, _ => false

instance : BEq DPFlatLiteral := ⟨DPFlatLiteral.beq⟩

def typ : DPFlatLiteral → FlatTyp
  | bool _ => .bool
  | connection _ => .connection
  | data _ => .data
  | float _ => .f64
  | httpRequest _ => .httpRequest
  | httpResponse _ => .httpResponse
  | id _ => .id
  | int _ => .i64
  | ipAddr _ => .ipAddr
  | label _ => .label
  | regex _ => .regex
  | str _ => .str
  | unit => .unit

end DPFlatLiteral

/-! ## Literals of a plane -/

/-- `Literal`, over the flat literals `FL` of a plane.  Tuples of length 0 and 1 are
`None` and `Some`. -/
inductive Literal (FL : Type) where
  | flat (l : FL)
  | list (ls : List (Literal FL))
  | tuple (ls : List (Literal FL))

abbrev DPLiteral := Literal DPFlatLiteral

/-- `TFlatLiteral`: the flat literals of a plane contain those of the data plane. -/
class TFlatLiteral (FT : outParam Type) (FL : Type) [TFlatTyp FT] where
  dp : DPFlatLiteral → FL
  toDP? : FL → Option DPFlatLiteral
  toDP?_dp : ∀ l, toDP? (dp l) = some l
  eq_dp : ∀ {f l}, toDP? f = some l → f = dp l
  beq : FL → FL → Bool
  typ : FL → FT

namespace Literal

variable {FT FL : Type}

theorem ind {P : Literal FL → Prop} (flat : ∀ l, P (flat l))
    (list : ∀ ls, (∀ l ∈ ls, P l) → P (list ls))
    (tuple : ∀ ls, (∀ l ∈ ls, P l) → P (tuple ls)) : ∀ l, P l :=
  Literal.rec (motive_1 := P) (motive_2 := fun ls => ∀ l ∈ ls, P l) flat list tuple
    (fun _ h => nomatch h)
    (fun _ _ h hs _ hm => (List.mem_cons.mp hm).elim (fun e => e ▸ h) (fun hm => hs _ hm))

section

variable [TFlatTyp FT] [TFlatLiteral FT FL]

mutual
/-- `PartialEq`. -/
protected def beq : Literal FL → Literal FL → Bool
  | flat a, flat b => TFlatLiteral.beq a b
  | list as, list bs => beqs as bs
  | tuple as, tuple bs => beqs as bs
  | _, _ => false

def beqs : List (Literal FL) → List (Literal FL) → Bool
  | [], [] => true
  | a :: as, b :: bs => Literal.beq a b && beqs as bs
  | _, _ => false
end

instance : BEq (Literal FL) := ⟨Literal.beq⟩

/-- A data-plane flat literal as a literal of the plane. -/
def dp (l : DPFlatLiteral) : Literal FL := flat (TFlatLiteral.dp l)

/-- The data-plane flat literal that a literal holds, if it is one. -/
def dp? : Literal FL → Option DPFlatLiteral
  | flat l => TFlatLiteral.toDP? l
  | _ => none

def bool (b : Bool) : Literal FL := dp (.bool b)
def int (i : Int64) : Literal FL := dp (.int i)
def str (s : String) : Literal FL := dp (.str s)
def data (d : Bytes) : Literal FL := dp (.data d)
def id (i : ID) : Literal FL := dp (.id i)
def label (l : Label) : Literal FL := dp (.label l)
def ipAddr (a : IpAddr) : Literal FL := dp (.ipAddr a)
def connection (c : Connection) : Literal FL := dp (.connection c)
def unit : Literal FL := dp .unit

/-- `is_bool` and `get_bool` together: the Boolean of a Boolean literal. -/
def getBool? (l : Literal FL) : Option Bool :=
  match l.dp? with
  | some (.bool b) => some b
  | _ => none

def isBool (l : Literal FL) : Bool := l.getBool?.isSome

/-- `is_str` and `get_str` together. -/
def getStr? (l : Literal FL) : Option String :=
  match l.dp? with
  | some (.str s) => some s
  | _ => none

/-- `is_label` and `get_label` together. -/
def getLabel? (l : Literal FL) : Option Label :=
  match l.dp? with
  | some (.label l) => some l
  | _ => none

@[simp] theorem dp?_dp (l : DPFlatLiteral) : (dp l : Literal FL).dp? = some l :=
  TFlatLiteral.toDP?_dp l

theorem eq_dp {l : Literal FL} {d : DPFlatLiteral} (h : l.dp? = some d) : l = dp d := by
  cases l with
  | flat f => exact congrArg flat (TFlatLiteral.eq_dp h)
  | list ls => cases h
  | tuple ls => cases h

@[simp] theorem getBool?_bool (b : Bool) : (bool b : Literal FL).getBool? = some b := by
  simp [getBool?, bool]

theorem eq_bool {l : Literal FL} {b : Bool} (h : l.getBool? = some b) : l = bool b := by
  unfold getBool? at h
  split at h
  · rename_i d hd
    cases h
    exact eq_dp hd
  · cases h

end

def none : Literal FL := tuple []
def some (l : Literal FL) : Literal FL := tuple [l]

/-- `dest_some`. -/
def destSome : Literal FL → Option (Literal FL)
  | tuple [l] => .some l
  | _ => .none

/-- `From<Option<T>>`. -/
def ofOption : Option (Literal FL) → Literal FL
  | .some l => some l
  | .none => none

end Literal

/-! ## Equality used by sets of literals -/

namespace VecSet

variable {FT FL : Type} [TFlatTyp FT] [TFlatLiteral FT FL]

def contains (l : List (Literal FL)) (x : Literal FL) : Bool := l.any (fun y => x == y)

def isSubset (x y : List (Literal FL)) : Bool := x.all (fun ex => y.any (fun ey => ex == ey))

def isDisjoint (x y : List (Literal FL)) : Bool := !x.any (fun ex => y.any (fun ey => ex == ey))

def difference (x y : List (Literal FL)) : List (Literal FL) :=
  x.filter (fun ex => !y.any (fun ey => ex == ey))

def intersection (x y : List (Literal FL)) : List (Literal FL) :=
  x.filter (fun ex => y.any (fun ey => ex == ey))

end VecSet

end Armour.Lang
