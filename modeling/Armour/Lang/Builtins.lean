import Armour.Lang.Headers
import Armour.Lang.Expressions

/-! # Operators and built-in functions on literals

The literal level of `armour-lang/src/interpret.rs` (`TInterpret`) for the data plane
and for literals of any plane.  `none` is the `None` of the source, which the evaluator
reports as a type error; `.error` is a panic.
-/

namespace Armour.Lang

open Armour.Lib

/-- What the interpreter uses of the machine it runs on: the build profile, the clock,
name resolution, Unicode tables, and the crates for URLs, base64 and regular
expressions. -/
structure Platform where
  overflowChecks : Bool
  now : Int64
  toLowercase : String → String
  toUppercase : String → String
  fromUtf8Lossy : Bytes → String
  base64Encode : Bytes → String
  base64Decode : String → Option Bytes
  queryPairs : String → Option (List (String × String))
  lookupAddr : IpAddr → Option String
  lookupHost : String → Option (List IpAddr)
  regexIsMatch : Pat → String → Bool
  /-- Named groups of a match; a group that took no part is `none`. -/
  regexCaptures : Pat → String → Option (String → Option String)

/-- A debug build without a network, on texts that need no library. -/
def Platform.offline : Platform where
  overflowChecks := true
  now := 0
  toLowercase := String.toLower
  toUppercase := String.toUpper
  fromUtf8Lossy _ := ""
  base64Encode _ := ""
  base64Decode _ := none
  queryPairs _ := none
  lookupAddr _ := none
  lookupHost _ := none
  regexIsMatch _ _ := false
  regexCaptures _ _ := none

/-- Result of a computation of the source that can panic. -/
abbrev Checked (α : Type) := Except String α

/-- An `i64` result: out of range it panics or wraps, by the build profile. -/
def Platform.i64 (pf : Platform) (n : Int) (msg : String) : Checked Int64 :=
  if -2 ^ 63 ≤ n ∧ n < 2 ^ 63 then .ok (Int64.ofInt n)
  else if pf.overflowChecks then .error msg
  else .ok (Int64.ofInt n)

instance : TFlatLiteral FlatTyp DPFlatLiteral where
  dp := id
  toDP? := some
  toDP?_dp _ := rfl
  eq_dp h := Option.some.inj h
  beq := DPFlatLiteral.beq
  typ := DPFlatLiteral.typ

/-! ## Accessors -/

section

variable {FT FL : Type} [TFlatTyp FT] [TFlatLiteral FT FL]

def HttpHeaders.header (h : HttpHeaders) (s : String) : Literal FL :=
  .ofOption ((BTreeMap.get? h s).map (fun vs => .list (vs.map .data)))

def HttpHeaders.uniqueHeader (h : HttpHeaders) (s : String) : Literal FL :=
  match BTreeMap.get? h s with
  | some [d] => .some (.data d)
  | _ => .none

def HttpHeaders.headers (h : HttpHeaders) : Literal FL :=
  .list ((BTreeMap.keys h).map .str)

def HttpHeaders.headerPairs (h : HttpHeaders) : Literal FL :=
  .list (h.entries.flatMap (fun p => p.2.map (fun v => .tuple [.str p.1, .data v])))

def ID.labelsLit (i : ID) : Literal FL := .list (i.labels.elems.map .label)
def ID.hostsLit (i : ID) : Literal FL := .list (i.hosts.elems.map .str)
def ID.ipsLit (i : ID) : Literal FL := .list (i.ips.elems.map .ipAddr)

def ID.portLit (i : ID) : Literal FL :=
  .ofOption (i.port.map (fun p => .int (Int64.ofNat p.toNat)))

def Connection.fromTo (c : Connection) : Literal FL := .tuple [.id c.fromId, .id c.toId]

/-- `From<&IpAddr>`: the four octets of an address that has an IPv4 form. -/
def IpAddr.octetsLit (a : IpAddr) : Literal FL :=
  let lit (v : UInt32) : Literal FL :=
    .tuple ((IpAddr.octets v).map (fun o => .int (Int64.ofNat o.toNat)))
  match a with
  | .v4 v => lit v
  | .v6 v => match IpAddr.toIpv4 v with
    | some v => lit v
    | none => .none

/-- `HttpRequest::route`: the parts of the path between slashes. -/
def HttpRequest.route (r : HttpRequest) : Literal FL :=
  .list ((Text.split "/" (Text.trimEndBy (· = '/') (Text.trimStartBy (· = '/') r.path))).map
    .str)

def HttpRequest.queryPairsLit (pf : Platform) (r : HttpRequest) : Literal FL :=
  match pf.queryPairs r.query with
  | some ps => .list (ps.map (fun p => .tuple [.str p.1, .str p.2]))
  | none => .list []

/-- `From<&Match>`. -/
def Label.Match.lit (m : Label.Match) : Literal FL :=
  .list ((Label.Match.pairs m).map (fun p => .tuple [.str p.1, .str p.2]))

end

namespace DPFlatLiteral

/-- `eval_prefix`: note that `Not` returns its operand. -/
def evalPrefix (pf : Platform) (self : DPFlatLiteral) (p : Prefix) :
    Checked (Option DPLiteral) :=
  match p, self with
  | .not, bool b => .ok (some (.bool b))
  | .minus, int i => do
      return some (.int (← pf.i64 (-i.toInt) "attempt to negate with overflow"))
  | _, _ => .ok none

/-- `eval_infix`. -/
def evalInfix (pf : Platform) (self : DPFlatLiteral) (op : Infix) (other : DPFlatLiteral) :
    Checked (Option DPLiteral) :=
  match op, self, other with
  | .equal, _, _ => .ok (some (.bool (self.beq other)))
  | .notEqual, _, _ => .ok (some (.bool (!self.beq other)))
  | .plus, int i, int j => do
      return some (.int (← pf.i64 (i.toInt + j.toInt) "attempt to add with overflow"))
  | .minus, int i, int j => do
      return some (.int (← pf.i64 (i.toInt - j.toInt) "attempt to subtract with overflow"))
  | .divide, int i, int j =>
      if j = 0 then .ok none
      else if i = Int64.minValue ∧ j = -1 then .error "attempt to divide with overflow"
      else .ok (some (.int (i / j)))
  | .multiply, int i, int j => do
      return some (.int (← pf.i64 (i.toInt * j.toInt) "attempt to multiply with overflow"))
  | .remainder, int i, int j =>
      if j = 0 then .ok none
      else if i = Int64.minValue ∧ j = -1 then
        .error "attempt to calculate the remainder with overflow"
      else .ok (some (.int (i % j)))
  | .lessThan, int i, int j => .ok (some (.bool (i < j)))
  | .lessThanEqual, int i, int j => .ok (some (.bool (i ≤ j)))
  | .greaterThan, int i, int j => .ok (some (.bool (j < i)))
  | .greaterThanEqual, int i, int j => .ok (some (.bool (j ≤ i)))
  | .and, bool i, bool j => .ok (some (.bool (i && j)))
  | .or, bool i, bool j => .ok (some (.bool (i || j)))
  | .concatStr, str i, str j => .ok (some (.str (i ++ j)))
  | _, _, _ => .ok none

/-- A default request of another method. -/
private def request (m : Method) : DPLiteral := .dp (httpRequest { HttpRequest.empty with method := m })

/-- `eval_call0`. -/
def evalCall0 (pf : Platform) (f : String) : Option DPLiteral :=
  match f with
  | "HttpRequest::GET" => some (request .GET)
  | "HttpRequest::POST" => some (request .POST)
  | "HttpRequest::PUT" => some (request .PUT)
  | "HttpRequest::DELETE" => some (request .DELETE)
  | "HttpRequest::HEAD" => some (request .HEAD)
  | "HttpRequest::OPTIONS" => some (request .OPTIONS)
  | "HttpRequest::CONNECT" => some (request .CONNECT)
  | "HttpRequest::PATCH" => some (request .PATCH)
  | "HttpRequest::TRACE" => some (request .TRACE)
  | "ID::default" => some (.id .empty)
  | "Connection::default" => some (.connection .empty)
  | "IpAddr::localhost" => some (.ipAddr (.ofOctets 127 0 0 1))
  | "System::getCurrentTime" => some (.int pf.now)
  | _ => none

/-- `eval_call1`. -/
def evalCall1 (pf : Platform) (self : DPFlatLiteral) (f : String) : Checked (Option DPLiteral) :=
  match f, self with
  | "option::Some", l => .ok (some (.some (.dp l)))
  | "i64::abs", int i => do
      return some (.int (← pf.i64 |i.toInt| "attempt to negate with overflow"))
  | "i64::to_str", int i => .ok (some (.str (toString i.toInt)))
  | "str::len", str s => .ok (some (.int (Int64.ofNat s.utf8ByteSize)))
  | "str::to_lowercase", str s => .ok (some (.str (pf.toLowercase s)))
  | "str::to_uppercase", str s => .ok (some (.str (pf.toUppercase s)))
  | "str::trim_start", str s => .ok (some (.str (Text.trimStartBy Text.isWhitespace s)))
  | "str::trim_end", str s => .ok (some (.str (Text.trimEndBy Text.isWhitespace s)))
  | "str::as_bytes", str s => .ok (some (.data s.toUTF8.toList))
  | "str::from_utf8", data d => .ok (some (.str (pf.fromUtf8Lossy d)))
  | "str::to_base64", str s => .ok (some (.str (pf.base64Encode s.toUTF8.toList)))
  | "data::to_base64", data d => .ok (some (.str (pf.base64Encode d)))
  | "data::len", data d => .ok (some (.int (Int64.ofNat d.length)))
  | "HttpRequest::connection", httpRequest r => .ok (some (.connection r.connection))
  | "HttpRequest::from", httpRequest r => .ok (some (.id r.connection.fromId))
  | "HttpRequest::to", httpRequest r => .ok (some (.id r.connection.toId))
  | "HttpRequest::from_to", httpRequest r => .ok (some r.connection.fromTo)
  | "HttpRequest::method", httpRequest r => .ok (some (.str r.method.display))
  | "HttpRequest::version", httpRequest r => .ok (some (.str r.version.display))
  | "HttpRequest::path", httpRequest r => .ok (some (.str r.path))
  | "HttpRequest::route", httpRequest r => .ok (some r.route)
  | "HttpRequest::query", httpRequest r => .ok (some (.str r.query))
  | "HttpRequest::query_pairs", httpRequest r => .ok (some (r.queryPairsLit pf))
  | "HttpRequest::header_pairs", httpRequest r => .ok (some r.headers.headerPairs)
  | "HttpRequest::headers", httpRequest r => .ok (some r.headers.headers)
  | "HttpResponse::new", int c =>
      .ok (some (.dp (httpResponse { HttpResponse.empty with status := c.toUInt64.toUInt16 })))
  | "HttpResponse::connection", httpResponse r => .ok (some (.connection r.connection))
  | "HttpResponse::from", httpResponse r => .ok (some (.id r.connection.fromId))
  | "HttpResponse::to", httpResponse r => .ok (some (.id r.connection.toId))
  | "HttpResponse::from_to", httpResponse r => .ok (some r.connection.fromTo)
  | "HttpResponse::status", httpResponse r =>
      .ok (some (.int (Int64.ofNat r.status.toNat)))
  | "HttpResponse::version", httpResponse r => .ok (some (.str r.version.display))
  | "HttpResponse::reason", httpResponse r => .ok (some (.ofOption (r.reason.map .str)))
  | "HttpResponse::header_pairs", httpResponse r => .ok (some r.headers.headerPairs)
  | "HttpResponse::headers", httpResponse r => .ok (some r.headers.headers)
  | "IpAddr::octets", ipAddr a => .ok (some a.octetsLit)
  | "ID::labels", id i => .ok (some i.labelsLit)
  | "ID::hosts", id i => .ok (some i.hostsLit)
  | "ID::ips", id i => .ok (some i.ipsLit)
  | "ID::port", id i => .ok (some i.portLit)
  | "Connection::from_to", connection c => .ok (some c.fromTo)
  | "Connection::from", connection c => .ok (some (.id c.fromId))
  | "Connection::to", connection c => .ok (some (.id c.toId))
  | "Connection::number", connection c => .ok (some (.int c.number))
  | "Label::parts", label l =>
      .ok (some (.ofOption (l.parts.map (fun ps => .list (ps.map .str)))))
  | "IpAddr::reverse_lookup", ipAddr a => .ok (some (.ofOption ((pf.lookupAddr a).map .str)))
  | "IpAddr::lookup", str s =>
      .ok (some (.ofOption ((pf.lookupHost s).map (fun as => .list (as.filterMap fun a =>
        match a with
        | .v4 v => some (.ipAddr (.v4 v))
        | .v6 _ => none)))))
  | _, _ => .ok none

/-- `eval_call2`. -/
def evalCall2 (pf : Platform) (self : DPFlatLiteral) (f : String) (other : DPFlatLiteral) :
    Checked (Option DPLiteral) :=
  match f, self, other with
  | "i64::pow", int i, int j => do
      let n := j.toUInt64.toUInt32.toNat
      return some (.int (← pf.i64 (i.toInt ^ n) "attempt to multiply with overflow"))
  | "i64::min", int i, int j => .ok (some (.int (if i ≤ j then i else j)))
  | "i64::max", int i, int j => .ok (some (.int (if i ≤ j then j else i)))
  | "str::starts_with", str i, str j => .ok (some (.bool (Text.startsWith i j)))
  | "str::ends_with", str i, str j => .ok (some (.bool (Text.endsWith i j)))
  | "str::is_match", str s, regex r => .ok (some (.bool (pf.regexIsMatch r.pat s)))
  | "regex::is_match", regex r, str s => .ok (some (.bool (pf.regexIsMatch r.pat s)))
  | "str::contains", str i, str j => .ok (some (.bool (Text.contains i j)))
  | "HttpRequest::set_path", httpRequest r, str q =>
      .ok (some (.dp (httpRequest { r with path := q })))
  | "HttpRequest::set_query", httpRequest r, str q =>
      .ok (some (.dp (httpRequest { r with query := q })))
  | "HttpRequest::header", httpRequest r, str h => .ok (some (r.headers.header h))
  | "HttpRequest::unique_header", httpRequest r, str h =>
      .ok (some (r.headers.uniqueHeader h))
  | "HttpRequest::set_connection", httpRequest r, connection c =>
      .ok (some (.dp (httpRequest { r with connection := c })))
  | "HttpRequest::set_from", httpRequest r, id i =>
      .ok (some (.dp (httpRequest { r with connection := { r.connection with fromId := i } })))
  | "HttpRequest::set_to", httpRequest r, id i =>
      .ok (some (.dp (httpRequest { r with connection := { r.connection with toId := i } })))
  | "HttpResponse::header", httpResponse r, str h => .ok (some (r.headers.header h))
  | "HttpResponse::unique_header", httpResponse r, str h =>
      .ok (some (r.headers.uniqueHeader h))
  | "HttpResponse::set_reason", httpResponse r, str q =>
      .ok (some (.dp (httpResponse { r with reason := some q })))
  | "HttpResponse::set_connection", httpResponse r, connection c =>
      .ok (some (.dp (httpResponse { r with connection := c })))
  | "HttpResponse::set_from", httpResponse r, id i =>
      .ok (some (.dp (httpResponse { r with connection := { r.connection with fromId := i } })))
  | "HttpResponse::set_to", httpResponse r, id i =>
      .ok (some (.dp (httpResponse { r with connection := { r.connection with toId := i } })))
  | "ID::find_label", id i, label l => .ok (some (.ofOption ((i.findLabel l).map .label)))
  | "ID::has_label", id i, label l => .ok (some (.bool (i.hasLabel l)))
  | "ID::add_label", id i, label l => .ok (some (.id (i.addLabel l)))
  | "ID::has_host", id i, str h => .ok (some (.bool (i.hasHost h)))
  | "ID::add_host", id i, str h => .ok (some (.id (i.addHost h)))
  | "ID::has_ip", id i, ipAddr a => .ok (some (.bool (i.hasIp a)))
  | "ID::add_ip", id i, ipAddr a => .ok (some (.id (i.addIp a)))
  | "ID::set_port", id i, int q => .ok (some (.id (i.setPort q.toUInt64.toUInt16)))
  | "Connection::set_from", connection c, id i =>
      .ok (some (.connection { c with fromId := i }))
  | "Connection::set_to", connection c, id i => .ok (some (.connection { c with toId := i }))
  | "Connection::set_number", connection c, int n =>
      .ok (some (.connection { c with number := n }))
  | "Label::captures", label i, label j =>
      .ok (some (.ofOption ((i.matchWith j).map Label.Match.lit)))
  | "Label::concat", label i, label j => .ok (some (.label (Label.concat i j)))
  | "Label::is_match", label i, label j => .ok (some (.bool (i.matchesWith j)))
  | _, _, _ => .ok none

/-- `eval_call3`. -/
def evalCall3 (self : DPFlatLiteral) (f : String) (l1 l2 : DPFlatLiteral) :
    Option DPLiteral :=
  match f, self, l1, l2 with
  | "HttpRequest::set_header", httpRequest r, str h, data v =>
      some (.dp (httpRequest { r with headers := r.headers.setHeader h v }))
  | "HttpResponse::set_header", httpResponse r, str h, data v =>
      some (.dp (httpResponse { r with headers := r.headers.setHeader h v }))
  | "Connection::new", id i, id j, int n => some (.connection ⟨i, j, n⟩)
  | _, _, _, _ => none

/-- `eval_call4`. -/
def evalCall4 (self : DPFlatLiteral) (f : String) (l1 l2 l3 : DPFlatLiteral) :
    Option DPLiteral :=
  match f, self, l1, l2, l3 with
  | "IpAddr::from", int a, int b, int c, int d =>
      let u8 (i : Int64) : UInt8 := i.toUInt64.toUInt8
      some (.ipAddr (.ofOctets (u8 a) (u8 b) (u8 c) (u8 d)))
  | _, _, _, _, _ => none

end DPFlatLiteral

/-- `TInterpret` for the flat literals of a plane. -/
class TInterpret (FL : Type) where
  evalPrefix : Platform → FL → Prefix → Checked (Option (Literal FL))
  evalInfix : Platform → FL → Infix → FL → Checked (Option (Literal FL))
  evalCall0 : Platform → String → Option (Literal FL)
  evalCall1 : Platform → FL → String → Checked (Option (Literal FL))
  evalCall2 : Platform → FL → String → FL → Checked (Option (Literal FL))
  evalCall3 : FL → String → FL → FL → Option (Literal FL)
  evalCall4 : FL → String → FL → FL → FL → Option (Literal FL)

instance : TInterpret DPFlatLiteral where
  evalPrefix := DPFlatLiteral.evalPrefix
  evalInfix := DPFlatLiteral.evalInfix
  evalCall0 := DPFlatLiteral.evalCall0
  evalCall1 := DPFlatLiteral.evalCall1
  evalCall2 := DPFlatLiteral.evalCall2
  evalCall3 := DPFlatLiteral.evalCall3
  evalCall4 := DPFlatLiteral.evalCall4

namespace Literal

variable {FT FL : Type} [TFlatTyp FT] [TFlatLiteral FT FL] [TInterpret FL]

def evalPrefix (pf : Platform) (p : Prefix) : Literal FL → Checked (Option (Literal FL))
  | flat fl => TInterpret.evalPrefix pf fl p
  | _ => .ok .none

def evalInfix (pf : Platform) (op : Infix) (l1 l2 : Literal FL) :
    Checked (Option (Literal FL)) :=
  match op, l1, l2 with
  | op, flat a, flat b => TInterpret.evalInfix pf a op b
  | .concat, list i, list j => .ok (.some (list (i ++ j)))
  | .isIn, l, list ls => .ok (.some (bool (VecSet.contains ls l)))
  | _, _, _ => .ok .none

def evalCall1 (pf : Platform) (f : String) (l : Literal FL) : Checked (Option (Literal FL)) :=
  match f, l with
  | f, flat fl => TInterpret.evalCall1 pf fl f
  | "option::is_none", tuple t => .ok (.some (bool t.isEmpty))
  | "option::is_some", tuple t => .ok (.some (bool (t.length = 1)))
  | "list::len", list l => .ok (.some (int (Int64.ofNat l.length)))
  | "list::reduce", list l =>
      match l with
      | [] => .ok (.some none)
      | v :: _ => .ok (.some (if l.all (fun w => v == w) then some v else none))
  | f, tuple t => .ok ((Text.parseUsize f).bind (fun i => t[i]?))
  | _, _ => .ok .none

def evalCall2 (pf : Platform) (f : String) (l1 l2 : Literal FL) :
    Checked (Option (Literal FL)) :=
  match f, l1, l2 with
  | f, flat a, flat b => TInterpret.evalCall2 pf a f b
  | "list::is_subset", list i, list j => .ok (.some (bool (VecSet.isSubset i j)))
  | "list::is_disjoint", list i, list j => .ok (.some (bool (VecSet.isDisjoint i j)))
  | "list::difference", list i, list j => .ok (.some (list (VecSet.difference i j)))
  | "list::intersection", list i, list j => .ok (.some (list (VecSet.intersection i j)))
  | _, _, _ => .ok .none

def evalCall3 (f : String) : Literal FL → Literal FL → Literal FL → Option (Literal FL)
  | flat a, flat b, flat c => TInterpret.evalCall3 a f b c
  | _, _, _ => .none

def evalCall4 (f : String) :
    Literal FL → Literal FL → Literal FL → Literal FL → Option (Literal FL)
  | flat a, flat b, flat c, flat d => TInterpret.evalCall4 a f b c d
  | _, _, _, _ => .none

/-- `perform_match` on a literal: `none` for a literal that the pattern is not for,
`some none` for a failed match, else the captures. -/
def performMatch (pf : Platform) (pat : Pattern) (l : Literal FL) :
    Checked (Option (Option (List (String × Literal FL)))) :=
  match pat with
  | .label p => .ok (l.getLabel?.map (fun l =>
      (p.matchWith l).map (fun m => (Label.Match.pairs m).map (fun q => (q.1, .str q.2)))))
  | .regex re =>
      match l.getStr? with
      | .none => .ok .none
      | .some s =>
          if re.pat.captureNames.isEmpty then
            .ok (.some (if pf.regexIsMatch re.pat s then .some [] else .none))
          else match pf.regexCaptures re.pat s with
            | .none => .ok (.some .none)
            | .some cap => do return .some (← collect cap re.pat.captureNames)
where
  /-- The captures of the named groups, in order; a later group of a name replaces an
  earlier one.  `none` when a capture cannot be read as it should. -/
  collect (cap : String → Option String) :
      List String → Checked (Option (List (String × Literal FL)))
    | [] => .ok (.some [])
    | name :: rest =>
        match cap name with
        | .none => .error "called `Option::unwrap()` on a `None` value"
        | .some s =>
            let value : Option (Literal FL) := match (Pat.stripAs name).2 with
              | .i64 => (Text.parseI64 s).map .int
              | .base64 => (pf.base64Decode s).map .data
              | .str => .some (.str s)
            match value with
            | .none => .ok .none
            | .some v => do
                return (← collect cap rest).map (((Pat.stripAs name).1, v) :: ·)

end Literal

end Armour.Lang
