import Armour.Lang.Types
import Armour.Lib.Text

/-! # Headers

`armour-lang/src/headers.rs`: the signatures of the built-in functions and of the
internal services (`Ingress`, `Egress`), and how a name is resolved.  The tables of the
source are listed in its order.
-/

namespace Armour.Lang

open Armour.Lib

/-- Headers of a program: signatures by function name. -/
abbrev Headers (FT : Type) := BTreeMap String (Signature FT)

namespace FlatTyp

/-- The local `sig` of the data-plane tables. -/
private def sig (args : List FlatTyp) (t : FlatTyp) : DPSignature :=
  .new (args.map Typ.flatTyp) (.flatTyp t)

def builtinsTable : List (String × DPSignature) :=
  [("option::Some", sig [.rreturn] .rreturn),
   ("i64::abs", sig [.i64] .i64),
   ("i64::to_str", sig [.i64] .str),
   ("str::len", sig [.str] .i64),
   ("str::to_lowercase", sig [.str] .str),
   ("str::to_uppercase", sig [.str] .str),
   ("str::trim_start", sig [.str] .str),
   ("str::trim_end", sig [.str] .str),
   ("str::as_bytes", sig [.str] .data),
   ("str::from_utf8", sig [.data] .str),
   ("str::to_base64", sig [.str] .str),
   ("str::is_match", sig [.str, .regex] .bool),
   ("regex::is_match", sig [.regex, .str] .bool),
   ("data::to_base64", sig [.data] .str),
   ("data::len", sig [.data] .i64),
   ("i64::pow", sig [.i64, .i64] .i64),
   ("i64::min", sig [.i64, .i64] .i64),
   ("i64::max", sig [.i64, .i64] .i64),
   ("str::starts_with", sig [.str, .str] .bool),
   ("str::ends_with", sig [.str, .str] .bool),
   ("str::contains", sig [.str, .str] .bool),
   ("HttpRequest::GET", sig [] .httpRequest),
   ("HttpRequest::POST", sig [] .httpRequest),
   ("HttpRequest::PUT", sig [] .httpRequest),
   ("HttpRequest::DELETE", sig [] .httpRequest),
   ("HttpRequest::HEAD", sig [] .httpRequest),
   ("HttpRequest::OPTIONS", sig [] .httpRequest),
   ("HttpRequest::CONNECT", sig [] .httpRequest),
   ("HttpRequest::PATCH", sig [] .httpRequest),
   ("HttpRequest::TRACE", sig [] .httpRequest),
   ("HttpRequest::connection", sig [.httpRequest] .connection),
   ("HttpRequest::from", sig [.httpRequest] .id),
   ("HttpRequest::to", sig [.httpRequest] .id),
   ("HttpRequest::set_from", sig [.httpRequest, .id] .httpRequest),
   ("HttpRequest::set_to", sig [.httpRequest, .id] .httpRequest),
   ("HttpRequest::method", sig [.httpRequest] .str),
   ("HttpRequest::version", sig [.httpRequest] .str),
   ("HttpRequest::path", sig [.httpRequest] .str),
   ("HttpRequest::query", sig [.httpRequest] .str),
   ("HttpRequest::set_path", sig [.httpRequest, .str] .httpRequest),
   ("HttpRequest::set_query", sig [.httpRequest, .str] .httpRequest),
   ("HttpRequest::set_header", sig [.httpRequest, .str, .data] .httpRequest),
   ("HttpRequest::set_connection", sig [.httpRequest, .connection] .httpRequest),
   ("HttpResponse::new", sig [.i64] .httpResponse),
   ("HttpResponse::connection", sig [.httpResponse] .connection),
   ("HttpResponse::from", sig [.httpResponse] .id),
   ("HttpResponse::to", sig [.httpResponse] .id),
   ("HttpResponse::set_from", sig [.httpResponse, .id] .httpResponse),
   ("HttpResponse::set_to", sig [.httpResponse, .id] .httpResponse),
   ("HttpResponse::status", sig [.httpResponse] .i64),
   ("HttpResponse::version", sig [.httpResponse] .str),
   ("HttpResponse::set_reason", sig [.httpResponse, .str] .httpResponse),
   ("HttpResponse::set_header", sig [.httpResponse, .str, .data] .httpResponse),
   ("HttpResponse::set_connection", sig [.httpResponse, .connection] .httpResponse),
   ("IpAddr::localhost", sig [] .ipAddr),
   ("IpAddr::from", sig [.i64, .i64, .i64, .i64] .ipAddr),
   ("ID::default", sig [] .id),
   ("ID::add_label", sig [.id, .label] .id),
   ("ID::add_host", sig [.id, .str] .id),
   ("ID::add_ip", sig [.id, .ipAddr] .id),
   ("ID::set_port", sig [.id, .i64] .id),
   ("ID::has_label", sig [.id, .label] .bool),
   ("ID::has_host", sig [.id, .str] .bool),
   ("ID::has_ip", sig [.id, .ipAddr] .bool),
   ("Connection::default", sig [] .connection),
   ("Connection::new", sig [.id, .id, .i64] .connection),
   ("Connection::from", sig [.connection] .id),
   ("Connection::to", sig [.connection] .id),
   ("Connection::number", sig [.connection] .i64),
   ("Connection::set_from", sig [.connection, .id] .connection),
   ("Connection::set_to", sig [.connection, .id] .connection),
   ("Connection::set_number", sig [.connection, .i64] .connection),
   ("Label::is_match", sig [.label, .label] .bool),
   ("System::getCurrentTime", sig [] .i64)]

def internalServiceTable : List (String × DPSignature) :=
  [("Ingress::has_label", sig [.label] .bool),
   ("Egress::set_id", sig [] .unit),
   ("Egress::has_label", sig [.label] .bool),
   ("Egress::push", sig [.data] .unit),
   ("Egress::add_label", sig [.label] .unit),
   ("Egress::remove_label", sig [.label] .unit),
   ("Egress::wipe", sig [] .unit)]

end FlatTyp

instance : TFlatTyp FlatTyp where
  decEq := inferInstance
  dp := id
  dp_injective := id
  display := FlatTyp.display
  tryFromStr := FlatTyp.tryFromStr
  builtins f := FlatTyp.builtinsTable.lookup f
  internalService f := FlatTyp.internalServiceTable.lookup f

namespace CPFlatTyp

/-- A data-plane flat type as a type of the control plane. -/
def ofDP (t : FlatTyp) : CPTyp := .flatTyp (.dp t)

/-- The built-ins that only the control plane has. -/
def builtinsTable : List (String × CPSignature) :=
  [("allow_egress", .new [] (.flatTyp .policy)),
   ("allow_ingress", .new [] (.flatTyp .policy)),
   ("Primitive::allow_rest_request", .new [] (.flatTyp .primitive)),
   ("Primitive::allow_rest_response", .new [] (.flatTyp .primitive)),
   ("Primitive::allow_tcp_connection", .new [] (.flatTyp .primitive)),
   ("compile_egress", .new [.flatTyp .primitive, ofDP .id] (.flatTyp .policy)),
   ("compile_ingress", .new [.flatTyp .primitive, ofDP .id] (.flatTyp .policy)),
   ("deny_egress", .new [] (.flatTyp .policy)),
   ("deny_ingress", .new [] (.flatTyp .policy)),
   ("Primitive::on_tcp_disconnect", .new [] (.flatTyp .primitive)),
   ("ControlPlane::onboard", .new [ofDP .id] (ofDP .bool)),
   ("ControlPlane::onboarded", .new [.flatTyp .onboardingData] (.option (ofDP .id))),
   ("ControlPlane::newID", .new [.flatTyp .onboardingData] (ofDP .id)),
   ("ControlPlane::verify_credentials", .new [.flatTyp .onboardingData, ofDP .label] (ofDP .bool)),
   ("Label::new", .new [ofDP .str] (ofDP .label)),
   ("Label::login_time", .new [ofDP .i64] (ofDP .label)),
   ("OnboardingData::proposed_labels", .new [.flatTyp .onboardingData] (.list (ofDP .label))),
   ("OnboardingData::has_proposed_label", .new [.flatTyp .onboardingData, ofDP .label] (ofDP .bool)),
   ("OnboardingData::has_ip", .new [.flatTyp .onboardingData, ofDP .ipAddr] (ofDP .bool)),
   ("OnboardingData::host", .new [.flatTyp .onboardingData] (ofDP .label)),
   ("OnboardingData::service", .new [.flatTyp .onboardingData] (ofDP .label)),
   ("OnboardingResult::Ok", .new [ofDP .id, .flatTyp .policy, .flatTyp .policy]
      (.flatTyp .onboardingResult)),
   ("OnboardingResult::Err", .new [ofDP .str, ofDP .id, .flatTyp .policy, .flatTyp .policy]
      (.flatTyp .onboardingResult)),
   ("OnboardingResult::ErrID", .new [ofDP .str, ofDP .id] (.flatTyp .onboardingResult)),
   ("OnboardingResult::ErrStr", .new [ofDP .str] (.flatTyp .onboardingResult))]

end CPFlatTyp

instance : TFlatTyp CPFlatTyp where
  decEq := inferInstance
  dp := .dp
  dp_injective := CPFlatTyp.dp.inj
  display := CPFlatTyp.display
  tryFromStr := CPFlatTyp.tryFromStr
  builtins f := (CPFlatTyp.builtinsTable.lookup f).or
    ((FlatTyp.builtinsTable.lookup f).map (Signature.map .dp))
  internalService f := (FlatTyp.internalServiceTable.lookup f).map (Signature.map .dp)

namespace Typ

variable {FT : Type} [TFlatTyp FT]

/-- The built-ins whose types are not flat, for either plane. -/
def builtinsTable : List (String × Signature FT) :=
  [("option::is_none", .new [anyOption] bool),
   ("option::is_some", .new [anyOption] bool),
   ("list::len", .new [list rreturn] i64),
   ("list::reduce", .new [list rreturn] (option rreturn)),
   ("list::is_subset", .new [list rreturn, list rreturn] bool),
   ("list::is_disjoint", .new [list rreturn, list rreturn] bool),
   ("list::difference", .new [list rreturn, list rreturn] (list rreturn)),
   ("list::intersection", .new [list rreturn, list rreturn] (list rreturn)),
   ("HttpRequest::query_pairs", .new [httpRequest] (list (tuple [str, str]))),
   ("HttpRequest::from_to", .new [httpRequest] (tuple [id, id])),
   ("HttpRequest::header", .new [httpRequest, str] (option (list data))),
   ("HttpRequest::header_pairs", .new [httpRequest] (list (tuple [str, data]))),
   ("HttpResponse::reason", .new [httpResponse] (option str)),
   ("HttpRequest::unique_header", .new [httpRequest, str] (option data)),
   ("HttpResponse::from_to", .new [httpResponse] (tuple [id, id])),
   ("HttpResponse::header", .new [httpResponse, str] (option (list data))),
   ("HttpResponse::headers", .new [httpResponse] (list str)),
   ("HttpResponse::header_pairs", .new [httpResponse] (list (tuple [str, data]))),
   ("HttpResponse::unique_header", .new [httpResponse, str] (option data)),
   ("IpAddr::lookup", .new [str] (option (list ipAddr))),
   ("IpAddr::octets", .new [ipAddr] (tuple [i64, i64, i64, i64])),
   ("ID::find_label", .new [id, label] (option label)),
   ("ID::labels", .new [id] (list label)),
   ("ID::hosts", .new [id] (list str)),
   ("ID::ips", .new [id] (list ipAddr)),
   ("ID::port", .new [id] (option i64)),
   ("Label::captures", .new [label, label] (option (list (tuple [str, str])))),
   ("Label::concat", .new [label, label] label),
   ("Label::parts", .new [label] (option (list str)))]

def internalServiceTable : List (String × Signature FT) :=
  [("Egress::find_label", .new [label] (option label)),
   ("Egress::id", .new [] (option label)),
   ("Egress::data", .new [] (list data)),
   ("Egress::pop", .new [] (option data)),
   ("Ingress::id", .new [] (option label)),
   ("Ingress::data", .new [] (list data)),
   ("Ingress::find_label", .new [label] (option label))]

/-- `Typ::builtins`. -/
def builtins (f : String) : Option (Signature FT) :=
  (builtinsTable.lookup f).or (TFlatTyp.builtins f)

/-- `Typ::internal_service`. -/
def internalService (f : String) : Option (Signature FT) :=
  (internalServiceTable.lookup f).or (TFlatTyp.internalService f)

end Typ

namespace Headers

variable {FT : Type} [TFlatTyp FT]

/-- `add_function`: a second function of a name is an error. -/
def addFunction (h : Headers FT) (name : String) (sig : Signature FT) : Option (Headers FT) :=
  if (BTreeMap.get? h name).isSome then none else some (BTreeMap.insert h name sig)

/-- `typ`: built-ins and internal services take precedence over the program. -/
def typ (h : Headers FT) (name : String) : Option (Signature FT) :=
  (Typ.builtins name).or ((Typ.internalService name).or (BTreeMap.get? h name))

def returnTyp (h : Headers FT) (name : String) : Option (Typ FT) :=
  (h.typ name).map Signature.typ

variable (FT) in
def isBuiltin (name : String) : Bool :=
  (Typ.builtins name : Option (Signature FT)).isSome || (Text.parseUsize name).isSome

variable (FT) in
def isInternal (name : String) : Bool :=
  (Typ.internalService name : Option (Signature FT)).isSome || isBuiltin FT name

/-- `split`: a name of exactly two parts. -/
def split (name : String) : Option (String × String) :=
  match Text.split "::" name with
  | [module, method] => some (module, method)
  | _ => none

/-- `resolve`: the dot method of a value is looked up by the type of the value. -/
def resolve (name : String) (typs : List (Typ FT)) : String :=
  if Text.startsWith name ".::" then
    let rest := Text.trimStartMatches name ".::"
    match typs.head?.bind Typ.intrinsic with
    | some intrinsic =>
        let s := intrinsic ++ "::" ++ rest
        if isBuiltin FT s then s else rest
    | none => rest
  else name

end Headers

end Armour.Lang
