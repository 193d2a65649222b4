import Armour.Proxy.Policy

/-! # The HTTP proxy

`http_proxy.rs` and the handlers of `http_policy.rs` in `armour-proxy/src`.  The handling of
one request is an `Exchange`.  It waits in turn for the policy actor, the client and the
server, and an event of an exchange is the end of such a wait.
-/

namespace Armour.Proxy

open Armour.Lib Armour.Lang

/-! ## Headers -/

/-- Header names are in lower case; a name can have several values. -/
abbrev HeaderMap := List (String × Bytes)

namespace HeaderMap

def values (h : HeaderMap) (name : String) : List Bytes :=
  (h.filter (fun p => p.1 = name)).map Prod.snd

def remove (h : HeaderMap) (name : String) : HeaderMap := h.filter (fun p => p.1 ≠ name)

/-- `insert`: the value replaces those that the name has. -/
def insert (h : HeaderMap) (name : String) (v : Bytes) : HeaderMap := h.remove name ++ [(name, v)]

def append (h : HeaderMap) (name : String) (v : Bytes) : HeaderMap := h ++ [(name, v)]

@[simp] theorem values_remove (h : HeaderMap) (name : String) :
    (h.remove name).values name = [] := by
  simp [values, remove, List.filter_filter]

@[simp] theorem values_insert (h : HeaderMap) (name : String) (v : Bytes) :
    (h.insert name v).values name = [v] := by
  simp [insert, values, remove, List.filter_filter]

end HeaderMap

/-- `HeaderValue::to_str`. -/
def headerToStr (v : Bytes) : Option String :=
  if v.all (fun b => 32 ≤ b && b < 127 || b = 9) then
    some (String.ofList (v.map (fun b => Char.ofNat b.toNat)))
  else none

/-- `HeaderValue::from_str`. -/
def headerFromStr (s : String) : Option Bytes :=
  let v := s.toUTF8.toList
  if v.all (fun b => 32 ≤ b && b ≠ 127 || b = 9) then some v else none

def X_ARMOUR : String := "x-armour"

/-- `get_x_armour`. -/
def getXArmour (h : HeaderMap) : Option String := (h.values X_ARMOUR).head?.bind headerToStr

/-! ## Requests and responses -/

/-- The request of a client. -/
structure Incoming where
  method : String
  version : String
  path : String
  query : String
  headers : HeaderMap
  peerAddr : Option String

/-- The request that is sent to the server. -/
structure ClientRequest where
  method : String
  uri : String
  headers : HeaderMap
  timeout : UInt8
  payload : Bytes

/-- The response of the server, without its body. -/
structure ServerResponse where
  status : UInt16
  headers : HeaderMap

/-- What the client is answered: the server's response, or an error response of the proxy. -/
inductive Reply where
  | response (status : UInt16) (headers : HeaderMap) (body : Bytes)
  | error (status : UInt16) (body : String)

def internal : Reply := .error 500 "Armour internal error"

def unauthorized (message : String) : Reply := .error 401 message

/-- `HttpMethod::from_str`, with the default. -/
def parseMethod : String → Method
  | "POST" => .POST
  | "PUT" => .PUT
  | "DELETE" => .DELETE
  | "HEAD" => .HEAD
  | "OPTIONS" => .OPTIONS
  | "CONNECT" => .CONNECT
  | "PATCH" => .PATCH
  | "TRACE" => .TRACE
  | _ => .GET

/-- `Version::from_str`, with the default. -/
def parseVersion : String → Version
  | "HTTP/0.9" | "HTTP_09" => .HTTP_09
  | "HTTP/1.0" | "HTTP_10" => .HTTP_10
  | "HTTP/2.0" | "HTTP_20" => .HTTP_20
  | _ => .HTTP_11

/-- `Headers::from`. -/
def headersFrom (h : HeaderMap) : HttpHeaders :=
  h.foldl (fun hs p => hs.setHeader p.1 p.2) ∅

/-- `to_expression` of a request. -/
def Incoming.toExpression (req : Incoming) (connection : Connection) : DPLiteral :=
  .flat (.httpRequest ⟨parseMethod req.method, parseVersion req.version, req.path, req.query,
    headersFrom req.headers, connection⟩)

/-- The headers that `response_builder` keeps. -/
def responseBuilder (res : ServerResponse) : HeaderMap :=
  res.headers.filter (fun p => p.1 ≠ "connection" && p.1 ≠ "content-length"
    && p.1 ≠ "content-encoding" && p.1 ≠ X_ARMOUR)

/-- `to_expression` of the response that `response_builder` makes. -/
def ServerResponse.toExpression (res : ServerResponse) (connection : Connection) : DPLiteral :=
  .flat (.httpResponse
    ⟨.HTTP_11, res.status, headersFrom (responseBuilder res), none, connection⟩)

/-- `request_from`: one value for each header of the client. -/
def requestFrom (h : HeaderMap) : HeaderMap :=
  h.foldl (fun hs p => if (hs.values p.1).isEmpty then hs.append p.1 p.2 else hs) []

/-- The `Host` and `X-Forwarded-Host` headers. -/
def forwardHosts (req : Incoming) (headers : HeaderMap) : HeaderMap :=
  match req.headers.values "x-forwarded-host" with
  | [] => headers
  | host :: hosts =>
      hosts.foldl (fun h v => h.append "x-forwarded-host" v)
        ((headers.insert "host" host).remove "x-forwarded-host")

/-- The `X-Forwarded-For` header. -/
def forwardFor (req : Incoming) (headers : HeaderMap) : HeaderMap :=
  match req.peerAddr.bind headerFromStr with
  | some addr => headers.insert "x-forwarded-for" addr
  | none => headers

/-- `build_request`. -/
def buildRequest (uri : String) (req : Incoming) (metadata : Option String) (timeout : UInt8)
    (payload : Bytes) : ClientRequest :=
  let headers := forwardFor req (forwardHosts req (requestFrom req.headers))
  let headers := match metadata.bind headerFromStr with
    | some v => headers.insert X_ARMOUR v
    | none => headers.remove X_ARMOUR
  ⟨req.method, uri, headers, timeout, payload⟩

/-- The response to the client, from that of the server; metadata that is not a header value
makes an error response. -/
def buildResponse (res : ServerResponse) (metadata : Option String) (body : Bytes) : Reply :=
  match metadata with
  | none => .response res.status (responseBuilder res) body
  | some m => match headerFromStr m with
    | some v => .response res.status ((responseBuilder res).append X_ARMOUR v) body
    | none => .error 500 "failed to parse header value"

/-- The values of the `X-Armour` header for some metadata. -/
def xArmourValues (metadata : Option String) : List Bytes :=
  (metadata.bind headerFromStr).toList

theorem buildRequest_xArmour (uri : String) (req : Incoming) (metadata : Option String)
    (timeout : UInt8) (payload : Bytes) :
    (buildRequest uri req metadata timeout payload).headers.values X_ARMOUR =
      xArmourValues metadata := by
  unfold buildRequest xArmourValues
  cases metadata.bind headerFromStr with
  | none => exact HeaderMap.values_remove _ _
  | some v => exact HeaderMap.values_insert _ _ v

theorem responseBuilder_xArmour (res : ServerResponse) :
    HeaderMap.values (responseBuilder res) X_ARMOUR = [] := by
  simp only [HeaderMap.values, responseBuilder, List.filter_filter, List.map_eq_nil_iff,
    List.filter_eq_nil_iff]
  intro p _
  by_cases h : p.1 = X_ARMOUR <;> simp [h]

theorem buildResponse_xArmour {res : ServerResponse} {metadata : Option String}
    {body body' : Bytes} {status : UInt16} {headers : HeaderMap}
    (h : buildResponse res metadata body = .response status headers body') :
    headers.values X_ARMOUR = xArmourValues metadata ∧ status = res.status ∧ body' = body := by
  have hres := responseBuilder_xArmour res
  cases metadata with
  | none =>
      cases h
      exact ⟨hres, rfl, rfl⟩
  | some m =>
      cases hm : headerFromStr m with
      | none =>
          simp only [buildResponse, hm] at h
          cases h
      | some v =>
          simp only [buildResponse, hm] at h
          cases h
          refine ⟨?_, rfl, rfl⟩
          show HeaderMap.values (responseBuilder res ++ [(X_ARMOUR, v)]) X_ARMOUR = _
          rw [HeaderMap.values, List.filter_append, List.map_append]
          show HeaderMap.values (responseBuilder res) X_ARMOUR ++ _ = _
          rw [hres]
          simp [xArmourValues, hm]

/-! ## Messages to the policy actor -/

/-- `HttpPolicyResponse`. -/
structure HttpPolicyResponse where
  status : PolicyStatus
  connection : Connection

inductive HttpFn where
  | Request | Response
deriving DecidableEq, Repr

namespace HttpFn

def function : HttpFn → String
  | Request => allowRestRequest
  | Response => allowRestResponse

def status : HttpFn → PolicyStatus → FnPolicy
  | Request, s => s.request
  | Response, s => s.response

end HttpFn

namespace PolicyActor

/-- The handler of `GetHttpPolicy`. -/
def getHttpPolicy (a : PolicyActor) (ends : ID × ID) : PolicyActor × HttpPolicyResponse :=
  let status := a.http.status
  if status.allowAll then (a, ⟨status, .empty⟩)
  else
    let (a, connection) := a.connection ends
    (a, ⟨status, connection⟩)

/-- The handler of `EvalHttpFn`. -/
def evalHttpFn (a : PolicyActor) (o : Outside) (fn : HttpFn) (args : List DPLiteral)
    (xArmour : Option String) : Option (Except DPError (Bool × Option String)) :=
  let ingress := xArmour.bind a.decryptMeta
  (evaluate tryBool o a.http.policy fn.function args (.new ingress a.label)).map
    (Except.map (fun r => (r.1, a.encryptMeta o.now r.2)))

end PolicyActor

/-! ## One exchange -/

/-- The arguments for an argument count; the count is one that the proxy does not expect when
there are none. -/
def argList (count : UInt8) (subject : DPLiteral) (payload : Bytes) : Option (List DPLiteral) :=
  match count with
  | 0 => some []
  | 1 => some [subject]
  | 2 => some [subject, .data payload]
  | _ => none

/-- What the exchange waits for. -/
inductive Phase where
  /-- The answer to `GetHttpPolicy`. -/
  | connecting
  /-- The payload of the request. -/
  | reading (p : HttpPolicyResponse)
  /-- The evaluation of the request function. -/
  | requesting (p : HttpPolicyResponse) (payload : Bytes) (args : List DPLiteral)
  /-- The response of the server. -/
  | forwarding (p : HttpPolicyResponse)
  /-- The body of the response. -/
  | receiving (p : HttpPolicyResponse) (res : ServerResponse)
  /-- The evaluation of the response function. -/
  | responding (p : HttpPolicyResponse) (res : ServerResponse) (body : Bytes)
      (args : List DPLiteral)
  /-- Nothing: the client was answered. -/
  | answered (r : Reply)
  /-- Nothing: an argument count that was not expected. -/
  | unreachable

/-- A decision on a request or a response: `args` are those of the evaluation, if the status
did not decide. -/
structure Decision where
  fn : HttpFn
  subject : DPLiteral
  payload : Bytes
  args : Option (List DPLiteral)
  ingress : Option String
  answer : Except DPError (Bool × Option String)

/-- `decisions`, `forwarded` and `server` record what the exchange has done. -/
structure Exchange where
  req : Incoming
  uri : String
  phase : Phase
  decisions : List Decision
  forwarded : Option ClientRequest
  server : Option ServerResponse

/-- The end of a wait. -/
inductive HttpEvent where
  /-- `GetHttpPolicy` is handled; `ends` are the identities of the two ends. -/
  | policy (ends : ID × ID)
  /-- The payload of the client is read; an error is answered with a response of its own. -/
  | payload (r : Except (UInt16 × String) Bytes)
  /-- `EvalHttpFn` is handled. -/
  | evaluated (o : Outside)
  /-- The server responds. -/
  | response (r : Except (UInt16 × String) ServerResponse)
  /-- The body of the response is read. -/
  | body (r : Except (UInt16 × String) Bytes)
  /-- The policy actor does not answer. -/
  | mailboxError

namespace Exchange

/-- `request`, up to the first message: without a forwarding URI the client is answered. -/
def start (req : Incoming) (uri : Option String) : Exchange :=
  match uri with
  | some uri => ⟨req, uri, .connecting, [], none, none⟩
  | none => ⟨req, "", .answered internal, [], none, none⟩

def reply (x : Exchange) (r : Reply) : Exchange := { x with phase := .answered r }

def decide (x : Exchange) (d : Decision) : Exchange := { x with decisions := x.decisions ++ [d] }

/-- The decision of the status on a request. -/
def statusRequest (x : Exchange) (p : HttpPolicyResponse) (payload : Bytes) (b : Bool) : Decision :=
  ⟨.Request, x.req.toExpression p.connection, payload, none, getXArmour x.req.headers,
    .ok (b, none)⟩

def statusResponse (p : HttpPolicyResponse) (res : ServerResponse) (body : Bytes) (b : Bool) :
    Decision :=
  ⟨.Response, res.toExpression p.connection, body, none, getXArmour res.headers, .ok (b, none)⟩

/-- Forward the request, with the original payload. -/
def forward (x : Exchange) (p : HttpPolicyResponse) (payload : Bytes) (metadata : Option String) :
    Exchange :=
  { x with
    phase := .forwarding p
    forwarded := some (buildRequest x.uri x.req metadata p.status.timeout payload) }

/-- The answer to `GetHttpPolicy`: a denied request is not read. -/
def onPolicy (x : Exchange) (p : HttpPolicyResponse) : Exchange :=
  match p.status.request with
  | .Deny => (x.decide (x.statusRequest p [] false)).reply (unauthorized "request denied")
  | _ => { x with phase := .reading p }

def onPayload (x : Exchange) (p : HttpPolicyResponse) (payload : Bytes) : Exchange :=
  match p.status.request with
  | .Args count =>
      match argList count (x.req.toExpression p.connection) payload with
      | some args => { x with phase := .requesting p payload args }
      | none => { x with phase := .unreachable }
  | .Allow => (x.decide (x.statusRequest p payload true)).forward p payload none
  | .Deny => x

/-- The answer to `EvalHttpFn` on the request. -/
def onRequest (x : Exchange) (p : HttpPolicyResponse) (payload : Bytes) (args : List DPLiteral)
    (answer : Except DPError (Bool × Option String)) : Exchange :=
  let x := x.decide ⟨.Request, x.req.toExpression p.connection, payload, some args,
    getXArmour x.req.headers, answer⟩
  match answer with
  | .ok (true, metadata) => x.forward p payload metadata
  | .ok (false, _) => x.reply (unauthorized "bad client request")
  | .error _ => x.reply internal

/-- `response`, up to the body: a denied response is not read. -/
def onResponse (x : Exchange) (p : HttpPolicyResponse) :
    Except (UInt16 × String) ServerResponse → Exchange
  | .ok res =>
      let x := { x with server := some res }
      match p.status.response with
      | .Deny => (x.decide (statusResponse p res [] false)).reply
          (unauthorized "request denied (bad server response)")
      | _ => { x with phase := .receiving p res }
  | .error (status, text) => x.reply (.error status text)

def onBody (x : Exchange) (p : HttpPolicyResponse) (res : ServerResponse) (body : Bytes) :
    Exchange :=
  match p.status.response with
  | .Args count =>
      match argList count (res.toExpression p.connection) body with
      | some args => { x with phase := .responding p res body args }
      | none => { x with phase := .unreachable }
  | .Allow => (x.decide (statusResponse p res body true)).reply (buildResponse res none body)
  | .Deny => x

/-- The answer to `EvalHttpFn` on the response. -/
def onResponseAnswer (x : Exchange) (p : HttpPolicyResponse) (res : ServerResponse) (body : Bytes)
    (args : List DPLiteral) (answer : Except DPError (Bool × Option String)) : Exchange :=
  let x := x.decide ⟨.Response, res.toExpression p.connection, body, some args,
    getXArmour res.headers, answer⟩
  match answer with
  | .ok (true, metadata) => x.reply (buildResponse res metadata body)
  | .ok (false, _) => x.reply (unauthorized "request denied (bad server response)")
  | .error _ => x.reply internal

/-- The steps of `request` and `response`. -/
def step (a : PolicyActor) (x : Exchange) : HttpEvent → Option (PolicyActor × Exchange)
  | .policy ends =>
      match x.phase with
      | .connecting =>
          let (a, p) := a.getHttpPolicy ends
          some (a, x.onPolicy p)
      | _ => none
  | .payload r =>
      match x.phase, r with
      | .reading p, .ok payload => some (a, x.onPayload p payload)
      | .reading _, .error (status, text) => some (a, x.reply (.error status text))
      | _, _ => none
  | .evaluated o =>
      match x.phase with
      | .requesting p payload args =>
          (a.evalHttpFn o .Request args (getXArmour x.req.headers)).map
            (fun answer => (a, x.onRequest p payload args answer))
      | .responding p res body args =>
          (a.evalHttpFn o .Response args (getXArmour res.headers)).map
            (fun answer => (a, x.onResponseAnswer p res body args answer))
      | _ => none
  | .response r =>
      match x.phase with
      | .forwarding p => some (a, x.onResponse p r)
      | _ => none
  | .body r =>
      match x.phase, r with
      | .receiving p res, .ok body => some (a, x.onBody p res body)
      | .receiving _ _, .error (status, text) => some (a, x.reply (.error status text))
      | _, _ => none
  | .mailboxError =>
      match x.phase with
      | .connecting | .requesting _ _ _ | .responding _ _ _ _ => some (a, x.reply internal)
      | _ => none

end Exchange

end Armour.Proxy
