import Armour.Api.Host
import Armour.Lib.Machine

/-! # Listeners of the proxy

The requests of the host to start and to stop the HTTP and the TCP proxy,
`armour-proxy/src/policy.rs`.  A port is bound asynchronously.  Meanwhile the policy actor waits
and leaves the next requests in its mailbox.
-/

namespace Armour.Proxy.Listeners

open Armour.Lib Armour.Lang Armour.Api

/-- The answers of `PolicyResponse`. -/
inductive Response where
  | requestFailed | started | stopped
deriving DecidableEq, Repr

/-- `HttpProxy`, and the `proxy` of `TcpPolicy`: the number of the server, its port and where its
ingress is forwarded to. -/
structure Running where
  server : Nat
  port : UInt16
  ingress : Option SocketAddrV4
deriving DecidableEq, Repr

structure Proxies where
  http : Option Running
  tcp : Option Running
deriving DecidableEq, Repr

namespace Proxies

def get (ps : Proxies) : Protocol → Option Running
  | .HTTP => ps.http
  | .TCP => ps.tcp

def set (ps : Proxies) (p : Option Running) : Protocol → Proxies
  | .HTTP => { ps with http := p }
  | .TCP => { ps with tcp := p }

/-- `Policy::port` -/
def port (ps : Proxies) (protocol : Protocol) : Option UInt16 := (ps.get protocol).map Running.port

theorem get_set (ps : Proxies) (p : Option Running) (a b : Protocol) :
    (ps.set p a).get b = if a = b then p else ps.get b := by
  cases a <;> cases b <;> rfl

end Proxies

/-- What is to be started. -/
structure Start where
  protocol : Protocol
  port : UInt16
  ingress : Option SocketAddrV4

/-- The requests of `PolicyRequest` that are about listening. -/
inductive Request where
  | startHttp (config : HttpConfig)
  | startTcp (port : UInt16)
  | stop (protocol : Protocol)

def Request.toStart : Request → Option Start
  | startHttp config => some ⟨.HTTP, config.portOf, config.ingressOf⟩
  | startTcp port => some ⟨.TCP, port, none⟩
  | stop _ => none

/-- A server that was started.  An HTTP server that is told to stop closes its socket; the
listener of a TCP server is leaked, so that its socket stays open to the end of the process. -/
structure Server where
  protocol : Protocol
  port : UInt16
  told : Bool
deriving DecidableEq, Repr

/-- A request that was handled, with the proxies before and after, and what was answered. -/
structure Served where
  request : Request
  before : Proxies
  responses : List Response
  after : Proxies

/-- A request to start whose port is being bound. -/
structure Waiting where
  request : Request
  start : Start
  before : Proxies

/-- The policy actor and all servers it ever started; `served` is what happened so far. -/
structure State where
  mailbox : List Request
  proxies : Proxies
  servers : List Server
  waiting : Option Waiting
  served : List Served

inductive Event where
  /-- A request of the host. -/
  | receive (request : Request)
  /-- The first request of the mailbox is handled. -/
  | handle
  /-- The port is bound, or not. -/
  | bound (ok : Bool)

/-- The request that is received. -/
def Event.request : Event → Option Request
  | receive request => some request
  | _ => none

namespace State

def init : State := ⟨[], ⟨none, none⟩, [], none, []⟩

/-- `Policy::stop` -/
def stop (s : State) (protocol : Protocol) : State :=
  match s.proxies.get protocol with
  | some p => { s with
      proxies := s.proxies.set none protocol
      servers := s.servers.modify p.server (fun server => { server with told := true }) }
  | none => s

/-- `Policy::start`, of a server that was bound. -/
def start (s : State) (x : Start) : State :=
  { s with
    proxies := s.proxies.set (some ⟨s.servers.length, x.port, x.ingress⟩) x.protocol
    servers := s.servers ++ [⟨x.protocol, x.port, false⟩] }

/-- The handling of a request has ended. -/
def done (s : State) (request : Request) (before : Proxies) (responses : List Response) : State :=
  { s with served := s.served ++ [⟨request, before, responses, s.proxies⟩] }

def wait (s : State) (request : Request) (x : Start) (before : Proxies) : State :=
  { s with waiting := some ⟨request, x, before⟩ }

/-- `PolicyActor::handle`, until the port is to be bound. -/
def handle (s : State) : Request → State
  | .stop protocol =>
      if (s.proxies.port protocol).isNone then
        s.done (.stop protocol) s.proxies [.requestFailed]
      else (s.stop protocol).done (.stop protocol) s.proxies [.stopped]
  | .startHttp config =>
      if s.proxies.port .HTTP = some config.portOf then
        s.done (.startHttp config) s.proxies [.requestFailed]
      else (s.stop .HTTP).wait (.startHttp config) ⟨.HTTP, config.portOf, config.ingressOf⟩ s.proxies
  | .startTcp port =>
      -- the source asks for the port of the HTTP proxy here too
      if s.proxies.port .HTTP = some port then
        s.done (.startTcp port) s.proxies [.requestFailed]
      else (s.stop .TCP).wait (.startTcp port) ⟨.TCP, port, none⟩ s.proxies

/-- What is done when the port is bound; otherwise there is only a warning. -/
def bound (s : State) (w : Waiting) : Bool → State
  | true => ({ s with waiting := none }.start w.start).done w.request w.before [.started]
  | false => { s with waiting := none }.done w.request w.before []

def step (s : State) : Event → Option State
  | .receive request => some { s with mailbox := s.mailbox ++ [request] }
  | .handle =>
      match s.waiting, s.mailbox with
      | none, request :: rest => some ({ s with mailbox := rest }.handle request)
      | _, _ => none
  | .bound ok => s.waiting.map (fun w => s.bound w ok)

/-- The socket of the server with this number is open. -/
def Listening (s : State) (protocol : Protocol) (server : Nat) (port : UInt16) : Prop :=
  ∃ told, s.servers[server]? = some ⟨protocol, port, told⟩ ∧ (told = true → protocol = .TCP)

/-- The recorded proxy of a protocol is the one server whose socket is open. -/
def RecordedOf (s : State) (protocol : Protocol) : Prop :=
  ∀ server port, s.Listening protocol server port ↔
    ∃ ingress, s.proxies.get protocol = some ⟨server, port, ingress⟩

/-- The recorded proxies are the servers that are listening. -/
def Recorded (s : State) : Prop := ∀ protocol, s.RecordedOf protocol

/-- The requests that were received, in order. -/
def received (s : State) : List Request :=
  s.served.map Served.request ++ (s.waiting.map Waiting.request).toList ++ s.mailbox

end State

def machine : Machine State Event := ⟨State.step⟩

/-! ## What is right -/

/-- There is one answer; a start is refused exactly if a proxy of the same protocol is on the
port, and one that fails leaves the proxy that there was. -/
structure Served.Right (x : Served) : Prop where
  answered : ∃ response, x.responses = [response]
  refused : ∀ start, x.request.toStart = some start →
    (.requestFailed ∈ x.responses ↔ x.before.port start.protocol = some start.port)
  kept : ∀ start, x.request.toStart = some start → .started ∉ x.responses →
    x.after.get start.protocol = x.before.get start.protocol

/-- Every request was handled rightly, no start is under way that is to be refused, and the
recorded proxies are the servers that are listening. -/
structure State.Right (s : State) : Prop where
  served : ∀ x ∈ s.served, x.Right
  waiting : ∀ w, s.waiting = some w → w.before.port w.start.protocol ≠ some w.start.port
  recorded : s.Recorded

/-- A TCP proxy is started where none runs and the HTTP proxy is not on the port, and it is never
stopped.  (If both are on the port, the start is refused as it should be.) -/
def Request.Fits (ps : Proxies) : Request → Prop
  | startTcp port => (ps.port .HTTP = some port ↔ ps.port .TCP = some port) ∧
      (ps.port .TCP = none ∨ ps.port .HTTP = some port)
  | stop .TCP => ps.port .TCP = none
  | _ => True

/-- The request that is handled fits, and every port can be bound. -/
def Fits (s : State) : Event → Prop
  | .receive _ => True
  | .handle => ∀ request ∈ s.mailbox.head?, request.Fits s.proxies
  | .bound ok => ok = true

instance (ps : Proxies) (request : Request) : Decidable (request.Fits ps) :=
  match request with
  | .startTcp port => inferInstanceAs (Decidable ((ps.port .HTTP = some port ↔ _) ∧ _))
  | .stop .TCP => inferInstanceAs (Decidable (ps.port .TCP = none))
  | .stop .HTTP | .startHttp _ => isTrue trivial

instance (s : State) (e : Event) : Decidable (Fits s e) :=
  match e with
  | .receive _ => isTrue trivial
  | .handle =>
      inferInstanceAs (Decidable (∀ request ∈ s.mailbox.head?, request.Fits s.proxies))
  | .bound ok => inferInstanceAs (Decidable (ok = true))

/-! ## The recorded proxies -/

namespace State

variable {s : State}

theorem get_stop (protocol other : Protocol) :
    (s.stop protocol).proxies.get other =
      if protocol = other then none else s.proxies.get other := by
  unfold stop
  cases h : s.proxies.get protocol with
  | none =>
      by_cases heq : protocol = other
      · subst heq
        rw [if_pos rfl]
        exact h
      · rw [if_neg heq]
  | some p => exact Proxies.get_set _ _ _ _

/-- Without a proxy there is nothing to stop. -/
theorem stop_of_none {protocol : Protocol} (h : s.proxies.get protocol = none) :
    s.stop protocol = s := by
  unfold stop
  rw [h]

@[simp] theorem waiting_stop (protocol : Protocol) : (s.stop protocol).waiting = s.waiting := by
  unfold stop
  split <;> rfl

@[simp] theorem served_stop (protocol : Protocol) : (s.stop protocol).served = s.served := by
  unfold stop
  split <;> rfl

@[simp] theorem mailbox_stop (protocol : Protocol) : (s.stop protocol).mailbox = s.mailbox := by
  unfold stop
  split <;> rfl

/-- Of the servers that are listening, only an HTTP server that is told to stop ceases to. -/
theorem listening_stop (protocol other : Protocol) (server : Nat) (port : UInt16) :
    (s.stop protocol).Listening other server port ↔ s.Listening other server port ∧
      (other = .TCP ∨ ∀ p, s.proxies.get protocol = some p → p.server ≠ server) := by
  unfold stop Listening
  cases s.proxies.get protocol with
  | none => simp
  | some p =>
      simp only [List.getElem?_modify, Option.some.injEq, forall_eq']
      by_cases heq : p.server = server
      · simp only [heq, if_true]
        cases s.servers[server]? with
        | none => simp
        | some x =>
            obtain ⟨protocol', port', told⟩ := x
            constructor
            · rintro ⟨_, hx, htcp⟩
              cases hx
              exact ⟨⟨told, rfl, fun _ => htcp rfl⟩, Or.inl (htcp rfl)⟩
            · rintro ⟨⟨_, hx, htcp⟩, hor⟩
              cases hx
              exact ⟨true, rfl, fun _ => hor.resolve_right (fun hne => hne rfl)⟩
      · simp [heq]

theorem listening_start (x : Start) (protocol : Protocol) (server : Nat) (port : UInt16) :
    (s.start x).Listening protocol server port ↔ s.Listening protocol server port ∨
      (x.protocol = protocol ∧ x.port = port ∧ s.servers.length = server) := by
  unfold start Listening
  by_cases hlt : server < s.servers.length
  · rw [List.getElem?_append_left hlt]
    refine (or_iff_left ?_).symm
    rintro ⟨-, -, rfl⟩
    exact lt_irrefl _ hlt
  · have hout : s.servers[server]? = none := List.getElem?_eq_none_iff.mpr (Nat.le_of_not_lt hlt)
    rw [List.getElem?_append_right (Nat.le_of_not_lt hlt), hout]
    by_cases hend : s.servers.length = server
    · subst hend
      simp
    · have hlast : ([⟨x.protocol, x.port, false⟩] : List Server)[server - s.servers.length]? =
          none := by
        rw [List.getElem?_eq_none_iff, List.length_singleton]
        omega
      simp [hlast, hend]

/-- The recorded proxies are listening. -/
def Sound (s : State) : Prop :=
  ∀ protocol server port ingress, s.proxies.get protocol = some ⟨server, port, ingress⟩ →
    s.Listening protocol server port

theorem Sound.stop (h : s.Sound) (protocol : Protocol) : (s.stop protocol).Sound := by
  intro other server port ingress hget
  rw [get_stop] at hget
  split_ifs at hget with heq
  have hlive := h other server port ingress hget
  refine (listening_stop _ _ _ _).mpr ⟨hlive, Or.inr (fun p hp hserver => heq ?_)⟩
  -- two proxies of one number are of one protocol
  obtain ⟨told, ht, -⟩ := hlive
  obtain ⟨told', ht', -⟩ := h protocol p.server p.port p.ingress hp
  rw [hserver, ht] at ht'
  cases ht'
  rfl

theorem Sound.start (h : s.Sound) (x : Start) : (s.start x).Sound := by
  intro other server port ingress hget
  rw [listening_start]
  have hget' : (if x.protocol = other then some ⟨s.servers.length, x.port, x.ingress⟩
      else s.proxies.get other) = some ⟨server, port, ingress⟩ :=
    (Proxies.get_set _ _ _ _).symm.trans hget
  split_ifs at hget' with heq
  · cases hget'
    exact Or.inr ⟨heq, rfl, rfl⟩
  · exact Or.inl (h other server port ingress hget')

/-- Stopping the proxy of the other protocol. -/
theorem recordedOf_stop_of_ne (h : s.Sound) {protocol other : Protocol} (hne : protocol ≠ other) :
    (s.stop protocol).RecordedOf other ↔ s.RecordedOf other := by
  unfold RecordedOf
  refine forall₂_congr (fun server port => ?_)
  rw [listening_stop, get_stop, if_neg hne]
  refine iff_congr (and_iff_left_of_imp (fun hlive => Or.inr (fun p hp hserver => hne ?_))) Iff.rfl
  obtain ⟨told, ht, -⟩ := hlive
  obtain ⟨told', ht', -⟩ := h protocol p.server p.port p.ingress hp
  rw [hserver, ht] at ht'
  cases ht'
  rfl

theorem RecordedOf.stop_http (h : s.RecordedOf .HTTP) : (s.stop .HTTP).RecordedOf .HTTP := by
  intro server port
  rw [listening_stop, get_stop, if_pos rfl]
  refine iff_of_false ?_ (fun ⟨_, hsome⟩ => nomatch hsome)
  rintro ⟨hlive, htcp | hother⟩
  · cases htcp
  · obtain ⟨ingress, hget⟩ := (h server port).mp hlive
    exact hother _ hget rfl

/-- A TCP proxy that is stopped is listening all the same. -/
theorem recordedOf_stop_tcp (h : s.Sound) :
    (s.stop .TCP).RecordedOf .TCP ↔ s.RecordedOf .TCP ∧ s.proxies.port .TCP = none := by
  cases hp : s.proxies.get .TCP with
  | none =>
      rw [stop_of_none hp, Proxies.port, hp]
      exact (and_iff_left rfl).symm
  | some p =>
      refine iff_of_false (fun hrec => ?_) ?_
      · have hlive : (s.stop .TCP).Listening .TCP p.server p.port :=
          (listening_stop _ _ _ _).mpr ⟨h _ _ _ p.ingress hp, Or.inl rfl⟩
        obtain ⟨ingress, hget⟩ := (hrec _ _).mp hlive
        rw [get_stop, if_pos rfl] at hget
        cases hget
      · rw [Proxies.port, hp]
        exact fun hrec => nomatch hrec.2

/-- A start where no proxy of the protocol runs. -/
theorem recordedOf_start {x : Start} (hnone : s.proxies.get x.protocol = none)
    (other : Protocol) : (s.start x).RecordedOf other ↔ s.RecordedOf other := by
  have hget : (s.start x).proxies.get other =
      if x.protocol = other then some ⟨s.servers.length, x.port, x.ingress⟩
      else s.proxies.get other := Proxies.get_set _ _ _ _
  unfold RecordedOf
  refine forall₂_congr (fun server port => ?_)
  rw [listening_start, hget]
  have hfresh : ∀ port, ¬ s.Listening other s.servers.length port := by
    rintro port ⟨told, ht, -⟩
    rw [List.getElem?_eq_none_iff.mpr le_rfl] at ht
    cases ht
  by_cases heq : x.protocol = other
  · subst heq
    rw [if_pos rfl, hnone]
    by_cases hend : s.servers.length = server
    · subst hend
      simp [hfresh]
    · simp [hend]
  · simp [heq]

end State

/-- What holds in every state: the recorded proxies are listening, and no other HTTP server is; the
proxy that a start is to replace was stopped. -/
structure Kept (s : State) : Prop where
  sound : s.Sound
  http : s.RecordedOf .HTTP
  starting : ∀ w, s.waiting = some w → w.request.toStart = some w.start ∧
    ∀ protocol, s.proxies.get protocol =
      if w.start.protocol = protocol then none else w.before.get protocol

namespace Kept

variable {s s' : State}

theorem done (h : Kept s) (request : Request) (before : Proxies) (responses : List Response) :
    Kept (s.done request before responses) :=
  ⟨h.sound, h.http, h.starting⟩

theorem stop (h : Kept s) (hw : s.waiting = none) (protocol : Protocol) :
    Kept (s.stop protocol) where
  sound := h.sound.stop protocol
  http := by
    cases protocol with
    | HTTP => exact h.http.stop_http
    | TCP => exact (State.recordedOf_stop_of_ne h.sound (by decide)).mpr h.http
  starting w hsome := by
    rw [State.waiting_stop, hw] at hsome
    cases hsome

theorem wait (h : Kept s) (hw : s.waiting = none) {request : Request} {x : Start}
    (hx : request.toStart = some x) : Kept ((s.stop x.protocol).wait request x s.proxies) := by
  refine ⟨(h.stop hw x.protocol).sound, (h.stop hw x.protocol).http, fun w hsome => ?_⟩
  cases hsome
  exact ⟨hx, fun protocol => State.get_stop x.protocol protocol⟩

theorem handle (h : Kept s) (hw : s.waiting = none) (request : Request) :
    Kept (s.handle request) := by
  unfold State.handle
  cases request with
  | stop protocol =>
      show Kept (if _ then _ else _)
      split
      · exact h.done _ _ _
      · exact (h.stop hw protocol).done _ _ _
  | startHttp config =>
      show Kept (if _ then _ else _)
      split
      · exact h.done _ _ _
      · exact @wait s h hw (.startHttp config) ⟨.HTTP, config.portOf, config.ingressOf⟩ rfl
  | startTcp port =>
      show Kept (if _ then _ else _)
      split
      · exact h.done _ _ _
      · exact @wait s h hw (.startTcp port) ⟨.TCP, port, none⟩ rfl

theorem bound (h : Kept s) {w : Waiting} (hw : s.waiting = some w) (ok : Bool) :
    Kept (s.bound w ok) := by
  cases ok with
  | true =>
      have hnone : s.proxies.get w.start.protocol = none :=
        ((h.starting w hw).2 _).trans (if_pos rfl)
      have hsound : ({ s with waiting := none } : State).Sound := h.sound
      exact ⟨hsound.start w.start, (@State.recordedOf_start { s with waiting := none } _ hnone .HTTP).mpr h.http, nofun⟩
  | false => exact ⟨h.sound, h.http, nofun⟩

theorem init : Kept .init where
  sound protocol server port ingress hget := by cases protocol <;> cases hget
  http server port := by simp [State.Listening, State.init, Proxies.get]
  starting w hw := by cases hw

/-- The steps, one case for each kind of event. -/
theorem step_cases {e : Event} (h : machine.step s e = some s') :
    (∃ request, e = .receive request ∧ s' = { s with mailbox := s.mailbox ++ [request] }) ∨
    (∃ request rest, e = .handle ∧ s.waiting = none ∧ s.mailbox = request :: rest ∧
      s' = { s with mailbox := rest }.handle request) ∨
    (∃ w ok, e = .bound ok ∧ s.waiting = some w ∧ s' = s.bound w ok) := by
  cases e with
  | receive request =>
      cases h
      exact Or.inl ⟨request, rfl, rfl⟩
  | handle =>
      have hstep : State.step s .handle = some s' := h
      unfold State.step at hstep
      cases hw : s.waiting with
      | some w => simp [hw] at hstep
      | none =>
          cases hm : s.mailbox with
          | nil => simp [hw, hm] at hstep
          | cons request rest =>
              simp only [hw, hm, Option.some.injEq] at hstep
              exact Or.inr (Or.inl ⟨request, rest, rfl, rfl, rfl, by rw [← hstep, ← hw]⟩)
  | bound ok =>
      obtain ⟨w, hw, rfl⟩ := Option.map_eq_some_iff.mp h
      exact Or.inr (Or.inr ⟨w, ok, rfl, hw, rfl⟩)

theorem step {e : Event} (h : Kept s) (hs : machine.step s e = some s') : Kept s' := by
  obtain ⟨request, rfl, rfl⟩ | ⟨request, rest, rfl, hw, hm, rfl⟩ | ⟨w, ok, rfl, hw, rfl⟩ :=
    step_cases hs
  · exact ⟨h.sound, h.http, h.starting⟩
  · exact @handle { s with mailbox := rest } ⟨h.sound, h.http, h.starting⟩ hw request
  · exact h.bound hw ok

end Kept

/-! ## Requests are handled rightly -/

section

variable {s s' : State}

/-- What is right so far. -/
def Fine (s : State) : Prop :=
  (∀ x ∈ s.served, x.Right) ∧
    ∀ w, s.waiting = some w → w.before.port w.start.protocol ≠ some w.start.port

theorem fine_idle (hw : s.waiting = none) : Fine s ↔ ∀ x ∈ s.served, x.Right := by
  refine and_iff_left (fun w hsome => ?_)
  rw [hw] at hsome
  cases hsome

theorem fine_done {request : Request} {before : Proxies} {responses : List Response}
    (hw : s.waiting = none) : Fine (s.done request before responses) ↔
      (∀ x ∈ s.served, x.Right) ∧
        Served.Right ⟨request, before, responses, s.proxies⟩ := by
  rw [fine_idle (show (s.done request before responses).waiting = none from hw)]
  unfold State.done
  rw [List.forall_mem_append, List.forall_mem_singleton]

/-- A start that is refused. -/
theorem right_refused {request : Request} {x : Start} {before : Proxies}
    (hx : request.toStart = some x) : Served.Right ⟨request, before, [.requestFailed], before⟩ ↔
      before.port x.protocol = some x.port := by
  constructor
  · exact fun h => (h.refused x hx).mp (List.mem_singleton_self _)
  · intro hport
    refine ⟨⟨_, rfl⟩, fun start hs => ?_, fun start hs _ => rfl⟩
    have hs' : request.toStart = some start := hs
    rw [hx] at hs'
    cases hs'
    exact iff_of_true (List.mem_singleton_self _) hport

/-- A start that is made. -/
theorem right_started {request : Request} {x : Start} {before after : Proxies}
    (hx : request.toStart = some x) : Served.Right ⟨request, before, [.started], after⟩ ↔
      before.port x.protocol ≠ some x.port := by
  have hnot : Response.requestFailed ∉ [Response.started] := by decide
  constructor
  · exact fun h hport => hnot ((h.refused x hx).mpr hport)
  · intro hport
    refine ⟨⟨_, rfl⟩, fun start hs => ?_, fun start hs hk => absurd (List.mem_singleton_self _) hk⟩
    have hs' : request.toStart = some start := hs
    rw [hx] at hs'
    cases hs'
    exact iff_of_false hnot hport

theorem right_stop {protocol : Protocol} {before after : Proxies} (response : Response) :
    Served.Right ⟨.stop protocol, before, [response], after⟩ :=
  ⟨⟨_, rfl⟩, fun start hs => absurd hs (by simp [Request.toStart]),
    fun start hs => absurd hs (by simp [Request.toStart])⟩

/-- A start is handled rightly until its port is to be bound exactly if it is compared with the
port of its own protocol. -/
theorem fine_start {request : Request} {x : Start} {compared : Option UInt16} (hw : s.waiting = none)
    (hx : request.toStart = some x) :
    Fine (if compared = some x.port then s.done request s.proxies [.requestFailed]
        else (s.stop x.protocol).wait request x s.proxies) ↔
      Fine s ∧ (compared = some x.port ↔ s.proxies.port x.protocol = some x.port) := by
  split_ifs with hc
  · rw [fine_done hw, right_refused hx, fine_idle hw, iff_true_left hc]
  · rw [fine_idle hw, iff_false_left hc]
    unfold Fine State.wait
    rw [State.served_stop]
    refine and_congr_right (fun _ => ⟨fun h => h _ rfl, fun h w hsome => ?_⟩)
    cases hsome
    exact h

/-- A stop is always handled rightly. -/
theorem fine_stop {protocol : Protocol} (hw : s.waiting = none) :
    Fine (s.handle (.stop protocol)) ↔ Fine s := by
  rw [fine_idle hw]
  show Fine (if _ then _ else _) ↔ _
  split_ifs
  · exact (fine_done hw).trans (and_iff_left (right_stop _))
  · rw [fine_done ((State.waiting_stop protocol).trans hw), State.served_stop]
    exact and_iff_left (right_stop _)

/-- A request leaves no TCP server behind, and is handled rightly, exactly if it fits. -/
theorem fine_handle (h : Kept s) (hw : s.waiting = none) (request : Request) :
    Fine (s.handle request) ∧ (s.handle request).RecordedOf .TCP ↔
      (Fine s ∧ s.RecordedOf .TCP) ∧ request.Fits s.proxies := by
  cases request with
  | stop protocol =>
      rw [fine_stop hw, and_assoc]
      refine and_congr_right (fun _ => ?_)
      cases protocol with
      | HTTP =>
          show State.RecordedOf (if _ then _ else _) _ ↔ s.RecordedOf .TCP ∧ True
          rw [and_true]
          split_ifs
          · exact Iff.rfl
          · exact State.recordedOf_stop_of_ne h.sound (by decide)
      | TCP =>
          show State.RecordedOf (if _ then _ else _) _ ↔
            s.RecordedOf .TCP ∧ s.proxies.port .TCP = none
          split_ifs with hnone
          · exact (and_iff_left (Option.isNone_iff_eq_none.mp hnone)).symm
          · exact State.recordedOf_stop_tcp h.sound
  | startHttp config =>
      have hfine : Fine (s.handle (.startHttp config)) ↔ Fine s :=
        (@fine_start s (.startHttp config) ⟨.HTTP, config.portOf, config.ingressOf⟩ _ hw rfl).trans
          (and_iff_left Iff.rfl)
      rw [hfine, and_assoc]
      refine and_congr_right (fun _ => ?_)
      show State.RecordedOf (if _ then _ else _) _ ↔ s.RecordedOf .TCP ∧ True
      rw [and_true]
      split_ifs
      · exact Iff.rfl
      · exact State.recordedOf_stop_of_ne h.sound (by decide)
  | startTcp port =>
      have hfine : Fine (s.handle (.startTcp port)) ↔ Fine s ∧
          (s.proxies.port .HTTP = some port ↔ s.proxies.port .TCP = some port) :=
        @fine_start s (.startTcp port) ⟨.TCP, port, none⟩ _ hw rfl
      have hrec : (s.handle (.startTcp port)).RecordedOf .TCP ↔ s.RecordedOf .TCP ∧
          (s.proxies.port .TCP = none ∨ s.proxies.port .HTTP = some port) := by
        show State.RecordedOf (if _ then _ else _) _ ↔ _
        split_ifs with hport
        · exact (and_iff_left (Or.inr hport)).symm
        · rw [or_iff_left hport]
          exact State.recordedOf_stop_tcp h.sound
      rw [hfine, hrec]
      exact and_and_and_comm

/-- A step is right exactly if it fits. -/
theorem fine_step {e : Event} (h : Kept s) (hs : machine.step s e = some s') :
    Fine s' ∧ s'.RecordedOf .TCP ↔ (Fine s ∧ s.RecordedOf .TCP) ∧ Fits s e := by
  obtain ⟨request, rfl, rfl⟩ | ⟨request, rest, rfl, hw, hm, rfl⟩ | ⟨w, ok, rfl, hw, rfl⟩ :=
    Kept.step_cases hs
  · exact (and_iff_left trivial).symm
  · have hfits : Fits s .handle ↔ request.Fits s.proxies := by
      simp [Fits, hm]
    rw [hfits]
    exact @fine_handle { s with mailbox := rest } ⟨h.sound, h.http, h.starting⟩ hw request
  · obtain ⟨hstart, hget⟩ := h.starting w hw
    have hfine : Fine s ↔ (∀ x ∈ s.served, x.Right) ∧
        w.before.port w.start.protocol ≠ some w.start.port := by
      unfold Fine
      rw [hw]
      simp
    rw [hfine]
    cases ok with
    | true =>
        have hnone : s.proxies.get w.start.protocol = none := (hget _).trans (if_pos rfl)
        refine Iff.trans (and_congr ((fine_done rfl).trans ?_) ?_) (and_iff_left rfl).symm
        · rw [right_started hstart]
          exact Iff.rfl
        · exact @State.recordedOf_start { s with waiting := none } w.start hnone .TCP
    | false =>
        refine iff_of_false (fun hf => ?_) (fun hf => absurd hf.2 Bool.false_ne_true)
        obtain ⟨response, hone⟩ := ((fine_done rfl).mp hf.1).2.answered
        cases hone

/-- A step loses no request, and repeats none. -/
theorem received_step {e : Event} (hs : machine.step s e = some s') :
    s'.received = s.received ++ e.request.toList := by
  obtain ⟨request, rfl, rfl⟩ | ⟨request, rest, rfl, hw, hm, rfl⟩ | ⟨w, ok, rfl, hw, rfl⟩ :=
    Kept.step_cases hs
  · exact (List.append_assoc ..).symm
  · have hreceived : s.received = s.served.map Served.request ++ request :: rest := by
      unfold State.received
      rw [hw, hm]
      simp
    rw [hreceived]
    cases request with
    | stop protocol =>
        show (State.received (if _ then _ else _)) = _
        split <;> simp [State.received, State.done, hw, Event.request]
    | startHttp config =>
        show (State.received (if _ then _ else _)) = _
        split <;> simp [State.received, State.done, State.wait, hw, Event.request]
    | startTcp port =>
        show (State.received (if _ then _ else _)) = _
        split <;> simp [State.received, State.done, State.wait, hw, Event.request]
  · cases ok <;> simp [State.received, State.bound, State.start, State.done, hw, Event.request]

theorem received_run {t : State} {es : List Event} (hrun : machine.run s es = some t) :
    t.received = s.received ++ es.filterMap Event.request := by
  induction es generalizing s with
  | nil =>
      cases hrun
      exact (List.append_nil _).symm
  | cons e es ih =>
      rw [Machine.run, Option.bind_eq_some_iff] at hrun
      obtain ⟨s', hs, hrun⟩ := hrun
      rw [ih hrun, received_step hs, List.append_assoc, List.filterMap_cons]
      cases e.request <;> rfl

end

/-- Every request that is received is handled in turn.  All is right in a state exactly if every
step before it was one that fits. -/
theorem right_iff {t : State} {es : List Event} (hrun : machine.run .init es = some t) :
    t.received = es.filterMap Event.request ∧ (t.Right ↔ machine.Steps Fits .init es) := by
  refine ⟨received_run hrun, ?_⟩
  have hkept : Kept t := Machine.run_preserves (fun _ _ _ h hs => h.step hs) Kept.init hrun
  have hstart : Fine .init ∧ State.RecordedOf .init .TCP :=
    ⟨⟨List.forall_mem_nil _, fun w hw => by cases hw⟩,
      fun server port => by simp [State.Listening, State.init, Proxies.get]⟩
  have hfine := Machine.run_iff_steps (fun _ _ _ h hs => Kept.step h hs)
    (fun _ _ _ h hs => fine_step h hs) Kept.init hrun
  rw [and_iff_right hstart] at hfine
  rw [← hfine]
  constructor
  · exact fun h => ⟨⟨h.served, h.waiting⟩, h.recorded .TCP⟩
  · rintro ⟨hf, htcp⟩
    refine ⟨hf.1, hf.2, fun protocol => ?_⟩
    cases protocol with
    | HTTP => exact hkept.http
    | TCP => exact htcp

/-- The HTTP and the TCP proxy are started, on two ports. -/
def startBoth : List Event :=
  [.receive (.startHttp (.port 6000)), .receive (.startTcp 6001), .handle, .bound true, .handle,
    .bound true]

theorem right_startBoth : ∃ t, machine.run .init startBoth = some t ∧
    t.proxies.port .HTTP = some 6000 ∧ t.proxies.port .TCP = some 6001 ∧ t.Right := by
  refine ⟨_, rfl, rfl, rfl, (@right_iff _ startBoth rfl).2.mpr ?_⟩
  decide

/-- A TCP proxy that was stopped is listening. -/
example : ∃ t, machine.run .init [.receive (.startTcp 6201), .handle, .bound true,
      .receive (.stop .TCP), .handle] = some t ∧
    t.proxies.tcp = none ∧ t.Listening .TCP 0 6201 :=
  ⟨_, rfl, rfl, true, rfl, fun _ => rfl⟩

/-- After the HTTP proxy has started on 6000, a TCP proxy is refused there, although none is on
that port; and a start whose port cannot be bound is not answered, and leaves no HTTP proxy. -/
theorem startTcp_refused :
    (∃ t, machine.run .init [.receive (.startHttp (.port 6000)), .handle, .bound true,
          .receive (.startTcp 6000), .handle] = some t ∧
        t.served.map Served.responses = [[.started], [.requestFailed]] ∧
        t.proxies.tcp = none ∧ ¬ t.Right) ∧
      ∃ t, machine.run .init [.receive (.startHttp (.port 6000)), .handle, .bound true,
          .receive (.startHttp (.port 80)), .handle, .bound false] = some t ∧
        t.served.map Served.responses = [[.started], []] ∧
        t.proxies.http = none ∧ ¬ t.Right := by
  refine ⟨⟨_, rfl, rfl, rfl, fun h => ?_⟩, ⟨_, rfl, rfl, rfl, fun h => ?_⟩⟩
  · have hlast := (h.served _ (List.mem_cons_of_mem _ (List.mem_cons_self ..))).refused _ rfl
    have hport := hlast.mp (List.mem_singleton_self _)
    cases hport
  · have hlast := (h.served _ (List.mem_cons_of_mem _ (List.mem_cons_self ..))).answered
    obtain ⟨response, hone⟩ := hlast
    cases hone

end Armour.Proxy.Listeners
