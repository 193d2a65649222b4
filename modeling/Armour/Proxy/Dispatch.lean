import Armour.Proxy.System

/-! # Dispatch on the number of arguments

The handlers of the proxies expect fewer argument counts than the loader admits, and run into
`unreachable!()` on the others.
-/

namespace Armour.Proxy

open Armour.Lib Armour.Lang

/-- A function with arguments has one of the given argument counts. -/
def ArityIn (counts : List UInt8) (f : FnPolicy) : Prop := ∀ n, f = .Args n → n ∈ counts

/-- The counts that `request` and `response` expect. -/
def httpCounts : List UInt8 := [0, 1, 2]

/-- The status of the HTTP functions is one that the proxy expects. -/
def HandlesHttp (request response : FnPolicy) : Prop :=
  ArityIn httpCounts request ∧ (request = .Deny ∨ ArityIn httpCounts response)

/-- The status of the TCP functions is one that the proxy expects. -/
def HandlesTcp (connect disconnect : FnPolicy) : Prop :=
  ArityIn [1] connect ∧ ArityIn [3] disconnect

/-- The proxy expects the argument counts of the policies. -/
structure Handles (policies : DPPolicies) : Prop where
  http : ∀ p, policies.get? .HTTP = some p →
    HandlesHttp (statusOf p allowRestRequest) (statusOf p allowRestResponse)
  tcp : ∀ p, policies.get? .TCP = some p →
    HandlesTcp (statusOf p allowTcpConnection) (statusOf p onTcpDisconnect)

/-- No handler has reached an `unreachable!()`. -/
structure State.Dispatched (s : State) : Prop where
  actor : s.crashed = false
  exchanges : ∀ i x, s.exchanges i = some x → x.phase ≠ .unreachable

theorem argList_some {n : UInt8} (h : n ∈ httpCounts) (l : DPLiteral) (payload : Bytes) :
    ∃ args, argList n l payload = some args := by
  simp only [httpCounts, List.mem_cons, List.not_mem_nil, or_false] at h
  rcases h with rfl | rfl | rfl <;> exact ⟨_, rfl⟩

theorem argList_none {n : UInt8} (h : n ∉ httpCounts) (l : DPLiteral) (payload : Bytes) :
    argList n l payload = none := by
  simp only [httpCounts, List.mem_cons, List.not_mem_nil, or_false, not_or] at h
  obtain ⟨h0, h1, h2⟩ := h
  unfold argList
  split
  · exact absurd rfl h0
  · exact absurd rfl h1
  · exact absurd rfl h2
  · rfl

/-! ## Runs with expected counts -/

/-- The status that the exchange goes by is one that the rest of it expects. -/
def Phase.Handled : Phase → Prop
  | .reading p => ArityIn httpCounts p.status.request ∧ ArityIn httpCounts p.status.response
  | .requesting p _ _ | .forwarding p | .receiving p _ => ArityIn httpCounts p.status.response
  | .connecting | .responding _ _ _ _ | .answered _ => True
  | .unreachable => False

namespace Exchange

variable {a b : PolicyActor} {x x' : Exchange} {p : HttpPolicyResponse}

theorem start_handled (req : Incoming) (uri : Option String) : (start req uri).phase.Handled := by
  cases uri <;> trivial

theorem onPolicy_handled (h : HandlesHttp p.status.request p.status.response) :
    (x.onPolicy p).phase.Handled := by
  unfold onPolicy
  split
  · trivial
  · rename_i hdeny
    exact ⟨h.1, h.2.resolve_left hdeny⟩

theorem onPayload_handled {payload : Bytes} (hx : x.phase = .reading p) (h : x.phase.Handled) :
    (x.onPayload p payload).phase.Handled := by
  rw [hx] at h
  unfold onPayload
  split
  · rename_i count hcount
    obtain ⟨args, hargs⟩ := argList_some (h.1 count hcount)
      (x.req.toExpression p.connection) payload
    rw [hargs]
    exact h.2
  · exact h.2
  · rw [hx]
    exact h

theorem onRequest_handled {payload : Bytes} {args : List DPLiteral}
    (h : ArityIn httpCounts p.status.response) (answer : Except DPError (Bool × Option String)) :
    (x.onRequest p payload args answer).phase.Handled := by
  unfold onRequest
  dsimp only
  split
  · exact h
  · trivial
  · trivial

theorem onResponse_handled (h : ArityIn httpCounts p.status.response)
    (r : Except (UInt16 × String) ServerResponse) : (x.onResponse p r).phase.Handled := by
  cases r with
  | error e => trivial
  | ok res =>
      simp only [onResponse]
      split
      · trivial
      · exact h

theorem onBody_handled {res : ServerResponse} {body : Bytes} (hx : x.phase = .receiving p res)
    (h : x.phase.Handled) : (x.onBody p res body).phase.Handled := by
  rw [hx] at h
  unfold onBody
  split
  · rename_i count hcount
    obtain ⟨args, hargs⟩ := argList_some (h count hcount) (res.toExpression p.connection) body
    rw [hargs]
    trivial
  · trivial
  · rw [hx]
    exact h

theorem onResponseAnswer_handled {res : ServerResponse} {body : Bytes} {args : List DPLiteral}
    (answer : Except DPError (Bool × Option String)) :
    (x.onResponseAnswer p res body args answer).phase.Handled := by
  unfold onResponseAnswer
  dsimp only
  split <;> trivial

theorem step_handled (hstatus : HandlesHttp a.http.status.request a.http.status.response)
    (hx : x.phase.Handled) {ev : HttpEvent} (h : x.step a ev = some (b, x')) :
    x'.phase.Handled := by
  cases ev with
  | policy ends =>
      simp only [step] at h
      split at h
      · cases h
        apply onPolicy_handled
        rw [a.getHttpPolicy_status]
        exact hstatus
      · cases h
  | payload r =>
      simp only [step] at h
      split at h
      · rename_i p payload hp
        cases h
        exact onPayload_handled hp hx
      · cases h
        trivial
      · cases h
  | evaluated o =>
      simp only [step] at h
      split at h
      · rename_i p payload args hp
        obtain ⟨answer, -, hr⟩ := Option.map_eq_some_iff.mp h
        cases hr
        rw [hp] at hx
        exact onRequest_handled hx answer
      · obtain ⟨answer, -, hr⟩ := Option.map_eq_some_iff.mp h
        cases hr
        exact onResponseAnswer_handled answer
      · cases h
  | response r =>
      simp only [step] at h
      split at h
      · rename_i p hp
        cases h
        rw [hp] at hx
        exact onResponse_handled hx r
      · cases h
  | body r =>
      simp only [step] at h
      split at h
      · rename_i p res body hp
        cases h
        exact onBody_handled hp hx
      · cases h
        trivial
      · cases h
  | mailboxError =>
      simp only [step] at h
      split at h <;> cases h <;> trivial

end Exchange

/-- The state expects the argument counts of what is installed and under way. -/
structure State.Handled (s : State) : Prop where
  actor : s.crashed = false
  http : HandlesHttp s.actor.http.status.request s.actor.http.status.response
  tcp : HandlesTcp s.actor.tcp.connect s.actor.tcp.disconnect
  exchanges : ∀ i x, s.exchanges i = some x → x.phase.Handled

theorem State.Handled.dispatched {s : State} (h : s.Handled) : s.Dispatched where
  actor := h.actor
  exchanges := by
    intro i x hx hu
    have hp := h.exchanges i x hx
    rw [hu] at hp
    exact hp

theorem PolicyActor.getTcpPolicy_handled {a b : PolicyActor} {ends : ID × ID} {o : Outside}
    {seen : Option (List DPLiteral)} {r : Handled (Except DPError TcpPolicyStatus)}
    (hcount : ArityIn [1] a.tcp.connect) (h : a.getTcpPolicy ends o = some (b, seen, r)) :
    r ≠ .unreachable := by
  rintro rfl
  unfold getTcpPolicy at h
  split at h
  · cases h
  · cases h
  · obtain ⟨r, -, hr⟩ := Option.map_eq_some_iff.mp h
    cases hr
  · rename_i hallow hdeny hargs
    cases hc : a.tcp.connect with
    | Allow => exact hallow hc
    | Deny => exact hdeny hc
    | Args n =>
        obtain rfl : n = 1 := List.mem_singleton.mp (hcount n hc)
        exact hargs hc

theorem PolicyActor.connectionStats_handled {a : PolicyActor} {msg : ConnectionStats} {o : Outside}
    {r : Proxy.Handled (Option (List DPLiteral))} (hcount : ArityIn [3] a.tcp.disconnect)
    (h : a.connectionStats msg o = some r) : r ≠ .unreachable := by
  rintro rfl
  unfold connectionStats at h
  split at h
  · obtain ⟨r, -, hr⟩ := Option.map_eq_some_iff.mp h
    cases hr
  · rename_i n hne hn
    obtain rfl : n = 3 := List.mem_singleton.mp (hcount n hn)
    exact hne rfl
  · cases h

theorem State.step_crashed {s s' : State} {e : Event} (h : s.step e = some s')
    (htcp : HandlesTcp s.actor.tcp.connect s.actor.tcp.disconnect) : s'.crashed = false := by
  have hc := not_crashed h
  simp only [step, hc, Bool.false_eq_true, if_false] at h
  cases e with
  | setPolicy ps | setTimeout secs =>
      cases h
      rfl
  | request i req uri | connectFailed i | connected i ok | data i d =>
      dsimp only at h
      split at h <;> cases h
      exact hc
  | http i ev =>
      dsimp only at h
      split at h
      · obtain ⟨r, -, rfl⟩ := Option.map_eq_some_iff.mp h
        rfl
      · cases h
  | connect j ends o =>
      dsimp only at h
      split at h
      · obtain ⟨⟨b, seen, r⟩, hr, rfl⟩ := Option.map_eq_some_iff.mp h
        have hne := PolicyActor.getTcpPolicy_handled htcp.1 hr
        unfold onTcpPolicy
        dsimp only
        split
        · rfl
        · rfl
        · exact absurd rfl hne
      · cases h
  | stopped j =>
      dsimp only at h
      split at h
      · split at h <;> cases h
        exact hc
      · cases h
  | report o =>
      dsimp only at h
      split at h
      · obtain ⟨r, hr, rfl⟩ := Option.map_eq_some_iff.mp h
        have hne := PolicyActor.connectionStats_handled htcp.2 hr
        cases r with
        | answer args => exact hc
        | unreachable => exact absurd rfl hne
      · cases h

/-- A step that installs expected counts, or nothing, keeps them. -/
theorem State.step_handled {s s' : State} {e : Event} (hs : s.Handled)
    (he : ∀ ps, e = .setPolicy ps → Handles ps) (h : s.step e = some s') : s'.Handled := by
  have hactor : HandlesHttp s'.actor.http.status.request s'.actor.http.status.response ∧
      HandlesTcp s'.actor.tcp.connect s'.actor.tcp.disconnect := by
    rcases step_actor h with ⟨ps, rfl, ha⟩ | ⟨secs, -, ha⟩ | ⟨n, ha⟩
    · rw [ha, PolicyActor.setPolicy_http, PolicyActor.setPolicy_tcp]
      have hps := he ps rfl
      constructor
      · cases hp : ps.get? .HTTP with
        | none => exact hs.http
        | some p => exact hps.http p hp
      · cases hp : ps.get? .TCP with
        | none => exact hs.tcp
        | some p => exact hps.tcp p hp
    · rw [ha]
      exact ⟨hs.http, hs.tcp⟩
    · rw [ha]
      exact ⟨hs.http, hs.tcp⟩
  refine ⟨step_crashed h hs.tcp, hactor.1, hactor.2, fun i x' hx => ?_⟩
  rcases step_exchange h hx with hx | ⟨req, uri, -, -, rfl⟩ | ⟨ev, x, -, hx, hstep⟩
  · exact hs.exchanges i x' hx
  · exact Exchange.start_handled req uri
  · exact Exchange.step_handled hs.http (hs.exchanges i x hx) hstep

theorem arityIn_deny (counts : List UInt8) : ArityIn counts .Deny := by
  intro n h
  cases h

theorem start_handled (label : Label) (timeout : UInt8) (aead : Aead) :
    (State.start (.create label timeout aead)).Handled where
  actor := rfl
  http := ⟨arityIn_deny _, Or.inl rfl⟩
  tcp := ⟨arityIn_deny _, arityIn_deny _⟩
  exchanges := by
    intro i x h
    cases h

/-- Runs that only install expected counts do not reach an `unreachable!()`. -/
theorem run_dispatched {label : Label} {timeout : UInt8} {aead : Aead} {es : List Event}
    (hes : ∀ ps, .setPolicy ps ∈ es → Handles ps) {s : State}
    (hrun : proxy.run (.start (.create label timeout aead)) es = some s) : s.Dispatched := by
  have hok : proxy.Steps (fun _ e => ∀ ps, e = .setPolicy ps → Handles ps)
      (.start (.create label timeout aead)) es := by
    apply Machine.Steps.of_forall (p := fun e => ∀ ps, e = Event.setPolicy ps → Handles ps)
    rintro e he ps rfl
    exact hes ps he
  exact (Machine.run_invariant (P := State.Handled)
    (fun _ _ _ hs he h => State.step_handled hs he h) (start_handled label timeout aead) hok
    hrun).dispatched

/-! ## Runs into other counts -/

/-- `fn f(x, ..) -> bool { true }` with `n` parameters. -/
def constantTrue : Nat → Expr DPFlatLiteral
  | 0 => .litExpr (.bool true)
  | n + 1 => .closure "x" (constantTrue n)

/-- A policy whose one function answers `true`. -/
def grant (function : String) (n : Nat) : DPPolicy :=
  ⟨⟨BTreeMap.insert ∅ function (constantTrue n), .empty, ∅⟩,
    FnPolicies.setArgs ∅ function (UInt8.ofNat n)⟩

/-- An outside without external services. -/
def alone : Outside := ⟨fun _ _ _ => .error "unreachable", .offline, 0, 8⟩

/-- Encryption that always fails. -/
def noAead : Aead := ⟨fun _ _ => none, fun _ => none⟩

def grantHttp (n : Nat) : DPPolicies := BTreeMap.insert ∅ .HTTP (grant allowRestRequest n)

def grantTcp : DPPolicies := BTreeMap.insert ∅ .TCP (grant allowTcpConnection 1)

theorem grantHttp_handles {n : UInt8} (h : n ∈ httpCounts) : Handles (grantHttp n.toNat) where
  http := by
    intro p hp
    cases hp
    refine ⟨fun k hk => ?_, Or.inr (arityIn_deny _)⟩
    have hstatus : statusOf (grant allowRestRequest n.toNat) allowRestRequest = .Args n := by
      show FnPolicy.Args (UInt8.ofNat n.toNat) = _
      rw [UInt8.ofNat_toNat]
    cases hstatus.symm.trans hk
    exact h
  tcp := by
    intro p hp
    cases hp

theorem grantTcp_handles : Handles grantTcp where
  http := by
    intro p hp
    cases hp
  tcp := by
    intro p hp
    cases hp
    refine ⟨fun k hk => ?_, arityIn_deny _⟩
    cases hk
    exact List.mem_singleton_self 1

/-- A state that breaks the dispatch, in a run that installs `ps` or expected counts. -/
def Breaks (a : PolicyActor) (ps : DPPolicies) : Prop :=
  ∃ es s, (∀ ps', .setPolicy ps' ∈ es → ps' = ps ∨ Handles ps') ∧
    proxy.run (.start a) es = some s ∧ ¬ s.Dispatched

section

variable {s : State} {a b : PolicyActor} {i : Nat} {x x' : Exchange} {ev : HttpEvent}
  {p : HttpPolicyResponse}

theorem State.step_http (hc : s.crashed = false) (hx : s.exchanges i = some x)
    (h : x.step s.actor ev = some (b, x')) :
    proxy.step s (.http i ev) = some ({ s with actor := b }.setExchange i x') := by
  simp only [proxy_step, step, hc, hx, h]
  exact rfl

theorem State.setExchange_same (s : State) (i : Nat) (x : Exchange) :
    (s.setExchange i x).exchanges i = some x := by
  simp only [setExchange, Function.update_self]

theorem State.not_dispatched {s : State} (hx : s.exchanges i = some x)
    (h : x.phase = .unreachable) : ¬ s.Dispatched :=
  fun hs => hs.exchanges i x hx h

theorem Exchange.onPolicy_reading (h : p.status.request ≠ .Deny) :
    x.onPolicy p = { x with phase := .reading p } := by
  unfold onPolicy
  split
  · rename_i hdeny
    exact absurd hdeny h
  · rfl

theorem Exchange.onResponse_receiving (h : p.status.response ≠ .Deny) (res : ServerResponse) :
    x.onResponse p (.ok res) = { x with server := some res, phase := .receiving p res } := by
  unfold onResponse
  dsimp only
  split
  · rename_i hdeny
    exact absurd hdeny h
  · rfl

/-- A request of an empty client. -/
def emptyRequest : Incoming := ⟨"GET", "HTTP/1.1", "/", "", [], none⟩

/-- The policy `ps` is installed and the payload of a request is awaited. -/
theorem run_reading (a : PolicyActor) (ps : DPPolicies)
    (hreq : (a.setPolicy ps).http.status.request ≠ .Deny) :
    ∃ s x p, proxy.run (.start a) [.setPolicy ps, .request 0 emptyRequest (some "/"),
        .http 0 (.policy (.empty, .empty))] = some s ∧ s.crashed = false ∧
      s.exchanges 0 = some x ∧ x.phase = .reading p ∧
      p.status = (a.setPolicy ps).http.status := by
  let x := Exchange.start emptyRequest (some "/")
  let r := (a.setPolicy ps).getHttpPolicy (.empty, .empty)
  have hstatus : r.2.status = (a.setPolicy ps).http.status :=
    PolicyActor.getHttpPolicy_status _ _
  have hstep : x.step (a.setPolicy ps) (.policy (.empty, .empty)) =
      some (r.1, { x with phase := .reading r.2 }) := by
    rw [← Exchange.onPolicy_reading (x := x) (p := r.2) (by rwa [hstatus])]
    rfl
  let s := { State.start a with actor := a.setPolicy ps }.setExchange 0 x
  have hrun : proxy.run (.start a) [.setPolicy ps, .request 0 emptyRequest (some "/")] =
      some s := rfl
  have hlast := State.step_http (s := s) rfl (State.setExchange_same _ _ _) hstep
  exact ⟨_, _, _, Machine.run_snoc hrun hlast, rfl, State.setExchange_same _ _ _, rfl, hstatus⟩

theorem breaks_request {a : PolicyActor} {ps : DPPolicies} {n : UInt8}
    (hn : (a.setPolicy ps).http.status.request = .Args n) (hbad : n ∉ httpCounts) :
    Breaks a ps := by
  obtain ⟨s, x, p, hrun, hc, hx, hphase, hstatus⟩ := run_reading a ps (by rw [hn]; simp)
  have hstep : x.step s.actor (.payload (.ok [])) =
      some (s.actor, { x with phase := .unreachable }) := by
    simp only [Exchange.step, hphase, Exchange.onPayload, hstatus, hn, argList_none hbad]
  refine ⟨_, _, ?_, Machine.run_snoc hrun (State.step_http hc hx hstep),
    State.not_dispatched (State.setExchange_same _ _ _) rfl⟩
  simp

/-- A policy with an unexpected response function, once the request is forwarded. -/
theorem breaks_forwarded {a : PolicyActor} {ps : DPPolicies} {n : UInt8} {es : List Event}
    (hes : ∀ ps', .setPolicy ps' ∈ es → ps' = ps ∨ Handles ps')
    (hrun : proxy.run (.start a) es = some s) (hc : s.crashed = false)
    (hx : s.exchanges 0 = some x) (hphase : x.phase = .forwarding p)
    (hn : p.status.response = .Args n) (hbad : n ∉ httpCounts) : Breaks a ps := by
  let res : ServerResponse := ⟨200, []⟩
  let x₁ : Exchange := { x with server := some res, phase := .receiving p res }
  have h1 : x.step s.actor (.response (.ok res)) = some (s.actor, x₁) := by
    simp only [Exchange.step, hphase]
    rw [Exchange.onResponse_receiving (by rw [hn]; simp)]
  have h2 : x₁.step s.actor (.body (.ok [])) =
      some (s.actor, { x₁ with phase := .unreachable }) := by
    simp only [Exchange.step, x₁, Exchange.onBody, hn, argList_none hbad]
  have hrun1 := Machine.run_snoc hrun (State.step_http hc hx h1)
  have hrun2 := Machine.run_snoc hrun1 (State.step_http hc (State.setExchange_same _ _ _) h2)
  refine ⟨_, _, ?_, hrun2, State.not_dispatched (State.setExchange_same _ _ _) rfl⟩
  intro ps' h
  simp only [List.mem_append, List.mem_singleton, reduceCtorEq, or_false] at h
  exact hes ps' h

theorem breaks_response {a : PolicyActor} {ps : DPPolicies} {n : UInt8}
    (hreq : (a.setPolicy ps).http.status.request ≠ .Deny)
    (hn : (a.setPolicy ps).http.status.response = .Args n) (hbad : n ∉ httpCounts) :
    Breaks a ps := by
  obtain ⟨s, x, p, hrun, hc, hx, hphase, hstatus⟩ := run_reading a ps hreq
  rw [← hstatus] at hn hreq
  cases hp : p.status.request with
  | Deny => exact absurd hp hreq
  | Allow =>
      have hstep : x.step s.actor (.payload (.ok [])) =
          some (s.actor, (x.decide (x.statusRequest p [] true)).forward p [] none) := by
        simp only [Exchange.step, hphase, Exchange.onPayload, hp]
      refine breaks_forwarded ?_ (Machine.run_snoc hrun (State.step_http hc hx hstep)) hc
        (State.setExchange_same _ _ _) rfl hn hbad
      simp
  | Args k =>
      by_cases hk : k ∈ httpCounts
      · obtain ⟨args, hargs⟩ := argList_some hk (x.req.toExpression p.connection) []
        let x₁ : Exchange := { x with phase := .requesting p [] args }
        let g := s.actor.setPolicy (grantHttp k.toNat)
        have h1 : x.step s.actor (.payload (.ok [])) = some (s.actor, x₁) := by
          simp only [Exchange.step, hphase, Exchange.onPayload, hp, hargs]
          rfl
        -- the policy that answers the request is another one
        have heval : ∃ answer, g.evalHttpFn alone .Request args (getXArmour x₁.req.headers) =
            some (.ok (true, answer)) := by
          simp only [httpCounts, List.mem_cons, List.not_mem_nil, or_false] at hk
          rcases hk with rfl | rfl | rfl <;> cases hargs <;> exact ⟨_, rfl⟩
        obtain ⟨answer, heval⟩ := heval
        have h2 : x₁.step g (.evaluated alone) =
            some (g, x₁.onRequest p [] args (.ok (true, answer))) := by
          simp only [Exchange.step, x₁, heval]
          rfl
        have hrun1 := Machine.run_snoc hrun (State.step_http hc hx h1)
        have hset : proxy.step ({ s with actor := s.actor }.setExchange 0 x₁)
            (.setPolicy (grantHttp k.toNat)) = some { s.setExchange 0 x₁ with actor := g } := by
          simp only [proxy_step, State.step, State.setExchange, hc]
          rfl
        have hrun2 := Machine.run_snoc hrun1 hset
        have hrun3 := Machine.run_snoc hrun2
          (State.step_http hc (State.setExchange_same _ _ _) h2)
        refine breaks_forwarded ?_ hrun3 hc (State.setExchange_same _ _ _) rfl hn hbad
        intro ps' h
        simp only [List.cons_append, List.nil_append, List.mem_cons, Event.setPolicy.injEq,
          reduceCtorEq, List.not_mem_nil, or_false, false_or] at h
        rcases h with rfl | rfl
        · exact Or.inl rfl
        · exact Or.inr (grantHttp_handles hk)
      · exact breaks_request (hstatus ▸ hp) hk

theorem breaks_connect {a : PolicyActor} {ps : DPPolicies} {n : UInt8}
    (hn : (a.setPolicy ps).tcp.connect = .Args n) (hbad : n ≠ 1) : Breaks a ps := by
  have hget : (a.setPolicy ps).getTcpPolicy (.empty, .empty) alone =
      some (a.setPolicy ps, none, .unreachable) := by
    unfold PolicyActor.getTcpPolicy
    rw [hn]
    split
    · rename_i h
      cases h
    · rename_i h
      cases h
    · rename_i h
      cases h
      exact absurd rfl hbad
    · rfl
  have hset : proxy.run (.start a) [.setPolicy ps] =
      some { State.start a with actor := a.setPolicy ps } := rfl
  have hstep : proxy.step { State.start a with actor := a.setPolicy ps }
      (.connect 0 (.empty, .empty) alone) =
      some { State.start a with actor := a.setPolicy ps, crashed := true } := by
    simp only [proxy_step, State.step, State.start, hget]
    rfl
  refine ⟨_, _, ?_, Machine.run_snoc hset hstep, fun h => Bool.noConfusion h.actor⟩
  simp

theorem breaks_disconnect {a : PolicyActor} {ps : DPPolicies} {q : DPPolicy} {n : UInt8}
    (hq : ps.get? .TCP = some q) (hn : statusOf q onTcpDisconnect = .Args n) (hbad : n ≠ 3) :
    Breaks a ps := by
  obtain ⟨s, msg, hrun, hc, hmail⟩ : ∃ s msg, proxy.run (.start a)
      [.setPolicy grantTcp, .connect 0 (.empty, .empty) alone, .connected 0 true,
        .data 0 .finished, .stopped 0] = some s ∧ s.crashed = false ∧ s.mailbox = [(0, msg)] :=
    ⟨_, _, rfl, rfl, rfl⟩
  have hdisconnect : (s.actor.setPolicy ps).tcp.disconnect = .Args n := by
    rw [PolicyActor.setPolicy_tcp, hq]
    exact hn
  have hset : proxy.step s (.setPolicy ps) = some { s with actor := s.actor.setPolicy ps } := by
    simp only [proxy_step, State.step, hc]
    rfl
  have hstats : (s.actor.setPolicy ps).connectionStats msg alone = some .unreachable := by
    unfold PolicyActor.connectionStats
    rw [hdisconnect]
    split
    · rename_i h
      cases h
      exact absurd rfl hbad
    · rfl
    · rename_i hargs
      exact absurd rfl (hargs n)
  have hreport : proxy.step { s with actor := s.actor.setPolicy ps } (.report alone) =
      some { s with actor := s.actor.setPolicy ps, mailbox := [], crashed := true } := by
    simp only [proxy_step, State.step, hc, hmail, hstats]
    rfl
  refine ⟨_, _, ?_, Machine.run_snoc (Machine.run_snoc hrun hset) hreport,
    fun h => Bool.noConfusion h.actor⟩
  intro ps' h
  simp only [List.cons_append, List.nil_append, List.mem_cons, Event.setPolicy.injEq,
    reduceCtorEq, List.not_mem_nil, or_false, false_or] at h
  rcases h with rfl | rfl
  · exact Or.inr grantTcp_handles
  · exact Or.inl rfl

end

/-! ## The exact condition -/

/-- A proxy that is sent `ps`, and otherwise policies with expected counts, never runs into an
`unreachable!()` exactly if the counts of `ps` are expected ones. -/
theorem dispatched_iff (label : Label) (timeout : UInt8) (aead : Aead) (ps : DPPolicies) :
    (∀ es s, (∀ ps', .setPolicy ps' ∈ es → ps' = ps ∨ Handles ps') →
      proxy.run (.start (.create label timeout aead)) es = some s → s.Dispatched) ↔
    Handles ps := by
  constructor
  · intro h
    by_contra hps
    suffices hbreaks : Breaks (.create label timeout aead) ps by
      obtain ⟨es, s, hes, hrun, hs⟩ := hbreaks
      exact hs (h es s hes hrun)
    by_contra hno
    apply hps
    constructor
    · intro p hp
      have hhttp : (PolicyActor.setPolicy (.create label timeout aead) ps).http =
          (PolicyActor.create label timeout aead).http.setPolicy p := by
        rw [PolicyActor.setPolicy_http, hp]
      have hrequest : (PolicyActor.setPolicy (.create label timeout aead) ps).http.status.request =
          statusOf p allowRestRequest := by
        rw [hhttp]
        rfl
      have hresponse :
          (PolicyActor.setPolicy (.create label timeout aead) ps).http.status.response =
            statusOf p allowRestResponse := by
        rw [hhttp]
        rfl
      constructor
      · intro n hn
        by_contra hbad
        exact hno (breaks_request (hrequest.trans hn) hbad)
      · by_cases hdeny : statusOf p allowRestRequest = .Deny
        · exact Or.inl hdeny
        · refine Or.inr (fun n hn => ?_)
          by_contra hbad
          exact hno (breaks_response (hrequest ▸ hdeny) (hresponse.trans hn) hbad)
    · intro p hp
      constructor
      · intro n hn
        by_contra hbad
        refine hno (breaks_connect (n := n) ?_ (fun h1 => hbad (List.mem_singleton.mpr h1)))
        rw [PolicyActor.setPolicy_tcp, hp]
        exact hn
      · intro n hn
        by_contra hbad
        exact hno (breaks_disconnect hp hn (fun h3 => hbad (List.mem_singleton.mpr h3)))
  · intro hps es s hes hrun
    refine run_dispatched (fun ps' h => ?_) hrun
    rcases hes ps' h with rfl | h
    · exact hps
    · exact h

/-- `fn allow_tcp_connection() -> bool { true }`. -/
def nullary : PreProgram FlatTyp DPFlatLiteral where
  callGraph := CallGraph.empty.addNode allowTcpConnection
  program := ⟨BTreeMap.insert ∅ allowTcpConnection (constantTrue 0), .empty,
    BTreeMap.insert ∅ allowTcpConnection (.new [] .bool)⟩

/-- The loader admits a connection function without parameters; the first connection crashes
the actor. -/
theorem nullary_crashes :
    ((Policies.innerFrom nullary).bind (fun ps => proxy.run
      (.start (.create ⟨[]⟩ 5 noAead))
      [.setPolicy ps, .connect 0 (.empty, .empty) alone])).map State.crashed = some true := by
  decide +kernel

end Armour.Proxy
