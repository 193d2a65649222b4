import Armour.Proxy.Dispatch

/-! # Mediation of HTTP

What an exchange forwards and delivers is decided by the policy whose status it fetched, as
long as that policy stays until the last evaluation of the exchange (`Follows`).  Nothing
keeps the host from replacing the policy in between.
-/

namespace Armour.Proxy

open Armour.Lib Armour.Lang

namespace PolicyActor

/-- The decision is one that the installed policy gives. -/
def Gives (a : PolicyActor) (d : Decision) : Prop :=
  match d.fn.status a.http.status with
  | .Allow => d.args = none ∧ d.answer = .ok (true, none)
  | .Deny => d.args = none ∧ d.answer = .ok (false, none)
  | .Args n => ∃ args o, argList n d.subject d.payload = some args ∧ d.args = some args ∧
      a.evalHttpFn o d.fn args d.ingress = some d.answer

theorem gives_allow {a : PolicyActor} {d : Decision} (h : d.fn.status a.http.status = .Allow)
    (hargs : d.args = none) (hanswer : d.answer = .ok (true, none)) : a.Gives d := by
  unfold Gives
  rw [h]
  exact ⟨hargs, hanswer⟩

theorem gives_deny {a : PolicyActor} {d : Decision} (h : d.fn.status a.http.status = .Deny)
    (hargs : d.args = none) (hanswer : d.answer = .ok (false, none)) : a.Gives d := by
  unfold Gives
  rw [h]
  exact ⟨hargs, hanswer⟩

theorem gives_args {a : PolicyActor} {d : Decision} {n : UInt8} {args : List DPLiteral}
    {o : Outside} (h : d.fn.status a.http.status = .Args n)
    (hlist : argList n d.subject d.payload = some args) (hargs : d.args = some args)
    (heval : a.evalHttpFn o d.fn args d.ingress = some d.answer) : a.Gives d := by
  unfold Gives
  rw [h]
  exact ⟨args, o, hlist, hargs, heval⟩

/-- The status is the one of the installed policy. -/
def Consistent (a : PolicyActor) : Prop :=
  a.http.status.request = statusOf a.http.policy allowRestRequest ∧
  a.http.status.response = statusOf a.http.policy allowRestResponse

/-- The two actors decide on HTTP in the same way. -/
structure SamePolicy (a b : PolicyActor) : Prop where
  policy : b.http.policy = a.http.policy
  request : b.http.status.request = a.http.status.request
  response : b.http.status.response = a.http.status.response
  label : b.label = a.label
  aead : b.aead = a.aead

variable {a b c : PolicyActor}

theorem SamePolicy.refl (a : PolicyActor) : a.SamePolicy a := ⟨rfl, rfl, rfl, rfl, rfl⟩

theorem SamePolicy.trans (h : a.SamePolicy b) (h' : b.SamePolicy c) : a.SamePolicy c :=
  ⟨h'.policy.trans h.policy, h'.request.trans h.request, h'.response.trans h.response,
    h'.label.trans h.label, h'.aead.trans h.aead⟩

theorem Same.samePolicy (h : a.Same b) : a.SamePolicy b := by
  obtain ⟨n, rfl⟩ := h
  exact ⟨rfl, rfl, rfl, rfl, rfl⟩

theorem SamePolicy.evalHttpFn (h : a.SamePolicy b) (o : Outside) (fn : HttpFn)
    (args : List DPLiteral) (xArmour : Option String) :
    b.evalHttpFn o fn args xArmour = a.evalHttpFn o fn args xArmour := by
  unfold PolicyActor.evalHttpFn encryptMeta decryptMeta
  rw [h.policy, h.label, h.aead]

theorem create_consistent (label : Label) (timeout : UInt8) (aead : Aead) :
    (create label timeout aead).Consistent := ⟨rfl, rfl⟩

theorem Consistent.setPolicy (h : a.Consistent) (ps : DPPolicies) :
    (a.setPolicy ps).Consistent := by
  unfold Consistent
  rw [setPolicy_http]
  cases ps.get? .HTTP with
  | none => exact h
  | some p => exact ⟨rfl, rfl⟩

/-- Installing the policy that is installed already changes nothing. -/
theorem Consistent.setPolicy_same (h : a.Consistent) {ps : DPPolicies}
    (hp : ∀ p, ps.get? .HTTP = some p → p = a.http.policy) : a.SamePolicy (a.setPolicy ps) := by
  have hhttp := a.setPolicy_http ps
  cases hps : ps.get? .HTTP with
  | none =>
      rw [hps] at hhttp
      dsimp only at hhttp
      refine ⟨?_, ?_, ?_, a.setPolicy_label ps, a.setPolicy_aead ps⟩ <;> rw [hhttp]
  | some p =>
      rw [hps] at hhttp
      obtain rfl := hp p hps
      refine ⟨by rw [hhttp]; rfl, ?_, ?_, a.setPolicy_label ps, a.setPolicy_aead ps⟩
      · rw [hhttp, h.1]
        rfl
      · rw [hhttp, h.2]
        rfl

end PolicyActor

/-! ## What an exchange did -/

/-- For the request `req`, `out` was sent on the decision `d`. -/
structure ForwardedBy (req : Incoming) (d : Decision) (out : ClientRequest) : Prop where
  fn : d.fn = .Request
  subject : ∃ c, d.subject = req.toExpression c
  payload : out.payload = d.payload
  ingress : d.ingress = getXArmour req.headers
  answer : ∃ m, d.answer = .ok (true, m) ∧ out.headers.values X_ARMOUR = xArmourValues m

/-- The response `res` was delivered on the decision `d`. -/
structure DeliveredBy (res : ServerResponse) (d : Decision) (status : UInt16)
    (headers : HeaderMap) (body : Bytes) : Prop where
  fn : d.fn = .Response
  subject : ∃ c, d.subject = res.toExpression c
  payload : body = d.payload
  ingress : d.ingress = getXArmour res.headers
  status : status = res.status
  answer : ∃ m, d.answer = .ok (true, m) ∧ headers.values X_ARMOUR = xArmourValues m

/-- The policy of the actor decides the exchange: what is forwarded or delivered was allowed,
and a refusal is answered with an error. -/
structure PolicyActor.Mediates (a : PolicyActor) (x : Exchange) : Prop where
  gives : ∀ d ∈ x.decisions, a.Gives d
  forwarded : ∀ out, x.forwarded = some out → ∃ d ∈ x.decisions, ForwardedBy x.req d out
  delivered : ∀ status headers body, x.phase = .answered (.response status headers body) →
    ∃ res, x.server = some res ∧ ∃ d ∈ x.decisions, DeliveredBy res d status headers body
  refused : ∀ d ∈ x.decisions, (∀ m, d.answer ≠ .ok (true, m)) →
    (∃ status text, x.phase = .answered (.error status text)) ∧
      (d.fn = .Request → x.forwarded = none)

namespace Exchange

/-- Nothing was decided or sent. -/
def Fresh (x : Exchange) : Prop := x.decisions = [] ∧ x.forwarded = none

/-- The request was sent on a decision of the policy. -/
def Sent (a : PolicyActor) (x : Exchange) : Prop :=
  ∃ d out, x.decisions = [d] ∧ x.forwarded = some out ∧ a.Gives d ∧ ForwardedBy x.req d out

/-- The status that was fetched is that of the actor. -/
def Fetched (a : PolicyActor) (p : HttpPolicyResponse) : Prop :=
  p.status.request = a.http.status.request ∧ p.status.response = a.http.status.response

/-- The exchange has gone by the policy of the actor so far. -/
def Follows (a : PolicyActor) (x : Exchange) : Prop :=
  match x.phase with
  | .connecting => x.Fresh
  | .reading p => Fetched a p ∧ x.Fresh
  | .requesting p payload args => Fetched a p ∧ x.Fresh ∧ ∃ n,
      a.http.status.request = .Args n ∧
        argList n (x.req.toExpression p.connection) payload = some args
  | .forwarding p => Fetched a p ∧ x.Sent a
  | .receiving p res => Fetched a p ∧ x.Sent a ∧ x.server = some res
  | .responding p res body args => Fetched a p ∧ x.Sent a ∧ x.server = some res ∧ ∃ n,
      a.http.status.response = .Args n ∧
        argList n (res.toExpression p.connection) body = some args
  | .answered _ | .unreachable => a.Mediates x

variable {a b : PolicyActor} {x x' : Exchange}

/-- An exchange that has not sent anything and does not deliver. -/
theorem Fresh.mediates (h : x.Fresh)
    (hphase : ∀ status headers body, x.phase ≠ .answered (.response status headers body)) :
    a.Mediates x where
  gives := by
    intro d hd
    rw [h.1] at hd
    cases hd
  forwarded := by
    intro out hout
    rw [h.2] at hout
    cases hout
  delivered := fun status headers body hp => absurd hp (hphase status headers body)
  refused := by
    intro d hd
    rw [h.1] at hd
    cases hd

theorem Sent.mediates (h : x.Sent a)
    (hphase : ∀ status headers body, x.phase ≠ .answered (.response status headers body)) :
    a.Mediates x := by
  obtain ⟨d, out, hd, hout, hgives, hby⟩ := h
  have hmem : d ∈ x.decisions := by
    rw [hd]
    exact List.mem_singleton_self d
  constructor
  · intro d' hd'
    rw [hd, List.mem_singleton] at hd'
    rwa [hd']
  · intro out' hout'
    rw [hout] at hout'
    cases hout'
    exact ⟨d, hmem, hby⟩
  · exact fun status headers body hp => absurd hp (hphase status headers body)
  · intro d' hd' hrefused
    rw [hd, List.mem_singleton] at hd'
    obtain ⟨m, hm, -⟩ := hby.answer
    exact absurd (hd' ▸ hm) (hrefused m)

theorem Follows.mediates (h : x.Follows a) : a.Mediates x := by
  unfold Follows at h
  cases hp : x.phase with
  | answered r | unreachable =>
      rw [hp] at h
      exact h
  | connecting =>
      rw [hp] at h
      exact Fresh.mediates h (by simp [hp])
  | reading p =>
      rw [hp] at h
      exact h.2.mediates (by simp [hp])
  | requesting p payload args =>
      rw [hp] at h
      exact h.2.1.mediates (by simp [hp])
  | forwarding p =>
      rw [hp] at h
      exact h.2.mediates (by simp [hp])
  | receiving p res =>
      rw [hp] at h
      exact h.2.1.mediates (by simp [hp])
  | responding p res body args =>
      rw [hp] at h
      exact h.2.1.mediates (by simp [hp])

/-! ## Steps of an exchange -/

theorem Fresh.refuse (h : x.Fresh) {d : Decision} (hd : a.Gives d) (status : UInt16)
    (text : String) : a.Mediates ((x.decide d).reply (.error status text)) := by
  have hlist : x.decisions ++ [d] = [d] := by rw [h.1, List.nil_append]
  constructor
  · intro d' hd'
    have hd' : d' ∈ x.decisions ++ [d] := hd'
    rw [hlist, List.mem_singleton] at hd'
    rwa [hd']
  · intro out hout
    have hout : x.forwarded = some out := hout
    rw [h.2] at hout
    cases hout
  · intro status headers body hp
    cases hp
  · exact fun _ _ _ => ⟨⟨status, text, rfl⟩, fun _ => h.2⟩

theorem Fresh.send (h : x.Fresh) {d : Decision} (hd : a.Gives d) {out : ClientRequest}
    {p : HttpPolicyResponse} (hby : ForwardedBy x.req d out) :
    Sent a { x with phase := .forwarding p, decisions := x.decisions ++ [d],
                    forwarded := some out } := by
  refine ⟨d, out, ?_, rfl, hd, hby⟩
  show x.decisions ++ [d] = [d]
  rw [h.1, List.nil_append]

/-- An answer to the client after the request was sent. -/
theorem Sent.answer (h : x.Sent a) {d : Decision} (hd : a.Gives d) (hfn : d.fn = .Response)
    {r : Reply}
    (hdelivered : ∀ status headers body, r = .response status headers body →
      ∃ res, x.server = some res ∧ DeliveredBy res d status headers body)
    (hrefused : (∀ m, d.answer ≠ .ok (true, m)) → ∃ status text, r = .error status text) :
    a.Mediates ((x.decide d).reply r) := by
  obtain ⟨d₀, out, hlist, hout, hgives, hby⟩ := h
  have hmem : d ∈ ((x.decide d).reply r).decisions :=
    List.mem_append_right _ (List.mem_singleton_self d)
  have hcases : ∀ d' ∈ ((x.decide d).reply r).decisions, d' = d₀ ∨ d' = d := by
    intro d' hd'
    have hd' : d' ∈ x.decisions ++ [d] := hd'
    rw [hlist] at hd'
    simpa using hd'
  constructor
  · intro d' hd'
    rcases hcases d' hd' with rfl | rfl
    · exact hgives
    · exact hd
  · intro out' hout'
    have hout' : x.forwarded = some out' := hout'
    rw [hout] at hout'
    cases hout'
    refine ⟨d₀, List.mem_append_left _ ?_, hby⟩
    rw [hlist]
    exact List.mem_singleton_self d₀
  · intro status headers body hp
    cases hp
    obtain ⟨res, hres, hby⟩ := hdelivered status headers body rfl
    exact ⟨res, hres, d, hmem, hby⟩
  · intro d' hd' hno
    rcases hcases d' hd' with rfl | rfl
    · obtain ⟨m, hm, -⟩ := hby.answer
      exact absurd hm (hno m)
    · obtain ⟨status, text, rfl⟩ := hrefused hno
      refine ⟨⟨status, text, rfl⟩, fun hreq => ?_⟩
      rw [hfn] at hreq
      cases hreq

theorem Fresh.onPolicy (h : x.Fresh) {p : HttpPolicyResponse} (hp : Fetched a p) :
    (x.onPolicy p).Follows a := by
  unfold Exchange.onPolicy
  split
  · rename_i hdeny
    have hd : a.Gives (x.statusRequest p [] false) :=
      PolicyActor.gives_deny (hp.1.symm.trans hdeny) rfl rfl
    exact h.refuse hd _ _
  · exact ⟨hp, h⟩

theorem Fresh.onPayload (h : x.Fresh) {p : HttpPolicyResponse} (hp : Fetched a p)
    (hx : x.phase = .reading p) (payload : Bytes) : (x.onPayload p payload).Follows a := by
  unfold Exchange.onPayload
  split
  · rename_i count hcount
    split
    · rename_i args hargs
      exact ⟨hp, h, count, hp.1.symm.trans hcount, hargs⟩
    · exact Fresh.mediates h (by simp)
  · rename_i hallow
    have hd : a.Gives (x.statusRequest p payload true) :=
      PolicyActor.gives_allow (hp.1.symm.trans hallow) rfl rfl
    refine ⟨hp, h.send hd ⟨rfl, ⟨_, rfl⟩, rfl, rfl, none, rfl, ?_⟩⟩
    exact buildRequest_xArmour ..
  · unfold Follows
    rw [hx]
    exact ⟨hp, h⟩

theorem Fresh.onRequest (h : x.Fresh) {p : HttpPolicyResponse} (hp : Fetched a p)
    {payload : Bytes} {args : List DPLiteral} {n : UInt8}
    (hn : a.http.status.request = .Args n)
    (hargs : argList n (x.req.toExpression p.connection) payload = some args) {o : Outside}
    {answer : Except DPError (Bool × Option String)}
    (heval : a.evalHttpFn o .Request args (getXArmour x.req.headers) = some answer) :
    (x.onRequest p payload args answer).Follows a := by
  have hd : a.Gives ⟨.Request, x.req.toExpression p.connection, payload, some args,
      getXArmour x.req.headers, answer⟩ := PolicyActor.gives_args hn hargs rfl heval
  unfold Exchange.onRequest
  dsimp only
  split
  · rename_i metadata
    refine ⟨hp, h.send hd ⟨rfl, ⟨_, rfl⟩, rfl, rfl, metadata, rfl, ?_⟩⟩
    exact buildRequest_xArmour ..
  · exact h.refuse hd _ _
  · exact h.refuse hd _ _

theorem Sent.onResponse (h : x.Sent a) {p : HttpPolicyResponse} (hp : Fetched a p)
    (r : Except (UInt16 × String) ServerResponse) : (x.onResponse p r).Follows a := by
  cases r with
  | error e => exact Sent.mediates (x := x.reply _) h (by simp [reply])
  | ok res =>
      unfold Exchange.onResponse
      dsimp only
      split
      · rename_i hdeny
        have hd : a.Gives (statusResponse p res [] false) :=
          PolicyActor.gives_deny (hp.2.symm.trans hdeny) rfl rfl
        exact Sent.answer (x := { x with server := some res }) h hd rfl
          (fun _ _ _ hr => by cases hr) (fun _ => ⟨_, _, rfl⟩)
      · exact ⟨hp, h, rfl⟩

theorem Sent.onBody (h : x.Sent a) {p : HttpPolicyResponse} (hp : Fetched a p)
    {res : ServerResponse} (hres : x.server = some res) (hx : x.phase = .receiving p res)
    (body : Bytes) : (x.onBody p res body).Follows a := by
  unfold Exchange.onBody
  split
  · rename_i count hcount
    split
    · rename_i args hargs
      exact ⟨hp, h, hres, count, hp.2.symm.trans hcount, hargs⟩
    · exact Sent.mediates h (by simp)
  · rename_i hallow
    have hd : a.Gives (statusResponse p res body true) :=
      PolicyActor.gives_allow (hp.2.symm.trans hallow) rfl rfl
    refine h.answer hd rfl (fun status headers body' hr => ?_)
      (fun hno => absurd rfl (hno none))
    obtain ⟨hvalues, rfl, rfl⟩ := buildResponse_xArmour hr
    exact ⟨res, hres, rfl, ⟨_, rfl⟩, rfl, rfl, rfl, none, rfl, hvalues⟩
  · unfold Follows
    rw [hx]
    exact ⟨hp, h, hres⟩

theorem Sent.onResponseAnswer (h : x.Sent a) {p : HttpPolicyResponse} {res : ServerResponse}
    (hres : x.server = some res) {body : Bytes} {args : List DPLiteral} {n : UInt8}
    (hn : a.http.status.response = .Args n)
    (hargs : argList n (res.toExpression p.connection) body = some args) {o : Outside}
    {answer : Except DPError (Bool × Option String)}
    (heval : a.evalHttpFn o .Response args (getXArmour res.headers) = some answer) :
    (x.onResponseAnswer p res body args answer).Follows a := by
  have hd : a.Gives ⟨.Response, res.toExpression p.connection, body, some args,
      getXArmour res.headers, answer⟩ := PolicyActor.gives_args hn hargs rfl heval
  unfold Exchange.onResponseAnswer
  dsimp only
  split
  · rename_i metadata
    refine h.answer hd rfl (fun status headers body' hr => ?_)
      (fun hno => absurd rfl (hno metadata))
    obtain ⟨hvalues, rfl, rfl⟩ := buildResponse_xArmour hr
    exact ⟨res, hres, rfl, ⟨_, rfl⟩, rfl, rfl, rfl, metadata, rfl, hvalues⟩
  · exact h.answer hd rfl (fun _ _ _ hr => by cases hr) (fun _ => ⟨_, _, rfl⟩)
  · exact h.answer hd rfl (fun _ _ _ hr => by cases hr) (fun _ => ⟨_, _, rfl⟩)

/-- An evaluation of the exchange is still to come. -/
def Asks (x : Exchange) : Prop :=
  match x.phase with
  | .reading p => (∃ n, p.status.request = .Args n) ∨ ∃ n, p.status.response = .Args n
  | .requesting _ _ _ | .responding _ _ _ _ => True
  | .forwarding p | .receiving p _ => ∃ n, p.status.response = .Args n
  | .connecting | .answered _ | .unreachable => False

/-- The status is fetched from the actor at hand. -/
theorem Follows.fetch {c : PolicyActor} (h : x.Follows c) (hsame : a.SamePolicy b)
    {ends : ID × ID} {b' : PolicyActor} (hstep : x.step b (.policy ends) = some (b', x')) :
    x'.Follows a := by
  unfold Follows at h
  simp only [Exchange.step] at hstep
  split at hstep
  · rename_i hp
    cases hstep
    rw [hp] at h
    have hstatus := b.getHttpPolicy_status ends
    exact Fresh.onPolicy h ⟨by rw [hstatus, hsame.request], by rw [hstatus, hsame.response]⟩
  · cases hstep

/-- Any other step follows the same actor, if that is the one that is asked. -/
theorem Follows.step {c : PolicyActor} (h : x.Follows a) (hsame : x.Asks → a.SamePolicy b)
    {ev : HttpEvent} (hev : ∀ ends, ev ≠ .policy ends) (hstep : x.step b ev = some (c, x')) :
    x'.Follows a := by
  unfold Follows at h
  unfold Asks at hsame
  cases ev with
  | policy ends => exact absurd rfl (hev ends)
  | payload r =>
      simp only [Exchange.step] at hstep
      split at hstep
      · rename_i p payload hp
        cases hstep
        rw [hp] at h
        exact h.2.onPayload h.1 hp payload
      · rename_i p status text hp
        cases hstep
        rw [hp] at h
        exact Fresh.mediates h.2 (by simp [reply])
      · cases hstep
  | evaluated o =>
      simp only [Exchange.step] at hstep
      split at hstep
      · rename_i p payload args hp
        obtain ⟨answer, heval, hr⟩ := Option.map_eq_some_iff.mp hstep
        cases hr
        rw [hp] at h hsame
        obtain ⟨hfetched, hfresh, n, hn, hargs⟩ := h
        rw [(hsame trivial).evalHttpFn] at heval
        exact hfresh.onRequest hfetched hn hargs heval
      · rename_i p res body args hp
        obtain ⟨answer, heval, hr⟩ := Option.map_eq_some_iff.mp hstep
        cases hr
        rw [hp] at h hsame
        obtain ⟨-, hsent, hres, n, hn, hargs⟩ := h
        rw [(hsame trivial).evalHttpFn] at heval
        exact hsent.onResponseAnswer hres hn hargs heval
      · cases hstep
  | response r =>
      simp only [Exchange.step] at hstep
      split at hstep
      · rename_i p hp
        cases hstep
        rw [hp] at h
        exact h.2.onResponse h.1 r
      · cases hstep
  | body r =>
      simp only [Exchange.step] at hstep
      split at hstep
      · rename_i p res body hp
        cases hstep
        rw [hp] at h
        exact h.2.1.onBody h.1 h.2.2 hp body
      · rename_i p res status text hp
        cases hstep
        rw [hp] at h
        exact Sent.mediates h.2.1 (by simp [reply])
      · cases hstep
  | mailboxError =>
      simp only [Exchange.step] at hstep
      split at hstep
      · rename_i hp
        cases hstep
        rw [hp] at h
        exact Fresh.mediates h (by simp [reply, internal])
      · rename_i p payload args hp
        cases hstep
        rw [hp] at h
        exact Fresh.mediates h.2.1 (by simp [reply, internal])
      · rename_i p res body args hp
        cases hstep
        rw [hp] at h
        exact Sent.mediates h.2.1 (by simp [reply, internal])
      · cases hstep

theorem start_follows (a : PolicyActor) (req : Incoming) (uri : Option String) :
    (start req uri).Follows a := by
  cases uri with
  | some uri => exact ⟨rfl, rfl⟩
  | none => exact Fresh.mediates (x := start req none) ⟨rfl, rfl⟩ (by simp [start, internal])

theorem start_not_asks (req : Incoming) (uri : Option String) : ¬ (start req uri).Asks := by
  cases uri <;> exact id

/-- Evaluations do not become due again, except by fetching a status. -/
theorem Asks.of_step {c : PolicyActor} {ev : HttpEvent} (hev : ∀ ends, ev ≠ .policy ends)
    (hstep : x.step b ev = some (c, x')) (h : x'.Asks) : x.Asks := by
  cases ev with
  | policy ends => exact absurd rfl (hev ends)
  | payload r =>
      simp only [Exchange.step] at hstep
      split at hstep
      · rename_i p payload hp
        cases hstep
        unfold Asks
        rw [hp]
        unfold onPayload at h
        split at h
        · rename_i count hcount
          exact Or.inl ⟨count, hcount⟩
        · exact Or.inr h
        · unfold Asks at h
          rwa [hp] at h
      · cases hstep
        exact h.elim
      · cases hstep
  | evaluated o =>
      simp only [Exchange.step] at hstep
      split at hstep
      · rename_i p payload args hp
        unfold Asks
        rw [hp]
        trivial
      · rename_i p res body args hp
        unfold Asks
        rw [hp]
        trivial
      · cases hstep
  | response r =>
      simp only [Exchange.step] at hstep
      split at hstep
      · rename_i p hp
        cases hstep
        unfold Asks
        rw [hp]
        unfold onResponse at h
        split at h
        · dsimp only at h
          split at h
          · exact h.elim
          · exact h
        · exact h.elim
      · cases hstep
  | body r =>
      simp only [Exchange.step] at hstep
      split at hstep
      · rename_i p res body hp
        cases hstep
        unfold Asks
        rw [hp]
        unfold onBody at h
        split at h
        · rename_i count hcount
          exact ⟨count, hcount⟩
        · exact h.elim
        · unfold Asks at h
          rwa [hp] at h
      · cases hstep
        exact h.elim
      · cases hstep
  | mailboxError =>
      simp only [Exchange.step] at hstep
      split at hstep <;> cases hstep <;> exact h.elim

end Exchange

/-! ## Runs -/

/-- The HTTP policy is not replaced while exchange `i` still asks for an evaluation. -/
def KeepsPolicy (i : Nat) (s : State) (e : Event) : Prop :=
  ∀ ps p, e = .setPolicy ps → ps.get? .HTTP = some p →
    p = s.actor.http.policy ∨ ∀ x, s.exchanges i = some x → ¬ x.Asks

namespace State

variable {s s' : State} {e : Event}

theorem step_consistent (hs : s.actor.Consistent) (h : s.step e = some s') :
    s'.actor.Consistent := by
  rcases step_actor h with ⟨ps, -, ha⟩ | ⟨secs, -, ha⟩ | ⟨n, ha⟩
  · rw [ha]
    exact hs.setPolicy ps
  · rw [ha]
    exact hs
  · rw [ha]
    exact hs

/-- A step that does not install another HTTP policy decides in the same way afterwards. -/
theorem step_samePolicy (hs : s.actor.Consistent) (h : s.step e = some s')
    (he : ∀ ps p, e = .setPolicy ps → ps.get? .HTTP = some p → p = s.actor.http.policy) :
    s.actor.SamePolicy s'.actor := by
  rcases step_actor h with ⟨ps, rfl, ha⟩ | ⟨secs, -, ha⟩ | ha
  · rw [ha]
    exact hs.setPolicy_same (fun p hp => he ps p rfl hp)
  · rw [ha]
    exact ⟨rfl, rfl, rfl, rfl, rfl⟩
  · exact ha.samePolicy

end State

/-- What holds of exchange `i` along a run: it follows a policy that was installed, which is
still there while the exchange asks. -/
def OnePolicy (i : Nat) (start : State) (es : List Event) (s : State) : Prop :=
  s.actor.Consistent ∧ ∀ x, s.exchanges i = some x →
    ∃ t, proxy.Visits start es t ∧ x.Follows t.actor ∧ (x.Asks → t.actor.SamePolicy s.actor)

theorem OnePolicy.step {i : Nat} {start s s' : State} {es : List Event} {e : Event}
    (hrun : proxy.run start es = some s) (hinv : OnePolicy i start es s)
    (hkeep : KeepsPolicy i s e) (hstep : proxy.step s e = some s') :
    OnePolicy i start (es ++ [e]) s' := by
  obtain ⟨hcons, hex⟩ := hinv
  refine ⟨State.step_consistent hcons hstep, fun x' hx' => ?_⟩
  rcases State.step_exchange hstep hx' with
    hx | ⟨req, uri, -, -, rfl⟩ | ⟨ev, x, rfl, hx, hev⟩
  · obtain ⟨t, ht, hfollows, hsame⟩ := hex x' hx
    refine ⟨t, ht.mono [e], hfollows, fun hasks => (hsame hasks).trans ?_⟩
    refine State.step_samePolicy hcons hstep (fun ps p he hp => ?_)
    exact (hkeep ps p he hp).resolve_right (fun h => h x' hx hasks)
  · exact ⟨start, .start start _, Exchange.start_follows _ req uri,
      fun h => absurd h (Exchange.start_not_asks req uri)⟩
  · obtain ⟨t, ht, hfollows, hsame⟩ := hex x hx
    have hkept : s.actor.SamePolicy s'.actor := (Exchange.step_same hev).samePolicy
    by_cases hpolicy : ∃ ends, ev = .policy ends
    · obtain ⟨ends, rfl⟩ := hpolicy
      exact ⟨s, (Machine.Visits.last hrun).mono _, hfollows.fetch (.refl _) hev, fun _ => hkept⟩
    · have hne : ∀ ends, ev ≠ .policy ends := fun ends h => hpolicy ⟨ends, h⟩
      exact ⟨t, ht.mono _, hfollows.step hsame hne hev,
        fun hasks => (hsame (hasks.of_step hne hev)).trans hkept⟩

/-- An exchange is decided by one installed policy, if the policy is not replaced while the
exchange asks for an evaluation. -/
theorem exchange_one_policy {label : Label} {timeout : UInt8} {aead : Aead} {es : List Event}
    {i : Nat} (keeps : proxy.Steps (KeepsPolicy i) (.start (.create label timeout aead)) es)
    {s : State} (hrun : proxy.run (.start (.create label timeout aead)) es = some s)
    {x : Exchange} (hx : s.exchanges i = some x) :
    ∃ t, proxy.Visits (.start (.create label timeout aead)) es t ∧ t.actor.Mediates x := by
  have hinv : OnePolicy i (.start (.create label timeout aead)) es s := by
    refine Machine.run_induction (P := OnePolicy i (.start (.create label timeout aead))) ?_
      (fun es t e t' hrun hinv hok hstep => hinv.step hrun hok hstep) keeps hrun
    exact ⟨PolicyActor.create_consistent label timeout aead, fun x h => by cases h⟩
  obtain ⟨t, ht, hfollows, -⟩ := hinv.2 x hx
  exact ⟨t, ht, hfollows.mediates⟩

theorem keepsPolicy_steps {i : Nat} {s : State} {es : List Event}
    (h : ∀ e ∈ es, ∀ ps, e ≠ .setPolicy ps) : proxy.Steps (KeepsPolicy i) s es :=
  (Machine.Steps.of_forall h).mono (fun _ _ hne ps _ he _ => absurd he (hne ps))

/-- A proxy before it is told anything. -/
def newProxy : State := .start (.create ⟨[.str "proxy"]⟩ 5 noAead)

/-- A policy of two functions without parameters that answer with constants. -/
def constantPolicy (request response : Bool) : DPPolicies :=
  BTreeMap.insert ∅ .HTTP
    ⟨⟨(BTreeMap.insert ∅ allowRestRequest (.litExpr (.bool request))).insert allowRestResponse
        (.litExpr (.bool response)), .empty, ∅⟩,
      FnPolicies.setArgs (FnPolicies.setArgs ∅ allowRestRequest 0) allowRestResponse 0⟩

/-- A request is received, allowed and forwarded. -/
def requestEvents : List Event :=
  [.request 0 emptyRequest (some "/"), .http 0 (.policy (.empty, .empty)),
    .http 0 (.payload (.ok [])), .http 0 (.evaluated alone)]

/-- Its response is received and allowed; it carries metadata of its own. -/
def responseEvents : List Event :=
  [.http 0 (.response (.ok ⟨200, [(X_ARMOUR, [120])]⟩)), .http 0 (.body (.ok [1])),
    .http 0 (.evaluated alone)]

theorem delivered_one_policy :
    ∃ s x, proxy.run newProxy
        (.setPolicy (constantPolicy true true) :: (requestEvents ++ responseEvents)) = some s ∧
      s.exchanges 0 = some x ∧ x.phase = .answered (.response 200 [] [1]) ∧
      ∃ t, proxy.Visits newProxy
          (.setPolicy (constantPolicy true true) :: (requestEvents ++ responseEvents)) t ∧
        t.actor.Mediates x := by
  obtain ⟨s, x, hrun, hx, hphase⟩ : ∃ s x, proxy.run newProxy
      (.setPolicy (constantPolicy true true) :: (requestEvents ++ responseEvents)) = some s ∧
      s.exchanges 0 = some x ∧ x.phase = .answered (.response 200 [] [1]) :=
    ⟨_, _, rfl, rfl, rfl⟩
  refine ⟨s, x, hrun, hx, hphase, exchange_one_policy (i := 0) ?_ hrun hx⟩
  refine .cons (fun _ _ _ _ => Or.inr (fun _ h => by cases h)) (fun _ _ => keepsPolicy_steps ?_)
  simp [requestEvents, responseEvents]

/-! ## A policy that stays -/

/-- Exchange `i`, where it exists, follows a policy that is still there. -/
def FollowsStaying (i : Nat) (a : PolicyActor) (s : State) : Prop :=
  s.actor.Consistent ∧ a.SamePolicy s.actor ∧ ∀ x, s.exchanges i = some x → x.Follows a

theorem FollowsStaying.step {i : Nat} {a : PolicyActor} {s s' : State} {e : Event}
    (h : FollowsStaying i a s)
    (he : ∀ ps p, e = .setPolicy ps → ps.get? .HTTP = some p → p = a.http.policy)
    (hstep : proxy.step s e = some s') : FollowsStaying i a s' := by
  obtain ⟨hcons, hsame, hex⟩ := h
  have hkept : s.actor.SamePolicy s'.actor := by
    refine State.step_samePolicy hcons hstep (fun ps p hps hp => ?_)
    rw [hsame.policy]
    exact he ps p hps hp
  refine ⟨State.step_consistent hcons hstep, hsame.trans hkept, fun x' hx' => ?_⟩
  rcases State.step_exchange hstep hx' with
    hx | ⟨req, uri, -, -, rfl⟩ | ⟨ev, x, rfl, hx, hev⟩
  · exact hex x' hx
  · exact Exchange.start_follows a req uri
  · by_cases hpolicy : ∃ ends, ev = .policy ends
    · obtain ⟨ends, rfl⟩ := hpolicy
      exact (hex x hx).fetch hsame hev
    · exact (hex x hx).step (fun _ => hsame) (fun ends h => hpolicy ⟨ends, h⟩) hev

theorem State.step_mailboxError {s s' : State} {i : Nat} {x : Exchange}
    (hx : s.exchanges i = some x) (h : proxy.step s (.http i .mailboxError) = some s') :
    ∃ x', s'.exchanges i = some x' ∧ x'.phase = .answered internal ∧
      x'.forwarded = x.forwarded := by
  rw [proxy_step] at h
  have hc := not_crashed h
  simp only [step, hc, Bool.false_eq_true, if_false, hx] at h
  obtain ⟨⟨b, x'⟩, hstep, rfl⟩ := Option.map_eq_some_iff.mp h
  refine ⟨x', setExchange_same _ _ _, ?_⟩
  simp only [Exchange.step] at hstep
  split at hstep <;> cases hstep <;> exact ⟨rfl, rfl⟩

theorem consistent_run {label : Label} {timeout : UInt8} {aead : Aead} {es : List Event}
    {t : State} (hrun : proxy.run (.start (.create label timeout aead)) es = some t) :
    t.actor.Consistent :=
  Machine.run_preserves (P := fun s => s.actor.Consistent)
    (fun _ _ _ h hstep => State.step_consistent h hstep)
    (PolicyActor.create_consistent label timeout aead) hrun

theorem followsStaying_run {i : Nat} {t₀ s : State} {es : List Event}
    (hcons : t₀.actor.Consistent) (hnew : t₀.exchanges i = none)
    (stays : ∀ ps p, .setPolicy ps ∈ es → ps.get? .HTTP = some p →
      p = t₀.actor.http.policy)
    (hrun : proxy.run t₀ es = some s) : FollowsStaying i t₀.actor s := by
  have hsteps : proxy.Steps (fun _ e => ∀ ps p, e = .setPolicy ps →
      ps.get? .HTTP = some p → p = t₀.actor.http.policy) t₀ es := by
    apply Machine.Steps.of_forall (p := fun e => ∀ ps p, e = Event.setPolicy ps →
      ps.get? .HTTP = some p → p = t₀.actor.http.policy)
    rintro e he ps p rfl hp
    exact stays ps p he hp
  have hstart : FollowsStaying i t₀.actor t₀ := by
    refine ⟨hcons, .refl _, fun x h => ?_⟩
    rw [hnew] at h
    cases h
  exact Machine.run_invariant (P := FollowsStaying i t₀.actor)
    (fun _ _ _ h he hstep => h.step he hstep) hstart hsteps hrun

/-- A policy that stays during an exchange decides what the exchange forwards and delivers. -/
theorem exchange_mediated {label : Label} {timeout : UInt8} {aead : Aead} {es₀ : List Event}
    {t₀ : State} (hrun₀ : proxy.run (.start (.create label timeout aead)) es₀ = some t₀)
    {i : Nat} (hnew : t₀.exchanges i = none) {es : List Event}
    (stays : ∀ ps p, .setPolicy ps ∈ es → ps.get? .HTTP = some p →
      p = t₀.actor.http.policy)
    {s : State} (hrun : proxy.run t₀ es = some s) {x : Exchange} (hx : s.exchanges i = some x) :
    t₀.actor.Mediates x ∧
      ∀ s', proxy.step s (.http i .mailboxError) = some s' →
        ∃ x', s'.exchanges i = some x' ∧ x'.phase = .answered internal ∧
          x'.forwarded = x.forwarded := by
  have hfollows := followsStaying_run (consistent_run hrun₀) hnew stays hrun
  exact ⟨(hfollows.2.2 x hx).mediates, fun s' h => State.step_mailboxError hx h⟩

/-- The response that is delivered does not carry the metadata of the server. -/
theorem delivered_mediated :
    ∃ t₀ s x, proxy.run newProxy [.setPolicy (constantPolicy true true)] = some t₀ ∧
      proxy.run t₀ (requestEvents ++ responseEvents) = some s ∧ s.exchanges 0 = some x ∧
      x.phase = .answered (.response 200 [] [1]) ∧ t₀.actor.Mediates x := by
  obtain ⟨t₀, s, x, hrun₀, hnew, hrun, hx, hphase⟩ : ∃ t₀ s x,
      proxy.run newProxy [.setPolicy (constantPolicy true true)] = some t₀ ∧
      t₀.exchanges 0 = none ∧ proxy.run t₀ (requestEvents ++ responseEvents) = some s ∧
      s.exchanges 0 = some x ∧ x.phase = .answered (.response 200 [] [1]) :=
    ⟨_, _, _, rfl, rfl, rfl, rfl, rfl⟩
  refine ⟨t₀, s, x, hrun₀, hrun, hx, hphase, (exchange_mediated hrun₀ hnew ?_ hrun hx).1⟩
  intro ps p h
  simp [requestEvents, responseEvents] at h

/-! ## A policy that is replaced -/

theorem eval_constant {env : Env DPFlatLiteral} {f : String} {b : Bool}
    (h : env.get f = some (.litExpr (.bool b))) :
    eval env (.callExpr f [] false) = pure (.lit (.bool b)) := by
  have hbody : eval env (.litExpr (.bool b)) = pure (.lit (.bool b)) := eval_eq env _
  rw [eval_eq]
  simp only [evalStep, Comp.traverse_nil, pure_bind, Outcome.literals, evalCall, h, applyAll,
    List.map_nil]
  show (do return (← eval env (.litExpr (.bool b))).stripReturn) = _
  rw [hbody]
  rfl

/-- A function with a constant body answers the constant, whatever it meets outside. -/
theorem evaluate_constant {o : Outside} {policy : DPPolicy} {f : String} {b : Bool}
    (h : policy.program.code.get? f = some (.litExpr (.bool b))) {m : IngressEgress}
    {r : Except DPError (Bool × Option Meta)}
    (hr : evaluate tryBool o policy f [] m = some r) : ∃ metadata, r = .ok (b, metadata) := by
  obtain ⟨⟨res, w⟩, hanswer, rfl⟩ := evaluate_eq_some hr
  have henv : (dpEnv o policy).get f = some (.litExpr (.bool b)) := h
  rw [List.map_nil, eval_constant henv] at hanswer
  cases hanswer
  exact ⟨_, rfl⟩

/-- A policy allows what its constant functions say. -/
theorem gives_constant {a : PolicyActor} {d : Decision} {b : Bool}
    (hstatus : d.fn.status a.http.status = .Args 0)
    (hcode : a.http.policy.program.code.get? d.fn.function = some (.litExpr (.bool b)))
    (hgives : a.Gives d) {b' : Bool} {m : Option String} (hanswer : d.answer = .ok (b', m)) :
    b' = b := by
  unfold PolicyActor.Gives at hgives
  rw [hstatus] at hgives
  obtain ⟨args, o, hargs, -, heval⟩ := hgives
  cases hargs
  obtain ⟨r, hr, hmap⟩ := Option.map_eq_some_iff.mp heval
  obtain ⟨metadata, rfl⟩ := evaluate_constant hcode hr
  rw [hanswer] at hmap
  cases hmap
  rfl

/-- The proxy still denies, or has installed one of two policies: the one allows requests, the
other responses. -/
def DeniesOne (a : PolicyActor) : Prop :=
  a.http.status.request = .Deny ∨
  ∃ b, a.http.status.request = .Args 0 ∧ a.http.status.response = .Args 0 ∧
    a.http.policy.program.code.get? allowRestRequest = some (.litExpr (.bool b)) ∧
    a.http.policy.program.code.get? allowRestResponse = some (.litExpr (.bool (!b)))

theorem DeniesOne.not_gives {a : PolicyActor} (h : DeniesOne a) {d d' : Decision}
    (hd : d.fn = .Request) (hd' : d'.fn = .Response) (hanswer : d.answer = .ok (true, none))
    (hanswer' : d'.answer = .ok (true, none)) : ¬ (a.Gives d ∧ a.Gives d') := by
  rintro ⟨hgives, hgives'⟩
  rcases h with hdeny | ⟨b, hreq, hres, hcode, hcode'⟩
  · unfold PolicyActor.Gives at hgives
    rw [hd, HttpFn.status, hdeny] at hgives
    rw [hanswer] at hgives
    exact absurd hgives.2 (by simp)
  · have hb := gives_constant (by rw [hd]; exact hreq) (by rw [hd]; exact hcode) hgives hanswer
    have hb' := gives_constant (by rw [hd']; exact hres) (by rw [hd']; exact hcode') hgives'
      hanswer'
    rw [← hb] at hb'
    cases hb'

theorem DeniesOne.step {s s' : State} {e : Event} (h : DeniesOne s.actor)
    (he : ∀ ps, e = .setPolicy ps → ∃ b, ps = constantPolicy b (!b))
    (hstep : proxy.step s e = some s') : DeniesOne s'.actor := by
  rcases State.step_actor hstep with ⟨ps, rfl, ha⟩ | ⟨secs, -, ha⟩ | ⟨n, ha⟩
  · obtain ⟨b, rfl⟩ := he ps rfl
    rw [ha]
    cases b <;> exact Or.inr ⟨_, rfl, rfl, rfl, rfl⟩
  · rw [ha]
    exact h
  · rw [ha]
    exact h

/-- The policy that allows requests only is replaced, after the request was forwarded, by the
one that allows responses only. -/
def replacedEvents : List Event :=
  .setPolicy (constantPolicy true false) :: requestEvents ++
    .setPolicy (constantPolicy false true) :: responseEvents

/-- The response is delivered, though no policy that was installed allows the exchange. -/
theorem delivered_two_policies :
    ∃ s x, proxy.run newProxy replacedEvents = some s ∧ s.exchanges 0 = some x ∧
      x.phase = .answered (.response 200 [] [1]) ∧
      ∀ t, proxy.Visits newProxy replacedEvents t → ¬ t.actor.Mediates x := by
  obtain ⟨s, x, d, d', hrun, hx, hphase, hlist, hd, hd', ha, ha'⟩ : ∃ s x d d',
      proxy.run newProxy replacedEvents = some s ∧ s.exchanges 0 = some x ∧
      x.phase = .answered (.response 200 [] [1]) ∧ x.decisions = [d, d'] ∧ d.fn = .Request ∧
      d'.fn = .Response ∧ d.answer = .ok (true, none) ∧ d'.answer = .ok (true, none) :=
    ⟨_, _, _, _, rfl, rfl, rfl, rfl, rfl, rfl, rfl, rfl⟩
  refine ⟨s, x, hrun, hx, hphase, fun t ht hmediates => ?_⟩
  obtain ⟨es, hes, ht⟩ := ht
  have hpolicies : ∀ e ∈ es, ∀ ps, e = .setPolicy ps →
      ∃ b, ps = constantPolicy b (!b) := by
    rintro e he ps rfl
    have hmem := hes.subset he
    simp only [replacedEvents, requestEvents, responseEvents, List.cons_append, List.nil_append,
      List.mem_cons, Event.setPolicy.injEq, reduceCtorEq, List.not_mem_nil, or_false,
      false_or] at hmem
    rcases hmem with rfl | rfl
    · exact ⟨true, rfl⟩
    · exact ⟨false, rfl⟩
  have hdenies : DeniesOne t.actor :=
    Machine.run_invariant (P := fun s => DeniesOne s.actor)
      (fun _ _ _ h he hstep => h.step he hstep) (Or.inl rfl) (Machine.Steps.of_forall hpolicies)
      ht
  have hgives := hmediates.gives
  rw [hlist] at hgives
  exact hdenies.not_gives hd hd' ha ha'
    ⟨hgives d List.mem_cons_self, hgives d' (List.mem_cons_of_mem _ List.mem_cons_self)⟩

end Armour.Proxy
