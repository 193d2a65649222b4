import Armour.Lib.Machine
import Armour.Proxy.Http
import Armour.Proxy.Tcp
import Mathlib.Logic.Function.Basic

/-! # The proxy

The policy actor with the exchanges and the connections of its two proxies.  They run
concurrently: an event is one message of the host, or one step of one exchange or connection,
in any order.
-/

namespace Armour.Proxy

open Armour.Lib Armour.Lang

/-- `mailbox` holds the reports of connections that have stopped, `disconnects` the evaluations
of `on_tcp_disconnect` that were made, both with the connection they are about. -/
structure State where
  actor : PolicyActor
  exchanges : Nat → Option Exchange
  connections : Nat → Option TcpConnection
  mailbox : List (Nat × ConnectionStats)
  disconnects : List (Nat × List DPLiteral)
  /-- The policy actor has reached an `unreachable!()`. -/
  crashed : Bool

inductive Event where
  /-- `PolicyRequest::SetPolicy`. -/
  | setPolicy (policies : DPPolicies)
  /-- `PolicyRequest::Timeout`. -/
  | setTimeout (secs : UInt8)
  /-- A request of a client, with its forwarding URI. -/
  | request (i : Nat) (req : Incoming) (uri : Option String)
  | http (i : Nat) (ev : HttpEvent)
  /-- A client connects, and `GetTcpPolicy` is handled. -/
  | connect (j : Nat) (ends : ID × ID) (o : Outside)
  /-- A client connects, but the policy actor does not answer. -/
  | connectFailed (j : Nat)
  /-- The server is connected to, or not. -/
  | connected (j : Nat) (ok : Bool)
  | data (j : Nat) (i : TcpData.Input)
  /-- `stopped`. -/
  | stopped (j : Nat)
  /-- The first `ConnectionStats` of the mailbox is handled. -/
  | report (o : Outside)

namespace State

/-- A proxy without exchanges and connections. -/
def start (a : PolicyActor) : State := ⟨a, fun _ => none, fun _ => none, [], [], false⟩

def setExchange (s : State) (i : Nat) (x : Exchange) : State :=
  { s with exchanges := Function.update s.exchanges i (some x) }

def setConnection (s : State) (j : Nat) (c : TcpConnection) : State :=
  { s with connections := Function.update s.connections j (some c) }

/-- The answer to `GetTcpPolicy` of a new connection. -/
def onTcpPolicy (s : State) (j : Nat) (seen : Option (List DPLiteral)) :
    Handled (Except DPError TcpPolicyStatus) → State
  | .answer (.ok (.Allow stats)) => s.setConnection j ⟨.allowed stats, seen⟩
  | .answer _ => s.setConnection j ⟨.refused, seen⟩
  | .unreachable => { s with crashed := true }

/-- `TcpData` has stopped: its statistics are sent, if it has any. -/
def onStopped (s : State) (j : Nat) (seen : Option (List DPLiteral)) (d : TcpData) : State :=
  { s.setConnection j ⟨.ended d, seen⟩ with
    mailbox := s.mailbox ++ (d.connection.map (fun msg => (j, msg))).toList }

/-- `ConnectionStats` of connection `j` was handled. -/
def onReport (s : State) (j : Nat) (rest : List (Nat × ConnectionStats)) :
    Handled (Option (List DPLiteral)) → State
  | .answer args => { s with
      mailbox := rest
      disconnects := s.disconnects ++ (args.map (fun args => (j, args))).toList }
  | .unreachable => { s with mailbox := rest, crashed := true }

/-- One event; none happens after a crash of the policy actor. -/
def step (s : State) (e : Event) : Option State :=
  if s.crashed then none
  else match e with
    | .setPolicy policies => some { s with actor := s.actor.setPolicy policies }
    | .setTimeout secs => some { s with actor := s.actor.setTimeout secs }
    | .request i req uri =>
        match s.exchanges i with
        | none => some (s.setExchange i (.start req uri))
        | some _ => none
    | .http i ev =>
        match s.exchanges i with
        | some x => (x.step s.actor ev).map
            (fun r => { s with actor := r.1 }.setExchange i r.2)
        | none => none
    | .connect j ends o =>
        match s.connections j with
        | none => (s.actor.getTcpPolicy ends o).map
            (fun r => { s with actor := r.1 }.onTcpPolicy j r.2.1 r.2.2)
        | some _ => none
    | .connectFailed j =>
        match s.connections j with
        | none => some (s.setConnection j ⟨.refused, none⟩)
        | some _ => none
    | .connected j ok =>
        match s.connections j with
        | some ⟨.allowed stats, seen⟩ =>
            some (s.setConnection j
              ⟨if ok then .established (.start stats) else .refused, seen⟩)
        | _ => none
    | .data j i =>
        match s.connections j with
        | some ⟨.established d, seen⟩ =>
            some (s.setConnection j ⟨.established (d.input i), seen⟩)
        | _ => none
    | .stopped j =>
        match s.connections j with
        | some ⟨.established d, seen⟩ =>
            if d.stopping then some (s.onStopped j seen d) else none
        | _ => none
    | .report o =>
        match s.mailbox with
        | (j, msg) :: rest => (s.actor.connectionStats msg o).map (s.onReport j rest)
        | [] => none

end State

/-- The proxy as a machine. -/
def proxy : Machine State Event := ⟨State.step⟩

theorem proxy_step (s : State) (e : Event) : proxy.step s e = s.step e := rfl

/-! ## What a step changes -/

namespace PolicyActor

/-- The same actor, up to the number of connections. -/
def Same (a b : PolicyActor) : Prop := ∃ n, b = { a with connectionNumber := n }

theorem Same.refl (a : PolicyActor) : a.Same a := ⟨a.connectionNumber, rfl⟩

theorem getHttpPolicy_same (a : PolicyActor) (ends : ID × ID) :
    a.Same (a.getHttpPolicy ends).1 := by
  unfold getHttpPolicy
  by_cases h : a.http.status.allowAll
  · simp only [h, if_true]
    exact .refl a
  · simp only [h]
    exact ⟨_, rfl⟩

theorem getHttpPolicy_status (a : PolicyActor) (ends : ID × ID) :
    (a.getHttpPolicy ends).2.status = a.http.status := by
  unfold getHttpPolicy
  by_cases h : a.http.status.allowAll
  · simp only [h, if_true]
  · simp only [h]
    rfl

theorem getTcpPolicy_same {a b : PolicyActor} {ends : ID × ID} {o : Outside}
    {r : Option (List DPLiteral) × Handled (Except DPError TcpPolicyStatus)}
    (h : a.getTcpPolicy ends o = some (b, r)) : a.Same b := by
  unfold getTcpPolicy at h
  split at h
  · cases h
    exact ⟨_, rfl⟩
  · cases h
    exact .refl a
  · obtain ⟨r, -, hr⟩ := Option.map_eq_some_iff.mp h
    cases hr
    exact ⟨_, rfl⟩
  · cases h
    exact .refl a

end PolicyActor

theorem Exchange.step_same {a b : PolicyActor} {x x' : Exchange} {ev : HttpEvent}
    (h : x.step a ev = some (b, x')) : a.Same b := by
  cases ev with
  | policy ends =>
      simp only [step] at h
      split at h
      · cases h
        exact a.getHttpPolicy_same ends
      · cases h
  | payload r =>
      simp only [step] at h
      split at h <;> cases h <;> exact .refl a
  | evaluated o =>
      simp only [step] at h
      split at h
      · obtain ⟨r, -, hr⟩ := Option.map_eq_some_iff.mp h
        cases hr
        exact .refl a
      · obtain ⟨r, -, hr⟩ := Option.map_eq_some_iff.mp h
        cases hr
        exact .refl a
      · cases h
  | response r =>
      simp only [step] at h
      split at h <;> cases h
      exact .refl a
  | body r =>
      simp only [step] at h
      split at h <;> cases h <;> exact .refl a
  | mailboxError =>
      simp only [step] at h
      split at h <;> cases h <;> exact .refl a

namespace State

variable {s s' : State} {e : Event}

@[simp] theorem setExchange_actor (i : Nat) (x : Exchange) : (s.setExchange i x).actor = s.actor :=
  rfl

@[simp] theorem setConnection_actor (j : Nat) (c : TcpConnection) :
    (s.setConnection j c).actor = s.actor := rfl

@[simp] theorem setConnection_exchanges (j : Nat) (c : TcpConnection) :
    (s.setConnection j c).exchanges = s.exchanges := rfl

@[simp] theorem onTcpPolicy_actor (j : Nat) (seen : Option (List DPLiteral))
    (r : Handled (Except DPError TcpPolicyStatus)) : (s.onTcpPolicy j seen r).actor = s.actor := by
  unfold onTcpPolicy
  split <;> rfl

@[simp] theorem onTcpPolicy_exchanges (j : Nat) (seen : Option (List DPLiteral))
    (r : Handled (Except DPError TcpPolicyStatus)) :
    (s.onTcpPolicy j seen r).exchanges = s.exchanges := by
  unfold onTcpPolicy
  split <;> rfl

@[simp] theorem onReport_actor (j : Nat) (rest : List (Nat × ConnectionStats))
    (r : Handled (Option (List DPLiteral))) : (s.onReport j rest r).actor = s.actor := by
  cases r <;> rfl

@[simp] theorem onReport_exchanges (j : Nat) (rest : List (Nat × ConnectionStats))
    (r : Handled (Option (List DPLiteral))) : (s.onReport j rest r).exchanges = s.exchanges := by
  cases r <;> rfl

theorem setExchange_get {i k : Nat} {x x' : Exchange}
    (h : (s.setExchange i x).exchanges k = some x') :
    (k = i ∧ x' = x) ∨ s.exchanges k = some x' := by
  simp only [setExchange, Function.update_apply] at h
  by_cases hk : k = i
  · rw [if_pos hk] at h
    exact Or.inl ⟨hk, (Option.some.inj h).symm⟩
  · rw [if_neg hk] at h
    exact Or.inr h

theorem not_crashed (h : s.step e = some s') : s.crashed = false := by
  unfold step at h
  split at h
  · cases h
  · rename_i hc
    exact Bool.eq_false_iff.mpr hc

/-- Only the host changes the installed policies. -/
theorem step_actor (h : s.step e = some s') :
    (∃ ps, e = .setPolicy ps ∧ s'.actor = s.actor.setPolicy ps) ∨
    (∃ secs, e = .setTimeout secs ∧ s'.actor = s.actor.setTimeout secs) ∨
    s.actor.Same s'.actor := by
  have hc := not_crashed h
  simp only [step, hc, Bool.false_eq_true, if_false] at h
  cases e with
  | setPolicy ps =>
      cases h
      exact Or.inl ⟨ps, rfl, rfl⟩
  | setTimeout secs =>
      cases h
      exact Or.inr (Or.inl ⟨secs, rfl, rfl⟩)
  | request i req uri =>
      dsimp only at h
      split at h <;> cases h
      exact Or.inr (Or.inr (.refl _))
  | http i ev =>
      dsimp only at h
      split at h
      · obtain ⟨⟨b, x'⟩, hx, rfl⟩ := Option.map_eq_some_iff.mp h
        exact Or.inr (Or.inr (Exchange.step_same hx))
      · cases h
  | connect j ends o =>
      dsimp only at h
      split at h
      · obtain ⟨⟨b, r⟩, hr, rfl⟩ := Option.map_eq_some_iff.mp h
        refine Or.inr (Or.inr ?_)
        rw [onTcpPolicy_actor]
        exact PolicyActor.getTcpPolicy_same hr
      · cases h
  | connectFailed j =>
      dsimp only at h
      split at h <;> cases h
      exact Or.inr (Or.inr (.refl _))
  | connected j ok =>
      dsimp only at h
      split at h <;> cases h
      exact Or.inr (Or.inr (.refl _))
  | data j i =>
      dsimp only at h
      split at h <;> cases h
      exact Or.inr (Or.inr (.refl _))
  | stopped j =>
      dsimp only at h
      split at h
      · split at h <;> cases h
        exact Or.inr (Or.inr (.refl _))
      · cases h
  | report o =>
      dsimp only at h
      split at h
      · obtain ⟨r, -, rfl⟩ := Option.map_eq_some_iff.mp h
        refine Or.inr (Or.inr ?_)
        rw [onReport_actor]
        exact .refl _
      · cases h

/-- An exchange is left alone, starts, or takes a step of its own. -/
theorem step_exchange (h : s.step e = some s') {i : Nat} {x' : Exchange}
    (hx : s'.exchanges i = some x') :
    s.exchanges i = some x' ∨
    (∃ req uri, e = .request i req uri ∧ s.exchanges i = none ∧ x' = .start req uri) ∨
    (∃ ev x, e = .http i ev ∧ s.exchanges i = some x ∧
      x.step s.actor ev = some (s'.actor, x')) := by
  have hc := not_crashed h
  simp only [step, hc, Bool.false_eq_true, if_false] at h
  cases e with
  | setPolicy ps | setTimeout secs =>
      cases h
      exact Or.inl hx
  | request k req uri =>
      dsimp only at h
      cases hk : s.exchanges k with
      | some y => rw [hk] at h; cases h
      | none =>
          rw [hk] at h
          cases h
          rcases setExchange_get hx with ⟨rfl, rfl⟩ | hx
          · exact Or.inr (Or.inl ⟨req, uri, rfl, hk, rfl⟩)
          · exact Or.inl hx
  | http k ev =>
      dsimp only at h
      cases hk : s.exchanges k with
      | none => rw [hk] at h; cases h
      | some y =>
          rw [hk] at h
          obtain ⟨⟨b, y'⟩, hy, rfl⟩ := Option.map_eq_some_iff.mp h
          rcases setExchange_get hx with ⟨rfl, rfl⟩ | hx
          · exact Or.inr (Or.inr ⟨ev, y, rfl, hk, hy⟩)
          · exact Or.inl hx
  | connect j ends o =>
      dsimp only at h
      split at h
      · obtain ⟨⟨b, r⟩, -, rfl⟩ := Option.map_eq_some_iff.mp h
        rw [onTcpPolicy_exchanges] at hx
        exact Or.inl hx
      · cases h
  | connectFailed j | connected j ok | data j i =>
      dsimp only at h
      split at h <;> cases h
      exact Or.inl hx
  | stopped j =>
      dsimp only at h
      split at h
      · split at h <;> cases h
        exact Or.inl hx
      · cases h
  | report o =>
      dsimp only at h
      split at h
      · obtain ⟨r, -, rfl⟩ := Option.map_eq_some_iff.mp h
        rw [onReport_exchanges] at hx
        exact Or.inl hx
      · cases h

end State

end Armour.Proxy
