import Armour.Proxy.Dispatch

/-! # Accounting of TCP connections

A connection that was established is reported when it ends, with the bytes that were written
in each direction, if the policy has evaluated a function on it when it was opened.  Connections
that are allowed by status are not reported.
-/

namespace Armour.Proxy

open Armour.Lib Armour.Lang

/-- The report of `on_tcp_disconnect` about data that was copied. -/
def TcpData.report (d : TcpData) (connection : DPLiteral) : List DPLiteral :=
  PolicyActor.disconnectArgs ⟨d.serverWriter.length, d.clientWriter.length, connection⟩

/-- The evaluations of `on_tcp_disconnect` about a connection: those that were made, and those
that the mailbox still asks for. -/
def State.reports (s : State) (j : Nat) : List (List DPLiteral) :=
  (s.disconnects.filter (fun r => r.1 = j)).map Prod.snd ++
    (s.mailbox.filter (fun m => m.1 = j)).map (fun m => PolicyActor.disconnectArgs m.2)

/-- An ended connection has one report, about the connection that was seen when it was opened
and the bytes that were written; other connections have none. -/
def AccountedFor (reports : List (List DPLiteral)) : Option TcpConnection → Prop
  | some ⟨.ended d, seen⟩ => ∃ c, seen = some [c] ∧ reports = [d.report c]
  | _ => reports = []

def State.Accounted (s : State) : Prop := ∀ j, AccountedFor (s.reports j) (s.connections j)

/-- The policy has a connection function that allows some connection. -/
def Allows (p : DPPolicy) : Prop :=
  statusOf p allowTcpConnection = .Args 1 ∧
  ∃ (ends : ID × ID) (number : Nat) (o : Outside) (m : Option Meta),
    evaluate tryBool o p allowTcpConnection
      [.connection ⟨ends.1, ends.2, Int64.ofNat number⟩] .empty = some (.ok (true, m))

/-! ## Runs that account -/

/-- What is known of a connection of a run, which the policy `p` allows unless it is refused. -/
def Tracked (p : DPPolicy) (reports : List (List DPLiteral)) : Option TcpConnection → Prop
  | none | some ⟨.refused, _⟩ => reports = []
  | some ⟨.allowed stats, seen⟩ =>
      reports = [] ∧ Allows p ∧ ∃ c, seen = some [c] ∧ stats = some (.new c)
  | some ⟨.established d, seen⟩ =>
      reports = [] ∧ Allows p ∧ ∃ c, seen = some [c] ∧ d.Counts c
  | some ⟨.ended d, seen⟩ => Allows p ∧ ∃ c, seen = some [c] ∧ reports = [d.report c]

theorem Tracked.accountedFor {p : DPPolicy} {reports : List (List DPLiteral)}
    {c : Option TcpConnection} (h : Tracked p reports c) : AccountedFor reports c := by
  rcases c with _ | ⟨phase, seen⟩
  · exact h
  · cases phase with
    | refused => exact h
    | allowed stats => exact h.1
    | established d => exact h.1
    | ended d => exact h.2

/-- The invariant of runs under the TCP policy `p`. -/
structure State.Accounts (p : DPPolicy) (s : State) : Prop where
  tcp : s.actor.tcp = .setPolicy p
  tracked : ∀ j, Tracked p (s.reports j) (s.connections j)
  mailbox : s.mailbox ≠ [] → Allows p

section

variable {p : DPPolicy} {s s' : State}

/-- The connections and reports stay as they are. -/
theorem State.Accounts.congr (h : s.Accounts p) (htcp : s'.actor.tcp = s.actor.tcp)
    (hconnections : s'.connections = s.connections) (hmailbox : s'.mailbox = s.mailbox)
    (hdisconnects : s'.disconnects = s.disconnects) : s'.Accounts p where
  tcp := htcp.trans h.tcp
  tracked := by
    intro j
    have hreports : s'.reports j = s.reports j := by
      unfold reports
      rw [hmailbox, hdisconnects]
    rw [hreports, hconnections]
    exact h.tracked j
  mailbox := fun hne => h.mailbox (hmailbox ▸ hne)

/-- One connection has come to another phase, without a report. -/
theorem State.Accounts.setConnection (h : s.Accounts p) {j : Nat} {c : TcpConnection}
    (hc : Tracked p (s.reports j) (some c)) : (s.setConnection j c).Accounts p where
  tcp := h.tcp
  tracked := by
    intro k
    show Tracked p (s.reports k) (Function.update s.connections j (some c) k)
    by_cases hk : k = j
    · subst hk
      rw [Function.update_self]
      exact hc
    · rw [Function.update_of_ne hk]
      exact h.tracked k
  mailbox := h.mailbox

/-- The connection that is asked about is the one that is counted. -/
theorem PolicyActor.getTcpPolicy_allow {a b : PolicyActor} {ends : ID × ID} {o : Outside}
    {seen : Option (List DPLiteral)} {stats : Option ConnectionStats}
    (htcp : a.tcp = .setPolicy p) (hallow : statusOf p allowTcpConnection ≠ .Allow)
    (h : a.getTcpPolicy ends o = some (b, seen, .answer (.ok (.Allow stats)))) :
    Allows p ∧ ∃ c, seen = some [c] ∧ stats = some (.new c) := by
  have hconnect : a.tcp.connect = statusOf p allowTcpConnection := by rw [htcp]; rfl
  have hpolicy : a.tcp.policy = p := by rw [htcp]; rfl
  unfold getTcpPolicy at h
  split at h
  · rename_i hc
    exact absurd (hconnect.symm.trans hc) hallow
  · cases h
  · rename_i hargs
    obtain ⟨r, heval, hr⟩ := Option.map_eq_some_iff.mp h
    rw [hpolicy] at heval
    cases r with
    | error e => cases hr
    | ok r =>
        obtain ⟨res, m⟩ := r
        cases res with
        | false => cases hr
        | true =>
            cases hr
            exact ⟨⟨hconnect.symm.trans hargs, ends, _, o, m, heval⟩, _, rfl, rfl⟩
  · cases h

theorem State.Accounts.onTcpPolicy (h : s.Accounts p) {j : Nat} (hj : s.connections j = none)
    {seen : Option (List DPLiteral)} {r : Proxy.Handled (Except DPError TcpPolicyStatus)}
    (hr : ∀ stats, r = .answer (.ok (.Allow stats)) →
      Allows p ∧ ∃ c, seen = some [c] ∧ stats = some (.new c)) :
    (s.onTcpPolicy j seen r).Accounts p := by
  have hreports : s.reports j = [] := by
    have ht := h.tracked j
    rw [hj] at ht
    exact ht
  unfold State.onTcpPolicy
  split
  · rename_i stats
    exact h.setConnection ⟨hreports, hr stats rfl⟩
  · exact h.setConnection hreports
  · exact h.congr rfl rfl rfl rfl

theorem State.Accounts.onStopped (h : s.Accounts p) {j : Nat} {d : TcpData}
    {seen : Option (List DPLiteral)} (hj : s.connections j = some ⟨.established d, seen⟩) :
    (s.onStopped j seen d).Accounts p := by
  have ht := h.tracked j
  rw [hj] at ht
  obtain ⟨hreports, hallows, c, hseen, hcounts⟩ := ht
  constructor
  · exact h.tcp
  · intro k
    have hnew : (s.onStopped j seen d).reports k =
        s.reports k ++ if j = k then [d.report c] else [] := by
      unfold State.onStopped State.reports TcpData.report
      rw [hcounts]
      by_cases hk : j = k <;> simp [hk, State.setConnection, List.filter_append]
    rw [hnew]
    show Tracked p _ (Function.update s.connections j _ k)
    by_cases hk : k = j
    · subst hk
      rw [Function.update_self, hreports, if_pos rfl]
      exact ⟨hallows, c, hseen, rfl⟩
    · rw [Function.update_of_ne hk, if_neg (Ne.symm hk), List.append_nil]
      exact h.tracked k
  · exact fun _ => hallows

/-- A report is handled: it moves from the mailbox to the evaluations. -/
theorem State.Accounts.onReport (h : s.Accounts p) {j : Nat} {msg : ConnectionStats}
    {rest : List (Nat × ConnectionStats)} (hmail : s.mailbox = (j, msg) :: rest) :
    (s.onReport j rest (.answer (some (PolicyActor.disconnectArgs msg)))).Accounts p := by
  constructor
  · exact h.tcp
  · intro k
    have hsame : (s.onReport j rest (.answer (some (PolicyActor.disconnectArgs msg)))).reports k =
        s.reports k := by
      unfold State.onReport State.reports
      rw [hmail]
      by_cases hk : j = k <;> simp [hk, List.filter_append]
    rw [hsame]
    exact h.tracked k
  · exact fun _ => h.mailbox (by rw [hmail]; simp)

theorem State.step_accounts {e : Event} (hallow : statusOf p allowTcpConnection ≠ .Allow)
    (hcount : Allows p → statusOf p onTcpDisconnect = .Args 3) (hs : s.Accounts p)
    (he : ∀ ps, e = .setPolicy ps → ps.get? .TCP = none) (h : s.step e = some s') :
    s'.Accounts p := by
  have hc := not_crashed h
  simp only [step, hc, Bool.false_eq_true, if_false] at h
  cases e with
  | setPolicy ps =>
      cases h
      refine hs.congr ?_ rfl rfl rfl
      show (s.actor.setPolicy ps).tcp = _
      rw [PolicyActor.setPolicy_tcp, he ps rfl]
  | setTimeout secs =>
      cases h
      exact hs.congr rfl rfl rfl rfl
  | request i req uri =>
      dsimp only at h
      split at h <;> cases h
      exact hs.congr rfl rfl rfl rfl
  | http i ev =>
      dsimp only at h
      split at h
      · obtain ⟨⟨b, x'⟩, hx, rfl⟩ := Option.map_eq_some_iff.mp h
        obtain ⟨n, rfl⟩ := Exchange.step_same hx
        exact hs.congr rfl rfl rfl rfl
      · cases h
  | connect j ends o =>
      dsimp only at h
      split at h
      · rename_i hj
        obtain ⟨⟨b, seen, r⟩, hr, rfl⟩ := Option.map_eq_some_iff.mp h
        obtain ⟨n, rfl⟩ := PolicyActor.getTcpPolicy_same hr
        have hnew : Accounts p { s with
            actor := { s.actor with connectionNumber := n }, crashed := false } :=
          hs.congr rfl rfl rfl rfl
        refine hnew.onTcpPolicy hj (fun stats hstats => ?_)
        dsimp only at hstats
        subst hstats
        exact PolicyActor.getTcpPolicy_allow hs.tcp hallow hr
      · cases h
  | connectFailed j =>
      dsimp only at h
      split at h <;> cases h
      rename_i hj
      have ht := hs.tracked j
      rw [hj] at ht
      exact hs.setConnection ht
  | connected j ok =>
      dsimp only at h
      split at h <;> cases h
      rename_i stats seen hj
      have ht := hs.tracked j
      rw [hj] at ht
      obtain ⟨hreports, hallows, c, hseen, rfl⟩ := ht
      refine hs.setConnection ?_
      cases ok with
      | true => exact ⟨hreports, hallows, c, hseen, TcpData.counts_start c⟩
      | false => exact hreports
  | data j i =>
      dsimp only at h
      split at h <;> cases h
      rename_i d seen hj
      have ht := hs.tracked j
      rw [hj] at ht
      obtain ⟨hreports, hallows, c, hseen, hcounts⟩ := ht
      exact hs.setConnection ⟨hreports, hallows, c, hseen, hcounts.input i⟩
  | stopped j =>
      dsimp only at h
      split at h
      · rename_i d seen hj
        split at h <;> cases h
        exact hs.onStopped hj
      · cases h
  | report o =>
      dsimp only at h
      split at h
      · rename_i j msg rest hmail
        obtain ⟨r, hr, rfl⟩ := Option.map_eq_some_iff.mp h
        have hthree : s.actor.tcp.disconnect = .Args 3 := by
          rw [hs.tcp]
          exact hcount (hs.mailbox (by rw [hmail]; simp))
        unfold PolicyActor.connectionStats at hr
        rw [hthree] at hr
        obtain ⟨-, -, rfl⟩ := Option.map_eq_some_iff.mp hr
        exact (hs.congr rfl rfl rfl rfl).onReport hmail
      · cases h

theorem State.start_accounts (a : PolicyActor) : (State.start (a.installTcp p)).Accounts p where
  tcp := rfl
  tracked := fun _ => rfl
  mailbox := fun h => absurd rfl h

theorem run_accounts (hallow : statusOf p allowTcpConnection ≠ .Allow)
    (hcount : Allows p → statusOf p onTcpDisconnect = .Args 3) {a : PolicyActor}
    {es : List Event} (stays : ∀ ps, .setPolicy ps ∈ es → ps.get? .TCP = none)
    (hrun : proxy.run (.start (a.installTcp p)) es = some s) : s.Accounted := by
  have hsteps : proxy.Steps (fun _ e => ∀ ps, e = .setPolicy ps → ps.get? .TCP = none)
      (.start (a.installTcp p)) es := by
    apply Machine.Steps.of_forall (p := fun e => ∀ ps, e = Event.setPolicy ps →
      ps.get? .TCP = none)
    rintro e he ps rfl
    exact stays ps he
  have haccounts : s.Accounts p :=
    Machine.run_invariant (P := State.Accounts p)
      (fun _ _ _ h he hstep => State.step_accounts hallow hcount h he hstep)
      (State.start_accounts a) hsteps hrun
  exact fun j => (haccounts.tracked j).accountedFor

/-! ## Runs that do not -/

/-- A connection that is established and ends without data. -/
def endEvents : List Event := [.connected 0 true, .data 0 .finished, .stopped 0]

/-- A connection that is allowed by status is not reported. -/
theorem allow_not_accounted (a : PolicyActor) (h : statusOf p allowTcpConnection = .Allow) :
    ∃ s, proxy.run (.start (a.installTcp p)) (.connect 0 (.empty, .empty) alone :: endEvents) =
      some s ∧ ¬ s.Accounted := by
  have hget : (a.installTcp p).getTcpPolicy (.empty, .empty) alone =
      some ({ a.installTcp p with connectionNumber := (a.installTcp p).connectionNumber + 1 },
        none, .answer (.ok (.Allow none))) := by
    have hc : (a.installTcp p).tcp.connect = .Allow := h
    unfold PolicyActor.getTcpPolicy
    rw [hc]
  have hstep : proxy.step (.start (a.installTcp p)) (.connect 0 (.empty, .empty) alone) =
      some ({ State.start (a.installTcp p) with actor :=
        { a.installTcp p with connectionNumber := (a.installTcp p).connectionNumber + 1 }
        }.setConnection 0 ⟨.allowed none, none⟩) := by
    simp only [proxy_step, State.step, State.start, hget]
    rfl
  obtain ⟨s, hrun, hconn⟩ : ∃ s, proxy.run ({ State.start (a.installTcp p) with actor :=
        { a.installTcp p with connectionNumber := (a.installTcp p).connectionNumber + 1 }
        }.setConnection 0 ⟨.allowed none, none⟩) endEvents = some s ∧
      s.connections 0 = some ⟨.ended (TcpData.start none).stop, none⟩ :=
    ⟨_, rfl, rfl⟩
  refine ⟨s, (Machine.run_cons hstep _).trans hrun, fun hs => ?_⟩
  have h0 := hs 0
  rw [hconn] at h0
  obtain ⟨c, hc, -⟩ := h0
  cases hc

/-- A connection that is allowed, and then reported to a function with another number of
arguments than three. -/
theorem count_not_accounted (hallows : Allows p) {n : UInt8}
    (hn : statusOf p onTcpDisconnect = .Args n) (hbad : n ≠ 3) :
    ∃ (a : PolicyActor) (es : List Event) (s : State),
      (∀ ps, .setPolicy ps ∈ es → ps.get? .TCP = none) ∧
      proxy.run (.start (a.installTcp p)) es = some s ∧ ¬ s.Accounted := by
  obtain ⟨hconnect, ends, number, o, m, heval⟩ := hallows
  let a : PolicyActor := { PolicyActor.create ⟨[]⟩ 5 noAead with connectionNumber := number }
  let c : DPLiteral := .connection ⟨ends.1, ends.2, Int64.ofNat number⟩
  let a' : PolicyActor := { a.installTcp p with connectionNumber := number + 1 }
  have hget : (a.installTcp p).getTcpPolicy ends o =
      some (a', some [c], .answer (.ok (.Allow (some (.new c))))) := by
    have hc : (a.installTcp p).tcp.connect = .Args 1 := hconnect
    unfold PolicyActor.getTcpPolicy
    rw [hc]
    exact Option.map_eq_some_iff.mpr ⟨_, heval, rfl⟩
  have hstep : proxy.step (.start (a.installTcp p)) (.connect 0 ends o) =
      some ({ State.start (a.installTcp p) with actor := a' }.setConnection 0
        ⟨.allowed (some (.new c)), some [c]⟩) := by
    simp only [proxy_step, State.step, State.start, hget]
    rfl
  obtain ⟨s, hrun, hcrash, hactor, hmail, hdone, hconn⟩ : ∃ s, proxy.run
      ({ State.start (a.installTcp p) with actor := a' }.setConnection 0
        ⟨.allowed (some (.new c)), some [c]⟩) endEvents = some s ∧ s.crashed = false ∧
      s.actor = a' ∧ s.mailbox = [(0, .new c)] ∧ s.disconnects = [] ∧
      s.connections 0 = some ⟨.ended (TcpData.start (some (.new c))).stop, some [c]⟩ :=
    ⟨_, rfl, rfl, rfl, rfl, rfl, rfl⟩
  have hstats : s.actor.connectionStats (.new c) alone = some .unreachable := by
    have hd : s.actor.tcp.disconnect = .Args n := by
      rw [hactor]
      exact hn
    unfold PolicyActor.connectionStats
    rw [hd]
    split
    · rename_i h
      cases h
      exact absurd rfl hbad
    · rfl
    · rename_i hargs
      exact absurd rfl (hargs n)
  have hreport : proxy.step s (.report alone) =
      some { s with mailbox := [], crashed := true } := by
    simp only [proxy_step, State.step, hcrash, hmail, hstats]
    rfl
  refine ⟨a, (.connect 0 ends o :: endEvents) ++ [.report alone], _, ?_,
    Machine.run_snoc ((Machine.run_cons hstep _).trans hrun) hreport, fun hs => ?_⟩
  · simp [endEvents]
  · have h0 := hs 0
    have hreports : State.reports { s with mailbox := [], crashed := true } 0 = [] := by
      simp only [State.reports, hdone]
      rfl
    rw [hreports] at h0
    dsimp only at h0
    rw [hconn] at h0
    obtain ⟨c', -, hc'⟩ := h0
    cases hc'

end

/-- Under a policy with a disconnect function, every run accounts for its connections exactly if
connections are not allowed by status, and the function takes three arguments unless no
connection is ever allowed. -/
theorem accounted_iff {p : DPPolicy} {n : UInt8} (hn : statusOf p onTcpDisconnect = .Args n) :
    (∀ (a : PolicyActor) es s, (∀ ps, .setPolicy ps ∈ es → ps.get? .TCP = none) →
      proxy.run (.start (a.installTcp p)) es = some s → s.Accounted) ↔
    statusOf p allowTcpConnection ≠ .Allow ∧ (n = 3 ∨ ¬ Allows p) := by
  constructor
  · intro h
    constructor
    · intro hallow
      obtain ⟨s, hrun, hs⟩ := allow_not_accounted (.create ⟨[]⟩ 5 noAead) hallow
      refine hs (h _ _ s (fun ps hps => ?_) hrun)
      simp [endEvents] at hps
    · by_contra hno
      rw [not_or, not_not] at hno
      obtain ⟨a, es, s, stays, hrun, hs⟩ := count_not_accounted hno.2 hn hno.1
      exact hs (h a es s stays hrun)
  · rintro ⟨hallow, hcount⟩ a es s stays hrun
    refine run_accounts hallow (fun hallows => ?_) stays hrun
    rw [hn, hcount.resolve_right (fun h => h hallows)]

/-- `fn on_tcp_disconnect(c: Connection, sent: i64, received: i64) {}`, and a connection function
that answers `true` unless the status allows every connection. -/
def disconnectPolicy (connect : FnPolicy) : DPPolicy :=
  ⟨⟨(BTreeMap.insert ∅ onTcpDisconnect
        (.closure "c" (.closure "sent" (.closure "received" (.litExpr .unit))))).insert
      allowTcpConnection (constantTrue 1), .empty, ∅⟩,
    (FnPolicies.setArgs ∅ onTcpDisconnect 3).insert allowTcpConnection connect⟩

theorem disconnect_accounted :
    (∀ (a : PolicyActor) es s, (∀ ps, .setPolicy ps ∈ es → ps.get? .TCP = none) →
      proxy.run (.start (a.installTcp (disconnectPolicy (.Args 1)))) es = some s →
        s.Accounted) ↔
    statusOf (disconnectPolicy (.Args 1)) allowTcpConnection ≠ .Allow ∧
      ((3 : UInt8) = 3 ∨ ¬ Allows (disconnectPolicy (.Args 1))) :=
  accounted_iff rfl

/-- `fn on_tcp_disconnect(c: Connection, sent: i64, received: i64) {}`. -/
def onlyDisconnect : PreProgram FlatTyp DPFlatLiteral where
  callGraph := CallGraph.empty.addNode onTcpDisconnect
  program := ⟨BTreeMap.insert ∅ onTcpDisconnect
      (.closure "c" (.closure "sent" (.closure "received" (.litExpr .unit)))), .empty,
    BTreeMap.insert ∅ onTcpDisconnect (.new [.connection, .i64, .i64] .unit)⟩

/-- The loader admits a policy with a disconnect function only; a connection under it is not
reported. -/
theorem onlyDisconnect_not_accounted :
    ∃ p, (Policies.innerFrom onlyDisconnect).bind (·.get? .TCP) = some p ∧
      statusOf p onTcpDisconnect = .Args 3 ∧
      ∃ s, proxy.run (.start ((PolicyActor.create ⟨[]⟩ 5 noAead).installTcp p))
        (.connect 0 (.empty, .empty) alone :: endEvents) = some s ∧ ¬ s.Accounted := by
  have hstatus : ((Policies.innerFrom onlyDisconnect).bind (·.get? .TCP)).map
      (fun p => (statusOf p onTcpDisconnect, statusOf p allowTcpConnection)) =
      some (.Args 3, .Allow) := by decide +kernel
  obtain ⟨p, hp, hpair⟩ := Option.map_eq_some_iff.mp hstatus
  obtain ⟨hdisconnect, hconnect⟩ := Prod.mk.inj hpair
  exact ⟨p, hp, hdisconnect, allow_not_accounted _ hconnect⟩

end Armour.Proxy
