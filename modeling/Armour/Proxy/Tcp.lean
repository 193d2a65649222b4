import Armour.Proxy.Policy

/-! # The TCP proxy

`tcp_policy.rs` and `tcp_proxy.rs` of `armour-proxy/src`: the policy is asked when a client
connects, a `TcpData` actor copies the data of an established connection, and reports it to
the policy actor when it stops.
-/

namespace Armour.Proxy

open Armour.Lib Armour.Lang

/-! ## Messages to the policy actor -/

structure ConnectionStats where
  sent : Nat
  received : Nat
  connection : DPLiteral

/-- `ConnectionStats::new`. -/
def ConnectionStats.new (connection : DPLiteral) : ConnectionStats := ⟨0, 0, connection⟩

inductive TcpPolicyStatus where
  | Allow (stats : Option ConnectionStats)
  | Block

/-- What becomes of a message: an answer, or an `unreachable!()`. -/
inductive Handled (α : Type) where
  | answer (a : α)
  | unreachable

namespace PolicyActor

/-- The handler of `GetTcpPolicy`, with the arguments that `allow_tcp_connection` was evaluated
on, if it was. -/
def getTcpPolicy (a : PolicyActor) (ends : ID × ID) (o : Outside) :
    Option (PolicyActor × Option (List DPLiteral) × Handled (Except DPError TcpPolicyStatus)) :=
  match a.tcp.connect with
  | .Allow => some ({ a with connectionNumber := a.connectionNumber + 1 }, none,
      .answer (.ok (.Allow none)))
  | .Deny => some (a, none, .answer (.ok .Block))
  | .Args 1 =>
      let (a, c) := a.connection ends
      let connection : DPLiteral := .connection c
      let stats := ConnectionStats.new connection
      (evaluate tryBool o a.tcp.policy allowTcpConnection [connection] .empty).map
        (fun r => (a, some [connection],
          .answer (r.map (fun r => if r.1 then .Allow (some stats) else .Block))))
  | _ => some (a, none, .unreachable)

/-- The arguments of `on_tcp_disconnect`. -/
def disconnectArgs (msg : ConnectionStats) : List DPLiteral :=
  [msg.connection, .int (Int64.ofNat msg.sent), .int (Int64.ofNat msg.received)]

/-- The handler of `ConnectionStats`: the arguments that `on_tcp_disconnect` was evaluated on,
if it was. -/
def connectionStats (a : PolicyActor) (msg : ConnectionStats) (o : Outside) :
    Option (Handled (Option (List DPLiteral))) :=
  match a.tcp.disconnect with
  | .Args 3 =>
      (evaluate tryUnit o a.tcp.policy onTcpDisconnect (disconnectArgs msg) .empty).map
        (fun _ => .answer (some (disconnectArgs msg)))
  | .Args _ => some .unreachable
  | _ => some (.answer none)

end PolicyActor

/-! ## Data -/

def MAX_SPEED : Nat := 100000

/-- `TcpData`, with what its two writers were given; `stopping` is set by `ctx.stop()`. -/
structure TcpData where
  counter : Nat
  clientWriter : Bytes
  serverWriter : Bytes
  connection : Option ConnectionStats
  stopping : Bool

namespace TcpData

def start (connection : Option ConnectionStats) : TcpData := ⟨0, [], [], connection, false⟩

def stop (d : TcpData) : TcpData := { d with stopping := true }

/-- `handle` of `ClientBytes`: a read from the client is a write to the server. -/
def clientBytes (d : TcpData) (msg : Except String Bytes) : TcpData :=
  if MAX_SPEED < d.counter then d.stop
  else match msg with
    | .ok bytes =>
        { d with
          counter := d.counter + 1
          connection := d.connection.map (fun c => { c with sent := c.sent + bytes.length })
          serverWriter := d.serverWriter ++ bytes }
    | .error _ => d

/-- `handle` of `ServerBytes`: a read from the server is a write to the client. -/
def serverBytes (d : TcpData) (msg : Except String Bytes) : TcpData :=
  if MAX_SPEED < d.counter then d.stop
  else match msg with
    | .ok bytes =>
        { d with
          counter := d.counter + 1
          connection := d.connection.map
            (fun c => { c with received := c.received + bytes.length })
          clientWriter := d.clientWriter ++ bytes }
    | .error _ => d

/-- What happens to a running `TcpData`. -/
inductive Input where
  | client (msg : Except String Bytes)
  | server (msg : Except String Bytes)
  /-- `hb`. -/
  | heartbeat
  /-- One of the streams has finished, or a writer has failed. -/
  | finished

def input (d : TcpData) : Input → TcpData
  | .client msg => d.clientBytes msg
  | .server msg => d.serverBytes msg
  | .heartbeat => { d with counter := 0 }
  | .finished => d.stop

/-- The connection is counted as it was seen, with the bytes that were written. -/
def Counts (d : TcpData) (connection : DPLiteral) : Prop :=
  d.connection = some ⟨d.serverWriter.length, d.clientWriter.length, connection⟩

theorem counts_start (connection : DPLiteral) :
    (start (some (.new connection))).Counts connection := rfl

/-- Every chunk that is written is counted, also the flood cut-off keeps the count. -/
theorem Counts.input {d : TcpData} {connection : DPLiteral} (h : d.Counts connection)
    (i : Input) : (d.input i).Counts connection := by
  unfold Counts at h ⊢
  cases i with
  | client msg =>
      simp only [TcpData.input, clientBytes]
      split_ifs
      · exact h
      · cases msg with
        | ok bytes => simp only [h, Option.map_some, List.length_append]
        | error e => exact h
  | server msg =>
      simp only [TcpData.input, serverBytes]
      split_ifs
      · exact h
      · cases msg with
        | ok bytes => simp only [h, Option.map_some, List.length_append]
        | error e => exact h
  | heartbeat => exact h
  | finished => exact h

end TcpData

/-! ## One connection -/

/-- How far a connection is. -/
inductive ConnectionPhase where
  /-- The policy allows it; the server is not connected yet. -/
  | allowed (stats : Option ConnectionStats)
  /-- Denied, or failed. -/
  | refused
  | established (d : TcpData)
  | ended (d : TcpData)

/-- `seen` are the arguments that `allow_tcp_connection` was evaluated on, if it was. -/
structure TcpConnection where
  phase : ConnectionPhase
  seen : Option (List DPLiteral)

end Armour.Proxy
