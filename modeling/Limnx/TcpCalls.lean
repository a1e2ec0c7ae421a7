import Limnx.Tcp
import Limnx.Lib.GuardedRun

/-! # The calls of TCP on the table (`net/tcp.c`)

A call that waits is two steps: the call up to its wait, and its end (`WaitEnd`), with anything in between. Segments
from the network, the timer and the passing of time are steps too. -/

namespace Limnx

def tcpGenIsn (ticks i : Nat) : U32 := BitVec.ofNat 32 (ticks * 64000 + i * 1000)

def tcpListen (port : U16) : TcpM Int := do
  let c ← get
  if !c.inUse then
    return -EBADF
  set { c with localPort := port, state := TcpState.listen, backlog := List.replicate tcpBacklogSize none }
  return 0

def tcpSetNonblock (nb : Bool) : TcpM Int := do
  let c ← get
  if !c.inUse then
    return -EBADF
  set { c with nonblock := nb }
  return 0

def takeBacklog : List (Option BacklogEntry) → Option (BacklogEntry × List (Option BacklogEntry))
  | [] => none
  | some e :: l => some (e, none :: l)
  | none :: l => (takeBacklog l).map fun r => (r.1, none :: r.2)

namespace TcpTable

/-- The slot for a new connection: the first that is free, or else the first in `TCP_TIME_WAIT`. -/
def newSlot (s : TcpTable) : Option Nat :=
  ((List.range maxTcpConns).find? fun i => !(s.conns i).inUse).or
    ((List.range maxTcpConns).find? fun i => (s.conns i).inUse && (s.conns i).state = .timeWait)

/-- `tcp_accept` up to the wait for its connection: the slot of that connection. Without an entry in the backlog it
    waits or answers `-EAGAIN`. The entry is gone even without a slot. -/
def tcpAccept (s : TcpTable) (i : Nat) : Except Int Nat × TcpTable :=
  if !(s.conns i).inUse || (s.conns i).state ≠ .listen then (.error (-EINVAL), s)
  else
    match takeBacklog (s.conns i).backlog with
    | none => (.error (-EAGAIN), s)
    | some (e, backlog) =>
      let lc := s.conns i
      let s := s.set i { lc with backlog }
      match s.newSlot with
      | none => (.error (-ENOMEM), s)
      | some k =>
        (.ok k, (s.call k (tcpAcceptConn s.ticks (tcpGenIsn s.ticks k) lc.localIp lc.localPort e)).2)

end TcpTable

/-- `tcp_conns` and `tcp_ephemeral_port`. -/
structure TcpNet where
  table : TcpTable := {}
  ephemeral : U16 := 49152

/-- A step: a call, the end of one that waits, or what the network and the clock do. The first argument of a
    call is `conn_idx`. -/
inductive TcpOp
  | socket
  | connect (i : Int) (ip : U32) (port : U16)
  | connectEnd (i : Int) (w : WaitEnd)
  | listen (i : Int) (port : U16)
  | accept (i : Int)
  | acceptEnd (i : Int) (w : WaitEnd)
  | send (i : Int) (buf : List UInt8)
  | recv (i : Int) (len : Nat) (e : Int)
  | close (i : Int)
  | closeEnd (i : Int)
  | setNonblock (i : Int) (nb : Bool)
  | timerCheck
  | rx (src : U32) (seg : Segment)
  | tick

namespace TcpNet

def tcpSocket (s : TcpNet) : Except Int Nat × TcpNet :=
  match s.table.newSlot with
  | some i =>
    (.ok i, { table := s.table.set i (tcpSocketConn s.ephemeral), ephemeral := s.ephemeral + 1 })
  | none => (.error (-ENOMEM), s)

def connIdx (i : Int) : Option Nat := if i < 0 ∨ (maxTcpConns : Int) ≤ i then none else some i.toNat

def onConn {α : Type} (s : TcpNet) (i : Int) (m : Nat → TcpM α) : Option α × TcpNet :=
  match connIdx i with
  | none => (none, s)
  | some i =>
    let r := s.table.call i (m i)
    (some r.1, { s with table := r.2 })

def step (s : TcpNet) : TcpOp → TcpNet
  | .socket => s.tcpSocket.2
  | .connect i ip port =>
    (s.onConn i fun i => tcpConnect s.table.ticks (tcpGenIsn s.table.ticks i) ip port).2
  | .connectEnd i w => (s.onConn i fun _ => tcpConnectEnd w).2
  | .listen i port => (s.onConn i fun _ => tcpListen port).2
  | .accept i =>
    match connIdx i with
    | none => s
    | some i => { s with table := (s.table.tcpAccept i).2 }
  | .acceptEnd i w => (s.onConn i fun _ => tcpAcceptEnd w).2
  | .send i buf => (s.onConn i fun _ => tcpSend s.table.ticks buf).2
  | .recv i len e => (s.onConn i fun _ => tcpRecv len e).2
  | .close i => (s.onConn i fun _ => tcpClose s.table.ticks).2
  | .closeEnd i => (s.onConn i fun _ => tcpCloseEnd).2
  | .setNonblock i nb => (s.onConn i fun _ => tcpSetNonblock nb).2
  | .timerCheck => { s with table := s.table.tcpTimerCheck }
  | .rx src seg => { s with table := TcpTable.tcpRx TcpTable.rxDepth src seg s.table }
  | .tick => { s with table := { s.table with ticks := s.table.ticks + 1 } }

end TcpNet

end Limnx
