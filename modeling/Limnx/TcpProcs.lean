import Limnx.TcpCalls

/-! # The TCP system calls of processes (`syscall/sys_net.c`, `syscall/sys_proc.c`)

A process names connections by number, and has marks for the first eight: set when `sys_tcp_socket` or `sys_tcp_accept`
returns the number, cleared when `sys_tcp_close` succeeds; `process_terminate` closes the connections marked. A call
that waits is ended by a later step, and so is each `tcp_close` of an exit. -/

namespace Limnx
open Function

/-- The marks of a process: `tcp_conns[8]`. -/
def tcpMarks : Nat := 8

/-- The system calls. The first argument is the register that holds the connection number. -/
inductive TcpCall
  | socket
  | connect (a : U64) (ip : U32) (port : U16)
  | listen (a : U64) (port : U16)
  | accept (a : U64)
  | send (a : U64) (buf : List UInt8)
  | recv (a : U64) (len : Nat) (e : Int)
  | close (a : U64)
  | setopt (a : U64) (opt value : U64)

inductive TcpWait
  | connect (i : Nat)
  | accept (k : Nat)
  | close (i : Nat) (a : U64)
  | exit (i : Nat)
deriving DecidableEq

inductive TcpAnswer
  | code (r : Int)
  | bytes (r : Except Int (List UInt8))

/-- A process: its marks, what it waits for, and how far `process_terminate` has come with the marks. -/
structure TcpProc where
  marks : Nat → Bool := fun _ => false
  waiting : Option TcpWait := none
  exiting : Option Nat := none
  exited : Bool := false

/-- `owners` says to which processes a number was returned since its slot was filled. No step reads it. -/
structure TcpWorld where
  net : TcpNet := {}
  procs : Nat → TcpProc := fun _ => {}
  owners : Nat → List Nat := fun _ => []

def argIdx (a : U64) : Option Nat := TcpNet.connIdx (a.setWidth 32).toInt

def TcpCall.idx : TcpCall → Option Nat
  | .socket => none
  | .connect a .. | .listen a _ | .accept a | .send a _ | .recv a .. | .close a | .setopt a .. => argIdx a

namespace TcpProc

def mark (p : TcpProc) (i : Nat) : TcpProc :=
  if i < tcpMarks then { p with marks := update p.marks i true } else p

def unmark (p : TcpProc) (a : U64) : TcpProc :=
  if a.toNat < tcpMarks then { p with marks := update p.marks a.toNat false } else p

end TcpProc

def TcpConn.closeWaits (c : TcpConn) : Bool :=
  c.inUse && (c.state = .established || c.state = .closeWait) && !c.nonblock

namespace TcpWorld
variable (w : TcpWorld)

def setProc (p : Nat) (x : TcpProc) : TcpWorld := { w with procs := update w.procs p x }

def setTable (t : TcpTable) : TcpWorld := { w with net := { w.net with table := t } }

def disown (i : Nat) : TcpWorld := { w with owners := update w.owners i [] }

def gets (p i : Nat) : TcpWorld :=
  { w.setProc p ((w.procs p).mark i) with owners := update w.owners i (p :: w.owners i) }

def waits (p : Nat) (x : TcpWait) : TcpWorld := w.setProc p { w.procs p with waiting := some x }

/-- A call that is over at once: the answer, and the table after it. -/
def onConn (a : U64) (m : Nat → TcpM TcpAnswer) : Option TcpAnswer × TcpWorld :=
  match argIdx a with
  | none => (some (.code (-EBADF)), w)
  | some i =>
    let r := w.net.table.call i (m i)
    (some r.1, w.setTable r.2)

def sysTcpConnect (p : Nat) (a : U64) (ip : U32) (port : U16) : Option TcpAnswer × TcpWorld :=
  match argIdx a with
  | none => (some (.code (-EBADF)), w)
  | some i =>
    let ticks := w.net.table.ticks
    let r := w.net.table.call i (tcpConnect ticks (tcpGenIsn ticks i) ip port)
    if r.1 = -EINPROGRESS ∧ !(r.2.conns i).nonblock then (none, (w.setTable r.2).waits p (.connect i))
    else (some (.code r.1), w.setTable r.2)

def sysTcpAccept (p : Nat) (a : U64) : Option TcpAnswer × TcpWorld :=
  match argIdx a with
  | none => (some (.code (-EBADF)), w)
  | some i =>
    match w.net.table.tcpAccept i with
    | (.ok k, t) => (none, ((w.setTable t).disown k).waits p (.accept k))
    | (.error e, t) => (some (.code e), w.setTable t)

/-- `sys_tcp_close`. The mark is cleared when the call answers 0. -/
def sysTcpClose (p : Nat) (a : U64) : Option TcpAnswer × TcpWorld :=
  match argIdx a with
  | none => (some (.code (-EBADF)), w)
  | some i =>
    let r := w.net.table.call i (tcpClose w.net.table.ticks)
    let t := w.setTable r.2
    if (w.net.table.conns i).closeWaits then (none, t.waits p (.close i a))
    else (some (.code r.1), if r.1 = 0 then t.setProc p ((w.procs p).unmark a) else t)

def call (p : Nat) : TcpCall → Option TcpAnswer × TcpWorld
  | .socket =>
    match w.net.tcpSocket with
    | (.ok i, net) => (some (.code i), ({ w with net }.disown i).gets p i)
    | (.error e, net) => (some (.code e), { w with net })
  | .connect a ip port => w.sysTcpConnect p a ip port
  | .listen a port => w.onConn a fun _ => .code <$> tcpListen port
  | .accept a => w.sysTcpAccept p a
  | .send a buf => w.onConn a fun _ => .code <$> tcpSend w.net.table.ticks buf
  | .recv a len e => w.onConn a fun _ => .bytes <$> tcpRecv len e
  | .close a => w.sysTcpClose p a
  | .setopt a opt value =>
    if opt = 1 then w.onConn a fun _ => .code <$> tcpSetNonblock (value.setWidth 32 ≠ 0)
    else (some (.code (-EINVAL)), w)

def wake (p : Nat) (e : WaitEnd) : Option TcpAnswer × TcpWorld :=
  let x := { w.procs p with waiting := none }
  match (w.procs p).waiting with
  | none => (none, w)
  | some (.connect i) =>
    let r := w.net.table.call i (tcpConnectEnd e)
    (some (.code r.1), (w.setTable r.2).setProc p x)
  | some (.accept k) =>
    let r := w.net.table.call k (tcpAcceptEnd e)
    let w := (w.setTable r.2).setProc p x
    if r.1 = 0 then (some (.code k), w.gets p k) else (some (.code r.1), w)
  | some (.close i a) =>
    (some (.code 0), (w.setTable (w.net.table.call i tcpCloseEnd).2).setProc p (x.unmark a))
  | some (.exit i) =>
    (none, (w.setTable (w.net.table.call i tcpCloseEnd).2).setProc p
      { x with marks := update x.marks i false, exiting := some (i + 1) })

/-- The next step of the exit of process `p`: the connections of the marks are closed one after the other. -/
def exit (p : Nat) : TcpWorld :=
  match (w.procs p).exiting with
  | none => w.setProc p { w.procs p with exiting := some 0 }
  | some i =>
    if tcpMarks ≤ i then w.setProc p { w.procs p with exited := true }
    else if !(w.procs p).marks i then w.setProc p { w.procs p with exiting := some (i + 1) }
    else
      let t := w.setTable (w.net.table.call i (tcpClose w.net.table.ticks)).2
      if (w.net.table.conns i).closeWaits then t.waits p (.exit i)
      else
        t.setProc p { w.procs p with marks := update (w.procs p).marks i false, exiting := some (i + 1) }

end TcpWorld

inductive TcpStep
  | call (p : Nat) (c : TcpCall)
  | wake (p : Nat) (e : WaitEnd)
  | exit (p : Nat)
  | timerCheck
  | rx (src : U32) (seg : Segment)
  | tick

def TcpProc.runs (p : TcpProc) : Bool := p.waiting.isNone && !p.exited

namespace TcpWorld

/-- One step, with the answer that a process gets. A step that a process cannot take changes nothing. -/
def react (w : TcpWorld) : TcpStep → Option TcpAnswer × TcpWorld
  | .call p c => if (w.procs p).runs && (w.procs p).exiting.isNone then w.call p c else (none, w)
  | .wake p e => w.wake p e
  | .exit p => (none, if (w.procs p).runs then w.exit p else w)
  | .timerCheck => (none, w.setTable w.net.table.tcpTimerCheck)
  | .rx src seg => (none, w.setTable (TcpTable.tcpRx TcpTable.rxDepth src seg w.net.table))
  | .tick => (none, w.setTable { w.net.table with ticks := w.net.table.ticks + 1 })

def step (w : TcpWorld) (op : TcpStep) : TcpWorld := (w.react op).2

end TcpWorld

end Limnx
