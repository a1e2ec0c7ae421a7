import Limnx.Vfs

/-! # TCP (`net/tcp.c`, `net/net.c`)

While a function of `tcp.c` sends a segment its connection lies in memory, and on the loopback path the peer's `tcp_rx`
and its replies run inside the send. So a function is a `TcpProg`, which stores the connection, sends a segment and goes
on with what it then finds. `TcpTable.run` delivers to `tcp_rx` at once for a local address; `TcpProg.exec` is for
segments that leave through the network card. Segments are parsed ones; while a call waits, other steps run. -/

namespace Limnx

def maxTcpConns : Nat := 32
def tcpRxBufSize : Nat := 8192
def tcpMss : Nat := 1460
def tcpWindow : U16 := 8192
def tcpBacklogSize : Nat := 4

inductive TcpState
  | closed | listen | synSent | synReceived | established | finWait1 | finWait2 | closeWait | lastAck
  | timeWait | closing
deriving DecidableEq

structure TcpFlags where
  fin : Bool := false
  syn : Bool := false
  rst : Bool := false
  psh : Bool := false
  ack : Bool := false
deriving DecidableEq

/-- A segment: the fields of `tcp_hdr_t` that are read, and the payload. -/
structure Segment where
  srcPort : U16 := 0
  dstPort : U16 := 0
  seq : U32 := 0
  ackNum : U32 := 0
  flags : TcpFlags := {}
  window : U16 := 0
  payload : List UInt8 := []
deriving DecidableEq

/-- `tcp_backlog_entry_t` of a valid entry. -/
structure BacklogEntry where
  remoteIp : U32
  remotePort : U16
  remoteSeq : U32
deriving DecidableEq

/-- `tcp_conn_t`. The bytes of `tx_buf` that are saved are the list `txBuf`. -/
structure TcpConn where
  inUse : Bool := false
  state : TcpState := .closed
  localIp : U32 := 0
  localPort : U16 := 0
  remoteIp : U32 := 0
  remotePort : U16 := 0
  sndUna : U32 := 0
  sndNxt : U32 := 0
  sndIss : U32 := 0
  rcvNxt : U32 := 0
  rcvIrs : U32 := 0
  rxBuf : Buf := fun _ => 0
  rxReadPos : Nat := 0
  rxWritePos : Nat := 0
  rxCount : Nat := 0
  txBuf : List UInt8 := []
  txBufSeq : U32 := 0
  rtoTick : Nat := 0
  retransmitCount : Nat := 0
  sndWnd : U16 := 0
  rcvWnd : U16 := 0
  backlog : List (Option BacklogEntry) := List.replicate tcpBacklogSize none
  finReceived : Bool := false
  rstReceived : Bool := false
  nonblock : Bool := false
  timeWaitTick : Nat := 0

/-- What a function of a connection does: it ends, or it sends a segment with the connection as it is, and goes on with
    what that is after the send. -/
inductive TcpProg (α : Type) : Type
  | done (a : α) (c : TcpConn)
  | send (seg : Segment) (c : TcpConn) (k : TcpConn → TcpProg α)

namespace TcpProg
variable {α β : Type}

def bind : TcpProg α → (α → TcpConn → TcpProg β) → TcpProg β
  | done a c, f => f a c
  | send seg c k, f => send seg c fun c => (k c).bind f

end TcpProg

def TcpM (α : Type) : Type := TcpConn → TcpProg α

namespace TcpM
variable {α β : Type}

instance : Monad TcpM where
  pure a := fun c => .done a c
  bind m f := fun c => (m c).bind f

instance : MonadStateOf TcpConn TcpM where
  get := fun c => .done c c
  set c := fun _ => .done () c
  modifyGet f := fun c => .done (f c).1 (f c).2

def transmit (seg : Segment) : TcpM Unit := fun c => .send seg c fun c => .done () c

end TcpM

def tcpCalcRcvWnd (c : TcpConn) : U16 :=
  BitVec.ofNat 16 (min (tcpRxBufSize - c.rxCount) 0xffff)

def TcpConn.segment (c : TcpConn) (flags : TcpFlags) (data : List UInt8) : Segment :=
  { srcPort := c.localPort, dstPort := c.remotePort, seq := c.sndNxt, ackNum := c.rcvNxt, flags,
    window := c.rcvWnd, payload := data }

def tcpSendSegment (flags : TcpFlags) (data : List UInt8) : TcpM Unit := do
  modify fun c => { c with rcvWnd := tcpCalcRcvWnd c }
  let c ← get
  TcpM.transmit (c.segment flags data)

def tcpSendAck : TcpM Unit := tcpSendSegment { ack := true } []

def TcpConn.rxPush (c : TcpConn) (b : UInt8) : TcpConn :=
  { c with
    rxBuf := Function.update c.rxBuf c.rxWritePos b
    rxWritePos := (c.rxWritePos + 1) % tcpRxBufSize }

/-- The copy of in-order data into the receive buffer, cut to the free space. -/
def TcpConn.rxData (c : TcpConn) (payload : List UInt8) : TcpConn :=
  let bytes := payload.take (tcpRxBufSize - c.rxCount)
  let c := bytes.foldl TcpConn.rxPush c
  { c with rxCount := c.rxCount + bytes.length, rcvNxt := c.rcvNxt + BitVec.ofNat 32 bytes.length }

/-- The acknowledgement fields of a segment in the states with data in flight. -/
def TcpConn.rxAck (c : TcpConn) (ack : U32) : TcpConn :=
  if c.sndUna < ack ∧ ack ≤ c.sndNxt then { c with sndUna := ack } else c

def Segment.finNxt (seg : Segment) : U32 := seg.seq + BitVec.ofNat 32 seg.payload.length + 1

def TcpConn.reset (c : TcpConn) : TcpConn := { c with rstReceived := true, state := .closed }

def backlogAdd (e : BacklogEntry) : List (Option BacklogEntry) → List (Option BacklogEntry)
  | [] => []
  | none :: l => some e :: l
  | some x :: l => some x :: backlogAdd e l

/-- `established_data` in `tcp_rx`: the data of a segment, then its FIN. -/
def tcpEstablishedData (seg : Segment) : TcpM Unit := do
  if 0 < seg.payload.length then
    modify fun c => if seg.seq = c.rcvNxt then c.rxData seg.payload else c
    tcpSendAck
  if seg.flags.fin then
    modify fun c => { c with rcvNxt := seg.finNxt, finReceived := true, state := .closeWait }
    tcpSendAck

def tcpRxSynSent (seg : Segment) : TcpM Unit := do
  let c ← get
  if seg.flags.syn && seg.flags.ack then
    if seg.ackNum = c.sndNxt then
      set { c with
        rcvIrs := seg.seq, rcvNxt := seg.seq + 1, sndUna := seg.ackNum, sndWnd := seg.window,
        state := TcpState.established, retransmitCount := 0 }
      tcpSendAck
  else if seg.flags.rst then
    set c.reset

def tcpRxSynReceived (seg : Segment) : TcpM Unit := do
  let c ← get
  if seg.flags.ack then
    if seg.ackNum = c.sndIss + 1 then
      set { c with
        sndUna := seg.ackNum, sndNxt := c.sndIss + 1, state := TcpState.established, retransmitCount := 0 }
      if 0 < seg.payload.length then
        tcpEstablishedData seg
  else if seg.flags.rst then
    set c.reset

def tcpRxEstablished (seg : Segment) : TcpM Unit := do
  let c ← get
  if seg.flags.rst then
    set c.reset
  else
    if seg.flags.ack then
      if c.sndUna < seg.ackNum ∧ seg.ackNum ≤ c.sndNxt then
        set { c with sndUna := seg.ackNum, retransmitCount := 0 }
      modify fun c => { c with sndWnd := seg.window }
    tcpEstablishedData seg

def tcpRxFinWait1 (now : Nat) (seg : Segment) : TcpM Unit := do
  let c ← get
  if seg.flags.rst then
    set { c.reset with inUse := false }
  else
    if seg.flags.ack ∧ seg.ackNum = c.sndNxt then
      if seg.flags.fin then
        set { c with
          sndUna := seg.ackNum, rcvNxt := seg.finNxt, state := TcpState.timeWait, timeWaitTick := now + 36 }
        tcpSendAck
      else
        set { c with sndUna := seg.ackNum, state := TcpState.finWait2 }
    let c ← get
    if seg.flags.fin ∧ c.state = .finWait1 then
      set { c with rcvNxt := seg.finNxt, state := TcpState.closing }
      tcpSendAck

def tcpRxFinWait2 (now : Nat) (seg : Segment) : TcpM Unit := do
  if seg.flags.fin then
    modify fun c => { c with rcvNxt := seg.finNxt, state := .timeWait, timeWaitTick := now + 36 }
    tcpSendAck

def tcpRxClosing (now : Nat) (seg : Segment) : TcpM Unit := do
  let c ← get
  if seg.flags.ack ∧ seg.ackNum = c.sndNxt then
    set { c with state := TcpState.timeWait, timeWaitTick := now + 36 }

def tcpRxCloseWait (seg : Segment) : TcpM Unit := do
  let c ← get
  if seg.flags.rst then
    set { c.reset with inUse := false }
  else
    if seg.flags.ack then
      set { c.rxAck seg.ackNum with sndWnd := seg.window }
    if seg.flags.fin then
      tcpSendAck

def tcpRxLastAck (seg : Segment) : TcpM Unit := do
  let c ← get
  if seg.flags.ack ∧ seg.ackNum = c.sndNxt then
    set { c with state := TcpState.closed, inUse := false }

def tcpRxTimeWait (now : Nat) (seg : Segment) : TcpM Unit := do
  if seg.flags.fin then
    tcpSendAck
    modify fun c => { c with timeWaitTick := now + 36 }

/-- `tcp_rx` from the found connection on: `now` is the clock and `src` the sender's address. -/
def tcpRxConn (now : Nat) (src : U32) (seg : Segment) : TcpM Unit := do
  let c ← get
  match c.state with
  | .closed => pure ()
  | .listen =>
    if seg.flags.syn then
      set { c with backlog := backlogAdd ⟨src, seg.srcPort, seg.seq⟩ c.backlog }
  | .synSent => tcpRxSynSent seg
  | .synReceived => tcpRxSynReceived seg
  | .established => tcpRxEstablished seg
  | .finWait1 => tcpRxFinWait1 now seg
  | .finWait2 => tcpRxFinWait2 now seg
  | .closeWait => tcpRxCloseWait seg
  | .lastAck => tcpRxLastAck seg
  | .timeWait => tcpRxTimeWait now seg
  | .closing => tcpRxClosing now seg

def TcpConn.overdue (c : TcpConn) (now : Nat) : Bool :=
  0 < c.txBuf.length && c.sndUna < c.sndNxt && c.rtoTick ≤ now

def tcpRetransmit (now : Nat) : TcpM Unit := do
  let c ← get
  let savedNxt := c.sndNxt
  set { c with sndNxt := c.txBufSeq }
  tcpSendSegment { ack := true, psh := true } c.txBuf
  modify fun c => { c with
    sndNxt := savedNxt, retransmitCount := c.retransmitCount + 1
    rtoTick := now + 18 * 2 ^ (c.retransmitCount + 1) }

def tcpGiveUp : TcpM Unit := do
  tcpSendSegment { rst := true } []
  modify fun c => { c.reset with inUse := false }

def tcpExpire (now : Nat) : TcpM Unit :=
  modify fun c =>
    if c.state = .timeWait ∧ c.timeWaitTick ≤ now then { c with state := .closed, inUse := false } else c

def tcpTimer (now : Nat) : TcpM Unit := do
  let c ← get
  if c.inUse then
    if c.overdue now then
      if 5 ≤ c.retransmitCount then
        tcpGiveUp
      else
        tcpRetransmit now
        tcpExpire now
    else
      tcpExpire now

def tcpSocketConn (port : U16) : TcpConn :=
  { inUse := true, state := .closed, localIp := 0x0A00020F, localPort := port, rcvWnd := tcpWindow }

def tcpConnect (now : Nat) (isn remoteIp : U32) (remotePort : U16) : TcpM Int := do
  let c ← get
  if !c.inUse || c.state ≠ .closed then
    return -EINVAL
  set { c with
    remoteIp := remoteIp, remotePort := remotePort, sndIss := isn, sndNxt := isn, sndUna := isn
    state := TcpState.synSent }
  tcpSendSegment { syn := true } []
  modify fun c => { c with
    sndNxt := c.sndIss + 1, rtoTick := now + 18, retransmitCount := 0, txBuf := [], txBufSeq := c.sndIss }
  return -EINPROGRESS

/-- How the wait of `tcp_connect` or `tcp_accept` ends: the handshake is over, it took too long, or a
    signal is pending. -/
inductive WaitEnd
  | settled | timeout | signal
deriving DecidableEq

def tcpConnectEnd (w : WaitEnd) : TcpM Int := do
  let c ← get
  match w with
  | .timeout =>
    set { c with state := TcpState.closed, inUse := false }
    return -ETIMEDOUT
  | .signal => return -EINTR
  | .settled =>
    if c.state ≠ .established then
      set { c with state := TcpState.closed, inUse := false }
      return -ECONNREFUSED
    else
      set { c with txBuf := [] }
      return 0

/-- The connection that `tcp_accept` makes for a backlog entry, up to its wait. What the slot held before
    is cleared. -/
def tcpAcceptConn (now : Nat) (isn localIp : U32) (localPort : U16) (e : BacklogEntry) : TcpM Unit := do
  set { inUse := true, state := .synReceived, localIp, localPort, remoteIp := e.remoteIp,
        remotePort := e.remotePort, rcvIrs := e.remoteSeq, rcvNxt := e.remoteSeq + 1, rcvWnd := tcpWindow,
        sndIss := isn, sndNxt := isn, sndUna := isn : TcpConn }
  tcpSendSegment { syn := true, ack := true } []
  modify fun c => { c with sndNxt := c.sndIss + 1, rtoTick := now + 18 }

def tcpAcceptEnd (w : WaitEnd) : TcpM Int := do
  let c ← get
  match w with
  | .timeout =>
    set { c with state := TcpState.closed, inUse := false }
    return -ETIMEDOUT
  | .signal => return -EINTR
  | .settled =>
    if c.state ≠ .established ∧ c.state ≠ .closeWait then
      set { c with state := TcpState.closed, inUse := false }
      return -ECONNREFUSED
    else
      set { c with txBuf := [] }
      return 0

def TcpConn.sends (c : TcpConn) : Bool := c.inUse && c.state = .established && !c.rstReceived

/-- `tcp_send`. The raise of `snd_nxt` is undone before the segment is sent, and done again after it. -/
def tcpSend (now : Nat) (buf : List UInt8) : TcpM Int := do
  let c ← get
  if !c.sends then
    return -ENOTCONN
  let data := buf.take tcpMss
  let newNxt := c.sndNxt + BitVec.ofNat 32 data.length
  set { c with txBuf := data, txBufSeq := c.sndNxt }
  tcpSendSegment { ack := true, psh := true } data
  modify fun c => { c with sndNxt := newNxt, rtoTick := now + 18, retransmitCount := 0 }
  return data.length

def TcpConn.rxPop : Nat → TcpConn → List UInt8 × TcpConn
  | 0, c => ([], c)
  | n + 1, c =>
    let r := TcpConn.rxPop n { c with
      rxReadPos := (c.rxReadPos + 1) % tcpRxBufSize, rxCount := c.rxCount - 1 }
    (c.rxBuf c.rxReadPos :: r.1, r.2)

/-- `tcp_recv`; a call that waits in vain answers `-e`. -/
def tcpRecv (len : Nat) (e : Int) : TcpM (Except Int (List UInt8)) := do
  let c ← get
  if !c.inUse then
    return .error (-EBADF)
  if c.rxCount = 0 && !c.finReceived && !c.rstReceived then
    return .error (-(if c.nonblock then EAGAIN else e))
  if c.rstReceived then
    return .error (-ENOTCONN)
  if c.rxCount = 0 then
    return .ok []
  let oldWnd := tcpCalcRcvWnd c
  let (bytes, c) := c.rxPop (min len c.rxCount)
  set c
  if oldWnd < BitVec.ofNat 16 tcpMss ∧ BitVec.ofNat 16 tcpMss ≤ tcpCalcRcvWnd c ∧ c.state = .established then
    tcpSendAck
  return .ok bytes

def tcpSendFin (now : Nat) (state : TcpState) : TcpM Unit := do
  let c ← get
  let finSeq := c.sndNxt
  set { c with
    state := state, rtoTick := now + 18, retransmitCount := 0, txBuf := [], txBufSeq := finSeq }
  tcpSendSegment { fin := true, ack := true } []
  modify fun c => { c with sndNxt := finSeq + 1 }

def tcpCloseEnd : TcpM Unit :=
  modify fun c => if c.state ≠ .timeWait then { c with state := .closed, inUse := false } else c

/-- `tcp_close` up to its wait: a blocking call goes on with `tcpCloseEnd`. -/
def tcpClose (now : Nat) : TcpM Int := do
  let c ← get
  if !c.inUse then
    return -EBADF
  if c.state = .established ∨ c.state = .closeWait then
    tcpSendFin now (if c.state = .established then .finWait1 else .lastAck)
    modify fun c => if c.nonblock ∧ c.state = .closed then { c with inUse := false } else c
  else
    tcpCloseEnd
  return 0

/-- The meaning of a program whose segments leave through the network card: the result, the connection and the
    segments. -/
def TcpProg.exec {α : Type} : TcpProg α → α × TcpConn × List Segment
  | .done a c => (a, c, [])
  | .send seg c k => ((k c).exec.1, (k c).exec.2.1, seg :: (k c).exec.2.2)

def ourIp : U32 := 0x0A00020F

def isLoopback (ip : U32) : Bool := ip = ourIp || ip &&& 0xFF000000 = 0x7F000000

/-- `tcp_conns`, the clock, and the packets handed to the network card. -/
structure TcpTable where
  conns : Nat → TcpConn := fun _ => {}
  ticks : Nat := 0
  wire : List (U32 × Segment) := []

namespace TcpTable
variable (s : TcpTable)

def set (i : Nat) (c : TcpConn) : TcpTable := { s with conns := Function.update s.conns i c }

def findConn (localPort : U16) (remoteIp : U32) (remotePort : U16) : Option Nat :=
  (List.range maxTcpConns).find? fun i =>
    (s.conns i).inUse && (s.conns i).localPort = localPort && (s.conns i).remoteIp = remoteIp &&
      (s.conns i).remotePort = remotePort

def findListener (localPort : U16) : Option Nat :=
  (List.range maxTcpConns).find? fun i =>
    (s.conns i).inUse && (s.conns i).state = .listen && (s.conns i).localPort = localPort

/-- A program of connection `i`, with `tx` for `net_tx_ipv4`. -/
def run {α : Type} (tx : U32 → Segment → TcpTable → TcpTable) (i : Nat) : TcpProg α → TcpTable → α × TcpTable
  | .done a c, s => (a, s.set i c)
  | .send seg c k, s =>
    let s := tx c.remoteIp seg (s.set i c)
    run tx i (k (s.conns i)) s

def rstFor (seg : Segment) : Segment :=
  { srcPort := seg.dstPort, dstPort := seg.srcPort
    seq := if seg.flags.ack then seg.ackNum else seg.seq + 1
    flags := { rst := true, ack := true } }

/-- The body of `tcp_rx`, with `tx` for `net_tx_ipv4`. -/
def rxBody (tx : U32 → Segment → TcpTable → TcpTable) (src : U32) (seg : Segment) (s : TcpTable) : TcpTable :=
  match (s.findConn seg.dstPort src seg.srcPort).or (s.findListener seg.dstPort) with
  | some i => (run tx i (tcpRxConn s.ticks src seg (s.conns i)) s).2
  | none => if seg.flags.rst then s else tx src (rstFor seg) s

/-- `net_tx_ipv4`, with `rx` for `tcp_rx`: a packet for a local address is received at once. -/
def netTx (rx : U32 → Segment → TcpTable → TcpTable) (dst : U32) (seg : Segment) (s : TcpTable) : TcpTable :=
  if isLoopback dst then rx ourIp seg s else { s with wire := s.wire ++ [(dst, seg)] }

/-- `tcp_rx`, with a bound on the depth of the replies that run inside it. -/
def tcpRx : Nat → U32 → Segment → TcpTable → TcpTable
  | 0, _, _, s => s
  | n + 1, src, seg, s => rxBody (netTx (tcpRx n)) src seg s

/-- The depth that replies can reach: a segment is answered by an acknowledgement, that by a reset if its connection is
    gone, and the reset by nothing. -/
def rxDepth : Nat := 3

def call {α : Type} (i : Nat) (m : TcpM α) (s : TcpTable) : α × TcpTable :=
  run (netTx (tcpRx rxDepth)) i (m (s.conns i)) s

def timerTurns (n : Nat) : TcpTable :=
  (List.range n).foldl (fun s i => (s.call i (tcpTimer s.ticks)).2) s

def tcpTimerCheck : TcpTable := s.timerTurns maxTcpConns

end TcpTable

end Limnx
