import Limnx.Tcp
import Limnx.Lib.StateProg

/-! # Incoming frames (`net/net.c`, `net/tcp.c`)

`net_rx` and its handlers are programs over the memory from the start of the frame on, with whatever lies behind its
end, and the positions read. Packets that go out are recorded as handed to `net_tx_ipv4` or `eth_tx`. What `tcp_rx` does
to its connections is `TcpTable.tcpRx`. -/

namespace Limnx

def ethHlen : Nat := 14
def ethTypeArp : Nat := 0x0806
def ethTypeIpv4 : Nat := 0x0800
def arpOpRequest : Nat := 1
def ipProtoIcmp : UInt8 := 1
def ipProtoTcp : UInt8 := 6
def ipProtoUdp : UInt8 := 17
def icmpTypeEchoReply : UInt8 := 0
def icmpTypeEchoRequest : UInt8 := 8
def arpTableSize : Nat := 16
def maxSockets : Nat := 8
def socketBufSize : Nat := 1500

abbrev FrameMem := Buf

namespace FrameMem
variable (m : FrameMem)

def bytes (off n : Nat) : List UInt8 := (List.range n).map fun i => m (off + i)

def be16 (off : Nat) : Nat := (m off).toNat * 256 + (m (off + 1)).toNat

def be32 (off : Nat) : Nat := m.be16 off * 65536 + m.be16 (off + 2)

def le16 (off : Nat) : Nat := (m off).toNat + 256 * (m (off + 1)).toNat

def ihl (off : Nat) : Nat := (m off).toNat % 16 * 4

def wordSum (m : FrameMem) : Nat → Nat → Nat → Nat
  | off, n + 2, sum => wordSum m (off + 2) n ((sum + m.le16 off) % 2 ^ 32)
  | off, 1, sum => (sum + (m off).toNat) % 2 ^ 32
  | _, 0, sum => sum

/-- The carries are added. A `uint32_t` needs at most three turns. -/
def foldSum : Nat → Nat → Nat
  | 0, sum => sum
  | n + 1, sum => if sum / 2 ^ 16 = 0 then sum else foldSum n (sum % 2 ^ 16 + sum / 2 ^ 16)

def ipChecksum (off len : Nat) : U16 := ~~~ BitVec.ofNat 16 (foldSum 3 (m.wordSum off len 0))

def htons (h : U16) : U16 := h >>> 8 ||| h <<< 8

def htonl (h : U32) : U32 :=
  h >>> 24 &&& 0xFF ||| h >>> 8 &&& 0xFF00 ||| h <<< 8 &&& 0xFF0000 ||| h <<< 24 &&& 0xFF000000

/-- The words of the pseudo-header. -/
def pseudoHeader (srcIp dstIp : U32) (len : Nat) : List U16 :=
  [(htonl srcIp >>> 16).setWidth 16, (htonl srcIp).setWidth 16, (htonl dstIp >>> 16).setWidth 16,
    (htonl dstIp).setWidth 16, htons 6, htons (BitVec.ofNat 16 len)]

def tcpChecksum (srcIp dstIp : U32) (off len : Nat) : U16 :=
  ~~~ BitVec.ofNat 16 (foldSum 3 (m.wordSum off len ((pseudoHeader srcIp dstIp len).map BitVec.toNat).sum))

end FrameMem

structure ArpEntry where
  ip : U32 := 0
  mac : List UInt8 := []
  valid : Bool := false
deriving DecidableEq

/-- `socket_t`. -/
structure UdpSocket where
  inUse : Bool := false
  localPort : Nat := 0
  rxBuf : List UInt8 := []
  rxSrcIp : U32 := 0
  rxSrcPort : Nat := 0
  rxReady : Bool := false
deriving DecidableEq

inductive Outgoing
  | arpReply (ip : U32) (mac : List UInt8)
  | ipv4 (dst : U32) (protocol : UInt8) (payload : List UInt8)
deriving DecidableEq

structure NetState where
  arpTable : List ArpEntry := List.replicate arpTableSize {}
  sockets : List UdpSocket := List.replicate maxSockets {}
  pingReplyReceived : Bool := false
  tcp : TcpTable := {}
  outgoing : List Outgoing := []

/-- A frame that is being read. `handed` lists where the payload of a transport handler starts and the length that it is
    given. -/
structure Rx where
  mem : FrameMem
  net : NetState
  reads : List Nat := []
  handed : List (Nat × U32) := []

abbrev RxM := StateProg Rx

namespace Rx

open StateProg

def touch (off n : Nat) : RxM Unit := modify fun s => { s with reads := s.reads ++ List.range' off n }

def u8 (off : Nat) : RxM UInt8 := do
  touch off 1
  gets fun s => s.mem off

def u16 (off : Nat) : RxM Nat := do
  touch off 2
  gets fun s => s.mem.be16 off

def u32 (off : Nat) : RxM U32 := do
  touch off 4
  gets fun s => BitVec.ofNat 32 (s.mem.be32 off)

def copy (off n : Nat) : RxM (List UInt8) := do
  touch off n
  gets fun s => s.mem.bytes off n

def ipChecksum (off len : Nat) : RxM U16 := do
  touch off len
  gets fun s => s.mem.ipChecksum off len

def modifyNet (f : NetState → NetState) : RxM Unit := modify fun s => { s with net := f s.net }

end Rx

def arpLearn (table : List ArpEntry) (ip : U32) (mac : List UInt8) : List ArpEntry :=
  match table.findIdx? fun e => e.valid && e.ip == ip with
  | some i => table.modify i fun e => { e with mac }
  | none =>
    match table.findIdx? fun e => !e.valid with
    | some i => table.set i { ip, mac, valid := true }
    | none => table

def echoReply (data : List UInt8) : List UInt8 :=
  let r := ((data.set 0 icmpTypeEchoReply).set 2 0).set 3 0
  let sum := (FrameMem.ipChecksum (fun i => r.getD i 0) 0 r.length).toNat
  (r.set 2 (UInt8.ofNat sum)).set 3 (UInt8.ofNat (sum / 256))

namespace Rx

open StateProg

def handleArp (off : Nat) (len : U32) : RxM Unit := do
  if len.toNat < 28 then pure ()
  else do
    let op ← u16 (off + 6)
    let senderIp ← u32 (off + 14)
    let targetIp ← u32 (off + 24)
    let mac ← copy (off + 8) 6
    modifyNet fun n => { n with arpTable := arpLearn n.arpTable senderIp mac }
    if op = arpOpRequest ∧ targetIp = ourIp then
      modifyNet fun n => { n with outgoing := n.outgoing ++ [.arpReply senderIp mac] }
    else pure ()

/-- `net_tx_ipv4` with an echo reply. A reply to a local address is received at once, and raises the flag. -/
def sendEchoReply (dst : U32) (reply : List UInt8) : RxM Unit :=
  modifyNet fun n =>
    { n with
      outgoing := n.outgoing ++ [.ipv4 dst ipProtoIcmp reply]
      pingReplyReceived := n.pingReplyReceived || isLoopback dst }

def handleIcmp (srcIp : U32) (off : Nat) (len : U32) : RxM Unit := do
  if len.toNat < 8 then pure ()
  else do
    let type ← u8 off
    if type = icmpTypeEchoRequest then
      if 1500 < len.toNat then pure ()
      else do
        let data ← copy off len.toNat
        sendEchoReply srcIp (echoReply data)
    else if type = icmpTypeEchoReply then
      modifyNet fun n => { n with pingReplyReceived := true }
    else pure ()

def udpStore (i : Nat) (srcIp : U32) (srcPort : Nat) (payload : List UInt8) : RxM Unit :=
  modifyNet fun n => { n with sockets := n.sockets.modify i fun s =>
    { s with rxBuf := payload, rxSrcIp := srcIp, rxSrcPort := srcPort, rxReady := true } }

def handleUdp (srcIp : U32) (off : Nat) (len : U32) : RxM Unit := do
  if len.toNat < 8 then pure ()
  else do
    let dstPort ← u16 (off + 2)
    let srcPort ← u16 off
    let udpLen ← u16 (off + 4)
    if udpLen < 8 ∨ len.toNat < udpLen then pure ()
    else do
      let sockets ← gets fun s => s.net.sockets
      match sockets.findIdx? fun s => s.inUse && s.localPort == dstPort with
      | none => pure ()
      | some i =>
        if (sockets.getD i {}).rxReady then pure ()
        else do
          let payload ← copy (off + 8) (min (udpLen - 8) socketBufSize)
          udpStore i srcIp srcPort payload

end Rx

def TcpFlags.ofByte (b : UInt8) : TcpFlags :=
  { fin := b.toNat.testBit 0, syn := b.toNat.testBit 1, rst := b.toNat.testBit 2, psh := b.toNat.testBit 3
    ack := b.toNat.testBit 4 }

variable (c : TcpConn)

/-- `tcp_rx` looks at the window field of a segment for this connection. -/
def TcpConn.readsWindow (seg : Segment) : Bool :=
  match c.state with
  | .synSent => seg.flags.syn && seg.flags.ack && seg.ackNum = c.sndNxt
  | .established | .closeWait => !seg.flags.rst && seg.flags.ack
  | _ => false

def TcpConn.takesData (seg : Segment) : Bool :=
  match c.state with
  | .established => !seg.flags.rst
  | .synReceived => seg.flags.ack && seg.ackNum = c.sndIss + 1
  | _ => false

def TcpConn.copies (seg : Segment) : Nat :=
  if c.takesData seg && seg.seq = c.rcvNxt then min seg.payload.length (tcpRxBufSize - c.rxCount) else 0

namespace Rx

open StateProg

/-- What `tcp_rx` reads of a segment for a connection: its window field, and the data that it copies. -/
def tcpRead (off hdrLen : Nat) (seg : Segment) (c : TcpConn) : RxM Unit := do
  touch (off + 14) (if c.readsWindow seg then 2 else 0)
  touch (off + hdrLen) (c.copies seg)

def tcpReadFor (srcIp : U32) (off hdrLen : Nat) (seg : Segment) : RxM Unit := do
  let tcp ← gets fun s => s.net.tcp
  match (tcp.findConn seg.dstPort srcIp seg.srcPort).or (tcp.findListener seg.dstPort) with
  | some i => tcpRead off hdrLen seg (tcp.conns i)
  | none => pure ()

def tcpRx (srcIp : U32) (off : Nat) (len : U32) : RxM Unit := do
  if len.toNat < 20 then pure ()
  else do
    let srcPort ← u16 off
    let dstPort ← u16 (off + 2)
    let seq ← u32 (off + 4)
    let ackNum ← u32 (off + 8)
    let flags ← u8 (off + 13)
    let dataOffset ← u8 (off + 12)
    let hdrLen := dataOffset.toNat / 16 * 4
    if hdrLen < 20 ∨ len.toNat < hdrLen then pure ()
    else do
      let m ← gets Rx.mem
      let seg : Segment :=
        { srcPort := BitVec.ofNat 16 srcPort, dstPort := BitVec.ofNat 16 dstPort, seq, ackNum
          flags := .ofByte flags, window := BitVec.ofNat 16 (m.be16 (off + 14))
          payload := m.bytes (off + hdrLen) (len.toNat - hdrLen) }
      tcpReadFor srcIp off hdrLen seg
      modifyNet fun n => { n with tcp := n.tcp.tcpRx TcpTable.rxDepth srcIp seg }

def transport (protocol : UInt8) (srcIp : U32) (off : Nat) (len : U32) : RxM Unit :=
  let handOn : RxM Unit := modify fun s => { s with handed := s.handed ++ [(off, len)] }
  if protocol = ipProtoIcmp then do
    handOn
    handleIcmp srcIp off len
  else if protocol = ipProtoTcp then do
    handOn
    tcpRx srcIp off len
  else if protocol = ipProtoUdp then do
    handOn
    handleUdp srcIp off len
  else pure ()

def forUs (dstIp : U32) : Bool :=
  dstIp = ourIp || dstIp = 0xFFFFFFFF || dstIp &&& 0xFF000000 = 0x7F000000

def readIhl (off : Nat) : RxM Nat := do
  touch off 1
  gets fun s => s.mem.ihl off

def handleIpv4 (off : Nat) (len : U32) : RxM Unit := do
  if len.toNat < 20 then pure ()
  else do
    let ihl ← readIhl off
    if ihl < 20 ∨ len.toNat < ihl then pure ()
    else do
      let sum ← ipChecksum off ihl
      if sum ≠ 0 then pure ()
      else do
        let total ← u16 (off + 2)
        if len.toNat < total then pure ()
        else do
          let srcIp ← u32 (off + 12)
          let dstIp ← u32 (off + 16)
          if !forUs dstIp then pure ()
          else do
            let protocol ← u8 (off + 9)
            transport protocol srcIp (off + ihl) (BitVec.ofNat 32 total - BitVec.ofNat 32 ihl)

def netRx (len : U32) : RxM Unit := do
  if len.toNat < ethHlen then pure ()
  else do
    let ethertype ← u16 12
    if ethertype = ethTypeArp then handleArp ethHlen (len - BitVec.ofNat 32 ethHlen)
    else if ethertype = ethTypeIpv4 then handleIpv4 ethHlen (len - BitVec.ofNat 32 ethHlen)
    else pure ()

end Rx

end Limnx
