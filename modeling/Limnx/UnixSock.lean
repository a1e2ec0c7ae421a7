import Limnx.Process

/-! # Unix sockets (`ipc/unix_sock.c`)

Each section under `unix_lock` is one step, and so is each read of `state`, `peer`, `peer_closed` or `count` outside it.
A pointer to a socket is its slot. `gen` numbers the end that a slot holds, `mate` says which ends were connected, and
`put` and `got` are the bytes accepted and returned on each. No function reads these. -/

namespace Limnx
open Function

def maxUnixSocks : Nat := 16
def unixSockBufSz : Nat := 4096
def unixSockPathMax : Nat := 108
def unixSockBacklog : Nat := 4

inductive UsockState
  | free | unbound | bound | listening | connected | closed
deriving DecidableEq

/-- `unix_sock_t`. A path is a string without its final zero byte. -/
structure UnixSock where
  state : UsockState := .free
  peerClosed : Bool := false
  refs : Nat := 0
  path : List UInt8 := []
  buf : Buf := fun _ => 0
  rdPos : Nat := 0
  wrPos : Nat := 0
  count : Nat := 0
  peer : Option Nat := none
  backlog : Nat → Option Nat := fun _ => none
  backlogCount : Nat := 0
  gen : Nat := 0

namespace UnixSock
variable (s : UnixSock)

/-- What `unix_sock_alloc` writes to a free slot. -/
def reset (gen : Nat) : UnixSock :=
  { s with
    state := .unbound, peerClosed := false, refs := 1, path := [], rdPos := 0, wrPos := 0, count := 0, peer := none
    backlog := fun _ => none, backlogCount := 0, gen }

def pushByte (b : UInt8) : UnixSock :=
  { s with
    buf := update s.buf s.wrPos b
    wrPos := (s.wrPos + 1) % unixSockBufSz
    count := s.count + 1 }

def popByte : UnixSock := { s with rdPos := (s.rdPos + 1) % unixSockBufSz, count := s.count - 1 }

/-- The loop of `unix_sock_send` under the lock: bytes are copied in while there is room. What is left is returned. -/
def copyIn (s : UnixSock) : List UInt8 → UnixSock × List UInt8
  | [] => (s, [])
  | b :: rest => if s.count < unixSockBufSz then (s.pushByte b).copyIn rest else (s, b :: rest)

/-- The loop of `unix_sock_recv` under the lock: at most `n` bytes are taken out. -/
def copyOut (s : UnixSock) : Nat → List UInt8 × UnixSock
  | 0 => ([], s)
  | n + 1 =>
    if 0 < s.count then
      let r := s.popByte.copyOut n
      (s.buf s.rdPos :: r.1, r.2)
    else ([], s)

end UnixSock

/-- Where a thread is in `unix_sock_send` or `unix_sock_recv`: `i` is the slot, `e` the end it held when the call began,
    `j` the pointer to the peer, `done` what is in the caller's buffer. -/
inductive UnixPc
  | idle
  | sendState (i e : Nat) (bytes : List UInt8) (nonblock : Bool)
  | sendHasPeer (i e : Nat) (bytes : List UInt8) (nonblock : Bool)
  | sendPeer (i e : Nat) (bytes : List UInt8) (nonblock : Bool)
  | sendLoop (e j : Nat) (rest : List UInt8) (total : Nat) (nonblock : Bool)
  | sendCopy (e j : Nat) (rest : List UInt8) (total : Nat) (nonblock : Bool)
  | sendFull (e j : Nat) (rest : List UInt8) (total : Nat) (nonblock : Bool)
  | recvState (i e len : Nat) (nonblock : Bool)
  | recvDrain (i e left : Nat) (done : List UInt8) (nonblock : Bool)
  | fault
deriving DecidableEq

inductive UnixOut
  | code (r : Int)
  | bytes (b : List UInt8)
deriving DecidableEq

structure UnixWorld where
  socks : Nat → UnixSock := fun _ => {}
  pcs : Nat → UnixPc := fun _ => .idle
  nextGen : Nat := 1
  mate : Nat → Option Nat := fun _ => none
  put : Nat → List UInt8 := fun _ => []
  got : Nat → List UInt8 := fun _ => []

namespace UnixWorld
variable (w : UnixWorld)

def set (i : Nat) (s : UnixSock) : UnixWorld := { w with socks := update w.socks i s }

def goto (p : Nat) (pc : UnixPc) : UnixWorld := { w with pcs := update w.pcs p pc }

def alloc : Option (Nat × UnixWorld) :=
  ((List.range maxUnixSocks).find? fun i => (w.socks i).state == .free).map fun i =>
    (i, { w.set i ((w.socks i).reset w.nextGen) with nextGen := w.nextGen + 1 })

def unixSockAlloc : Int × UnixWorld :=
  match w.alloc with
  | some (i, w) => (i, w)
  | none => (-ENOMEM, w)

def unixSockBind (i : Nat) (path : List UInt8) : Int × UnixWorld :=
  if maxUnixSocks ≤ i then (-EINVAL, w)
  else if (w.socks i).state ≠ .unbound then (-EINVAL, w)
  else if (List.range maxUnixSocks).any fun k => k != i &&
      ((w.socks k).state == .bound || (w.socks k).state == .listening) && (w.socks k).path == path then
    (-EADDRINUSE, w)
  else (0, w.set i { w.socks i with path := path.take (unixSockPathMax - 1), state := .bound })

def unixSockListen (i : Nat) : Int × UnixWorld :=
  if maxUnixSocks ≤ i then (-EINVAL, w)
  else if (w.socks i).state ≠ .bound then (-EINVAL, w)
  else (0, w.set i { w.socks i with state := .listening })

def addBacklog (listener server : Nat) : UnixWorld :=
  let l := w.socks listener
  match (List.range unixSockBacklog).find? fun k => (l.backlog k).isNone with
  | some k => w.set listener
      { l with backlog := update l.backlog k (some server), backlogCount := l.backlogCount + 1 }
  | none => w

def link (client server : Nat) : UnixWorld :=
  let a := (w.socks client).gen
  let b := (w.socks server).gen
  let w := w.set client { w.socks client with state := .connected, peer := some server }
  let w := w.set server { w.socks server with state := .connected, peer := some client }
  { w with mate := update (update w.mate a (some b)) b (some a) }

def unixSockConnect (path : List UInt8) : Int × UnixWorld :=
  match (List.range maxUnixSocks).find? fun i => (w.socks i).state == .listening && (w.socks i).path == path with
  | none => (-ECONNREFUSED, w)
  | some listener =>
    if unixSockBacklog ≤ (w.socks listener).backlogCount then (-EAGAIN, w)
    else
      match w.alloc with
      | none => (-ENOMEM, w)
      | some (client, w) =>
        match w.alloc with
        | none => (-ENOMEM, w.set client { w.socks client with state := .free })
        | some (server, w) => (client, (w.link client server).addBacklog listener server)

def unixSockAccept (i : Nat) : Int × UnixWorld :=
  if maxUnixSocks ≤ i then (-EINVAL, w)
  else
    let l := w.socks i
    if l.state ≠ .listening then (-EINVAL, w)
    else if l.backlogCount = 0 then (-EAGAIN, w)
    else
      match (List.range unixSockBacklog).find? fun k => (l.backlog k).isSome with
      | none => (-EAGAIN, w)
      | some k =>
        (((l.backlog k).map Int.ofNat).getD (-EINVAL),
          w.set i { l with backlog := update l.backlog k none, backlogCount := l.backlogCount - 1 })

def unixSockClose (i : Nat) : UnixWorld :=
  let w := w.set i { w.socks i with refs := (w.socks i).refs - 1 }
  if 0 < (w.socks i).refs then w
  else
    let w := match (w.socks i).peer with
      | some j => w.set j { w.socks j with peerClosed := true, peer := none }
      | none => w
    w.set i { w.socks i with state := .free, peer := none, path := [] }

def leave (p : Nat) (r : Int) : Option UnixOut × UnixWorld := (some (.code r), w.goto p .idle)

def leaveWith (p e : Nat) (b : List UInt8) : Option UnixOut × UnixWorld :=
  (some (.bytes b), { w with got := update w.got e (w.got e ++ b) }.goto p .idle)

/-- The next step of the thread of process `p`, and what the call returns. -/
def turn (p : Nat) : Option UnixOut × UnixWorld :=
  match w.pcs p with
  | .idle | .fault => (none, w)
  | .sendState i e bytes nb =>
    if (w.socks i).state ≠ .connected then w.leave p (-ENOTCONN)
    else (none, w.goto p (.sendHasPeer i e bytes nb))
  | .sendHasPeer i e bytes nb =>
    if (w.socks i).peer.isNone then w.leave p (-ENOTCONN)
    else (none, w.goto p (.sendPeer i e bytes nb))
  | .sendPeer i e bytes nb =>
    match (w.socks i).peer with
    | none => (none, w.goto p .fault)
    | some j => (none, w.goto p (.sendLoop e j bytes 0 nb))
  | .sendLoop e j rest total nb =>
    if rest = [] then w.leave p total
    else if (w.socks j).peerClosed then w.leave p (if 0 < total then total else -ENOTCONN)
    else (none, w.goto p (.sendCopy e j rest total nb))
  | .sendCopy e j rest total nb =>
    let r := (w.socks j).copyIn rest
    let n := rest.length - r.2.length
    let w := { w.set j r.1 with put := update w.put e (w.put e ++ rest.take n) }
    if r.2 = [] then w.leave p (total + n : Nat)
    else (none, w.goto p (.sendFull e j r.2 (total + n) nb))
  | .sendFull e j rest total nb =>
    if 0 < total ∧ unixSockBufSz ≤ (w.socks j).count then w.leave p total
    else if nb then w.leave p (if 0 < total then total else -EAGAIN)
    else (none, w.goto p (.sendLoop e j rest total nb))
  | .recvState i e len nb =>
    if (w.socks i).state ≠ .connected ∧ (w.socks i).state ≠ .closed then w.leave p (-ENOTCONN)
    else if len = 0 then w.leave p 0
    else (none, w.goto p (.recvDrain i e len [] nb))
  | .recvDrain i e left done nb =>
    let r := (w.socks i).copyOut left
    let done := done ++ r.1
    let left := left - r.1.length
    let peerGone := (w.socks i).peerClosed
    let w := w.set i r.2
    if r.2.count = 0 then
      if peerGone || done ≠ [] then w.leaveWith p e done
      else if nb then w.leave p (-EAGAIN)
      else (none, w.goto p (.recvDrain i e left done nb))
    else if left = 0 then w.leaveWith p e done
    else (none, w.goto p (.recvDrain i e left done nb))

end UnixWorld

inductive UnixStep
  | alloc (p : Nat)
  | bind (p i : Nat) (path : List UInt8)
  | listen (p i : Nat)
  | connect (p : Nat) (path : List UInt8)
  | accept (p i : Nat)
  | send (p i : Nat) (bytes : List UInt8) (nonblock : Bool)
  | recv (p i len : Nat) (nonblock : Bool)
  | close (p i : Nat)
  | turn (p : Nat)
deriving DecidableEq

namespace UnixWorld
variable (w : UnixWorld)

def whole (p : Nat) (r : Int × UnixWorld) : Option UnixOut × UnixWorld :=
  if w.pcs p = .idle then (some (.code r.1), r.2) else (none, w)

def enter (p : Nat) (pc : UnixPc) : Option UnixOut × UnixWorld :=
  (none, if w.pcs p = .idle then w.goto p pc else w)

/-- One step. A process inside a call makes no other one. -/
def react : UnixStep → Option UnixOut × UnixWorld
  | .alloc p => w.whole p w.unixSockAlloc
  | .bind p i path => w.whole p (w.unixSockBind i path)
  | .listen p i => w.whole p (w.unixSockListen i)
  | .connect p path => w.whole p (w.unixSockConnect path)
  | .accept p i => w.whole p (w.unixSockAccept i)
  | .send p i bytes nb => w.enter p (.sendState i (w.socks i).gen bytes nb)
  | .recv p i len nb => w.enter p (.recvState i (w.socks i).gen len nb)
  | .close p i => (none, if w.pcs p = .idle then w.unixSockClose i else w)
  | .turn p => w.turn p

def step (op : UnixStep) : UnixWorld := (w.react op).2

end UnixWorld

end Limnx
