import Limnx.Process

/-! # Agents and their mailboxes (`ipc/agent_reg.c`)

Each section under `agent_lock` is one step. `agent_send` with a token lets go of it to delegate the token: the thread
is then at `delegating` or `enqueuing` and keeps the slot it has found. `reg` numbers the registrations; `sent` and
`taken` record what each was sent and has received. No function reads these. -/

namespace Limnx

def maxAgents : Nat := 16
def agentNameMax : Nat := 32
def agentMboxSlots : Nat := 4
def agentMsgMax : Nat := 256

/-- `agent_mbox_msg_t`. The length is that of the data. -/
structure AgentMsg where
  senderPid : Nat := 0
  tokenId : Nat := 0
  data : List UInt8 := []
deriving DecidableEq

def AgentMsg.cut (m : AgentMsg) (maxLen : Nat) : AgentMsg := { m with data := m.data.take (min m.data.length maxLen) }

/-- `agent_entry_t` with its mailbox. The name is a string without its final zero byte. -/
structure AgentEntry where
  name : CStr := []
  pid : Nat := 0
  nsId : U32 := 0
  used : Bool := false
  msgs : Nat → AgentMsg := fun _ => {}
  head : Nat := 0
  tail : Nat := 0
  count : Nat := 0
  reg : Nat := 0

namespace AgentEntry

def enqueue (e : AgentEntry) (m : AgentMsg) : AgentEntry :=
  { e with
    msgs := Function.update e.msgs e.tail m
    tail := (e.tail + 1) % agentMboxSlots
    count := e.count + 1 }

def dequeue (e : AgentEntry) : AgentEntry := { e with head := (e.head + 1) % agentMboxSlots, count := e.count - 1 }

end AgentEntry

/-- Where the thread of a process is in `agent_send`: it has found slot `i` with registration `r`. -/
inductive AgentPc
  | idle
  | delegating (i r : Nat) (m : AgentMsg) (tokenId targetPid : Nat)
  | enqueuing (i r : Nat) (m : AgentMsg)
deriving DecidableEq

structure AgentWorld where
  table : Nat → AgentEntry := fun _ => {}
  pcs : Nat → AgentPc := fun _ => .idle
  nextReg : Nat := 0
  sent : Nat → List AgentMsg := fun _ => []
  taken : Nat → Nat := fun _ => 0

/-- What a call answers: the value returned, and the message with the registration it comes from. -/
structure AgentOut where
  returns : Option Int := none
  received : Option (Nat × AgentMsg) := none
deriving DecidableEq

namespace AgentWorld
variable (w : AgentWorld)

def setEntry (i : Nat) (e : AgentEntry) : AgentWorld :=
  { w with table := Function.update w.table i e }

def goto (p : Nat) (pc : AgentPc) : AgentWorld := { w with pcs := Function.update w.pcs p pc }

def newReg (i : Nat) (e : AgentEntry) : AgentWorld :=
  { w.setEntry i { e with reg := w.nextReg } with nextReg := w.nextReg + 1 }

def findName (name : CStr) (nsId : U32) : Option Nat :=
  (List.range maxAgents).find? fun i => (w.table i).used && (w.table i).nsId == nsId && (w.table i).name == name

def agentRegisterNs (name : CStr) (pid : Nat) (nsId : U32) : Int × AgentWorld :=
  match w.findName name nsId with
  | some i => (0, w.newReg i { w.table i with pid, head := 0, tail := 0, count := 0 })
  | none =>
    match (List.range maxAgents).find? fun i => !(w.table i).used with
    | some i =>
      (0, w.newReg i
        { w.table i with name := name.take (agentNameMax - 1), pid, nsId, used := true, head := 0, tail := 0, count := 0 })
    | none => (-ENOMEM, w)

def unregister (f : AgentEntry → Bool) : AgentWorld :=
  { w with table := fun i => if (w.table i).used && f (w.table i) then { w.table i with used := false } else w.table i }

def agentUnregisterPid (pid : Nat) : AgentWorld := w.unregister (·.pid == pid)

def agentUnregisterNs (nsId : U32) : AgentWorld := w.unregister (·.nsId == nsId)

/-- The slot to which `agent_send` of a process in namespace `nsId` sends. -/
def findTarget (name : CStr) (nsId : U32) : Option Nat :=
  (List.range maxAgents).find? fun i =>
    (w.table i).used && ((w.table i).nsId == nsId || (w.table i).nsId == 0 || nsId == 0) && (w.table i).name == name

/-- The message is put into the mailbox of slot `i`; `r` is the registration that the call has found. -/
def enqueue (i r : Nat) (m : AgentMsg) : AgentWorld :=
  { w.setEntry i ((w.table i).enqueue m) with sent := Function.update w.sent r (w.sent r ++ [m]) }

def agentSend (p : Nat) (name : CStr) (nsId : U32) (data : List UInt8) (tokenId : Nat) : AgentOut × AgentWorld :=
  match w.findTarget name nsId with
  | none => ({ returns := some (-ENOENT) }, w)
  | some i =>
    let m : AgentMsg := { senderPid := p, data := data.take agentMsgMax }
    if agentMboxSlots ≤ (w.table i).count then ({ returns := some (-ENOBUFS) }, w)
    else if tokenId ≠ 0 then ({}, w.goto p (.delegating i (w.table i).reg m tokenId (w.table i).pid))
    else ({ returns := some 0 }, w.enqueue i (w.table i).reg m)

def delegate (p : Nat) (newTok : Int) : AgentWorld :=
  match w.pcs p with
  | .delegating i r m _ _ => w.goto p (.enqueuing i r { m with tokenId := if 0 < newTok then newTok.toNat else 0 })
  | _ => w

def resume (p : Nat) : AgentOut × AgentWorld :=
  match w.pcs p with
  | .enqueuing i r m =>
    if !(w.table i).used then ({ returns := some (-ENOENT) }, w.goto p .idle)
    else ({ returns := some 0 }, (w.enqueue i r m).goto p .idle)
  | _ => ({}, w)

def findPid (pid : Nat) : Option Nat :=
  (List.range maxAgents).find? fun i => (w.table i).used && (w.table i).pid == pid

def agentRecv (pid maxLen : Nat) : AgentOut × AgentWorld :=
  match w.findPid pid with
  | none => ({ returns := some (-ESRCH) }, w)
  | some i =>
    let e := w.table i
    if e.count = 0 then ({ returns := some (-EAGAIN) }, w)
    else
      let m := (e.msgs e.head).cut maxLen
      ({ returns := some m.data.length, received := some (e.reg, m) },
        { w.setEntry i e.dequeue with taken := Function.update w.taken e.reg (w.taken e.reg + 1) })

end AgentWorld

inductive AgentStep
  | register (p : Nat) (name : CStr) (ns : U32)
  | unregisterPid (p : Nat)
  | unregisterNs (ns : U32)
  | send (p : Nat) (name : CStr) (ns : U32) (data : List UInt8) (tokenId : Nat)
  | delegate (p : Nat) (newTok : Int)
  | resume (p : Nat)
  | recv (p maxLen : Nat)
deriving DecidableEq

namespace AgentWorld

/-- One step. A process inside `agent_send` makes no other call. -/
def react (w : AgentWorld) : AgentStep → AgentOut × AgentWorld
  | .register p name ns =>
    if w.pcs p = .idle then
      let r := w.agentRegisterNs name p ns
      ({ returns := some r.1 }, r.2)
    else ({}, w)
  | .unregisterPid p => ({}, w.agentUnregisterPid p)
  | .unregisterNs ns => ({}, w.agentUnregisterNs ns)
  | .send p name ns data tokenId => if w.pcs p = .idle then w.agentSend p name ns data tokenId else ({}, w)
  | .delegate p newTok => ({}, w.delegate p newTok)
  | .resume p => w.resume p
  | .recv p maxLen => if w.pcs p = .idle then w.agentRecv p maxLen else ({}, w)

def step (w : AgentWorld) (op : AgentStep) : AgentWorld := (w.react op).2

end AgentWorld

end Limnx
