import Limnx.Mm
import Limnx.Syscall
import Limnx.Lib.RingBuffer
import Limnx.Lib.GuardedRun

/-! # Signals (`proc/process.c`, `syscall/syscall.c`, `syscall/sys_signal.c`, the system call entries)

The state of one process: its signal fields, its user context, the words of its memory, and the dispatches in progress,
more than one if `sys_sigreturn` runs an interrupted call again. A system call is the entry, the body and the signal
check that ends each `syscall_dispatch`; signals arrive between any two steps. User code and other bodies are inputs. -/

namespace Limnx
open Function

namespace Arch

def sysRtSigaction : Arch → Nat
  | x86_64 => 13
  | arm64 => 134

def sysRtSigprocmask : Arch → Nat
  | x86_64 => 14
  | arm64 => 135

def frameLen : Arch → Nat
  | x86_64 => 4
  | arm64 => 34

end Arch

def sysNr : Nat := 610
def maxSignals : Nat := 32
def sigKill : Nat := 9
def sigCont : Nat := 18
def sigStop : Nat := 19
def sigChld : Nat := 20
def sigTstp : Nat := 21
def sigTtin : Nat := 22
def sigTtou : Nat := 23
def sigDfl : U64 := 0
def sigIgn : U64 := 1
def sigQueueSize : Nat := 16
def maxSignalDepth : Nat := 4

namespace Signals

structure SignalQueue where
  signum : Nat → Nat := fun _ => 0
  head : Nat := 0
  tail : Nat := 0
  count : Nat := 0

namespace SignalQueue
variable (q : SignalQueue)

def push (sig : Nat) : SignalQueue :=
  { q with
    signum := update q.signum q.tail sig
    tail := (q.tail + 1) % sigQueueSize
    count := q.count + 1 }

def find (sig : Nat) : Option Nat :=
  (List.range q.count).find? fun qi => q.signum ((q.head + qi) % sigQueueSize) = sig

/-- Entry `qi` is removed by shifting those behind it. The tail stays where it is. -/
def removeAt (qi : Nat) : SignalQueue :=
  { q with
    signum := (List.range' qi (q.count - 1 - qi)).foldl (RingBuffer.moveDown sigQueueSize q.head) q.signum
    count := q.count - 1 }

end SignalQueue

/-- `sigaction_t`, with `SA_RESTART` for the flags. -/
structure SigAction where
  handler : U64 := sigDfl
  restart : Bool := false
deriving DecidableEq

structure Call where
  num : Nat
  args : List U64 := []
deriving DecidableEq

def Call.arg (c : Call) (i : Nat) : U64 := c.args.getD i 0

/-- The user context that the kernel holds: the words on top of the kernel stack, or the exception frame. `regs` are x0
    to x30; on x86_64 only `rax` and `rdi` (0 and 1). -/
structure UserCtx where
  pc : U64 := 0
  sp : U64 := 0
  flags : U64 := 0
  regs : Nat → U64 := fun _ => 0

def userFlags : Arch → U64 → Bool
  | .x86_64, f => f &&& 0x3000 = 0
  | .arm64, f => f &&& 0xF = 0

def UserCtx.userMode (arch : Arch) (c : UserCtx) : Bool := userFlags arch c.flags && c.pc.toNat < userAddrMax

/-- The part of `percpu_t` with which the return path is sent to a handler. -/
structure Slot where
  handler : U64
  frame : U64
  sig : Nat
deriving DecidableEq

/-- A present page: its physical address, and whether it is copied when written. `shared` says that the
    reference count of the frame is not 1. -/
structure UserPage where
  phys : Nat
  cow : Bool := false
  shared : Bool := false
deriving DecidableEq

/-- A dispatch in progress, with the answer of its body once that has run. -/
structure Activation where
  call : Call
  result : Option U64 := none
deriving DecidableEq

/-- `frames` is `signal_frame_stack` up to `signal_depth`, the newest first; `restart` is the saved system call if
    `restart_pending` is set. `active` lists the dispatches in progress, the innermost first. `mem` is memory by words.
    The last two fields count and are never read. -/
structure SigState where
  arch : Arch
  pending : U32 := 0
  mask : U32 := 0
  queue : SignalQueue := {}
  handlers : Nat → SigAction := fun _ => {}
  frames : List U64 := []
  restart : Option Call := none
  slot : Option Slot := none
  ctx : UserCtx := {}
  pages : Nat → Option UserPage := fun _ => none
  mem : Nat → U64 := fun _ => 0
  active : List Activation := []
  exited : Bool := false
  deliveries : Nat → Nat := fun _ => 0
  invocations : Nat → Nat := fun _ => 0

def frameWords (arch : Arch) (c : UserCtx) (result : U64) : Nat → U64 :=
  match arch with
  | .x86_64 => fun i => if i = 0 then c.sp else if i = 1 then c.pc else if i = 2 then c.flags else result
  | .arm64 => fun i =>
    if i = 0 then result
    else if i = 31 then c.pc
    else if i = 32 then c.flags
    else if i = 33 then c.sp
    else c.regs i

def frameCtx (arch : Arch) (c : UserCtx) (w : Nat → U64) : UserCtx :=
  match arch with
  | .x86_64 => { c with sp := w 0, pc := w 1, flags := w 2 }
  | .arm64 => { pc := w 31, flags := w 32, sp := w 33, regs := w }

def frameResult (arch : Arch) (w : Nat → U64) : U64 :=
  match arch with
  | .x86_64 => w 3
  | .arm64 => w 0

def frameAddr (arch : Arch) (sp : U64) : U64 := (sp - BitVec.ofNat 64 (8 * arch.frameLen)) &&& ~~~0xF

def writeWords (mem : Nat → U64) (a n : Nat) (w : Nat → U64) : Nat → U64 :=
  fun b => if a ≤ b ∧ b < a + n then w (b - a) else mem b

def copyPage (mem : Nat → U64) (old new : Nat) : Nat → U64 :=
  fun b => if new / 8 ≤ b ∧ b < new / 8 + 512 then mem (old / 8 + (b - new / 8)) else mem b

namespace SigState
variable (s : SigState)

def wordAddr (a : U64) : Option Nat :=
  (s.pages (pageOf a.toNat)).map fun p => (p.phys + a.toNat % pageSize) / 8

/-- The words of the frame at a user address. All are read from behind the first one. -/
def readFrame (a : U64) : Option (Nat → U64) :=
  (s.wordAddr a).map fun n i => s.mem (n + i)

def sigBit (sig : Nat) : U32 := 1 <<< sig

/-- `process_deliver_signal`. What `SIGSTOP` and `SIGCONT` do to the thread is left out. -/
def processDeliverSignal (sig : Nat) : SigState :=
  if sig < 1 ∨ maxSignals ≤ sig then s
  else if sig = sigKill then { s with exited := true }
  else if sig = sigStop ∨ sig = sigCont then s
  else
    let s := { s with deliveries := update s.deliveries sig (s.deliveries sig + 1) }
    if s.pending.getLsbD sig then
      if s.queue.count < sigQueueSize then { s with queue := s.queue.push sig } else s
    else { s with pending := s.pending ||| sigBit sig }

/-- A pending signal is taken; it is pending again if there is a duplicate. -/
def takeSignal (sig : Nat) : SigState :=
  let pending := s.pending &&& ~~~sigBit sig
  match s.queue.find sig with
  | some qi => { s with pending := pending ||| sigBit sig, queue := s.queue.removeAt qi }
  | none => { s with pending }

/-- A page is made ready for a write of the kernel, unless it is not mapped or the copy finds no memory: `alloc` is what
    `pmm_alloc_page` gives. -/
def breakCow (alloc : Option Nat) (page : Nat) : Option SigState :=
  match s.pages page with
  | none => none
  | some p =>
    if !p.cow then some s
    else if !p.shared then some { s with pages := update s.pages page (some { phys := p.phys }) }
    else alloc.map fun new =>
      { s with
        mem := copyPage s.mem p.phys new
        pages := update s.pages page (some { phys := new }) }

/-- The frame is stored, and the return path sent to the handler. The frame is stored before the depth is
    looked at. -/
def enterFrame (sig : Nat) (call : Call) (result : U64) (frame : U64) (n : Nat) : SigState :=
  let s := { s with mem := writeWords s.mem n s.arch.frameLen (frameWords s.arch s.ctx result) }
  if s.frames.length < maxSignalDepth then
    { s with
      frames := frame :: s.frames
      restart := if result = BitVec.ofInt 64 (-EINTR) ∧ (s.handlers sig).restart then some call else none
      slot := some { handler := (s.handlers sig).handler, frame, sig } }
  else s

def pushFrame (alloc : Option Nat) (call : Call) (result : U64) (sig : Nat) : SigState :=
  let frame := frameAddr s.arch s.ctx.sp
  match s.breakCow alloc (pageOf frame.toNat) with
  | none => s
  | some s =>
    match s.wordAddr frame with
    | none => s
    | some n => s.enterFrame sig call result frame n

def deliverable (sig : Nat) : Bool := s.pending.getLsbD sig && !s.mask.getLsbD sig

/-- What a taken signal does, and whether the loop goes on with the next number. -/
def actOn (alloc : Option Nat) (call : Call) (result : U64) (sig : Nat) : SigState × Bool :=
  if (s.handlers sig).handler = sigIgn then (s, true)
  else if (s.handlers sig).handler = sigDfl then
    if sig = sigChld ∨ sig = sigCont then (s, true)
    else if sig = sigTstp ∨ sig = sigTtin ∨ sig = sigTtou then (s, false)
    else ({ s with exited := true }, false)
  else (s.pushFrame alloc call result sig, false)

def checkLoop (alloc : Option Nat) (call : Call) (result : U64) : List Nat → SigState → SigState
  | [], s => s
  | sig :: sigs, s =>
    if s.deliverable sig then
      let r := (s.takeSignal sig).actOn alloc call result sig
      if r.2 then checkLoop alloc call result sigs r.1 else r.1
    else checkLoop alloc call result sigs s

def signalCheck (alloc : Option Nat) (call : Call) (result : U64) : SigState :=
  checkLoop alloc call result (List.range' 1 (maxSignals - 1)) s

def handlerCtx (arch : Arch) (c : UserCtx) (result : U64) (d : Slot) : UserCtx :=
  { c with
    pc := d.handler, sp := d.frame
    regs := match arch with
      | .x86_64 => update (update c.regs 0 result) 1 (BitVec.ofNat 64 d.sig)
      | .arm64 => update c.regs 0 (BitVec.ofNat 64 d.sig) }

/-- The return to user mode: to the interrupted code with the result, or to a handler. -/
def returnToUser (result : U64) : SigState :=
  match s.slot with
  | none => { s with active := [], ctx := { s.ctx with regs := update s.ctx.regs 0 result } }
  | some d =>
    { s with
      active := [], slot := none, ctx := handlerCtx s.arch s.ctx result d
      invocations := update s.invocations d.sig (s.invocations d.sig + 1) }

/-- A dispatch ends: its result goes to the one that it was called from, or to user mode. -/
def finish (result : U64) : List Activation → SigState
  | [] => s.returnToUser result
  | a :: rest => { s with active := { a with result := some result } :: rest }

def answer (result : U64) : SigState :=
  { s with active := s.active.modifyHead fun a => { a with result := some result } }

def sysSigaction (c : Call) : SigState :=
  let signum := (c.arg 0).toNat
  let handler := c.arg 1
  if maxSignals ≤ signum ∨ signum = sigKill ∨ signum = sigStop then s.answer (-1)
  else if sigIgn < handler ∧ userAddrMax ≤ handler.toNat then s.answer (BitVec.ofInt 64 (-EFAULT))
  else
    { s with
      handlers := update s.handlers signum { handler, restart := (c.arg 2).getLsbD 0 } }.answer 0

def validUserPtr (ptr len : Nat) : Bool := ptr ≠ 0 && ptr < userAddrMax && len ≤ userAddrMax - ptr

def sysSigprocmask (c : Call) : SigState :=
  let how := (c.arg 0).toNat
  let safe := (c.arg 1).setWidth 32 &&& ~~~(sigBit sigKill ||| sigBit sigStop)
  let ptr := (c.arg 2).toNat
  if ptr ≠ 0 ∧ !validUserPtr ptr 4 then s.answer (BitVec.ofInt 64 (-EFAULT))
  else if how = 0 then { s with mask := s.mask ||| safe }.answer 0
  else if how = 1 then { s with mask := s.mask &&& ~~~safe }.answer 0
  else if how = 2 then { s with mask := safe }.answer 0
  else s.answer (-1)

/-- `sys_sigreturn`. A saved system call is dispatched from within. -/
def sysSigreturn : SigState :=
  match s.frames with
  | [] => s.answer (-1)
  | f :: fs =>
    let s := { s with frames := fs }
    if f = 0 then s.answer (-1)
    else
      match s.readFrame f with
      | none => s.answer (-1)
      | some w =>
        match s.restart with
        | some c =>
          let s := { s with restart := none, ctx := frameCtx s.arch s.ctx w }
          if c.num < sysNr then { s with active := { call := c } :: s.active } else s.answer (frameResult s.arch w)
        | none => { s with ctx := frameCtx s.arch s.ctx w }.answer (frameResult s.arch w)

/-- What a body other than `sys_sigreturn` answers, and what it leaves in memory. -/
structure Outcome where
  result : U64
  pages : Nat → Option UserPage
  mem : Nat → U64

/-- The body of a system call. The answer of the outcome is not used for the signal calls. -/
def body (c : Call) (o : Outcome) : SigState :=
  if c.num = s.arch.sysRtSigreturn then s.sysSigreturn
  else
    let s := { s with pages := o.pages, mem := o.mem }
    if c.num = s.arch.sysRtSigaction then s.sysSigaction c
    else if c.num = s.arch.sysRtSigprocmask then s.sysSigprocmask c
    else s.answer o.result

/-- The answer of `syscall_dispatch` to a call that it does not let through. -/
def refusal (c : Call) : U64 :=
  BitVec.ofInt 64 (if s.arch.hasHandler c.num then -EACCES else -ENOSYS)

end SigState

/-- What can happen next. `refuse` is a call that `syscall_dispatch` does not let through. A body that does not return
    is never taken. -/
inductive SigOp
  | deliver (sig : Nat)
  | user (ctx : UserCtx) (pages : Nat → Option UserPage) (mem : Nat → U64)
  | syscall (call : Call)
  | refuse
  | body (o : SigState.Outcome)
  | check (alloc : Option Nat)

namespace SigState

/-- One step. A step that does not fit the state changes nothing, nor does any after the process has ended. -/
def step (s : SigState) (op : SigOp) : SigState :=
  if s.exited then s
  else
    match op, s.active with
    | .deliver sig, _ => s.processDeliverSignal sig
    | .user ctx pages mem, [] => if ctx.userMode s.arch then { s with ctx, pages, mem } else s
    | .syscall call, [] => { s with active := [{ call }] }
    | .refuse, { call, result := none } :: rest =>
      if call.num = s.arch.sysRtSigreturn then s else s.finish (s.refusal call) rest
    | .body o, { call, result := none } :: _ => if s.arch.hasHandler call.num then s.body call o else s
    | .check alloc, { call, result := some result } :: rest =>
      let s := s.signalCheck alloc call result
      -- the default action of a signal can be `sys_exit`, which does not return
      if s.exited then s else s.finish result rest
    | _, _ => s

end SigState

end Signals

end Limnx
