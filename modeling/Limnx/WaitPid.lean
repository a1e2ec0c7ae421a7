import Limnx.Process

/-! # Waiting for a child and the end of an exit (`syscall/sys_proc.c`, `proc/process.c`)

Every test, store and block of `sys_waitpid` is a step of its own, and so is every step of the final part of
`process_terminate`. A process has one thread, and its number is never given out twice. -/

namespace Limnx

def WNOHANG : U64 := 1

/-- `process_t`. `frees` counts the calls of `kfree`; no step reads it. -/
structure ChildProc where
  parentPid : Nat := 0
  exitStatus : U64 := 0
  exited : Bool := false
  waitThread : Option Nat := none
  frees : Nat := 0
deriving DecidableEq

/-- The arguments of `sys_waitpid`. `stores` says that `status_ptr` is not 0 and passes `validate_user_ptr`. -/
structure WaitCall where
  pidArg : U64
  stores : Bool := false
  options : U64 := 0
deriving DecidableEq

/-- What the thread of a process does next. `c` is the child pointer of `sys_waitpid`, `q` the thread that the exit
    has taken from `wait_thread`. -/
inductive WaitPc
  | unborn
  | user
  | lookup (a : WaitCall)
  | findExited (a : WaitCall)
  | findAny (a : WaitCall)
  | noHang (a : WaitCall) (c : Nat)
  | loop (a : WaitCall) (c : Nat)
  | pendingBefore (a : WaitCall) (c : Nat)
  | enlist (a : WaitCall) (c : Nat)
  | recheck (a : WaitCall) (c : Nat)
  | delist (a : WaitCall) (c : Nat)
  | block (a : WaitCall) (c : Nat)
  | awake (a : WaitCall) (c : Nat)
  | pendingAfter (a : WaitCall) (c : Nat)
  | readStatus (a : WaitCall) (c : Nat)
  | store (a : WaitCall) (c : Nat) (status : U64)
  | unregister (c : Nat)
  | free (c : Nat)
  | reparent
  | takeWaiter
  | clearWaiter (q : Option Nat)
  | markExited (q : Option Nat)
  | leave (q : Option Nat)
  | wake (q : Option Nat)
  | gone
deriving DecidableEq

/-- What is seen of a step: the structures it reads or writes, the one it frees, the status it stores and for which
    child, and the value returned. -/
structure WaitOut where
  touches : List Nat := []
  frees : Option Nat := none
  stores : Option (Nat × U32) := none
  returns : Option Int := none

/-- `proc_table`, the structures, and where each thread is. `blocked` is `THREAD_BLOCKED`. -/
structure WaitWorld where
  procTable : List (Option Nat) := List.replicate maxProcs none
  nextPid : Nat := 1
  procs : Nat → ChildProc := fun _ => {}
  pcs : Nat → WaitPc := fun _ => .unborn
  blocked : Nat → Bool := fun _ => false

/-- `(int)((exit_code & 0xFF) << 8)`. -/
def linuxStatus (exitCode : U64) : U32 := ((exitCode &&& 0xFF) <<< 8).setWidth 32

namespace WaitWorld
variable (w : WaitWorld)

def registered : List Nat := w.procTable.filterMap id

def processLookup (pid : Nat) : Option Nat := w.registered.find? (· == pid)

def processFindChild (parentPid : Nat) (exitedOnly : Bool) : Option Nat :=
  let children := w.registered.filter fun c => (w.procs c).parentPid == parentPid
  (children.find? fun c => (w.procs c).exited).or (if exitedOnly then none else children.head?)

def processUnregister (pid : Nat) : WaitWorld :=
  { w with procTable := w.procTable.replace (some pid) none }

def processReparentChildren (dyingPid newParent : Nat) : WaitWorld :=
  { w with procs := fun c =>
      if c ∈ w.registered ∧ (w.procs c).parentPid = dyingPid then { w.procs c with parentPid := newParent }
      else w.procs c }

def goto (p : Nat) (pc : WaitPc) : WaitWorld := { w with pcs := Function.update w.pcs p pc }

def modify (c : Nat) (f : ChildProc → ChildProc) : WaitWorld :=
  { w with procs := Function.update w.procs c (f (w.procs c)) }

def setBlocked (p : Nat) (b : Bool) : WaitWorld := { w with blocked := Function.update w.blocked p b }

/-- A new process with parent `p` takes the first free slot of `proc_table`. Its number is used up even if there is
    none. -/
def create (p : Nat) : WaitWorld :=
  let c := w.nextPid
  let w := { w with nextPid := c + 1 }
  if none ∈ w.procTable then
    { w.modify c fun _ => { parentPid := p } with procTable := w.procTable.replace none (some c) }.goto c .user
  else w

/-- The next step of process `p` in `sys_waitpid` or in the exit. `pending`: a signal interrupts the wait. -/
def turn (p : Nat) (pending : Bool) : WaitOut × WaitWorld :=
  match w.pcs p with
  | .unborn | .user | .gone => ({}, w)
  | .lookup a =>
    match w.processLookup a.pidArg.toNat with
    | none => ({ touches := w.registered, returns := some (-ECHILD) }, w.goto p .user)
    | some c => ({ touches := w.registered }, w.goto p (.noHang a c))
  | .findExited a =>
    match w.processFindChild p true with
    | none => ({ touches := p :: w.registered }, w.goto p (.findAny a))
    | some c => ({ touches := p :: w.registered }, w.goto p (.noHang a c))
  | .findAny a =>
    match w.processFindChild p false with
    | none => ({ touches := p :: w.registered, returns := some (-ECHILD) }, w.goto p .user)
    | some c => ({ touches := p :: w.registered }, w.goto p (.noHang a c))
  | .noHang a c =>
    if a.options &&& WNOHANG ≠ 0 ∧ !(w.procs c).exited then ({ touches := [c], returns := some 0 }, w.goto p .user)
    else ({ touches := [c] }, w.goto p (.loop a c))
  | .loop a c =>
    ({ touches := [c] }, w.goto p (if (w.procs c).exited then .readStatus a c else .pendingBefore a c))
  | .pendingBefore a c =>
    if pending then ({ touches := [p], returns := some (-EINTR) }, w.goto p .user)
    else ({ touches := [p] }, w.goto p (.enlist a c))
  | .enlist a c =>
    ({ touches := [c] }, (w.modify c fun x => { x with waitThread := some p }).goto p (.recheck a c))
  | .recheck a c => ({ touches := [c] }, w.goto p (if (w.procs c).exited then .delist a c else .block a c))
  | .delist a c => ({ touches := [c] }, (w.modify c fun x => { x with waitThread := none }).goto p (.readStatus a c))
  | .block a c => ({}, (w.setBlocked p true).goto p (.awake a c))
  | .awake a c => ({ touches := [c] }, (w.modify c fun x => { x with waitThread := none }).goto p (.pendingAfter a c))
  | .pendingAfter a c =>
    if pending then ({ touches := [p], returns := some (-EINTR) }, w.goto p .user)
    else ({ touches := [p] }, w.goto p (.loop a c))
  | .readStatus a c => ({ touches := [c] }, w.goto p (.store a c (w.procs c).exitStatus))
  | .store a c status =>
    ({ stores := if a.stores then some (c, linuxStatus status) else none }, w.goto p (.unregister c))
  | .unregister c => ({ touches := w.registered }, (w.processUnregister c).goto p (.free c))
  | .free c =>
    ({ touches := [c], frees := some c, returns := some c },
      (w.modify c fun x => { x with frees := x.frees + 1 }).goto p .user)
  | .reparent => ({ touches := p :: w.registered }, (w.processReparentChildren p 1).goto p .takeWaiter)
  | .takeWaiter => ({ touches := [p] }, w.goto p (.clearWaiter (w.procs p).waitThread))
  | .clearWaiter q => ({ touches := [p] }, (w.modify p fun x => { x with waitThread := none }).goto p (.markExited q))
  | .markExited q => ({ touches := [p] }, (w.modify p fun x => { x with exited := true }).goto p (.leave q))
  | .leave q => ({}, w.goto p (.wake q))
  | .wake q =>
    match q with
    | some q => ({}, (w.setBlocked q false).goto p .gone)
    | none => ({}, w.goto p .gone)

end WaitWorld

/-- A step. Process 0 stands for the kernel, which creates the first processes. -/
inductive WaitStep
  | create (p : Nat)
  | waitpid (p : Nat) (a : WaitCall)
  | exit (p : Nat) (status : U64)
  | turn (p : Nat) (pending : Bool)
deriving DecidableEq

/-- The thread can begin to exit: it runs in user mode, or the store of the status faults. -/
def WaitPc.canExit : WaitPc → Bool
  | .user | .store .. => true
  | _ => false

namespace WaitWorld

/-- One step. A step that a process cannot take changes nothing. -/
def react (w : WaitWorld) : WaitStep → WaitOut × WaitWorld
  | .create p => if p = 0 then ({}, w.create 0) else if w.pcs p = .user then ({ touches := [p] }, w.create p) else ({}, w)
  | .waitpid p a =>
    if w.pcs p = .user then ({}, w.goto p (if 0 < a.pidArg.toInt then .lookup a else .findExited a)) else ({}, w)
  | .exit p status =>
    if (w.pcs p).canExit then
      ({ touches := [p] }, (w.modify p fun x => { x with exitStatus := status }).goto p .reparent)
    else ({}, w)
  | .turn p pending => if w.blocked p then ({}, w) else w.turn p pending

def step (w : WaitWorld) (op : WaitStep) : WaitWorld := (w.react op).2

end WaitWorld

end Limnx
