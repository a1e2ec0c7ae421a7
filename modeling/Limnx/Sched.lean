import Mathlib.Data.Fin.Basic

/-! # The SMP scheduler (`sched/sched.c`, `sched/thread.c`, `proc/process.c`, `sync/futex.c`)

`n` CPUs run threads. The steps are the critical sections under a run-queue lock with the context switch at their end,
and the stores to a thread's state without such a lock. Run queues are lists, head first. Threads are numbered, and no
number is used again. -/

namespace Limnx
open Function

inductive ThreadState
  | ready | running | blocked | stopped | dead
deriving DecidableEq

/-- Where a CPU stands in `schedule_smp`: outside, at a victim of the stealing loop (its own lock released), or before
    it takes its own lock again, with what it stole. -/
inductive SchedPhase
  | running
  | stealing (i : Nat)
  | holding (next : Option Nat)
deriving DecidableEq

/-- The signals of `process_deliver_signal` that touch the main thread at once. -/
inductive JobSignal
  | kill | stop | cont
deriving DecidableEq

def JobSignal.stores : JobSignal → ThreadState
  | .kill => .dead
  | .stop => .stopped
  | .cont => .ready

/-- Where a delivery stands: the test of the state, the removal from the run queue of CPU `i`, the store, for `SIGKILL`
    the test for a waiter and its wake-up, and for `SIGCONT` the `sched_add`. -/
inductive DeliveryPoint
  | test
  | remove (i : Nat)
  | store (found : Bool)
  | waiter
  | wake (t : Nat)
  | add
deriving DecidableEq

structure Delivery where
  sig : JobSignal
  pid : Nat
  thread : Nat
  point : DeliveryPoint := .test
deriving DecidableEq

/-- The threads, those that their creator has still to add, the run queues, what each CPU does, the fields of processes
    that the scheduler uses, the dead list and what was freed from it, and the deliveries under way. -/
structure Sched (n : Nat) where
  threads : List Nat := []
  created : Nat → Bool := fun _ => false
  state : Nat → ThreadState := fun _ => .ready
  queue : Fin n → List Nat := fun _ => []
  current : Fin n → Nat
  idle : Fin n → Nat
  started : Fin n → Bool := fun _ => true
  phase : Fin n → SchedPhase := fun _ => .running
  process : Nat → Option Nat := fun _ => none
  mainThread : Nat → Option Nat := fun _ => none
  waitThread : Nat → Option Nat := fun _ => none
  exited : Nat → Bool := fun _ => false
  dead : List Nat := []
  freed : List Nat := []
  deliveries : Nat → Option Delivery := fun _ => none

namespace Sched
variable {n : Nat} (s : Sched n)

def setState (t : Nat) (x : ThreadState) : Sched n := { s with state := update s.state t x }

def setQueue (c : Fin n) (l : List Nat) : Sched n := { s with queue := update s.queue c l }

def setPhase (c : Fin n) (p : SchedPhase) : Sched n := { s with phase := update s.phase c p }

def localEnqueue (c : Fin n) (t : Nat) : Sched n := s.setQueue c (s.queue c ++ [t])

def localDequeue (c : Fin n) : Option Nat × Sched n :=
  match s.queue c with
  | [] => (none, s)
  | t :: l => (some t, s.setQueue c l)

def stealFromTail (v : Fin n) : Option Nat × Sched n :=
  match (s.queue v).getLast? with
  | none => (none, s)
  | some t => (some t, s.setQueue v (s.queue v).dropLast)

def localRemove (c : Fin n) (t : Nat) : Bool × Sched n :=
  (decide (t ∈ s.queue c), s.setQueue c ((s.queue c).erase t))

/-- The critical section of `sched_wake`, which is also the inline wake-up of `schedule_smp`. -/
def wakeOn (c : Fin n) (t : Nat) : Sched n :=
  if s.state t = .blocked then (s.setState t .ready).localEnqueue c t else s

def linkDead (t : Nat) : Sched n := { s with dead := t :: s.dead }

def reapDead : Sched n := { s with dead := [], freed := s.freed ++ s.dead }

/-- The process of thread `t` is marked as exited and left, for `schedule_smp` and `sys_exit`. -/
def leaveProcess (t p : Nat) : Sched n :=
  { s with
    waitThread := update s.waitThread p none
    exited := update s.exited p true
    process := update s.process t none }

/-- What `schedule_smp` does with a dead thread: it wakes the waiter of its process and links the thread
    onto the dead list. -/
def bury (c : Fin n) (t : Nat) : Sched n :=
  match s.process t with
  | none => s.linkDead t
  | some p =>
    match s.waitThread p with
    | none => (s.leaveProcess t p).linkDead t
    | some w => ((s.leaveProcess t p).wakeOn c w).linkDead t

def putBack (c : Fin n) : Sched n :=
  if s.state (s.current c) = .running then
    if s.current c = s.idle c then s.setState (s.current c) .ready
    else (s.setState (s.current c) .ready).localEnqueue c (s.current c)
  else s

def switchTo (c : Fin n) (next : Nat) : Sched n :=
  { s.setState next .running with
    current := update s.current c next
    phase := update s.phase c .running }

def buryCurrent (c : Fin n) : Sched n :=
  if s.state (s.current c) = .dead ∧ s.current c ≠ s.idle c then s.bury c (s.current c) else s

/-- `schedule_smp` once a thread to run is found. A dead one is buried, and then the next in the own queue
    is taken as it is. -/
def runNext (c : Fin n) (next : Nat) : Sched n :=
  let s := (s.putBack c).buryCurrent c
  if s.state next = .dead ∧ next ≠ s.idle c then
    match (s.bury c next).localDequeue c with
    | (some t, s) => s.switchTo c t
    | (none, s) => s.switchTo c (s.idle c)
  else s.switchTo c next

def schedule (c : Fin n) : Sched n :=
  match s.reapDead.localDequeue c with
  | (some t, s) => s.runNext c t
  | (none, s) => s.setPhase c (.stealing 0)

def steal (c : Fin n) (i : Nat) : Sched n :=
  if h : i < n then
    if ⟨i, h⟩ = c ∨ s.started ⟨i, h⟩ = false then s.setPhase c (.stealing (i + 1))
    else
      match s.stealFromTail ⟨i, h⟩ with
      | (some t, s) => s.setPhase c (.holding (some t))
      | (none, s) => s.setPhase c (.stealing (i + 1))
  else s.setPhase c (.holding none)

/-- The second critical section of `schedule_smp`. With nothing to run the idle thread runs, but a thread that is not
    dead goes on. -/
def finish (c : Fin n) : Option Nat → Sched n
  | some t => s.runNext c t
  | none =>
    match s.localDequeue c with
    | (some t, s) => s.runNext c t
    | (none, s) =>
      if s.current c = s.idle c ∨ s.state (s.current c) = .dead then s.runNext c (s.idle c)
      else s.setPhase c .running

def setDelivery (a : Nat) (d : Option Delivery) : Sched n :=
  { s with deliveries := update s.deliveries a d }

def deliver (c : Fin n) (a : Nat) (d : Delivery) : Sched n :=
  match d.point with
  | .test =>
    match d.sig with
    | .cont =>
      s.setDelivery a (if s.state d.thread = .stopped then some { d with point := .store false } else none)
    | _ =>
      s.setDelivery a (some { d with point := if s.state d.thread = .ready then .remove 0 else .store false })
  | .remove i =>
    if h : i < n then
      match s.localRemove ⟨i, h⟩ d.thread with
      | (true, s) => s.setDelivery a (some { d with point := .store true })
      | (false, s) => s.setDelivery a (some { d with point := .remove (i + 1) })
    else s.setDelivery a (some { d with point := .store false })
  | .store found =>
    let s := s.setState d.thread d.sig.stores
    match d.sig with
    | .kill =>
      let s := if found then { s with exited := update s.exited d.pid true } else s
      s.setDelivery a (some { d with point := .waiter })
    | .stop => s.setDelivery a none
    | .cont => s.setDelivery a (some { d with point := .add })
  | .waiter =>
    match s.exited d.pid, s.waitThread d.pid with
    | true, some w =>
      { s with waitThread := update s.waitThread d.pid none }.setDelivery a (some { d with point := .wake w })
    | _, _ => s.setDelivery a none
  | .wake t => (s.wakeOn c t).setDelivery a none
  | .add => (s.localEnqueue c d.thread).setDelivery a none

end Sched

inductive SchedOp (n : Nat)
  /-- `thread_create`, and for a new process `process_register`: from then on it can be signalled. -/
  | create (t : Nat) (p : Option Nat)
  /-- The `sched_add` of a new thread by its creator. -/
  | add (c : Fin n) (t : Nat)
  /-- `schedule_smp` begins on `c`: by a call of the current thread or by the timer. -/
  | schedule (c : Fin n)
  | steal (c : Fin n)
  /-- `schedule_smp` ends on `c` after stealing. -/
  | finish (c : Fin n)
  /-- The store of `THREAD_BLOCKED` in `sched_block`, `futex_wait` and `mutex_lock`. -/
  | block (c : Fin n)
  /-- The store of `THREAD_STOPPED` by the current thread for `SIGTSTP`, `SIGTTIN` and `SIGTTOU`. -/
  | stopSelf (c : Fin n)
  /-- The store of `THREAD_DEAD` in `thread_exit`. -/
  | exit (c : Fin n)
  /-- `sys_exit` marks its process as exited. -/
  | leave (c : Fin n)
  /-- The current thread of `c` becomes the waiter of process `p`, in `sys_waitpid` and `process_reap`. -/
  | wait (c : Fin n) (p : Nat)
  | unwait (p : Nat)
  /-- `sched_wake`, by `futex_wake`, `mutex_unlock`, `sys_exit` or any other caller on `c`. -/
  | wake (c : Fin n) (t : Nat)
  /-- A call of `process_deliver_signal` begins. -/
  | signal (a p : Nat) (sig : JobSignal)
  | deliver (c : Fin n) (a : Nat)

namespace Sched
variable {n : Nat}

/-- The current thread of a CPU executes code of its own: the CPU is not in `schedule_smp`, and it does not
    idle. -/
def executes (s : Sched n) (c : Fin n) : Bool := s.phase c = .running && s.current c ≠ s.idle c

def step (s : Sched n) : SchedOp n → Sched n
  | .create t p =>
    if t ∉ s.threads ∧ ∀ p' ∈ p, s.mainThread p' = none then
      { s.setState t .ready with
        threads := t :: s.threads
        created := update s.created t true
        process := update s.process t p
        mainThread := fun q => if p = some q then some t else s.mainThread q }
    else s
  | .add c t => if s.created t then { s with created := update s.created t false }.localEnqueue c t else s
  | .schedule c => if s.phase c = .running then s.schedule c else s
  | .steal c =>
    match s.phase c with
    | .stealing i => s.steal c i
    | _ => s
  | .finish c =>
    match s.phase c with
    | .holding next => s.finish c next
    | _ => s
  | .block c => if s.executes c then s.setState (s.current c) .blocked else s
  | .stopSelf c => if s.executes c then s.setState (s.current c) .stopped else s
  | .exit c => if s.executes c then s.setState (s.current c) .dead else s
  | .leave c =>
    match s.process (s.current c) with
    | some p => if s.executes c then s.leaveProcess (s.current c) p else s
    | none => s
  | .wait c p => if s.executes c then { s with waitThread := update s.waitThread p (s.current c) } else s
  | .unwait p => { s with waitThread := update s.waitThread p none }
  | .wake c t => s.wakeOn c t
  | .signal a p sig =>
    match s.deliveries a, s.mainThread p with
    | none, some t => s.setDelivery a (some { sig, pid := p, thread := t })
    | _, _ => s
  | .deliver c a =>
    match s.deliveries a with
    | some d => s.deliver c a d
    | none => s

end Sched

end Limnx
