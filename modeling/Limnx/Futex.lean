import Limnx.Errno

/-! # Futexes (`sync/futex.c`)

Each section under `futex_lock` is one step, and so is a store by user code. A word is named by its physical address, 0
for none. A thread waits as long as it is in the table; what `sched_wake` does to it is in `Limnx.Sched`. What a waiter
expected, and whether the word is `still` as it was when a call began, is history. -/

namespace Limnx
open Function

def futexMaxWaiters : Nat := 64

structure FutexWaiter where
  thread : Nat
  physAddr : Nat
  expected : U32

/-- A `futex_wake` in progress. -/
structure FutexWake where
  physAddr : Nat
  maxWake : Nat
  i : Nat := 0
  woken : Nat := 0
  still : Bool := true

structure FutexSys where
  waiters : Nat → Option FutexWaiter := fun _ => none
  word : Nat → U32
  calls : Nat → Option FutexWake := fun _ => none

inductive FutexOp
  | store (p : Nat) (v : U32)
  | wait (t p : Nat) (expected : U32)
  | wake (t p maxWake : Nat)
  | turn (t : Nat)

namespace FutexSys
variable (s : FutexSys)

def setWaiter (i : Nat) (w : Option FutexWaiter) : FutexSys := { s with waiters := update s.waiters i w }

def setCall (t : Nat) (c : Option FutexWake) : FutexSys := { s with calls := update s.calls t c }

def futexWait (t p : Nat) (expected : U32) : Option Int × FutexSys :=
  if p = 0 then (some (-EFAULT), s)
  else if s.word p ≠ expected then (some (-EAGAIN), s)
  else
    match (List.range futexMaxWaiters).find? fun i => (s.waiters i).isNone with
    | none => (some (-ENOMEM), s)
    | some i => (none, s.setWaiter i (some ⟨t, p, expected⟩))

def nextWaiter (c : FutexWake) : Option Nat :=
  if c.woken < c.maxWake then
    (List.range' c.i (futexMaxWaiters - c.i)).find? fun j => (s.waiters j).any (·.physAddr = c.physAddr)
  else none

/-- The next section of a `futex_wake` by thread `t`. -/
def futexWake (t : Nat) (c : FutexWake) : Option Int × FutexSys :=
  match s.nextWaiter c with
  | some j => (none, (s.setWaiter j none).setCall t (some { c with i := j + 1, woken := c.woken + 1 }))
  | none => (some c.woken, s.setCall t none)

/-- One step and what its call returns. -/
def react : FutexOp → Option Int × FutexSys
  | .store p v =>
    (none, { s with
      word := update s.word p v
      calls := fun t => (s.calls t).map fun c => { c with still := c.still && (c.physAddr ≠ p || v = s.word p) } })
  | .wait t p expected => s.futexWait t p expected
  | .wake t p maxWake =>
    if p = 0 then (some (-EFAULT), s)
    else if (s.calls t).isSome then (none, s)
    else (none, s.setCall t (some { physAddr := p, maxWake }))
  | .turn t =>
    match s.calls t with
    | none => (none, s)
    | some c => s.futexWake t c

def step (op : FutexOp) : FutexSys := (s.react op).2

end FutexSys
end Limnx
