import Limnx.CapToken

/-! # Task graphs (`ipc/taskgraph.c`)

All calls take `taskgraph_lock` once, except a `taskgraph_depend` across namespaces, which lets go of it to look for the
right to do so. `TaskTable` is the table with calls one at a time; `TaskSys` has their sections as steps, the tokens,
and the calls between two of their sections. -/

namespace Limnx

def maxTasks : Nat := 32
def maxTaskDeps : Nat := 4
def taskNameMax : Nat := 32

inductive TaskStatus
  | pending | running | done | failed
deriving DecidableEq

/-- `workflow_task_t`. The first `dep_count` entries of `deps` are the list, and a name is the string up to its
    terminator. -/
structure WorkflowTask where
  id : U32 := 0
  ownerPid : Nat := 0
  workerPid : Nat := 0
  name : CStr := []
  nsId : U32 := 0
  deps : List U32 := []
  status : TaskStatus := .pending
  result : U32 := 0
  used : Bool := false
deriving DecidableEq

/-- The owner, the worker and every process of the namespace can complete a task. -/
def WorkflowTask.completableBy (t : WorkflowTask) (pid : Nat) (ns : U32) : Bool :=
  t.ownerPid == pid || t.workerPid == pid || t.nsId == ns

structure TaskTable where
  tasks : Fin maxTasks → WorkflowTask := fun _ => {}
  nextTaskId : U32 := 1

namespace TaskTable
variable (s : TaskTable)

def set (i : Fin maxTasks) (t : WorkflowTask) : TaskTable := { s with tasks := Function.update s.tasks i t }

def findTask (id : U32) : Option (Fin maxTasks) :=
  (List.finRange maxTasks).find? fun i => (s.tasks i).used && (s.tasks i).id == id

def freeTask : Option (Fin maxTasks) := (List.finRange maxTasks).find? fun i => !(s.tasks i).used

/-- `taskgraph_create`. `name` is empty for a null pointer. -/
def taskgraphCreate (name : CStr) (nsId : U32) (ownerPid : Nat) : Int × TaskTable :=
  match s.freeTask with
  | some i =>
    (s.nextTaskId.toInt,
      { s.set i { used := true, id := s.nextTaskId, ownerPid, workerPid := 0, nsId, deps := [], status := .pending,
                  result := 0, name := name.take (taskNameMax - 1) } with
        nextTaskId := s.nextTaskId + 1 })
  | none => (-ENOMEM, s)

def dependFind (taskId depId : U32) (callerPid : Nat) : Except Int (Fin maxTasks × Fin maxTasks) :=
  match s.findTask taskId with
  | none => .error (-ENOENT)
  | some t =>
    if (s.tasks t).ownerPid ≠ callerPid then .error (-EPERM)
    else if (s.tasks t).status ≠ .pending then .error (-EINVAL)
    else
      match s.findTask depId with
      | none => .error (-ENOENT)
      | some dep => .ok (t, dep)

/-- The checks that the section after the search for a right makes again. -/
def dependRefind (taskId depId : U32) (callerPid : Nat) : Except Int (Fin maxTasks) :=
  match s.findTask taskId, s.findTask depId with
  | some t, some _ =>
    if (s.tasks t).ownerPid ≠ callerPid then .error (-EPERM)
    else if (s.tasks t).status ≠ .pending then .error (-EINVAL)
    else .ok t
  | _, _ => .error (-ENOENT)

/-- The checks before a dependency is recorded. The answer is whether it is new. -/
def dependNew (t : Fin maxTasks) (taskId depId : U32) : Except Int Bool :=
  if taskId = depId then .error (-EINVAL)
  else if maxTaskDeps ≤ (s.tasks t).deps.length then .error (-ENOMEM)
  else .ok (!(s.tasks t).deps.contains depId)

def addDep (t : Fin maxTasks) (depId : U32) : TaskTable :=
  s.set t { s.tasks t with deps := (s.tasks t).deps ++ [depId] }

def dependRecord (t : Fin maxTasks) (taskId depId : U32) : Int × TaskTable :=
  match s.dependNew t taskId depId with
  | .error e => (e, s)
  | .ok new => (0, if new then s.addDep t depId else s)

end TaskTable

/-- The name of a namespace as `taskgraph_depend` writes it, one digit or two. -/
def nsResource (ns : U32) : CStr :=
  let digit (n : Nat) : UInt8 := 0x30 + UInt8.ofNat n
  if ns.toNat < 10 then [0x6e, 0x73, 0x2f, digit ns.toNat]
  else [0x6e, 0x73, 0x2f, digit (ns.toNat / 10), digit (ns.toNat % 10)]

/-- The right to depend on tasks of another namespace: a capability of the caller, or a token. -/
def xnsGranted (tokens : List CapToken) (pid : Nat) (caps ns : U32) : Bool :=
  caps &&& capXnsTask ≠ 0 || capTokenCheck tokens pid capXnsTask (some (nsResource ns))

namespace TaskTable
variable (s : TaskTable)

/-- The slot of the task to which `taskgraph_depend` will add a dependency, if nothing comes in between. -/
def dependSlot (tokens : List CapToken) (taskId depId : U32) (callerPid : Nat)
    (callerCaps : U32) : Except Int (Fin maxTasks) :=
  match s.dependFind taskId depId callerPid with
  | .error e => .error e
  | .ok (t, dep) =>
    if (s.tasks dep).nsId ≠ (s.tasks t).nsId then
      if xnsGranted tokens callerPid callerCaps (s.tasks dep).nsId then s.dependRefind taskId depId callerPid
      else .error (-EPERM)
    else .ok t

def taskgraphDepend (tokens : List CapToken) (taskId depId : U32) (callerPid : Nat)
    (callerCaps : U32) : Int × TaskTable :=
  match s.dependSlot tokens taskId depId callerPid callerCaps with
  | .error e => (e, s)
  | .ok t => s.dependRecord t taskId depId

def depDone (depId : U32) : Bool :=
  match s.findTask depId with
  | some dep => (s.tasks dep).status = .done
  | none => false

def taskgraphStart (taskId : U32) (callerPid : Nat) : Int × TaskTable :=
  match s.findTask taskId with
  | none => (-ENOENT, s)
  | some t =>
    if (s.tasks t).status ≠ .pending then (-EINVAL, s)
    else if (s.tasks t).deps.all s.depDone then
      (0, s.set t { s.tasks t with status := .running, workerPid := callerPid })
    else (-EAGAIN, s)

def taskgraphComplete (taskId result : U32) (callerPid : Nat) (callerNsId : U32) : Int × TaskTable :=
  match s.findTask taskId with
  | none => (-ENOENT, s)
  | some t =>
    if !(s.tasks t).completableBy callerPid callerNsId then (-EPERM, s)
    else
      (0, s.set t { s.tasks t with status := if 0 ≤ result.toInt then .done else .failed, result })

def taskgraphCleanupPid (pid : Nat) : TaskTable :=
  { s with tasks := fun i =>
      if (s.tasks i).used && (s.tasks i).ownerPid == pid then { s.tasks i with used := false } else s.tasks i }

end TaskTable

/-- A call, with the tokens there are when a dependency is asked for. -/
inductive TaskCall
  | create (name : CStr) (nsId : U32) (ownerPid : Nat)
  | depend (taskId depId : U32) (callerPid : Nat) (callerCaps : U32) (tokens : List CapToken)
  | start (taskId : U32) (callerPid : Nat)
  | complete (taskId result : U32) (callerPid : Nat) (callerNsId : U32)
  | cleanup (pid : Nat)
deriving DecidableEq

def TaskTable.step (s : TaskTable) : TaskCall → TaskTable
  | .create name nsId ownerPid => (s.taskgraphCreate name nsId ownerPid).2
  | .depend taskId depId callerPid callerCaps tokens => (s.taskgraphDepend tokens taskId depId callerPid callerCaps).2
  | .start taskId callerPid => (s.taskgraphStart taskId callerPid).2
  | .complete taskId result callerPid callerNsId => (s.taskgraphComplete taskId result callerPid callerNsId).2
  | .cleanup pid => s.taskgraphCleanupPid pid

/-- A `taskgraph_depend` across namespaces that has let go of the lock. -/
structure DependCall where
  taskId : U32
  depId : U32
  callerPid : Nat
  callerCaps : U32
  depNs : U32
  granted : Bool := false
deriving DecidableEq

structure TaskSys where
  table : TaskTable := {}
  tokens : TokenSys := {}
  calls : List DependCall := []

/-- The sections that can run; a number stands for the call in progress that goes on. -/
inductive TaskOp
  | create (name : CStr) (nsId : U32) (ownerPid : Nat)
  | depend (taskId depId : U32) (callerPid : Nat) (callerCaps : U32)
  | dependCheck (i : Nat)
  | dependAgain (i : Nat)
  | start (taskId : U32) (callerPid : Nat)
  | complete (taskId result : U32) (callerPid : Nat) (callerNsId : U32)
  | cleanup (pid : Nat)
  | token (op : TokenOp)
deriving DecidableEq

namespace TaskSys
variable (s : TaskSys)

def depend (taskId depId : U32) (callerPid : Nat) (callerCaps : U32) : TaskSys :=
  match s.table.dependFind taskId depId callerPid with
  | .error _ => s
  | .ok (t, dep) =>
    if (s.table.tasks dep).nsId ≠ (s.table.tasks t).nsId then
      { s with calls := { taskId, depId, callerPid, callerCaps, depNs := (s.table.tasks dep).nsId } :: s.calls }
    else { s with table := (s.table.dependRecord t taskId depId).2 }

def dependCheck (i : Nat) : TaskSys :=
  match s.calls[i]? with
  | none => s
  | some d =>
    if d.granted then s
    else if xnsGranted s.tokens.tokens d.callerPid d.callerCaps d.depNs then
      { s with calls := s.calls.set i { d with granted := true } }
    else { s with calls := s.calls.eraseIdx i }

def dependAgain (i : Nat) : TaskSys :=
  match s.calls[i]? with
  | none => s
  | some d =>
    if d.granted then
      match s.table.dependRefind d.taskId d.depId d.callerPid with
      | .error _ => { s with calls := s.calls.eraseIdx i }
      | .ok t => { s with table := (s.table.dependRecord t d.taskId d.depId).2, calls := s.calls.eraseIdx i }
    else s

def step : TaskOp → TaskSys
  | .create name nsId ownerPid => { s with table := (s.table.taskgraphCreate name nsId ownerPid).2 }
  | .depend taskId depId callerPid callerCaps => s.depend taskId depId callerPid callerCaps
  | .dependCheck i => s.dependCheck i
  | .dependAgain i => s.dependAgain i
  | .start taskId callerPid => { s with table := (s.table.taskgraphStart taskId callerPid).2 }
  | .complete taskId result callerPid callerNsId =>
    { s with table := (s.table.taskgraphComplete taskId result callerPid callerNsId).2 }
  | .cleanup pid => { s with table := s.table.taskgraphCleanupPid pid }
  | .token op => { s with tokens := s.tokens.step op }

end TaskSys

end Limnx
