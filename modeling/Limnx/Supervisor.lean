import Limnx.Process

/-! # Supervisors (`ipc/supervisor.c`, `syscall/sys_misc.c`)

A child spec has the path of a program and the namespace and capability word of its process. `supervisor_start` makes a
process for each spec that has none, and `supervisor_on_exit` new ones when a child ends with a nonzero status. The
clock, the loader and the scheduler are inputs (`Env`). -/

namespace Limnx

def maxSupervisors : Nat := 8
def maxSuperChildren : Nat := 8
def superNameMax : Nat := 32
def elfPathMax : Nat := 64
def superMaxRestarts : U32 := 5
def superRestartWindow : U64 := 50

inductive SuperPolicy
  | oneForOne | oneForAll
deriving DecidableEq

structure SuperChild where
  pid : Nat := 0
  elfPath : List UInt8 := List.replicate elfPathMax 0
  nsId : U64 := 0
  caps : U64 := 0
  used : Bool := false
deriving DecidableEq

structure Supervisor where
  ownerPid : Nat := 0
  used : Bool := false
  policy : SuperPolicy := .oneForOne
  childCount : BitVec 8 := 0
  name : List UInt8 := List.replicate superNameMax 0
  children : List SuperChild := List.replicate maxSuperChildren {}
  restartWindowStart : U64 := 0
  restartCount : U32 := 0
deriving DecidableEq

structure Kernel where
  procs : ProcTable := {}
  supervisors : List Supervisor := List.replicate maxSupervisors {}
deriving DecidableEq

/-- What the rest of the system answers during a call: the timer, what goes wrong when a path is loaded, and whether the
    main thread of a process is in a run queue. -/
structure Env where
  now : U64
  loads : CStr → Option Fault
  ready : Nat → Bool

def cString (buf : List UInt8) : CStr := buf.takeWhile (· != 0)

/-- Copies a string into an array of `max` bytes and ends the array, not the string, with a zero: the end of a longer
    old string stays. -/
def copyOver (max : Nat) (src buf : List UInt8) : List UInt8 :=
  let src := (cString src).take (max - 1)
  (src ++ buf.drop src.length).set (max - 1) 0

variable (k : Kernel)

def supervisorCreate (ownerPid : Nat) (name : CStr) : Int × Kernel :=
  match k.supervisors.findIdx? (!·.used) with
  | none => (-1, k)
  | some i =>
    (i, { k with supervisors := k.supervisors.modify i fun sv =>
      { ownerPid := ownerPid, used := true, policy := .oneForOne, childCount := 0,
        name := copyOver superNameMax name sv.name,
        children := sv.children.map fun ch => { ch with used := false },
        restartWindowStart := 0, restartCount := 0 } })

def Kernel.supervisor? (superId : Nat) : Option Supervisor :=
  (k.supervisors[superId]?).filter (·.used)

def supervisorAddChild (superId : Nat) (elfPath : CStr) (nsId caps : U64) : Int × Kernel :=
  match k.supervisor? superId with
  | none => (-1, k)
  | some sv =>
    match sv.children.findIdx? (!·.used) with
    | none => (-1, k)
    | some i =>
      let sv := { sv with
        children := sv.children.modify i fun ch =>
          { used := true, nsId := nsId, caps := caps, pid := 0, elfPath := copyOver elfPathMax elfPath ch.elfPath }
        childCount := sv.childCount + 1 }
      (i, { k with supervisors := k.supervisors.set superId sv })

def supervisorSetPolicy (superId : Nat) (policy : BitVec 8) : Int × Kernel :=
  match k.supervisor? superId with
  | none => (-1, k)
  | some sv =>
    if policy > 1 then (-1, k)
    else
      let sv := { sv with policy := if policy = 0 then .oneForOne else .oneForAll }
      (0, { k with supervisors := k.supervisors.set superId sv })

/-- `supervisor_load_elf`: the new process belongs to whoever is running. -/
def supervisorLoadElf (t : ProcTable) (caller : Process) (env : Env) (path : CStr) : Option Process × ProcTable :=
  match env.loads path with
  | some .stat | some .buffer | some .read => (none, t)
  | fault => processCreateFromElf t (some caller) fault

/-- Starts the process of one child spec and then gives it the spec's capabilities and namespace. -/
def supervisorRestartChild (caller : Process) (env : Env) (superId : Nat) (k : Kernel) (childIdx : Nat) : Kernel :=
  match k.supervisors[superId]? with
  | none => k
  | some sv =>
    match sv.children[childIdx]? with
    | none => k
    | some ch =>
      if !ch.used then k
      else
        match supervisorLoadElf k.procs caller env (cString ch.elfPath) with
        | (none, t) => { k with procs := t }
        | (some proc, t) =>
          let t := t.modify proc.pid fun p =>
            { p with parentPid := sv.ownerPid, capabilities := ch.caps.setWidth 32, daemon := true,
                     nsId := ch.nsId.setWidth 32 }
          let sv := { sv with children := sv.children.modify childIdx fun ch => { ch with pid := proc.pid } }
          { procs := t, supervisors := k.supervisors.set superId sv }

def supervisorStart (caller : Process) (env : Env) (superId : Nat) : Int × Kernel :=
  match k.supervisor? superId with
  | none => (-1, k)
  | some sv =>
    let toStart := (List.range maxSuperChildren).filter fun i =>
      (sv.children[i]?).any fun ch => ch.used && ch.pid == 0
    (toStart.length, toStart.foldl (supervisorRestartChild caller env superId) k)

/-- `process_deliver_signal(p, SIGKILL)` to a process that has not exited. -/
def deliverKill (env : Env) (t : ProcTable) (pid : Nat) : ProcTable :=
  match processLookup t pid with
  | none => t
  | some p => if !p.exited && env.ready pid then t.modify p.pid fun p => { p with exited := true } else t

def supervisorStop (env : Env) (superId callerPid : Nat) : Int × Kernel :=
  match k.supervisor? superId with
  | none => (-EINVAL, k)
  | some sv =>
    if sv.ownerPid ≠ callerPid then (-EACCES, k)
    else
      let killPids := (sv.children.filter fun ch => ch.used && ch.pid != 0).map (·.pid)
      let sv := { sv with
        used := false
        children := sv.children.map fun ch => { ch with used := false, pid := 0 }
        childCount := 0 }
      (0, { procs := killPids.foldl (deliverKill env) k.procs, supervisors := k.supervisors.set superId sv })

structure SuperInfo where
  id : Nat
  policy : SuperPolicy
  childCount : BitVec 8
  ownerPid : Nat
  restartCount : U32
  name : List UInt8
  childPids : List Nat

def supervisorList (maxCount : Nat) : List SuperInfo :=
  ((k.supervisors.zipIdx.filter fun x => x.1.used).take maxCount).map fun (sv, i) =>
    { id := i, policy := sv.policy, childCount := sv.childCount, ownerPid := sv.ownerPid,
      restartCount := sv.restartCount, name := sv.name,
      childPids := sv.children.map fun ch => if ch.used then ch.pid else 0 }

def countRestart (sv : Supervisor) (now : U64) : Supervisor :=
  let sv := if now - sv.restartWindowStart > superRestartWindow then
      { sv with restartCount := 0, restartWindowStart := now }
    else sv
  { sv with restartCount := sv.restartCount + 1 }

def SuperChild.isPid (pid : Nat) (ch : SuperChild) : Bool := ch.used && ch.pid == pid

def supervisorOnExit (caller : Process) (env : Env) (pid : Nat) (exitStatus : U32) : Kernel :=
  if exitStatus = 0 then k
  else
    -- the first supervisor in use with a child of this number acts, and only for its first such child
    match k.supervisors.findIdx? fun sv => sv.used && sv.children.any (·.isPid pid) with
    | none => k
    | some i =>
      match k.supervisors[i]? with
      | none => k
      | some sv =>
        let sv := countRestart sv env.now
        let k := { k with supervisors := k.supervisors.set i sv }
        if sv.restartCount > superMaxRestarts then k
        else
          match sv.policy with
          | .oneForOne => (sv.children.findIdx? (·.isPid pid)).elim k (supervisorRestartChild caller env i k)
          | .oneForAll =>
            let killPids := (sv.children.filter fun ch => ch.used && ch.pid != pid).map (·.pid)
            let restart := (List.range maxSuperChildren).filter fun j => (sv.children[j]?).any (·.used)
            restart.foldl (supervisorRestartChild caller env i)
              { k with procs := killPids.foldl (deliverKill env) k.procs }

/-- The end of `process_terminate`: children go to process 1, supervisors are told, the process has exited. -/
def processTerminate (proc : Process) (env : Env) (status : U64) : Kernel :=
  let k := { k with procs := processReparentChildren k.procs proc.pid 1 }
  let k := supervisorOnExit k proc env proc.pid (status.setWidth 32)
  { k with procs := k.procs.modify proc.pid fun p => { p with exited := true } }

/-- A string argument: a null pointer, one that `copy_string_from_user` refuses, or the bytes there. -/
inductive UserStr
  | null
  | bad
  | str (s : CStr)
deriving DecidableEq

/-- The string copied into a buffer of `max` bytes; `dflt` for a null pointer, `none` for a refused one. -/
def UserStr.copy (max : Nat) (dflt : CStr) : UserStr → Option CStr
  | .null => some dflt
  | .bad => none
  | .str s => some ((cString s).take (max - 1))

def sysSuperCreate (proc : Process) (name : UserStr) : Int × Kernel :=
  match name.copy 64 "supervisor".toUTF8.toList with
  | none => (-EFAULT, k)
  | some name => supervisorCreate k proc.pid name

/-- The capability word goes into the spec as it was passed. -/
def sysSuperAdd (superId : U64) (elfPath : UserStr) (nsId caps : U64) : Int × Kernel :=
  match elfPath.copy 64 [] with
  | none => (-EFAULT, k)
  | some path => supervisorAddChild k (superId.setWidth 32).toNat path nsId caps

def sysSuperSetPolicy (superId policy : U64) : Int × Kernel :=
  supervisorSetPolicy k (superId.setWidth 32).toNat (policy.setWidth 8)

def sysSuperStart (proc : Process) (env : Env) (superId : U64) : Int × Kernel :=
  supervisorStart k proc env (superId.setWidth 32).toNat

def sysSuperStop (proc : Process) (env : Env) (superId : U64) : Int × Kernel :=
  supervisorStop k env (superId.setWidth 32).toNat proc.pid

/-- The calls that make processes or set their capabilities, the exit of a process, and the collection of
    one that has exited. -/
inductive KernelOp
  | setcap (pid : Nat) (caps : U64)
  | setuid (uid : U64)
  | fork (flags : U64) (quota : Bool) (fault : Option Fault)
  | exec (token : Bool) (file : Option ExecFile) (fault : Option Fault)
  | execve (token : Bool) (file : Option ExecFile) (fault : Option Fault)
  | superCreate (name : UserStr)
  | superAdd (superId : U64) (elfPath : UserStr) (nsId caps : U64)
  | superSetPolicy (superId policy : U64)
  | superStart (superId : U64) (env : Env)
  | superStop (superId : U64) (env : Env)
  | exit (status : U64) (env : Env)
  | reap (pid : Nat)

def Kernel.call (proc : Process) : KernelOp → Kernel
  | .setcap pid caps => { k with procs := (sysSetcap k.procs proc pid caps).2 }
  | .setuid uid => { k with procs := (sysSetuid k.procs proc uid).2 }
  | .fork flags quota fault => { k with procs := (sysFork k.procs proc flags quota fault).2 }
  | .exec token file fault => { k with procs := (sysExec k.procs proc token file fault).2 }
  | .execve token file fault => { k with procs := (sysExecve k.procs proc token file fault).2 }
  | .superCreate name => (sysSuperCreate k proc name).2
  | .superAdd superId path nsId caps => (sysSuperAdd k superId path nsId caps).2
  | .superSetPolicy superId policy => (sysSuperSetPolicy k superId policy).2
  | .superStart superId env => (sysSuperStart k proc env superId).2
  | .superStop superId env => (sysSuperStop k proc env superId).2
  | .exit status env => processTerminate k proc env status
  | .reap pid =>
    if (processLookup k.procs pid).any (·.exited) then { k with procs := processUnregister k.procs pid } else k

def Kernel.step (op : Nat × KernelOp) : Kernel :=
  match processLookup k.procs op.1 with
  | none => k
  | some proc => k.call proc op.2

end Limnx
