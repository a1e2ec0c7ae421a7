import Mathlib.Data.List.Basic
import Limnx.Errno

/-! # Processes and their registry (`proc/process.c`, `syscall/sys_proc.c`, `syscall/sys_security.c`)

The part of `process_t` that decides what a process may do. Four paths make a process or give one a new image, each
filling these fields by hand: `processFork`, `processForkVfork`, `processCreateFromElf` (for `sys_exec` and the
supervisor) and `sysExecve`. The answers of the file system, the loader and the allocators are inputs. -/

namespace Limnx

def capSetuid : U32 := 1#32 <<< 3
def capSysAdmin : U32 := 1#32 <<< 4
def capExec : U32 := 1#32 <<< 5
def capFsWrite : U32 := 1#32 <<< 6
def capFsRead : U32 := 1#32 <<< 7
def capXnsTask : U32 := 1#32 <<< 9
def capAll : U32 := 0x1FFF

def maxProcs : Nat := 64
def maxSupplGroups : Nat := 16

/-- `process_t`. The defaults are what `mem_zero` leaves. -/
structure Process where
  pid : Nat := 0
  parentPid : Nat := 0
  pgid : Nat := 0
  sid : Nat := 0
  uid : U16 := 0
  gid : U16 := 0
  euid : U16 := 0
  egid : U16 := 0
  suid : U16 := 0
  sgid : U16 := 0
  umask : U16 := 0
  ngroups : BitVec 8 := 0
  groups : List U16 := List.replicate maxSupplGroups 0
  capabilities : U32 := 0
  rlimitMemPages : U64 := 0
  rlimitCpuTicks : U64 := 0
  rlimitNfds : U32 := 0
  usedMemPages : U64 := 0
  seccompMask : U64 := 0
  seccompMaskHi : U64 := 0
  seccompStrict : Bool := false
  auditFlags : BitVec 8 := 0
  nsId : U32 := 0
  exited : Bool := false
  daemon : Bool := false
deriving DecidableEq

structure ProcTable where
  procTable : List (Option Process) := List.replicate maxProcs none
  nextPid : Nat := 1
deriving DecidableEq

namespace ProcTable

/-- The process is registered. -/
def Has (t : ProcTable) (p : Process) : Prop := some p ∈ t.procTable

instance (t : ProcTable) (p : Process) : Decidable (t.Has p) := inferInstanceAs (Decidable (_ ∈ _))

/-- A store through a `process_t *`: the registered process with number `pid` is changed in place. -/
def modify (t : ProcTable) (pid : Nat) (f : Process → Process) : ProcTable :=
  { t with procTable := t.procTable.map (Option.map fun p => if p.pid = pid then f p else p) }

end ProcTable

def processAllocPid (t : ProcTable) : Nat × ProcTable := (t.nextPid, { t with nextPid := t.nextPid + 1 })

/-- `none` is the return value `-ENOMEM`. -/
def processRegister (t : ProcTable) (proc : Process) : Option ProcTable :=
  (t.procTable.findIdx? (·.isNone)).map fun i => { t with procTable := t.procTable.set i (some proc) }

def processLookup (t : ProcTable) (pid : Nat) : Option Process :=
  t.procTable.findSome? fun slot => slot.filter (·.pid == pid)

def processUnregister (t : ProcTable) (pid : Nat) : ProcTable :=
  match t.procTable.findIdx? (·.any (·.pid == pid)) with
  | some i => { t with procTable := t.procTable.set i none }
  | none => t

def processReparentChildren (t : ProcTable) (dyingPid newParent : Nat) : ProcTable :=
  { t with procTable := t.procTable.map (Option.map fun p =>
      if p.parentPid = dyingPid then { p with parentPid := newParent } else p) }

/-- The first step that fails on the way to a new image or process: `vfs_stat` (or an empty file), the buffer,
    `vfs_read`, `elf_load`, the process structure, or the address space with its stack and thread. -/
inductive Fault
  | stat | buffer | read | elf | proc | space
deriving DecidableEq

/-- What all creation functions end with: take a number, fill the structure, obtain the rest, register. A number is used
    up even on failure. -/
def registerNew (t : ProcTable) (fault : Option Fault) (fill : Nat → Process) : Option Process × ProcTable :=
  if fault = some .proc then (none, t)
  else
    let (pid, t) := processAllocPid t
    if fault = some .space then (none, t)
    else
      match processRegister t (fill pid) with
      | some t' => (some (fill pid), t')
      | none => (none, t)

/-- The supplementary groups a child takes over: `ngroups` entries, at most sixteen. -/
def copyGroups (parent : Process) : List U16 :=
  let n := min parent.ngroups.toNat maxSupplGroups
  parent.groups.take n ++ List.replicate (maxSupplGroups - n) 0

def forkedChild (parent : Process) (pid : Nat) : Process where
  pid := pid
  parentPid := parent.pid
  pgid := parent.pgid
  sid := parent.sid
  uid := parent.uid
  gid := parent.gid
  euid := parent.euid
  egid := parent.egid
  suid := parent.suid
  sgid := parent.sgid
  umask := parent.umask
  ngroups := parent.ngroups
  groups := copyGroups parent
  capabilities := parent.capabilities
  rlimitMemPages := parent.rlimitMemPages
  rlimitCpuTicks := parent.rlimitCpuTicks
  rlimitNfds := parent.rlimitNfds
  usedMemPages := parent.usedMemPages
  seccompMask := parent.seccompMask
  seccompMaskHi := parent.seccompMaskHi
  seccompStrict := parent.seccompStrict
  auditFlags := parent.auditFlags
  nsId := parent.nsId
  daemon := false

/-- The fields that `process_fork_vfork` gives the child. The groups, limits, filter and audit flags stay
    as `mem_zero` left them. -/
def vforkedChild (parent : Process) (pid : Nat) : Process where
  pid := pid
  parentPid := parent.pid
  pgid := parent.pgid
  sid := parent.sid
  uid := parent.uid
  gid := parent.gid
  euid := parent.euid
  egid := parent.egid
  suid := parent.suid
  sgid := parent.sgid
  umask := parent.umask
  capabilities := parent.capabilities
  nsId := parent.nsId
  daemon := false

/-- The fields that `process_create_from_elf` gives a process made by `caller`: credentials and capabilities of the
    process registered under the caller's number, all of them when there is none; no limits, no filter and namespace
    0. -/
def elfProcess (t : ProcTable) (caller : Option Process) (pid : Nat) : Process :=
  let parentPid := (caller.map (·.pid)).getD 0
  match processLookup t parentPid with
  | some parent =>
    { pid := pid, parentPid := parentPid, pgid := parent.pgid, sid := parent.sid, uid := parent.uid,
      gid := parent.gid, euid := parent.euid, egid := parent.egid, suid := parent.suid, sgid := parent.sgid,
      umask := parent.umask, capabilities := parent.capabilities, ngroups := parent.ngroups,
      groups := copyGroups parent }
  | none =>
    { pid := pid, parentPid := parentPid, pgid := pid, sid := pid, umask := 0o22, capabilities := capAll }

def processFork (t : ProcTable) (parent : Process) (fault : Option Fault) : Option Process × ProcTable :=
  registerNew t fault (forkedChild parent)

def processForkVfork (t : ProcTable) (parent : Process) (fault : Option Fault) : Option Process × ProcTable :=
  registerNew t fault (vforkedChild parent)

def processCreateFromElf (t : ProcTable) (caller : Option Process) (fault : Option Fault) :
    Option Process × ProcTable :=
  if fault = some .elf then (none, t) else registerNew t fault (elfProcess t caller)

def cloneVm : U64 := 0x100
def cloneVfork : U64 := 0x4000

/-- `quota` is the answer of `agent_ns_quota_check`. A process stands for the number that is returned. -/
def sysFork (t : ProcTable) (proc : Process) (flags : U64) (quota : Bool) (fault : Option Fault) :
    Except Int Process × ProcTable :=
  if !quota then (.error (-ENOMEM), t)
  else
    let isVfork := flags &&& cloneVm != 0 && flags &&& cloneVfork != 0
    match if isVfork then processForkVfork t proc fault else processFork t proc fault with
    | (some child, t) => (.ok child, t)
    | (none, t) => (.error (-1), t)

def vfsPermExec : U16 := 0x01
def vfsModeSetuid : U16 := 0x800
def vfsModeSetgid : U16 := 0x400

structure ExecFile where
  mode : U16
  uid : U16
  gid : U16
deriving DecidableEq

def applySetid (file : ExecFile) (proc : Process) : Process :=
  let proc := if file.mode &&& vfsModeSetuid != 0 then { proc with euid := file.uid, suid := file.uid } else proc
  if file.mode &&& vfsModeSetgid != 0 then { proc with egid := file.gid, sgid := file.gid } else proc

/-- `token` is the answer of `cap_token_check` for `CAP_EXEC`; `file` is what `vfs_open` finds. -/
def sysExec (t : ProcTable) (proc : Process) (token : Bool) (file : Option ExecFile) (fault : Option Fault) :
    Except Int Process × ProcTable :=
  if proc.capabilities &&& capExec == 0 && !token then (.error (-EACCES), t)
  else
    match file with
    | none => (.error (-1), t)
    | some file =>
      if file.mode &&& vfsPermExec == 0 then (.error (-1), t)
      else if fault = some .stat ∨ fault = some .buffer ∨ fault = some .read then (.error (-1), t)
      else
        match processCreateFromElf t (some proc) fault with
        | (none, t) => (.error (-1), t)
        | (some child, t) => (.ok (applySetid file child), t.modify child.pid (applySetid file))

def execveProcess (file : ExecFile) (proc : Process) : Process :=
  { applySetid file { proc with usedMemPages := 0 } with
    seccompMask := 0, seccompMaskHi := 0, seccompStrict := false }

/-- On success the call does not return: the caller goes on as the given process. -/
def sysExecve (t : ProcTable) (proc : Process) (token : Bool) (file : Option ExecFile) (fault : Option Fault) :
    Except Int Process × ProcTable :=
  if proc.capabilities &&& capExec == 0 && !token then (.error (-EACCES), t)
  else
    match file with
    | none => (.error (-ENOENT), t)
    | some file =>
      if file.mode &&& vfsPermExec == 0 then (.error (-EACCES), t)
      else
        match fault with
        | some .stat => (.error (-ENOENT), t)
        | some .buffer => (.error (-ENOMEM), t)
        | some .read => (.error (- EIO), t)
        | some .elf => (.error (-ENOEXEC), t)
        | some .space => (.error (-ENOMEM), t)
        -- no process structure is allocated on this path
        | some .proc | none => (.ok (execveProcess file proc), t.modify proc.pid (execveProcess file))

def setuid (proc : Process) (uidArg : U64) : Except Int Process :=
  let newUid := uidArg.setWidth 16
  if proc.euid = 0 then
    let proc := { proc with uid := newUid, euid := newUid, suid := newUid }
    .ok (if newUid ≠ 0 then { proc with capabilities := 0 } else proc)
  else if newUid ≠ proc.uid ∧ newUid ≠ proc.suid ∧ proc.capabilities &&& capSetuid = 0 then .error (-EPERM)
  else .ok { proc with euid := newUid }

def sysSetuid (t : ProcTable) (proc : Process) (uidArg : U64) : Int × ProcTable :=
  match setuid proc uidArg with
  | .ok proc' => (0, t.modify proc.pid fun _ => proc')
  | .error e => (e, t)

/-- `caps & ~caller->capabilities` complements a 32-bit word, so the upper half of `caps` is not tested. -/
def sysSetcap (t : ProcTable) (caller : Process) (pidArg : Nat) (caps : U64) : Int × ProcTable :=
  if caller.euid ≠ 0 ∧ caller.capabilities &&& capSysAdmin = 0 then (-EPERM, t)
  else if caps &&& (~~~caller.capabilities).setWidth 64 ≠ 0 then (-EPERM, t)
  else
    let pid := if pidArg = 0 then caller.pid else pidArg
    match processLookup t pid with
    | none => (-ESRCH, t)
    | some target => (0, t.modify target.pid fun p => { p with capabilities := caps.setWidth 32 })

end Limnx
