import Limnx.Process
import Mathlib.Data.List.FinRange

/-! # Agent namespaces and their quotas (`ipc/agent_ns.c`, `syscall/sys_security.c`, `syscall/sys_proc.c`)

Each section under `ns_lock` is one step, and so is each store to `ns_id`, each registration of a process and the end of
an exit. Processes are named by their slot in `proc_table`; each has one thread. -/

namespace Limnx

def maxNamespaces : Nat := 8
def nsNameMax : Nat := 32

instance : NeZero maxProcs := ⟨by decide⟩

inductive NsResource
  | procs | memPages
deriving DecidableEq

def NsResource.ofNat? : Nat → Option NsResource
  | 0 => some .procs
  | 1 => some .memPages
  | _ => none

/-- `agent_namespace_t`. The name is a string without its final zero byte. -/
structure AgentNs where
  name : CStr := []
  ownerPid : Nat := 0
  used : Bool := false
  maxProcs : U32 := 0
  maxMemPages : U32 := 0
  curProcs : U32 := 0
  curMemPages : U32 := 0
deriving DecidableEq

namespace AgentNs
variable (ns : AgentNs)

def limit : NsResource → U32
  | .procs => ns.maxProcs
  | .memPages => ns.maxMemPages

def usage : NsResource → U32
  | .procs => ns.curProcs
  | .memPages => ns.curMemPages

def setLimit (limit : U32) : NsResource → AgentNs
  | .procs => { ns with maxProcs := limit }
  | .memPages => { ns with maxMemPages := limit }

def setUsage (usage : U32) : NsResource → AgentNs
  | .procs => { ns with curProcs := usage }
  | .memPages => { ns with curMemPages := usage }

/-- The sum is one of 32-bit integers and does not go below 0. -/
def adjust (r : NsResource) (delta : U32) : AgentNs :=
  let val := ns.usage r + delta
  ns.setUsage (if 0 < val.toInt then val else 0) r

end AgentNs

abbrev NsTable := Nat → AgentNs

namespace NsTable

def Named (i : Nat) : Prop := 0 < i ∧ i < maxNamespaces

instance (i : Nat) : Decidable (Named i) := inferInstanceAs (Decidable (0 < i ∧ i < maxNamespaces))

variable (t : NsTable)

def freeSlot : Option Nat := (List.range' 1 (maxNamespaces - 1)).find? fun i => !(t i).used

/-- `agent_ns_create`. Limits and counters are left as they stand in the slot. -/
def agentNsCreate (name : CStr) (ownerPid : Nat) : Int × NsTable :=
  match t.freeSlot with
  | some i =>
    (i, Function.update t i { t i with used := true, ownerPid, name := name.take (nsNameMax - 1) })
  | none => (-ENOMEM, t)

def agentNsJoin (nsId callerPid : Nat) (callerUid : U16) : Int :=
  if nsId = 0 then 0
  else if maxNamespaces ≤ nsId ∨ !(t nsId).used then -ENOENT
  else if callerUid ≠ 0 ∧ (t nsId).ownerPid ≠ callerPid then -EPERM
  else 0

def agentNsSetQuota (nsId resource : Nat) (limit : U32) (callerPid : Nat) (callerUid : U16) : Int × NsTable :=
  if ¬Named nsId then (-ENOENT, t)
  else if !(t nsId).used then (-ENOENT, t)
  else if callerUid ≠ 0 ∧ (t nsId).ownerPid ≠ callerPid then (-EPERM, t)
  else
    match NsResource.ofNat? resource with
    | some r => (0, Function.update t nsId ((t nsId).setLimit limit r))
    | none => (-EINVAL, t)

def agentNsQuotaCheck (nsId : Nat) (r : NsResource) (count : U32) : Bool :=
  if ¬Named nsId then true
  else if !(t nsId).used then true
  else (t nsId).limit r == 0 || (t nsId).usage r + count ≤ (t nsId).limit r

def agentNsQuotaAdjust (nsId : Nat) (r : NsResource) (delta : U32) : NsTable :=
  if ¬Named nsId then t
  else if !(t nsId).used then t
  else Function.update t nsId ((t nsId).adjust r delta)

def owned (pid i : Nat) : Option Nat :=
  (List.range' i (maxNamespaces - i)).find? fun j => (t j).used && (t j).ownerPid == pid

end NsTable

/-- Where the thread of a process is in `sys_ns_join`, `sys_fork` or `process_terminate`. -/
inductive NsPc
  | user
  | joinStore (nsId : Nat)
  | forkCreate
  | forkAdjust
  | exitCleanup (i : Nat)
  | exitUnregister (i : Nat)
  | exitAdjust
  | exitEnd
deriving DecidableEq

/-- `process_t`. `dead` is `THREAD_DEAD`. -/
structure NsProc where
  pid : Nat
  nsId : Nat := 0
  euid : U16 := 0
  exited : Bool := false
  dead : Bool := false
  pc : NsPc := .user
deriving DecidableEq

def NsProc.joins (e : NsProc) : Option Nat :=
  match e.pc with
  | .joinStore i => some i
  | _ => none

structure NsWorld where
  ns : NsTable := fun _ => {}
  table : Fin maxProcs → Option NsProc := fun _ => none
  nextPid : Nat := 1

namespace NsWorld
variable (w : NsWorld)

def set (k : Fin maxProcs) (e : Option NsProc) : NsWorld :=
  { w with table := Function.update w.table k e }

def setNs (t : NsTable) : NsWorld := { w with ns := t }

/-- A process is registered in the first free slot. Its number is used up even if there is none. -/
def create (nsId : Nat) (euid : U16) : Option (Fin maxProcs) × NsWorld :=
  let w' := { w with nextPid := w.nextPid + 1 }
  match (List.finRange maxProcs).find? fun k => (w.table k).isNone with
  | some k => (some k, w'.set k (some { pid := w.nextPid, nsId, euid }))
  | none => (none, w')

/-- The next step of the process in slot `k`. `made` says whether `process_fork` gets what it needs. -/
def turn (k : Fin maxProcs) (e : NsProc) (made : Bool) : NsWorld :=
  match e.pc with
  | .user => w
  | .joinStore nsId => w.set k (some { e with nsId, pc := .user })
  | .forkCreate =>
    if !made then w.set k (some { e with pc := .user })
    else
      match w.create e.nsId e.euid with
      | (some _, w) => w.set k (some { e with pc := .forkAdjust })
      | (none, w) => w.set k (some { e with pc := .user })
  | .forkAdjust => (w.setNs (w.ns.agentNsQuotaAdjust e.nsId .procs 1)).set k (some { e with pc := .user })
  | .exitCleanup i =>
    match w.ns.owned e.pid i with
    | some j =>
      (w.setNs (Function.update w.ns j { w.ns j with used := false })).set k (some { e with pc := .exitUnregister j })
    | none => w.set k (some { e with pc := .exitAdjust })
  | .exitUnregister j => w.set k (some { e with pc := .exitCleanup (j + 1) })
  | .exitAdjust => (w.setNs (w.ns.agentNsQuotaAdjust e.nsId .procs (-1))).set k (some { e with pc := .exitEnd })
  | .exitEnd => w.set k (some { e with exited := true })

inductive Call
  | nsCreate (name : CStr)
  | nsJoin (nsId : Nat)
  | nsSetquota (nsId resource : Nat) (limit : U32)
  | fork
  | exec (euid : U16)
  | supervised (nsId : Nat) (euid : U16)
  | exit

/-- The first step of a call. A program started by `sys_exec` is in namespace 0, one that a supervisor starts in that of
    its spec. -/
def call (k : Fin maxProcs) (e : NsProc) : Call → NsWorld
  | .nsCreate name => w.setNs (w.ns.agentNsCreate name e.pid).2
  | .nsJoin nsId =>
    if w.ns.agentNsJoin nsId e.pid e.euid = 0 then w.set k (some { e with pc := .joinStore nsId }) else w
  | .nsSetquota nsId resource limit => w.setNs (w.ns.agentNsSetQuota nsId resource limit e.pid e.euid).2
  | .fork => if w.ns.agentNsQuotaCheck e.nsId .procs 1 then w.set k (some { e with pc := .forkCreate }) else w
  | .exec euid => (w.create 0 euid).2
  | .supervised nsId euid => (w.create nsId euid).2
  | .exit => w.set k (some { e with pc := .exitCleanup 1 })

end NsWorld

/-- A step. `kill` is SIGKILL: the process is marked exited at once if its thread is taken out of a run queue, else when
    the thread is switched out. -/
inductive NsStep
  | boot (euid : U16)
  | call (k : Fin maxProcs) (c : NsWorld.Call)
  | turn (k : Fin maxProcs) (made : Bool)
  | kill (k : Fin maxProcs) (ready : Bool)
  | switchOut (k : Fin maxProcs)
  | reap (k : Fin maxProcs)

namespace NsWorld
variable (w : NsWorld)

def running (k : Fin maxProcs) : Option NsProc := (w.table k).filter (!·.exited)

def step : NsStep → NsWorld
  | .boot euid => (w.create 0 euid).2
  | .call k c =>
    match w.running k with
    | some e => if e.pc = .user then w.call k e c else w
    | none => w
  | .turn k made =>
    match w.running k with
    | some e => w.turn k e made
    | none => w
  | .kill k ready =>
    match w.running k with
    | some e => w.set k (some { e with dead := true, exited := ready })
    | none => w
  | .switchOut k =>
    match w.running k with
    | some e => if e.dead then w.set k (some { e with exited := true }) else w
    | none => w
  | .reap k => if (w.table k).any (·.exited) then w.set k none else w

/-- `i` is a namespace in use, and not the global one. -/
def InUse (i : Nat) : Prop := NsTable.Named i ∧ (w.ns i).used = true

instance (w : NsWorld) (i : Nat) : Decidable (w.InUse i) :=
  inferInstanceAs (Decidable (NsTable.Named i ∧ (w.ns i).used = true))

/-- No process that has not been marked exited carries the number `i`. -/
def Vacant (i : Nat) : Prop := ∀ k, ∀ e ∈ w.table k, e.exited = false → e.nsId ≠ i

instance (w : NsWorld) (i : Nat) : Decidable (w.Vacant i) := by
  unfold Vacant
  infer_instance

theorem running_eq {w : NsWorld} {k : Fin maxProcs} {e : NsProc} (h : w.running k = some e) :
    w.table k = some e ∧ e.exited = false := by
  obtain ⟨hk, hnot⟩ := Option.filter_eq_some_iff.mp h
  exact ⟨hk, by simpa using hnot⟩

end NsWorld

end Limnx
