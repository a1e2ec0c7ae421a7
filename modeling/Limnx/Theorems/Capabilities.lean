import Limnx.Lib.BitWord
import Limnx.Lib.GuardedRun
import Limnx.Theorems.Registry

/-! Where the capabilities of a process come from. -/

namespace Limnx
open BitWord GuardedRun ProcTable Kernel List
variable {S : U32} {t t' u : ProcTable} {k : Kernel} {p proc : Process} {pid : Nat} {env : Env} {superId : Nat}
  {fault : Option Fault}

/-- `t` becomes `u` by stores that keep numbers, re-parenting and registrations, and no word stored or
    registered has a bit outside `S`. -/
inductive Evolves (S : U32) (t : ProcTable) : ProcTable → Prop
  | refl : Evolves S t t
  | store {u : ProcTable} {pid : Nat} {f : Process → Process} : Evolves S t u → (∀ p, p.pid = pid → (f p).pid = pid) →
      (∀ p, Within p.capabilities S → Within (f p).capabilities S) → Evolves S t (u.modify pid f)
  | reparent {u : ProcTable} {dying parent : Nat} : Evolves S t u →
      Evolves S t (processReparentChildren u dying parent)
  | create {u : ProcTable} {fault : Option Fault} {fill : Nat → Process} : Evolves S t u → (∀ n, (fill n).pid = n) →
      (∀ n, Within (fill n).capabilities S) → Evolves S t (registerNew u fault fill).2

def ProcsWithin (S : U32) (t : ProcTable) : Prop := ∀ p, t.Has p → Within p.capabilities S

namespace Evolves

theorem within (h : Evolves S t u) (ht : ProcsWithin S t) : ProcsWithin S u := by
  induction h with
  | refl => exact ht
  | store _ _ hcaps ih =>
    intro p hp
    obtain ⟨q, hq, rfl⟩ := has_modify.mp hp
    split
    · exact hcaps q (ih q hq)
    · exact ih q hq
  | reparent _ ih =>
    intro p hp
    obtain ⟨q, hq, rfl⟩ := has_reparent.mp hp
    split <;> exact ih q hq
  | @create u fault fill _ _ hcaps ih =>
    intro p hp
    have hr : registerNew u fault fill = ((registerNew u fault fill).1, (registerNew u fault fill).2) := rfl
    rcases (has_registerNew hr).mp hp with hp | hp
    · exact ih p hp
    obtain ⟨hr, -⟩ | ⟨hr, -⟩ := registerNew_snd_cases u fault fill
    · rw [hr] at hp
      cases hp
    rw [hr, Option.some_inj] at hp
    rw [← hp]
    exact hcaps _

theorem registered (h : Evolves S t u) (ht : t.Registered pid) : u.Registered pid := by
  induction h with
  | refl => exact ht
  | store _ hpid _ ih => exact ih.modify fun p _ h => by rw [hpid p h, h]
  | reparent _ ih => exact ih.reparent
  | create _ _ _ ih =>
    obtain ⟨p, hp, hpid⟩ := ih
    exact ⟨p, (has_registerNew rfl).mpr (.inl hp), hpid⟩

theorem trans {v : ProcTable} (h : Evolves S t u) (h' : Evolves S u v) : Evolves S t v := by
  induction h' with
  | refl => exact h
  | store _ hpid hcaps ih => exact ih.store hpid hcaps
  | reparent _ ih => exact ih.reparent
  | create _ hpid hcaps ih => exact ih.create hpid hcaps

end Evolves

theorem within_elfProcess (ht : ProcsWithin S t) (hr : t.Registered proc.pid) (n : Nat) :
    (elfProcess t (some proc) n).pid = n ∧ Within (elfProcess t (some proc) n).capabilities S := by
  obtain ⟨parent, hl⟩ := hr.lookup
  simp only [elfProcess, Option.map_some, Option.getD_some, hl]
  exact ⟨trivial, ht parent (has_of_lookup hl).1⟩

theorem evolves_createFromElf (fault : Option Fault) (ht : ProcsWithin S t) (hr : t.Registered proc.pid) :
    Evolves S t (processCreateFromElf t (some proc) fault).2 := by
  unfold processCreateFromElf
  split
  · exact .refl
  · exact .create .refl (fun n => (within_elfProcess ht hr n).1) fun n => (within_elfProcess ht hr n).2

theorem applySetid_pid (file : ExecFile) (p : Process) : (applySetid file p).pid = p.pid := by
  unfold applySetid
  split <;> split <;> rfl

theorem applySetid_caps (file : ExecFile) (p : Process) : (applySetid file p).capabilities = p.capabilities := by
  unfold applySetid
  split <;> split <;> rfl

theorem evolves_setcap {caps : U64} (ht : ProcsWithin S t) (hp : t.Has proc) :
    Evolves S t (sysSetcap t proc pid caps).2 := by
  simp only [sysSetcap]
  split
  · exact .refl
  split
  · exact .refl
  rename_i hcaps
  split
  · exact .refl
  · refine .store .refl (fun _ h => h) fun _ _ => ?_
    exact (within_setWidth (by decide) (not_not.mp hcaps)).trans (ht proc hp)

theorem evolves_setuid {uid : U64} (ht : ProcsWithin S t) (hp : t.Has proc) : Evolves S t (sysSetuid t proc uid).2 := by
  unfold sysSetuid
  split
  next proc' h =>
    have hproc : proc'.pid = proc.pid ∧ Within proc'.capabilities S := by
      simp only [setuid] at h
      split at h
      · cases h
        split
        · exact ⟨rfl, Within.zero S⟩
        · exact ⟨rfl, ht proc hp⟩
      · split at h <;> cases h
        exact ⟨rfl, ht proc hp⟩
    exact .store .refl (fun _ _ => hproc.1) fun _ _ => hproc.2
  · exact .refl

theorem evolves_fork {flags : U64} {quota : Bool} (ht : ProcsWithin S t)
    (hp : t.Has proc) : Evolves S t (sysFork t proc flags quota fault).2 := by
  have hfork : Evolves S t (processFork t proc fault).2 := .create .refl (fun _ => rfl) fun _ => ht proc hp
  have hvfork : Evolves S t (processForkVfork t proc fault).2 := .create .refl (fun _ => rfl) fun _ => ht proc hp
  simp only [sysFork]
  split
  · exact .refl
  split <;> rename_i h <;> split at h
  · rwa [h] at hvfork
  · rwa [h] at hfork
  · rwa [h] at hvfork
  · rwa [h] at hfork

theorem evolves_exec {token : Bool} {file : Option ExecFile} (ht : ProcsWithin S t)
    (hr : t.Registered proc.pid) : Evolves S t (sysExec t proc token file fault).2 := by
  have helf := evolves_createFromElf fault ht hr
  simp only [sysExec]
  split
  · exact .refl
  split
  · exact .refl
  rename_i file
  split
  · exact .refl
  split
  · exact .refl
  split <;> rename_i h <;> rw [h] at helf
  · exact helf
  · refine helf.store (fun p h => (applySetid_pid file p).trans h) fun p h => ?_
    rwa [applySetid_caps]

theorem evolves_execve {token : Bool} {file : Option ExecFile} : Evolves S t (sysExecve t proc token file fault).2 := by
  simp only [sysExecve]
  split
  · exact .refl
  split
  · exact .refl
  rename_i file
  have hstore : Evolves S t (t.modify proc.pid (execveProcess file)) :=
    .store .refl (fun p h => (applySetid_pid file _).trans h) fun p h => by
      rwa [execveProcess, applySetid_caps]
  split
  · exact .refl
  split <;> first | exact .refl | exact hstore

/-! ### Supervisors -/

def SpecsWithin (S : U32) (svs : List Supervisor) : Prop :=
  ∀ sv ∈ svs, ∀ ch ∈ sv.children, ch.used = true → Within (ch.caps.setWidth 32) S

theorem SpecsWithin.set {svs : List Supervisor} (h : SpecsWithin S svs) {sv : Supervisor} (i : Nat)
    (hsv : ∀ ch ∈ sv.children, ch.used → Within (ch.caps.setWidth 32) S) : SpecsWithin S (svs.set i sv) := by
  intro sv' hsv'
  rcases mem_or_eq_of_mem_set hsv' with hold | rfl
  · exact h sv' hold
  · exact hsv

theorem mem_modify {α : Type} {l : List α} {i : Nat} {f : α → α} {x : α} (h : x ∈ l.modify i f) :
    x ∈ l ∨ ∃ y ∈ l, x = f y := by
  obtain ⟨j, hj⟩ := mem_iff_getElem?.mp h
  rw [getElem?_modify] at hj
  obtain ⟨y, hy, rfl⟩ := Option.map_eq_some_iff.mp hj
  have hmem := mem_of_getElem? hy
  split
  · exact .inr ⟨y, hmem, rfl⟩
  · exact .inl hmem

theorem supervisor?_mem {sv : Supervisor} (h : k.supervisor? superId = some sv) : sv ∈ k.supervisors :=
  mem_of_getElem? (Option.filter_eq_some_iff.mp h).1

structure Sound (S : U32) (t : ProcTable) (k : Kernel) : Prop where
  procs : Evolves S t k.procs
  specs : SpecsWithin S k.supervisors

theorem Sound.restartChild {superId i : Nat} (h : Sound S t k) (ht : ProcsWithin S t)
    (hr : t.Registered proc.pid) : Sound S t (supervisorRestartChild proc env superId k i) := by
  have helf : ∀ fault, Evolves S t (processCreateFromElf k.procs (some proc) fault).2 := fun fault =>
    h.procs.trans (evolves_createFromElf fault (h.procs.within ht) (h.procs.registered hr))
  unfold supervisorRestartChild
  split
  · exact h
  rename_i sv hsv
  have hspec := h.specs sv (mem_of_getElem? hsv)
  split
  · exact h
  rename_i ch hch
  split
  · exact h
  rename_i hused
  have hload : Evolves S t (supervisorLoadElf k.procs proc env (cString ch.elfPath)).2 := by
    unfold supervisorLoadElf
    split <;> first | exact h.procs | exact helf _
  split <;> rename_i hl <;> rw [hl] at hload
  · exact ⟨hload, h.specs⟩
  · refine ⟨hload.store (fun _ h => h) fun _ _ => ?_, h.specs.set superId fun ch' hch' hused' => ?_⟩
    · exact hspec ch (mem_of_getElem? hch) (by simpa using hused)
    · rcases mem_modify hch' with hold | ⟨ch'', hold, rfl⟩
      · exact hspec ch' hold hused'
      · exact hspec ch'' hold hused'

theorem Sound.restartChildren (is : List Nat) (h : Sound S t k) (ht : ProcsWithin S t)
    (hr : t.Registered proc.pid) : Sound S t (is.foldl (supervisorRestartChild proc env superId) k) := by
  induction is generalizing k with
  | nil => exact h
  | cons i is ih => exact ih (h.restartChild ht hr)

theorem evolves_deliverKill (h : Evolves S t u) : Evolves S t (deliverKill env u pid) := by
  unfold deliverKill
  split
  · exact h
  split
  · exact h.store (fun _ h => h) fun _ h => h
  · exact h

theorem evolves_deliverKills (pids : List Nat) (h : Evolves S t u) : Evolves S t (pids.foldl (deliverKill env) u) := by
  induction pids generalizing u with
  | nil => exact h
  | cons pid pids ih => exact ih (evolves_deliverKill h)

section
variable (h : SpecsWithin S k.supervisors)
include h

theorem specs_create {name : CStr} : SpecsWithin S (supervisorCreate k pid name).2.supervisors := by
  unfold supervisorCreate
  split
  · exact h
  intro sv hsv ch hch hused
  rcases mem_modify hsv with hold | ⟨sv', -, rfl⟩
  · exact h sv hold ch hch hused
  · obtain ⟨ch', -, rfl⟩ := mem_map.mp hch
    cases hused

theorem specs_addChild {path : CStr} {nsId caps : U64} (hcaps : Within (caps.setWidth 32) S) :
    SpecsWithin S (supervisorAddChild k superId path nsId caps).2.supervisors := by
  unfold supervisorAddChild
  split
  · exact h
  rename_i sv hsv
  split
  · exact h
  refine h.set superId fun ch hch hused => ?_
  rcases mem_modify hch with hold | ⟨ch', -, rfl⟩
  · exact h sv (supervisor?_mem hsv) ch hold hused
  · exact hcaps

theorem specs_setPolicy {policy : BitVec 8} : SpecsWithin S (supervisorSetPolicy k superId policy).2.supervisors := by
  unfold supervisorSetPolicy
  split
  · exact h
  rename_i sv hsv
  split
  · exact h
  · exact h.set superId (h sv (supervisor?_mem hsv))

end

theorem sound_start (ht : ProcsWithin S k.procs) (hs : SpecsWithin S k.supervisors)
    (hr : k.procs.Registered proc.pid) : Sound S k.procs (supervisorStart k proc env superId).2 := by
  unfold supervisorStart
  split
  · exact ⟨.refl, hs⟩
  · exact Sound.restartChildren _ ⟨.refl, hs⟩ ht hr

theorem sound_stop (hs : SpecsWithin S k.supervisors) : Sound S k.procs (supervisorStop k env superId pid).2 := by
  unfold supervisorStop
  split
  · exact ⟨.refl, hs⟩
  split
  · exact ⟨.refl, hs⟩
  refine ⟨evolves_deliverKills _ .refl, hs.set superId fun ch hch hused => ?_⟩
  obtain ⟨ch', -, rfl⟩ := mem_map.mp hch
  cases hused

theorem Sound.onExit (env : Env) (pid : Nat) (status : U32) (h : Sound S t k) (ht : ProcsWithin S t) (hr : t.Registered proc.pid) :
    Sound S t (supervisorOnExit k proc env pid status) := by
  unfold supervisorOnExit
  split
  · exact h
  split
  · exact h
  split
  · exact h
  rename_i sv hsv
  have hspec : ∀ ch ∈ (countRestart sv env.now).children, ch.used → Within (ch.caps.setWidth 32) S := by
    simp only [countRestart]
    split <;> exact h.specs sv (mem_of_getElem? hsv)
  have hcount : ∀ i, Sound S t { k with supervisors := k.supervisors.set i (countRestart sv env.now) } := fun i =>
    ⟨h.procs, h.specs.set i hspec⟩
  dsimp only
  split
  · exact hcount _
  split
  · cases (countRestart sv env.now).children.findIdx? (·.isPid pid) with
    | none => exact hcount _
    | some j => exact (hcount _).restartChild ht hr
  · exact Sound.restartChildren _ ⟨evolves_deliverKills _ h.procs, h.specs.set _ hspec⟩ ht hr

/-! ### Runs of the system -/

/-- Processes and child specs have capabilities of `S` only. -/
structure CapsWithin (S : U32) (k : Kernel) : Prop where
  procs : ProcsWithin S k.procs
  specs : SpecsWithin S k.supervisors

/-- A child spec is added with capabilities of `S` only. -/
def AddsWithin (S : U32) (_ : Kernel) : Nat × KernelOp → Prop
  | (_, .superAdd _ _ _ caps) => Within (caps.setWidth 32) S
  | _ => True

theorem sound_call {op : KernelOp} (hk : CapsWithin S k) (hl : processLookup k.procs pid = some proc)
    (hop : AddsWithin S k (pid, op)) (hreap : ∀ n, op ≠ .reap n) : Sound S k.procs (k.call proc op) := by
  have hp := (has_of_lookup hl).1
  have hr : k.procs.Registered proc.pid := ⟨proc, hp, rfl⟩
  cases op with
  | setcap n caps => exact ⟨evolves_setcap hk.procs hp, hk.specs⟩
  | setuid uid => exact ⟨evolves_setuid hk.procs hp, hk.specs⟩
  | fork flags quota fault => exact ⟨evolves_fork hk.procs hp, hk.specs⟩
  | exec token file fault => exact ⟨evolves_exec hk.procs hr, hk.specs⟩
  | execve token file fault => exact ⟨evolves_execve, hk.specs⟩
  | superCreate name =>
    simp only [call, sysSuperCreate]
    split
    · exact ⟨.refl, hk.specs⟩
    refine ⟨?_, specs_create hk.specs⟩
    unfold supervisorCreate
    split <;> exact .refl
  | superAdd superId path nsId caps =>
    simp only [call, sysSuperAdd]
    split
    · exact ⟨.refl, hk.specs⟩
    refine ⟨?_, specs_addChild hk.specs hop⟩
    unfold supervisorAddChild
    split
    · exact .refl
    · split <;> exact .refl
  | superSetPolicy superId policy =>
    refine ⟨?_, specs_setPolicy hk.specs⟩
    simp only [call, sysSuperSetPolicy, supervisorSetPolicy]
    split
    · exact .refl
    · split <;> exact .refl
  | superStart superId env => exact sound_start hk.procs hk.specs hr
  | superStop superId env => exact sound_stop hk.specs
  | exit status env =>
    have h : Sound S k.procs { k with procs := processReparentChildren k.procs proc.pid 1 } :=
      ⟨.reparent .refl, hk.specs⟩
    have h' := h.onExit env proc.pid (status.setWidth 32) hk.procs hr
    exact ⟨h'.procs.store (fun _ h => h) fun _ h => h, h'.specs⟩
  | reap n => exact absurd rfl (hreap n)

theorem CapsWithin.step {op : Nat × KernelOp} (hk : CapsWithin S k) (hop : AddsWithin S k op) :
    CapsWithin S (k.step op) := by
  unfold Kernel.step
  split
  · exact hk
  rename_i proc hl
  by_cases hreap : ∃ n, op.2 = .reap n
  · obtain ⟨n, hn⟩ := hreap
    rw [hn, call]
    split
    · exact ⟨fun p hp => hk.procs p (has_of_unregister hp), hk.specs⟩
    · exact hk
  · have h := sound_call hk hl hop fun n hn => hreap ⟨n, hn⟩
    exact ⟨h.procs.within hk.procs, h.specs⟩

/-- In every run in which each `sys_super_add` passes a word within `S`, every process has its capabilities within `S`.
    -/
theorem capabilities_within_of_adds_within (S : U32) (k : Kernel) (ops : List (Nat × KernelOp))
    (hk : CapsWithin S k) (hops : Guarded step (AddsWithin S) k ops) :
    ∀ p, (run step k ops).procs.Has p → Within p.capabilities S :=
  (hops.invariant (fun _ _ hk hop => hk.step hop) hk).procs

def execOnly : Kernel := { procs := (registerNew {} none fun n => { pid := n, euid := 7, capabilities := capExec }).2 }

def startWith (caps : U64) : List (Nat × KernelOp) :=
  [(1, .superCreate (.str [115])), (1, .superAdd 0 (.str [47, 97]) 0 caps),
    (1, .superStart 0 ⟨0, fun _ => none, fun _ => true⟩)]

theorem capsWithin_execOnly : CapsWithin capExec execOnly := by
  constructor
  · intro p hp
    have hall : ∀ slot ∈ execOnly.procs.procTable, ∀ q ∈ slot, Within q.capabilities capExec := by decide
    exact hall _ hp p rfl
  · intro sv hsv ch hch hused
    have hnone : ∀ sv ∈ execOnly.supervisors, ∀ ch ∈ sv.children, ch.used = false := by decide
    simp [hnone sv hsv ch hch] at hused

theorem execOnly_startWith_within : Guarded step (AddsWithin capExec) execOnly (startWith 0x20) ∧
    ∀ p, (run step execOnly (startWith 0x20)).procs.Has p → Within p.capabilities capExec := by
  have hops : Guarded step (AddsWithin capExec) execOnly (startWith 0x20) :=
    ⟨trivial, (by decide : Within _ _), trivial, trivial⟩
  exact ⟨hops, capabilities_within_of_adds_within capExec execOnly _ capsWithin_execOnly hops⟩

/-- With all capability bits in the spec, the supervised process gets bits that no process had. -/
theorem execOnly_startWith_all_amplifies : CapsWithin capExec execOnly ∧
    ∃ p, (run step execOnly (startWith 0x1FFF)).procs.Has p ∧ ¬Within p.capabilities capExec :=
  ⟨capsWithin_execOnly, { pid := 2, parentPid := 1, euid := 7, capabilities := capAll, daemon := true }, by decide,
    by decide⟩

end Limnx
