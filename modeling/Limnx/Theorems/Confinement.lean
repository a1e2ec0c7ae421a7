import Limnx.Lib.BitWord
import Limnx.Theorems.Registry
import Limnx.Theorems.Seccomp

/-! What a new process or image keeps of the restrictions. -/

namespace Limnx
open BitWord ProcTable
variable {arch : Arch} {p q r c : Process} {t t' : ProcTable} {fault : Option Fault}

/-- A limit that is set stays set and is not raised. -/
def LimitKept {w : Nat} (old new : BitVec w) : Prop := old ≠ 0 → new ≠ 0 ∧ new ≤ old

theorem LimitKept.refl {w : Nat} (a : BitVec w) : LimitKept a a := fun h => ⟨h, BitVec.le_refl a⟩

theorem LimitKept.trans {w : Nat} {a b c : BitVec w} (hab : LimitKept a b) (hbc : LimitKept b c) : LimitKept a c :=
  fun ha => ⟨(hbc (hab ha).1).1, BitVec.le_trans (hbc (hab ha).1).2 (hab ha).2⟩

theorem limitKept_zero_iff {w : Nat} {a : BitVec w} : LimitKept a 0 ↔ a = 0 :=
  ⟨fun h => by_contra fun ha => (h ha).1 rfl, fun ha hne => absurd ha hne⟩

/-- `c` is confined at least as much as `p`. -/
structure Confined (arch : Arch) (p c : Process) : Prop where
  refused : ∀ n < 128, Refused arch p n → Refused arch c n
  nsId_eq : c.nsId = p.nsId
  caps : Within c.capabilities p.capabilities
  memPages : LimitKept p.rlimitMemPages c.rlimitMemPages
  cpuTicks : LimitKept p.rlimitCpuTicks c.rlimitCpuTicks
  nfds : LimitKept p.rlimitNfds c.rlimitNfds

namespace Confined

theorem refl (p : Process) : Confined arch p p where
  refused _ _ h := h
  nsId_eq := rfl
  caps := Within.refl _
  memPages := LimitKept.refl _
  cpuTicks := LimitKept.refl _
  nfds := LimitKept.refl _

theorem trans (hpq : Confined arch p q) (hqr : Confined arch q r) : Confined arch p r where
  refused n hn h := hqr.refused n hn (hpq.refused n hn h)
  nsId_eq := hqr.nsId_eq.trans hpq.nsId_eq
  caps := hqr.caps.trans hpq.caps
  memPages := hpq.memPages.trans hqr.memPages
  cpuTicks := hpq.cpuTicks.trans hqr.cpuTicks
  nfds := hpq.nfds.trans hqr.nfds

end Confined

/-- A registry in which no two processes share a number, as every run of the system leaves it
    (`valid_step`). -/
def Registry := { t : ProcTable // t.Valid }

inductive Creation
  | fork (flags : U64) (quota : Bool) (fault : Option Fault)
  | exec (token : Bool) (file : Option ExecFile) (fault : Option Fault)
  | execve (token : Bool) (file : Option ExecFile) (fault : Option Fault)

def Creation.run (t : ProcTable) (p : Process) : Creation → Except Int Process × ProcTable
  | .fork flags quota fault => sysFork t p flags quota fault
  | .exec token file fault => sysExec t p token file fault
  | .execve token file fault => sysExecve t p token file fault

def Unlimited (p : Process) : Prop := p.rlimitMemPages = 0 ∧ p.rlimitCpuTicks = 0 ∧ p.rlimitNfds = 0

/-- The path keeps what confines the caller: a plain fork keeps everything, the others only where the caller
    has nothing of what they drop. -/
def Inherits (arch : Arch) (p : Process) : Creation → Prop
  | .fork flags _ _ => flags &&& cloneVm ≠ 0 → flags &&& cloneVfork ≠ 0 → Unfiltered arch p ∧ Unlimited p
  | .exec _ _ _ => Unfiltered arch p ∧ Unlimited p ∧ p.nsId = 0
  | .execve _ _ _ => Unfiltered arch p

theorem refused_kept_iff (hc : ¬Filtered c) : (∀ n < 128, Refused arch p n → Refused arch c n) ↔ Unfiltered arch p := by
  rw [unfiltered_iff]
  refine forall₂_congr fun n _ => imp_congr_right fun _ => ?_
  simp [refused_iff, allows_of_not_filtered hc]

theorem confined_forkedChild (pid : Nat) : Confined arch p (forkedChild p pid) where
  refused _ _ h := by simpa [refused_iff, seccompAllows, forkedChild] using h
  nsId_eq := rfl
  caps := Within.refl _
  memPages := LimitKept.refl _
  cpuTicks := LimitKept.refl _
  nfds := LimitKept.refl _

theorem confined_iff_of_open (hf : ¬Filtered c) (hl : Unlimited c) (hcaps : c.capabilities = p.capabilities) :
    Confined arch p c ↔ Unfiltered arch p ∧ Unlimited p ∧ c.nsId = p.nsId := by
  obtain ⟨hm, ht, hn⟩ := hl
  constructor
  · intro h
    refine ⟨(refused_kept_iff hf).mp h.refused, ⟨?_, ?_, ?_⟩, h.nsId_eq⟩
    · exact limitKept_zero_iff.mp (hm ▸ h.memPages)
    · exact limitKept_zero_iff.mp (ht ▸ h.cpuTicks)
    · exact limitKept_zero_iff.mp (hn ▸ h.nfds)
  · rintro ⟨ho, ⟨hm', ht', hn'⟩, hns⟩
    refine ⟨(refused_kept_iff hf).mpr ho, hns, hcaps ▸ Within.refl _, ?_, ?_, ?_⟩
    · exact hm ▸ limitKept_zero_iff.mpr hm'
    · exact ht ▸ limitKept_zero_iff.mpr ht'
    · exact hn ▸ limitKept_zero_iff.mpr hn'

theorem confined_vforkedChild_iff (pid : Nat) :
    Confined arch p (vforkedChild p pid) ↔ Unfiltered arch p ∧ Unlimited p := by
  have hf : ¬Filtered (vforkedChild p pid) := by simp [Filtered, vforkedChild]
  have hl : Unlimited (vforkedChild p pid) := ⟨rfl, rfl, rfl⟩
  have hcaps : (vforkedChild p pid).capabilities = p.capabilities := rfl
  rw [confined_iff_of_open hf hl hcaps]
  simp [vforkedChild]

theorem elfProcess_of_lookup (h : processLookup t p.pid = some p) (pid : Nat) :
    (elfProcess t (some p) pid).capabilities = p.capabilities ∧ ¬Filtered (elfProcess t (some p) pid) ∧
      Unlimited (elfProcess t (some p) pid) ∧ (elfProcess t (some p) pid).nsId = 0 := by
  simp [elfProcess, h, Filtered, Unlimited]

theorem applySetid_eq (file : ExecFile) (p : Process) : ∃ euid suid egid sgid,
    applySetid file p = { p with euid := euid, suid := suid, egid := egid, sgid := sgid } := by
  unfold applySetid
  split <;> split <;> exact ⟨_, _, _, _, rfl⟩

theorem confined_applySetid_iff (file : ExecFile) (c : Process) :
    Confined arch p (applySetid file c) ↔ Confined arch p c := by
  obtain ⟨euid, suid, egid, sgid, heq⟩ := applySetid_eq file c
  rw [heq]
  constructor <;> rintro ⟨hr, hns, hc, hm, ht, hn⟩ <;> exact ⟨hr, hns, hc, hm, ht, hn⟩

theorem confined_elfProcess_iff (h : processLookup t p.pid = some p) (file : ExecFile) (pid : Nat) :
    Confined arch p (applySetid file (elfProcess t (some p) pid)) ↔
      Unfiltered arch p ∧ Unlimited p ∧ p.nsId = 0 := by
  obtain ⟨hcaps, hf, hl, hns⟩ := elfProcess_of_lookup h pid
  rw [confined_applySetid_iff, confined_iff_of_open hf hl hcaps, hns, eq_comm (a := (0 : U32))]

theorem confined_execveProcess_iff (file : ExecFile) : Confined arch p (execveProcess file p) ↔ Unfiltered arch p := by
  have hf : ¬Filtered (execveProcess file p) := by simp [Filtered, execveProcess]
  obtain ⟨euid, suid, egid, sgid, heq⟩ := applySetid_eq file { p with usedMemPages := 0 }
  constructor
  · exact fun h => (refused_kept_iff hf).mp h.refused
  · intro h
    refine ⟨(refused_kept_iff hf).mpr h, ?_, ?_, ?_, ?_, ?_⟩ <;> simp only [execveProcess, heq]
    · exact Within.refl _
    all_goals exact LimitKept.refl _

theorem registerNew_some {fill : Nat → Process} (h : registerNew t fault fill = (some c, t')) : c = fill t.nextPid := by
  obtain ⟨h, -⟩ | ⟨h, -⟩ := registerNew_cases h
  · cases h
  · exact Option.some.inj h

theorem sysFork_ok {flags : U64} {quota : Bool} (h : sysFork t p flags quota fault = (.ok c, t')) : ∃ pid,
      c = if flags &&& cloneVm ≠ 0 ∧ flags &&& cloneVfork ≠ 0 then vforkedChild p pid else forkedChild p pid := by
  simp only [sysFork] at h
  split at h
  · cases h
  refine ⟨t.nextPid, ?_⟩
  by_cases hv : flags &&& cloneVm ≠ 0 ∧ flags &&& cloneVfork ≠ 0
  · have hv' : (flags &&& cloneVm != 0 && flags &&& cloneVfork != 0) := by simpa using hv
    rw [if_pos hv', processForkVfork] at h
    rw [if_pos hv]
    split at h
    next hr =>
      cases h
      exact registerNew_some hr
    · cases h
  · have hv' : ¬(flags &&& cloneVm != 0 && flags &&& cloneVfork != 0) := by simpa using hv
    rw [if_neg hv', processFork] at h
    rw [if_neg hv]
    split at h
    next hr =>
      cases h
      exact registerNew_some hr
    · cases h

theorem sysExec_ok {token : Bool} {file : Option ExecFile} (h : sysExec t p token file fault = (.ok c, t')) :
    ∃ file pid, c = applySetid file (elfProcess t (some p) pid) := by
  simp only [sysExec] at h
  split at h
  · cases h
  split at h
  · cases h
  rename_i file
  split at h
  · cases h
  split at h
  · cases h
  split at h
  · cases h
  rename_i hr
  cases h
  simp only [processCreateFromElf] at hr
  split at hr
  · cases hr
  exact ⟨file, t.nextPid, by rw [registerNew_some hr]⟩

theorem sysExecve_ok {token : Bool} {file : Option ExecFile}
    (h : sysExecve t p token file fault = (.ok c, t')) : ∃ file, c = execveProcess file p := by
  simp only [sysExecve] at h
  split at h
  · cases h
  split at h
  · cases h
  split at h
  · cases h
  split at h <;> cases h <;> exact ⟨_, rfl⟩

theorem confined_iff_inherits {op : Creation} (hl : processLookup t p.pid = some p)
    (h : op.run t p = (.ok c, t')) : Confined arch p c ↔ Inherits arch p op := by
  cases op with
  | fork flags quota fault =>
    obtain ⟨pid, rfl⟩ := sysFork_ok h
    simp only [Inherits, ← and_imp]
    split
    next hv =>
      rw [confined_vforkedChild_iff]
      exact ⟨fun h _ => h, fun h => h hv⟩
    next hv => exact ⟨fun _ h => absurd h hv, fun _ => confined_forkedChild pid⟩
  | exec token file fault =>
    obtain ⟨file, pid, rfl⟩ := sysExec_ok h
    exact confined_elfProcess_iff hl file pid
  | execve token file fault =>
    obtain ⟨file, rfl⟩ := sysExecve_ok h
    exact confined_execveProcess_iff file

/-- `p` makes `c`, or becomes it, on a path that keeps what confines `p`. -/
def Makes (arch : Arch) (p c : Process) : Prop :=
  ∃ (t : Registry) (op : Creation) (t' : ProcTable), t.val.Has p ∧ op.run t.val p = (.ok c, t') ∧ Inherits arch p op

/-- A process that `p` makes, or becomes, is confined at least as much as `p` exactly when the path keeps what confines
    `p`; and confinement never shrinks along a chain of these. -/
theorem confinement_inherited_iff (arch : Arch) :
    (∀ (t : Registry) (p c : Process) (op : Creation) (t' : ProcTable), t.val.Has p →
        op.run t.val p = (.ok c, t') → (Confined arch p c ↔ Inherits arch p op)) ∧
      ∀ p c, Relation.ReflTransGen (Makes arch) p c → Confined arch p c := by
  have hone : ∀ (t : Registry) (p c : Process) (op : Creation) (t' : ProcTable), t.val.Has p →
      op.run t.val p = (.ok c, t') → (Confined arch p c ↔ Inherits arch p op) :=
    fun t p c op t' hp h => confined_iff_inherits (lookup_of_has t.property hp) h
  refine ⟨hone, fun p c hchain => ?_⟩
  induction hchain with
  | refl => exact Confined.refl p
  | tail _ hmk ih =>
    obtain ⟨t, op, t', hp, hrun, hin⟩ := hmk
    exact ih.trans ((hone t _ _ op t' hp hrun).mpr hin)

def sandboxed (pid : Nat) : Process :=
  { pid := pid, capabilities := capExec, seccompMask := 1, rlimitNfds := 8, nsId := 3 }

def sandboxRegistry : Registry :=
  ⟨(registerNew {} none sandboxed).2, valid_empty.registerNew fun _ => rfl⟩

theorem sandboxed_fork_confined :
    Confined .x86_64 (sandboxed 1) (forkedChild (sandboxed 1) 2) ∧
      Relation.ReflTransGen (Makes .x86_64) (sandboxed 1) (forkedChild (sandboxed 1) 2) ∧
      Confined .x86_64 (sandboxed 1) (forkedChild (sandboxed 1) 2) := by
  have hhas : sandboxRegistry.val.Has (sandboxed 1) := by decide
  have hrun : Creation.run sandboxRegistry.val (sandboxed 1) (.fork 0x11 true none) =
      (.ok (forkedChild (sandboxed 1) 2), (sysFork sandboxRegistry.val (sandboxed 1) 0x11 true none).2) := rfl
  have hin : Inherits .x86_64 (sandboxed 1) (.fork 0x11 true none) := fun h _ => absurd (by decide) h
  have hchain : Relation.ReflTransGen (Makes .x86_64) (sandboxed 1) (forkedChild (sandboxed 1) 2) :=
    .single ⟨_, _, _, hhas, hrun, hin⟩
  exact ⟨((confinement_inherited_iff .x86_64).1 sandboxRegistry _ _ _ _ hhas hrun).mpr hin, hchain,
    (confinement_inherited_iff .x86_64).2 _ _ hchain⟩

/-- `execve` clears the filter, a vfork child has no limit, and a process made by `sys_exec` is in the global namespace.
    -/
theorem sandboxed_escapes :
    (∃ c t', sysExecve sandboxRegistry.val (sandboxed 1) false (some ⟨1, 0, 0⟩) none = (.ok c, t') ∧
        Refused .x86_64 (sandboxed 1) 2 ∧ ¬Refused .x86_64 c 2) ∧
      (∃ c t', sysFork sandboxRegistry.val (sandboxed 1) 0x4100 true none = (.ok c, t') ∧ c.rlimitNfds = 0) ∧
      ∃ c t', sysExec sandboxRegistry.val (sandboxed 1) false (some ⟨1, 0, 0⟩) none = (.ok c, t') ∧ c.nsId = 0 := by
  refine ⟨⟨_, _, rfl, ⟨false, by decide⟩, ?_⟩, ⟨_, _, rfl, by decide⟩, ⟨_, _, rfl, by decide⟩⟩
  rw [refused_iff]
  decide

end Limnx
