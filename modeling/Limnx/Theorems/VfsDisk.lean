import Limnx.Vfs
import Limnx.Theorems.LfsReboot

/-! A call of the VFS makes at most one call of LimnFS (`VfsOp.lfsOp`), so that what the calls of LimnFS keep on the
    disk, the calls of the VFS keep. -/

namespace Limnx
open Function GuardedRun Bcache LfsDisk Fs LfsOp

structure VfsFs where
  vfs : Vfs
  fs : Fs

namespace VfsFs
variable {ρ ω : Bool} {α β : Type} {s : VfsFs}

def call (s : VfsFs) (p : VfsM ρ ω α) : α × VfsFs :=
  let r := exec (p.run s.vfs) s.fs
  (r.1.1, ⟨r.1.2, r.2⟩)

@[simp] theorem call_pure (a : α) : s.call (pure a : VfsM ρ ω α) = (a, s) := rfl

theorem call_bind (p : VfsM ρ ω α) (f : α → VfsM ρ ω β) : s.call (p >>= f) = (s.call p).2.call (f (s.call p).1) := by
  simp only [call, StateT.run_bind, exec_bind]

@[simp] theorem call_get_bind (f : Vfs → VfsM ρ ω β) : s.call (get >>= f) = s.call (f s.vfs) := call_bind get f

@[simp] theorem call_set_bind (v : Vfs) (f : PUnit → VfsM ρ ω β) :
    s.call (set v >>= f) = (VfsFs.mk v s.fs).call (f ⟨⟩) := call_bind (set v) f

theorem call_onLfs (p : LfsM ρ ω α) : s.call (onLfs p) = ((exec p s.fs).1, ⟨s.vfs, (exec p s.fs).2⟩) := by
  simp only [call, onLfs, StateT.run_lift, exec_bind, exec_pure]

@[simp] theorem call_onLfs_bind (p : LfsM ρ ω α) (f : α → VfsM ρ ω β) :
    s.call (onLfs p >>= f) = (VfsFs.mk s.vfs (exec p s.fs).2).call (f (exec p s.fs).1) := by
  rw [call_bind, call_onLfs]

@[simp] theorem registerWith_fs (parent : Nat) (name : CStr) (type : NodeType) (size : Nat) (data : Memory)
    (f : VfsNode → VfsNode) : (s.call (registerWith parent name type size data f : VfsM ρ ω _)).2.fs = s.fs := by
  unfold registerWith
  rw [call_get_bind]
  cases s.vfs.registerNode parent name type size data with
  | none => rfl
  | some r => rfl

end VfsFs

inductive VfsOp where
  | create (path : CStr) (buf : Memory)
  | mkdir (path : CStr)
  | write (node offset : Nat) (src : Buf) (len : Nat) (buf : Memory)
  | truncate (node newSize : Nat) (buf : Memory)
  | delete (path : CStr)

def VfsOp.prog : VfsOp → VfsW VfsResult
  | .create path buf => vfsCreate path buf
  | .mkdir path => vfsMkdir path
  | .write i offset src len buf => vfsWrite i offset src len buf
  | .truncate i n buf => vfsTruncateNode i n buf
  | .delete path => vfsDelete path

def VfsFs.step (s : VfsFs) (op : VfsOp) : VfsFs := (s.call op.prog).2

def VfsOp.lfsOp (v : Vfs) (mounted : Bool) : VfsOp → Option LfsOp
  | .create path _ =>
    match v.newEntry path with
    | .error _ => none
    | .ok (parent, base) => if mounted then some (.createFile ((v.nodes parent).diskInode.getD 0) base) else none
  | .mkdir path =>
    match v.newEntry path with
    | .error _ => none
    | .ok (parent, base) => if mounted then some (.createDir ((v.nodes parent).diskInode.getD 0) base) else none
  | .write i offset src len _ =>
    if v.nodeCount ≤ i then none
    else if !(v.nodes i).used then none
    else if !(v.nodes i).writable then none
    else if vfsMaxFileSize < u64 (offset + len) then none
    else (v.nodes i).diskInode.map fun ino => .writeData ino offset src len
  | .truncate i n _ =>
    if v.nodeCount ≤ i then none
    else if !(v.nodes i).used then none
    else if (v.nodes i).type ≠ .file then none
    else if !(v.nodes i).writable then none
    else if vfsMaxFileSize < n then none
    else (v.nodes i).diskInode.map fun ino => .truncate ino n
  | .delete path =>
    match v.resolvePath path with
    | .error _ => none
    | .ok i =>
      if i = 0 then none
      else if (v.nodes i).type = .directory ∧ v.hasChildren i then none
      else if (v.nodes i).diskInode.isSome then
        some (.delete (match (v.nodes i).parent with
          | some p => (v.nodes p).diskInode.getD 0
          | none => 0) (v.nodes i).name)
      else none

def Fs.stepOpt (σ : Fs) : Option LfsOp → Fs
  | none => σ
  | some op => σ.step op

section Calls
variable {s : VfsFs}

theorem call_ite_fs {c : Prop} [Decidable c] {α : Type} {p q : VfsW α} {a b : Option LfsOp}
    (hp : c → (s.call p).2.fs = s.fs.stepOpt a) (hq : ¬c → (s.call q).2.fs = s.fs.stepOpt b) :
    (s.call (if c then p else q)).2.fs = s.fs.stepOpt (if c then a else b) := by
  split
  · exact hp ‹_›
  · exact hq ‹_›

theorem create_fs (path : CStr) (buf : Memory) :
    (s.call (VfsOp.create path buf).prog).2.fs = s.fs.stepOpt ((VfsOp.create path buf).lfsOp s.vfs s.fs.lfs.mounted) := by
  simp only [VfsOp.prog, vfsCreate, VfsFs.call_get_bind, VfsOp.lfsOp]
  cases s.vfs.newEntry path with
  | error e => rfl
  | ok r =>
    obtain ⟨parent, base⟩ := r
    refine call_ite_fs (fun _ => ?_) fun _ => ?_
    · simp only [VfsFs.call_onLfs_bind, stepOpt, Fs.step, prog, exec_discard]
      cases (exec (limnfsCreateFile ((s.vfs.nodes parent).diskInode.getD 0) base : LfsW _) s.fs).1 with
      | none => rfl
      | some ino => exact VfsFs.registerWith_fs ..
    · cases buf with
      | none => rfl
      | some m => exact VfsFs.registerWith_fs ..

theorem mkdir_fs (path : CStr) :
    (s.call (VfsOp.mkdir path).prog).2.fs = s.fs.stepOpt ((VfsOp.mkdir path).lfsOp s.vfs s.fs.lfs.mounted) := by
  simp only [VfsOp.prog, vfsMkdir, VfsFs.call_get_bind, VfsOp.lfsOp]
  cases s.vfs.newEntry path with
  | error e => rfl
  | ok r =>
    obtain ⟨parent, base⟩ := r
    refine call_ite_fs (fun _ => ?_) fun _ => VfsFs.registerWith_fs ..
    simp only [VfsFs.call_onLfs_bind, stepOpt, Fs.step, prog, exec_discard]
    cases (exec (limnfsCreateDir ((s.vfs.nodes parent).diskInode.getD 0) base : LfsW _) s.fs).1 with
    | none => rfl
    | some ino => exact VfsFs.registerWith_fs ..

theorem write_fs (i offset : Nat) (src : Buf) (len : Nat) (buf : Memory) :
    (s.call (VfsOp.write i offset src len buf).prog).2.fs =
      s.fs.stepOpt ((VfsOp.write i offset src len buf).lfsOp s.vfs s.fs.lfs.mounted) := by
  refine call_ite_fs (fun _ => rfl) fun _ => call_ite_fs (fun _ => rfl) fun _ => ?_
  refine call_ite_fs (fun _ => rfl) fun _ => call_ite_fs (fun _ => rfl) fun _ => ?_
  cases (s.vfs.nodes i).diskInode with
  | none =>
    cases (s.vfs.nodes i).grow (u64 (offset + len)) buf with
    | none => rfl
    | some n => rfl
  | some ino =>
    simp only [VfsFs.call_onLfs_bind, Option.map_some, stepOpt, Fs.step, prog, exec_discard]
    cases (exec (limnfsWriteData ino offset src len : LfsW _) s.fs).1 with
    | none => rfl
    | some w =>
      dsimp only
      split <;> rfl

theorem truncate_fs (i n : Nat) (buf : Memory) :
    (s.call (VfsOp.truncate i n buf).prog).2.fs =
      s.fs.stepOpt ((VfsOp.truncate i n buf).lfsOp s.vfs s.fs.lfs.mounted) := by
  refine call_ite_fs (fun _ => rfl) fun _ => call_ite_fs (fun _ => rfl) fun _ => call_ite_fs (fun _ => rfl) fun _ => ?_
  refine call_ite_fs (fun _ => rfl) fun _ => call_ite_fs (fun _ => rfl) fun _ => ?_
  cases (s.vfs.nodes i).diskInode with
  | none =>
    cases (s.vfs.nodes i).grow n buf with
    | none => rfl
    | some n => rfl
  | some ino =>
    simp only [VfsFs.call_onLfs_bind, Option.map_some, stepOpt, Fs.step, prog, exec_discard]
    cases (exec (limnfsTruncate ino n : LfsW _) s.fs).1 with
    | false => rfl
    | true => rfl

theorem delete_fs (path : CStr) :
    (s.call (VfsOp.delete path).prog).2.fs = s.fs.stepOpt ((VfsOp.delete path).lfsOp s.vfs s.fs.lfs.mounted) := by
  simp only [VfsOp.prog, vfsDelete, VfsFs.call_get_bind, VfsOp.lfsOp]
  cases s.vfs.resolvePath path with
  | error e => rfl
  | ok i =>
    refine call_ite_fs (fun _ => rfl) fun _ => call_ite_fs (fun _ => rfl) fun _ => call_ite_fs (fun _ => ?_) fun _ => rfl
    simp only [VfsFs.call_onLfs_bind, stepOpt, Fs.step, prog, exec_discard]
    rfl

theorem call_fs (op : VfsOp) : (s.call op.prog).2.fs = s.fs.stepOpt (op.lfsOp s.vfs s.fs.lfs.mounted) := by
  cases op with
  | create path buf => exact create_fs path buf
  | mkdir path => exact mkdir_fs path
  | write i offset src len buf => exact write_fs i offset src len buf
  | truncate i n buf => exact truncate_fs i n buf
  | delete path => exact delete_fs path

end Calls

/-! ### Over the cache -/

structure VfsDisk where
  vfs : Vfs
  disk : LfsDisk

namespace VfsDisk
variable {s : VfsDisk}
attribute [local irreducible] init flush

def plain (s : VfsDisk) : VfsFs := ⟨s.vfs, s.disk.fs⟩

theorem plain_mem (s : VfsDisk) : s.plain.fs.mem = s.disk.cache.view := rfl

def step (s : VfsDisk) (op : VfsOp) : VfsDisk :=
  let r := s.disk.run (op.prog.run s.vfs)
  ⟨r.1.2, r.2⟩

theorem step_plain (h : s.disk.cache.Good) (op : VfsOp) :
    (s.step op).disk.cache.Good ∧ (s.step op).plain = s.plain.step op := by
  obtain ⟨hval, hfs, hgood⟩ := run_exec (op.prog.run s.vfs) h
  refine ⟨hgood, ?_⟩
  show VfsFs.mk (s.disk.run (op.prog.run s.vfs)).1.2 (s.disk.run (op.prog.run s.vfs)).2.fs = _
  rw [hval, hfs]
  rfl

theorem run_step_plain (h : s.disk.cache.Good) (ops : List VfsOp) :
    (run step s ops).disk.cache.Good ∧ (run step s ops).plain = run VfsFs.step s.plain ops := by
  induction ops generalizing s with
  | nil => exact ⟨h, rfl⟩
  | cons op ops ih =>
    obtain ⟨hgood, hplain⟩ := step_plain h op
    rw [run_cons, run_cons, ← hplain]
    exact ih hgood

/-- The state that boot-time `limnfs_sync` finds: LimnFS is mounted and sound. -/
structure Booted (s : VfsDisk) : Prop where
  cache : s.disk.cache.Good
  sound : FsSound s.disk.fs
  header : Header s.disk.lfs
  mounted : s.disk.lfs.mounted = true

def sync (s : VfsDisk) : VfsDisk := ⟨s.vfs, (s.disk.run (limnfsSync : LfsW Unit)).2⟩

/-- The flusher runs to its end, memory is lost, and the disk is mounted; `lfs` is what memory holds then. -/
def reboot (s : VfsDisk) (lfs : Lfs) : Bool × LfsDisk :=
  (LfsDisk.mk lfs (init (flush s.disk.cache))).run (limnfsMount true : LfsM false false Bool)

/-- What the call does to LimnFS meets its condition there (`LfsOp.Persists`). -/
def Persists (s : VfsDisk) (op : VfsOp) : Prop :=
  ∀ lop, op.lfsOp s.vfs s.disk.lfs.mounted = some lop → lop.Persists s.disk.fs

theorem guarded_plain (h : s.disk.cache.Good) {ops : List VfsOp}
    (hops : Guarded VfsFs.step (fun t op => ∀ lop, op.lfsOp t.vfs t.fs.lfs.mounted = some lop → lop.Persists t.fs)
      s.plain ops) : Guarded step Persists s ops := by
  induction ops generalizing s with
  | nil => trivial
  | cons op ops ih =>
    obtain ⟨hgood, hplain⟩ := step_plain h op
    exact ⟨hops.1, ih hgood (hplain ▸ hops.2)⟩

theorem sync_plain (h : s.disk.cache.Good) : s.sync.disk.cache.Good ∧
    s.sync.plain = ⟨s.vfs, (exec (limnfsSync : LfsW Unit) s.disk.fs).2⟩ := by
  obtain ⟨-, hfs, hgood⟩ := run_exec (limnfsSync : LfsW Unit) h
  exact ⟨hgood, congrArg (VfsFs.mk s.vfs) hfs⟩

theorem sync_persistent (hs : s.Booted) :
    s.sync.disk.cache.Good ∧ Persistent s.sync.disk.fs s.disk.lfs.blockBitmap s.disk.lfs.super.freeBlocks := by
  obtain ⟨hgood, hplain⟩ := sync_plain hs.cache
  have hfs : s.sync.disk.fs = (exec (limnfsSync : LfsW Unit) s.disk.fs).2 := congrArg VfsFs.fs hplain
  refine ⟨hgood, ?_⟩
  rw [hfs, exec_sync hs.mounted]
  exact .sync hs.sound hs.header

theorem persistent_step {bm : Buf} {free : Nat} (hgood : s.disk.cache.Good)
    (h : Persistent s.disk.fs bm free) {op : VfsOp} (hop : s.Persists op) :
    (s.step op).disk.cache.Good ∧ Persistent (s.step op).disk.fs bm free := by
  obtain ⟨hgood', hplain⟩ := step_plain hgood op
  have hfs : (s.step op).disk.fs = s.disk.fs.stepOpt (op.lfsOp s.vfs s.disk.fs.lfs.mounted) :=
    (congrArg VfsFs.fs hplain).trans (call_fs op)
  refine ⟨hgood', ?_⟩
  rw [hfs]
  cases hl : op.lfsOp s.vfs s.disk.fs.lfs.mounted with
  | none => exact h
  | some lop => exact h.step (hop lop hl)

theorem reboot_plain (h : s.disk.cache.Good) (lfs : Lfs) :
    (s.reboot lfs).1 = (exec (limnfsMount true : LfsM false false Bool) ⟨lfs, s.disk.cache.view⟩).1 ∧
      (s.reboot lfs).2.fs = (exec (limnfsMount true : LfsM false false Bool) ⟨lfs, s.disk.cache.view⟩).2 := by
  obtain ⟨hflush, -, hdisk⟩ := h.flush
  have hinit := init_refines (flush s.disk.cache) hflush.sure
  obtain ⟨hval, hfs, -⟩ := run_exec (s := ⟨lfs, init (flush s.disk.cache)⟩)
    (limnfsMount true : LfsM false false Bool) hinit.good
  have hview : (LfsDisk.mk lfs (init (flush s.disk.cache))).fs = ⟨lfs, s.disk.cache.view⟩ := by
    rw [fs, hinit.view, hdisk]
  rw [hview] at hval hfs
  exact ⟨hval, hfs⟩

end VfsDisk

/-- After a sync and a run of calls that last, a reboot finds every block in use marked as used. -/
theorem reboot_marked (s : VfsDisk) (hs : s.Booted) (ops : List VfsOp)
    (hops : Guarded VfsDisk.step VfsDisk.Persists s.sync ops) (lfs : Lfs) :
    ((run VfsDisk.step s.sync ops).reboot lfs).1 = true ∧ ((run VfsDisk.step s.sync ops).reboot lfs).2.fs.Marked := by
  have hstep : ∀ t : VfsDisk, ∀ op : VfsOp,
      t.disk.cache.Good ∧ Persistent t.disk.fs s.disk.lfs.blockBitmap s.disk.lfs.super.freeBlocks → t.Persists op →
      (t.step op).disk.cache.Good ∧ Persistent (t.step op).disk.fs s.disk.lfs.blockBitmap s.disk.lfs.super.freeBlocks :=
    fun t op ht hop => VfsDisk.persistent_step ht.1 ht.2 hop
  have hend := hops.invariant hstep (VfsDisk.sync_persistent hs)
  obtain ⟨hval, hfs⟩ := VfsDisk.reboot_plain hend.1 lfs
  rw [hval, hfs]
  exact hend.2.mount lfs

def VfsDisk.fresh : VfsDisk := ⟨Vfs.init, boot.format 100⟩

theorem VfsDisk.fresh_plain : VfsDisk.fresh.disk.cache.Good ∧ VfsDisk.fresh.disk.fs = boot 100 := boot_format 100

def lossyOps : List VfsOp := [.create [47, 97] none, .write 1 0 (fun _ => 7) 1 none]

def lossyEnd : VfsFs :=
  run VfsFs.step ⟨Vfs.init, (exec (limnfsSync : LfsW Unit) (boot 100)).2⟩ lossyOps

/-- Block 36 holds the byte, and the bitmap that is mounted says it is free. -/
theorem lossyOps_unmarked : ¬((run VfsDisk.step VfsDisk.fresh.sync lossyOps).reboot {}).2.fs.Marked := by
  obtain ⟨hgood, hfs⟩ := VfsDisk.fresh_plain
  obtain ⟨hgood', hsync⟩ := VfsDisk.sync_plain hgood
  obtain ⟨hgood'', hrun⟩ := VfsDisk.run_step_plain hgood' lossyOps
  rw [hsync, hfs, VfsDisk.fresh] at hrun
  have hend : (run VfsDisk.step VfsDisk.fresh.sync lossyOps).plain = lossyEnd := hrun
  rw [(VfsDisk.reboot_plain hgood'' {}).2, ← VfsDisk.plain_mem, hend]
  intro h
  have hbit := h.marked 36 (references_ne_zero (.direct 0) (show 1 < maxInodes by decide) (by decide +kernel)
    (by decide +kernel) (by decide))
  exact absurd hbit (by decide +kernel)

def keptOps : List VfsOp := [.write 1 0 (fun _ => 9) 1 none, .create [47, 98] none, .truncate 1 0 none]

theorem VfsFs.sound_step {t : VfsFs} (h : FsSound t.fs) {op : VfsOp} {lop : LfsOp}
    (hop : op.lfsOp t.vfs t.fs.lfs.mounted = some lop) (hsafe : lop.Safe t.fs) : FsSound (t.step op).fs := by
  rw [VfsFs.step, call_fs, hop]
  exact h.step hsafe

def keptStart : VfsFs := run VfsFs.step ⟨Vfs.init, boot 100⟩ lossyOps

theorem keptStart_sound : FsSound keptStart.fs := by
  have hboot : FsSound (boot 100) := .format (by decide) (by decide) rfl
  have hcreate : FsSound (VfsFs.step ⟨Vfs.init, boot 100⟩ (.create [47, 97] none)).fs :=
    VfsFs.sound_step hboot (show _ = some (.createFile 0 [97]) by rfl) fun h => absurd h.2.2 (by decide +kernel)
  exact VfsFs.sound_step hcreate (show _ = some (.writeData 1 0 (fun _ => 7) 1) by rfl)
    ⟨fun _ => by decide +kernel, by decide⟩

theorem fresh_lossy_plain : (run VfsDisk.step VfsDisk.fresh lossyOps).disk.cache.Good ∧
    (run VfsDisk.step VfsDisk.fresh lossyOps).plain = keptStart := by
  obtain ⟨hgood, hfs⟩ := VfsDisk.fresh_plain
  obtain ⟨hgood', hrun⟩ := VfsDisk.run_step_plain hgood lossyOps
  have hplain : VfsDisk.fresh.plain = ⟨Vfs.init, boot 100⟩ := by rw [VfsDisk.plain, hfs, VfsDisk.fresh]
  exact ⟨hgood', by rw [hrun, hplain, keptStart]⟩

theorem lossy_booted : (run VfsDisk.step VfsDisk.fresh lossyOps).Booted := by
  obtain ⟨hgood, hplain⟩ := fresh_lossy_plain
  generalize run VfsDisk.step VfsDisk.fresh lossyOps = s at hgood hplain
  have hfs : s.disk.fs = keptStart.fs := congrArg VfsFs.fs hplain
  have hlfs : s.disk.lfs = keptStart.fs.lfs := congrArg Fs.lfs hfs
  refine ⟨hgood, hfs ▸ keptStart_sound, ?_, ?_⟩
  · rw [hlfs]
    exact ⟨by decide +kernel, by decide +kernel, by decide +kernel, by constructor <;> decide +kernel⟩
  · rw [hlfs]
    decide +kernel

theorem keptOps_marked :
    ((run VfsDisk.step (run VfsDisk.step VfsDisk.fresh lossyOps).sync keptOps).reboot {}).2.fs.Marked := by
  refine (reboot_marked _ lossy_booted keptOps ?_ {}).2
  obtain ⟨hgood, hplain⟩ := fresh_lossy_plain
  generalize run VfsDisk.step VfsDisk.fresh lossyOps = s at hgood hplain
  obtain ⟨hgood', hsync⟩ := VfsDisk.sync_plain hgood
  have hfs : s.disk.fs = keptStart.fs := congrArg VfsFs.fs hplain
  have hvfs : s.vfs = keptStart.vfs := congrArg VfsFs.vfs hplain
  refine VfsDisk.guarded_plain hgood' ?_
  rw [hsync, hfs, hvfs]
  refine ⟨fun lop h => ?_, fun lop h => ?_, fun lop h => ?_, trivial⟩
  · obtain rfl : writeData 1 0 (fun _ => 9) 1 = lop := Option.some.inj h
    refine ⟨fun _ => by decide +kernel, by decide, fun l _ hl => ?_⟩
    obtain rfl : l = 0 := by
      simp only [blockSize] at hl
      omega
    decide +kernel
  · obtain rfl : createFile 0 [98] = lop := Option.some.inj h
    exact ⟨by decide +kernel, fun _ => by decide +kernel, fun _ _ => .inr (by decide +kernel)⟩
  · obtain rfl : truncate 1 0 = lop := Option.some.inj h
    trivial

end Limnx
