import Limnx.Theorems.LfsDirs
import Limnx.Theorems.LfsFormat
import Limnx.Theorems.CacheRefinement

/-! Each block in use has one owner, over whole runs. -/

namespace Limnx
open Function GuardedRun Multiset Finset Fs

structure LfsDisk where
  lfs : Lfs
  cache : Bcache

variable {s : LfsDisk}

namespace LfsDisk

def run {ρ ω : Bool} {α : Type} (p : LfsM ρ ω α) (s : LfsDisk) : α × LfsDisk :=
  let r := BlockProg.run bcacheHandler (p.run s.lfs) s.cache
  (r.1.1, ⟨r.1.2, r.2⟩)

def fs (s : LfsDisk) : Fs := ⟨s.lfs, s.cache.view⟩

theorem run_exec {ω : Bool} {α : Type} (p : LfsM false ω α) (h : s.cache.Good) :
    (s.run p).1 = (exec p s.fs).1 ∧ (s.run p).2.fs = (exec p s.fs).2 ∧ (s.run p).2.cache.Good := by
  obtain ⟨hval, hview, hgood⟩ := BlockProg.run_view Bcache.bcacheHandler_lawful (p.run s.lfs) h
  refine ⟨congrArg Prod.fst hval, ?_, hgood⟩
  show Fs.mk _ _ = Fs.mk _ _
  congr 1
  exact congrArg Prod.snd hval

end LfsDisk

def Fs.references (σ : Fs) (b : Nat) : Nat :=
  ∑ ino ∈ (Finset.range maxInodes).filter (fun ino => Bitmap.get σ.lfs.inodeBitmap ino = true),
    ((σ.inodeAt ino).tree σ.mem).count b

/-- The block bitmap is exact, and so are the counters of the superblock. -/
structure Fs.Exact (σ : Fs) : Prop where
  once : ∀ b, σ.lfs.super.dataStart ≤ b → b < σ.lfs.super.totalBlocks → Bitmap.get σ.lfs.blockBitmap b = true →
    σ.references b = 1
  marked : ∀ b, σ.references b ≠ 0 →
    σ.lfs.super.dataStart ≤ b ∧ b < σ.lfs.super.totalBlocks ∧ Bitmap.get σ.lfs.blockBitmap b = true
  freeBlocks : σ.lfs.super.freeBlocks =
    ((Finset.Ico σ.lfs.super.dataStart σ.lfs.super.totalBlocks).filter fun b => Bitmap.get σ.lfs.blockBitmap b = false).card
  freeInodes : σ.lfs.super.freeInodes = σ.lfs.clearInodes.card

section Exact
attribute [local irreducible] maxInodes
variable {σ : Fs}

theorem Fs.references_ne_zero {ino b : Nat} (s : Slot) (hino : ino < maxInodes)
    (hbit : Bitmap.get σ.lfs.inodeBitmap ino) (hroot : (σ.inodeAt ino).root s = b) (hb : b ≠ 0) :
    σ.references b ≠ 0 := by
  have hcount : 0 < ((σ.inodeAt ino).tree σ.mem).count b := by
    rw [← hroot]
    exact count_pos.mpr (Inode.root_mem_tree (by rwa [hroot]))
  have hmem : ino ∈ (Finset.range maxInodes).filter (fun ino => Bitmap.get σ.lfs.inodeBitmap ino) :=
    mem_filter.mpr ⟨mem_range.mpr hino, hbit⟩
  have hle := single_le_sum (f := fun ino => ((σ.inodeAt ino).tree σ.mem).count b) (fun _ _ => Nat.zero_le _) hmem
  exact Nat.ne_of_gt (hcount.trans_le hle)

theorem FsSound.references_eq (hs : FsSound σ) (b : Nat) : σ.references b = σ.forest.count b := by
  rw [forest, count_sum', references, sum_filter]
  refine sum_congr rfl fun ino hino => ?_
  split
  · rfl
  rename_i hbit
  have hclear : ino ∈ σ.lfs.clearInodes := mem_filter.mpr ⟨hino, Bool.eq_false_iff.mpr hbit⟩
  rw [Inode.tree_of_null (hs.unused ino hclear).1, count_zero]

theorem Owns.card_clear {s : Lfs} {B : Multiset Nat} (h : Owns s B) :
    ((Finset.Ico s.super.dataStart s.super.totalBlocks).filter fun b => Bitmap.get s.blockBitmap b = false).card =
      s.super.freeBlocks := by
  have hset : (Finset.Ico s.super.dataStart s.super.totalBlocks).filter (fun b => ¬Bitmap.get s.blockBitmap b = false) =
      B.toFinset := by
    ext b
    rw [Finset.mem_filter, Finset.mem_Ico, mem_toFinset, Bool.not_eq_false]
    constructor
    · rintro ⟨⟨h1, h2⟩, hbit⟩
      exact (h.bit b h1 h2).mp hbit
    · intro hb
      obtain ⟨h1, h2⟩ := h.inside b hb
      exact ⟨⟨h1, h2⟩, (h.bit b h1 h2).mpr hb⟩
  have hsplit := card_filter_add_card_filter_not (s := Finset.Ico s.super.dataStart s.super.totalBlocks)
    fun b => Bitmap.get s.blockBitmap b = false
  rw [hset, toFinset_card_of_nodup h.nodup, Nat.card_Ico] at hsplit
  have := h.free
  omega

theorem FsSound.exact (hs : FsSound σ) : σ.Exact where
  once b h1 h2 hbit := by
    rw [hs.references_eq]
    exact count_eq_one_of_mem hs.owns.nodup ((hs.owns.bit b h1 h2).mp hbit)
  marked b hb := by
    rw [hs.references_eq] at hb
    have hmem := count_ne_zero.mp hb
    obtain ⟨h1, h2⟩ := hs.owns.inside b hmem
    exact ⟨h1, h2, (hs.owns.bit b h1 h2).mpr hmem⟩
  freeBlocks := hs.owns.card_clear.symm
  freeInodes := hs.count

end Exact

inductive LfsOp where
  | createFile (parentIno : Nat) (name : CStr)
  | createDir (parentIno : Nat) (name : CStr)
  | writeData (ino offset : Nat) (buf : Buf) (len : Nat)
  | truncate (ino newSize : Nat)
  | dirAdd (dirIno : Nat) (name : CStr) (childIno type : Nat)
  | dirRemove (dirIno : Nat) (name : CStr)
  | delete (parentIno : Nat) (name : CStr)

def LfsOp.prog : LfsOp → LfsW Unit
  | .createFile p name => do let _ ← limnfsCreateFile p name
  | .createDir p name => do let _ ← limnfsCreateDir p name
  | .writeData ino offset buf len => do let _ ← limnfsWriteData ino offset buf len
  | .truncate ino n => do let _ ← limnfsTruncate ino n
  | .dirAdd d name c t => do let _ ← limnfsDirAdd d name c t
  | .dirRemove d name => do let _ ← limnfsDirRemove d name
  | .delete p name => do let _ ← limnfsDelete p name

def Fs.step (σ : Fs) (op : LfsOp) : Fs := (exec op.prog σ).2

/-- Data is written to allocated inodes only, within reach of their trees; a directory does not run out of blocks right
    after it got its double indirect block; and what is deleted is allocated. -/
def LfsOp.Safe (σ : Fs) : LfsOp → Prop
  | .createFile p _ | .createDir p _ | .dirAdd p _ _ _ => ¬σ.LosesRoot p
  | .writeData ino offset _ len =>
    (ino < maxInodes → Bitmap.get σ.lfs.inodeBitmap ino = true) ∧ offset + len ≤ maxFileBlocks * blockSize
  | .delete p name => ∀ c, σ.child p name = some c → c < maxInodes → Bitmap.get σ.lfs.inodeBitmap c = true
  | .truncate _ _ | .dirRemove _ _ => True

theorem Lfs.not_clear_of_bit {s : Lfs} {ino : Nat} (h : Bitmap.get s.inodeBitmap ino) : ino ∉ s.clearInodes :=
  fun hc => by
    rw [(mem_filter.mp hc).2] at h
    cases h

theorem exec_discard {ρ ω : Bool} {α : Type} (p : LfsM ρ ω α) (σ : Fs) : (exec (do let _ ← p) σ).2 = (exec p σ).2 := by
  rw [exec_bind]
  rfl

theorem FsSound.step {σ : Fs} (hs : FsSound σ) {op : LfsOp} (hsafe : op.Safe σ) : FsSound (σ.step op) := by
  rw [Fs.step]
  cases op with rw [LfsOp.prog, exec_discard]
  | createFile p name | createDir p name => exact hs.created (exec_create hs _ _ name hsafe) hsafe
  | writeData ino offset buf len => exact hs.writeData buf (fun h => Lfs.not_clear_of_bit (hsafe.1 h)) hsafe.2
  | truncate ino n => exact (exec_truncate hs.owns ino n).sound hs
  | dirAdd d name c t => exact (hs.added (exec_dirAdd hs.owns d name c t) hsafe).1
  | dirRemove d name => exact (hs.removed (exec_dirRemove σ d name)).1
  | delete p name => exact hs.deleted (exec_delete hs p name) fun c hc hlt => Lfs.not_clear_of_bit (hsafe c hc hlt)

namespace LfsDisk

def step (s : LfsDisk) (op : LfsOp) : LfsDisk := (s.run op.prog).2

def format (s : LfsDisk) (total : Nat) : LfsDisk := (s.run (limnfsFormat total true : LfsW Bool)).2

theorem step_fs (h : s.cache.Good) (op : LfsOp) : (s.step op).cache.Good ∧ (s.step op).fs = s.fs.step op := by
  obtain ⟨-, hfs, hgood⟩ := run_exec op.prog h
  exact ⟨hgood, hfs⟩

theorem run_step_fs (h : s.cache.Good) (ops : List LfsOp) :
    (GuardedRun.run step s ops).fs = GuardedRun.run Fs.step s.fs ops := by
  induction ops generalizing s with
  | nil => rfl
  | cons op ops ih =>
    obtain ⟨hgood, hfs⟩ := step_fs h op
    rw [run_cons, run_cons, ih hgood, hfs]

theorem guarded_fs (h : s.cache.Good) {ops : List LfsOp} (hops : Guarded Fs.step LfsOp.Safe s.fs ops) :
    Guarded step (fun t op => op.Safe t.fs) s ops := by
  induction ops generalizing s with
  | nil => trivial
  | cons op ops ih =>
    obtain ⟨hgood, hfs⟩ := step_fs h op
    refine ⟨hops.1, ih hgood ?_⟩
    rw [hfs]
    exact hops.2

end LfsDisk

/-- After formatting, in every run of safe steps, no block is shared, leaked or freed twice. -/
theorem blocks_owned_once (s : LfsDisk) (hcache : s.cache.Good) (hhint : s.lfs.allocHint = 0) (total : Nat)
    (hfit : total + 7 < 2 ^ 32) (hdata : 1 + bitmapRows total + 1 + inodeBlocks < total) (ops : List LfsOp)
    (hops : Guarded LfsDisk.step (fun t op => op.Safe t.fs) (s.format total) ops) :
    (run LfsDisk.step (s.format total) ops).fs.Exact := by
  obtain ⟨-, hfs, hgood⟩ := LfsDisk.run_exec (limnfsFormat total true) hcache
  have hinit : FsSound (s.format total).fs := by
    rw [LfsDisk.format, hfs]
    exact FsSound.format hfit hdata hhint
  have hinv : ∀ t : LfsDisk, ∀ op : LfsOp, t.cache.Good ∧ FsSound t.fs → op.Safe t.fs →
      (t.step op).cache.Good ∧ FsSound (t.step op).fs := fun t op ht hsafe => by
    obtain ⟨hgood, hfs⟩ := LfsDisk.step_fs ht.1 op
    rw [hfs]
    exact ⟨hgood, ht.2.step hsafe⟩
  exact (hops.invariant hinv ⟨hgood, hinit⟩).2.exact

section Boot
attribute [local irreducible] Bcache.blank

def LfsDisk.boot : LfsDisk := ⟨{}, Bcache.blank⟩

theorem LfsDisk.boot_good : LfsDisk.boot.cache.Good := Bcache.blank_refines.good

def Fs.boot (total : Nat) : Fs := (exec (limnfsFormat total true : LfsW Bool) ⟨{}, fun _ => Bytes.zero⟩).2

theorem LfsDisk.boot_format (total : Nat) : (LfsDisk.boot.format total).cache.Good ∧ (LfsDisk.boot.format total).fs = Fs.boot total := by
  obtain ⟨-, hfs, hgood⟩ := LfsDisk.run_exec (limnfsFormat total true) LfsDisk.boot_good
  refine ⟨hgood, hfs.trans ?_⟩
  have hview : LfsDisk.boot.fs = ⟨{}, fun _ => Bytes.zero⟩ := congrArg (Fs.mk {}) Bcache.blank_refines.view
  rw [hview]
  rfl

end Boot

def usualOps : List LfsOp :=
  [.createFile 0 [97], .writeData 1 0 (fun _ => 7) 5000, .truncate 1 100, .delete 0 [97]]

theorem usualOps_owned_once : (run LfsDisk.step (LfsDisk.boot.format 100) usualOps).fs.Exact := by
  refine blocks_owned_once LfsDisk.boot LfsDisk.boot_good rfl 100 (by decide) (by decide) usualOps ?_
  obtain ⟨hgood, hfs⟩ := LfsDisk.boot_format 100
  refine LfsDisk.guarded_fs hgood ?_
  rw [hfs]
  refine ⟨fun h => ?_, ⟨fun _ => by decide +kernel, by decide⟩, trivial, fun c hc _ => ?_, trivial⟩
  · exact absurd h.2.2 (by decide +kernel)
  · have hone : (run step (boot 100) (usualOps.take 3)).child 0 [97] = some 1 := by decide +kernel
    obtain rfl : c = 1 := Option.some.inj (hc.symm.trans hone)
    decide +kernel

def leakyOps : List LfsOp := [.truncate 0 (1034 * 4096), .dirAdd 0 [97] 1 1]

/-- The double indirect block is taken, but its number is not stored. -/
theorem leakyOps_leak : ¬(run LfsDisk.step (LfsDisk.boot.format 37) leakyOps).fs.Exact := by
  obtain ⟨hgood, hfs⟩ := LfsDisk.boot_format 37
  rw [LfsDisk.run_step_fs hgood, hfs]
  intro h
  have hone := h.once 36 (by decide +kernel) (by decide +kernel) (by decide +kernel)
  have hroot : ∀ ino < 1024, Bitmap.get (run step (boot 37) leakyOps).lfs.inodeBitmap ino = true → ino = 0 := by
    decide +kernel
  have hnull : ∀ t, ((run step (boot 37) leakyOps).inodeAt 0).root t = 0 := by decide +kernel
  have hzero : (run step (boot 37) leakyOps).references 36 = 0 := Finset.sum_eq_zero fun ino hino => by
    obtain ⟨hlt, hbit⟩ := mem_filter.mp hino
    rw [hroot ino (Finset.mem_range.mp hlt) hbit, Inode.tree_of_null hnull, count_zero]
  rw [hzero] at hone
  cases hone

end Limnx
