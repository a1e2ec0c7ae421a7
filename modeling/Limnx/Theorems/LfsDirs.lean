import Limnx.Theorems.LfsOps

/-! Entries of LimnFS directories, and the calls that make and delete them. -/

open Finset

namespace Limnx
open Function Inode Fs

attribute [local irreducible] maxInodes

def Inode.scan {α τ : Type} (dir : Inode) (m : Disk) (total : Nat) (visit : τ → Nat → Block → Nat → α ⊕ τ) :
    Nat → Nat → τ → Option α
  | 0, _, _ => none
  | fuel + 1, lb, acc =>
    if total ≤ lb * dentriesPerBlock then none
    else if dir.lookup m lb = 0 then none
    else
      match visit acc (dir.lookup m lb) (m (dir.lookup m lb)) (min dentriesPerBlock (total - lb * dentriesPerBlock)) with
      | .inl a => some a
      | .inr acc => dir.scan m total visit fuel (lb + 1) acc

def Inode.find (dir : Inode) (m : Disk) (p : Block → Nat → Bool) : Option (Nat × Block × Nat) :=
  dir.scan m dir.totalEntries
    (fun (_ : Unit) blk entries n =>
      match (List.range n).find? (p entries) with
      | some i => .inl (blk, entries, i)
      | none => .inr ())
    (dir.totalEntries + 1) 0 ()

section Scan
variable {ρ ω : Bool} {σ : Fs} {α τ : Type} {dir : Inode} {m : Disk} {visit : τ → Nat → Block → Nat → α ⊕ τ}

theorem exec_dirScan (dir : Inode) (total : Nat) (visit : τ → Nat → Block → Nat → α ⊕ τ) (fuel lb : Nat) (acc : τ) :
    exec (dirScan dir total visit fuel lb acc : LfsM ρ ω (Option α)) σ =
      (dir.scan σ.mem total visit fuel lb acc, σ) := by
  induction fuel generalizing lb acc with
  | zero => rfl
  | succ fuel ih =>
    rw [dirScan, scan]
    by_cases htotal : total ≤ lb * dentriesPerBlock
    · rw [if_pos htotal, if_pos htotal]
      rfl
    rw [if_neg htotal, if_neg htotal, exec_bind_of (exec_getFileBlock _ _)]
    by_cases hb : dir.lookup σ.mem lb = 0
    · rw [if_pos hb, if_pos hb]
      rfl
    simp only [if_neg hb, exec_read_bind]
    cases visit acc (dir.lookup σ.mem lb) (σ.mem (dir.lookup σ.mem lb))
        (min dentriesPerBlock (total - lb * dentriesPerBlock)) with
    | inl a => rfl
    | inr acc' => exact ih (lb + 1) acc'

theorem Inode.scan_some {total fuel lb : Nat} {acc : τ} {a : α} (h : dir.scan m total visit fuel lb acc = some a) :
    ∃ acc l n, dir.lookup m l ≠ 0 ∧ visit acc (dir.lookup m l) (m (dir.lookup m l)) n = .inl a := by
  induction fuel generalizing lb acc with
  | zero => cases h
  | succ fuel ih =>
    rw [scan] at h
    split_ifs at h with htotal hb
    split at h
    next a' hv =>
      cases h
      exact ⟨acc, lb, _, hb, hv⟩
    · exact ih h

theorem Inode.scan_congr {m' : Disk} {total fuel lb : Nat} {acc : τ} (hm : ∀ x ∈ dir.tree m, m' x = m x) :
    dir.scan m' total visit fuel lb acc = dir.scan m total visit fuel lb acc := by
  have hlook := (leaves_congr hm).2.2
  induction fuel generalizing lb acc with
  | zero => rfl
  | succ fuel ih =>
    rw [scan, scan, hlook]
    by_cases hb : dir.lookup m lb = 0
    · simp only [hb, if_true]
    rw [hm _ (Multiset.mem_of_le leaves_le_tree (lookup_mem_leaves hb))]
    split_ifs
    · rfl
    split
    · rfl
    · exact ih

theorem exec_dirFind (dir : Inode) (p : Block → Nat → Bool) :
    exec (dirFind dir p : LfsM ρ ω _) σ = (dir.find σ.mem p, σ) :=
  exec_dirScan ..

theorem Inode.find_some {p : Block → Nat → Bool} {blk k : Nat} {entries : Block} (h : dir.find m p = some (blk, entries, k)) :
    ∃ l, dir.lookup m l = blk ∧ blk ≠ 0 ∧ entries = m blk ∧ p entries k := by
  obtain ⟨_, l, n, hl, hv⟩ := scan_some h
  split at hv
  next j hj =>
    cases hv
    exact ⟨l, rfl, hl, rfl, List.find?_some hj⟩
  · cases hv

theorem exec_readDir (dirIno : Nat) : exec (readDir dirIno : LfsM ρ ω _) σ =
    (if maxInodes ≤ dirIno ∨ (σ.inodeAt dirIno).type ≠ typeDir then none else some (σ.inodeAt dirIno), σ) := by
  rw [readDir, exec_bind_of (exec_readInode dirIno)]
  by_cases h : maxInodes ≤ dirIno
  · simp only [if_pos h, if_pos (show maxInodes ≤ dirIno ∨ _ from .inl h)]
    rfl
  simp only [h, false_or]
  by_cases ht : (σ.inodeAt dirIno).type = typeDir
  · simp only [ht, ne_eq, not_true_eq_false, if_true, if_false]
    rfl
  · simp only [ht, ne_eq, not_false_eq_true, if_true, if_false]
    rfl

end Scan

variable {r : Bool × Fs}

section Entries
variable {ρ : Bool} {σ σ' : Fs} {dirIno l : Nat} {name : CStr} {d : Block}

theorem FsSound.writeLeaf (hs : FsSound σ) (hino : dirIno < maxInodes) (h : (σ.inodeAt dirIno).lookup σ.mem l ≠ 0) (d : Block) :
    FsSound ⟨σ.lfs, update σ.mem ((σ.inodeAt dirIno).lookup σ.mem l) d⟩ := by
  obtain ⟨hk, ho, -, -⟩ := (hs.owns.inode hino).update_leaf h d
  exact hs.rewrite hino hk ho

def Fs.IsDir (σ : Fs) (ino : Nat) : Prop := ino < maxInodes ∧ (σ.inodeAt ino).type = typeDir

theorem Fs.isDir_iff : σ.IsDir dirIno ↔ ¬(maxInodes ≤ dirIno ∨ (σ.inodeAt dirIno).type ≠ typeDir) := by
  simp only [Fs.IsDir, not_or, not_le, not_not]

/-- The outcomes of `limnfs_dir_remove`. -/
inductive DirRemoved (σ : Fs) (dirIno : Nat) (name : CStr) : Bool × Fs → Prop
  | missing (hmiss : σ.IsDir dirIno → (σ.inodeAt dirIno).find σ.mem (isNamed name) = none) :
      DirRemoved σ dirIno name (false, σ)
  | removed {l k : Nat} (hdir : σ.IsDir dirIno) (hl : (σ.inodeAt dirIno).lookup σ.mem l ≠ 0)
      (hfind : (σ.inodeAt dirIno).find σ.mem (isNamed name) =
        some ((σ.inodeAt dirIno).lookup σ.mem l, σ.mem ((σ.inodeAt dirIno).lookup σ.mem l), k)) :
      DirRemoved σ dirIno name (true, ⟨σ.lfs, update σ.mem ((σ.inodeAt dirIno).lookup σ.mem l)
        (Dentry.erase (σ.mem ((σ.inodeAt dirIno).lookup σ.mem l)) k)⟩)

theorem exec_dirRemove (σ : Fs) (dirIno : Nat) (name : CStr) :
    DirRemoved σ dirIno name (exec (limnfsDirRemove dirIno name : LfsM ρ true Bool) σ) := by
  rw [limnfsDirRemove, exec_bind_of (exec_readDir dirIno)]
  by_cases hdir : maxInodes ≤ dirIno ∨ (σ.inodeAt dirIno).type ≠ typeDir
  · rw [if_pos hdir]
    exact .missing fun h => absurd hdir (isDir_iff.mp h)
  rw [if_neg hdir]
  rw [exec_bind_of (exec_dirFind _ _)]
  cases hf : (σ.inodeAt dirIno).find σ.mem (isNamed name) with
  | none => exact .missing fun _ => hf
  | some r =>
    obtain ⟨blk, entries, k⟩ := r
    obtain ⟨l, rfl, hb, rfl, -⟩ := find_some hf
    exact .removed (isDir_iff.mpr hdir) hb hf

theorem FsSound.removed (hs : FsSound σ) (hr : DirRemoved σ dirIno name r) : FsSound r.2 ∧ r.2.lfs = σ.lfs := by
  cases hr with
  | missing => exact ⟨hs, rfl⟩
  | removed hdir hl => exact ⟨hs.writeLeaf hdir.1 hl _, rfl⟩

/-- The entry that `limnfs_dir_add` appends would get no block but the root of the double indirect tree: that root is
    taken and not stored. -/
def Fs.LosesRoot (σ : Fs) (dirIno : Nat) : Prop :=
  doubleBase ≤ (σ.inodeAt dirIno).totalEntries / dentriesPerBlock ∧ (σ.inodeAt dirIno).doubleIndirect = 0 ∧
    σ.lfs.super.freeBlocks = 2

theorem Fs.size_lt (σ : Fs) (ino : Nat) : (σ.inodeAt ino).size < 2 ^ 32 := by
  rw [inodeAt, load, decode, show (2 : Nat) ^ 32 = 256 ^ 4 by norm_num]
  dsimp only
  exact ByteCodec.decode_lt _ 4 4

theorem append_lt_triple (σ : Fs) (ino : Nat) : (σ.inodeAt ino).totalEntries / dentriesPerBlock < tripleBase := by
  have h := σ.size_lt ino
  have hd : dentriesPerBlock = 64 := rfl
  have ht : tripleBase = 1049610 := rfl
  rw [totalEntries, dentrySize, hd, ht]
  omega

theorem Allocated.failed_root {inode inode' : Inode} {M : Multiset Nat} {lb : Nat} (ha : Allocated σ σ' M inode inode' lb 0)
    (hlt : lb < tripleBase) (h : ¬(doubleBase ≤ lb ∧ inode.doubleIndirect = 0 ∧ σ.lfs.super.freeBlocks = 2)) :
    inode'.root = inode.root := by
  rcases ha.failed rfl with hsame | ⟨hroot, hfree⟩
  · exact hsame
  have hfew : σ.lfs.super.freeBlocks ≤ (place lb).1.height := by
    by_contra hmany
    exact ha.enough (Nat.lt_of_not_le hmany) rfl
  -- a tree of height two or more is missing
  unfold place at hroot hfew
  have htb : tripleBase = maxDirect + ptrsPerBlock + ptrsPerBlock * ptrsPerBlock := rfl
  have hdb : doubleBase = maxDirect + ptrsPerBlock := rfl
  split_ifs at hroot hfew with h1 h2 h3
  · simp only [Slot.height] at hfew
    omega
  · simp only [Slot.height] at hfew
    omega
  · refine absurd ⟨by omega, hroot, ?_⟩ h
    simp only [Slot.height] at hfew
    omega
  · omega

theorem FsSound.used_of_type (hs : FsSound σ) (h : (σ.inodeAt dirIno).type = typeDir) : dirIno ∉ σ.lfs.clearInodes := fun hc => by
  have := (hs.unused dirIno hc).2
  rw [h] at this
  exact absurd this (by decide)

theorem FsSound.append {σ1 : Fs} {dir : Inode} {lb n : Nat} (hs : FsSound σ) (hino : dirIno < maxInodes)
    (hused : dirIno ∉ σ.lfs.clearInodes) (hk : Keeps (σ.forestBut dirIno) σ σ1)
    (ho : Owns σ1.lfs (dir.tree σ1.mem + σ.forestBut dirIno)) (hb : dir.lookup σ1.mem lb ≠ 0) (d : Block) :
    FsSound (setInode ⟨σ1.lfs, update σ1.mem (dir.lookup σ1.mem lb) d⟩ dirIno { dir with size := n }) := by
  obtain ⟨hk', ho', -, -⟩ := ho.update_leaf hb d
  refine hs.store hino (hk.trans hk') ?_ fun h => absurd h hused
  exact ho'

structure LastBlock (σ σ1 : Fs) (dirIno : Nat) (dir : Inode) (lb b : Nat) : Prop where
  ne : b ≠ 0
  keeps : Keeps ((σ.inodeAt dirIno).leaves σ.mem + σ.forestBut dirIno) σ σ1
  owns : Owns σ1.lfs (dir.tree σ1.mem + σ.forestBut dirIno)
  lookup : ∀ l, dir.lookup σ1.mem l = if l = lb then b else (σ.inodeAt dirIno).lookup σ.mem l
  fields : ∃ d i1 i2 i3 n, dir = { σ.inodeAt dirIno with
    direct := d, indirect := i1, doubleIndirect := i2, tripleIndirect := i3, blockCount := n }

theorem LastBlock.old {lb : Nat} (ho : Owns σ.lfs σ.forest) (hlt : dirIno < maxInodes)
    (hb : (σ.inodeAt dirIno).lookup σ.mem lb ≠ 0) :
    LastBlock σ σ dirIno (σ.inodeAt dirIno) lb ((σ.inodeAt dirIno).lookup σ.mem lb) := by
  refine ⟨hb, .refl _ _, ho.inode hlt, fun l => ?_, _, _, _, _, _, rfl⟩
  split
  next hl => rw [hl]
  · rfl

theorem LastBlock.new {σ1 : Fs} {dir : Inode} {lb b : Nat} (hb : b ≠ 0)
    (ha : Allocated σ σ1 (σ.forestBut dirIno) (σ.inodeAt dirIno) dir lb b) : LastBlock σ σ1 dirIno dir lb b := by
  refine ⟨hb, ha.keeps, ha.owns, fun l => ?_, ha.fields⟩
  rw [ha.lookup]
  simp only [hb, ne_eq, not_false_eq_true, true_and]

def Inode.endBlock (dir : Inode) : Nat := dir.totalEntries / dentriesPerBlock

/-- The outcomes of `limnfs_dir_add`. -/
inductive DirAdded (σ : Fs) (dirIno : Nat) (name : CStr) (childIno type : Nat) : Bool × Fs → Prop
  | refused (hbad : σ.IsDir dirIno → name.length = 0 ∨ 57 < name.length) : DirAdded σ dirIno name childIno type (false, σ)
  | reused {l k : Nat} (hdir : σ.IsDir dirIno) (hname : ¬(name.length = 0 ∨ 57 < name.length))
      (hl : (σ.inodeAt dirIno).lookup σ.mem l ≠ 0)
      (hfind : (σ.inodeAt dirIno).find σ.mem isDeleted =
        some ((σ.inodeAt dirIno).lookup σ.mem l, σ.mem ((σ.inodeAt dirIno).lookup σ.mem l), k)) :
      DirAdded σ dirIno name childIno type (true, ⟨σ.lfs, update σ.mem ((σ.inodeAt dirIno).lookup σ.mem l)
        (Dentry.fill (σ.mem ((σ.inodeAt dirIno).lookup σ.mem l)) k childIno name type)⟩)
  | full {σ1 : Fs} {dir : Inode} (hdir : σ.IsDir dirIno) (hfind : (σ.inodeAt dirIno).find σ.mem isDeleted = none)
      (hnull : (σ.inodeAt dirIno).lookup σ.mem (σ.inodeAt dirIno).endBlock = 0)
      (ha : Allocated σ σ1 (σ.forestBut dirIno) (σ.inodeAt dirIno) dir (σ.inodeAt dirIno).endBlock 0) :
      DirAdded σ dirIno name childIno type (false, σ1)
  | appended {σ1 : Fs} {dir : Inode} {b : Nat} (hdir : σ.IsDir dirIno) (hname : ¬(name.length = 0 ∨ 57 < name.length))
      (hfind : (σ.inodeAt dirIno).find σ.mem isDeleted = none)
      (hlast : LastBlock σ σ1 dirIno dir (σ.inodeAt dirIno).endBlock b)
      (hold : (σ.inodeAt dirIno).lookup σ.mem (σ.inodeAt dirIno).endBlock ≠ 0 → σ1 = σ ∧ dir = σ.inodeAt dirIno) :
      DirAdded σ dirIno name childIno type (true, setInode ⟨σ1.lfs, update σ1.mem b (Dentry.fill (σ1.mem b)
        ((σ.inodeAt dirIno).totalEntries % dentriesPerBlock) childIno name type)⟩ dirIno
        { dir with size := u32 (((σ.inodeAt dirIno).totalEntries + 1) * dentrySize) })

theorem exec_dirAdd (ho : Owns σ.lfs σ.forest) (dirIno : Nat) (name : CStr) (childIno type : Nat) :
    DirAdded σ dirIno name childIno type (exec (limnfsDirAdd dirIno name childIno type : LfsM ρ true Bool) σ) := by
  rw [limnfsDirAdd, exec_bind_of (exec_readDir dirIno)]
  by_cases hbad : maxInodes ≤ dirIno ∨ (σ.inodeAt dirIno).type ≠ typeDir
  · rw [if_pos hbad]
    exact .refused fun h => absurd hbad (isDir_iff.mp h)
  have hdir := isDir_iff.mpr hbad
  have hlt := hdir.1
  rw [if_neg hbad]
  dsimp only
  by_cases hname : name.length = 0 ∨ 57 < name.length
  · rw [if_pos hname]
    exact .refused fun _ => hname
  rw [if_neg hname, exec_bind_of (exec_dirFind _ _)]
  cases hf : (σ.inodeAt dirIno).find σ.mem isDeleted with
  | some r =>
    obtain ⟨blk, entries, k⟩ := r
    obtain ⟨l, rfl, hb, rfl, -⟩ := find_some hf
    exact .reused hdir hname hb hf
  | none =>
    have hend : (σ.inodeAt dirIno).totalEntries / dentriesPerBlock = (σ.inodeAt dirIno).endBlock := rfl
    have hmax : (σ.inodeAt dirIno).endBlock < maxFileBlocks :=
      (append_lt_triple σ dirIno).trans_le (Nat.le_add_right _ _)
    rw [hend, exec_bind_of (exec_getFileBlock _ _), exec_ite_bind]
    by_cases hnull : (σ.inodeAt dirIno).lookup σ.mem (σ.inodeAt dirIno).endBlock = 0
    · obtain ⟨b, dir, σ1, he1, ha⟩ := exec_allocFileBlock (ρ := ρ) hmax hnull (ho.inode hlt)
      rw [if_pos hnull, exec_bind_of he1]
      obtain rfl | hb := eq_or_ne b 0
      · exact .full hdir hf hnull ha
      simp only [if_neg hb, exec_read_bind, exec_write_bind, Bool.not_true, if_neg Bool.false_ne_true]
      rw [exec_bind_of (exec_writeInode hlt _)]
      exact .appended hdir hname hf (.new hb ha) fun h => absurd hnull h
    · rw [if_neg hnull]
      simp only [pure_bind, if_neg hnull, exec_read_bind, exec_write_bind, Bool.not_true,
        if_neg Bool.false_ne_true]
      rw [exec_bind_of (exec_writeInode hlt _)]
      exact .appended hdir hname hf (.old ho hlt hnull) fun _ => ⟨rfl, rfl⟩

theorem FsSound.added {childIno type : Nat} (hs : FsSound σ) (ha : DirAdded σ dirIno name childIno type r)
    (h : ¬σ.LosesRoot dirIno) : FsSound r.2 ∧ SameMeta σ.lfs r.2.lfs := by
  have hbut : ∀ x ∈ σ.forestBut dirIno, x ∈ (σ.inodeAt dirIno).leaves σ.mem + σ.forestBut dirIno := fun x hx =>
    Multiset.mem_add.mpr (.inr hx)
  cases ha with
  | refused => exact ⟨hs, .refl _⟩
  | reused hdir _ hl => exact ⟨hs.writeLeaf hdir.1 hl _, .refl _⟩
  | full hdir _ hnull ha =>
    have hk := ha.keeps.mono hbut
    have hroot := ha.failed_root (append_lt_triple σ dirIno) h
    refine ⟨hs.rewrite hdir.1 hk ?_, hk.same⟩
    rw [← (tree_congr_root hroot).1]
    exact ha.owns
  | appended hdir _ _ hlast =>
    have hk := hlast.keeps.mono hbut
    have hb := hlast.lookup (σ.inodeAt dirIno).endBlock
    rw [if_pos rfl] at hb
    rw [← hb]
    exact ⟨hs.append hdir.1 (hs.used_of_type hdir.2) hk hlast.owns (hb ▸ hlast.ne) _, hk.same⟩

end Entries

/-! ### Creating and deleting -/

section Files
variable {ρ : Bool} {σ : Fs} {parentIno : Nat}

def Fs.withInode (σ : Fs) (ino : Nat) (i : Inode) : Fs := (flushed ⟨σ.lfs.markInode ino, σ.mem⟩).setInode ino i

theorem FsSound.withInode {ino : Nat} {i : Inode} (hs : FsSound σ) (hclear : ino ∈ σ.lfs.clearInodes)
    (hnull : ∀ t, i.root t = 0) :
    FsSound (σ.withInode ino i) ∧ ino ∉ (σ.withInode ino i).lfs.clearInodes ∧
      (∀ k ≠ ino, (σ.withInode ino i).inodeAt k = σ.inodeAt k) ∧
      ∀ x, σ.lfs.super.dataStart ≤ x → (σ.withInode ino i).mem x = σ.mem x := by
  have hlt : ino < maxInodes := mem_range.mp (mem_filter.mp hclear).1
  have hmark := hs.mark hclear
  have hl := hmark.owns.toLayout
  have hat := (hmark.owns.low fun _ hx => flushed_mem hl hx).2
  let τ := Fs.flushed ⟨σ.lfs.markInode ino, σ.mem⟩
  have hused : ino ∉ τ.lfs.clearInodes := by
    show ino ∉ (σ.lfs.markInode ino).clearInodes
    rw [Lfs.clearInodes_mark]
    exact notMem_erase _ _
  refine ⟨?_, hused, fun k hk => ?_, fun x hx => ?_⟩
  · refine hmark.flushed.store hlt (.refl _ _) ?_ fun h => absurd h hused
    -- the new inode has no blocks, as its slot had none
    have hold : (τ.inodeAt ino).tree τ.mem = 0 := tree_of_null fun t => by
      rw [show τ.inodeAt ino = σ.inodeAt ino from hat ino]
      exact (hs.unused ino hclear).1 t
    rw [tree_of_null hnull, ← hold]
    exact hmark.flushed.owns.inode hlt
  · exact (setInode_of_ne _ _ hk).trans (hat k)
  · have hx' : σ.lfs.super.inodeTblStart ≤ x := by
      have := hs.owns.data
      omega
    exact (Fs.setInode_mem (σ := τ) hl hlt hx).trans (Fs.flushed_mem hl hx')

/-- The outcomes of creating a file or directory. -/
inductive Created (σ : Fs) (type mode parentIno : Nat) (name : CStr) : Option Nat × Fs → Prop
  | noInode : Created σ type mode parentIno name (none, σ)
  | failed {ino : Nat} {σ1 σ2 : Fs} (hclear : ino ∈ σ.lfs.clearInodes) (hino0 : ino ≠ 0)
      (hadd : DirAdded (σ.withInode ino { type, mode, parent := parentIno }) parentIno name ino type (false, σ1))
      (hfree : InodeFreed σ1 ino σ2) : Created σ type mode parentIno name (none, σ2)
  | made {ino : Nat} {σ1 : Fs} (hclear : ino ∈ σ.lfs.clearInodes) (hino0 : ino ≠ 0)
      (hadd : DirAdded (σ.withInode ino { type, mode, parent := parentIno }) parentIno name ino type (true, σ1)) :
      Created σ type mode parentIno name (some ino, σ1)

theorem FsSound.not_loses {ino type mode : Nat} (hs : FsSound σ) (hclear : ino ∈ σ.lfs.clearInodes)
    (h : ¬σ.LosesRoot parentIno) : ¬(σ.withInode ino { type, mode, parent := parentIno }).LosesRoot parentIno := by
  obtain ⟨-, -, hat, -⟩ := hs.withInode (i := { type, mode, parent := parentIno }) hclear fun t => by cases t <;> rfl
  intro hl
  obtain rfl | heq := eq_or_ne parentIno ino
  · have := hl.1
    rw [Fs.withInode, Fs.setInode_self] at this
    exact absurd this (show ¬doubleBase ≤ 0 % 2 ^ 32 / dentrySize / dentriesPerBlock by decide)
  · refine h ⟨?_, ?_, hl.2.2⟩
    · have := hl.1
      rwa [hat _ heq] at this
    · have := hl.2.1
      rwa [hat _ heq] at this

theorem exec_create (hs : FsSound σ) (type mode : Nat) (name : CStr) (h : ¬σ.LosesRoot parentIno) :
    Created σ type mode parentIno name (exec (limnfsCreate type mode parentIno name : LfsM ρ true _) σ) := by
  rw [limnfsCreate]
  rcases exec_allocInode (ρ := ρ) (σ := σ) with he | ⟨ino, hclear, hino0, he⟩
  · rw [exec_bind_of he]
    exact .noInode
  rw [exec_bind_of he]
  have hlt : ino < maxInodes := mem_range.mp (mem_filter.mp hclear).1
  obtain ⟨hs2, -⟩ := hs.withInode (i := { type, mode, parent := parentIno }) hclear fun t => by cases t <;> rfl
  rw [exec_bind_of (exec_writeInode hlt _)]
  simp only [Bool.not_true, if_neg Bool.false_ne_true]
  change Created _ _ _ _ _ (exec _ (σ.withInode ino { type, mode, parent := parentIno }))
  have hadd := exec_dirAdd (ρ := ρ) hs2.owns parentIno name ino type
  have hs3 := (hs2.added hadd (hs.not_loses hclear h)).1
  rw [exec_bind]
  generalize exec (limnfsDirAdd parentIno name ino type : LfsM ρ true Bool) _ = e at hadd hs3
  obtain ⟨ok, σ3⟩ := e
  cases ok with
  | true => exact .made hclear hino0 hadd
  | false =>
    obtain ⟨σ4, he4, hfree⟩ := exec_freeInode (ρ := ρ) hs3.owns ino
    simp only [Bool.not_false, if_true]
    rw [exec_bind_of he4]
    exact .failed hclear hino0 hadd hfree

theorem FsSound.created {type mode : Nat} {name : CStr} {r : Option Nat × Fs} (hs : FsSound σ)
    (hc : Created σ type mode parentIno name r) (h : ¬σ.LosesRoot parentIno) : FsSound r.2 := by
  have hadded : ∀ {ino ok σ1}, ino ∈ σ.lfs.clearInodes →
      DirAdded (σ.withInode ino { type, mode, parent := parentIno }) parentIno name ino type (ok, σ1) →
      FsSound σ1 ∧ ino ∉ σ1.lfs.clearInodes := fun {ino ok σ1} hclear hadd => by
    obtain ⟨hs2, hused, -⟩ := hs.withInode (i := { type, mode, parent := parentIno }) hclear fun t => by cases t <;> rfl
    obtain ⟨hs3, hsame⟩ := hs2.added hadd (hs.not_loses hclear h)
    refine ⟨hs3, ?_⟩
    rwa [show σ1.lfs.clearInodes = _ from hsame.clearInodes]
  cases hc with
  | noInode => exact hs
  | failed hclear _ hadd hfree => exact (hadded hclear hadd).1.freed hfree fun _ => (hadded hclear hadd).2
  | made hclear _ hadd => exact (hadded hclear hadd).1

def Fs.child (σ : Fs) (parentIno : Nat) (name : CStr) : Option Nat :=
  if maxInodes ≤ parentIno ∨ (σ.inodeAt parentIno).type ≠ typeDir then none
  else ((σ.inodeAt parentIno).find σ.mem (isNamed name)).map fun (_, entries, i) => (Dentry.load entries i).inode

theorem exec_dirLookup {ω : Bool} (parentIno : Nat) (name : CStr) :
    exec (limnfsDirLookup parentIno name : LfsM ρ ω _) σ = (σ.child parentIno name, σ) := by
  rw [limnfsDirLookup, exec_bind_of (exec_readDir parentIno), child]
  by_cases hdir : maxInodes ≤ parentIno ∨ (σ.inodeAt parentIno).type ≠ typeDir
  · rw [if_pos hdir, if_pos hdir]
    rfl
  rw [if_neg hdir, if_neg hdir]
  rw [exec_bind_of (exec_dirFind _ _)]
  cases (σ.inodeAt parentIno).find σ.mem (isNamed name) <;> rfl

def Fs.iter (σ : Fs) (dirIno index : Nat) : Option Dentry :=
  if maxInodes ≤ dirIno ∨ (σ.inodeAt dirIno).type ≠ typeDir then none
  else (σ.inodeAt dirIno).scan σ.mem (σ.inodeAt dirIno).totalEntries
    (fun seen _ entries n =>
      let live := (List.range n).filter fun i => !isDeleted entries i
      match live[index - seen]? with
      | some i => .inl (Dentry.load entries i)
      | none => .inr (seen + live.length))
    ((σ.inodeAt dirIno).totalEntries + 1) 0 0

theorem exec_dirIter {ω : Bool} (dirIno index : Nat) :
    exec (limnfsDirIter dirIno index : LfsM ρ ω _) σ = (σ.iter dirIno index, σ) := by
  rw [limnfsDirIter, exec_bind_of (exec_readDir dirIno), iter]
  by_cases hdir : maxInodes ≤ dirIno ∨ (σ.inodeAt dirIno).type ≠ typeDir
  · rw [if_pos hdir, if_pos hdir]
    rfl
  · rw [if_neg hdir, if_neg hdir]
    exact exec_dirScan ..

/-- The outcomes of `limnfs_delete`. -/
inductive LfsDeleted (σ : Fs) (parentIno : Nat) (name : CStr) : Bool × Fs → Prop
  | kept (hkept : ∀ c, σ.child parentIno name = some c →
      maxInodes ≤ c ∨ (σ.inodeAt c).type = typeDir ∧ (σ.iter c 0).isSome = true) : LfsDeleted σ parentIno name (false, σ)
  | deleted {c : Nat} {σ1 σ2 : Fs} (hchild : σ.child parentIno name = some c) (hlt : c < maxInodes)
      (hempty : (σ.inodeAt c).type = typeDir → σ.iter c 0 = none) (hremove : DirRemoved σ parentIno name (true, σ1))
      (hfree : InodeFreed σ1 c σ2) : LfsDeleted σ parentIno name (true, σ2)

theorem DirRemoved.of_child {name : CStr} {c : Nat} (h : DirRemoved σ parentIno name r)
    (hc : σ.child parentIno name = some c) : r.1 := by
  cases h with
  | missing hmiss =>
    unfold child at hc
    split at hc
    · cases hc
    rename_i hdir
    rw [hmiss (isDir_iff.mpr hdir)] at hc
    cases hc
  | removed => rfl

theorem exec_delete (hs : FsSound σ) (parentIno : Nat) (name : CStr) :
    LfsDeleted σ parentIno name (exec (limnfsDelete parentIno name : LfsM ρ true _) σ) := by
  rw [limnfsDelete, exec_bind_of (exec_dirLookup parentIno name)]
  cases hc : σ.child parentIno name with
  | none => exact .kept fun c hc' => by rw [hc] at hc'; cases hc'
  | some c =>
    rw [exec_bind_of (exec_readInode c)]
    by_cases hmax : maxInodes ≤ c
    · rw [if_pos hmax]
      refine .kept fun c' hc' => ?_
      cases hc.symm.trans hc'
      exact .inl hmax
    rw [if_neg hmax]
    dsimp only
    have hlt : c < maxInodes := by omega
    have hremoved : ((σ.inodeAt c).type = typeDir → σ.iter c 0 = none) → LfsDeleted σ parentIno name (exec (do
        if !(← limnfsDirRemove parentIno name) then return false
        limnfsFreeInode c
        return true : LfsM ρ true Bool) σ) := fun hempty => by
      have hrem := exec_dirRemove (ρ := ρ) σ parentIno name
      have hs1 := (hs.removed hrem).1
      have hok := hrem.of_child hc
      rw [exec_bind]
      generalize exec (limnfsDirRemove parentIno name : LfsM ρ true Bool) σ = e at hrem hs1 hok
      obtain ⟨ok, σ1⟩ := e
      cases hok
      obtain ⟨σ2, he2, hfree⟩ := exec_freeInode (ρ := ρ) hs1.owns c
      simp only [Bool.not_true, if_neg Bool.false_ne_true]
      rw [exec_bind_of he2]
      exact .deleted hc hlt hempty hrem hfree
    by_cases htype : (σ.inodeAt c).type = typeDir
    · rw [if_pos htype, map_eq_pure_bind, bind_assoc, exec_bind_of (exec_dirIter c 0), pure_bind]
      split
      next hsome =>
        refine .kept fun c' hc' => ?_
        cases hc.symm.trans hc'
        exact .inr ⟨htype, hsome⟩
      next hnone => exact hremoved fun _ => by simpa using hnone
    · rw [if_neg htype, pure_bind, if_neg Bool.false_ne_true]
      exact hremoved fun h => absurd h htype

theorem FsSound.deleted {name : CStr} (hs : FsSound σ) (hd : LfsDeleted σ parentIno name r)
    (h : ∀ c, σ.child parentIno name = some c → c < maxInodes → c ∉ σ.lfs.clearInodes) : FsSound r.2 := by
  cases hd with
  | kept => exact hs
  | deleted hchild hlt _ hremove hfree =>
    obtain ⟨hs1, hsame⟩ := hs.removed hremove
    refine hs1.freed hfree fun _ hclear => h _ hchild hlt ?_
    rwa [show _ = σ.lfs from hsame] at hclear

end Files

end Limnx
