import Limnx.Theorems.LfsRead
import Limnx.Theorems.LfsOwnership

/-! LimnFS refines the list of bytes (`ByteFile`) as long as no stale byte comes back into a file, ranges read have no
    holes, and nothing is read past the cache that is only there. -/

namespace Limnx
open Function GuardedRun List LfsDisk Inode Bcache Fs

namespace ByteFile

def write (f : List UInt8) (offset : Nat) (data : List UInt8) : List UInt8 :=
  if data = [] then f
  else (range (max f.length (offset + data.length))).map fun i =>
    if offset ≤ i ∧ i < offset + data.length then data.getD (i - offset) 0 else f.getD i 0

def truncate (f : List UInt8) (n : Nat) : List UInt8 := (range n).map fun i => f.getD i 0

def read (f : List UInt8) (offset len : Nat) : List UInt8 := (f.drop offset).take len

end ByteFile

def Fs.file (σ : Fs) (ino : Nat) : List UInt8 := (σ.inodeAt ino).slice σ.mem 0 (σ.inodeAt ino).size

/-- The bytes from the end of the file to `n` are zero. -/
def Inode.ZeroGap (inode : Inode) (m : Disk) (n : Nat) : Prop :=
  ∀ pos, inode.size ≤ pos → pos < n → inode.byte m pos = 0

section Files
attribute [local irreducible] maxInodes ptrsPerBlock
variable {ρ ω : Bool} {σ σ' : Fs} {ino : Nat} {inode inode' : Inode} {m m' : Disk} {n pos offset len : Nat}

theorem Inode.getD_slice (inode : Inode) (m : Disk) (n pos : Nat) :
    (inode.slice m 0 n).getD pos 0 = if pos < n then inode.byte m pos else 0 := by
  by_cases h : pos < n
  · simp [slice, h]
  · simp [slice, h]

theorem Inode.slice_congr (h : ∀ i < n, inode'.byte m' (pos + i) = inode.byte m (pos + i)) :
    inode'.slice m' pos n = inode.slice m pos n :=
  map_congr_left fun i hi => h i (mem_range.mp hi)

theorem Inode.byte_congr (h : ∀ x ∈ inode.tree m, m' x = m x) (pos : Nat) : inode.byte m' pos = inode.byte m pos := by
  have hlook := (congr_nodes fun x hx => h x (Multiset.mem_of_le nodes_le_tree hx)).2.2.2
  rw [byte, byte, hlook]
  split
  · rfl
  next h0 => rw [h _ (Multiset.mem_of_le leaves_le_tree (lookup_mem_leaves h0))]

theorem Inode.byte_congr_root (h : inode'.root = inode.root) (m : Disk) (pos : Nat) :
    inode'.byte m pos = inode.byte m pos := by
  rw [byte, byte, (tree_congr_root h).2.2]

theorem Inode.read_slice : ByteFile.read (inode.slice m 0 n) offset len = inode.slice m offset (min len (n - offset)) := by
  refine ext_getElem ?_ fun i h1 h2 => ?_
  · simp [ByteFile.read]
  · simp [ByteFile.read, slice]

structure FileStored (σ σ' : Fs) (ino : Nat) (f : List UInt8) : Prop where
  owns : Owns σ'.lfs σ'.forest
  self : σ'.file ino = f
  other : ∀ k, k < maxInodes → k ≠ ino → σ'.file k = σ.file k

theorem Stored.file_other (h : Stored σ σ' ino inode) {k : Nat} (hk : k < maxInodes) (hne : k ≠ ino) :
    σ'.file k = σ.file k := by
  rw [file, file, h.other k hk hne]
  exact slice_congr fun i _ => byte_congr (fun x hx =>
    h.kept x (Multiset.mem_of_le (tree_le_forestBut hk hne) hx)) _

theorem Owns.fileStored {i : Inode} (ho : Owns σ.lfs σ.forest) (hino : ino < maxInodes) (hk : Keeps (σ.forestBut ino) σ σ')
    (ho' : Owns σ'.lfs (i.tree σ'.mem + σ.forestBut ino)) :
    FileStored σ (σ'.setInode ino i) ino (i.slice σ'.mem 0 (i.size % 2 ^ 32)) := by
  obtain ⟨howns, hst, hmem⟩ := ho.store hino hk ho'
  refine ⟨howns, ?_, fun k hk hne => hst.file_other hk hne⟩
  have hsize : ((σ'.setInode ino i).inodeAt ino).size = i.size % 2 ^ 32 := by
    rw [hst.self]
    rfl
  rw [file, hsize]
  refine slice_congr fun _ _ => ?_
  rw [byte_congr_root hst.root]
  exact byte_congr hmem _

theorem Written.slice {M : Multiset Nat} {buf : Buf} {w : Nat}
    (hw : Written σ σ' M inode inode' offset buf 0 w) (hgap : inode.size < offset → 0 < w ∧ inode.ZeroGap σ.mem offset) :
    inode'.slice σ'.mem 0 (max inode.size (offset + w)) =
      ByteFile.write (inode.slice σ.mem 0 inode.size) offset ((range w).map buf) := by
  rcases Nat.eq_zero_or_pos w with rfl | hpos
  · have hsize : max inode.size (offset + 0) = inode.size := by
      by_contra hne
      exact absurd (hgap (by omega)).1 (Nat.lt_irrefl 0)
    rw [hsize, ByteFile.write, if_pos (show (range 0).map buf = [] from rfl)]
    refine Inode.slice_congr fun i _ => ?_
    rw [hw.byte, if_neg (by omega)]
  · have hne : (range w).map buf ≠ [] := ne_nil_of_length_pos (by simpa using hpos)
    rw [ByteFile.write, if_neg hne, Inode.length_slice, length_map, length_range, Inode.slice]
    refine map_congr_left fun i hi => ?_
    have hi := mem_range.mp hi
    rw [Nat.zero_add, hw.byte, Nat.add_zero, Inode.getD_slice]
    by_cases hin : offset ≤ i ∧ i < offset + w
    · rw [if_pos hin, if_pos hin]
      have hlt : i - offset < w := by omega
      simp [hlt]
    · rw [if_neg hin, if_neg hin]
      by_cases hold : i < inode.size
      · rw [if_pos hold]
      -- the position is in the gap
      rw [if_neg hold]
      exact (hgap (by omega)).2 i (by omega) (by omega)

theorem exec_writeData_file (buf : Buf) (ho : Owns σ.lfs σ.forest) (hino : ino < maxInodes)
    (hfit : offset + len < 2 ^ 32) (hgap : (σ.inodeAt ino).size < offset → 0 < len ∧
      ((σ.inodeAt ino).lookup σ.mem (offset / blockSize) ≠ 0 ∨ (place (offset / blockSize)).1.height < σ.lfs.super.freeBlocks) ∧
      (σ.inodeAt ino).ZeroGap σ.mem offset) :
    ∃ w, (exec (limnfsWriteData ino offset buf len : LfsM ρ true _) σ).1 = some w ∧
      FileStored σ (exec (limnfsWriteData ino offset buf len : LfsM ρ true _) σ).2 ino
        (ByteFile.write (σ.file ino) offset ((range w).map buf)) := by
  have hmax : 2 ^ 32 ≤ maxFileBlocks * blockSize := by
    rw [maxFileBlocks_eq]
    decide
  obtain ⟨w, inode', σ', he, hw, hle, hpos, -⟩ := exec_writeData (ρ := ρ) buf ho hino (hfit.le.trans hmax)
  rw [he]
  refine ⟨w, rfl, ?_⟩
  have hst := ho.fileStored hino hw.keeps (hw.store (n := offset + w))
  have hlt := σ.size_lt ino
  have hsize : (inode'.grow (offset + w)).size % 2 ^ 32 = max (σ.inodeAt ino).size (offset + w) := by
    obtain ⟨d, i1, i2, i3, c, rfl⟩ := hw.fields
    unfold grow u32
    split <;> dsimp only at * <;> omega
  rw [hsize, slice_congr fun i _ => byte_congr_root (inode'.grow_root _) _ _,
    hw.slice fun h => ⟨hpos (hgap h).1 (hgap h).2.1, (hgap h).2.2⟩] at hst
  exact hst

theorem Inode.slice_truncate (h : ∀ pos < n, inode'.byte m' pos = if pos < inode.size then inode.byte m pos else 0) :
    inode'.slice m' 0 n = ByteFile.truncate (inode.slice m 0 inode.size) n := by
  refine map_congr_left fun i hi => ?_
  rw [Nat.zero_add, getD_slice, h i (mem_range.mp hi)]

theorem Truncated.byte {M : Multiset Nat} {newBlocks : Nat} (ht : Truncated σ σ' M inode inode' newBlocks)
    (ho : Owns σ.lfs (inode.tree σ.mem + M)) (hpos : pos / blockSize < newBlocks) :
    inode'.byte σ'.mem pos = inode.byte σ.mem pos := by
  rw [Inode.byte, Inode.byte, ht.lookup, if_pos hpos]
  split
  · rfl
  next h0 => rw [ht.frame _ (ho.leaf_fresh (lookup_mem_leaves h0)).1]

theorem lt_blocksOf (hn : n + blockSize - 1 < 2 ^ 32) (hpos : pos < n) : pos / blockSize < blocksOf n := by
  rw [blocksOf, if_neg (by omega), u32, Nat.mod_eq_of_lt hn]
  simp only [blockSize]
  omega

theorem exec_truncate_file (ho : Owns σ.lfs σ.forest) (hino : ino < maxInodes) (hn : n < 2 ^ 32)
    (hgrow : (σ.inodeAt ino).size ≤ n → (σ.inodeAt ino).ZeroGap σ.mem n)
    (hshrink : n < (σ.inodeAt ino).size → n + blockSize - 1 < 2 ^ 32) :
    (exec (limnfsTruncate ino n : LfsM ρ true _) σ).1 ∧
      FileStored σ (exec (limnfsTruncate ino n : LfsM ρ true _) σ).2 ino (ByteFile.truncate (σ.file ino) n) := by
  have hmod : n % 2 ^ 32 = n := Nat.mod_eq_of_lt hn
  by_cases h : (σ.inodeAt ino).size ≤ n
  · rw [exec_truncate_grow hino h]
    have hroot := (σ.inodeAt ino).root_resize n (σ.inodeAt ino).blockCount
    have hst := ho.fileStored (i := { σ.inodeAt ino with size := n }) hino (.refl _ _) (by
      rw [(tree_congr_root hroot).1]
      exact ho.inode hino)
    rw [hmod, slice_truncate fun pos hpos => (byte_congr_root hroot _ _).trans ?_] at hst
    · exact ⟨rfl, hst⟩
    · split
      · rfl
      · exact hgrow h pos (by omega) hpos
  · obtain ⟨d, i1, i2, i3, c, σ', he, ht⟩ := exec_truncate_shrink (ρ := ρ) ho hino (Nat.lt_of_not_le h)
    rw [he]
    have hroot := ({ σ.inodeAt ino with
      direct := d, indirect := i1, doubleIndirect := i2, tripleIndirect := i3 } : Inode).root_resize n c
    have hst := ho.fileStored hino (.of_frame ht.same (ho.inode hino) ht.frame) (by
      rw [(tree_congr_root hroot).1]
      exact ht.owns)
    rw [hmod, slice_truncate fun pos hpos => (byte_congr_root hroot _ _).trans ?_] at hst
    · exact ⟨rfl, hst⟩
    · rw [if_pos (by omega)]
      exact ht.byte (ho.inode hino) (lt_blocksOf (hshrink (Nat.lt_of_not_le h)) hpos)

end Files

inductive FileOp where
  | write (ino offset : Nat) (buf : Buf) (len : Nat)
  | truncate (ino newSize : Nat)
  | read (ino offset len : Nat)
  | flush
  /-- Another block is read through the cache, which may evict one. -/
  | evict (b : Nat)

structure FileRun where
  disk : LfsDisk
  files : Nat → List UInt8

def FileRun.step (s : FileRun) : FileOp → FileRun
  | .write ino offset buf len =>
    let r := s.disk.run (limnfsWriteData ino offset buf len : LfsW _)
    ⟨r.2, match r.1 with
      | none => s.files
      | some w => update s.files ino (ByteFile.write (s.files ino) offset ((range w).map buf))⟩
  | .truncate ino n =>
    let r := s.disk.run (limnfsTruncate ino n : LfsW _)
    ⟨r.2, if r.1 then update s.files ino (ByteFile.truncate (s.files ino) n) else s.files⟩
  | .read ino offset len => ⟨(s.disk.run (limnfsReadData ino offset len : LfsM true false _)).2, s.files⟩
  | .flush => ⟨⟨s.disk.lfs, flush s.disk.cache⟩, s.files⟩
  | .evict b => ⟨(s.disk.run (bcacheRead b : LfsM false false _)).2, s.files⟩

/-- The range that is read has no holes, a long one that looks contiguous is, and blocks that are beside each other
    on disk have a current copy there. -/
structure LfsDisk.ReadsBack (s : LfsDisk) (ino offset len : Nat) : Prop where
  mapped : (s.fs.inodeAt ino).Mapped s.fs.mem offset len
  spot : (s.fs.inodeAt ino).SpotChecked s.fs.mem offset len
  runs : (s.fs.inodeAt ino).RunsIn s.fs.mem offset len fun b => s.cache.dev.disk b = s.cache.view b

/-- A gap that a step brings into a file is stored as zeros, and no number is too large. -/
def FileOp.Fits (s : LfsDisk) : FileOp → Prop
  | .write ino offset _ len => ino < maxInodes → offset + len < 2 ^ 32 ∧
    ((s.fs.inodeAt ino).size < offset → 0 < len ∧
      ((s.fs.inodeAt ino).lookup s.fs.mem (offset / blockSize) ≠ 0 ∨
        (place (offset / blockSize)).1.height < s.lfs.super.freeBlocks) ∧
      (s.fs.inodeAt ino).ZeroGap s.fs.mem offset)
  | .truncate ino n => ino < maxInodes → n < 2 ^ 32 ∧
    ((s.fs.inodeAt ino).size ≤ n → (s.fs.inodeAt ino).ZeroGap s.fs.mem n) ∧
    (n < (s.fs.inodeAt ino).size → n + blockSize - 1 < 2 ^ 32)
  | .read ino offset len => ino < maxInodes → offset < (s.fs.inodeAt ino).size →
    s.ReadsBack ino offset (min len ((s.fs.inodeAt ino).size - offset))
  | .flush | .evict _ => True

/-- The file system is in order and holds the abstract files. -/
structure FileRun.Agrees (s : FileRun) : Prop where
  cache : s.disk.cache.Good
  owns : Owns s.disk.fs.lfs s.disk.fs.forest
  files : ∀ ino, ino < maxInodes → s.disk.fs.file ino = s.files ino

section Runs
attribute [local irreducible] maxInodes ptrsPerBlock flush
variable {s : FileRun}

theorem LfsDisk.run_raw {α : Type} {p : LfsM true false α} {s : LfsDisk} (h : s.cache.Good)
    (hraw : ∀ b ∈ rawBlocks p s.fs, s.cache.dev.disk b = s.cache.view b) :
    (s.run p).1 = (exec p s.fs).1 ∧ (s.run p).2.fs = ⟨(exec p s.fs).2.lfs, s.cache.view⟩ ∧ (s.run p).2.cache.Good := by
  obtain ⟨hval, hview, hgood⟩ := BlockProg.run_readOnly bcacheHandler_lawful (p.run s.lfs) h hraw
  exact ⟨congrArg Prod.fst hval, congrArg₂ Fs.mk (congrArg Prod.snd hval) hview, hgood⟩

theorem LfsDisk.run_reads {α : Type} {p : LfsM true false α} {s : LfsDisk} {a : α} (h : s.cache.Good)
    (hr : Reads p s.fs (fun b => s.cache.dev.disk b = s.cache.view b) a) :
    (s.run p).1 = a ∧ (s.run p).2.fs = s.fs ∧ (s.run p).2.cache.Good := by
  obtain ⟨hval, hfs, hgood⟩ := run_raw h hr.raw
  rw [hr.value] at hval hfs
  exact ⟨hval, hfs, hgood⟩

theorem FileRun.Agrees.store (h : s.Agrees) {d : LfsDisk} {ino : Nat} {f : List UInt8} (hgood : d.cache.Good)
    (hst : FileStored s.disk.fs d.fs ino f) : FileRun.Agrees ⟨d, update s.files ino f⟩ := by
  refine ⟨hgood, hst.owns, fun k hk => ?_⟩
  obtain rfl | hne := eq_or_ne k ino
  · exact hst.self.trans (update_self k f s.files).symm
  · exact (hst.other k hk hne).trans ((h.files k hk).trans (update_of_ne hne f s.files).symm)

theorem FileRun.Agrees.write (h : s.Agrees) {ino offset len : Nat} {buf : Buf}
    (hfit : (FileOp.write ino offset buf len).Fits s.disk) : (s.step (.write ino offset buf len)).Agrees := by
  obtain ⟨hval, hfs, hgood⟩ := run_exec (limnfsWriteData ino offset buf len : LfsW _) h.cache
  by_cases hino : ino < maxInodes
  · obtain ⟨w, he, hst⟩ := exec_writeData_file (ρ := false) buf h.owns hino (hfit hino).1 (hfit hino).2
    rw [← hfs, h.files ino hino] at hst
    have hstep : s.step (.write ino offset buf len) = ⟨(s.disk.run (limnfsWriteData ino offset buf len : LfsW _)).2,
        update s.files ino (ByteFile.write (s.files ino) offset ((range w).map buf))⟩ := by
      simp only [FileRun.step, hval, he]
    rw [hstep]
    exact h.store hgood hst
  · have he : exec (limnfsWriteData ino offset buf len : LfsW _) s.disk.fs = (none, s.disk.fs) := by
      rw [limnfsWriteData, exec_bind_of (exec_readInode ino), if_pos (by omega)]
      rfl
    rw [he] at hval hfs
    have hstep : s.step (.write ino offset buf len) =
        ⟨(s.disk.run (limnfsWriteData ino offset buf len : LfsW _)).2, s.files⟩ := by
      simp only [FileRun.step, hval]
    rw [hstep]
    exact ⟨hgood, hfs ▸ h.owns, hfs ▸ h.files⟩

theorem FileRun.Agrees.truncate (h : s.Agrees) {ino n : Nat} (hfit : (FileOp.truncate ino n).Fits s.disk) :
    (s.step (.truncate ino n)).Agrees := by
  obtain ⟨hval, hfs, hgood⟩ := run_exec (limnfsTruncate ino n : LfsW _) h.cache
  by_cases hino : ino < maxInodes
  · obtain ⟨hn, hgrow, hshrink⟩ := hfit hino
    obtain ⟨he, hst⟩ := exec_truncate_file (ρ := false) h.owns hino hn hgrow hshrink
    rw [← hfs, h.files ino hino] at hst
    have hstep : s.step (.truncate ino n) = ⟨(s.disk.run (limnfsTruncate ino n : LfsW _)).2,
        update s.files ino (ByteFile.truncate (s.files ino) n)⟩ := by
      simp only [FileRun.step, hval, he, if_true]
    rw [hstep]
    exact h.store hgood hst
  · have he : exec (limnfsTruncate ino n : LfsW _) s.disk.fs = (false, s.disk.fs) := by
      rw [limnfsTruncate, exec_bind_of (exec_readInode ino), if_pos (by omega)]
      rfl
    rw [he] at hval hfs
    have hstep : s.step (.truncate ino n) = ⟨(s.disk.run (limnfsTruncate ino n : LfsW _)).2, s.files⟩ := by
      simp only [FileRun.step, hval, if_neg Bool.false_ne_true]
    rw [hstep]
    exact ⟨hgood, hfs ▸ h.owns, hfs ▸ h.files⟩

theorem LfsDisk.reads_file {s : LfsDisk} (ho : Owns s.fs.lfs s.fs.forest) {ino offset len : Nat}
    (hfit : (FileOp.read ino offset len).Fits s) :
    Reads (limnfsReadData ino offset len : LfsM true false _) s.fs (fun b => s.cache.dev.disk b = s.cache.view b)
      (if ino < maxInodes then some (ByteFile.read (s.fs.file ino) offset len) else none) := by
  by_cases hino : ino < maxInodes
  · rw [if_pos hino, file, read_slice]
    by_cases hoff : offset < (s.fs.inodeAt ino).size
    · obtain ⟨hmap, hspot, hruns⟩ := hfit hino hoff
      exact reads_readData ho hino hoff hmap hspot hruns
    unfold limnfsReadData
    refine (Reads.readInode ino).bind ?_
    rw [if_neg (by omega)]
    dsimp only
    rw [if_pos (by omega), show min len ((s.fs.inodeAt ino).size - offset) = 0 by omega]
    exact .pure _
  · rw [if_neg hino]
    refine (Reads.readInode ino).bind ?_
    rw [if_pos (by omega)]
    exact .pure _

theorem FileRun.Agrees.step (h : s.Agrees) {op : FileOp} (hfit : op.Fits s.disk) : (s.step op).Agrees := by
  cases op with
  | write ino offset buf len => exact h.write hfit
  | truncate ino n => exact h.truncate hfit
  | read ino offset len =>
    obtain ⟨-, hfs, hgood⟩ := run_reads h.cache (reads_file h.owns hfit)
    exact ⟨hgood, hfs ▸ h.owns, hfs ▸ h.files⟩
  | flush =>
    obtain ⟨hgood, hview, -⟩ := h.cache.flush
    have hfs : (s.step .flush).disk.fs = s.disk.fs := congrArg (Fs.mk s.disk.lfs) hview
    exact ⟨hgood, hfs ▸ h.owns, hfs ▸ h.files⟩
  | evict b =>
    obtain ⟨-, hfs, hgood⟩ := run_exec (bcacheRead b : LfsM false false _) h.cache
    exact ⟨hgood, hfs ▸ h.owns, hfs ▸ h.files⟩

def FileRun.formatted (s : LfsDisk) (total : Nat) : FileRun := ⟨s.format total, fun _ => []⟩

theorem FileRun.formatted_agrees {s : LfsDisk} {total : Nat} (hcache : s.cache.Good) (hhint : s.lfs.allocHint = 0)
    (hfit : total + 7 < 2 ^ 32) (hdata : 1 + bitmapRows total + 1 + inodeBlocks < total) : (FileRun.formatted s total).Agrees := by
  obtain ⟨-, hfs, hgood⟩ := run_exec (limnfsFormat total true) hcache
  have hfs : (FileRun.formatted s total).disk.fs = (exec (limnfsFormat total true : LfsW Bool) s.fs).2 := hfs
  refine ⟨hgood, ?_, fun ino hino => ?_⟩
  · rw [hfs]
    exact (FsSound.format hfit hdata hhint).owns
  · obtain ⟨m, hm, he⟩ := exec_format (ρ := false) (σ := s.fs) total
    rw [hfs, file, he, formatted_inodeAt hfit hm hino]
    split <;> rfl

/-- After formatting, in every run of steps that fit, a read that fits returns the bytes of the abstract file. -/
theorem read_returns_file (s : LfsDisk) (hcache : s.cache.Good) (hhint : s.lfs.allocHint = 0) (total : Nat)
    (hfit : total + 7 < 2 ^ 32) (hdata : 1 + bitmapRows total + 1 + inodeBlocks < total) (ops : List FileOp)
    (hops : Guarded FileRun.step (fun t op => op.Fits t.disk) (FileRun.formatted s total) ops) (ino offset len : Nat)
    (hino : ino < maxInodes) (hread : (FileOp.read ino offset len).Fits (run FileRun.step (FileRun.formatted s total) ops).disk) :
    ((run FileRun.step (FileRun.formatted s total) ops).disk.run (limnfsReadData ino offset len : LfsM true false _)).1 =
      some (ByteFile.read ((run FileRun.step (FileRun.formatted s total) ops).files ino) offset len) := by
  have h := hops.invariant (fun t op ht hop => ht.step hop) (FileRun.formatted_agrees hcache hhint hfit hdata)
  rw [(run_reads h.cache (reads_file h.owns hread)).1, if_pos hino, h.files ino hino]

end Runs

def holeOps : List FileOp := [.truncate 1 5]

/-- The read of the grown file stops at once, for the file has no block. -/
theorem holeOps_short :
    ((run FileRun.step (FileRun.formatted boot 100) holeOps).disk.run (limnfsReadData 1 0 5 : LfsM true false _)).1 ≠
      some (ByteFile.read ((run FileRun.step (FileRun.formatted boot 100) holeOps).files 1) 0 5) := by
  obtain ⟨hgood, hfs⟩ := boot_format 100
  obtain ⟨hval, hfs', hgood'⟩ := run_exec (limnfsTruncate 1 5 : LfsW _) hgood
  rw [hfs] at hval hfs'
  have hok : ((boot.format 100).run (limnfsTruncate 1 5 : LfsW _)).1 = true := hval.trans (by decide +kernel)
  simp only [holeOps, run_cons, run_nil, FileRun.step, FileRun.formatted, hok, if_true, update_self]
  have hnone : rawBlocks (limnfsReadData 1 0 5 : LfsM true false _)
      ((boot.format 100).run (limnfsTruncate 1 5 : LfsW _)).2.fs = [] := by
    rw [hfs']
    decide +kernel
  rw [(run_raw hgood' fun b hb => absurd (hnone ▸ hb) not_mem_nil).1, hfs']
  decide +kernel

def keptFileOps : List FileOp := [.write 1 0 (fun i => UInt8.ofNat i) 5000, .flush, .truncate 1 4100]

def keptFile : Fs := (exec (limnfsWriteData 1 0 (fun i => UInt8.ofNat i) 5000 : LfsW _) (boot 100)).2

def keptFileCut : Fs := (exec (limnfsTruncate 1 4100 : LfsW _) keptFile).2

section Kept
attribute [local irreducible] flush LfsDisk.boot LfsDisk.format Fs.boot

theorem keptFileOps_fs :
    (run FileRun.step (FileRun.formatted boot 100) (keptFileOps.take 2)).disk.fs = keptFile ∧
      (run FileRun.step (FileRun.formatted boot 100) keptFileOps).disk.fs = keptFileCut := by
  obtain ⟨hgood, hfs⟩ := boot_format 100
  obtain ⟨-, hfs1, hgood1⟩ :=
    run_exec (limnfsWriteData 1 0 (fun i => UInt8.ofNat i) 5000 : LfsW _) hgood
  rw [hfs] at hfs1
  obtain ⟨hgood2, hview, -⟩ := hgood1.flush
  generalize hd : ((boot.format 100).run
    (limnfsWriteData 1 0 (fun i => UInt8.ofNat i) 5000 : LfsW _)).2 = d at *
  have hfs2 : (mk d.lfs (flush d.cache)).fs = keptFile := by
    rw [fs, hview]
    exact hfs1
  obtain ⟨-, hfs3, -⟩ := run_exec (s := ⟨d.lfs, flush d.cache⟩) (limnfsTruncate 1 4100 : LfsW _) hgood2
  rw [hfs2] at hfs3
  simp only [keptFileOps, take, run_cons, run_nil, FileRun.step, FileRun.formatted, hd]
  exact ⟨hfs2, hfs3⟩

end Kept

theorem keptFileOps_read :
    ((run FileRun.step (FileRun.formatted boot 100) keptFileOps).disk.run (limnfsReadData 1 4090 20 : LfsM true false _)).1 =
      some (ByteFile.read ((run FileRun.step (FileRun.formatted boot 100) keptFileOps).files 1) 4090 20) := by
  obtain ⟨hkept, hcut⟩ := keptFileOps_fs
  refine read_returns_file boot boot_good rfl 100 (by decide) (by decide) keptFileOps ?_ 1 4090 20
    (by decide) ?_
  · have hcond : (FileOp.truncate 1 4100).Fits (run FileRun.step (FileRun.formatted boot 100) (keptFileOps.take 2)).disk := by
      intro _
      rw [hkept]
      exact ⟨by decide, fun h => absurd h (by decide +kernel), fun _ => by decide⟩
    exact ⟨fun _ => ⟨by decide, fun h => absurd h (Nat.not_lt_zero _)⟩, trivial, hcond, trivial⟩
  · intro _ _
    constructor
    · intro l _ hl
      rw [hcut] at hl ⊢
      have hcases : l = 0 ∨ l = 1 := by
        simp only [blockSize] at hl
        omega
      rcases hcases with rfl | rfl <;> decide +kernel
    · intro hlong
      omega
    · rintro l ⟨h1, h2⟩
      simp only [blockSize] at h1 h2
      omega

end Limnx
