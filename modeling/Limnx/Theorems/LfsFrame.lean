import Limnx.Theorems.LfsFiles

/-! A call touches the inodes it is about (`LfsOp.Touches`); every other inode keeps its record, its blocks and their
    bytes (`Untouched`). -/

namespace Limnx
open Function Inode Multiset

attribute [local irreducible] maxInodes

structure Untouched (σ σ' : Fs) (x : Nat) : Prop where
  inode : σ'.inodeAt x = σ.inodeAt x
  blocks : ∀ b ∈ (σ.inodeAt x).tree σ.mem, σ'.mem b = σ.mem b
  mark : Bitmap.get σ'.lfs.inodeBitmap x = Bitmap.get σ.lfs.inodeBitmap x

section Frame
variable {ρ : Bool} {σ σ' σ'' : Fs} {x ino dirIno : Nat} {i : Inode} {name : CStr} {r : Bool × Fs}

namespace Untouched

theorem refl (σ : Fs) (x : Nat) : Untouched σ σ x := ⟨rfl, fun _ _ => rfl, rfl⟩

section
variable (h : Untouched σ σ' x)
include h

theorem tree : (σ'.inodeAt x).tree σ'.mem = (σ.inodeAt x).tree σ.mem := by
  rw [h.inode]
  exact (leaves_congr h.blocks).2.1

theorem trans (h' : Untouched σ' σ'' x) : Untouched σ σ'' x := by
  refine ⟨h'.inode.trans h.inode, fun b hb => (h'.blocks b ?_).trans (h.blocks b hb), h'.mark.trans h.mark⟩
  rw [h.tree]
  exact hb

theorem file : σ'.file x = σ.file x := by
  rw [Fs.file, Fs.file, h.inode]
  exact slice_congr fun _ _ => byte_congr h.blocks _

theorem clear (hx : x ∉ σ.lfs.clearInodes) : x ∉ σ'.lfs.clearInodes := by
  intro hc
  obtain ⟨hlt, hbit⟩ := Finset.mem_filter.mp hc
  exact hx (Finset.mem_filter.mpr ⟨hlt, h.mark ▸ hbit⟩)

end

end Untouched

variable (hx : x < maxInodes)
include hx

theorem Stored.untouched (h : Stored σ σ' ino i) (hsame : SameMeta σ.lfs σ'.lfs) (hne : x ≠ ino) : Untouched σ σ' x :=
  ⟨h.other x hx hne, fun b hb => h.kept b (mem_of_le (Fs.tree_le_forestBut hx hne) hb), by
    rw [hsame.inodeBitmap]⟩

section
variable (ho : Owns σ.lfs σ.forest)
include ho

theorem Keeps.untouched (hk : Keeps (σ.forestBut ino) σ σ') (hne : x ≠ ino) : Untouched σ σ' x :=
  ⟨Fs.inodeAt_congr ho.toLayout hk.same hk.outside hx,
    fun b hb => hk.kept b (mem_of_le (Fs.tree_le_forestBut hx hne) hb), by rw [hk.same.inodeBitmap]⟩

theorem Owns.untouched_store (hino : ino < maxInodes) (hk : Keeps (σ.forestBut ino) σ σ')
    (ho' : Owns σ'.lfs (i.tree σ'.mem + σ.forestBut ino)) (hne : x ≠ ino) : Untouched σ (σ'.setInode ino i) x :=
  (ho.store hino hk ho').2.1.untouched hx hk.same hne

theorem Owns.tree_data {b : Nat} (hb : b ∈ (σ.inodeAt x).tree σ.mem) : σ.lfs.super.dataStart ≤ b := by
  refine (ho.inside b ?_).1
  rw [σ.forest_split hx]
  exact mem_add.mpr (.inl hb)

theorem Owns.untouched_flushed : Untouched σ σ.flushed x := by
  have hmem : ∀ b, σ.lfs.super.inodeTblStart ≤ b → σ.flushed.mem b = σ.mem b := fun b hb => Fs.flushed_mem ho.toLayout hb
  refine ⟨(ho.low hmem).2 x, fun b hb => hmem b ?_, rfl⟩
  have := ho.tree_data hx hb
  have := ho.data
  omega

theorem Owns.untouched_leaf (hino : ino < maxInodes) {l : Nat}
    (hl : (σ.inodeAt ino).lookup σ.mem l ≠ 0) (d : Block) (hne : x ≠ ino) :
    Untouched σ ⟨σ.lfs, update σ.mem ((σ.inodeAt ino).lookup σ.mem l) d⟩ x :=
  Keeps.untouched hx ho ((ho.inode hino).update_leaf hl d).1 hne

end

theorem DirRemoved.untouched (hr : DirRemoved σ dirIno name r) (ho : Owns σ.lfs σ.forest)
    (hne : x ≠ dirIno) : Untouched σ r.2 x := by
  cases hr with
  | missing => exact .refl σ x
  | removed hdir hl => exact ho.untouched_leaf hx hdir.1 hl _ hne

theorem DirAdded.untouched {childIno type : Nat} (ha : DirAdded σ dirIno name childIno type r)
    (ho : Owns σ.lfs σ.forest) (hne : x ≠ dirIno) : Untouched σ r.2 x := by
  have hbut : ∀ x ∈ σ.forestBut dirIno, x ∈ (σ.inodeAt dirIno).leaves σ.mem + σ.forestBut dirIno := fun x hx =>
    mem_add.mpr (.inr hx)
  cases ha with
  | refused => exact .refl σ x
  | reused hdir _ hl => exact ho.untouched_leaf hx hdir.1 hl _ hne
  | full hdir _ _ ha => exact (ha.keeps.mono hbut).untouched hx ho hne
  | @appended σ1 dir b hdir _ _ hlast _ =>
    have hb := hlast.lookup (σ.inodeAt dirIno).endBlock
    rw [if_pos rfl] at hb
    rw [← hb]
    obtain ⟨hk, ho1, -, -⟩ := hlast.owns.update_leaf (hb ▸ hlast.ne) (Dentry.fill (σ1.mem (dir.lookup σ1.mem
      (σ.inodeAt dirIno).endBlock)) ((σ.inodeAt dirIno).totalEntries % dentriesPerBlock) childIno name type)
    refine ho.untouched_store hx hdir.1 ((hlast.keeps.mono hbut).trans hk) ?_ hne
    exact ho1

theorem InodeFreed.untouched (hf : InodeFreed σ ino σ') (ho : Owns σ.lfs σ.forest) (hne : x ≠ ino) :
    Untouched σ σ' x := by
  cases hf with
  | skipped => exact .refl σ x
  | @freed σ1 hlt _ hsame hk ho1 =>
    have hempty : Owns σ1.lfs (({} : Inode).tree σ1.mem + σ.forestBut ino) := by rwa [tree_empty, zero_add]
    have hst := ho.untouched_store hx hlt hk hempty hne
    have ho2 := (ho.store hlt hk hempty).1
    have ho3 : Owns ((σ1.setInode ino {}).lfs.unmarkInode ino) (σ1.setInode ino {}).forest :=
      ⟨⟨ho2.table, ho2.data, ho2.small⟩, ho2.nodup, ho2.inside, ho2.bit, ho2.free, ho2.hint⟩
    have hunmark : Untouched (σ1.setInode ino {})
        ⟨(σ1.setInode ino {}).lfs.unmarkInode ino, (σ1.setInode ino {}).mem⟩ x :=
      ⟨rfl, fun _ _ => rfl, Bitmap.get_clear_of_ne (Ne.symm hne)⟩
    exact (hst.trans hunmark).trans (Owns.untouched_flushed (σ := ⟨_, _⟩) hx ho3)

theorem FsSound.untouched_withInode (hs : FsSound σ) (hclear : ino ∈ σ.lfs.clearInodes) (hnull : ∀ t, i.root t = 0)
    (hne : x ≠ ino) : Untouched σ (σ.withInode ino i) x := by
  obtain ⟨-, -, hat, hdata⟩ := hs.withInode hclear hnull
  exact ⟨hat x hne, fun b hb => hdata b (hs.owns.tree_data hx hb), Bitmap.get_set_of_ne (Ne.symm hne)⟩

theorem Created.untouched {type mode parentIno : Nat} {r : Option Nat × Fs} (hc : Created σ type mode parentIno name r)
    (hs : FsSound σ) (hroot : ¬σ.LosesRoot parentIno) (hused : x ∉ σ.lfs.clearInodes)
    (hne : x ≠ parentIno) : Untouched σ r.2 x := by
  have hadded : ∀ {ino ok σ1}, ino ∈ σ.lfs.clearInodes →
      DirAdded (σ.withInode ino { type, mode, parent := parentIno }) parentIno name ino type (ok, σ1) →
      Untouched σ σ1 x ∧ FsSound σ1 ∧ x ≠ ino := fun {ino ok σ1} hclear hadd => by
    have hnull : ∀ t, ({ type, mode, parent := parentIno } : Inode).root t = 0 := fun t => by cases t <;> rfl
    have hxi : x ≠ ino := fun h => hused (h ▸ hclear)
    obtain ⟨hs2, -⟩ := hs.withInode hclear hnull
    exact ⟨(hs.untouched_withInode hx hclear hnull hxi).trans (hadd.untouched hx hs2.owns hne),
      (hs2.added hadd (hs.not_loses hclear hroot)).1, hxi⟩
  cases hc with
  | noInode => exact .refl σ x
  | made hclear _ hadd => exact (hadded hclear hadd).1
  | failed hclear _ hadd hfree =>
    obtain ⟨hu, hs1, hxi⟩ := hadded hclear hadd
    exact hu.trans (hfree.untouched hx hs1.owns hxi)

theorem LfsDeleted.untouched {parentIno : Nat} (hd : LfsDeleted σ parentIno name r) (hs : FsSound σ)
    (hne : x ≠ parentIno) (hchild : σ.child parentIno name ≠ some x) : Untouched σ r.2 x := by
  cases hd with
  | kept => exact .refl σ x
  | deleted hc _ _ hremove hfree =>
    have hxc : x ≠ _ := fun h => hchild (h ▸ hc)
    exact (hremove.untouched hx hs.owns hne).trans (hfree.untouched hx (hs.removed hremove).1.owns hxc)

theorem untouched_writeData {offset len : Nat} (buf : Buf) (ho : Owns σ.lfs σ.forest)
    (hfit : offset + len ≤ maxFileBlocks * blockSize) (hne : x ≠ ino) :
    Untouched σ (exec (limnfsWriteData ino offset buf len : LfsM ρ true _) σ).2 x := by
  by_cases hlt : ino < maxInodes
  · obtain ⟨w, inode', σ', he, hw, -⟩ := exec_writeData (ρ := ρ) buf ho hlt hfit
    rw [he]
    exact ho.untouched_store hx hlt hw.keeps hw.store hne
  · rw [limnfsWriteData, exec_bind_of (exec_readInode ino), if_pos (by omega)]
    exact .refl σ x

theorem LfsTruncated.untouched {σ' : Fs} (ht : LfsTruncated σ ino σ') (ho : Owns σ.lfs σ.forest)
    (hne : x ≠ ino) : Untouched σ σ' x := by
  cases ht with
  | refused => exact .refl σ x
  | resized hlt hk hstore => exact ho.untouched_store hx hlt hk hstore hne

omit hx in
theorem Inode.root_setMode (i : Inode) (mode : Nat) : ({ i with mode } : Inode).root = i.root := by
  funext t
  cases t <;> rfl

section
variable (hs : FsSound σ) (hlt : ino < maxInodes) (mode : Nat)
include hs hlt

omit hx in
theorem FsSound.owns_setMode : Owns σ.lfs (({ σ.inodeAt ino with mode } : Inode).tree σ.mem + σ.forestBut ino) := by
  exact hs.owns.inode hlt

omit hx in
theorem FsSound.setMode : FsSound (σ.setInode ino { σ.inodeAt ino with mode }) := by
  refine hs.store hlt (.refl _ _) (hs.owns_setMode hlt mode) fun h => ⟨fun t => ?_, ?_⟩
  · rw [root_setMode]
    exact (hs.unused ino h).1 t
  · have htype := (hs.unused ino h).2
    simp only [stored, htype]
    rfl

end

theorem FsSound.modeWritten (hs : FsSound σ) (ino : Nat) (stack : Inode) (mode : Nat) (hne : x ≠ ino) :
    FsSound (exec (limnfsWriteInode ino
        { (exec (limnfsReadInode ino : LfsM ρ true _) σ).1.getD stack with mode } : LfsM ρ true _) σ).2 ∧
      Untouched σ (exec (limnfsWriteInode ino
        { (exec (limnfsReadInode ino : LfsM ρ true _) σ).1.getD stack with mode } : LfsM ρ true _) σ).2 x := by
  rw [exec_readInode]
  by_cases hlt : ino < maxInodes
  · rw [if_neg (Nat.not_le.mpr hlt), exec_writeInode hlt]
    exact ⟨hs.setMode hlt mode, hs.owns.untouched_store hx hlt (.refl _ _) (hs.owns_setMode hlt mode) hne⟩
  · rw [limnfsWriteInode, exec_ite, if_pos (Nat.not_lt.mp hlt)]
    exact ⟨hs, .refl σ x⟩

def LfsOp.Touches (σ : Fs) : LfsOp → Nat → Prop
  | .createFile p _, x | .createDir p _, x => x = p
  | .writeData ino _ _ _, x | .truncate ino _, x => x = ino
  | .dirAdd d _ _ _, x | .dirRemove d _, x => x = d
  | .delete p name, x => x = p ∨ σ.child p name = some x

theorem FsSound.untouched {op : LfsOp} (hs : FsSound σ) (hsafe : op.Safe σ)
    (hused : x ∉ σ.lfs.clearInodes) (h : ¬op.Touches σ x) : Untouched σ (σ.step op) x := by
  rw [Fs.step]
  cases op with rw [LfsOp.prog, exec_discard]
  | createFile p name | createDir p name => exact (exec_create hs _ _ name hsafe).untouched hx hs hsafe hused h
  | writeData ino offset buf len => exact untouched_writeData hx buf hs.owns hsafe.2 h
  | truncate ino n => exact (exec_truncate hs.owns ino n).untouched hx hs.owns h
  | dirAdd d name c t => exact (exec_dirAdd hs.owns d name c t).untouched hx hs.owns h
  | dirRemove d name => exact (exec_dirRemove σ d name).untouched hx hs.owns h
  | delete p name =>
    obtain ⟨hp, hc⟩ := not_or.mp h
    exact (exec_delete hs p name).untouched hx hs hp hc

end Frame

/-- The program leaves what LimnFS has in memory as it is, whatever the device answers. -/
structure ReadsOnly {ρ ω : Bool} {α : Type} (p : LfsM ρ ω α) : Prop where
  run : ∀ {σ : Type} (H : Handler Block σ) (lfs : Lfs) (s : σ), (BlockProg.run H (p.run lfs) s).1.2 = lfs

namespace ReadsOnly
variable {ρ ω : Bool} {α β : Type} {p q : LfsM ρ ω α}

theorem pure (a : α) : ReadsOnly (pure a : LfsM ρ ω α) := ⟨fun _ _ _ => rfl⟩

theorem bind {f : α → LfsM ρ ω β} (hp : ReadsOnly p) (hf : ∀ a, ReadsOnly (f a)) : ReadsOnly (p >>= f) := by
  refine ⟨fun H lfs s => ?_⟩
  rw [StateT.run_bind, BlockProg.run_bind]
  exact ((hf _).run H _ _).trans (hp.run H lfs s)

theorem ite {c : Prop} [Decidable c] (hp : ReadsOnly p) (hq : ReadsOnly q) : ReadsOnly (if c then p else q) := by
  split
  · exact hp
  · exact hq

theorem get : ReadsOnly (get : LfsM ρ ω Lfs) := ⟨fun _ _ _ => rfl⟩

theorem bcacheRead (b : Nat) : ReadsOnly (bcacheRead b : LfsM ρ ω _) := ⟨fun _ _ _ => rfl⟩

theorem blkReadMulti (b n : Nat) : ReadsOnly (blkReadMulti b n : LfsM true ω _) := ⟨fun _ _ _ => rfl⟩

theorem readInode (ino : Nat) : ReadsOnly (limnfsReadInode ino : LfsM ρ ω _) := by
  refine .ite (.pure _) (.bind .get fun s => .bind (.bcacheRead _) fun o => ?_)
  cases o with
  | none => exact .pure _
  | some b => exact .pure _

theorem followPath : ∀ (path : List Nat) (b : Nat), ReadsOnly (followPath b path : LfsM ρ ω Nat)
  | [], b => .pure b
  | i :: path, b => by
    refine .bind (.bcacheRead b) fun o => ?_
    cases o with
    | none => exact .pure _
    | some ptrs => exact .ite (.pure _) (followPath path _)

theorem getFileBlock (inode : Inode) (lb : Nat) : ReadsOnly (getFileBlock inode lb : LfsM ρ ω Nat) := by
  unfold Limnx.getFileBlock
  split
  · exact .pure _
  · exact .ite (.followPath _ _) (.ite (.followPath _ _) (.ite (.followPath _ _) (.pure _)))

theorem allM {f : β → LfsM ρ ω Bool} (hf : ∀ b, ReadsOnly (f b)) : ∀ l : List β, ReadsOnly (l.allM f)
  | [] => .pure _
  | b :: l => by
    refine .bind (hf b) fun c => ?_
    cases c with
    | false => exact .pure _
    | true => exact allM hf l

theorem spotChecks (inode : Inode) (startLb n first : Nat) : ReadsOnly (spotChecks inode startLb n first : LfsM ρ ω Bool) :=
  .allM (fun _ => .ite (.pure _) (.bind (.getFileBlock _ _) fun _ => .pure _)) _

theorem bulkRead (len : Nat) : ∀ (fuel blk : Nat) (acc : List UInt8), ReadsOnly (bulkRead len fuel blk acc : LfsM true ω _)
  | 0, _, _ => .pure _
  | fuel + 1, blk, acc => by
    refine .ite (.pure _) (.bind (.blkReadMulti _ _) fun o => ?_)
    cases o with
    | none => exact .pure _
    | some bs => exact bulkRead len fuel _ _

theorem sequentialTail (len : Nat) (head : Option (Nat × List UInt8)) :
    ReadsOnly (do
      match head with
      | none => return none
      | some (blk, acc) =>
        match ← Limnx.bulkRead len len blk acc with
        | none => return none
        | some (blk, acc) =>
          if acc.length < len then
            match ← Limnx.bcacheRead blk with
            | none => return none
            | some b => return some (acc ++ blockSlice b 0 (len - acc.length))
          else return some acc : LfsM true ω (Option (List UInt8))) := by
  cases head with
  | none => exact .pure _
  | some r =>
    refine .bind (.bulkRead _ _ _ _) fun o => ?_
    cases o with
    | none => exact .pure _
    | some r =>
      refine .ite (.bind (.bcacheRead _) fun o => ?_) (.pure _)
      cases o with
      | none | some b => exact .pure _

theorem readDataSequential (inode : Inode) (offset len : Nat) :
    ReadsOnly (limnfsReadDataSequential inode offset len : LfsM true ω _) := by
  have htail := sequentialTail (ω := ω) len
  refine .bind (.getFileBlock _ _) fun first => .ite (.pure _) (.bind (.spotChecks _ _ _ _) fun ok => .ite (.pure _) ?_)
  refine .ite (.bind (.pure _) htail) (.bind (.bcacheRead _) fun o => ?_)
  cases o with
  | none | some b => exact .bind (.pure _) htail

theorem runLength (inode : Inode) (lb db maxRun : Nat) :
    ∀ fuel run : Nat, ReadsOnly (runLength inode lb db maxRun fuel run : LfsM ρ ω Nat)
  | 0, _ => .pure _
  | fuel + 1, run =>
    .ite (.pure _) (.bind (.getFileBlock _ _) fun _ => .ite (.pure _) (runLength inode lb db maxRun fuel (run + 1)))

theorem readBlock {p : List UInt8 → LfsM true ω (List UInt8)} (hp : ∀ acc, ReadsOnly (p acc)) (acc : List UInt8)
    (db off n : Nat) :
    ReadsOnly (do
      match ← Limnx.bcacheRead db with
      | none => return acc
      | some b => p (acc ++ blockSlice b off n)) := by
  refine .bind (.bcacheRead _) fun o => ?_
  cases o with
  | none => exact .pure _
  | some b => exact hp _

theorem readLoop (inode : Inode) (offset len : Nat) :
    ∀ (fuel : Nat) (acc : List UInt8), ReadsOnly (readLoop inode offset len fuel acc : LfsM true ω _)
  | 0, _ => .pure _
  | fuel + 1, acc => by
    have hblock := readBlock (readLoop inode offset len fuel) acc
    refine .ite (.pure _) (.bind (.getFileBlock _ _) fun db => .ite (.pure _) (.ite ?_ (hblock _ _ _)))
    refine .bind (.runLength _ _ _ _ _ _) fun run => .ite (.bind (.blkReadMulti _ _) fun o => ?_) (hblock _ _ _)
    cases o with
    | none => exact hblock _ _ _
    | some bs => exact readLoop inode offset len fuel _

theorem readData (ino offset len : Nat) : ReadsOnly (limnfsReadData ino offset len : LfsM true ω _) := by
  have hslow : ∀ inode n, ReadsOnly (do return some (← Limnx.readLoop inode offset n n []) : LfsM true ω _) := fun _ _ =>
    .bind (.readLoop _ _ _ _ _) fun _ => .pure _
  refine .bind (.readInode _) fun o => ?_
  cases o with
  | none => exact .pure _
  | some inode =>
    refine .ite (.pure _) (.ite (.bind (.readDataSequential _ _ _) fun fast => ?_) (hslow _ _))
    cases fast with
    | none => exact hslow _ _
    | some bytes => exact .pure _

end ReadsOnly

theorem LfsDisk.run_readsOnly {ρ : Bool} {α : Type} {p : LfsM ρ false α} (hp : ReadsOnly p) {s : LfsDisk} (h : s.cache.Good) :
    (s.run p).2.fs = s.fs ∧ (s.run p).2.cache.Good := by
  obtain ⟨hview, hgood⟩ := BlockProg.run_keeps_view Bcache.bcacheHandler_lawful (p.run s.lfs) h
  have hlfs : (s.run p).2.lfs = s.lfs := hp.run bcacheHandler s.lfs s.cache
  refine ⟨?_, hgood⟩
  show Fs.mk _ _ = Fs.mk _ _
  rw [hlfs]
  exact congrArg (Fs.mk s.lfs) hview

end Limnx
