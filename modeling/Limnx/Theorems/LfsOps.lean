import Limnx.Theorems.LfsStore
import Limnx.Theorems.LfsData

/-! What the operations of LimnFS do to blocks and inodes. -/

open Bool

namespace Limnx
open Function Finset Bitmap Inode

theorem maxInodes_eq : maxInodes = 1024 := rfl

attribute [local irreducible] maxInodes

section Ops
variable {ρ ω : Bool} {σ σ' : Fs} {ino : Nat} {i : Inode} {offset len : Nat}

theorem Owns.low (ho : Owns σ.lfs σ.forest) {m : Disk} (hm : ∀ x, σ.lfs.super.inodeTblStart ≤ x → m x = σ.mem x) :
    Owns σ.lfs (Fs.mk σ.lfs m).forest ∧ ∀ k, (Fs.mk σ.lfs m).inodeAt k = σ.inodeAt k := by
  have hat : ∀ k, (Fs.mk σ.lfs m).inodeAt k = σ.inodeAt k := fun k => by
    simp only [Fs.inodeAt, Lfs.inodeBlock]
    rw [hm _ (Nat.le_add_right _ _)]
  refine ⟨?_, hat⟩
  have hforest : (Fs.mk σ.lfs m).forest = σ.forest := by
    refine sum_congr rfl fun k hk => ?_
    rw [hat]
    refine (leaves_congr fun x hx => hm x ?_).2.1
    have hx' : x ∈ σ.forest := by
      rw [σ.forest_split (mem_range.mp hk)]
      exact Multiset.mem_add.mpr (.inl hx)
    have := (ho.inside x hx').1
    have := ho.data
    omega
  rw [hforest]
  exact ho

theorem FsSound.low (hs : FsSound σ) {m : Disk} (hm : ∀ x, σ.lfs.super.inodeTblStart ≤ x → m x = σ.mem x) :
    FsSound ⟨σ.lfs, m⟩ := by
  obtain ⟨ho, hat⟩ := hs.owns.low hm
  refine ⟨ho, fun k hk => ?_, hs.count⟩
  rw [hat k]
  exact hs.unused k hk

theorem exec_flushBitmap : exec (flushInodeBitmap : LfsM ρ true Bool) σ = (true, ⟨σ.lfs, update σ.mem
    (1 + σ.lfs.bitmapBlocks) (Bytes.make fun i => if i < 128 then σ.lfs.inodeBitmap i else 0)⟩) := rfl

theorem exec_flushSuperblock : exec (flushSuperblock : LfsM ρ true Bool) σ =
    (true, ⟨σ.lfs, update σ.mem 0 σ.lfs.super.encode⟩) := rfl

def Fs.flushed (σ : Fs) : Fs :=
  ⟨σ.lfs, update (update σ.mem (1 + σ.lfs.bitmapBlocks)
    (Bytes.make fun i => if i < 128 then σ.lfs.inodeBitmap i else 0)) 0 σ.lfs.super.encode⟩

theorem Fs.flushed_mem (hl : Layout σ.lfs) {x : Nat} (hx : σ.lfs.super.inodeTblStart ≤ x) : σ.flushed.mem x = σ.mem x := by
  have := hl.table
  show update (update _ _ _) _ _ x = _
  rw [update_of_ne (by omega), update_of_ne (by omega)]

theorem FsSound.flushed (hs : FsSound σ) : FsSound σ.flushed := hs.low fun _ hx => Fs.flushed_mem hs.owns.toLayout hx

variable (s : Lfs)

def Lfs.markInode (ino : Nat) : Lfs :=
  { s with
    inodeBitmap := set s.inodeBitmap ino
    super := { s.super with freeInodes := pred32 s.super.freeInodes } }

def Lfs.unmarkInode (ino : Nat) : Lfs :=
  { s with
    inodeBitmap := clear s.inodeBitmap ino
    super := { s.super with freeInodes := u32 (s.super.freeInodes + 1) } }

theorem Lfs.clearInodes_mark (ino : Nat) : (s.markInode ino).clearInodes = s.clearInodes.erase ino := by
  ext k
  simp only [Lfs.clearInodes, Lfs.markInode, mem_filter, mem_erase, get_set, or_eq_false_iff,
    decide_eq_false_iff_not]
  grind

theorem Lfs.clearInodes_unmark (h : ino < maxInodes) : (s.unmarkInode ino).clearInodes = insert ino s.clearInodes := by
  ext k
  simp only [Lfs.clearInodes, Lfs.unmarkInode, mem_filter, mem_insert, get_clear,
    mem_range, and_eq_false_iff, not_eq_false', decide_eq_true_eq]
  grind

theorem Lfs.clearInodes_card_le : s.clearInodes.card ≤ 1024 := by
  have := card_filter_le (range maxInodes) fun ino => get s.inodeBitmap ino = false
  rw [card_range] at this
  exact this.trans_eq maxInodes_eq

theorem FsSound.mark (hs : FsSound σ) (h : ino ∈ σ.lfs.clearInodes) : FsSound ⟨σ.lfs.markInode ino, σ.mem⟩ := by
  have ho := hs.owns
  have hpos := card_pos.mpr ⟨ino, h⟩
  refine ⟨{ ho with }, fun k hk => ?_, ?_⟩
  · rw [Lfs.clearInodes_mark] at hk
    exact hs.unused k (mem_of_mem_erase hk)
  · rw [Lfs.clearInodes_mark, card_erase_of_mem h, ← hs.count]
    rw [← hs.count] at hpos
    simp only [Lfs.markInode, pred32]
    rw [if_neg (by omega)]

theorem FsSound.unmark (hs : FsSound σ) (hino : ino < maxInodes) (h : ino ∉ σ.lfs.clearInodes)
    (hroot : ∀ s, (σ.inodeAt ino).root s = 0) (htype : (σ.inodeAt ino).type = typeFree) :
    FsSound ⟨σ.lfs.unmarkInode ino, σ.mem⟩ := by
  have ho := hs.owns
  have hle := σ.lfs.clearInodes_card_le
  refine ⟨{ ho with }, fun k hk => ?_, ?_⟩
  · rw [Lfs.clearInodes_unmark _ hino] at hk
    rcases mem_insert.mp hk with rfl | hk
    · exact ⟨hroot, htype⟩
    · exact hs.unused k hk
  · rw [Lfs.clearInodes_unmark _ hino, card_insert_of_notMem h, ← hs.count]
    rw [← hs.count] at hle
    simp only [Lfs.unmarkInode, u32]
    omega

theorem exec_allocInode :
    exec (limnfsAllocInode : LfsM ρ true _) σ = (none, σ) ∨
      ∃ ino, ino ∈ σ.lfs.clearInodes ∧ ino ≠ 0 ∧
        exec (limnfsAllocInode : LfsM ρ true _) σ = (some ino, Fs.flushed ⟨σ.lfs.markInode ino, σ.mem⟩) := by
  unfold limnfsAllocInode
  rw [exec_get_bind]
  cases hfirst : firstClear σ.lfs.inodeBitmap 1 maxInodes with
  | none => exact .inl rfl
  | some ino =>
    obtain ⟨h1, h2, hbit⟩ := firstClear_some hfirst
    refine .inr ⟨ino, mem_filter.mpr ⟨mem_range.mpr h2, hbit⟩, by omega, ?_⟩
    rfl

theorem Owns.inode (ho : Owns σ.lfs σ.forest) (hino : ino < maxInodes) :
    Owns σ.lfs ((σ.inodeAt ino).tree σ.mem + σ.forestBut ino) := by
  rwa [← Fs.forest_split σ hino]

theorem Keeps.of_frame {M : Multiset Nat} (hsame : SameMeta σ.lfs σ'.lfs) (ho : Owns σ.lfs (i.tree σ.mem + M))
    (hframe : ∀ x, x ∉ i.nodes σ.mem → σ'.mem x = σ.mem x) : Keeps M σ σ' := by
  have hnodes : ∀ x ∈ i.nodes σ.mem, x ∈ i.tree σ.mem := fun x hx => Multiset.mem_of_le nodes_le_tree hx
  refine ⟨hsame, fun x hx => hframe x fun hn => ?_, fun x hx => hframe x fun hn => ?_⟩
  · exact Multiset.disjoint_left.mp (Multiset.nodup_add.mp ho.nodup).2.2 (hnodes x hn) hx
  · have := (ho.inside x (Multiset.mem_add.mpr (.inl (hnodes x hn)))).1
    omega

inductive InodeFreed (σ : Fs) (ino : Nat) : Fs → Prop
  | skipped (hskip : ino = 0 ∨ maxInodes ≤ ino) : InodeFreed σ ino σ
  | freed {σ1 : Fs} (hlt : ino < maxInodes) (hino0 : ino ≠ 0) (hsame : SameMeta σ.lfs σ1.lfs)
      (hk : Keeps (σ.forestBut ino) σ σ1) (ho : Owns σ1.lfs (σ.forestBut ino)) :
      InodeFreed σ ino (Fs.flushed ⟨(σ1.setInode ino {}).lfs.unmarkInode ino, (σ1.setInode ino {}).mem⟩)

theorem exec_freeInode (ho : Owns σ.lfs σ.forest) (ino : Nat) :
    ∃ σ', exec (limnfsFreeInode ino : LfsM ρ true Unit) σ = ((), σ') ∧ InodeFreed σ ino σ' := by
  unfold limnfsFreeInode
  by_cases hskip : ino = 0 ∨ maxInodes ≤ ino
  · rw [if_pos hskip]
    exact ⟨σ, rfl, .skipped hskip⟩
  have hlt : ino < maxInodes := by omega
  rw [if_neg hskip, exec_bind_of (exec_readInode ino), if_neg (by omega)]
  obtain ⟨σ1, hsame, hframe, ho1, he⟩ := exec_freeSlots (ρ := ρ) (ω := true) (ho.inode hlt)
  rw [he, exec_bind_of (exec_writeInode hlt {}), exec_modify_bind, exec_bind_of exec_flushBitmap,
    exec_bind_of exec_flushSuperblock]
  exact ⟨_, rfl, .freed hlt (by omega) hsame (.of_frame hsame (ho.inode hlt) hframe) ho1⟩

theorem Inode.tree_empty (m : Disk) : ({} : Inode).tree m = 0 := tree_of_null fun t => by cases t <;> rfl

theorem FsSound.clearInode (hs : FsSound σ) (hlt : ino < maxInodes) (hk : Keeps (σ.forestBut ino) σ σ')
    (ho : Owns σ'.lfs (σ.forestBut ino)) : FsSound (σ'.setInode ino {}) := by
  refine hs.store hlt hk ?_ fun _ => ⟨fun t => by cases t <;> rfl, rfl⟩
  rwa [tree_empty, zero_add]

theorem FsSound.freed (hs : FsSound σ) (hf : InodeFreed σ ino σ') (hino : ino < maxInodes → ino ∉ σ.lfs.clearInodes) :
    FsSound σ' := by
  cases hf with
  | skipped => exact hs
  | @freed σ1 hlt _ hsame hk ho =>
    have hclear : (σ1.setInode ino {}).lfs.clearInodes = σ.lfs.clearInodes := hsame.clearInodes
    refine ((hs.clearInode hlt hk ho).unmark hlt (hclear ▸ hino hlt) (fun t => ?_) ?_).flushed
    · rw [Fs.setInode_self]
      cases t <;> rfl
    · rw [Fs.setInode_self]
      rfl

variable (i : Inode)

def Inode.grow (finish : Nat) : Inode := if i.size < finish then { i with size := u32 finish } else i

theorem Inode.grow_root (n : Nat) : (i.grow n).root = i.root := by
  unfold grow
  split
  · funext t
    cases t <;> rfl
  · rfl

theorem exec_writeData (buf : Buf) (ho : Owns σ.lfs σ.forest) (hino : ino < maxInodes)
    (hfit : offset + len ≤ maxFileBlocks * blockSize) :
    ∃ w inode' σ', exec (limnfsWriteData ino offset buf len : LfsM ρ true _) σ =
        (some w, σ'.setInode ino (inode'.grow (offset + w))) ∧
      Written σ σ' (σ.forestBut ino) (σ.inodeAt ino) inode' offset buf 0 w ∧ w ≤ len ∧
      (0 < len → (σ.inodeAt ino).lookup σ.mem (offset / blockSize) ≠ 0 ∨
        (place (offset / blockSize)).1.height < σ.lfs.super.freeBlocks → 0 < w) ∧
      ((∀ l, offset / blockSize ≤ l → l * blockSize < offset + len → (σ.inodeAt ino).lookup σ.mem l ≠ 0) →
        inode' = σ.inodeAt ino ∧ σ'.lfs = σ.lfs) := by
  obtain ⟨w, inode', σ', he, hw, hle, hpos, hsame⟩ := exec_writeLoop (ρ := ρ) buf hfit len (Nat.zero_le len) (ho.inode hino)
  refine ⟨w, inode', σ', ?_, hw, hle, fun h => hpos h h, hsame⟩
  have hfin : u64 (offset + w) = offset + w := by
    refine Nat.mod_eq_of_lt ?_
    have hmax : maxFileBlocks * blockSize < 2 ^ 64 := by decide
    omega
  rw [limnfsWriteData, exec_bind_of (exec_readInode ino), if_neg (by omega)]
  rw [exec_bind_of he]
  simp only [hfin]
  rw [exec_bind_of (exec_writeInode hino _)]
  rfl

theorem Written.store {inode' : Inode} {offset w n : Nat} {buf : Buf}
    (hw : Written σ σ' (σ.forestBut ino) (σ.inodeAt ino) inode' offset buf 0 w) :
    Owns σ'.lfs ((inode'.grow n).tree σ'.mem + σ.forestBut ino) := by
  rw [(tree_congr_root (inode'.grow_root n)).1]
  exact hw.owns

theorem FsSound.writeData (hs : FsSound σ) (buf : Buf)
    (hino : ino < maxInodes → ino ∉ σ.lfs.clearInodes) (hfit : offset + len ≤ maxFileBlocks * blockSize) :
    FsSound (exec (limnfsWriteData ino offset buf len : LfsM ρ true _) σ).2 := by
  by_cases hlt : ino < maxInodes
  · obtain ⟨w, inode', σ', he, hw, -⟩ := exec_writeData (ρ := ρ) buf hs.owns hlt hfit
    rw [he]
    exact hs.store hlt hw.keeps hw.store fun h => absurd h (hino hlt)
  · rw [limnfsWriteData, exec_bind_of (exec_readInode ino), if_pos (by omega)]
    exact hs

def blocksOf (newSize : Nat) : Nat := if newSize = 0 then 0 else u32 (newSize + blockSize - 1) / blockSize

theorem exec_truncate_grow {newSize : Nat} (hino : ino < maxInodes) (h : (σ.inodeAt ino).size ≤ newSize) :
    exec (limnfsTruncate ino newSize : LfsM ρ true _) σ =
      (true, σ.setInode ino { σ.inodeAt ino with size := newSize }) := by
  rw [limnfsTruncate, exec_bind_of (exec_readInode ino), if_neg (by omega)]
  dsimp only
  rw [if_pos h, exec_writeInode hino]

theorem exec_truncate_shrink {newSize : Nat} (ho : Owns σ.lfs σ.forest) (hino : ino < maxInodes)
    (h : newSize < (σ.inodeAt ino).size) :
    ∃ d i1 i2 i3 n σ', exec (limnfsTruncate ino newSize : LfsM ρ true _) σ =
        (true, σ'.setInode ino { σ.inodeAt ino with
          direct := d, indirect := i1, doubleIndirect := i2, tripleIndirect := i3, size := newSize, blockCount := n }) ∧
      Truncated σ σ' (σ.forestBut ino) (σ.inodeAt ino)
        { σ.inodeAt ino with direct := d, indirect := i1, doubleIndirect := i2, tripleIndirect := i3 } (blocksOf newSize) := by
  obtain ⟨d, i1, i2, i3, σ1, σ2, σ3, σ', he1, he2, he3, he4, ht⟩ :=
    exec_truncateSlots (ρ := ρ) (blocksOf newSize) (ho.inode hino)
  refine ⟨d, i1, i2, i3, blocksOf newSize + ((if i1 ≠ 0 then 1 else 0) + (if i2 ≠ 0 then 1 else 0) +
    (if i3 ≠ 0 then 1 else 0)), σ', ?_, ht⟩
  rw [limnfsTruncate, exec_bind_of (exec_readInode ino), if_neg (by omega)]
  dsimp only
  rw [if_neg (by omega)]
  simp only [show (if newSize = 0 then 0 else u32 (newSize + blockSize - 1) / blockSize) = blocksOf newSize from rfl]
  rw [exec_bind_of he1, exec_bind_of he2, exec_bind_of he3, exec_bind_of he4, exec_writeInode hino]

theorem Inode.root_resize (n k : Nat) : ({ i with size := n, blockCount := k } : Inode).root = i.root := by
  funext t
  cases t <;> rfl

inductive LfsTruncated (σ : Fs) (ino : Nat) : Fs → Prop
  | refused : LfsTruncated σ ino σ
  | resized {i : Inode} {σ' : Fs} (hlt : ino < maxInodes) (hk : Keeps (σ.forestBut ino) σ σ')
      (ho : Owns σ'.lfs (i.tree σ'.mem + σ.forestBut ino)) (htype : i.type = (σ.inodeAt ino).type)
      (hroots : ∀ t, i.root t = (σ.inodeAt ino).root t ∨ i.root t = 0)
      (hblocks : ∀ b ∈ i.tree σ'.mem, b ∈ (σ.inodeAt ino).tree σ.mem) : LfsTruncated σ ino (σ'.setInode ino i)

theorem exec_truncate (ho : Owns σ.lfs σ.forest) (ino newSize : Nat) :
    LfsTruncated σ ino (exec (limnfsTruncate ino newSize : LfsM ρ true _) σ).2 := by
  by_cases hlt : ino < maxInodes
  · by_cases hgrow : (σ.inodeAt ino).size ≤ newSize
    · rw [exec_truncate_grow hlt hgrow]
      have hroot := (σ.inodeAt ino).root_resize newSize (σ.inodeAt ino).blockCount
      have htree m := (tree_congr_root (m := m) hroot).1
      refine .resized hlt (.refl _ _) ?_ rfl (fun t => .inl (congrFun hroot t)) fun b hb => ?_
      · rw [htree]
        exact ho.inode hlt
      · rwa [htree] at hb
    · obtain ⟨d, i1, i2, i3, n, σ', he, ht⟩ := exec_truncate_shrink (ρ := ρ) ho hlt (Nat.lt_of_not_le hgrow)
      rw [he]
      have hroot := ({ σ.inodeAt ino with
        direct := d, indirect := i1, doubleIndirect := i2, tripleIndirect := i3 } : Inode).root_resize newSize n
      have htree m := (tree_congr_root (m := m) hroot).1
      refine .resized hlt (.of_frame ht.same (ho.inode hlt) ht.frame) ?_ rfl (fun t => ?_) fun b hb => ?_
      · rw [htree]
        exact ht.owns
      · rw [hroot]
        exact ht.roots t
      · rw [htree] at hb
        exact ht.blocks b hb
  · rw [limnfsTruncate, exec_bind_of (exec_readInode ino), if_pos (by omega)]
    exact .refused

theorem LfsTruncated.sound {σ' : Fs} (ht : LfsTruncated σ ino σ') (hs : FsSound σ) : FsSound σ' := by
  cases ht with
  | refused => exact hs
  | resized hlt hk ho htype hroots hblocks =>
    refine hs.store hlt hk ho fun h => ⟨fun t => ?_, ?_⟩
    · exact (hroots t).elim (fun h' => h'.trans ((hs.unused ino h).1 t)) id
    · rw [stored, htype, (hs.unused ino h).2]
      rfl

end Ops

end Limnx
