import Limnx.Theorems.LfsMount

/-! A synced file system mounts as it was. -/

open Bitmap Bitmap

namespace Limnx
open Function ByteCodec Finset Fs

attribute [local irreducible] maxInodes

section Calls
variable {ρ : Bool} {σ σ' : Fs} {bm : Buf} {free ino : Nat}

def Fs.bitmapStored (σ : Fs) : Fs :=
  ⟨σ.lfs, writeRow σ.mem 1 σ.lfs.bitmapBlocks fun b => Bytes.make fun i =>
    if i < min blockSize (σ.lfs.blockBitmapBytes - b * blockSize) then σ.lfs.blockBitmap (b * blockSize + i) else 0⟩

theorem exec_sync (hm : σ.lfs.mounted) : exec (limnfsSync : LfsM ρ true Unit) σ = ((), σ.bitmapStored.flushed) := by
  unfold limnfsSync
  rw [exec_get_bind, if_pos hm, exec_bind_of exec_flushBlockBitmap, exec_bind_of exec_flushBitmap,
    exec_bind_of exec_flushSuperblock]
  rfl

theorem Persistent.sync (hs : FsSound σ) (hh : Header σ.lfs) :
    Persistent σ.bitmapStored.flushed σ.lfs.blockBitmap σ.lfs.super.freeBlocks := by
  have htable := hs.owns.table
  have hlow : FsSound σ.bitmapStored := hs.low fun x hx => writeRow_of_not_mem (by omega)
  refine ⟨hlow.flushed, hh, hs.freeBlocks_lt, hs.owns.card_clear.symm, flushed_super _, fun k hk => ?_, fun k hk => flushed_inodes hk,
    fun _ _ _ h => h⟩
  have hrow : k / blockSize < σ.bitmapStored.lfs.bitmapBlocks := hh.row_lt hk
  have hmod : k % blockSize < blockSize := Nat.mod_lt _ (by decide)
  have hdm := Nat.div_add_mod k blockSize
  rw [Nat.mul_comm] at hdm
  have hk' : k < σ.lfs.blockBitmapBytes := hk
  rw [flushed_row hrow]
  generalize k / blockSize = row at hrow hdm ⊢
  have hmem : σ.bitmapStored.mem (1 + row) = _ := writeRow_of_mem hrow
  rw [hmem, Bytes.get_make_of_lt hmod, if_pos (by omega), hdm]

theorem Fs.setInode_low (hl : Layout σ.lfs) (hino : ino < maxInodes) (i : Inode) {x : Nat}
    (hx : x < σ.lfs.super.inodeTblStart) : (σ.setInode ino i).mem x = σ.mem x := by
  have := (hl.inodeBlock_lt hino).1
  exact update_of_ne (by omega) _ _

theorem Layout.table_lt {s : Lfs} (h : Layout s) : s.super.inodeTblStart < s.super.dataStart := by
  have := h.data
  omega

theorem Persistent.truncated {σ' : Fs} (h : Persistent σ bm free) (ht : LfsTruncated σ ino σ') : Persistent σ' bm free := by
  have hsound := ht.sound h.sound
  cases ht with
  | refused => exact h
  | resized hlt hk ho _ _ hblocks =>
    have htbl := hk.same.inodeTblStart
    refine h.keep hsound hk.same (fun x hx => ?_) fun b h1 h2 hb => ?_
    · rw [setInode_low ho.toLayout hlt _ (by omega), hk.outside x (hx.trans h.sound.owns.toLayout.table_lt)]
    · -- a block still in use was in use before
      have hmem := (ho.bit b (by rwa [hk.same.dataStart]) (by rwa [hk.same.totalBlocks])).mp hb
      refine (h.sound.owns.bit b h1 h2).mpr ?_
      rw [σ.forest_split hlt]
      exact Multiset.mem_add.mpr ((Multiset.mem_add.mp hmem).imp_left (hblocks b))

theorem Persistent.writeData {offset len : Nat} {buf : Buf} (h : Persistent σ bm free)
    (hused : ino < maxInodes → ino ∉ σ.lfs.clearInodes) (hfit : offset + len ≤ maxFileBlocks * blockSize)
    (hmap : ∀ l, offset / blockSize ≤ l → l * blockSize < offset + len → (σ.inodeAt ino).lookup σ.mem l ≠ 0) :
    Persistent (exec (limnfsWriteData ino offset buf len : LfsM ρ true _) σ).2 bm free := by
  have hsound := h.sound.writeData (ρ := ρ) buf hused hfit
  by_cases hlt : ino < maxInodes
  · have hl := h.sound.owns.toLayout
    obtain ⟨w, inode', ⟨lfs', m⟩, he, hw, -, -, hsame⟩ := exec_writeData (ρ := ρ) buf h.sound.owns hlt hfit
    obtain ⟨rfl, rfl⟩ := hsame hmap
    rw [he] at hsound ⊢
    refine h.keep hsound (.refl _) (fun x hx => ?_) fun _ _ _ hb => hb
    rw [setInode_low (σ := ⟨σ.lfs, m⟩) hl hlt _ hx]
    exact hw.keeps.outside x (hx.trans hl.table_lt)
  · rw [limnfsWriteData, exec_bind_of (exec_readInode ino), if_pos (by omega)]
    exact h

def Fs.EntryFits (σ : Fs) (dirIno : Nat) : Prop :=
  dirIno < maxInodes → (σ.inodeAt dirIno).type = typeDir →
    (σ.inodeAt dirIno).find σ.mem isDeleted ≠ none ∨
      (σ.inodeAt dirIno).lookup σ.mem ((σ.inodeAt dirIno).totalEntries / dentriesPerBlock) ≠ 0

section
variable (h : Persistent σ bm free)
include h

theorem Persistent.leaf_low (hino : ino < maxInodes) {l : Nat} {d : Block}
    (hl : (σ.inodeAt ino).lookup σ.mem l ≠ 0) {x : Nat} (hx : x < σ.lfs.super.inodeTblStart) :
    update σ.mem ((σ.inodeAt ino).lookup σ.mem l) d x = σ.mem x := by
  have hfresh := ((h.sound.owns.inode hino).leaf_fresh (Inode.lookup_mem_leaves hl)).2.2
  have := h.sound.owns.table_lt
  exact update_of_ne (by omega) _ _

theorem Persistent.added {dirIno childIno type : Nat} {name : CStr} {r : Bool × Fs}
    (hadd : DirAdded σ dirIno name childIno type r) (hfits : σ.EntryFits dirIno) :
    Persistent r.2 bm free ∧ (r.1 = false → r.2 = σ) := by
  cases hadd with
  | refused => exact ⟨h, fun _ => rfl⟩
  | reused hdir _ hl =>
    exact ⟨h.keep (h.sound.writeLeaf hdir.1 hl _) (.refl _) (fun x hx => h.leaf_low hdir.1 hl hx) fun _ _ _ hb => hb, nofun⟩
  | full hdir hfind hnull => exact absurd hnull ((hfits hdir.1 hdir.2).resolve_left fun hne => hne hfind)
  | @appended σ1 dir b hdir _ hfind hlast hold =>
    have hb := (hfits hdir.1 hdir.2).resolve_left fun hne => hne hfind
    obtain ⟨rfl, rfl⟩ := hold hb
    obtain rfl : b = (σ1.inodeAt dirIno).lookup σ1.mem (σ1.inodeAt dirIno).endBlock := by
      rw [hlast.lookup, if_pos rfl]
    have hown := h.sound.owns.inode hdir.1
    have hsound := h.sound.append hdir.1 (h.sound.used_of_type hdir.2) (.refl _ _) hown hb
      (n := u32 (((σ1.inodeAt dirIno).totalEntries + 1) * dentrySize))
    refine ⟨h.keep (hsound _) (.refl _) (fun x hx => ?_) fun _ _ _ hb => hb, nofun⟩
    rw [setInode_low (σ := ⟨σ1.lfs, update σ1.mem _ _⟩) h.sound.owns.toLayout hdir.1 _ hx]
    exact h.leaf_low hdir.1 hb hx

theorem Persistent.writeLeaf (hino : ino < maxInodes) {l : Nat} (hl : (σ.inodeAt ino).lookup σ.mem l ≠ 0) (d : Block) :
    Persistent ⟨σ.lfs, update σ.mem ((σ.inodeAt ino).lookup σ.mem l) d⟩ bm free ∧
      ∀ k, k < maxInodes →
        (Fs.mk σ.lfs (update σ.mem ((σ.inodeAt ino).lookup σ.mem l) d)).inodeAt k = σ.inodeAt k := by
  obtain ⟨hk, ho, -, -⟩ := (h.sound.owns.inode hino).update_leaf hl d
  refine ⟨h.keep (h.sound.writeLeaf hino hl d) (.refl _) (fun x hx => h.leaf_low hino hl hx) fun _ _ _ hb => hb, ?_⟩
  exact (h.sound.owns.rewrite hino hk ho).2

theorem Persistent.removed {dirIno : Nat} {name : CStr} {r : Bool × Fs} (hr : DirRemoved σ dirIno name r) :
    Persistent r.2 bm free ∧ r.2.lfs = σ.lfs ∧ ∀ k < maxInodes, r.2.inodeAt k = σ.inodeAt k := by
  cases hr with
  | missing => exact ⟨h, rfl, fun _ _ => rfl⟩
  | removed hdir hl =>
    obtain ⟨hp, hat⟩ := h.writeLeaf hdir.1 hl _
    exact ⟨hp, rfl, hat⟩

section
variable (hfree : σ.lfs.super.freeBlocks = free)
include hfree

theorem Persistent.freed {σ' : Fs} (hf : InodeFreed σ ino σ') (hused : ino < maxInodes → ino ∉ σ.lfs.clearInodes)
    (hnull : ino < maxInodes → ∀ t, (σ.inodeAt ino).root t = 0) : Persistent σ' bm free := by
  rcases hf with _ | @⟨σ1, hlt, -, hsame, hk, ho⟩
  · exact h
  have hown := h.sound.owns.inode hlt
  rw [Inode.tree_of_null (hnull hlt), zero_add] at hown
  have hs2 := h.sound.clearInode hlt hk ho
  have hl := h.sound.owns.toLayout
  have htbl := hsame.inodeTblStart
  have hp : Persistent (σ1.setInode ino {}) bm free := by
    refine h.keep hs2 hsame (fun x hx => ?_) fun b h1 h2 hb => ?_
    · rw [setInode_low ho.toLayout hlt _ (by omega), hk.outside x (hx.trans hl.table_lt)]
    · exact (hown.bit b h1 h2).mpr ((ho.bit b (by rwa [hsame.dataStart]) (by rwa [hsame.totalBlocks])).mp hb)
  have hcount : (σ1.setInode ino {}).lfs.super.freeBlocks = free := by
    have h1 := hown.free
    have h2 := ho.free
    rw [hsame.dataStart, hsame.totalBlocks] at h2
    show σ1.lfs.super.freeBlocks = free
    omega
  have hclear : (σ1.setInode ino {}).lfs.clearInodes = σ.lfs.clearInodes := hsame.clearInodes
  have hs3 := hs2.unmark hlt (hclear ▸ hused hlt) (fun t => by
    rw [setInode_self]
    cases t <;> rfl) (by
    rw [setInode_self]
    rfl)
  exact hp.flush hcount (Nat.mod_lt _ (by decide)) hs3 rfl

theorem Persistent.create {parentIno : Nat}
    (hparent : parentIno ∉ σ.lfs.clearInodes) (hfits : σ.EntryFits parentIno) (type mode : Nat) (name : CStr) :
    Persistent (exec (limnfsCreate type mode parentIno name : LfsM ρ true _) σ).2 bm free := by
  rw [limnfsCreate]
  rcases exec_allocInode (ρ := ρ) (σ := σ) with he | ⟨ino, hclear, hino0, he⟩
  · rw [exec_bind_of he]
    exact h
  rw [exec_bind_of he]
  have hlt : ino < maxInodes := mem_range.mp (mem_filter.mp hclear).1
  have hnull : ∀ t, ({ type, mode, parent := parentIno } : Inode).root t = 0 := fun t => by cases t <;> rfl
  obtain ⟨hs2, hused, hat, hdata⟩ := h.sound.withInode hclear hnull
  have hne : parentIno ≠ ino := fun heq => hparent (heq ▸ hclear)
  rw [exec_bind_of (exec_writeInode hlt _)]
  simp only [Bool.not_true, if_neg Bool.false_ne_true]
  let σ2 := σ.withInode ino { type, mode, parent := parentIno }
  change Persistent (exec _ σ2).2 bm free
  have hp1 : Persistent (flushed ⟨σ.lfs.markInode ino, σ.mem⟩) bm free := by
    refine h.flush hfree ?_ (h.sound.mark hclear) rfl
    have := h.header.fits.freeInodes
    simp only [pred32]
    split <;> omega
  have hp2 : Persistent σ2 bm free :=
    hp1.keep hs2 (.refl _) (fun x hx => setInode_low hp1.sound.owns.toLayout hlt _ hx) fun _ _ _ hb => hb
  have hfits2 : σ2.EntryFits parentIno := by
    intro hplt htype
    have htree : ∀ x ∈ (σ.inodeAt parentIno).tree σ.mem, σ2.mem x = σ.mem x :=
      fun x hx => hdata x (h.sound.owns.inside x (by
        rw [σ.forest_split hplt]
        exact Multiset.mem_add.mpr (.inl hx))).1
    rw [hat _ hne] at htype ⊢
    rw [Inode.find, Inode.scan_congr htree, (Inode.leaves_congr htree).2.2]
    exact hfits hplt htype
  obtain ⟨hp3, hfail⟩ := hp2.added (exec_dirAdd (ρ := ρ) hs2.owns parentIno name ino type) hfits2
  rw [exec_bind]
  generalize exec (limnfsDirAdd parentIno name ino type : LfsM ρ true Bool) _ = e at hp3 hfail
  obtain ⟨ok, σ3⟩ := e
  cases ok with
  | true => exact hp3
  | false =>
    obtain rfl := hfail rfl
    obtain ⟨σ4, he4, hf⟩ := exec_freeInode (ρ := ρ) hs2.owns ino
    simp only [Bool.not_false, if_true]
    rw [exec_bind_of he4]
    refine hp2.freed hfree hf (fun _ => hused) fun _ t => ?_
    rw [show σ2 = setInode _ ino _ from rfl, setInode_self]
    cases t <;> rfl

theorem Persistent.deleted {parentIno : Nat} {name : CStr} {r : Bool × Fs} (hd : LfsDeleted σ parentIno name r)
    (hchild : ∀ c, σ.child parentIno name = some c → c < maxInodes → c ∉ σ.lfs.clearInodes ∧ ∀ t, (σ.inodeAt c).root t = 0) :
    Persistent r.2 bm free := by
  cases hd with
  | kept => exact h
  | @deleted c σ1 σ2 hc hlt _ hremove hfreed =>
    obtain ⟨hused, hnull⟩ := hchild c hc hlt
    obtain ⟨hp1, hlfs, hat⟩ := h.removed hremove
    refine hp1.freed (by rw [hlfs, hfree]) hfreed (fun _ => by rwa [hlfs]) fun _ t => ?_
    rw [show σ1.inodeAt c = σ.inodeAt c from hat c hlt]
    exact hnull t

end

end

/-- The call takes no block, and the count of free blocks is the stored one where it is written out. -/
def LfsOp.Persists (σ : Fs) : LfsOp → Prop
  | .createFile p _ | .createDir p _ =>
    σ.lfs.super.freeBlocks = σ.storedFree ∧ (p < maxInodes → get σ.lfs.inodeBitmap p = true) ∧ σ.EntryFits p
  | .writeData ino offset _ len =>
    (ino < maxInodes → get σ.lfs.inodeBitmap ino = true) ∧ offset + len ≤ maxFileBlocks * blockSize ∧
      ∀ l, offset / blockSize ≤ l → l * blockSize < offset + len → (σ.inodeAt ino).lookup σ.mem l ≠ 0
  | .dirAdd p _ _ _ => σ.EntryFits p
  | .delete p name =>
    σ.lfs.super.freeBlocks = σ.storedFree ∧ ∀ c, σ.child p name = some c → c < maxInodes →
      get σ.lfs.inodeBitmap c = true ∧ ∀ t, (σ.inodeAt c).root t = 0
  | .truncate _ _ | .dirRemove _ _ => True

theorem Persistent.step {op : LfsOp} (h : Persistent σ bm free) (hop : op.Persists σ) : Persistent (σ.step op) bm free := by
  rw [Fs.step]
  cases op with rw [LfsOp.prog, exec_discard]
  | createFile p name | createDir p name =>
    obtain ⟨hfree, hbit, hfits⟩ := hop
    refine h.create (hfree.trans h.storedFree) (fun hc => ?_) hfits _ _ name
    exact Lfs.not_clear_of_bit (hbit (Finset.mem_range.mp (Finset.mem_filter.mp hc).1)) hc
  | writeData ino offset buf len => exact h.writeData (fun hlt => Lfs.not_clear_of_bit (hop.1 hlt)) hop.2.1 hop.2.2
  | truncate ino n => exact h.truncated (exec_truncate h.sound.owns ino n)
  | dirAdd d name c t => exact (h.added (exec_dirAdd h.sound.owns d name c t) hop).1
  | dirRemove d name => exact (h.removed (exec_dirRemove σ d name)).1
  | delete p name =>
    refine h.deleted (hop.1.trans h.storedFree) (exec_delete h.sound p name) fun c hc hlt => ?_
    obtain ⟨hbit, hnull⟩ := hop.2 c hc hlt
    exact ⟨Lfs.not_clear_of_bit hbit, hnull⟩

/-- Every block that an allocated inode refers to is marked as used, and the clear bits are counted. -/
structure Fs.Marked (σ : Fs) : Prop where
  marked : ∀ b, σ.references b ≠ 0 → get σ.lfs.blockBitmap b = true
  free : σ.lfs.super.freeBlocks =
    ((Finset.Ico σ.lfs.super.dataStart σ.lfs.super.totalBlocks).filter fun b => get σ.lfs.blockBitmap b = false).card

theorem Persistent.mount {ω : Bool} (h : Persistent σ bm free) (s : Lfs) :
    (exec (limnfsMount true : LfsM ρ ω Bool) ⟨s, σ.mem⟩).1 ∧
      (exec (limnfsMount true : LfsM ρ ω Bool) ⟨s, σ.mem⟩).2.Marked := by
  obtain ⟨bm', he, hbm⟩ := exec_mount (ρ := ρ) (ω := ω) (σ := ⟨s, σ.mem⟩) h.decode_super h.header.magic
  rw [he]
  have hbit : ∀ b, b < σ.lfs.super.totalBlocks → get bm' b = get bm b := fun b hb => by
    have hlt := lt_bitmapBytes h.header.bits hb
    refine get_congr ((hbm _ hlt).trans (h.bitmap _ ?_))
    rwa [h.header.bytes]
  refine ⟨rfl, fun b hb => ?_, ?_⟩
  · -- the same inodes are allocated, and they refer to the same blocks
    have hrefs : σ.references b ≠ 0 := by
      refine fun h0 => hb (Eq.trans ?_ h0)
      refine sum_congr (filter_congr fun ino hino => ?_) fun ino _ => rfl
      have hlt : ino / 8 < 128 := by
        have := mem_range.mp hino
        rw [maxInodes_eq] at this
        omega
      rw [get_congr (i := ino) ?_]
      show splice s.inodeBitmap 0 128 (σ.mem (1 + bitmapRows σ.lfs.super.totalBlocks)).get (ino / 8) = _
      rw [splice_of_mem (Nat.zero_le _) (by omega), Nat.sub_zero, ← Lfs.bitmapBlocks_of_bytes h.header.bytes]
      exact h.inodes _ hlt
    obtain ⟨h1, h2, hset⟩ := h.sound.exact.marked b hrefs
    exact (hbit b h2).trans (h.marked b h1 h2 hset)
  · refine h.count.trans (congrArg card (filter_congr fun b hb => ?_))
    rw [show get bm b = get bm' b from (hbit b (mem_Ico.mp hb).2).symm]

end Calls

end Limnx
