import Mathlib.Tactic.FinCases
import Limnx.Theorems.LfsSlots

/-! In a sound file system (`FsSound`) the blocks of all stored inodes, the `forest`, are what the bitmap owns, and the
    counters are exact. -/

namespace Limnx
open Function ByteCodec Multiset Finset Inode Bytes Fs

namespace Inode
variable {b : Block} {k k' : Nat} {f g : Buf}

def stored (i : Inode) : Inode where
  type := i.type % 2 ^ 16
  mode := i.mode % 2 ^ 16
  size := i.size % 2 ^ 32
  blockCount := i.blockCount % 2 ^ 32
  direct k := i.direct k % 2 ^ 32
  indirect := i.indirect % 2 ^ 32
  doubleIndirect := i.doubleIndirect % 2 ^ 32
  tripleIndirect := i.tripleIndirect % 2 ^ 32
  parent := i.parent % 2 ^ 32
  uid := i.uid % 2 ^ 16
  gid := i.gid % 2 ^ 16
  reserved := i.reserved

theorem decode_encode (i : Inode) : decode i.encode = i.stored := by
  have hdirect : (fun k : Fin 10 => ByteCodec.decode i.encode (12 + 4 * k) 4) = fun k => i.direct k % 2 ^ 32 := by
    funext k
    fin_cases k <;> simp [encode, decode_pack_tail, decode_pack_head]
  have hreserved : (make fun k => i.encode (72 + k)) = i.reserved := by
    refine ext fun k hk => ?_
    rw [get_make_of_lt hk]
    simp only [encode, pack]
    repeat rw [if_neg (by omega)]
    congr 1
    omega
  unfold decode stored
  rw [hdirect, hreserved]
  simp [encode, decode_pack_tail, decode_pack_head]

theorem decode_congr (h : ∀ j < bytes, f j = g j) : decode f = decode g := by
  have hf (off w : Nat) (hw : off + w ≤ bytes := by decide) : ByteCodec.decode f off w = ByteCodec.decode g off w :=
    ByteCodec.decode_congr fun j _ hj => h j (by omega)
  have hreserved : (make fun k => f (72 + k) : Bytes 44) = make fun k => g (72 + k) := by
    refine ext fun k hk => ?_
    rw [get_make_of_lt hk, get_make_of_lt hk, h (72 + k) (by simp only [bytes]; omega)]
  have hdirect : (fun k : Fin 10 => ByteCodec.decode f (12 + 4 * k) 4) =
      fun k : Fin 10 => ByteCodec.decode g (12 + 4 * k) 4 :=
    funext fun k => hf _ _ (by simp only [bytes]; omega)
  simp only [decode, hdirect, hreserved, hf 0 2, hf 2 2, hf 4 4, hf 8 4, hf 52 4, hf 56 4, hf 60 4, hf 64 4, hf 68 2,
    hf 70 2]

theorem slot_le (hk : k < perBlock) : k * bytes + bytes ≤ Limnx.blockSize := by
  simp only [perBlock, Limnx.blockSize, bytes] at *
  omega

theorem load_store_self (b : Block) (i : Inode) (hk : k < perBlock) : load (store b k i) k = i.stored := by
  have := slot_le hk
  rw [← decode_encode]
  refine decode_congr fun j hj => ?_
  rw [store, get_make_of_lt (by omega), splice_of_mem (by omega) (by omega), Nat.add_sub_cancel_left]

theorem load_store_of_ne (b : Block) (i : Inode) (hk' : k' < perBlock) (hne : k' ≠ k) :
    load (store b k i) k' = load b k' := by
  have hle := slot_le hk'
  refine decode_congr fun j hj => ?_
  rw [store, get_make_of_lt (by omega), splice_of_not_mem]
  rcases Nat.lt_or_gt_of_ne hne with h | h
  · have : (k' + 1) * bytes ≤ k * bytes := Nat.mul_le_mul_right _ h
    rw [Nat.succ_mul] at this
    omega
  · have : (k + 1) * bytes ≤ k' * bytes := Nat.mul_le_mul_right _ h
    rw [Nat.succ_mul] at this
    omega

theorem root_stored {i : Inode} (h : ∀ s, i.root s < 2 ^ 32) : i.stored.root = i.root := by
  funext s
  have := Nat.mod_eq_of_lt (h s)
  cases s <;> exact this

end Inode

def Lfs.inodeBlock (s : Lfs) (ino : Nat) : Nat := s.super.inodeTblStart + ino / perBlock

def Fs.inodeAt (σ : Fs) (ino : Nat) : Inode := load (σ.mem (σ.lfs.inodeBlock ino)) (ino % perBlock)

def Fs.setInode (σ : Fs) (ino : Nat) (i : Inode) : Fs :=
  let blk := σ.lfs.inodeBlock ino
  { σ with mem := update σ.mem blk (store (σ.mem blk) (ino % perBlock) i) }

section Table
variable {ρ ω : Bool} {σ σ' : Fs} {ino ino' : Nat} {i : Inode}

theorem exec_readInode (ino : Nat) : exec (limnfsReadInode ino : LfsM ρ ω _) σ =
    (if maxInodes ≤ ino then none else some (σ.inodeAt ino), σ) := by
  unfold limnfsReadInode
  split
  · rfl
  · simp only [exec_get_bind, exec_read_bind, exec_pure]
    rfl

theorem exec_writeInode (h : ino < maxInodes) (i : Inode) :
    exec (limnfsWriteInode ino i : LfsM ρ true _) σ = (true, σ.setInode ino i) := by
  unfold limnfsWriteInode
  rw [exec_ite, if_neg (by omega)]
  rfl

theorem Layout.inodeBlock_lt {s : Lfs} (hl : Layout s) (h : ino < maxInodes) :
    s.super.inodeTblStart ≤ s.inodeBlock ino ∧ s.inodeBlock ino < s.super.dataStart := by
  have : ino / perBlock < 32 := by
    rw [Nat.div_lt_iff_lt_mul (by decide)]
    exact h.trans (by decide)
  rw [hl.data, Lfs.inodeBlock]
  generalize ino / perBlock = n at this
  omega

theorem Fs.setInode_self (σ : Fs) (ino : Nat) (i : Inode) : (σ.setInode ino i).inodeAt ino = i.stored := by
  simp only [inodeAt, setInode, update_self]
  exact load_store_self _ _ (Nat.mod_lt _ (by decide))

theorem Fs.setInode_of_ne (σ : Fs) (i : Inode) (h : ino' ≠ ino) : (σ.setInode ino i).inodeAt ino' = σ.inodeAt ino' := by
  simp only [inodeAt, setInode]
  by_cases hb : σ.lfs.inodeBlock ino' = σ.lfs.inodeBlock ino
  · rw [hb, update_self]
    refine load_store_of_ne _ _ (Nat.mod_lt _ (by decide)) fun hmod => h ?_
    have hdiv : ino' / perBlock = ino / perBlock := by
      simp only [Lfs.inodeBlock] at hb
      omega
    exact (index_eq_iff ino' ino perBlock).mpr ⟨hdiv, hmod⟩
  · rw [update_of_ne hb]

theorem Fs.setInode_mem (hl : Layout σ.lfs) (h : ino < maxInodes) {x : Nat} (hx : σ.lfs.super.dataStart ≤ x) :
    (σ.setInode ino i).mem x = σ.mem x := by
  have := (hl.inodeBlock_lt h).2
  exact update_of_ne (by omega) _ _

theorem Fs.inodeAt_congr (hl : Layout σ.lfs) (hs : SameMeta σ.lfs σ'.lfs)
    (hout : ∀ x, x < σ.lfs.super.dataStart → σ'.mem x = σ.mem x) (h : ino < maxInodes) :
    σ'.inodeAt ino = σ.inodeAt ino := by
  have hb : σ'.lfs.inodeBlock ino = σ.lfs.inodeBlock ino := by rw [Lfs.inodeBlock, Lfs.inodeBlock, hs.inodeTblStart]
  rw [inodeAt, inodeAt, hb, hout _ (hl.inodeBlock_lt h).2]

end Table

def Fs.forest (σ : Fs) : Multiset Nat := ∑ ino ∈ range maxInodes, (σ.inodeAt ino).tree σ.mem

def Fs.forestBut (σ : Fs) (ino : Nat) : Multiset Nat :=
  ∑ k ∈ (Finset.range maxInodes).erase ino, (σ.inodeAt k).tree σ.mem

def Lfs.clearInodes (s : Lfs) : Finset Nat := (Finset.range maxInodes).filter fun ino => Bitmap.get s.inodeBitmap ino = false

theorem SameMeta.clearInodes {s s' : Lfs} (h : SameMeta s s') : s'.clearInodes = s.clearInodes := by
  rw [Lfs.clearInodes, Lfs.clearInodes, h.inodeBitmap]

/-- The blocks of the stored inodes are those marked as used, each with one owner; unused inodes have none;
    and the free inodes are counted. -/
structure FsSound (σ : Fs) : Prop where
  owns : Owns σ.lfs σ.forest
  unused : ∀ ino ∈ σ.lfs.clearInodes, (∀ s, (σ.inodeAt ino).root s = 0) ∧ (σ.inodeAt ino).type = typeFree
  count : σ.lfs.super.freeInodes = σ.lfs.clearInodes.card

section FsSound
attribute [local irreducible] maxInodes
variable {ρ ω : Bool} {σ σ' : Fs} {ino ino' : Nat} {i : Inode} {M : Multiset Nat} {m : Disk}

theorem Fs.forest_split (σ : Fs) (h : ino < maxInodes) : σ.forest = (σ.inodeAt ino).tree σ.mem + σ.forestBut ino :=
  (add_sum_erase _ _ (mem_range.mpr h)).symm

theorem Fs.tree_le_forestBut (h : ino' < maxInodes) (hne : ino' ≠ ino) : (σ.inodeAt ino').tree σ.mem ≤ σ.forestBut ino := by
  rw [forestBut, ← add_sum_erase _ _ (mem_erase.mpr ⟨hne, mem_range.mpr h⟩)]
  exact le_add_right _ _

theorem Inode.root_mem_tree {s : Slot} (h : i.root s ≠ 0) : i.root s ∈ i.tree m := by
  refine mem_of_le (blocks_le_tree s) (mem_add.mpr ?_)
  cases hs : s.height with
  | zero => exact .inr (by simp [PtrFormat.leaves, h])
  | succ n => exact .inl (PtrFormat.mem_nodes_self h)

theorem Owns.root_lt {s : Lfs} (ho : Owns s (i.tree m + M)) (t : Slot) : i.root t < 2 ^ 32 := by
  by_cases h : i.root t = 0
  · rw [h]
    decide
  · exact ho.lt_limit (mem_add.mpr (.inl (root_mem_tree h)))

theorem Inode.tree_congr_root {i' : Inode} (h : i'.root = i.root) :
    i'.tree m = i.tree m ∧ i'.leaves m = i.leaves m ∧ ∀ l, i'.lookup m l = i.lookup m l := by
  simp only [tree, leaves, lookup, h, true_and, implies_true]

structure Stored (σ σ' : Fs) (ino : Nat) (i : Inode) : Prop where
  self : σ'.inodeAt ino = i.stored
  root : (σ'.inodeAt ino).root = i.root
  other : ∀ k, k < maxInodes → k ≠ ino → σ'.inodeAt k = σ.inodeAt k
  kept : ∀ x ∈ σ.forestBut ino, σ'.mem x = σ.mem x

section
variable (hino : ino < maxInodes) (hk : Keeps (σ.forestBut ino) σ σ')
include hino hk

theorem Owns.store (hs : Owns σ.lfs σ.forest) (ho : Owns σ'.lfs (i.tree σ'.mem + σ.forestBut ino)) :
    Owns (σ'.setInode ino i).lfs (σ'.setInode ino i).forest ∧ Stored σ (σ'.setInode ino i) ino i ∧
      ∀ x ∈ i.tree σ'.mem, (σ'.setInode ino i).mem x = σ'.mem x := by
  have hroot := root_stored fun t => ho.root_lt t
  have hdata : ∀ x, x ∈ i.tree σ'.mem + σ.forestBut ino → (σ'.setInode ino i).mem x = σ'.mem x := fun x hx =>
    setInode_mem ho.toLayout hino (ho.inside x hx).1
  have hself : ((σ'.setInode ino i).inodeAt ino).tree (σ'.setInode ino i).mem = i.tree σ'.mem := by
    rw [setInode_self, (tree_congr_root hroot).1]
    exact (leaves_congr fun x hx => hdata x (mem_add.mpr (.inl hx))).2.1
  have hat : ∀ k < maxInodes, k ≠ ino → (σ'.setInode ino i).inodeAt k = σ.inodeAt k := fun k hk' hne => by
    rw [setInode_of_ne _ _ hne, inodeAt_congr hs.toLayout hk.same hk.outside hk']
  have hkept : ∀ x ∈ σ.forestBut ino, (σ'.setInode ino i).mem x = σ.mem x := fun x hx => by
    rw [hdata x (mem_add.mpr (.inr hx)), hk.kept x hx]
  have hbut : (σ'.setInode ino i).forestBut ino = σ.forestBut ino := by
    refine sum_congr rfl fun k hk' => ?_
    obtain ⟨hne, hk'⟩ := mem_erase.mp hk'
    have hlt := Finset.mem_range.mp hk'
    rw [hat k hlt hne]
    exact (leaves_congr fun x hx => hkept x (mem_of_le (tree_le_forestBut hlt hne) hx)).2.1
  refine ⟨?_, ⟨setInode_self _ _ _, ?_, hat, hkept⟩, fun x hx => hdata x (mem_add.mpr (.inl hx))⟩
  · rw [forest_split _ hino, hself, hbut]
    exact ho
  · rw [setInode_self, hroot]

theorem Owns.rewrite (hs : Owns σ.lfs σ.forest) (ho : Owns σ'.lfs ((σ.inodeAt ino).tree σ'.mem + σ.forestBut ino)) :
    Owns σ'.lfs σ'.forest ∧ ∀ k < maxInodes, σ'.inodeAt k = σ.inodeAt k := by
  have hat : ∀ k < maxInodes, σ'.inodeAt k = σ.inodeAt k := fun k hk' =>
    inodeAt_congr hs.toLayout hk.same hk.outside hk'
  have hbut : σ'.forestBut ino = σ.forestBut ino := by
    refine sum_congr rfl fun k hk' => ?_
    obtain ⟨hne, hk'⟩ := mem_erase.mp hk'
    have hlt := Finset.mem_range.mp hk'
    rw [hat k hlt]
    exact (leaves_congr fun x hx => hk.kept x (mem_of_le (tree_le_forestBut hlt hne) hx)).2.1
  rw [forest_split _ hino, hat ino hino, hbut]
  exact ⟨ho, hat⟩

theorem FsSound.rewrite (hs : FsSound σ)
    (ho : Owns σ'.lfs ((σ.inodeAt ino).tree σ'.mem + σ.forestBut ino)) : FsSound σ' := by
  obtain ⟨howns, hat⟩ := hs.owns.rewrite hino hk ho
  refine ⟨howns, fun k hk' => ?_, ?_⟩
  · rw [hk.same.clearInodes] at hk'
    rw [hat k (Finset.mem_range.mp (Finset.mem_filter.mp hk').1)]
    exact hs.unused k hk'
  · rw [hk.same.clearInodes, ← hs.count]
    exact hk.same.freeInodes

theorem FsSound.store (hs : FsSound σ) (ho : Owns σ'.lfs (i.tree σ'.mem + σ.forestBut ino))
    (hused : ino ∈ σ.lfs.clearInodes → (∀ s, i.root s = 0) ∧ i.stored.type = typeFree) : FsSound (σ'.setInode ino i) := by
  obtain ⟨howns, hst, -⟩ := hs.owns.store hino hk ho
  have hclear : (σ'.setInode ino i).lfs.clearInodes = σ.lfs.clearInodes := hk.same.clearInodes
  refine ⟨howns, fun k hk' => ?_, ?_⟩
  · rw [hclear] at hk'
    obtain rfl | hne := eq_or_ne k ino
    · rw [hst.root, hst.self]
      exact hused hk'
    · rw [hst.other k (Finset.mem_range.mp (Finset.mem_filter.mp hk').1) hne]
      exact hs.unused k hk'
  · rw [hclear, ← hs.count]
    exact hk.same.freeInodes

end

end FsSound

end Limnx
