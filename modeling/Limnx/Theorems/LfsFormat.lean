import Limnx.Theorems.LfsOps

/-! A formatted disk. -/

namespace Limnx
open Function ByteCodec Finset Bitmap Bytes Inode

attribute [local irreducible] maxInodes

section Rows
variable {m : Disk} {d : Disk} {base n x : Nat}

def writeRow (m : Disk) (base n : Nat) (d : Disk) : Disk :=
  (List.range n).foldl (fun m i => update m (base + i) (d i)) m

theorem writeRow_succ (m : Disk) (base n : Nat) (d : Disk) :
    writeRow m base (n + 1) d = update (writeRow m base n d) (base + n) (d n) := by
  rw [writeRow, List.range_succ, List.foldl_append]
  rfl

theorem writeRow_of_mem {i : Nat} (hi : i < n) : writeRow m base n d (base + i) = d i := by
  induction n with
  | zero => cases hi
  | succ n ih =>
    rw [writeRow_succ]
    by_cases hin : i = n
    · rw [hin, update_self]
    · rw [update_of_ne (by omega), ih (by omega)]

theorem writeRow_of_not_mem (hx : x < base ∨ base + n ≤ x) : writeRow m base n d x = m x := by
  induction n with
  | zero => rfl
  | succ n ih => rw [writeRow_succ, update_of_ne (by omega), ih (by omega)]

end Rows

theorem Bitmap.get_foldl_set (m : Buf) (n i : Nat) :
    get ((List.range n).foldl set m) i = (decide (i < n) || get m i) := by
  induction n with
  | zero => simp
  | succ n ih =>
    rw [List.range_succ, List.foldl_append, List.foldl_cons, List.foldl_nil, get_set, ih]
    by_cases hi : i = n
    · simp [hi]
    rw [decide_eq_false (Ne.symm hi), Bool.false_or]
    congr 1
    rw [decide_eq_decide]
    omega

theorem Bitmap.get_splice_zero {m : Buf} {n i : Nat} (hi : i / 8 < n) : get (splice m 0 n fun _ => 0) i = false := by
  rw [Bitmap.get, splice_of_mem (Nat.zero_le _) (by omega)]
  simp

def bitmapRows (total : Nat) : Nat := bitmapBytes total / blockSize

theorem bitmapBytes_eq (total : Nat) : bitmapBytes total = bitmapRows total * blockSize ∧ 0 < bitmapRows total := by
  unfold bitmapRows bitmapBytes
  rw [Nat.mul_div_cancel _ (by decide)]
  refine ⟨rfl, Nat.div_pos ?_ (by decide)⟩
  omega

theorem lt_bitmapBytes {total b : Nat} (hfit : total + 7 < 2 ^ 32) (hb : b < total) : b / 8 < bitmapBytes total := by
  have hu : u32 (total + 7) = total + 7 := Nat.mod_eq_of_lt hfit
  simp only [bitmapBytes, blockSize, hu]
  omega

section Format
attribute [local irreducible] inodeBlocks bitmapBytes
variable {ρ : Bool} {σ : Fs} {total : Nat}

def Lfs.formatted (s : Lfs) (total : Nat) : Lfs where
  mounted := true
  blockBitmapBytes := bitmapBytes total
  super := {
    magic := limnfsMagic
    totalBlocks := total
    totalInodes := maxInodes
    blockSize
    inodeTblStart := 1 + bitmapRows total + 1
    dataStart := 1 + bitmapRows total + 1 + inodeBlocks
    freeBlocks := u32 (total + (2 ^ 32 - (1 + bitmapRows total + 1 + inodeBlocks)))
    freeInodes := maxInodes - 1 }
  blockBitmap := (List.range (1 + bitmapRows total + 1 + inodeBlocks)).foldl set
    (splice s.blockBitmap 0 (bitmapBytes total) fun _ => 0)
  inodeBitmap := set (splice s.inodeBitmap 0 128 fun _ => 0) 0
  allocHint := s.allocHint
  scratch3 := s.scratch3

theorem Lfs.bitmapBlocks_of_bytes {s : Lfs} {t : Nat} (h : s.blockBitmapBytes = bitmapBytes t) : s.bitmapBlocks = bitmapRows t := by
  obtain ⟨heq, hpos⟩ := bitmapBytes_eq t
  rw [Lfs.bitmapBlocks, h, heq, Nat.mul_div_cancel _ (by decide), if_neg (by omega)]

theorem exec_flushBlockBitmap : exec (flushBlockBitmap : LfsM ρ true Bool) σ =
    (true, ⟨σ.lfs, writeRow σ.mem 1 σ.lfs.bitmapBlocks fun b => make fun i =>
      if i < min blockSize (σ.lfs.blockBitmapBytes - b * blockSize) then σ.lfs.blockBitmap (b * blockSize + i) else 0⟩) := by
  unfold flushBlockBitmap
  rw [exec_get_bind]
  exact exec_allM_bcacheWrite

theorem exec_format (total : Nat) : ∃ m, (∀ j < inodeBlocks, m (1 + bitmapRows total + 1 + j) = zero) ∧
    exec (limnfsFormat total true : LfsM ρ true Bool) σ =
      (true, (Fs.mk (σ.lfs.formatted total) m).setInode 0 { type := typeDir, mode := 7 }) := by
  refine ⟨writeRow (update (writeRow (update σ.mem 0 (σ.lfs.formatted total).super.encode) 1 (bitmapRows total) fun b =>
      make fun i => if i < min blockSize (bitmapBytes total - b * blockSize)
        then (σ.lfs.formatted total).blockBitmap (b * blockSize + i) else 0)
      (1 + bitmapRows total) (make fun i => if i < 128 then (σ.lfs.formatted total).inodeBitmap i else 0))
      (1 + bitmapRows total + 1) inodeBlocks fun _ => zero, fun j hj => writeRow_of_mem hj, ?_⟩
  unfold limnfsFormat
  simp only [Bool.not_true, if_neg Bool.false_ne_true, exec_modify_bind]
  rw [exec_bind_of exec_flushSuperblock]
  simp only [Bool.not_true, if_neg Bool.false_ne_true, exec_modify_bind]
  rw [exec_bind_of exec_flushBlockBitmap]
  simp only [Bool.not_true, if_neg Bool.false_ne_true, exec_modify_bind]
  rw [exec_bind_of exec_flushBitmap]
  simp only [Bool.not_true, if_neg Bool.false_ne_true]
  rw [exec_bind_of exec_allM_bcacheWrite]
  simp only [Bool.not_true, if_neg Bool.false_ne_true]
  rw [exec_bind_of (exec_writeInode (maxInodes_eq ▸ (by decide : 0 < 1024)) _)]
  rw [Lfs.bitmapBlocks_of_bytes (t := total) rfl, Lfs.bitmapBlocks_of_bytes (t := total) rfl]
  rfl

theorem Inode.load_zero (k : Nat) : load zero k = {} := by
  have hzero : (fun j => (zero : Block).get (k * bytes + j)) = fun _ => 0 := by simp
  rw [load, hzero]
  rfl

theorem inodeBlocks_eq : inodeBlocks = 32 := by
  unfold inodeBlocks
  rw [maxInodes_eq]
  rfl

theorem formatted_layout (s : Lfs) (hfit : total + 7 < 2 ^ 32) : Layout (s.formatted total) where
  table := by
    rw [Lfs.bitmapBlocks_of_bytes (t := total) rfl]
    show 1 + bitmapRows total + 1 = _
    omega
  data := by
    show 1 + bitmapRows total + 1 + inodeBlocks = 1 + bitmapRows total + 1 + 32
    rw [inodeBlocks_eq]
  small := by
    show total < _
    omega

theorem formatted_inodeAt {m : Disk} (hfit : total + 7 < 2 ^ 32)
    (hm : ∀ j < inodeBlocks, m (1 + bitmapRows total + 1 + j) = zero) {k : Nat} (hk : k < maxInodes) :
    ((Fs.mk (σ.lfs.formatted total) m).setInode 0 { type := typeDir, mode := 7 }).inodeAt k =
      if k = 0 then { type := typeDir, mode := 7 } else {} := by
  have hl := formatted_layout σ.lfs hfit
  by_cases hk0 : k = 0
  · rw [if_pos hk0, hk0, Fs.setInode_self]
    rfl
  rw [if_neg hk0, Fs.setInode_of_ne _ _ hk0, Fs.inodeAt, ← load_zero (k % perBlock)]
  congr 1
  refine hm _ ?_
  have := (hl.inodeBlock_lt hk).2
  rw [hl.data, Lfs.inodeBlock] at this
  rw [inodeBlocks_eq]
  omega

theorem FsSound.format (hfit : total + 7 < 2 ^ 32) (hdata : (σ.lfs.formatted total).super.dataStart < total)
    (hhint : σ.lfs.allocHint = 0) : FsSound (exec (limnfsFormat total true : LfsM ρ true Bool) σ).2 := by
  obtain ⟨m, hm, he⟩ := exec_format (ρ := ρ) (σ := σ) total
  rw [he]
  have hl := formatted_layout σ.lfs hfit
  have hroots : ∀ k < maxInodes, ∀ t,
      (((Fs.mk (σ.lfs.formatted total) m).setInode 0 { type := typeDir, mode := 7 }).inodeAt k).root t = 0 := fun k hk t => by
    rw [formatted_inodeAt hfit hm hk]
    split <;> cases t <;> rfl
  have hforest : ((Fs.mk (σ.lfs.formatted total) m).setInode 0 { type := typeDir, mode := 7 }).forest = 0 :=
    sum_eq_zero fun k hk => tree_of_null (hroots k (mem_range.mp hk))
  have hclear : (σ.lfs.formatted total).clearInodes = (range maxInodes).erase 0 := by
    ext k
    rw [Lfs.clearInodes, mem_filter, mem_erase, mem_range]
    show k < maxInodes ∧ get (set (splice σ.lfs.inodeBitmap 0 128 fun _ => 0) 0) k = false ↔ _
    rw [maxInodes_eq]
    constructor
    · rintro ⟨hk, hbit⟩
      refine ⟨?_, hk⟩
      rintro rfl
      simp at hbit
    · rintro ⟨hk0, hk⟩
      refine ⟨hk, ?_⟩
      rw [Bitmap.get_set_of_ne (Ne.symm hk0), Bitmap.get_splice_zero (by omega)]
  refine ⟨⟨hl, ?_, ?_, fun b hb1 hb2 => ?_, ?_, ?_⟩, fun k hk => ?_, ?_⟩
  · rw [hforest]
    exact Multiset.nodup_zero
  · rw [hforest]
    exact fun b hb => absurd hb (Multiset.notMem_zero b)
  · rw [hforest]
    refine iff_of_false ?_ (Multiset.notMem_zero b)
    show ¬get ((List.range (1 + bitmapRows total + 1 + inodeBlocks)).foldl set _) b
    have hge : ¬b < 1 + bitmapRows total + 1 + inodeBlocks := Nat.not_lt.mpr hb1
    rw [Bitmap.get_foldl_set, Bitmap.get_splice_zero (lt_bitmapBytes hfit hb2), decide_eq_false hge]
    decide
  · rw [hforest, Multiset.card_zero]
    show u32 (total + (2 ^ 32 - (1 + bitmapRows total + 1 + inodeBlocks))) + 0 + (1 + bitmapRows total + 1 + inodeBlocks) = total
    have hdata : 1 + bitmapRows total + 1 + inodeBlocks < total := hdata
    simp only [u32]
    omega
  · show σ.lfs.allocHint ≤ _
    rw [hhint]
    exact Nat.zero_le _
  · have hk' : k ∈ (σ.lfs.formatted total).clearInodes := hk
    rw [hclear, mem_erase, mem_range] at hk'
    refine ⟨hroots k hk'.2, ?_⟩
    rw [formatted_inodeAt hfit hm hk'.2, if_neg hk'.1]
    rfl
  · show maxInodes - 1 = (σ.lfs.formatted total).clearInodes.card
    rw [hclear, card_erase_of_mem (mem_range.mpr (by rw [maxInodes_eq]; decide)), card_range]

end Format

end Limnx
