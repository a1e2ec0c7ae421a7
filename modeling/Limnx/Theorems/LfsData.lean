import Limnx.Theorems.LfsSlots

/-! A position of a file holds the byte of its block, and zero where there is none (`Inode.byte`). -/

open PtrFormat Bytes Nat

namespace Limnx
open Function ByteCodec Multiset Inode Finset

attribute [local irreducible] ptrsPerBlock

def Inode.byte (inode : Inode) (m : Disk) (pos : Nat) : UInt8 :=
  if inode.lookup m (pos / blockSize) = 0 then 0 else (m (inode.lookup m (pos / blockSize))).get (pos % blockSize)

section Leaves
variable {σ σ' : Fs} {M : Multiset Nat} {inode : Inode} {m : Disk} {l l' b : Nat} {d : Block}

theorem Inode.lookup_mem_leaves (h : inode.lookup m l ≠ 0) : inode.lookup m l ∈ inode.leaves m :=
  mem_sum.mpr ⟨(place l).1, mem_univ _, lookup_mem h⟩

theorem Inode.lookup_lt (h : inode.lookup m l ≠ 0) : l < maxFileBlocks := by
  by_contra hge
  exact h (lookup_beyond _ _ (Nat.le_of_not_lt hge))

theorem Inode.lookup_inj (hnd : (inode.tree m).Nodup) (h : inode.lookup m l ≠ 0)
    (heq : inode.lookup m l = inode.lookup m l') : l = l' := by
  have hl := lookup_lt h
  have hl' := lookup_lt (heq ▸ h)
  have hnd' := nodup_of_le leaves_le_tree hnd
  have hslot : (place l).1 = (place l').1 := by
    by_contra hne
    rw [leaves, ← add_sum_erase _ _ (mem_univ (place l).1),
      ← add_sum_erase _ _ (mem_erase.mpr ⟨fun h => hne h.symm, mem_univ (place l').1⟩),
      nodup_add] at hnd'
    refine disjoint_left.mp hnd'.2.2 (lookup_mem h) (mem_add.mpr (.inl ?_))
    have : inode.lookup m l' ≠ 0 := heq ▸ h
    have hmem := lookup_mem this
    rw [← lookup, ← heq] at hmem
    exact hmem
  refine place_inj (Prod.ext hslot ?_)
  have hlt' := place_lt hl'
  rw [← hslot] at hlt'
  rw [lookup, lookup, ← hslot] at heq
  refine PtrFormat.lookup_inj (nodup_of_le ?_ hnd') (place_lt hl) hlt' h heq
  rw [leaves, ← add_sum_erase _ _ (mem_univ (place l).1)]
  exact le_add_right _ _

theorem Owns.leaf_fresh {s : Lfs} (ho : Owns s (inode.tree m + M)) (hb : b ∈ inode.leaves m) :
    b ∉ inode.nodes m ∧ b ∉ M ∧ s.super.dataStart ≤ b := by
  have hnd := ho.nodup
  rw [nodup_add] at hnd
  have htree := hnd.1
  rw [tree_eq, nodup_add] at htree
  have hmem := mem_of_le leaves_le_tree hb
  exact ⟨fun h => disjoint_left.mp htree.2.2 h hb, disjoint_left.mp hnd.2.2 hmem,
    (ho.inside b (mem_add.mpr (.inl hmem))).1⟩

theorem Owns.update_leaf (ho : Owns σ.lfs (inode.tree σ.mem + M)) (h : inode.lookup σ.mem l ≠ 0) (d : Block) :
    let σ' : Fs := { σ with mem := update σ.mem (inode.lookup σ.mem l) d }
    Keeps M σ σ' ∧ Owns σ'.lfs (inode.tree σ'.mem + M) ∧ (∀ k, inode.lookup σ'.mem k = inode.lookup σ.mem k) ∧
      ∀ pos, inode.byte σ'.mem pos = if pos / blockSize = l then d.get (pos % blockSize) else inode.byte σ.mem pos := by
  intro σ'
  obtain ⟨hnode, hM, hdata⟩ := ho.leaf_fresh (lookup_mem_leaves h)
  have hne : ∀ x, x ≠ inode.lookup σ.mem l → σ'.mem x = σ.mem x := fun x hx => update_of_ne hx _ _
  obtain ⟨-, htree, -, hlook⟩ := congr_nodes (show ∀ x ∈ inode.nodes σ.mem, σ'.mem x = σ.mem x from
    fun x hx => hne x fun heq => hnode (heq ▸ hx))
  refine ⟨⟨.refl _, fun x hx => hne x fun heq => hM (heq ▸ hx), fun x hx => hne x (by omega)⟩, ?_, hlook, fun pos => ?_⟩
  · rw [htree]
    exact ho
  · rw [byte, byte, hlook]
    split
    next h0 => rw [if_neg fun hpos : pos / blockSize = l => h (hpos ▸ h0)]
    rename_i h0
    by_cases hpos : pos / blockSize = l
    · rw [if_pos hpos, hpos]
      exact congrArg (get · _) (update_self _ _ _)
    · rw [if_neg hpos, hne]
      exact fun heq => hpos (lookup_inj (nodup_of_le (le_add_right _ _) ho.nodup) h0 heq)

theorem Allocated.byte {inode' : Inode} {lb : Nat} (ha : Allocated σ σ' M inode inode' lb b)
    (hnull : inode.lookup σ.mem lb = 0) (pos : Nat) : inode'.byte σ'.mem pos = inode.byte σ.mem pos := by
  rw [Inode.byte, Inode.byte, ha.lookup]
  by_cases hnew : b ≠ 0 ∧ pos / blockSize = lb
  · rw [if_pos hnew, if_neg hnew.1, ha.blank hnew.1, get_zero, hnew.2, if_pos hnull]
  rw [if_neg hnew]
  split
  · rfl
  next h0 => rw [ha.keeps.kept _ (mem_add.mpr (.inl (lookup_mem_leaves h0)))]

end Leaves

structure Written (σ σ' : Fs) (M : Multiset Nat) (inode inode' : Inode) (offset : Nat) (buf : Buf)
    (w w' : Nat) : Prop where
  keeps : Keeps M σ σ'
  owns : Owns σ'.lfs (inode'.tree σ'.mem + M)
  fields : ∃ d i1 i2 i3 n, inode' = { inode with
    direct := d, indirect := i1, doubleIndirect := i2, tripleIndirect := i3, blockCount := n }
  le : w ≤ w'
  mapped : ∀ l, inode.lookup σ.mem l ≠ 0 → inode'.lookup σ'.mem l = inode.lookup σ.mem l
  covered : ∀ pos, offset + w ≤ pos → pos < offset + w' → inode'.lookup σ'.mem (pos / blockSize) ≠ 0
  byte : ∀ pos, inode'.byte σ'.mem pos =
    if offset + w ≤ pos ∧ pos < offset + w' then buf (pos - offset) else inode.byte σ.mem pos

section Write
variable {ρ : Bool} {σ σ' σ'' : Fs} {M : Multiset Nat} {inode inode' inode'' : Inode} {offset len w w' w'' lb b : Nat}
  {buf : Buf}

theorem Written.refl (ho : Owns σ.lfs (inode.tree σ.mem + M)) : Written σ σ M inode inode offset buf w w :=
  ⟨.refl _ _, ho, ⟨_, _, _, _, _, rfl⟩, le_rfl, fun _ _ => rfl, fun _ _ _ => by omega, fun _ => by rw [if_neg (by omega)]⟩

theorem Written.trans (h : Written σ σ' M inode inode' offset buf w w') (h' : Written σ' σ'' M inode' inode'' offset buf w' w'') :
    Written σ σ'' M inode inode'' offset buf w w'' := by
  have hle := h.le
  have hle' := h'.le
  refine ⟨h.keeps.trans h'.keeps, h'.owns, ?_, hle.trans hle', fun l hl => ?_, fun pos h1 h2 => ?_, fun pos => ?_⟩
  · obtain ⟨d, i1, i2, i3, n, rfl⟩ := h.fields
    obtain ⟨d', j1, j2, j3, n', rfl⟩ := h'.fields
    exact ⟨_, _, _, _, _, rfl⟩
  · have hl' := h.mapped l hl
    rw [h'.mapped l (hl'.symm ▸ hl), hl']
  · by_cases hpos : pos < offset + w'
    · have hne := h.covered pos h1 hpos
      rwa [h'.mapped _ hne]
    · exact h'.covered pos (by omega) h2
  · rw [h'.byte, h.byte]
    grind

theorem Allocated.written (ha : Allocated σ σ' M inode inode' lb b) (hnull : inode.lookup σ.mem lb = 0) :
    Written σ σ' M inode inode' offset buf w w := by
  refine ⟨ha.keeps.mono fun x hx => mem_add.mpr (.inr hx), ha.owns, ha.fields, le_rfl, fun l hl => ?_,
    fun _ _ _ => by omega, fun pos => ?_⟩
  · rw [ha.lookup, if_neg]
    rintro ⟨-, rfl⟩
    exact hl hnull
  · rw [ha.byte hnull, if_neg (by omega)]

def chunkAt (offset len w : Nat) : Nat := min (blockSize - (offset + w) % blockSize) (len - w)

def fillBlock (offset len : Nat) (buf : Buf) (w : Nat) (b : Block) : Block :=
  Bytes.make (splice b.get ((offset + w) % blockSize) (chunkAt offset len w) fun i => buf (w + i))

theorem written_block (ho : Owns σ.lfs (inode.tree σ.mem + M)) (hb : inode.lookup σ.mem ((offset + w) / blockSize) = b)
    (h : b ≠ 0) :
    Written σ ⟨σ.lfs, update σ.mem b (fillBlock offset len buf w (σ.mem b))⟩ M inode inode offset buf w
      (w + chunkAt offset len w) := by
  subst hb
  obtain ⟨hk, ho', hlook, hbyte⟩ := ho.update_leaf h
    (fillBlock offset len buf w (σ.mem (inode.lookup σ.mem ((offset + w) / blockSize))))
  -- the positions written are those of the block from the offset in it on
  have hdiv := div_add_mod (offset + w) blockSize
  have hchunk : chunkAt offset len w ≤ blockSize - (offset + w) % blockSize := Nat.min_le_left _ _
  have hin : ∀ pos, offset + w ≤ pos ∧ pos < offset + (w + chunkAt offset len w) ↔ pos / blockSize = (offset + w) / blockSize ∧
      (offset + w) % blockSize ≤ pos % blockSize ∧ pos % blockSize < (offset + w) % blockSize + chunkAt offset len w := by
    intro pos
    simp only [blockSize] at *
    omega
  refine ⟨hk, ho', ⟨_, _, _, _, _, rfl⟩, Nat.le_add_right _ _, fun l _ => hlook l, fun pos h1 h2 => ?_, fun pos => ?_⟩
  · rw [hlook, ((hin pos).mp ⟨h1, h2⟩).1]
    exact h
  · rw [hbyte]
    simp only [hin]
    have hpmod : pos % blockSize < blockSize := mod_lt _ (by decide)
    by_cases hl : pos / blockSize = (offset + w) / blockSize
    · rw [if_pos hl, fillBlock, get_make_of_lt hpmod]
      by_cases hr : (offset + w) % blockSize ≤ pos % blockSize ∧ pos % blockSize < (offset + w) % blockSize + chunkAt offset len w
      · rw [splice_of_mem hr.1 hr.2, if_pos ⟨hl, hr⟩]
        have hpos := div_add_mod pos blockSize
        congr 1
        rw [hl] at hpos
        omega
      · rw [splice_of_not_mem (by omega), if_neg fun h => hr h.2, byte, hl, if_neg h]
    · rw [if_neg hl, if_neg fun h => hl h.1]

theorem chunkAt_pos (h : w < len) : 0 < chunkAt offset len w := by
  have : (offset + w) % blockSize < blockSize := mod_lt _ (by decide)
  simp only [chunkAt]
  omega

theorem chunkAt_le (offset len w : Nat) : chunkAt offset len w ≤ len - w := Nat.min_le_right _ _

theorem maxFileBlocks_eq : maxFileBlocks = 1074791434 := by
  unfold maxFileBlocks tripleBase ptrsPerBlock
  decide

theorem position_fits (hfit : offset + len ≤ maxFileBlocks * blockSize) (hw : w < len) :
    u64 (offset + w) = offset + w ∧ u32 ((offset + w) / blockSize) = (offset + w) / blockSize ∧
      (offset + w) / blockSize < maxFileBlocks := by
  have hlt : (offset + w) / blockSize < maxFileBlocks := by
    rw [Nat.div_lt_iff_lt_mul (by decide)]
    omega
  have hmax := maxFileBlocks_eq
  refine ⟨mod_eq_of_lt ?_, mod_eq_of_lt ?_, hlt⟩
  · simp only [hmax, blockSize] at hfit
    omega
  · omega

theorem exec_roundBlock (offset w : Nat) (buf : Buf) (hlb : lb < maxFileBlocks) (ho : Owns σ.lfs (inode.tree σ.mem + M)) :
    ∃ b inode' σ', exec (if inode.lookup σ.mem lb = 0 then allocFileBlock inode lb else pure (inode.lookup σ.mem lb, inode) :
        LfsM ρ true _) σ = ((b, inode'), σ') ∧ Written σ σ' M inode inode' offset buf w w ∧
      (b ≠ 0 → inode'.lookup σ'.mem lb = b) ∧
      (inode.lookup σ.mem lb ≠ 0 ∨ (place lb).1.height < σ.lfs.super.freeBlocks → b ≠ 0) ∧
      (inode.lookup σ.mem lb ≠ 0 → inode' = inode ∧ σ' = σ) := by
  by_cases hnull : inode.lookup σ.mem lb = 0
  · rw [if_pos hnull]
    obtain ⟨b, inode', σ', he, ha⟩ := exec_allocFileBlock (ρ := ρ) hlb hnull ho
    refine ⟨b, inode', σ', he, ha.written hnull, fun hb => ?_, fun h => ha.enough (h.resolve_left fun h => h hnull),
      fun h => absurd hnull h⟩
    rw [ha.lookup, if_pos ⟨hb, rfl⟩]
  · rw [if_neg hnull]
    exact ⟨_, _, _, rfl, .refl ho, fun _ => rfl, fun _ => hnull, fun _ => ⟨rfl, rfl⟩⟩

theorem exec_writeLoop (buf : Buf) (hfit : offset + len ≤ maxFileBlocks * blockSize) (fuel : Nat) (hw : w ≤ len)
    (ho : Owns σ.lfs (inode.tree σ.mem + M)) :
    ∃ w' inode' σ', exec (writeLoop offset len buf fuel w inode : LfsM ρ true _) σ = ((w', inode'), σ') ∧
      Written σ σ' M inode inode' offset buf w w' ∧ w' ≤ len ∧
      (0 < fuel → w < len → inode.lookup σ.mem ((offset + w) / blockSize) ≠ 0 ∨
        (place ((offset + w) / blockSize)).1.height < σ.lfs.super.freeBlocks → w < w') ∧
      ((∀ l, (offset + w) / blockSize ≤ l → l * blockSize < offset + len → inode.lookup σ.mem l ≠ 0) →
        inode' = inode ∧ σ'.lfs = σ.lfs) := by
  induction fuel generalizing w inode σ with
  | zero => exact ⟨w, inode, σ, rfl, .refl ho, hw, fun h => absurd h (Nat.lt_irrefl 0), fun _ => ⟨rfl, rfl⟩⟩
  | succ fuel ih =>
    by_cases hdone : len ≤ w
    · refine ⟨w, inode, σ, ?_, .refl ho, hw, fun _ h => by omega, fun _ => ⟨rfl, rfl⟩⟩
      rw [writeLoop, if_pos hdone]
      rfl
    obtain ⟨hpos, hlb, hmax⟩ := position_fits hfit (Nat.lt_of_not_le hdone)
    obtain ⟨b, inode1, σ1, he, hwr, hb, henough, hsame⟩ := exec_roundBlock (ρ := ρ) offset w buf hmax ho
    have hbelow := div_mul_le_self (offset + w) blockSize
    rw [writeLoop, if_neg hdone]
    simp only [hpos, hlb]
    rw [exec_bind_of (exec_getFileBlock _ _), exec_ite_bind, exec_bind_of he]
    by_cases hb0 : b = 0
    · simp only [if_pos hb0, exec_pure]
      exact ⟨_, _, _, rfl, hwr, hw, fun _ _ h => absurd hb0 (henough h),
        fun hmap => absurd hb0 (henough (.inl (hmap _ le_rfl (by omega))))⟩
    simp only [if_neg hb0, exec_read_bind, exec_write_bind, if_true]
    have hchunk : 0 < chunkAt offset len w := chunkAt_pos (Nat.lt_of_not_le hdone)
    have hle := chunkAt_le offset len w
    have hblk : Written σ1 _ M inode1 inode1 offset buf w (w + chunkAt offset len w) := written_block hwr.owns (hb hb0) hb0
    obtain ⟨w', inode', σ', he', hwr', hle', -, hsame'⟩ := ih (w := w + chunkAt offset len w) (by omega) hblk.owns
    refine ⟨w', inode', σ', he', (hwr.trans hblk).trans hwr', hle', fun _ _ _ => by have := hwr'.le; omega, fun hmap => ?_⟩
    obtain ⟨rfl, rfl⟩ := hsame (hmap _ le_rfl (by omega))
    refine hsame' fun l h1 h2 => ?_
    have hl := hmap l ((Nat.div_le_div_right (by omega)).trans h1) h2
    rwa [hblk.mapped l hl]

end Write

end Limnx
