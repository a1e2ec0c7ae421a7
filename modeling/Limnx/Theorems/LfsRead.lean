import Limnx.Theorems.LfsOps

/-! What `limnfs_read_data` returns, past the cache. -/

namespace Limnx
open Function List Inode Handler BlockProg

attribute [local irreducible] ptrsPerBlock

def rawBlocks {ρ ω : Bool} {α : Type} (p : LfsM ρ ω α) (σ : Fs) : List Nat := (p.run σ.lfs).rawReads σ.mem

/-- The program returns `a` and changes nothing; the blocks that it reads past the cache are in `S`. -/
structure Reads {ρ ω : Bool} {α : Type} (p : LfsM ρ ω α) (σ : Fs) (S : Nat → Prop) (a : α) : Prop where
  value : exec p σ = (a, σ)
  raw : ∀ b ∈ rawBlocks p σ, S b

section Reads
variable {ρ ω : Bool} {α β : Type} {σ : Fs} {S : Nat → Prop}

theorem Reads.pure (a : α) : Reads (pure a : LfsM ρ ω α) σ S a := ⟨rfl, fun _ h => absurd h not_mem_nil⟩

theorem Reads.bind {p : LfsM ρ ω α} {f : α → LfsM ρ ω β} {a : α} {b : β} (hp : Reads p σ S a) (hf : Reads (f a) σ S b) :
    Reads (p >>= f) σ S b := by
  refine ⟨(exec_bind_of hp.value f).trans hf.value, fun x hx => ?_⟩
  have hval : (run plain (p.run σ.lfs) σ.mem).1.1 = a := congrArg Prod.fst hp.value
  have hlfs : (run plain (p.run σ.lfs) σ.mem).1.2 = σ.lfs := congrArg (fun r => r.2.lfs) hp.value
  have hmem : (run plain (p.run σ.lfs) σ.mem).2 = σ.mem := congrArg (fun r => r.2.mem) hp.value
  have hrun : run plain (p.run σ.lfs) σ.mem = ((a, σ.lfs), σ.mem) := Prod.ext (Prod.ext hval hlfs) hmem
  rw [rawBlocks, StateT.run_bind, rawReads_bind, hrun] at hx
  exact (mem_append.mp hx).elim (hp.raw x) (hf.raw x)

theorem Reads.bcacheRead (b : Nat) : Reads (bcacheRead b : LfsM ρ ω _) σ S (some (σ.mem b)) :=
  ⟨rfl, fun _ h => absurd h not_mem_nil⟩

theorem Reads.blkReadMulti {b n : Nat} (h : ∀ i < n, S (b + i)) :
    Reads (blkReadMulti b n : LfsM true ω _) σ S (some (blocksAt σ.mem b n)) := by
  refine ⟨rfl, fun x hx => ?_⟩
  have hraw : rawBlocks (Limnx.blkReadMulti b n : LfsM true ω _) σ = (range n).map (b + ·) := append_nil _
  rw [hraw] at hx
  obtain ⟨i, hi, rfl⟩ := mem_map.mp hx
  exact h i (mem_range.mp hi)

theorem Reads.followPath (path : List Nat) : ∀ b : Nat, rawBlocks (followPath b path : LfsM ρ ω Nat) σ = [] := by
  induction path with
  | nil => exact fun _ => rfl
  | cons i path ih =>
    intro b
    show ((if ptrAt (σ.mem b) i = 0 then Pure.pure 0 else Limnx.followPath (ptrAt (σ.mem b) i) path : LfsM ρ ω Nat).run
      σ.lfs).rawReads σ.mem = []
    split
    · rfl
    · exact ih _

theorem Reads.getFileBlock (inode : Inode) (lb : Nat) :
    Reads (getFileBlock inode lb : LfsM ρ ω Nat) σ S (inode.lookup σ.mem lb) := by
  refine ⟨exec_getFileBlock inode lb, fun x hx => absurd hx ?_⟩
  have hraw : rawBlocks (Limnx.getFileBlock inode lb : LfsM ρ ω Nat) σ = [] := by
    unfold Limnx.getFileBlock
    split
    · rfl
    dsimp only
    split
    · exact Reads.followPath _ _
    split
    · exact Reads.followPath _ _
    split
    · exact Reads.followPath _ _
    · rfl
  rw [hraw]
  exact not_mem_nil

theorem Reads.readInode (ino : Nat) :
    Reads (limnfsReadInode ino : LfsM ρ ω _) σ S (if maxInodes ≤ ino then none else some (σ.inodeAt ino)) := by
  refine ⟨exec_readInode ino, fun x hx => absurd hx ?_⟩
  have hraw : rawBlocks (limnfsReadInode ino : LfsM ρ ω _) σ = [] := by
    unfold limnfsReadInode
    split <;> rfl
  rw [hraw]
  exact not_mem_nil

end Reads

variable (inode : Inode)

def Inode.slice (m : Disk) (pos n : Nat) : List UInt8 :=
  (List.range n).map fun i => inode.byte m (pos + i)

section Slices
variable {inode : Inode} {m : Disk} {pos n k b l : Nat}

@[simp] theorem Inode.length_slice : (inode.slice m pos n).length = n := by
  simp [slice]

theorem Inode.slice_append (inode : Inode) (m : Disk) (pos n k : Nat) :
    inode.slice m pos n ++ inode.slice m (pos + n) k = inode.slice m pos (n + k) := by
  simp only [slice, range_add, map_append, map_map]
  congr 1
  exact map_congr_left fun i _ => by simp only [comp_apply, Nat.add_assoc]

theorem Inode.slice_block (h : inode.lookup m (pos / blockSize) ≠ 0) (hn : pos % blockSize + n ≤ blockSize) :
    blockSlice (m (inode.lookup m (pos / blockSize))) (pos % blockSize) n = inode.slice m pos n := by
  refine map_congr_left fun i hi => ?_
  have hi := mem_range.mp hi
  have hdiv : (pos + i) / blockSize = pos / blockSize := by
    simp only [blockSize] at hn ⊢
    omega
  have hmod : (pos + i) % blockSize = pos % blockSize + i := by
    simp only [blockSize] at hn ⊢
    omega
  rw [byte, hdiv, if_neg h, hmod]

theorem Handler.blocksAt_succ {β : Type} (m : Nat → β) (b n : Nat) :
    blocksAt m b (n + 1) = blocksAt m b n ++ [m (b + n)] := by
  simp [blocksAt, range_succ]

theorem Inode.slice_blocks : ∀ {n : Nat}, (∀ i < n, inode.lookup m (l + i) = b + i ∧ b + i ≠ 0) →
    (blocksAt m b n).flatMap (fun d => blockSlice d 0 blockSize) = inode.slice m (l * blockSize) (n * blockSize)
  | 0, _ => by simp [blocksAt, slice]
  | n + 1, h => by
    obtain ⟨hl, hb⟩ := h n (Nat.lt_succ_self n)
    have hdiv : (l * blockSize + n * blockSize) / blockSize = l + n := by
      rw [← Nat.add_mul, Nat.mul_div_cancel _ (by decide)]
    have hmod : (l * blockSize + n * blockSize) % blockSize = 0 := by rw [← Nat.add_mul, Nat.mul_mod_left]
    have hmapped : inode.lookup m ((l * blockSize + n * blockSize) / blockSize) ≠ 0 := by rwa [hdiv, hl]
    have hlast := slice_block (n := blockSize) hmapped (by rw [hmod, Nat.zero_add])
    rw [hmod, hdiv, hl] at hlast
    rw [Handler.blocksAt_succ, flatMap_append, slice_blocks fun i hi => h i (Nat.lt_succ_of_lt hi),
      flatMap_cons, flatMap_nil, append_nil, hlast, slice_append, Nat.succ_mul]

end Slices

/-! ### The range of a read -/

def FullBlock (offset len l : Nat) : Prop := offset ≤ l * blockSize ∧ (l + 1) * blockSize ≤ offset + len

def Inode.Mapped (m : Disk) (offset len : Nat) : Prop :=
  ∀ l, offset / blockSize ≤ l → l * blockSize < offset + len → inode.lookup m l ≠ 0

def rangeBlocks (offset len : Nat) : Nat := (offset + len - 1) / blockSize - offset / blockSize + 1

def Inode.looksContiguous (m : Disk) (startLb nBlocks : Nat) : Bool :=
  [1, nBlocks / 4, nBlocks / 2, nBlocks - 1].all fun c =>
    c == 0 || nBlocks ≤ c || inode.lookup m (startLb + c) == u32 (inode.lookup m startLb + c)

def Inode.Contiguous (m : Disk) (startLb nBlocks : Nat) : Prop :=
  ∀ i, i < nBlocks → inode.lookup m (startLb + i) = inode.lookup m startLb + i

def Inode.SpotChecked (m : Disk) (offset len : Nat) : Prop :=
  32 * 1024 ≤ len → inode.looksContiguous m (offset / blockSize) (rangeBlocks offset len) = true →
    inode.Contiguous m (offset / blockSize) (rangeBlocks offset len)

def Inode.RunsIn (m : Disk) (offset len : Nat) (S : Nat → Prop) : Prop :=
  ∀ l, FullBlock offset len l → FullBlock offset len (l + 1) → inode.lookup m (l + 1) = inode.lookup m l + 1 →
    S (inode.lookup m l) ∧ S (inode.lookup m (l + 1))

section Range
variable {ρ ω : Bool} {σ : Fs} {S : Nat → Prop} {inode : Inode} {offset len : Nat}

theorem reads_allM {ι : Type} {f : ι → LfsM ρ ω Bool} {g : ι → Bool} (h : ∀ i, Reads (f i) σ S (g i)) :
    ∀ l : List ι, Reads (l.allM f) σ S (l.all g)
  | [] => .pure true
  | i :: l => by
    rw [allM, all_cons]
    refine (h i).bind ?_
    cases g i with
    | false => exact .pure false
    | true => exact reads_allM h l

theorem reads_spotChecks (startLb nBlocks : Nat) :
    Reads (spotChecks inode startLb nBlocks (inode.lookup σ.mem startLb) : LfsM ρ ω Bool) σ S
      (inode.looksContiguous σ.mem startLb nBlocks) := by
  refine reads_allM (fun c => ?_) _
  by_cases hc : c = 0 ∨ nBlocks ≤ c
  · rw [if_pos hc, show (c == 0 || decide (nBlocks ≤ c)) = true by simpa using hc, Bool.true_or]
    exact .pure true
  · rw [if_neg hc, show (c == 0 || decide (nBlocks ≤ c)) = false by simpa using hc, Bool.false_or]
    exact (Reads.getFileBlock inode (startLb + c)).bind (.pure _)

theorem reads_runLength (inode : Inode) (lb db maxRun : Nat) : ∀ fuel run, (∀ i < run, inode.lookup σ.mem (lb + i) = u32 (db + i)) →
    ∃ r, Reads (runLength inode lb db maxRun fuel run : LfsM ρ ω Nat) σ S r ∧ (r = run ∨ r ≤ maxRun) ∧
      ∀ i < r, inode.lookup σ.mem (lb + i) = u32 (db + i)
  | 0, run, h => ⟨run, .pure run, .inl rfl, h⟩
  | fuel + 1, run, h => by
    rw [runLength]
    by_cases hmax : maxRun ≤ run
    · rw [if_pos hmax]
      exact ⟨run, .pure run, .inl rfl, h⟩
    rw [if_neg hmax]
    by_cases hnext : inode.lookup σ.mem (lb + run) = u32 (db + run)
    · obtain ⟨r, hr, hle, hall⟩ := reads_runLength inode lb db maxRun fuel (run + 1) fun i hi => by
        rcases Nat.lt_succ_iff_lt_or_eq.mp hi with hi | rfl
        · exact h i hi
        · exact hnext
      refine ⟨r, (Reads.getFileBlock inode (lb + run)).bind ?_, .inr (by omega), hall⟩
      rwa [if_neg (not_not.mpr hnext)]
    · refine ⟨run, (Reads.getFileBlock inode (lb + run)).bind ?_, .inl rfl, h⟩
      rw [if_pos hnext]
      exact .pure run

theorem run_contiguous {lb db r : Nat} (hdb : db < 2 ^ 32) (hr : r ≤ 8)
    (hlow : ∀ i < r, 8 ≤ inode.lookup σ.mem (lb + i))
    (h : ∀ i < r, inode.lookup σ.mem (lb + i) = u32 (db + i)) : ∀ i < r, inode.lookup σ.mem (lb + i) = db + i := by
  intro i hi
  have := hlow i hi
  rw [h i hi] at this ⊢
  unfold u32 at this ⊢
  omega

theorem full_of_run {l r k i : Nat} (hl : l * blockSize = offset + k) (hrest : r * blockSize ≤ len - k) (hi : i < r) :
    FullBlock offset len (l + i) := by
  have hle : (i + 1) * blockSize ≤ r * blockSize := Nat.mul_le_mul_right _ hi
  have hmul : (l + i) * blockSize + blockSize = l * blockSize + (i + 1) * blockSize := by
    rw [Nat.add_mul, Nat.succ_mul, Nat.add_assoc]
  have hge : l * blockSize ≤ (l + i) * blockSize := Nat.mul_le_mul_right _ (Nat.le_add_right l i)
  have hpos : 0 < r * blockSize := Nat.mul_pos (by omega) (by decide)
  refine ⟨by omega, ?_⟩
  rw [Nat.succ_mul]
  omega

section
-- the blocks of the range from `start` on follow each other on the disk, from `first` on
variable {first start : Nat} (hcont : ∀ l, start ≤ l → l * blockSize < offset + len →
    inode.lookup σ.mem l = first + (l - start) ∧ first + (l - start) ≠ 0 ∧ first + (l - start) < 2 ^ 32)
  (hS : ∀ l, FullBlock offset len l → S (inode.lookup σ.mem l))
include hcont hS

theorem reads_bulkRead : ∀ fuel l k, offset + k = l * blockSize → start ≤ l →
    len ≤ k + fuel → k ≤ len →
    ∃ l' k', Reads (bulkRead len fuel (u32 (first + (l - start))) (inode.slice σ.mem offset k) : LfsM true ω _) σ S
        (some (u32 (first + (l' - start)), inode.slice σ.mem offset k')) ∧
      offset + k' = l' * blockSize ∧ start ≤ l' ∧ k' ≤ len ∧ len < k' + blockSize
  | 0, l, k, hpos, hl, hfuel, hk => ⟨l, k, .pure _, hpos, hl, hk, by simp only [blockSize]; omega⟩
  | fuel + 1, l, k, hpos, hl, hfuel, hk => by
    rw [bulkRead, length_slice]
    by_cases hdone : len < k + blockSize
    · rw [if_pos hdone]
      exact ⟨l, k, .pure _, hpos, hl, hk, hdone⟩
    rw [if_neg hdone]
    -- the whole blocks that remain, at most 64 of them
    generalize hbatch : min 64 ((len - k) / blockSize) = n
    have hle : n * blockSize ≤ len - k := by
      have := Nat.div_mul_le_self (len - k) blockSize
      exact (Nat.mul_le_mul_right _ (by omega)).trans this
    have hn : 0 < n := by
      have : 0 < (len - k) / blockSize := Nat.div_pos (by omega) (by decide)
      omega
    have hblocks : ∀ i < n, inode.lookup σ.mem (l + i) = u32 (first + (l - start)) + i ∧
        u32 (first + (l - start)) + i ≠ 0 := fun i hi => by
      have hi' : (l + i) * blockSize < offset + len := by
        simp only [blockSize] at *
        omega
      obtain ⟨h1, h2, h3⟩ := hcont (l + i) (by omega) hi'
      have h4 : u32 (first + (l - start)) = first + (l - start) := Nat.mod_eq_of_lt (by omega)
      omega
    have hraw : ∀ i < n, S (u32 (first + (l - start)) + i) := fun i hi => by
      rw [← (hblocks i hi).1]
      exact hS _ (full_of_run hpos.symm hle hi)
    have hnext : offset + (k + n * blockSize) = (l + n) * blockSize := by rw [Nat.add_mul]; omega
    obtain ⟨l', k', hr, h1, h2, h3, h4⟩ := reads_bulkRead fuel (l + n) (k + n * blockSize) hnext (by omega)
      (by simp only [blockSize]; omega) (by omega)
    refine ⟨l', k', (Reads.blkReadMulti hraw).bind ?_, h1, h2, h3, h4⟩
    have hmod : u32 (u32 (first + (l - start)) + n) = u32 (first + (l + n - start)) := by
      unfold u32
      omega
    dsimp only
    rw [slice_blocks hblocks, ← hpos, slice_append, hmod]
    exact hr

theorem reads_rest {l k : Nat} (hpos : offset + k = l * blockSize) (hl : start ≤ l) (hk : k ≤ len) :
    Reads (do
      match ← bulkRead len len (u32 (first + (l - start))) (inode.slice σ.mem offset k) with
      | none => return none
      | some (blk, acc) =>
        if acc.length < len then
          match ← bcacheRead blk with
          | none => return none
          | some b => return some (acc ++ blockSlice b 0 (len - acc.length))
        else return some acc : LfsM true ω _) σ S (some (inode.slice σ.mem offset len)) := by
  obtain ⟨l', k', hr, hpos', hl', hk', hlast⟩ := reads_bulkRead (ω := ω) hcont hS len l k hpos hl (Nat.le_add_left _ _) hk
  refine hr.bind ?_
  dsimp only
  rw [length_slice]
  by_cases hlt : k' < len
  · obtain ⟨hlook, hne, hfit⟩ := hcont l' hl' (by omega)
    have hdiv : (offset + k') / blockSize = l' := by rw [hpos', Nat.mul_div_cancel _ (by decide)]
    have hmod : (offset + k') % blockSize = 0 := by rw [hpos', Nat.mul_mod_left]
    have hmapped : inode.lookup σ.mem ((offset + k') / blockSize) ≠ 0 := by rwa [hdiv, hlook]
    have hslice := slice_block (n := len - k') hmapped (by rw [hmod]; omega)
    rw [hdiv, hmod, hlook] at hslice
    have hu : u32 (first + (l' - start)) = first + (l' - start) := Nat.mod_eq_of_lt hfit
    rw [if_pos hlt, hu]
    refine (Reads.bcacheRead _).bind ?_
    dsimp only
    rw [hslice, slice_append, Nat.add_sub_cancel' hk']
    exact .pure _
  · rw [if_neg hlt, show k' = len by omega]
    exact .pure _

end

theorem full_of_runs {start : Nat} (hstart : start = offset / blockSize) (hlen : 32 * 1024 ≤ len)
    (hnext : ∀ l, start ≤ l → (l + 1) * blockSize < offset + len →
      inode.lookup σ.mem (l + 1) = inode.lookup σ.mem l + 1)
    (hS : inode.RunsIn σ.mem offset len S) {l : Nat} (hl : FullBlock offset len l) : S (inode.lookup σ.mem l) := by
  obtain ⟨h1, h2⟩ := hl
  have hdiv := Nat.div_add_mod offset blockSize
  have hmod := Nat.mod_lt offset (show 0 < blockSize by decide)
  subst hstart
  by_cases hlast : (l + 1 + 1) * blockSize ≤ offset + len
  · have hge : l * blockSize ≤ (l + 1) * blockSize := Nat.mul_le_mul_right _ (Nat.le_succ l)
    refine (hS l ⟨h1, h2⟩ ⟨h1.trans hge, hlast⟩ (hnext l ?_ ?_)).1
    all_goals
      simp only [blockSize] at h1 h2 hdiv hmod hlast ⊢
      omega
  · obtain ⟨l, rfl⟩ : ∃ j, l = j + 1 := ⟨l - 1, by
      simp only [blockSize] at h1 h2 hlast
      omega⟩
    have hfull : FullBlock offset len l := by
      unfold FullBlock blockSize at *
      omega
    refine (hS l hfull ⟨h1, h2⟩ (hnext l ?_ ?_)).2
    all_goals
      simp only [blockSize] at h1 h2 hdiv hmod hlast ⊢
      omega

theorem reads_sequential (hlen : 32 * 1024 ≤ len) (hmap : inode.Mapped σ.mem offset len)
    (hlow : ∀ l, inode.lookup σ.mem l < 2 ^ 32) (hspot : inode.SpotChecked σ.mem offset len)
    (hS : inode.RunsIn σ.mem offset len S) :
    Reads (limnfsReadDataSequential inode offset len : LfsM true ω _) σ S
      (if inode.looksContiguous σ.mem (offset / blockSize) (rangeBlocks offset len) then some (inode.slice σ.mem offset len)
        else none) := by
  have hfirst : inode.lookup σ.mem (offset / blockSize) ≠ 0 := hmap _ le_rfl (by
    have := Nat.div_mul_le_self offset blockSize
    omega)
  refine (Reads.getFileBlock inode (offset / blockSize)).bind ?_
  rw [if_neg hfirst]
  refine (reads_spotChecks (offset / blockSize) (rangeBlocks offset len)).bind ?_
  cases hlooks : inode.looksContiguous σ.mem (offset / blockSize) (rangeBlocks offset len) with
  | false => exact .pure none
  | true =>
    have hcontig := hspot hlen hlooks
    -- the blocks of the range follow the first one
    have hcont : ∀ l, offset / blockSize ≤ l → l * blockSize < offset + len →
        inode.lookup σ.mem l = inode.lookup σ.mem (offset / blockSize) + (l - offset / blockSize) ∧
        inode.lookup σ.mem (offset / blockSize) + (l - offset / blockSize) ≠ 0 ∧
        inode.lookup σ.mem (offset / blockSize) + (l - offset / blockSize) < 2 ^ 32 := fun l h1 h2 => by
      have hle : l ≤ (offset + len - 1) / blockSize := (Nat.le_div_iff_mul_le (by decide)).mpr (by omega)
      have heq := hcontig (l - offset / blockSize) (by unfold rangeBlocks; omega)
      rw [Nat.add_sub_cancel' h1] at heq
      rw [← heq]
      exact ⟨rfl, hmap l h1 h2, hlow l⟩
    have hnext : ∀ l, offset / blockSize ≤ l → (l + 1) * blockSize < offset + len →
        inode.lookup σ.mem (l + 1) = inode.lookup σ.mem l + 1 := fun l h1 h2 => by
      have hle : l * blockSize ≤ (l + 1) * blockSize := Nat.mul_le_mul_right _ (Nat.le_succ l)
      rw [(hcont l h1 (by omega)).1, (hcont (l + 1) (by omega) h2).1]
      omega
    have hrest := fun {l k : Nat} => reads_rest (ω := ω) (l := l) (k := k) hcont fun _ => full_of_runs rfl hlen hnext hS
    have hdiv := Nat.div_add_mod offset blockSize
    have hmod := Nat.mod_lt offset (show 0 < blockSize by decide)
    by_cases hbo : offset % blockSize = 0
    · rw [if_pos hbo]
      refine (Reads.pure _).bind ?_
      have hfit := (hcont (offset / blockSize) le_rfl (by rw [Nat.mul_comm]; omega)).2.2
      have hr := hrest (l := offset / blockSize) (k := 0) (by rw [Nat.mul_comm]; omega) le_rfl (Nat.zero_le len)
      rwa [show u32 (inode.lookup σ.mem (offset / blockSize) + (offset / blockSize - offset / blockSize)) =
        inode.lookup σ.mem (offset / blockSize) from (Nat.mod_eq_of_lt hfit).trans (by omega)] at hr
    · rw [if_neg hbo]
      have hk : min (blockSize - offset % blockSize) len = blockSize - offset % blockSize := by
        simp only [blockSize]
        omega
      have hr := hrest (l := offset / blockSize + 1) (k := blockSize - offset % blockSize)
        (by rw [Nat.succ_mul, Nat.mul_comm]; omega) (Nat.le_succ _) (by simp only [blockSize]; omega)
      have hslice := slice_block (n := blockSize - offset % blockSize) hfirst (by omega)
      refine (Reads.bcacheRead _).bind ?_
      dsimp only
      rw [hk, hslice]
      refine (Reads.pure _).bind ?_
      rwa [Nat.add_sub_cancel_left] at hr

theorem reads_cached {fuel k : Nat} {a : List UInt8} (hb : inode.lookup σ.mem ((offset + k) / blockSize) ≠ 0)
    (h : Reads (readLoop inode offset len fuel (inode.slice σ.mem offset (k + chunkAt offset len k)) : LfsM true ω _) σ S a) :
    Reads (do
      match ← bcacheRead (inode.lookup σ.mem ((offset + k) / blockSize)) with
      | none => return inode.slice σ.mem offset k
      | some b =>
        readLoop inode offset len fuel (inode.slice σ.mem offset k ++ blockSlice b ((offset + k) % blockSize)
          (min (blockSize - (offset + k) % blockSize) (len - k))) : LfsM true ω _) σ S a := by
  have hmod := Nat.mod_lt (offset + k) (show 0 < blockSize by decide)
  refine (Reads.bcacheRead _).bind ?_
  dsimp only
  rw [slice_block hb (by omega), slice_append]
  exact h

theorem run_in {l r b : Nat} (hS : inode.RunsIn σ.mem offset len S) (hfull : ∀ i < r, FullBlock offset len (l + i))
    (hrun : 1 < r) (hblocks : ∀ i < r, inode.lookup σ.mem (l + i) = b + i) {i : Nat} (hi : i < r) : S (b + i) := by
  rw [← hblocks i hi]
  by_cases hlast : i + 1 < r
  · exact (hS (l + i) (hfull i hi) (hfull (i + 1) hlast)
      ((hblocks (i + 1) hlast).trans (congrArg (· + 1) (hblocks i hi).symm))).1
  obtain ⟨i, rfl⟩ : ∃ j, i = j + 1 := ⟨i - 1, by omega⟩
  exact (hS (l + i) (hfull i (by omega)) (hfull (i + 1) hi)
    ((hblocks (i + 1) hi).trans (congrArg (· + 1) (hblocks i (by omega)).symm))).2

section
variable (hlow : ∀ l, inode.lookup σ.mem l ≠ 0 → 8 ≤ inode.lookup σ.mem l ∧ inode.lookup σ.mem l < 2 ^ 32)
  (hmap : inode.Mapped σ.mem offset len) (hS : inode.RunsIn σ.mem offset len S)
include hlow hmap hS

theorem reads_round (fuel : Nat) {k : Nat} (hk : k < len) :
    ∃ n, 0 < n ∧ k + n ≤ len ∧ ∀ a, Reads (readLoop inode offset len fuel (inode.slice σ.mem offset (k + n)) : LfsM true ω _) σ S a →
      Reads (readLoop inode offset len (fuel + 1) (inode.slice σ.mem offset k) : LfsM true ω _) σ S a := by
  have hdiv := Nat.div_add_mod (offset + k) blockSize
  have hb : inode.lookup σ.mem ((offset + k) / blockSize) ≠ 0 := hmap _ (Nat.div_le_div_right (Nat.le_add_right _ _)) (by
    rw [Nat.mul_comm]
    omega)
  have hchunk : 0 < chunkAt offset len k := chunkAt_pos hk
  have hchunk' := chunkAt_le offset len k
  by_cases hbulk : (offset + k) % blockSize = 0 ∧ blockSize ≤ len - k
  · obtain ⟨r, hr, hmax, hall⟩ := reads_runLength (ρ := true) (ω := ω) (σ := σ) (S := S) inode
      ((offset + k) / blockSize) (inode.lookup σ.mem ((offset + k) / blockSize)) (min 8 ((len - k) / blockSize)) 8 1
      fun i hi => by
        rw [Nat.lt_one_iff.mp hi, Nat.add_zero, Nat.add_zero, u32, Nat.mod_eq_of_lt (hlow _ hb).2]
    by_cases hrun : 1 < r
    · have hrest : r * blockSize ≤ len - k :=
        (Nat.mul_le_mul_right _ (by omega)).trans (Nat.div_mul_le_self (len - k) blockSize)
      have hl : (offset + k) / blockSize * blockSize = offset + k := by
        rw [Nat.mul_comm]
        omega
      have hfull := fun {i} (hi : i < r) => full_of_run (i := i) hl hrest hi
      have hmapped : ∀ i < r, inode.lookup σ.mem ((offset + k) / blockSize + i) ≠ 0 := fun i hi => by
        have hlt := (hfull hi).2
        refine hmap _ ?_ (by simp only [blockSize] at hlt ⊢; omega)
        exact (Nat.div_le_div_right (Nat.le_add_right _ _)).trans (Nat.le_add_right _ _)
      have hblocks := run_contiguous (hlow _ hb).2 (by omega) (fun i hi => (hlow _ (hmapped i hi)).1) hall
      refine ⟨r * blockSize, Nat.mul_pos (by omega) (by decide), by omega, fun a h => ?_⟩
      rw [readLoop, length_slice, if_neg (by omega)]
      refine (Reads.getFileBlock inode _).bind ?_
      rw [if_neg hb, if_pos hbulk]
      refine hr.bind ?_
      rw [if_pos hrun]
      refine (Reads.blkReadMulti fun i hi => run_in hS (fun i hi => hfull hi) hrun hblocks hi).bind ?_
      dsimp only
      rw [slice_blocks fun i hi => ⟨hblocks i hi, (hblocks i hi) ▸ hmapped i hi⟩, hl, slice_append]
      exact h
    · refine ⟨chunkAt offset len k, hchunk, by omega, fun a h => ?_⟩
      rw [readLoop, length_slice, if_neg (by omega)]
      refine (Reads.getFileBlock inode _).bind ?_
      rw [if_neg hb, if_pos hbulk]
      refine hr.bind ?_
      rw [if_neg hrun]
      exact (Reads.pure none).bind (reads_cached hb h)
  · refine ⟨chunkAt offset len k, hchunk, by omega, fun a h => ?_⟩
    rw [readLoop, length_slice, if_neg (by omega)]
    refine (Reads.getFileBlock inode _).bind ?_
    rw [if_neg hb, if_neg hbulk]
    exact (Reads.pure none).bind (reads_cached hb h)

theorem reads_readLoop : ∀ fuel k, k ≤ len → len ≤ k + fuel →
    Reads (readLoop inode offset len fuel (inode.slice σ.mem offset k) : LfsM true ω _) σ S (inode.slice σ.mem offset len)
  | 0, k, hk, hfuel => by
    rw [readLoop, show k = len by omega]
    exact .pure _
  | fuel + 1, k, hk, hfuel => by
    by_cases hlt : k < len
    · obtain ⟨n, hn, hle, hround⟩ := reads_round (ω := ω) hlow hmap hS fuel hlt
      exact hround _ (reads_readLoop fuel (k + n) hle (by omega))
    · rw [readLoop, length_slice, if_pos (by omega), show k = len by omega]
      exact .pure _

end

theorem reads_readData {ino : Nat} (ho : Owns σ.lfs σ.forest) (hino : ino < maxInodes)
    (hoff : offset < (σ.inodeAt ino).size)
    (hmap : (σ.inodeAt ino).Mapped σ.mem offset (min len ((σ.inodeAt ino).size - offset)))
    (hspot : (σ.inodeAt ino).SpotChecked σ.mem offset (min len ((σ.inodeAt ino).size - offset)))
    (hS : (σ.inodeAt ino).RunsIn σ.mem offset (min len ((σ.inodeAt ino).size - offset)) S) :
    Reads (limnfsReadData ino offset len : LfsM true ω _) σ S
      (some ((σ.inodeAt ino).slice σ.mem offset (min len ((σ.inodeAt ino).size - offset)))) := by
  have hlow : ∀ l, (σ.inodeAt ino).lookup σ.mem l ≠ 0 →
      8 ≤ (σ.inodeAt ino).lookup σ.mem l ∧ (σ.inodeAt ino).lookup σ.mem l < 2 ^ 32 := fun l hl => by
    have hmem : (σ.inodeAt ino).lookup σ.mem l ∈ (σ.inodeAt ino).tree σ.mem + σ.forestBut ino :=
      Multiset.mem_add.mpr (.inl (Multiset.mem_of_le leaves_le_tree (lookup_mem_leaves hl)))
    have hown := ho.inode hino
    have hin := (hown.inside _ hmem).1
    rw [ho.data] at hin
    exact ⟨by omega, hown.lt_limit hmem⟩
  have hlow' : ∀ l, (σ.inodeAt ino).lookup σ.mem l < 2 ^ 32 := fun l => by
    by_cases hl : (σ.inodeAt ino).lookup σ.mem l = 0
    · rw [hl]
      decide
    · exact (hlow l hl).2
  refine (Reads.readInode ino).bind ?_
  rw [if_neg (by omega)]
  dsimp only
  rw [if_neg (by omega)]
  generalize min len ((σ.inodeAt ino).size - offset) = n at hmap hspot hS ⊢
  have hslow := reads_readLoop (ω := ω) hlow hmap hS n 0 (Nat.zero_le n) (by omega)
  by_cases hlong : 32 * 1024 ≤ n
  · rw [if_pos hlong]
    refine (reads_sequential hlong hmap hlow' hspot hS).bind ?_
    cases (σ.inodeAt ino).looksContiguous σ.mem (offset / blockSize) (rangeBlocks offset n) with
    | true => exact .pure _
    | false => exact hslow.bind (.pure _)
  · rw [if_neg hlong]
    exact (Reads.pure none).bind (hslow.bind (.pure _))

end Range

end Limnx
