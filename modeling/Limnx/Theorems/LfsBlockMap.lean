import Limnx.Theorems.LfsInode

/-! The count of free blocks is not read when `allocFileBlock` extends the block map (`Uncounted`), so it need not be
    right. -/

namespace Limnx
open Function Multiset

def Fs.counting (σ : Fs) (n : Nat) : Fs :=
  { σ with lfs := { σ.lfs with super := { σ.lfs.super with freeBlocks := n } } }

def Uncounted {ρ ω : Bool} {α : Type} (p : LfsM ρ ω α) : Prop :=
  ∀ σ n, ∃ n', exec p (σ.counting n) = ((exec p σ).1, (exec p σ).2.counting n')

namespace Uncounted
variable {ρ ω : Bool} {α β : Type}

theorem pure (a : α) : Uncounted (pure a : LfsM ρ ω α) := fun _ n => ⟨n, rfl⟩

theorem bind {p : LfsM ρ ω α} {f : α → LfsM ρ ω β} (hp : Uncounted p) (hf : ∀ a, Uncounted (f a)) :
    Uncounted (p >>= f) := by
  intro σ n
  obtain ⟨k, hk⟩ := hp σ n
  obtain ⟨n', hn⟩ := hf (exec p σ).1 (exec p σ).2 k
  refine ⟨n', ?_⟩
  rw [exec_bind_of hk, exec_bind, hn]

theorem ite {c : Prop} [Decidable c] {p q : LfsM ρ ω α} (hp : Uncounted p) (hq : Uncounted q) :
    Uncounted (if c then p else q) := by
  split
  · exact hp
  · exact hq

theorem read (b : Nat) : Uncounted (bcacheRead b : LfsM ρ ω _) := fun _ n => ⟨n, rfl⟩

theorem write (b : Nat) (d : Block) : Uncounted (bcacheWrite b d : LfsM ρ true _) := fun _ n => ⟨n, rfl⟩

theorem free (b : Nat) : Uncounted (limnfsFreeBlock b : LfsM ρ ω _) := by
  intro σ n
  simp only [limnfsFreeBlock, exec_modify, Fs.counting]
  split
  · exact ⟨n, rfl⟩
  · exact ⟨_, rfl⟩

theorem allocZeroed : Uncounted (allocZeroed : LfsM ρ true Nat) := by
  refine bind (fun σ n => ?_) fun b => ite (.pure _) (.bind (write _ _) fun _ => .pure _)
  simp only [limnfsAllocBlock, exec_get_bind, Fs.counting]
  split
  · exact ⟨pred32 n, rfl⟩
  split
  · exact ⟨pred32 n, rfl⟩
  · exact ⟨n, rfl⟩

theorem linkPath (blk : Nat) : ∀ b path scratch, Uncounted (linkPath blk b path scratch : LfsM ρ true Bool)
  | _, [], _ => .pure _
  | b, [_], _ => .bind (read b) fun _ => .bind (write _ _) fun _ => .pure _
  | b, _ :: _ :: _, _ => .bind (read b) fun _ => .ite (linkPath blk _ _ _) <| .bind allocZeroed fun _ =>
      .ite (.bind (free blk) fun _ => .pure _) <| .bind (read b) fun _ => .bind (write _ _) fun _ => linkPath blk _ _ _

theorem treeRoot (r : Nat) : Uncounted (treeRoot r : LfsM ρ true Nat) := ite allocZeroed (.pure _)

theorem allocFileBlock (inode : Inode) (lb : Nat) : Uncounted (allocFileBlock inode lb : LfsM ρ true _) := by
  refine .bind allocZeroed fun blk => .ite (.pure _) ?_
  have grow : ∀ r (f : Nat → Inode) path scratch, Uncounted (do
      let root ← Limnx.treeRoot r
      if root = 0 then
        limnfsFreeBlock blk
        return (0, inode)
      if ← Limnx.linkPath blk root path scratch then
        return (blk, { f root with blockCount := u32 ((f root).blockCount + 1) })
      else return (0, f root) : LfsM ρ true _) := fun r f path scratch =>
    .bind (treeRoot r) fun _ => .ite (.bind (free blk) fun _ => .pure _) <| .bind (linkPath _ _ _ _) fun _ =>
      .ite (.pure _) (.pure _)
  split
  · exact .pure _
  refine .ite ?_ (.ite ?_ ?_)
  · exact grow _ (fun r => { inode with indirect := r }) _ _
  · exact grow _ (fun r => { inode with doubleIndirect := r }) _ _
  · intro σ n
    rw [exec_get_bind, exec_get_bind]
    exact grow _ (fun r => { inode with tripleIndirect := r }) _ _ σ n

end Uncounted

section Extend
variable {σ : Fs} {inode : Inode} {l : Nat}

/-- A block of the data area that is marked as used. -/
def Lfs.Used (s : Lfs) (b : Nat) : Prop :=
  s.super.dataStart ≤ b ∧ b < s.super.totalBlocks ∧ Bitmap.get s.blockBitmap b = true

def Lfs.clearBlocks (s : Lfs) : Nat :=
  ((Finset.Ico s.super.dataStart s.super.totalBlocks).filter fun b => ¬Bitmap.get s.blockBitmap b).card

def Fs.fileBlock (σ : Fs) (inode : Inode) (l : Nat) : Nat := (exec (getFileBlock inode l : LfsM true true Nat) σ).1

/-- A position without a block has got a free one, filled with zeros, and the other positions keep theirs, or all do
    and there are no more free blocks than pointer blocks on the way to the position. -/
def Extended (σ : Fs) (inode : Inode) (l : Nat) : (Nat × Inode) × Fs → Prop
  | ((b, inode'), σ') =>
    b ≠ 0 ∧ Bitmap.get σ.lfs.blockBitmap b = false ∧ σ'.fileBlock inode' l = b ∧ σ'.mem b = Bytes.zero ∧
        (∀ k, k ≠ l → σ'.fileBlock inode' k = σ.fileBlock inode k) ∧ (inode'.tree σ'.mem).Nodup ∨
      b = 0 ∧ σ.lfs.clearBlocks ≤ (place l).1.height ∧ ∀ k, σ'.fileBlock inode' k = σ.fileBlock inode k

section
variable (hlayout : Layout σ.lfs) (hhint : σ.lfs.allocHint ≤ σ.lfs.super.totalBlocks)
include hlayout hhint

theorem owns_of_used {B : Multiset Nat} (hroom : σ.lfs.super.dataStart ≤ σ.lfs.super.totalBlocks) (hnd : B.Nodup)
    (hused : ∀ b ∈ B, σ.lfs.Used b) : ∃ M, Owns (σ.counting σ.lfs.clearBlocks).lfs (B + M) := by
  let U := (Finset.Ico σ.lfs.super.dataStart σ.lfs.super.totalBlocks).filter fun b =>
    Bitmap.get σ.lfs.blockBitmap b
  have hmem : ∀ b, b ∈ U.val ↔ σ.lfs.Used b := fun b => by
    rw [Finset.mem_val, Finset.mem_filter, Finset.mem_Ico, and_assoc]
    rfl
  obtain ⟨M, hM⟩ := Multiset.le_iff_exists_add.mp ((le_iff_subset hnd).mpr fun b hb => (hmem b).mpr (hused b hb))
  have hcard : U.card + σ.lfs.clearBlocks = σ.lfs.super.totalBlocks - σ.lfs.super.dataStart :=
    (Finset.card_filter_add_card_filter_not _).trans (Nat.card_Ico _ _)
  refine ⟨M, ?_⟩
  rw [← hM]
  refine ⟨{ hlayout with }, U.nodup, fun b hb => ?_, fun b h1 h2 => ?_, ?_, hhint⟩
  · exact ⟨((hmem b).mp hb).1, ((hmem b).mp hb).2.1⟩
  · exact ⟨fun hb => (hmem b).mpr ⟨h1, h2, hb⟩, fun hb => ((hmem b).mp hb).2.2⟩
  · show σ.lfs.clearBlocks + U.card + σ.lfs.super.dataStart = σ.lfs.super.totalBlocks
    omega

theorem block_map_extends (hnd : (inode.tree σ.mem).Nodup) (hused : ∀ b ∈ inode.tree σ.mem, σ.lfs.Used b)
    (hl : l < maxFileBlocks) (hnull : σ.fileBlock inode l = 0) :
    Extended σ inode l (exec (allocFileBlock inode l : LfsM true true _) σ) := by
  simp only [Fs.fileBlock, exec_getFileBlock] at hnull
  by_cases hroom : σ.lfs.super.dataStart ≤ σ.lfs.super.totalBlocks
  · obtain ⟨M, ho⟩ := owns_of_used hlayout hhint hroom hnd hused
    obtain ⟨b, inode', σ', he, ha⟩ := exec_allocFileBlock (ρ := true) (σ := σ.counting σ.lfs.clearBlocks) hl hnull ho
    obtain ⟨n', hn'⟩ := Uncounted.allocFileBlock (ρ := true) inode l σ σ.lfs.clearBlocks
    obtain ⟨hres, hstate⟩ := Prod.mk.inj (hn'.symm.trans he)
    obtain ⟨τ, hτ, hmem⟩ : ∃ τ, exec (allocFileBlock inode l : LfsM true true _) σ = ((b, inode'), τ) ∧ τ.mem = σ'.mem :=
      ⟨_, Prod.ext hres rfl, hstate ▸ rfl⟩
    have hlook : ∀ k, inode'.lookup σ'.mem k = if b ≠ 0 ∧ k = l then b else inode.lookup σ.mem k := ha.lookup
    rw [hτ]
    simp only [Extended, Fs.fileBlock, exec_getFileBlock, hmem]
    by_cases hb : b = 0
    · exact .inr ⟨hb, Nat.not_lt.mp fun h => ha.enough h hb, fun k => by simpa [hb] using hlook k⟩
    · refine .inl ⟨hb, ha.fresh hb, by simpa [hb] using hlook l, ha.blank hb, fun k hk => by simpa [hk] using hlook k, ?_⟩
      exact nodup_of_le (le_add_right _ _) ha.owns.nodup
  · -- the metadata leaves no room for data
    have hstart : max σ.lfs.allocHint σ.lfs.super.dataStart = σ.lfs.super.dataStart := by omega
    have hend : σ.lfs.super.totalBlocks - σ.lfs.super.dataStart = 0 := by omega
    have hblk : exec (limnfsAllocBlock : LfsM true true Nat) σ = (0, σ) := by
      rw [limnfsAllocBlock, exec_get_bind]
      simp only [Bitmap.firstClear, hstart, hend, Nat.sub_self]
      rfl
    have he : exec (allocFileBlock inode l : LfsM true true _) σ = ((0, inode), σ) := by
      rw [allocFileBlock, exec_bind, allocZeroed, exec_bind_of hblk]
      rfl
    rw [he]
    refine .inr ⟨rfl, ?_, fun _ => rfl⟩
    rw [Lfs.clearBlocks, Finset.Ico_eq_empty (by omega)]
    exact Nat.zero_le _

end

def smallFs : Fs :=
  ⟨{ super := { totalBlocks := 40, inodeTblStart := 3, dataStart := 35, freeBlocks := 5 } }, fun _ => Bytes.zero⟩

theorem smallFs_owns : Owns smallFs.lfs (Inode.tree {} smallFs.mem + 0) := by
  rw [Inode.tree, Finset.sum_eq_zero fun s _ => by cases s <;> exact PtrFormat.blocks_null _]
  refine ⟨⟨by decide, by decide, by decide⟩, nodup_zero, fun b hb => ?_, fun b _ _ => ?_, rfl, by decide⟩
  · cases notMem_zero b hb
  · simp [smallFs, Bitmap.get]

/-- The first block behind an indirect block, and the second one. -/
theorem block_map_extends_indirect : let r := exec (allocFileBlock {} 10 : LfsM true true _) smallFs
    let r' := exec (allocFileBlock r.1.2 11 : LfsM true true _) r.2
    r.1.2.indirect = 36 ∧ r'.1.1 = 37 ∧ Extended r.2 r.1.2 11 r' := by
  obtain ⟨b, inode, σ, he, ha⟩ := exec_allocFileBlock (ρ := true) (show 10 < maxFileBlocks by decide) rfl smallFs_owns
  have ho := ha.owns
  rw [add_zero] at ho
  have hnull : σ.fileBlock inode 11 = 0 := by
    rw [Fs.fileBlock, exec_getFileBlock]
    exact (ha.lookup 11).trans (if_neg fun h => absurd h.2 (by decide))
  refine ⟨rfl, rfl, ?_⟩
  rw [he]
  exact block_map_extends ho.toLayout ho.hint ho.nodup (fun b hb => ⟨(ho.inside b hb).1, (ho.inside b hb).2,
    (ho.bit b (ho.inside b hb).1 (ho.inside b hb).2).mpr hb⟩) (by decide) hnull

end Extend

end Limnx
