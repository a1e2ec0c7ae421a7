import Mathlib.Order.Interval.Finset.Nat
import Limnx.Theorems.LfsExec

/-! `Owns s B`: the blocks marked in the bitmap of `s` are those of the multiset `B`, each owned once. The lemmas about
    a tree leave room for the blocks `M` owned elsewhere. -/

open Bool

namespace Limnx
open Function Multiset Bitmap

/-- The areas of the disk follow each other, and block numbers fit in a pointer. -/
structure Layout (s : Lfs) : Prop where
  table : s.super.inodeTblStart = s.bitmapBlocks + 2
  data : s.super.dataStart = s.super.inodeTblStart + 32
  small : s.super.totalBlocks < 2 ^ 32

/-- Of the data blocks, those of `B` are marked, each is there once, and the others are counted. -/
structure Owns (s : Lfs) (B : Multiset Nat) : Prop extends Layout s where
  nodup : B.Nodup
  inside : ∀ b ∈ B, s.super.dataStart ≤ b ∧ b < s.super.totalBlocks
  bit : ∀ b, s.super.dataStart ≤ b → b < s.super.totalBlocks → (get s.blockBitmap b = true ↔ b ∈ B)
  free : s.super.freeBlocks + B.card + s.super.dataStart = s.super.totalBlocks
  hint : s.allocHint ≤ s.super.totalBlocks

/-- Block bitmap, count of free blocks, hint and buffer aside, the state is the same. -/
structure SameMeta (s s' : Lfs) : Prop where
  super : { s'.super with freeBlocks := 0 } = { s.super with freeBlocks := 0 }
  bitmapBytes : s'.blockBitmapBytes = s.blockBitmapBytes
  inodeBitmap : s'.inodeBitmap = s.inodeBitmap
  mounted : s'.mounted = s.mounted

namespace SameMeta
variable {s s' s'' : Lfs}

theorem refl (s : Lfs) : SameMeta s s := ⟨rfl, rfl, rfl, rfl⟩

section
variable (h : SameMeta s s')
include h

theorem trans (h' : SameMeta s' s'') : SameMeta s s'' :=
  ⟨h'.super.trans h.super, h'.bitmapBytes.trans h.bitmapBytes, h'.inodeBitmap.trans h.inodeBitmap,
    h'.mounted.trans h.mounted⟩

theorem dataStart : s'.super.dataStart = s.super.dataStart := by
  injection h.super

theorem totalBlocks : s'.super.totalBlocks = s.super.totalBlocks := by
  injection h.super

theorem inodeTblStart : s'.super.inodeTblStart = s.super.inodeTblStart := by
  injection h.super

theorem freeInodes : s'.super.freeInodes = s.super.freeInodes := by
  injection h.super

theorem bitmapBlocks : s'.bitmapBlocks = s.bitmapBlocks := by
  simp only [Lfs.bitmapBlocks, h.bitmapBytes]

theorem layout (hs : Layout s) : Layout s' :=
  ⟨by rw [h.inodeTblStart, h.bitmapBlocks, hs.table], by rw [h.dataStart, h.inodeTblStart, hs.data],
    by rw [h.totalBlocks]; exact hs.small⟩

end

end SameMeta

/-- The blocks of `K` and those before the data area are as before. -/
structure Keeps (K : Multiset Nat) (σ σ' : Fs) : Prop where
  same : SameMeta σ.lfs σ'.lfs
  kept : ∀ x ∈ K, σ'.mem x = σ.mem x
  outside : ∀ x, x < σ.lfs.super.dataStart → σ'.mem x = σ.mem x

namespace Keeps
variable {K K' : Multiset Nat} {σ σ' σ'' : Fs}

theorem refl (K : Multiset Nat) (σ : Fs) : Keeps K σ σ := ⟨.refl _, fun _ _ => rfl, fun _ _ => rfl⟩

theorem trans (h : Keeps K σ σ') (h' : Keeps K σ' σ'') : Keeps K σ σ'' :=
  ⟨h.same.trans h'.same, fun x hx => (h'.kept x hx).trans (h.kept x hx),
    fun x hx => (h'.outside x (h.same.dataStart ▸ hx)).trans (h.outside x hx)⟩

theorem mono (h : Keeps K σ σ') (hle : ∀ x ∈ K', x ∈ K) : Keeps K' σ σ' :=
  ⟨h.same, fun x hx => h.kept x (hle x hx), h.outside⟩

end Keeps

section Blocks
variable {ρ ω : Bool} {σ : Fs} {s : Lfs} {B : Multiset Nat} {b : Nat}

theorem Owns.ne_zero (h : Owns s B) (hb : b ∈ B) : b ≠ 0 := by
  have := (h.inside b hb).1
  rw [h.data] at this
  omega

theorem Owns.lt_limit (h : Owns s B) (hb : b ∈ B) : b < 2 ^ 32 := (h.inside b hb).2.trans h.small

theorem card_le_of_inside {lo hi : Nat} (hnd : B.Nodup) (hin : ∀ b ∈ B, lo ≤ b ∧ b < hi) : B.card ≤ hi - lo := by
  have hsub : B.toFinset ⊆ Finset.Ico lo hi := fun b hb =>
    Finset.mem_Ico.mpr (hin b (mem_toFinset.mp hb))
  have := Finset.card_le_card hsub
  rwa [toFinset_card_of_nodup hnd, Nat.card_Ico] at this

def taken (s : Lfs) (b : Nat) : Lfs :=
  { s with
    blockBitmap := set s.blockBitmap b
    super := { s.super with freeBlocks := pred32 s.super.freeBlocks }
    allocHint := b + 1 }

theorem sameMeta_taken (s : Lfs) (b : Nat) : SameMeta s (taken s b) := ⟨rfl, rfl, rfl, rfl⟩

theorem Owns.take (h : Owns s B) (h1 : s.super.dataStart ≤ b) (h2 : b < s.super.totalBlocks)
    (hb : get s.blockBitmap b = false) :
    (taken s b).super.freeBlocks + 1 = s.super.freeBlocks ∧ Owns (taken s b) (b ::ₘ B) := by
  have hnot : b ∉ B := fun hmem => by simp [(h.bit b h1 h2).mpr hmem] at hb
  have hnd : (b ::ₘ B).Nodup := nodup_cons.mpr ⟨hnot, h.nodup⟩
  have hin : ∀ c ∈ b ::ₘ B, s.super.dataStart ≤ c ∧ c < s.super.totalBlocks := by
    intro c hc
    rcases mem_cons.mp hc with rfl | hc
    · exact ⟨h1, h2⟩
    · exact h.inside c hc
  have hcard := card_le_of_inside hnd hin
  rw [card_cons] at hcard
  have hfree := h.free
  have hcount : (taken s b).super.freeBlocks + 1 = s.super.freeBlocks := by
    simp only [taken, pred32]
    split <;> omega
  refine ⟨hcount, (sameMeta_taken s b).layout h.toLayout, hnd, hin, fun c hc1 hc2 => ?_, ?_, h2⟩
  · rw [taken, get_set, mem_cons, or_eq_true, decide_eq_true_eq, h.bit c hc1 hc2, eq_comm]
  · rw [card_cons, (sameMeta_taken s b).dataStart, (sameMeta_taken s b).totalBlocks]
    omega

def released (s : Lfs) (b : Nat) : Lfs :=
  { s with
    blockBitmap := clear s.blockBitmap b
    super := { s.super with freeBlocks := u32 (s.super.freeBlocks + 1) } }

theorem sameMeta_released (s : Lfs) (b : Nat) : SameMeta s (released s b) := ⟨rfl, rfl, rfl, rfl⟩

theorem Owns.release (h : Owns s (b ::ₘ B)) : Owns (released s b) B := by
  obtain ⟨hnot, hnd⟩ := nodup_cons.mp h.nodup
  have hfree := h.free
  have hsmall := h.small
  rw [card_cons] at hfree
  refine ⟨(sameMeta_released s b).layout h.toLayout, hnd, fun c hc => h.inside c (mem_cons_of_mem hc),
    fun c hc1 hc2 => ?_, ?_, h.hint⟩
  · rw [released, get_clear, and_eq_true, not_eq_true', decide_eq_false_iff_not, h.bit c hc1 hc2,
      mem_cons]
    constructor
    · rintro ⟨hne, rfl | hc⟩
      · exact absurd rfl hne
      · exact hc
    · intro hc
      exact ⟨fun hbc : b = c => hnot (hbc ▸ hc), .inr hc⟩
  · simp only [released, u32]
    omega

theorem Owns.free_eq_zero (h : Owns s B)
    (hall : ∀ b, s.super.dataStart ≤ b → b < s.super.totalBlocks → get s.blockBitmap b) : s.super.freeBlocks = 0 := by
  have hsub : Finset.Ico s.super.dataStart s.super.totalBlocks ⊆ B.toFinset := fun b hb => by
    obtain ⟨h1, h2⟩ := Finset.mem_Ico.mp hb
    exact mem_toFinset.mpr ((h.bit b h1 h2).mp (hall b h1 h2))
  have hcard := Finset.card_le_card hsub
  rw [toFinset_card_of_nodup h.nodup, Nat.card_Ico] at hcard
  have := h.free
  omega

theorem exec_takeBlock (b : Nat) : exec (takeBlock b : LfsM ρ ω Nat) σ = (b, { σ with lfs := taken σ.lfs b }) := rfl

theorem exec_allocBlock (h : Owns σ.lfs B) :
    σ.lfs.super.freeBlocks = 0 ∧ exec (limnfsAllocBlock : LfsM ρ ω Nat) σ = (0, σ) ∨
      ∃ b, (taken σ.lfs b).super.freeBlocks + 1 = σ.lfs.super.freeBlocks ∧ Owns (taken σ.lfs b) (b ::ₘ B) ∧
        exec (limnfsAllocBlock : LfsM ρ ω Nat) σ = (b, { σ with lfs := taken σ.lfs b }) := by
  have hhint := h.hint
  simp only [limnfsAllocBlock, exec_get_bind]
  cases hfirst : firstClear σ.lfs.blockBitmap (max σ.lfs.allocHint σ.lfs.super.dataStart)
      σ.lfs.super.totalBlocks with
  | some b =>
    obtain ⟨h1, h2, hb⟩ := firstClear_some hfirst
    have ht := h.take (by omega) h2 hb
    exact .inr ⟨b, ht.1, ht.2, exec_takeBlock b⟩
  | none =>
    cases hsecond : firstClear σ.lfs.blockBitmap σ.lfs.super.dataStart
        (max σ.lfs.allocHint σ.lfs.super.dataStart) with
    | some b =>
      obtain ⟨h1, h2, hb⟩ := firstClear_some hsecond
      have ht := h.take h1 (by omega) hb
      exact .inr ⟨b, ht.1, ht.2, exec_takeBlock b⟩
    | none =>
      refine .inl ⟨h.free_eq_zero fun b h1 h2 => ?_, rfl⟩
      by_cases hb : max σ.lfs.allocHint σ.lfs.super.dataStart ≤ b
      · exact firstClear_none hfirst hb h2
      · exact firstClear_none hsecond h1 (by omega)

theorem exec_freeBlock (h : Owns σ.lfs (b ::ₘ B)) :
    exec (limnfsFreeBlock b : LfsM ρ ω Unit) σ = ((), { σ with lfs := released σ.lfs b }) ∧
      Owns (released σ.lfs b) B := by
  obtain ⟨h1, h2⟩ := h.inside b (mem_cons_self b B)
  refine ⟨?_, h.release⟩
  rw [limnfsFreeBlock, exec_modify, if_neg (by omega)]
  rfl

theorem exec_allocZeroed (h : Owns σ.lfs B) :
    σ.lfs.super.freeBlocks = 0 ∧ exec (allocZeroed : LfsM ρ true Nat) σ = (0, σ) ∨
      ∃ b, (taken σ.lfs b).super.freeBlocks + 1 = σ.lfs.super.freeBlocks ∧ Owns (taken σ.lfs b) (b ::ₘ B) ∧
        exec (allocZeroed : LfsM ρ true Nat) σ = (b, ⟨taken σ.lfs b, update σ.mem b Bytes.zero⟩) := by
  rcases exec_allocBlock (ρ := ρ) (ω := true) h with ⟨hfree, he⟩ | ⟨b, hfree, ho, he⟩
  · refine .inl ⟨hfree, ?_⟩
    rw [allocZeroed, exec_bind_of he]
    rfl
  · refine .inr ⟨b, hfree, ho, ?_⟩
    rw [allocZeroed, exec_bind_of he, exec_ite, if_neg (ho.ne_zero (mem_cons_self b B))]
    rfl

end Blocks

end Limnx
