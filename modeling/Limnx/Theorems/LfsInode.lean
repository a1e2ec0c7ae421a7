import Mathlib.Algebra.Order.BigOperators.Group.Finset
import Mathlib.Data.Fintype.Sum
import Mathlib.Tactic.DeriveFintype
import Limnx.Theorems.LfsTree

/-! The thirteen pointers of an inode are its slots, each the root of a tree of a fixed height. A logical block has its
    place in one slot (`place`). -/

namespace Limnx
open Function PtrFormat Multiset Bytes

inductive Slot
  | direct (i : Fin 10)
  | single
  | double
  | triple
deriving DecidableEq, Fintype

def Slot.height : Slot → Nat
  | .direct _ => 0
  | .single => 1
  | .double => 2
  | .triple => 3

namespace Inode
variable {inode : Inode} {s t : Slot} {r : Nat} {m m' : Disk}

def root (inode : Inode) : Slot → Nat
  | .direct i => inode.direct i
  | .single => inode.indirect
  | .double => inode.doubleIndirect
  | .triple => inode.tripleIndirect

def setRoot (inode : Inode) (r : Nat) : Slot → Inode
  | .direct i => { inode with direct := update inode.direct i r }
  | .single => { inode with indirect := r }
  | .double => { inode with doubleIndirect := r }
  | .triple => { inode with tripleIndirect := r }

@[simp] theorem setRoot_self : (inode.setRoot r s).root s = r := by
  cases s <;> simp [root, setRoot]

theorem setRoot_of_ne (h : t ≠ s) : (inode.setRoot r s).root t = inode.root t := by
  cases s <;> cases t <;> simp_all [root, setRoot]

@[simp] theorem root_blockCount (n : Nat) : { inode with blockCount := n }.root = inode.root := by
  funext t
  cases t <;> rfl

def tree (inode : Inode) (m : Disk) : Multiset Nat := ∑ s : Slot, ptrFmt.blocks m s.height (inode.root s)

def leaves (inode : Inode) (m : Disk) : Multiset Nat := ∑ s : Slot, ptrFmt.leaves m s.height (inode.root s)

def others (inode : Inode) (m : Disk) (s : Slot) : Multiset Nat :=
  ∑ t ∈ Finset.univ.erase s, ptrFmt.blocks m t.height (inode.root t)

theorem tree_split (s : Slot) : inode.tree m = ptrFmt.blocks m s.height (inode.root s) + inode.others m s :=
  (Finset.add_sum_erase _ _ (Finset.mem_univ s)).symm

theorem blocks_le_tree (s : Slot) : ptrFmt.blocks m s.height (inode.root s) ≤ inode.tree m := by
  rw [tree_split s]
  exact le_add_right _ _

theorem blocks_le_others (h : t ≠ s) : ptrFmt.blocks m t.height (inode.root t) ≤ inode.others m s := by
  rw [others, ← Finset.add_sum_erase _ _ (Finset.mem_erase.mpr ⟨h, Finset.mem_univ t⟩)]
  exact le_add_right _ _

theorem leaves_le_tree : inode.leaves m ≤ inode.tree m := Finset.sum_le_sum fun _ _ => leaves_le_blocks

theorem mem_leaves_split {x : Nat} (hx : x ∈ inode.leaves m) (s : Slot) :
    x ∈ ptrFmt.leaves m s.height (inode.root s) ∨ x ∈ inode.others m s := by
  obtain ⟨t, -, hx⟩ := mem_sum.mp hx
  by_cases ht : t = s
  · exact .inl (ht ▸ hx)
  · exact .inr (mem_of_le (leaves_le_blocks.trans (blocks_le_others ht)) hx)

theorem others_congr {inode' : Inode} (hroot : ∀ t ≠ s, inode'.root t = inode.root t)
    (hm : ∀ x ∈ inode.others m s, m' x = m x) :
    inode'.others m' s = inode.others m s ∧
      ∀ t ≠ s, ∀ j, ptrFmt.lookup m' t.height (inode'.root t) j = ptrFmt.lookup m t.height (inode.root t) j := by
  have hnodes : ∀ t ≠ s, ∀ x ∈ ptrFmt.nodes m t.height (inode.root t), m' x = m x := fun t ht x hx =>
    hm x (mem_of_le (nodes_le_blocks.trans (blocks_le_others ht)) hx)
  refine ⟨Finset.sum_congr rfl fun t ht => ?_, fun t ht j => ?_⟩
  · obtain ⟨ht, -⟩ := Finset.mem_erase.mp ht
    rw [hroot t ht]
    exact blocks_congr (hnodes t ht)
  · rw [hroot t ht]
    exact (congr_nodes (hnodes t ht)).2.2 j

end Inode

def maxFileBlocks : Nat := tripleBase + ptrsPerBlock ^ 3

def place (lb : Nat) : Slot × Nat :=
  if h : lb < maxDirect then (.direct ⟨lb, h⟩, 0)
  else if lb - maxDirect < ptrsPerBlock then (.single, lb - maxDirect)
  else if lb - maxDirect - ptrsPerBlock < ptrsPerBlock * ptrsPerBlock then (.double, lb - maxDirect - ptrsPerBlock)
  else (.triple, lb - maxDirect - ptrsPerBlock - ptrsPerBlock * ptrsPerBlock)

theorem place_inj {l k : Nat} (h : place l = place k) : l = k := by
  unfold place at h
  split_ifs at h <;>
    simp only [Prod.mk.injEq, Slot.direct.injEq, Fin.ext_iff, reduceCtorEq, true_and, and_true, false_and] at h <;> omega

theorem place_lt {lb : Nat} (h : lb < maxFileBlocks) : (place lb).2 < ptrFmt.fanout ^ (place lb).1.height := by
  rw [fanout_eq]
  simp only [maxFileBlocks, tripleBase] at h
  unfold place
  split_ifs
  · simp [Slot.height]
  · simpa [Slot.height] using ‹_›
  · simpa [Slot.height, pow_two] using ‹_›
  · simp only [Slot.height]
    omega

def Inode.lookup (inode : Inode) (m : Disk) (lb : Nat) : Nat :=
  ptrFmt.lookup m (place lb).1.height (inode.root (place lb).1) (place lb).2

theorem Inode.lookup_beyond (inode : Inode) (m : Disk) {lb : Nat} (h : maxFileBlocks ≤ lb) : inode.lookup m lb = 0 := by
  have hplace : place lb = (.triple, lb - maxDirect - ptrsPerBlock - ptrsPerBlock * ptrsPerBlock) := by
    simp only [maxFileBlocks, tripleBase] at h
    rw [place, dif_neg (by omega), if_neg (by omega), if_neg (by omega)]
  rw [Inode.lookup, hplace]
  by_cases hr : inode.tripleIndirect = 0
  · simp [Inode.root, hr]
  refine lookup_of_ge hr ?_
  rw [fanout_eq]
  show ptrsPerBlock ^ 3 ≤ _
  simp only [maxFileBlocks, tripleBase] at h
  omega

section Lookup
variable {ρ ω : Bool} {σ : Fs}

theorem digits_one (n : Nat) : digits 1 n = [n] := by simp [digits]

theorem exec_followPath_root (r h n : Nat) :
    exec (if r ≠ 0 then followPath r (digits h n) else pure 0 : LfsM ρ ω Nat) σ = (ptrFmt.lookup σ.mem h r n, σ) := by
  split
  · exact exec_followPath (.inr ‹_›)
  rename_i hr
  rw [not_not.mp hr, lookup_null]
  rfl

theorem exec_getFileBlock (inode : Inode) (lb : Nat) :
    exec (getFileBlock inode lb : LfsM ρ ω Nat) σ = (inode.lookup σ.mem lb, σ) := by
  unfold getFileBlock Inode.lookup place
  by_cases hdirect : lb < maxDirect
  · simp only [hdirect, dite_true]
    rfl
  simp only [hdirect, dite_false]
  by_cases hsingle : lb - maxDirect < ptrsPerBlock
  · have h1 : ¬(ptrsPerBlock ≤ lb - maxDirect) := by omega
    have h2 : ¬(tripleBase ≤ lb) := by simp only [tripleBase]; omega
    simp only [hsingle, h1, h2, true_and, false_and, if_false, if_true]
    rw [← digits_one]
    exact exec_followPath_root inode.indirect 1 _
  have h1 : ptrsPerBlock ≤ lb - maxDirect := by omega
  by_cases hdouble : lb - maxDirect - ptrsPerBlock < ptrsPerBlock * ptrsPerBlock
  · have h2 : ¬(tripleBase ≤ lb) := by simp only [tripleBase]; omega
    simp only [hsingle, h1, h2, hdouble, true_and, and_true, false_and, if_false, if_true]
    rw [doublePath_eq]
    exact exec_followPath_root inode.doubleIndirect 2 _
  · have h2 : tripleBase ≤ lb := by simp only [tripleBase]; omega
    have h3 : lb - tripleBase = lb - maxDirect - ptrsPerBlock - ptrsPerBlock * ptrsPerBlock := by
      simp only [tripleBase]; omega
    simp only [hsingle, h2, hdouble, true_and, and_false, false_and, if_false]
    rw [h3, triplePath_eq]
    exact exec_followPath_root inode.tripleIndirect 3 _

end Lookup

section Alloc
variable {ρ : Bool} {σ σ' : Fs} {M : Multiset Nat} {inode inode' : Inode} {blk b h n r lb : Nat} {s : Slot} {ok : Bool}

theorem exec_treeRoot (ho : Owns σ.lfs (blk ::ₘ (ptrFmt.blocks σ.mem (h + 1) r + M))) :
    (r = 0 ∧ σ.lfs.super.freeBlocks = 0 ∧ exec (treeRoot r : LfsM ρ true Nat) σ = (0, σ)) ∨
      ∃ root σ', exec (treeRoot r : LfsM ρ true Nat) σ = (root, σ') ∧ root ≠ 0 ∧
        Owns σ'.lfs (blk ::ₘ (ptrFmt.blocks σ'.mem (h + 1) root + M)) ∧
        Keeps (blk ::ₘ (ptrFmt.leaves σ.mem (h + 1) r + M)) σ σ' ∧
        ptrFmt.leaves σ'.mem (h + 1) root = ptrFmt.leaves σ.mem (h + 1) r ∧
        (∀ j, ptrFmt.lookup σ'.mem (h + 1) root j = ptrFmt.lookup σ.mem (h + 1) r j) ∧
        (r = root ∧ σ' = σ ∨ r = 0 ∧ σ'.lfs.super.freeBlocks + 1 = σ.lfs.super.freeBlocks) := by
  unfold treeRoot
  obtain rfl | hr := eq_or_ne r 0
  · rw [blocks_null, zero_add] at ho
    rcases exec_allocZeroed (ρ := ρ) ho with ⟨hfree, he⟩ | ⟨c, hfree, ho', he⟩
    · exact .inl ⟨rfl, hfree, he⟩
    have hc0 := ho'.ne_zero (mem_cons_self c _)
    have hempty : ∀ k < ptrFmt.fanout, ptrFmt.ptr (update σ.mem c zero c) k = 0 := fun k _ => by
      rw [update_self, ← ptrFormat_empty, ptrFmt.ptr_empty]
    refine .inr ⟨c, _, he, hc0, ?_, ?_, ?_, fun j => ?_, .inr ⟨rfl, hfree⟩⟩
    · rw [blocks_of_empty hc0 hempty, singleton_add, cons_swap]
      exact ho'
    · rw [leaves_null, zero_add]
      exact .update_fresh ho' (sameMeta_taken _ _) _
    · rw [leaves_of_empty hc0 hempty, leaves_null]
    · rw [lookup_of_empty hempty, lookup_null]
  · rw [if_neg hr]
    exact .inr ⟨r, σ, rfl, hr, ho, .refl _ _, rfl, fun _ => rfl, .inl ⟨rfl, rfl⟩⟩

def growSlot (blk : Nat) (inode : Inode) (s : Slot) (n : Nat) (scratch : Block) : LfsM ρ true (Nat × Inode) := do
  let root ← treeRoot (inode.root s)
  if root = 0 then
    limnfsFreeBlock blk
    return (0, inode)
  let inode := inode.setRoot root s
  if ← linkPath blk root (digits s.height n) scratch then
    return (blk, { inode with blockCount := u32 (inode.blockCount + 1) })
  else return (0, inode)

/-- The outcome of allocating a block for a file: `b` is the new block at `lb`, or zero. Data, and what is
    owned elsewhere, is kept. -/
structure Allocated (σ σ' : Fs) (M : Multiset Nat) (inode inode' : Inode) (lb b : Nat) : Prop where
  keeps : Keeps (inode.leaves σ.mem + M) σ σ'
  owns : Owns σ'.lfs (inode'.tree σ'.mem + M)
  lookup : ∀ l, inode'.lookup σ'.mem l = if b ≠ 0 ∧ l = lb then b else inode.lookup σ.mem l
  blank : b ≠ 0 → σ'.mem b = zero
  fresh : b ≠ 0 → Bitmap.get σ.lfs.blockBitmap b = false
  fields : ∃ d i1 i2 i3 n, inode' = { inode with
    direct := d, indirect := i1, doubleIndirect := i2, tripleIndirect := i3, blockCount := n }
  enough : (place lb).1.height < σ.lfs.super.freeBlocks → b ≠ 0
  /-- A failure leaves the pointers of the inode as they are, unless a root was allocated on the way. -/
  failed : b = 0 → inode'.root = inode.root ∨ inode.root (place lb).1 = 0 ∧ 2 ≤ σ.lfs.super.freeBlocks

structure Grown (σ σ' : Fs) (M : Multiset Nat) (inode inode' : Inode) (s : Slot) (n blk b : Nat) : Prop where
  block : b = blk ∨ b = 0
  keeps : Keeps (blk ::ₘ (inode.leaves σ.mem + M)) σ σ'
  owns : Owns σ'.lfs (inode'.tree σ'.mem + M)
  lookup : ∀ t j, j < ptrFmt.fanout ^ t.height → ptrFmt.lookup σ'.mem t.height (inode'.root t) j =
    if b ≠ 0 ∧ t = s ∧ j = n then b else ptrFmt.lookup σ.mem t.height (inode.root t) j
  fields : ∃ d i1 i2 i3 n, inode' = { inode with
    direct := d, indirect := i1, doubleIndirect := i2, tripleIndirect := i3, blockCount := n }
  enough : s.height ≤ σ.lfs.super.freeBlocks → b ≠ 0
  failed : b = 0 → inode'.root = inode.root ∨ inode.root s = 0 ∧ 1 ≤ σ.lfs.super.freeBlocks

theorem Inode.setRoot_fields (inode : Inode) (r : Nat) (s : Slot) : ∃ d i1 i2 i3 n, inode.setRoot r s = { inode with
    direct := d, indirect := i1, doubleIndirect := i2, tripleIndirect := i3, blockCount := n } := by
  cases s <;> exact ⟨_, _, _, _, _, rfl⟩

theorem Inode.tree_reassemble {m m' : Disk} (hroot : ∀ t ≠ s, inode'.root t = inode.root t)
    (hm : ∀ x ∈ inode.others m s, m' x = m x) :
    inode'.tree m' = ptrFmt.blocks m' s.height (inode'.root s) + inode.others m s := by
  rw [Inode.tree_split s, (Inode.others_congr hroot hm).1]

theorem exec_growSlot (hs : s.height = h + 1) (hn : n < ptrFmt.fanout ^ (h + 1))
    (hnull : ptrFmt.lookup σ.mem s.height (inode.root s) n = 0)
    (ho : Owns σ.lfs (blk ::ₘ (inode.tree σ.mem + M))) (scratch : Block) :
    ∃ b inode' σ', exec (growSlot blk inode s n scratch : LfsM ρ true _) σ = ((b, inode'), σ') ∧
      Grown σ σ' M inode inode' s n blk b := by
  have hsplit : Owns σ.lfs (blk ::ₘ (ptrFmt.blocks σ.mem (h + 1) (inode.root s) + (inode.others σ.mem s + M))) := by
    rw [← hs, ← add_assoc, ← Inode.tree_split]
    exact ho
  unfold growSlot
  rcases exec_treeRoot (ρ := ρ) hsplit with ⟨hr, hfree, he⟩ | ⟨root, σ1, he, hroot0, ho1, hk1, hleaves1, hlook1, hcase⟩
  · -- no room for a root
    obtain ⟨hf, hof⟩ := exec_freeBlock (ρ := ρ) (ω := true) ho
    rw [exec_bind_of he]
    simp only [if_true, exec_bind_of hf, exec_pure]
    refine ⟨0, inode, _, rfl, .inr rfl, ⟨sameMeta_released _ _, fun _ _ => rfl, fun _ _ => rfl⟩, hof, fun t j _ => ?_,
      ⟨_, _, _, _, _, rfl⟩, fun h => ?_, fun _ => .inl rfl⟩
    · simp
    · omega
  · rw [exec_bind_of he]
    simp only [if_neg hroot0]
    obtain ⟨ok, σ', he', hl, hok⟩ := exec_linkPath (ρ := ρ) hroot0 hn (by rw [hlook1, ← hs, hnull]) ho1 scratch
    rw [hs, exec_bind_of he']
    have hl' := hl.keeps
    rw [hleaves1] at hl'
    have hk := hk1.trans hl'
    have hothers : ∀ x ∈ inode.others σ.mem s, σ'.mem x = σ.mem x := fun x hx => hk.kept x (by simp [hx])
    have hroots : ∀ t ≠ s, (inode.setRoot root s).root t = inode.root t := fun t ht => Inode.setRoot_of_ne ht
    have howns : Owns σ'.lfs ((inode.setRoot root s).tree σ'.mem + M) := by
      rw [Inode.tree_reassemble hroots hothers, Inode.setRoot_self, hs, add_assoc]
      exact hl.owns
    have hkeeps : Keeps (blk ::ₘ (inode.leaves σ.mem + M)) σ σ' := hk.mono fun x hx => by
      simp only [mem_cons, mem_add] at hx ⊢
      rcases hx with hx | hx | hx
      · exact .inl hx
      · rcases Inode.mem_leaves_split hx s with hx | hx
        · exact .inr (.inl (hs ▸ hx))
        · exact .inr (.inr (.inl hx))
      · exact .inr (.inr (.inr hx))
    have hlook : ∀ t j, ptrFmt.lookup σ'.mem t.height ((inode.setRoot root s).root t) j =
        if ok ∧ t = s ∧ j = n then blk else ptrFmt.lookup σ.mem t.height (inode.root t) j := by
      intro t j
      obtain rfl | ht := eq_or_ne t s
      · simp only [true_and]
        rw [Inode.setRoot_self, hs, hl.lookup, hlook1]
      · rw [(Inode.others_congr hroots hothers).2 t ht, if_neg fun h => ht h.2.1]
    have hblk0 := ho.ne_zero (mem_cons_self _ _)
    obtain ⟨d, i1, i2, i3, k, hfields⟩ := inode.setRoot_fields root s
    cases ok with
    | true =>
      refine ⟨blk, _, σ', rfl, .inl rfl, hkeeps, ?_, fun t j _ => ?_, ⟨d, i1, i2, i3, _, by rw [hfields]⟩, fun _ => hblk0,
        fun h => absurd h hblk0⟩
      · simpa only [Inode.tree, Inode.root_blockCount] using howns
      · simpa only [Inode.root_blockCount, hblk0, ne_eq, not_false_eq_true, true_and] using hlook t j
    | false =>
      refine ⟨0, _, σ', rfl, .inr rfl, hkeeps, howns, fun t j _ => ?_, ⟨d, i1, i2, i3, _, hfields⟩, fun henough => ?_,
        fun _ => ?_⟩
      · simpa using hlook t j
      · rcases hcase with ⟨-, rfl⟩ | ⟨-, hf⟩
        · exact absurd (hok (by omega)) (by simp)
        · exact absurd (hok (by omega)) (by simp)
      · rcases hcase with ⟨rfl, -⟩ | ⟨hr, hf⟩
        · refine .inl (funext fun t => ?_)
          by_cases ht : t = s
          · rw [ht, Inode.setRoot_self]
          · exact Inode.setRoot_of_ne ht
        · exact .inr ⟨hr, by omega⟩

theorem grown_direct (i : Fin 10) (hnull : inode.direct i = 0) (ho : Owns σ.lfs (blk ::ₘ (inode.tree σ.mem + M))) :
    Grown σ σ M inode { inode with direct := update inode.direct i blk, blockCount := n } (.direct i) 0 blk blk := by
  have hblk0 := ho.ne_zero (mem_cons_self _ _)
  have hroot : { inode with direct := update inode.direct i blk, blockCount := n }.root =
      (inode.setRoot blk (.direct i)).root := by
    funext t
    cases t <;> rfl
  have hroots : ∀ t, t ≠ .direct i → (inode.setRoot blk (.direct i)).root t = inode.root t := fun t ht =>
    Inode.setRoot_of_ne ht
  refine ⟨.inl rfl, .refl _ _, ?_, fun t j hj => ?_, ⟨_, _, _, _, _, rfl⟩, fun _ => hblk0, fun h => absurd h hblk0⟩
  · have htree : (inode.setRoot blk (.direct i)).tree σ.mem = blk ::ₘ inode.tree σ.mem := by
      rw [Inode.tree_reassemble hroots fun _ _ => rfl, Inode.setRoot_self, Inode.tree_split (.direct i)]
      simp [blocks, nodes, leaves, Slot.height, hblk0, Inode.root, hnull]
    rw [Inode.tree, hroot, ← Inode.tree, htree, cons_add]
    exact ho
  · rw [hroot]
    by_cases ht : t = .direct i
    · subst ht
      have hj0 : j = 0 := by simpa [Slot.height] using hj
      rw [Inode.setRoot_self, if_pos ⟨hblk0, rfl, hj0⟩]
      rfl
    · rw [hroots t ht, if_neg fun h => ht h.2.1]

theorem Inode.leaves_congr {m m' : Disk} (hm : ∀ x ∈ inode.tree m, m' x = m x) :
    inode.leaves m' = inode.leaves m ∧ inode.tree m' = inode.tree m ∧ ∀ l, inode.lookup m' l = inode.lookup m l := by
  have hnodes : ∀ t : Slot, ∀ x ∈ ptrFmt.nodes m t.height (inode.root t), m' x = m x := fun t x hx =>
    hm x (mem_of_le (nodes_le_blocks.trans (Inode.blocks_le_tree t)) hx)
  exact ⟨Finset.sum_congr rfl fun t _ => (congr_nodes (hnodes t)).2.1,
    Finset.sum_congr rfl fun t _ => blocks_congr (hnodes t),
    fun l => (congr_nodes (hnodes _)).2.2 _⟩

theorem Keeps.file {K : Multiset Nat} (hk : Keeps K σ σ') (inode : Inode) (hle : inode.tree σ.mem ≤ K) :
    inode.leaves σ'.mem = inode.leaves σ.mem ∧ inode.tree σ'.mem = inode.tree σ.mem ∧
      ∀ l, inode.lookup σ'.mem l = inode.lookup σ.mem l :=
  Inode.leaves_congr fun x hx => hk.kept x (mem_of_le hle hx)

theorem Owns.unused {s : Lfs} {B : Multiset Nat} (h : Owns s B) (ht : Owns (taken s b) (b ::ₘ B)) :
    Bitmap.get s.blockBitmap b = false := by
  obtain ⟨h1, h2⟩ := ht.inside b (mem_cons_self _ _)
  rw [Bool.eq_false_iff, Ne, h.bit b h1 h2]
  exact (nodup_cons.mp ht.nodup).1

theorem Grown.allocated {σ1 : Fs} (hplace : place lb = (s, n)) (hlt : lb < maxFileBlocks)
    (hfree : σ1.lfs.super.freeBlocks + 1 = σ.lfs.super.freeBlocks)
    (hk : Keeps (inode.tree σ.mem + M) σ σ1) (hzero : σ1.mem blk = zero)
    (hfresh : Bitmap.get σ.lfs.blockBitmap blk = false)
    (hg : Grown σ1 σ' M inode inode' s n blk b) : Allocated σ σ' M inode inode' lb b := by
  obtain ⟨hleaves, -, hlook⟩ := hk.file inode (le_add_right _ _)
  refine ⟨?_, hg.owns, fun l => ?_, fun hb => ?_, fun hb => ?_, hg.fields, fun h => hg.enough ?_, fun hb => ?_⟩
  · refine (hk.mono fun x hx => ?_).trans (hg.keeps.mono fun x hx => ?_)
    · rcases mem_add.mp hx with hx | hx
      · exact mem_add.mpr (.inl (mem_of_le Inode.leaves_le_tree hx))
      · exact mem_add.mpr (.inr hx)
    · rw [hleaves]
      exact mem_cons_of_mem hx
  · by_cases hl : l < maxFileBlocks
    · rw [← hlook, Inode.lookup, hg.lookup _ _ (place_lt hl), Inode.lookup]
      have hiff : l = lb ↔ (place l).1 = s ∧ (place l).2 = n := by
        rw [← Prod.mk.injEq, ← hplace]
        exact ⟨fun h => h ▸ rfl, fun h => place_inj h⟩
      simp only [hiff]
    · rw [Inode.lookup_beyond _ _ (Nat.le_of_not_lt hl), Inode.lookup_beyond _ _ (Nat.le_of_not_lt hl), if_neg]
      rintro ⟨-, rfl⟩
      exact hl hlt
  · rcases hg.block with rfl | hb0
    · rw [hg.keeps.kept b (mem_cons_self _ _), hzero]
    · exact absurd hb0 hb
  · rcases hg.block with rfl | hb0
    · exact hfresh
    · exact absurd hb0 hb
  · rw [hplace] at h
    dsimp only at h
    omega
  · rcases hg.failed hb with h | ⟨hr, hf⟩
    · exact .inl h
    · exact .inr ⟨by rw [hplace]; exact hr, by omega⟩

theorem exec_allocFileBlock (hlb : lb < maxFileBlocks) (hnull : inode.lookup σ.mem lb = 0)
    (ho : Owns σ.lfs (inode.tree σ.mem + M)) :
    ∃ b inode' σ', exec (allocFileBlock inode lb : LfsM ρ true _) σ = ((b, inode'), σ') ∧
      Allocated σ σ' M inode inode' lb b := by
  unfold allocFileBlock
  rcases exec_allocZeroed (ρ := ρ) ho with ⟨hfree, he⟩ | ⟨blk, hfree, ho1, he⟩
  · rw [exec_bind_of he]
    refine ⟨0, inode, σ, rfl, .refl _ _, ho, fun l => by simp, fun h => absurd rfl h, fun h => absurd rfl h, ⟨_, _, _, _, _, rfl⟩,
      fun h => ?_, fun _ => .inl rfl⟩
    omega
  · have hblk0 := ho1.ne_zero (mem_cons_self _ _)
    have hfresh := ho.unused ho1
    have hk : Keeps _ σ ⟨taken σ.lfs blk, update σ.mem blk zero⟩ := .update_fresh ho1 (sameMeta_taken _ _) _
    obtain ⟨-, htree, hlook⟩ := hk.file inode (le_add_right _ _)
    have ho2 : Owns (taken σ.lfs blk) (blk ::ₘ (inode.tree (update σ.mem blk zero) + M)) := by
      rw [htree]
      exact ho1
    have hnull2 := (hlook lb).trans hnull
    rw [exec_bind_of he]
    simp only [if_neg hblk0]
    by_cases hdirect : lb < maxDirect
    · have hplace : place lb = (.direct ⟨lb, hdirect⟩, 0) := by rw [place, dif_pos hdirect]
      rw [Inode.lookup, hplace] at hnull2
      rw [dif_pos hdirect]
      refine ⟨blk, _, _, rfl, (grown_direct ⟨lb, hdirect⟩ hnull2 ho2).allocated hplace hlb hfree hk (update_self _ _ _) hfresh⟩
    · have grow : ∀ (s : Slot) (n h : Nat) (scratch : Block), place lb = (s, n) → s.height = h + 1 →
          ∃ b inode' σ', exec (growSlot blk inode s n scratch : LfsM ρ true _)
            ⟨taken σ.lfs blk, update σ.mem blk zero⟩ = ((b, inode'), σ') ∧ Allocated σ σ' M inode inode' lb b := by
        intro s n h scratch hplace hs
        have hn := place_lt hlb
        rw [hplace, hs] at hn
        rw [Inode.lookup, hplace] at hnull2
        obtain ⟨b, inode', σ', he', hg⟩ := exec_growSlot (ρ := ρ) (σ := ⟨taken σ.lfs blk, update σ.mem blk zero⟩) hs hn
          hnull2 ho2 scratch
        exact ⟨b, inode', σ', he', hg.allocated hplace hlb hfree hk (update_self _ _ _) hfresh⟩
      rw [dif_neg hdirect]
      by_cases hsingle : lb - maxDirect < ptrsPerBlock
      · have hplace : place lb = (.single, lb - maxDirect) := by rw [place, dif_neg hdirect, if_pos hsingle]
        rw [if_pos hsingle, ← digits_one]
        exact grow .single _ 0 zero hplace rfl
      rw [if_neg hsingle]
      by_cases hdouble : lb - maxDirect - ptrsPerBlock < ptrsPerBlock * ptrsPerBlock
      · have hplace : place lb = (.double, lb - maxDirect - ptrsPerBlock) := by
          rw [place, dif_neg hdirect, if_neg hsingle, if_pos hdouble]
        rw [if_pos hdouble, doublePath_eq]
        exact grow .double _ 1 zero hplace rfl
      · have hplace : place lb = (.triple, lb - maxDirect - ptrsPerBlock - ptrsPerBlock * ptrsPerBlock) := by
          rw [place, dif_neg hdirect, if_neg hsingle, if_neg hdouble]
        rw [if_neg hdouble, exec_get_bind, triplePath_eq]
        exact grow .triple _ 2 _ hplace rfl

end Alloc

end Limnx
