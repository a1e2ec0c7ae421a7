import Mathlib.Algebra.BigOperators.Intervals
import Limnx.Theorems.LfsInode

/-! Truncation takes the blocks from an index on out of a tree and drops the pointer blocks left without entries
    (`Pruned`). -/

open Option Nat

namespace Limnx
open Function PtrFormat Multiset

attribute [local irreducible] ptrsPerBlock

structure Freed (σ σ' : Fs) (M : Multiset Nat) : Prop where
  same : SameMeta σ.lfs σ'.lfs
  mem : σ'.mem = σ.mem
  owns : Owns σ'.lfs M

variable {m : Disk}

section Free
variable {ρ ω : Bool} {σ σ' σ'' : Fs} {M M' : Multiset Nat} {h b : Nat}

theorem Freed.refl (ho : Owns σ.lfs M) : Freed σ σ M := ⟨.refl _, rfl, ho⟩

theorem Freed.trans (hf : Freed σ σ' M) (hf' : Freed σ' σ'' M') : Freed σ σ'' M' :=
  ⟨hf.same.trans hf'.same, hf'.mem.trans hf.mem, hf'.owns⟩

theorem freed_freeBlock (ho : Owns σ.lfs (b ::ₘ M)) : Freed σ (exec (limnfsFreeBlock b : LfsM ρ ω Unit) σ).2 M := by
  obtain ⟨he, ho'⟩ := exec_freeBlock (ρ := ρ) (ω := ω) ho
  rw [he]
  exact ⟨sameMeta_released _ _, rfl, ho'⟩

def kidsFrom (m : Disk) (h : Nat) (d : Block) (i : Nat) : Multiset Nat :=
  ∑ k ∈ Finset.Ico i ptrFmt.fanout, ptrFmt.blocks m h (ptrFmt.ptr d k)

theorem kidsFrom_step {d : Block} {i : Nat} (hi : i < ptrFmt.fanout) :
    kidsFrom m h d i = ptrFmt.blocks m h (ptrFmt.ptr d i) + kidsFrom m h d (i + 1) :=
  Finset.sum_eq_sum_Ico_succ_bot hi _

theorem kidsFrom_end (m : Disk) (h : Nat) (d : Block) : kidsFrom m h d ptrsPerBlock = 0 := by
  simp [kidsFrom, fanout_eq]

theorem blocks_eq_kidsFrom (hb : b ≠ 0) : ptrFmt.blocks m (h + 1) b = {b} + kidsFrom m h (m b) 0 := by
  rw [blocks_succ hb, kidsFrom, Finset.range_eq_Ico]

theorem blocks_zero (hb : b ≠ 0) : ptrFmt.blocks m 0 b = {b} := by
  simp [blocks, nodes, leaves, hb]

theorem exec_freeTree (hb : b ≠ 0) (ho : Owns σ.lfs (ptrFmt.blocks σ.mem h b + M)) (scratch : Block) :
    Freed σ (exec (freeTree h b scratch : LfsM ρ ω Block) σ).2 M ∧
      (h = 0 → (exec (freeTree h b scratch : LfsM ρ ω Block) σ).1 = scratch) := by
  induction h generalizing b σ M scratch with
  | zero =>
    rw [blocks_zero hb, singleton_add] at ho
    rw [freeTree, exec_bind, exec_pure]
    exact ⟨freed_freeBlock ho, fun _ => rfl⟩
  | succ h ih =>
    rw [blocks_eq_kidsFrom hb] at ho
    -- the buffer holds the pointer block, and the entries still to come are owned
    let inv : Nat → Block → Fs → Prop := fun i scratch σ' =>
      scratch = σ.mem b ∧ Freed σ σ' ({b} + kidsFrom σ.mem h (σ.mem b) i + M)
    let step : Block → Nat → LfsM ρ ω Block := fun scratch i =>
      if ptrAt scratch i = 0 then pure scratch
      else do
        let scratch ← freeTree h (ptrAt scratch i) scratch
        if h = 0 then pure scratch
        else
          let again ← bcacheRead b
          pure (again.getD scratch)
    have hstep : ∀ i scratch σ', i < ptrsPerBlock → inv i scratch σ' →
        inv (i + 1) (exec (step scratch i) σ').1 (exec (step scratch i) σ').2 := by
      rintro i _ σ' hi ⟨rfl, hf⟩
      rw [kidsFrom_step (fanout_eq ▸ hi)] at hf
      rw [ptr_eq] at hf
      by_cases hc : ptrAt (σ.mem b) i = 0
      · rw [hc, blocks_null, zero_add] at hf
        simp only [step, if_pos hc, exec_pure]
        exact ⟨rfl, hf⟩
      · have ho' : Owns σ'.lfs (ptrFmt.blocks σ'.mem h (ptrAt (σ.mem b) i) +
            ({b} + kidsFrom σ.mem h (σ.mem b) (i + 1) + M)) := by
          rw [hf.mem]
          convert hf.owns using 1
          abel
        obtain ⟨hf', hscratch⟩ := ih hc ho' (σ.mem b)
        simp only [step, if_neg hc, exec_bind]
        by_cases h0 : h = 0
        · simp only [if_pos h0, exec_pure, hscratch h0]
          exact ⟨rfl, hf.trans hf'⟩
        · simp only [if_neg h0, exec_read_bind, exec_pure, getD_some]
          exact ⟨by rw [hf'.mem, hf.mem], hf.trans hf'⟩
    obtain ⟨-, hf⟩ := exec_foldlM_range (n := ptrsPerBlock) (f := step) inv (σ := σ) (a := σ.mem b) ⟨rfl, .refl ho⟩ hstep
    rw [kidsFrom_end, add_zero, singleton_add] at hf
    rw [freeTree]
    simp only [exec_read_bind]
    rw [exec_bind, exec_bind, exec_pure]
    exact ⟨hf.trans (freed_freeBlock (ρ := ρ) (ω := ω) hf.owns), fun h => absurd h (succ_ne_zero _)⟩

end Free

/-- The tree of height `h` at `b` is now at `r`. Blocks of it may have been given back, and only its pointer blocks
    were written. -/
structure Shrunk (σ σ' : Fs) (M : Multiset Nat) (h b r : Nat) : Prop where
  same : SameMeta σ.lfs σ'.lfs
  frame : ∀ x, x ∉ ptrFmt.nodes σ.mem h b → σ'.mem x = σ.mem x
  nodes : ∀ x ∈ ptrFmt.nodes σ'.mem h r, x ∈ ptrFmt.nodes σ.mem h b
  owns : Owns σ'.lfs (ptrFmt.blocks σ'.mem h r + M)

/-- The tree is cut at index `start`: the blocks from there on and pointer blocks left empty are given back. -/
structure Pruned (σ σ' : Fs) (M : Multiset Nat) (h b r start : Nat) : Prop extends Shrunk σ σ' M h b r where
  root : r = b ∨ r = 0
  lookup : ∀ j, j < ptrFmt.fanout ^ h → ptrFmt.lookup σ'.mem h r j =
    if j < start then ptrFmt.lookup σ.mem h b j else 0

section Prune
variable {ρ ω : Bool} {σ σ' : Fs} {M : Multiset Nat} {h b r i start : Nat} {d : Block}

theorem zero_lt_limit : (0 : Nat) < ptrFmt.limit := by
  rw [limit_eq]
  decide

theorem ptr_clear (d : Block) {k : Nat} (hi : i < ptrFmt.fanout) (hk : k < ptrFmt.fanout) :
    ptrFmt.ptr (ptrFmt.setPtr d i 0) k = if k = i then 0 else ptrFmt.ptr d k := by
  split
  next heq => rw [heq, ptrFmt.ptr_setPtr_self hi zero_lt_limit]
  · rw [ptrFmt.ptr_setPtr_of_ne hi hk ‹_›]

def kids (m : Disk) (h : Nat) (d : Block) : Multiset Nat :=
  ∑ k ∈ Finset.range ptrFmt.fanout, ptrFmt.blocks m h (ptrFmt.ptr d k)

theorem kids_split (hi : i < ptrFmt.fanout) :
    kids m h d = ptrFmt.blocks m h (ptrFmt.ptr d i) +
      ∑ k ∈ (Finset.range ptrFmt.fanout).erase i, ptrFmt.blocks m h (ptrFmt.ptr d k) :=
  sum_child _ hi

theorem kids_setPtr (hi : i < ptrFmt.fanout) :
    kids m h d = ptrFmt.blocks m h (ptrFmt.ptr d i) + kids m h (ptrFmt.setPtr d i 0) := by
  rw [kids_split hi, kids_split (d := ptrFmt.setPtr d i 0) hi, ptrFmt.ptr_setPtr_self hi zero_lt_limit,
    blocks_null, zero_add]
  congr 1
  refine Finset.sum_congr rfl fun k hk => ?_
  obtain ⟨hne, hk⟩ := Finset.mem_erase.mp hk
  rw [ptrFmt.ptr_setPtr_of_ne hi (Finset.mem_range.mp hk) hne]

structure Cut (σ σ' : Fs) (M : Multiset Nat) (d : Block) (start i : Nat) (r : Block × Bool) : Prop where
  freed : Freed σ σ' (kids σ.mem 0 r.1 + M)
  ptr : ∀ k, k < ptrFmt.fanout → ptrFmt.ptr r.1 k = if k < i ∧ start ≤ k then 0 else ptrFmt.ptr d k
  used : r.2 = true ↔ ∃ k, k < i ∧ ptrFmt.ptr r.1 k ≠ 0

theorem exec_truncatePtrs (ho : Owns σ.lfs (kids σ.mem 0 d + M)) (start : Nat) :
    ∃ r σ', exec (truncatePtrs start d : LfsM ρ ω _) σ = (r, σ') ∧ Cut σ σ' M d start ptrFmt.fanout r := by
  have h0 : Cut σ σ M d start 0 (d, false) := ⟨.refl ho, fun k _ => by simp, by simp⟩
  refine ⟨_, _, rfl, ?_⟩
  rw [fanout_eq]
  refine exec_foldlM_range (fun i r σ' => Cut σ σ' M d start i r) h0 ?_
  rintro i ⟨d', used⟩ σ' hi ⟨hf, hptr, hused⟩
  have hi' : i < ptrFmt.fanout := fanout_eq ▸ hi
  by_cases hc : start ≤ i ∧ ptrAt d' i ≠ 0
  · simp only [if_pos hc]
    rw [exec_bind, exec_pure, ← ptr_eq, ← setPtr_eq]
    have ho' : Owns σ'.lfs (ptrFmt.ptr d' i ::ₘ (kids σ.mem 0 (ptrFmt.setPtr d' i 0) + M)) := by
      have := hf.owns
      rwa [kids_setPtr hi', ptr_eq, blocks_zero hc.2, add_assoc, singleton_add, ← ptr_eq] at this
    refine ⟨hf.trans (freed_freeBlock ho'), fun k hk => ?_, ?_⟩
    · rw [ptr_clear d' hi' hk, hptr k hk]
      grind
    · rw [hused, exists_lt_succ_right, ptr_clear d' hi' hi', if_pos rfl, ne_self_iff_false, or_false]
      refine exists_congr fun k => and_congr_right fun hk => ?_
      rw [ptr_clear d' hi' (by omega), if_neg (by omega)]
  · simp only [if_neg hc, exec_pure]
    refine ⟨hf, fun k hk => ?_, ?_⟩
    · rw [hptr k hk]
      rw [← ptr_eq] at hc
      grind
    · rw [Bool.or_eq_true, hused, bne_iff_ne, ← ptr_eq, exists_lt_succ_right]

theorem blocks_eq_kids (hb : b ≠ 0) : ptrFmt.blocks m (h + 1) b = kids m h (m b) + {b} := by
  rw [blocks_succ hb, add_comm, kids]

theorem kids_of_empty (he : ∀ k < ptrFmt.fanout, ptrFmt.ptr d k = 0) : kids m h d = 0 :=
  Finset.sum_eq_zero fun k hk => by rw [he k (Finset.mem_range.mp hk), blocks_null]

theorem Shrunk.refl (ho : Owns σ.lfs (ptrFmt.blocks σ.mem h b + M)) : Shrunk σ σ M h b b :=
  ⟨.refl _, fun _ _ => rfl, fun _ hx => hx, ho⟩

theorem Pruned.null (ho : Owns σ.lfs (ptrFmt.blocks σ.mem h 0 + M)) : Pruned σ σ M h 0 0 start :=
  ⟨.refl ho, .inl rfl, fun j _ => by simp⟩

theorem Pruned.gone (hs : SameMeta σ.lfs σ'.lfs) (hframe : ∀ x, x ∉ ptrFmt.nodes σ.mem h b → σ'.mem x = σ.mem x)
    (ho : Owns σ'.lfs M) (hlook : ∀ j, j < ptrFmt.fanout ^ h → j < start → ptrFmt.lookup σ.mem h b j = 0) :
    Pruned σ σ' M h b 0 start := by
  refine ⟨⟨hs, hframe, fun x hx => ?_, by rwa [blocks_null, zero_add]⟩, .inr rfl, fun j hj => ?_⟩
  · rw [nodes_null] at hx
    exact absurd hx (notMem_zero x)
  · rw [lookup_null]
    split
    · rw [hlook j hj ‹_›]
    · rfl

theorem exec_truncateIndirect (ho : Owns σ.lfs (ptrFmt.blocks σ.mem 1 b + M)) (start : Nat) :
    ∃ r σ', exec (truncateIndirect start b : LfsM ρ true Nat) σ = (r, σ') ∧ Pruned σ σ' M 1 b r start := by
  unfold truncateIndirect
  obtain rfl | hb := eq_or_ne b 0
  · exact ⟨0, σ, rfl, .null ho⟩
  have hlook : ∀ (m : Disk) j, j < ptrFmt.fanout ^ 1 → ptrFmt.lookup m 1 b j = ptrFmt.ptr (m b) j := by
    simp [lookup, hb]
  rw [blocks_eq_kids hb, add_assoc] at ho
  obtain ⟨⟨d, used⟩, σ1, he, hf, hptr, hused⟩ := exec_truncatePtrs (ρ := ρ) (ω := true) ho start
  simp only [if_neg hb, exec_read_bind, exec_bind_of he]
  have hcut : ∀ j, j < ptrFmt.fanout ^ 1 → ptrFmt.ptr d j = if j < start then ptrFmt.ptr (σ.mem b) j else 0 := by
    intro j hj
    rw [pow_one] at hj
    grind
  cases used with
  | true =>
    simp only [if_true, exec_write_bind, exec_pure]
    refine ⟨b, _, rfl, ⟨hf.same, fun x hx => ?_, fun x hx => ?_, ?_⟩, .inl rfl, fun j hj => ?_⟩
    · dsimp only
      rw [hf.mem, update_of_ne]
      rintro rfl
      exact hx (mem_nodes_self hb)
    · rw [nodes_succ hb] at hx ⊢
      simpa [nodes] using hx
    · dsimp only
      rw [blocks_eq_kids hb, update_self, add_assoc]
      exact hf.owns
    · dsimp only
      rw [hlook _ j hj, hlook _ j hj, update_self, hcut j hj]
  | false =>
    have hempty : ∀ k < ptrFmt.fanout, ptrFmt.ptr d k = 0 := fun k hk => by
      by_contra hne
      exact absurd (hused.mpr ⟨k, hk, hne⟩) (by simp)
    have hf' := hf
    rw [kids_of_empty hempty, zero_add, singleton_add] at hf'
    obtain ⟨hfree, hof⟩ := exec_freeBlock (ρ := ρ) (ω := true) hf'.owns
    simp only [if_neg Bool.false_ne_true, exec_bind_of hfree, exec_pure]
    refine ⟨0, _, rfl, .gone (hf.same.trans (sameMeta_released _ _)) (fun x _ => by rw [hf.mem]) hof fun j hj hlt => ?_⟩
    have hj0 := hcut j hj
    rwa [if_pos hlt, hempty j (by simpa using hj), eq_comm, ← hlook _ j hj] at hj0

/-! ### One level up -/

section Levels
variable {σ1 : Fs} {c : Nat} {used : Bool}

theorem Owns.tree_nodup {s : Lfs} (ho : Owns s (ptrFmt.blocks m h b + M)) : (ptrFmt.blocks m h b).Nodup :=
  nodup_of_le (le_add_right _ _) ho.nodup

theorem mem_nodes_succ {x : Nat} (hb : b ≠ 0) : x ∈ ptrFmt.nodes m (h + 1) b ↔
    x = b ∨ ∃ k < ptrFmt.fanout, x ∈ ptrFmt.nodes m h (ptrFmt.ptr (m b) k) := by
  rw [nodes_succ hb, mem_add, mem_singleton, mem_sum]
  simp only [Finset.mem_range]

structure ChildPruned (σ σ' : Fs) (M : Multiset Nat) (h b i start : Nat) : Prop extends Shrunk σ σ' M (h + 1) b b where
  ptr : ∀ k, k < ptrFmt.fanout → k ≠ i → ptrFmt.ptr (σ'.mem b) k = ptrFmt.ptr (σ.mem b) k
  lookup : ∀ j, j < ptrFmt.fanout ^ (h + 1) → ptrFmt.lookup σ'.mem (h + 1) b j =
    if start ≤ j ∧ j / ptrFmt.fanout ^ h = i then 0 else ptrFmt.lookup σ.mem (h + 1) b j

theorem Pruned.child (hb : b ≠ 0) (hi : i < ptrFmt.fanout) (ho : Owns σ.lfs (ptrFmt.blocks σ.mem (h + 1) b + M))
    (hp : Pruned σ σ1 (ptrFmt.rest σ.mem h b i + M) h (ptrFmt.ptr (σ.mem b) i) c (start - i * ptrFmt.fanout ^ h))
    (hlfs : σ'.lfs = σ1.lfs) (hmem : ∀ x ≠ b, σ'.mem x = σ1.mem x)
    (hptr : ∀ k < ptrFmt.fanout, ptrFmt.ptr (σ'.mem b) k = if k = i then c else ptrFmt.ptr (σ.mem b) k) :
    ChildPruned σ σ' M h b i start := by
  have hnd := ho.tree_nodup
  rw [blocks_split hb hi, nodup_add] at hnd
  obtain ⟨hrest, -, hdisj⟩ := hnd
  have hother : ∀ x ∈ ptrFmt.rest σ.mem h b i, x ∉ ptrFmt.nodes σ.mem h (ptrFmt.ptr (σ.mem b) i) := fun x hx hx' =>
    disjoint_left.mp hdisj hx (mem_of_le nodes_le_blocks hx')
  have hchild : ∀ x ∈ ptrFmt.nodes σ.mem h (ptrFmt.ptr (σ.mem b) i), x ≠ b := by
    rintro x hx rfl
    exact hother x self_mem_rest hx
  have hptr' : ∀ k < ptrFmt.fanout, k ≠ i → ptrFmt.ptr (σ'.mem b) k = ptrFmt.ptr (σ.mem b) k := fun k hk hne => by
    rw [hptr k hk, if_neg hne]
  have hi' : ptrFmt.ptr (σ'.mem b) i = c := by rw [hptr i hi, if_pos rfl]
  have hkept : ∀ x ∈ ptrFmt.rest σ.mem h b i, x ≠ b → σ'.mem x = σ.mem x := fun x hx hne => by
    rw [hmem x hne, hp.frame x (hother x hx)]
  have hsub : ∀ x ∈ ptrFmt.nodes σ1.mem h c, σ'.mem x = σ1.mem x := fun x hx => hmem x (hchild x (hp.nodes x hx))
  obtain ⟨hnodes, -, hlook⟩ := congr_nodes hsub
  refine ⟨⟨hlfs ▸ hp.same, fun x hx => ?_, fun x hx => ?_, ?_⟩, hptr', fun j hj => ?_⟩
  · have hxb : x ≠ b := fun h => hx ((mem_nodes_succ hb).mpr (.inl h))
    rw [hmem x hxb, hp.frame x fun hx' => hx ((mem_nodes_succ hb).mpr (.inr ⟨i, hi, hx'⟩))]
  · rw [mem_nodes_succ hb] at hx ⊢
    rcases hx with hx | ⟨k, hk, hx⟩
    · exact .inl hx
    refine .inr ⟨k, hk, ?_⟩
    obtain rfl | hki := eq_or_ne k i
    · rw [hi', hnodes] at hx
      exact hp.nodes x hx
    · rwa [hptr' k hk hki, (congr_nodes (sibling_frame hrest hkept hk hki)).1] at hx
  · rw [blocks_split hb hi, rest_congr hrest hptr' hkept, hi', blocks_congr hsub,
      add_comm (ptrFmt.rest _ _ _ _), add_assoc, hlfs]
    exact hp.owns
  · rw [lookup_replace hi hrest hptr' hkept hb, hi']
    by_cases hji : j / ptrFmt.fanout ^ h = i
    · have hpos : 0 < ptrFmt.fanout ^ h := Nat.pow_pos ptrFmt.fanout_pos
      have hdecomp : i * ptrFmt.fanout ^ h + j % ptrFmt.fanout ^ h = j := by
        rw [← hji, Nat.mul_comm, div_add_mod]
      rw [if_pos hji, hlook, hp.lookup _ (mod_lt _ hpos), lookup_succ hb, hji]
      generalize j % ptrFmt.fanout ^ h = x at hdecomp ⊢
      by_cases hjs : start ≤ j
      · rw [if_neg (by omega), if_pos ⟨hjs, rfl⟩]
      · rw [if_pos (by omega), if_neg fun h => hjs h.1]
    · rw [if_neg hji, if_neg fun h => hji h.2]

structure PruneLoop (σ σ' : Fs) (M : Multiset Nat) (h b start i : Nat) (r : Block × Bool) : Prop
    extends Shrunk σ σ' M (h + 1) b b where
  buffer : r.1 = σ'.mem b
  used : r.2 = true ↔ ∃ k, k < i ∧ ptrFmt.ptr (σ'.mem b) k ≠ 0
  lookup : ∀ j, j < ptrFmt.fanout ^ (h + 1) → ptrFmt.lookup σ'.mem (h + 1) b j =
    if start ≤ j ∧ j / ptrFmt.fanout ^ h < i then 0 else ptrFmt.lookup σ.mem (h + 1) b j

theorem PruneLoop.init (ho : Owns σ.lfs (ptrFmt.blocks σ.mem (h + 1) b + M)) (start : Nat) :
    PruneLoop σ σ M h b start 0 (σ.mem b, false) :=
  ⟨.refl ho, rfl, by simp, fun j _ => by simp⟩

theorem PruneLoop.skip {r : Block × Bool} (hb : b ≠ 0) (hl : PruneLoop σ σ' M h b start i r)
    (hc : ptrFmt.ptr r.1 i = 0) : PruneLoop σ σ' M h b start (i + 1) r := by
  rw [hl.buffer] at hc
  refine ⟨hl.toShrunk, hl.buffer, ?_, fun j hj => ?_⟩
  · rw [hl.used, exists_lt_succ_right, hc, ne_self_iff_false, or_false]
  · by_cases hji : j / ptrFmt.fanout ^ h = i
    · have hzero : ptrFmt.lookup σ'.mem (h + 1) b j = 0 := by
        rw [lookup_succ hb, hji, hc, lookup_null]
      have hold := hl.lookup j hj
      grind
    · rw [hl.lookup j hj]
      grind

theorem PruneLoop.step {σ'' : Fs} {d : Block} (hi : i < ptrFmt.fanout) (hl : PruneLoop σ σ' M h b start i (d, used))
    (hc : ChildPruned σ' σ'' M h b i start) {used' : Bool} (hused : used' ↔ used ∨ ptrFmt.ptr (σ''.mem b) i ≠ 0) :
    PruneLoop σ σ'' M h b start (i + 1) (σ''.mem b, used') := by
  refine ⟨⟨hl.same.trans hc.same, fun x hx => ?_, fun x hx => hl.nodes x (hc.nodes x hx), hc.owns⟩, rfl, ?_,
    fun j hj => ?_⟩
  · rw [hc.frame x fun hx' => hx (hl.nodes x hx'), hl.frame x hx]
  · rw [hused, hl.used, exists_lt_succ_right]
    refine or_congr_left (exists_congr fun k => and_congr_right fun hk => ?_)
    rw [hc.ptr k (by omega) (by omega)]
  · rw [hc.lookup j hj, hl.lookup j hj]
    grind

theorem PruneLoop.finish (hb : b ≠ 0) (hl : PruneLoop σ σ' M h b start ptrFmt.fanout (d, used)) :
    (used → Pruned σ σ' M (h + 1) b b start) ∧
      (used = false → Owns σ'.lfs (b ::ₘ M) ∧ Pruned σ ⟨released σ'.lfs b, σ'.mem⟩ M (h + 1) b 0 start) := by
  have hlook : ∀ j, j < ptrFmt.fanout ^ (h + 1) → ptrFmt.lookup σ'.mem (h + 1) b j =
      if j < start then ptrFmt.lookup σ.mem (h + 1) b j else 0 := by
    intro j hj
    have := div_lt_fanout hj
    rw [hl.lookup j hj]
    grind
  refine ⟨fun _ => ⟨hl.toShrunk, .inl rfl, hlook⟩, fun hu => ?_⟩
  have hempty : ∀ k < ptrFmt.fanout, ptrFmt.ptr (σ'.mem b) k = 0 := fun k hk => by
    by_contra hne
    have := hl.used.mpr ⟨k, hk, hne⟩
    rw [hu] at this
    exact Bool.false_ne_true this
  have ho : Owns σ'.lfs (b ::ₘ M) := by
    have := hl.owns
    rwa [blocks_of_empty hb hempty, singleton_add] at this
  refine ⟨ho, .gone (hl.same.trans (sameMeta_released _ _)) hl.frame ho.release fun j hj hlt => ?_⟩
  have hj0 := hlook j hj
  rwa [if_pos hlt, lookup_of_empty hempty, eq_comm] at hj0

theorem PruneLoop.round {d : Block} (hb : b ≠ 0) (hi : i < ptrFmt.fanout) (hl : PruneLoop σ σ' M h b start i (d, used))
    (hp : Pruned σ' σ1 (ptrFmt.rest σ'.mem h b i + M) h (ptrFmt.ptr (σ'.mem b) i) c (start - i * ptrFmt.fanout ^ h)) :
    (c ≠ 0 → PruneLoop σ σ1 M h b start (i + 1) (σ1.mem b, true)) ∧
      (c = 0 → PruneLoop σ ⟨σ1.lfs, update σ1.mem b (ptrFmt.setPtr (σ1.mem b) i 0)⟩ M h b start (i + 1)
        (ptrFmt.setPtr (σ1.mem b) i 0, used)) := by
  have hroot : σ1.mem b = σ'.mem b := by
    refine hp.frame b fun hmem => ?_
    have hnd := hl.owns.tree_nodup
    rw [blocks_split hb hi, nodup_add] at hnd
    exact disjoint_left.mp hnd.2.2 self_mem_rest (mem_of_le nodes_le_blocks hmem)
  constructor
  · intro hc
    have hc' : c = ptrFmt.ptr (σ'.mem b) i := hp.root.resolve_right hc
    have hchild : ChildPruned σ' σ1 M h b i start := hp.child hb hi hl.owns rfl (fun _ _ => rfl) fun k _ => by
      rw [hroot]
      split
      next hk => rw [hk, hc']
      · rfl
    refine hl.step hi hchild ⟨fun _ => .inr ?_, fun _ => rfl⟩
    rwa [hroot, ← hc']
  · intro hc
    subst hc
    have hchild : ChildPruned σ' ⟨σ1.lfs, update σ1.mem b (ptrFmt.setPtr (σ1.mem b) i 0)⟩ M h b i start :=
      hp.child hb hi hl.owns rfl (fun x hx => update_of_ne hx _ _) fun k hk => by
        dsimp only
        rw [update_self, ptr_clear _ hi hk, hroot]
    have hused : used ↔ used ∨
        ptrFmt.ptr (update σ1.mem b (ptrFmt.setPtr (σ1.mem b) i 0) b) i ≠ 0 := by
      rw [update_self, ptr_clear _ hi hi, if_pos rfl]
      simp
    simpa only [update_self] using hl.step hi hchild hused

theorem Pruned.whole (ho : Owns σ.lfs (ptrFmt.blocks σ.mem h b + M)) (hs : ptrFmt.fanout ^ h ≤ start) :
    Pruned σ σ M h b b start :=
  ⟨.refl ho, .inl rfl, fun j hj => by rw [if_pos (by omega)]⟩

theorem Owns.child {s : Lfs} (hb : b ≠ 0) (hi : i < ptrFmt.fanout) (ho : Owns s (ptrFmt.blocks m (h + 1) b + M)) :
    Owns s (ptrFmt.blocks m h (ptrFmt.ptr (m b) i) + (ptrFmt.rest m h b i + M)) := by
  rwa [blocks_split hb hi, add_comm (ptrFmt.rest _ _ _ _), add_assoc] at ho

theorem exec_truncateMids (hb : b ≠ 0) (ho : Owns σ.lfs (ptrFmt.blocks σ.mem 2 b + M)) (start : Nat) :
    ∃ r σ', exec (truncateMids start b (σ.mem b) : LfsM ρ true _) σ = (r, σ') ∧
      PruneLoop σ σ' M 1 b start ptrFmt.fanout r := by
  refine ⟨_, _, rfl, ?_⟩
  rw [fanout_eq]
  refine exec_foldlM_range (fun i r σ' => PruneLoop σ σ' M 1 b start i r) (.init ho start) ?_
  rintro i ⟨d, used⟩ σ' hi hl
  have hi' : i < ptrFmt.fanout := fanout_eq ▸ hi
  obtain rfl : d = σ'.mem b := hl.buffer
  by_cases hc : ptrAt (σ'.mem b) i = 0
  · simp only [if_pos hc, exec_pure]
    exact hl.skip hb ((ptr_eq _ _).trans hc)
  have hown := hl.owns.child hb hi'
  by_cases hwhole : ptrsPerBlock ≤ start - i * ptrsPerBlock
  · simp only [if_neg hc, if_pos hwhole, exec_pure]
    refine (hl.round hb hi' (Pruned.whole hown ?_)).1 ?_
    · rwa [pow_one, fanout_eq]
    · rwa [ptr_eq]
  · obtain ⟨r, σ1, he, hp⟩ := exec_truncateIndirect (ρ := ρ) hown (start - i * ptrFmt.fanout ^ 1)
    rw [ptr_eq, fanout_eq, pow_one, truncateIndirect] at he
    simp only [if_neg hc, exec_read_bind] at he
    simp only [if_neg hc, if_neg hwhole, exec_read_bind]
    rw [exec_bind] at he ⊢
    generalize exec (truncatePtrs (start - i * ptrsPerBlock) (σ'.mem (ptrAt (σ'.mem b) i)) : LfsM ρ true _) σ' = e at he ⊢
    obtain ⟨⟨d, midUsed⟩, σ2⟩ := e
    cases midUsed with
    | true =>
      obtain ⟨rfl, rfl⟩ := he
      exact (hl.round hb hi' hp).1 hc
    | false =>
      simp only [if_neg Bool.false_ne_true] at he ⊢
      rw [exec_bind] at he ⊢
      simp only [exec_write_bind, exec_read_bind, exec_pure, Prod.mk.injEq, getD_some] at he ⊢
      obtain ⟨rfl, rfl⟩ := he
      rw [← setPtr_eq]
      exact (hl.round hb hi' hp).2 rfl

theorem exec_dropRoot {r : Block × Bool} (hb : b ≠ 0) (hl : PruneLoop σ σ' M h b start ptrFmt.fanout r) :
    ∃ root σ'', exec (if r.2 = true then pure b else do limnfsFreeBlock b; pure 0 : LfsM ρ true Nat) σ' = (root, σ'') ∧
      Pruned σ σ'' M (h + 1) b root start := by
  obtain ⟨d, used⟩ := r
  obtain ⟨hleft, hgone⟩ := hl.finish hb
  cases used with
  | true => exact ⟨b, σ', rfl, hleft rfl⟩
  | false =>
    obtain ⟨ho, hp⟩ := hgone rfl
    obtain ⟨hfree, -⟩ := exec_freeBlock (ρ := ρ) (ω := true) ho
    simp only [if_neg Bool.false_ne_true, exec_bind_of hfree, exec_pure]
    exact ⟨0, _, rfl, hp⟩

theorem exec_truncateDouble (ho : Owns σ.lfs (ptrFmt.blocks σ.mem 2 b + M)) (start : Nat) :
    ∃ r σ', exec (truncateDouble start b : LfsM ρ true Nat) σ = (r, σ') ∧ Pruned σ σ' M 2 b r start := by
  unfold truncateDouble
  obtain rfl | hb := eq_or_ne b 0
  · exact ⟨0, σ, rfl, .null ho⟩
  obtain ⟨r, σ1, he, hl⟩ := exec_truncateMids (ρ := ρ) hb ho start
  simp only [if_neg hb, exec_read_bind, exec_bind_of he]
  exact exec_dropRoot hb hl

theorem exec_truncateDbls (hb : b ≠ 0) (ho : Owns σ.lfs (ptrFmt.blocks σ.mem 3 b + M)) (start : Nat) :
    ∃ r σ', exec (truncateDbls start b (σ.mem b) : LfsM ρ true _) σ = (r, σ') ∧
      PruneLoop σ σ' M 2 b start ptrFmt.fanout r := by
  refine ⟨_, _, rfl, ?_⟩
  rw [fanout_eq]
  refine exec_foldlM_range (fun i r σ' => PruneLoop σ σ' M 2 b start i r) (.init ho start) ?_
  rintro i ⟨d, used⟩ σ' hi hl
  have hi' : i < ptrFmt.fanout := fanout_eq ▸ hi
  obtain rfl : d = σ'.mem b := hl.buffer
  by_cases hc : ptrAt (σ'.mem b) i = 0
  · simp only [if_pos hc, exec_pure]
    exact hl.skip hb ((ptr_eq _ _).trans hc)
  obtain ⟨r, σ1, he, hp⟩ := exec_truncateDouble (ρ := ρ) (hl.owns.child hb hi') (start - i * ptrFmt.fanout ^ 2)
  rw [ptr_eq, fanout_eq, pow_two, truncateDouble] at he
  simp only [if_neg hc, exec_read_bind] at he
  simp only [if_neg hc, exec_read_bind]
  rw [exec_bind] at he ⊢
  generalize exec (truncateMids (start - i * (ptrsPerBlock * ptrsPerBlock)) (ptrAt (σ'.mem b) i)
    (σ'.mem (ptrAt (σ'.mem b) i)) : LfsM ρ true _) σ' = e at he ⊢
  obtain ⟨⟨d, dblUsed⟩, σ2⟩ := e
  cases dblUsed with
  | true =>
    obtain ⟨rfl, rfl⟩ := he
    exact (hl.round hb hi' hp).1 hc
  | false =>
    simp only [if_neg Bool.false_ne_true] at he ⊢
    rw [exec_bind] at he ⊢
    simp only [exec_write_bind, exec_read_bind, exec_pure, Prod.mk.injEq, getD_some] at he ⊢
    obtain ⟨rfl, rfl⟩ := he
    rw [← setPtr_eq]
    exact (hl.round hb hi' hp).2 rfl

theorem exec_truncateTriple (ho : Owns σ.lfs (ptrFmt.blocks σ.mem 3 b + M)) (start : Nat) :
    ∃ r σ', exec (truncateTriple start b : LfsM ρ true Nat) σ = (r, σ') ∧ Pruned σ σ' M 3 b r start := by
  unfold truncateTriple
  obtain rfl | hb := eq_or_ne b 0
  · exact ⟨0, σ, rfl, .null ho⟩
  obtain ⟨r, σ1, he, hl⟩ := exec_truncateDbls (ρ := ρ) hb ho start
  simp only [if_neg hb, exec_read_bind, exec_bind_of he]
  exact exec_dropRoot hb hl

end Levels

end Prune

end Limnx
