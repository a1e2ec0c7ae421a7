import Mathlib.Algebra.BigOperators.Group.Finset.Basic

/-! # Trees of pointer blocks

The tree of height `h` at `b` is a data block for `h = 0` and otherwise a pointer block whose entries are trees of
height `h - 1`, zero for none. A tree is one child and the `rest` (`blocks_split`). -/

open Nat

/-- How a block holds pointers. `limit` bounds the addresses that an entry can store. -/
structure PtrFormat (β : Type) where
  fanout : Nat
  limit : Nat
  ptr : β → Nat → Nat
  setPtr : β → Nat → Nat → β
  empty : β
  fanout_pos : 0 < fanout
  ptr_empty : ∀ i, ptr empty i = 0
  ptr_of_ge : ∀ {b i}, fanout ≤ i → ptr b i = 0
  ptr_setPtr_self : ∀ {b i v}, i < fanout → v < limit → ptr (setPtr b i v) i = v
  ptr_setPtr_of_ne : ∀ {b i j v}, i < fanout → j < fanout → j ≠ i → ptr (setPtr b i v) j = ptr b j

namespace PtrFormat
open Multiset
variable {β : Type} (P : PtrFormat β)

/-! ## Addresses of a tree -/

def leaves (m : Nat → β) : Nat → Nat → Multiset Nat
  | 0, b => if b = 0 then 0 else {b}
  | h + 1, b => if b = 0 then 0 else ∑ i ∈ Finset.range P.fanout, leaves m h (P.ptr (m b) i)

def nodes (m : Nat → β) : Nat → Nat → Multiset Nat
  | 0, _ => 0
  | h + 1, b => if b = 0 then 0 else {b} + ∑ i ∈ Finset.range P.fanout, nodes m h (P.ptr (m b) i)

def blocks (m : Nat → β) (h b : Nat) : Multiset Nat := P.nodes m h b + P.leaves m h b

def lookup (m : Nat → β) : Nat → Nat → Nat → Nat
  | 0, b, _ => b
  | h + 1, b, j =>
    if b = 0 then 0 else lookup m h (P.ptr (m b) (j / P.fanout ^ h)) (j % P.fanout ^ h)

variable {P} {m m' : Nat → β} {h b i j c c' : Nat}

@[simp] theorem leaves_null : ∀ h, P.leaves m h 0 = 0
  | 0 => by simp [leaves]
  | h + 1 => by simp [leaves]

@[simp] theorem nodes_null : ∀ h, P.nodes m h 0 = 0
  | 0 => rfl
  | h + 1 => by simp [nodes]

@[simp] theorem blocks_null (h : Nat) : P.blocks m h 0 = 0 := by simp [blocks]

@[simp] theorem lookup_null : ∀ h j, P.lookup m h 0 j = 0
  | 0, _ => rfl
  | h + 1, j => by simp [lookup]

section
variable (hb : b ≠ 0)
include hb

theorem leaves_succ : P.leaves m (h + 1) b = ∑ i ∈ Finset.range P.fanout, P.leaves m h (P.ptr (m b) i) := by
  simp [leaves, hb]

theorem nodes_succ : P.nodes m (h + 1) b = {b} + ∑ i ∈ Finset.range P.fanout, P.nodes m h (P.ptr (m b) i) := by
  simp [nodes, hb]

theorem lookup_succ : P.lookup m (h + 1) b j = P.lookup m h (P.ptr (m b) (j / P.fanout ^ h)) (j % P.fanout ^ h) := by
  simp [lookup, hb]

theorem mem_nodes_self : b ∈ P.nodes m (h + 1) b := by
  simp [nodes_succ hb]

omit hb in
theorem sum_child (f : Nat → Multiset Nat) (hi : i < P.fanout) :
    ∑ k ∈ Finset.range P.fanout, f k = f i + ∑ k ∈ (Finset.range P.fanout).erase i, f k :=
  (Finset.add_sum_erase _ f (Finset.mem_range.mpr hi)).symm

theorem nodes_child_le (hi : i < P.fanout) : P.nodes m h (P.ptr (m b) i) ≤ P.nodes m (h + 1) b := by
  rw [nodes_succ hb, sum_child _ hi]
  exact le_trans (le_add_right _ _) (le_add_left _ _)

theorem leaves_child_le (hi : i < P.fanout) : P.leaves m h (P.ptr (m b) i) ≤ P.leaves m (h + 1) b := by
  rw [leaves_succ hb, sum_child _ hi]
  exact le_add_right _ _

omit hb in
theorem disjoint_of_nodup_sum {f : Nat → Multiset Nat} (hnd : (∑ k ∈ Finset.range P.fanout, f k).Nodup)
    (hi : i < P.fanout) (hj : j < P.fanout) (hne : i ≠ j) : Disjoint (f i) (f j) := by
  have hj' : j ∈ (Finset.range P.fanout).erase i := Finset.mem_erase.mpr ⟨hne.symm, Finset.mem_range.mpr hj⟩
  rw [sum_child f hi, ← Finset.add_sum_erase _ f hj', nodup_add] at hnd
  exact (disjoint_add_right.mp hnd.2.2).1

omit hb in
theorem zero_not_mem_leaves : ∀ h b, 0 ∉ P.leaves m h b
  | 0, b => by
    by_cases hb : b = 0
    · simp [leaves, hb]
    · simp [leaves, hb, Ne.symm hb]
  | h + 1, b => by
    by_cases hb : b = 0
    · simp [hb]
    rw [leaves_succ hb, mem_sum]
    rintro ⟨i, -, hi⟩
    exact zero_not_mem_leaves h _ hi

theorem nodes_of_empty (he : ∀ i < P.fanout, P.ptr (m b) i = 0) : P.nodes m (h + 1) b = {b} := by
  rw [nodes_succ hb, Finset.sum_eq_zero fun i hi => by rw [he i (Finset.mem_range.mp hi), nodes_null], add_zero]

theorem leaves_of_empty (he : ∀ i < P.fanout, P.ptr (m b) i = 0) : P.leaves m (h + 1) b = 0 := by
  rw [leaves_succ hb, Finset.sum_eq_zero fun i hi => by rw [he i (Finset.mem_range.mp hi), leaves_null]]

theorem lookup_of_ge (hj : P.fanout ^ (h + 1) ≤ j) : P.lookup m (h + 1) b j = 0 := by
  have : P.fanout ≤ j / P.fanout ^ h := by
    rw [Nat.le_div_iff_mul_le (Nat.pow_pos P.fanout_pos), ← pow_succ']
    exact hj
  rw [lookup_succ hb, P.ptr_of_ge this, lookup_null]

end

theorem congr_nodes : ∀ {h b}, (∀ x ∈ P.nodes m h b, m' x = m x) →
    P.nodes m' h b = P.nodes m h b ∧ P.leaves m' h b = P.leaves m h b ∧ ∀ j, P.lookup m' h b j = P.lookup m h b j
  | 0, _, _ => ⟨rfl, rfl, fun _ => rfl⟩
  | h + 1, b, hm => by
    by_cases hb : b = 0
    · simp [hb]
    have hroot : m' b = m b := hm b (mem_nodes_self hb)
    have hchild : ∀ i < P.fanout, ∀ x ∈ P.nodes m h (P.ptr (m b) i), m' x = m x := fun i hi x hx =>
      hm x (mem_of_le (nodes_child_le hb hi) hx)
    refine ⟨?_, ?_, fun j => ?_⟩
    · rw [nodes_succ hb, nodes_succ hb, hroot]
      congr 1
      exact Finset.sum_congr rfl fun i hi => (congr_nodes (hchild i (Finset.mem_range.mp hi))).1
    · rw [leaves_succ hb, leaves_succ hb, hroot]
      exact Finset.sum_congr rfl fun i hi => (congr_nodes (hchild i (Finset.mem_range.mp hi))).2.1
    · rw [lookup_succ hb, lookup_succ hb, hroot]
      by_cases hi : j / P.fanout ^ h < P.fanout
      · exact (congr_nodes (hchild _ hi)).2.2 _
      · rw [P.ptr_of_ge (Nat.le_of_not_lt hi), lookup_null, lookup_null]

theorem div_lt_fanout (hj : j < P.fanout ^ (h + 1)) : j / P.fanout ^ h < P.fanout := by
  rw [Nat.div_lt_iff_lt_mul (Nat.pow_pos P.fanout_pos), ← pow_succ']
  exact hj

theorem lookup_mem : ∀ {h b j}, P.lookup m h b j ≠ 0 → P.lookup m h b j ∈ P.leaves m h b
  | 0, b, j, hne => by simp_all [lookup, leaves]
  | h + 1, b, j, hne => by
    by_cases hb : b = 0
    · simp [hb] at hne
    rw [lookup_succ hb] at hne ⊢
    by_cases hi : j / P.fanout ^ h < P.fanout
    · exact mem_of_le (leaves_child_le hb hi) (lookup_mem hne)
    · simp [P.ptr_of_ge (Nat.le_of_not_lt hi)] at hne

theorem exists_lookup : ∀ {h b x}, x ∈ P.leaves m h b → ∃ j, j < P.fanout ^ h ∧ P.lookup m h b j = x
  | 0, b, x, hx => by
    by_cases hb : b = 0
    · simp [hb] at hx
    · rw [leaves, if_neg hb, mem_singleton] at hx
      exact ⟨0, by simp, hx.symm⟩
  | h + 1, b, x, hx => by
    by_cases hb : b = 0
    · simp [hb] at hx
    rw [leaves_succ hb] at hx
    obtain ⟨i, hi, hx⟩ := mem_sum.mp hx
    obtain ⟨j, hj, rfl⟩ := exists_lookup hx
    have hpos : 0 < P.fanout ^ h := Nat.pow_pos P.fanout_pos
    refine ⟨i * P.fanout ^ h + j, ?_, ?_⟩
    · rw [pow_succ']
      calc i * P.fanout ^ h + j < i * P.fanout ^ h + P.fanout ^ h := Nat.add_lt_add_left hj _
        _ = (i + 1) * P.fanout ^ h := (succ_mul _ _).symm
        _ ≤ P.fanout * P.fanout ^ h := Nat.mul_le_mul_right _ (Finset.mem_range.mp hi)
    · rw [lookup_succ hb, Nat.mul_comm, mul_add_div hpos, div_eq_of_lt hj, Nat.add_zero, mul_add_mod,
        mod_eq_of_lt hj]

theorem lookup_inj : ∀ {h b i j}, (P.leaves m h b).Nodup → i < P.fanout ^ h → j < P.fanout ^ h →
    P.lookup m h b i ≠ 0 → P.lookup m h b i = P.lookup m h b j → i = j
  | 0, b, i, j, _, hi, hj, _, _ => by simp at hi hj; omega
  | h + 1, b, i, j, hnd, hi, hj, hne, heq => by
    by_cases hb : b = 0
    · simp [hb] at hne
    rw [leaves_succ hb] at hnd
    rw [lookup_succ hb] at hne
    rw [lookup_succ hb, lookup_succ hb] at heq
    have hpos : 0 < P.fanout ^ h := Nat.pow_pos P.fanout_pos
    have hmod : ∀ k, k % P.fanout ^ h < P.fanout ^ h := fun k => mod_lt _ hpos
    have hdiv : i / P.fanout ^ h = j / P.fanout ^ h := by
      by_contra hd
      have hdisj := disjoint_of_nodup_sum (f := fun k => P.leaves m h (P.ptr (m b) k)) hnd (div_lt_fanout hi)
        (div_lt_fanout hj) hd
      exact disjoint_left.mp hdisj (lookup_mem hne) (heq ▸ lookup_mem (heq ▸ hne))
    rw [← hdiv] at heq
    have hnd' : (P.leaves m h (P.ptr (m b) (i / P.fanout ^ h))).Nodup := by
      rw [sum_child _ (div_lt_fanout hi), nodup_add] at hnd
      exact hnd.1
    have hrem := lookup_inj hnd' (hmod i) (hmod j) hne heq
    rw [← div_add_mod i (P.fanout ^ h), ← div_add_mod j (P.fanout ^ h), hdiv, hrem]

/-! ## Changing one child -/

def rest (P : PtrFormat β) (m : Nat → β) (h b i : Nat) : Multiset Nat :=
  {b} + ∑ k ∈ (Finset.range P.fanout).erase i, P.blocks m h (P.ptr (m b) k)

theorem blocks_succ (hb : b ≠ 0) :
    P.blocks m (h + 1) b = {b} + ∑ k ∈ Finset.range P.fanout, P.blocks m h (P.ptr (m b) k) := by
  simp only [blocks]
  rw [nodes_succ hb, leaves_succ hb, Finset.sum_add_distrib, add_assoc]

theorem blocks_split (hb : b ≠ 0) (hi : i < P.fanout) :
    P.blocks m (h + 1) b = P.rest m h b i + P.blocks m h (P.ptr (m b) i) := by
  rw [blocks_succ hb, sum_child _ hi, rest, add_assoc, add_comm (P.blocks m h _)]

theorem rest_nodup (hb : b ≠ 0) (hi : i < P.fanout) (hnd : (P.blocks m (h + 1) b).Nodup) : (P.rest m h b i).Nodup := by
  rw [blocks_split hb hi] at hnd
  exact nodup_of_le (le_add_right _ _) hnd

theorem self_mem_rest : b ∈ P.rest m h b i := by simp [rest]

theorem child_le_rest (hj : j < P.fanout) (hne : j ≠ i) : P.blocks m h (P.ptr (m b) j) ≤ P.rest m h b i := by
  have hj' : j ∈ (Finset.range P.fanout).erase i := Finset.mem_erase.mpr ⟨hne, Finset.mem_range.mpr hj⟩
  rw [rest, ← Finset.add_sum_erase _ _ hj']
  exact le_trans (le_add_right _ _) (le_add_left _ _)

theorem nodes_le_blocks : P.nodes m h b ≤ P.blocks m h b := le_add_right _ _

theorem leaves_le_blocks : P.leaves m h b ≤ P.blocks m h b := le_add_left _ _

theorem mem_leaves_split {x : Nat} (hb : b ≠ 0) (hx : x ∈ P.leaves m (h + 1) b) :
    x ∈ P.leaves m h (P.ptr (m b) i) ∨ x ∈ P.rest m h b i := by
  rw [leaves_succ hb, mem_sum] at hx
  obtain ⟨j, hj, hx⟩ := hx
  by_cases hne : j = i
  · exact .inl (hne ▸ hx)
  · exact .inr (mem_of_le ((leaves_le_blocks).trans (child_le_rest (Finset.mem_range.mp hj) hne)) hx)

theorem blocks_of_empty (hb : b ≠ 0) (he : ∀ i < P.fanout, P.ptr (m b) i = 0) : P.blocks m (h + 1) b = {b} := by
  rw [blocks, nodes_of_empty hb he, leaves_of_empty hb he, add_zero]

theorem lookup_of_empty (he : ∀ i < P.fanout, P.ptr (m b) i = 0) : P.lookup m (h + 1) b j = 0 := by
  by_cases hb : b = 0
  · rw [hb, lookup_null]
  rw [lookup_succ hb]
  by_cases hi : j / P.fanout ^ h < P.fanout
  · rw [he _ hi, lookup_null]
  · rw [P.ptr_of_ge (Nat.le_of_not_lt hi), lookup_null]

theorem blocks_congr (hm : ∀ x ∈ P.nodes m h b, m' x = m x) : P.blocks m' h b = P.blocks m h b := by
  obtain ⟨hn, hl, -⟩ := congr_nodes hm
  rw [blocks, blocks, hn, hl]

section Replace
variable (hi : i < P.fanout) (hnd : (P.rest m h b i).Nodup)
  (hptr : ∀ j, j < P.fanout → j ≠ i → P.ptr (m' b) j = P.ptr (m b) j)
  (hm : ∀ x ∈ P.rest m h b i, x ≠ b → m' x = m x)
include hnd hm

theorem sibling_frame (hj : j < P.fanout) (hne : j ≠ i) : ∀ x ∈ P.nodes m h (P.ptr (m b) j), m' x = m x := by
  intro x hx
  have hle := child_le_rest (m := m) (h := h) (b := b) hj hne
  have hx' := mem_of_le nodes_le_blocks hx
  refine hm x (mem_of_le hle hx') fun hxb => ?_
  subst hxb
  -- `b` itself would occur twice in the rest
  have hj' : j ∈ (Finset.range P.fanout).erase i := Finset.mem_erase.mpr ⟨hne, Finset.mem_range.mpr hj⟩
  rw [rest, ← Finset.add_sum_erase _ _ hj', nodup_add] at hnd
  exact disjoint_left.mp hnd.2.2 (mem_singleton_self _) (mem_add.mpr (.inl hx'))

include hptr

theorem rest_congr : P.rest m' h b i = P.rest m h b i := by
  rw [rest, rest]
  congr 1
  refine Finset.sum_congr rfl fun j hj => ?_
  obtain ⟨hne, hj⟩ := Finset.mem_erase.mp hj
  rw [hptr j (Finset.mem_range.mp hj) hne]
  exact blocks_congr (sibling_frame hnd hm (Finset.mem_range.mp hj) hne)

include hi

theorem leaves_replace (hb : b ≠ 0) :
    P.leaves m' (h + 1) b + P.leaves m h (P.ptr (m b) i) = P.leaves m (h + 1) b + P.leaves m' h (P.ptr (m' b) i) := by
  have hsum : ∑ k ∈ (Finset.range P.fanout).erase i, P.leaves m' h (P.ptr (m' b) k) =
      ∑ k ∈ (Finset.range P.fanout).erase i, P.leaves m h (P.ptr (m b) k) := by
    refine Finset.sum_congr rfl fun j hj => ?_
    obtain ⟨hne, hj⟩ := Finset.mem_erase.mp hj
    rw [hptr j (Finset.mem_range.mp hj) hne]
    exact (congr_nodes (sibling_frame hnd hm (Finset.mem_range.mp hj) hne)).2.1
  rw [leaves_succ hb, leaves_succ hb, sum_child _ hi, sum_child (fun k => P.leaves m h (P.ptr (m b) k)) hi, hsum,
    add_right_comm, add_comm (P.leaves m' h _), add_right_comm]

theorem lookup_replace (hb : b ≠ 0) (j : Nat) : P.lookup m' (h + 1) b j =
    if j / P.fanout ^ h = i then P.lookup m' h (P.ptr (m' b) i) (j % P.fanout ^ h) else P.lookup m (h + 1) b j := by
  rw [lookup_succ hb, lookup_succ hb]
  by_cases hj : j / P.fanout ^ h < P.fanout
  · split
    next heq => rw [heq]
    rename_i hne
    rw [hptr _ hj hne]
    exact (congr_nodes (sibling_frame hnd hm hj hne)).2.2 _
  · rw [if_neg (by omega), P.ptr_of_ge (Nat.le_of_not_lt hj), P.ptr_of_ge (Nat.le_of_not_lt hj), lookup_null,
      lookup_null]

end Replace

end PtrFormat
