import Mathlib.Algebra.Order.BigOperators.Group.Finset

/-! # Sums over a table

Storing an entry changes the weight of a table by the difference of the new and the old one. -/

open Function

namespace TableSum
open Finset

theorem sum_off {κ : Type} [DecidableEq κ] {keys : Finset κ} {w w' : κ → Nat} {k : κ} (hk : k ∈ keys)
    (h : ∀ j ∈ keys, j ≠ k → w' j = w j) : ∑ j ∈ keys, w' j + w k = ∑ j ∈ keys, w j + w' k := by
  have hrest : ∑ j ∈ keys.erase k, w' j = ∑ j ∈ keys.erase k, w j :=
    sum_congr rfl fun j hj => h j (mem_of_mem_erase hj) (ne_of_mem_erase hj)
  rw [← add_sum_erase keys w' hk, ← add_sum_erase keys w hk, hrest]
  omega

variable {ι β : Type} [Fintype ι] (w : β → Nat) (t : ι → β)

def weight : Nat := ∑ i, w (t i)

theorem le_weight (k : ι) : w (t k) ≤ weight w t :=
  single_le_sum (f := fun i => w (t i)) (fun _ _ => Nat.zero_le _) (mem_univ k)

theorem weight_le {b : Nat} (h : ∀ i, w (t i) ≤ b) : weight w t ≤ Fintype.card ι * b := by
  have := sum_le_card_nsmul univ (fun i => w (t i)) b fun i _ => h i
  simpa [weight] using this

theorem weight_eq_zero {w : β → Nat} {t : ι → β} (h : ∀ i, w (t i) = 0) : weight w t = 0 := sum_eq_zero fun i _ => h i

theorem weight_congr {w w' : β → Nat} {t : ι → β} (h : ∀ i, w (t i) = w' (t i)) : weight w t = weight w' t :=
  sum_congr rfl fun i _ => h i

theorem weight_update [DecidableEq ι] (k : ι) (e : β) : weight w (update t k e) + w (t k) = weight w t + w e := by
  have hoff : ∀ j ∈ univ, j ≠ k → w (update t k e j) = w (t j) := fun j _ hj => by
    rw [update_of_ne hj]
  have h := sum_off (mem_univ k) hoff
  rwa [update_self] at h

end TableSum
