import Mathlib.Data.Nat.Bitwise
import Mathlib.Data.List.Basic

/-! # Bitmaps in bytes

Bit `i` is bit `i % 8` of byte `i / 8`. `firstClear` finds the lowest clear bit of a range. -/

open UInt8 List

namespace Bitmap
open Function

def get (m : Nat → UInt8) (bit : Nat) : Bool := (m (bit / 8) >>> UInt8.ofNat (bit % 8)) &&& 1 != 0

def set (m : Nat → UInt8) (bit : Nat) : Nat → UInt8 :=
  update m (bit / 8) (m (bit / 8) ||| (1 <<< UInt8.ofNat (bit % 8)))

def clear (m : Nat → UInt8) (bit : Nat) : Nat → UInt8 :=
  update m (bit / 8) (m (bit / 8) &&& ~~~(1 <<< UInt8.ofNat (bit % 8)))

def firstClear (m : Nat → UInt8) (lo hi : Nat) : Option Nat := (List.range' lo (hi - lo)).find? fun i => !get m i

variable {m m' : Nat → UInt8} {i j lo hi : Nat}

/-- Position `i % 8` as a shift distance. -/
private theorem shift_toNat (i : Nat) : (ofNat (i % 8)).toNat % 8 = i % 8 := by
  rw [toNat_ofNat']
  omega

private theorem one_shift_toNat (i : Nat) : ((1 : UInt8) <<< ofNat (i % 8)).toNat = 2 ^ (i % 8) := by
  have hlt : i % 8 < 8 := Nat.mod_lt _ (by decide)
  have hpow : 2 ^ (i % 8) < 2 ^ 8 := Nat.pow_lt_pow_right (by decide) hlt
  rw [UInt8.toNat_shiftLeft, shift_toNat, toNat_one, Nat.one_shiftLeft, Nat.mod_eq_of_lt hpow]

theorem get_eq_testBit (m : Nat → UInt8) (i : Nat) : get m i = (m (i / 8)).toNat.testBit (i % 8) := by
  have hs : ((m (i / 8) >>> ofNat (i % 8)) &&& 1).toNat = 1 &&& ((m (i / 8)).toNat >>> (i % 8)) := by
    rw [UInt8.toNat_and, UInt8.toNat_shiftRight, shift_toNat, toNat_one, Nat.and_comm]
  rw [get, Nat.testBit, ← hs, Bool.eq_iff_iff, bne_iff_ne, bne_iff_ne, Ne, Ne, ← UInt8.toNat_inj, UInt8.toNat_zero]

private theorem div_mod_inj (hd : i / 8 = j / 8) (hm : i % 8 = j % 8) : i = j := by
  rw [← Nat.div_add_mod i 8, ← Nat.div_add_mod j 8, hd, hm]

theorem get_set (m : Nat → UInt8) (i j : Nat) : get (set m i) j = (decide (i = j) || get m j) := by
  rw [get_eq_testBit, get_eq_testBit, set]
  by_cases hd : j / 8 = i / 8
  · rw [hd, update_self, UInt8.toNat_or, Nat.testBit_or, one_shift_toNat, Nat.testBit_two_pow, Bool.or_comm]
    congr 1
    rw [decide_eq_decide]
    exact ⟨fun hm => div_mod_inj hd.symm hm, fun h => h ▸ rfl⟩
  · rw [update_of_ne hd, decide_eq_false (fun h : i = j => hd (h ▸ rfl)), Bool.false_or]

theorem get_clear (m : Nat → UInt8) (i j : Nat) : get (clear m i) j = (!decide (i = j) && get m j) := by
  rw [get_eq_testBit, get_eq_testBit, clear]
  by_cases hd : j / 8 = i / 8
  · have hlt : 2 ^ (i % 8) < 2 ^ 8 := Nat.pow_lt_pow_right (by decide) (Nat.mod_lt _ (by decide))
    have hnot : (~~~((1 : UInt8) <<< ofNat (i % 8))).toNat = 2 ^ 8 - (2 ^ (i % 8) + 1) := by
      rw [toNat_not, one_shift_toNat]
      simp only [size]
      omega
    rw [hd, update_self, UInt8.toNat_and, Nat.testBit_and, hnot, Nat.testBit_two_pow_sub_succ hlt,
      Nat.testBit_two_pow, Bool.and_comm]
    have h8 : j % 8 < 8 := Nat.mod_lt _ (by decide)
    rw [decide_eq_true h8, Bool.true_and]
    congr 2
    rw [decide_eq_decide]
    exact ⟨fun hm => div_mod_inj hd.symm hm, fun h => h ▸ rfl⟩
  · rw [update_of_ne hd, decide_eq_false (fun h : i = j => hd (h ▸ rfl)), Bool.not_false, Bool.true_and]

@[simp] theorem get_set_self (m : Nat → UInt8) (i : Nat) : get (set m i) i := by simp [get_set]

theorem get_set_of_ne (h : i ≠ j) : get (set m i) j = get m j := by simp [get_set, h]

theorem get_clear_of_ne (h : i ≠ j) : get (clear m i) j = get m j := by simp [get_clear, h]

theorem get_congr (h : m' (i / 8) = m (i / 8)) : get m' i = get m i := by
  rw [get, get, h]

theorem firstClear_some (h : firstClear m lo hi = some i) : lo ≤ i ∧ i < hi ∧ get m i = false := by
  have hm := mem_of_find?_eq_some h
  have hp := find?_some h
  rw [mem_range'_1] at hm
  exact ⟨hm.1, by omega, by simpa using hp⟩

theorem firstClear_none (h : firstClear m lo hi = none) (h1 : lo ≤ i) (h2 : i < hi) : get m i := by
  have := find?_eq_none.mp h i (mem_range'_1.mpr ⟨h1, by omega⟩)
  simpa using this

end Bitmap
