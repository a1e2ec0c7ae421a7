import Mathlib.Data.List.Range
import Mathlib.Data.List.Perm.Basic
import Mathlib.Data.Nat.ModEq

/-! # Ring buffers

`RingBuffer.contents` lists what a ring of `cap` cells holds, oldest first; `Holds` is for a ring that keeps its write
position. -/

open Nat

namespace RingBuffer
open List Function
variable {α : Type} {cap r n : Nat} {k : Nat}

def contents (buf : Nat → α) (cap r n : Nat) : List α := (List.range n).map fun k => buf ((r + k) % cap)

section
variable (buf : Nat → α)

@[simp] theorem length_contents : (contents buf cap r n).length = n := by simp [contents]

@[simp] theorem contents_zero : contents buf cap r 0 = [] := rfl

theorem add_mod_ne (hk : k < n) (hn : n < cap) : (r + k) % cap ≠ (r + n) % cap := by
  intro h
  have h' : k % cap = n % cap := ModEq.add_left_cancel' r h
  rw [mod_eq_of_lt (by omega), mod_eq_of_lt hn] at h'
  omega

theorem contents_push (x : α) (hn : n < cap) :
    contents (update buf ((r + n) % cap) x) cap r (n + 1) = contents buf cap r n ++ [x] := by
  unfold contents
  rw [range_succ, map_append]
  congr 1
  · refine map_congr_left fun k hk => ?_
    exact update_of_ne (add_mod_ne (mem_range.mp hk) hn) x buf
  · simp

theorem contents_pop (hr : r < cap) : contents buf cap r (n + 1) = buf r :: contents buf cap ((r + 1) % cap) n := by
  unfold contents
  rw [range_succ_eq_map, map_cons, map_map, Nat.add_zero, mod_eq_of_lt hr]
  congr 1
  refine map_congr_left fun k _ => ?_
  simp only [comp, mod_add_mod]
  congr 2
  omega

theorem add_mod_inj {j k : Nat} (hj : j < cap) (hk : k < cap) (h : (r + j) % cap = (r + k) % cap) : j = k := by
  have h' : j % cap = k % cap := ModEq.add_left_cancel' r h
  rwa [mod_eq_of_lt hj, mod_eq_of_lt hk] at h'

theorem contents_succ : contents buf cap r (n + 1) = contents buf cap r n ++ [buf ((r + n) % cap)] := by
  unfold contents
  rw [range_succ, map_append]
  rfl

theorem contents_update (x : α) (hk : k < n) (hn : n ≤ cap) :
    contents (update buf ((r + k) % cap) x) cap r n = (contents buf cap r n).set k x := by
  refine ext_getElem (by simp) fun i hi hi' => ?_
  have hin : i < n := by simpa using hi
  rw [getElem_set]
  simp only [contents, getElem_map, getElem_range]
  split
  · subst i
    exact update_self ..
  · exact update_of_ne (fun h => ‹¬ k = i› (add_mod_inj (by omega) (by omega) h.symm)) ..

theorem set_append_perm {l : List α} {x y : α} (h : l[k]? = some y) : (l.set k x ++ [y]).Perm (x :: l) := by
  induction l generalizing k with
  | nil => simp at h
  | cons a l ih =>
    cases k with
    | zero =>
      obtain rfl : a = y := by simpa using h
      exact perm_append_comm.cons x
    | succ k => exact ((ih (by simpa using h)).cons a).trans (Perm.swap x a l)

theorem getElem?_contents (hk : k < n) : (contents buf cap r n)[k]? = some (buf ((r + k) % cap)) := by
  simp [contents, hk]

theorem contents_update_of_ne (x : α) {p : Nat} (hp : ∀ k < n, (r + k) % cap ≠ p) :
    contents (update buf p x) cap r n = contents buf cap r n :=
  map_congr_left fun k hk => update_of_ne (hp k (mem_range.mp hk)) x buf

end

def moveDown (cap r : Nat) (buf : Nat → α) (j : Nat) : Nat → α :=
  Function.update buf ((r + j) % cap) (buf ((r + j + 1) % cap))

theorem foldl_moveDown (buf : Nat → α) {q m k : Nat} (hk : k < cap) (hm : q + m < cap) :
    (range' q m).foldl (moveDown cap r) buf ((r + k) % cap) =
      if q ≤ k ∧ k < q + m then buf ((r + k + 1) % cap) else buf ((r + k) % cap) := by
  -- on the number of cells moved: a cell is read before it is overwritten
  induction m generalizing k with
  | zero => simp
  | succ m ih =>
    rw [range'_concat, foldl_append, foldl_cons, foldl_nil, Nat.one_mul, moveDown]
    by_cases hkm : k = q + m
    · subst hkm
      rw [update_self, if_pos (by omega), Nat.add_assoc r, ih (by omega) (by omega), if_neg (by omega)]
    · rw [update_of_ne fun h => hkm (add_mod_inj hk (by omega) h), ih hk (by omega)]
      simp only [show (q ≤ k ∧ k < q + (m + 1)) ↔ (q ≤ k ∧ k < q + m) by omega]

/-- The values behind position `q` move down by one: the value there is gone. -/
theorem contents_closeGap (buf : Nat → α) {q : Nat} (hq : q < n) (hn : n ≤ cap) :
    contents ((range' q (n - 1 - q)).foldl (moveDown cap r) buf) cap r (n - 1) =
      (contents buf cap r n).eraseIdx q := by
  refine ext_getElem ?_ fun i hi hi' => ?_
  · rw [length_eraseIdx_of_lt (by simpa using hq), length_contents, length_contents]
  · have hin : i < n - 1 := by simpa using hi
    rw [getElem_eraseIdx]
    simp only [contents, getElem_map, getElem_range]
    rw [foldl_moveDown buf (by omega) (by omega)]
    by_cases hiq : i < q
    · rw [dif_pos hiq, if_neg (by omega)]
    · rw [dif_neg hiq, if_pos (by omega), Nat.add_assoc]

/-- A ring with read position `head`, write position `tail` and `count` values holds the list `q`, oldest first. -/
structure Holds (buf : Nat → α) (cap head tail count : Nat) (q : List α) : Prop where
  head_lt : head < cap
  count_eq : count = q.length
  room : q.length ≤ cap
  tail_eq : tail = (head + q.length) % cap
  contents_eq : contents buf cap head q.length = q

section
variable {buf : Nat → α} {head tail count : Nat} {q : List α} {x : α}

theorem Holds.empty (buf : Nat → α) (h : 0 < cap) : Holds buf cap 0 0 0 [] :=
  ⟨h, rfl, Nat.zero_le _, (zero_mod cap).symm, rfl⟩

theorem Holds.push (h : Holds buf cap head tail count q) (hroom : q.length < cap) (x : α) :
    Holds (update buf tail x) cap head ((tail + 1) % cap) (count + 1) (q ++ [x]) := by
  refine ⟨h.head_lt, ?_, ?_, ?_, ?_⟩
  · rw [length_append, h.count_eq]
    rfl
  · rw [length_append]
    exact hroom
  · rw [h.tail_eq, length_append, mod_add_mod]
    rfl
  · rw [h.tail_eq, length_append]
    exact (contents_push buf x hroom).trans (by rw [h.contents_eq])

theorem Holds.pop (h : Holds buf cap head tail count (x :: q)) :
    buf head = x ∧ Holds buf cap ((head + 1) % cap) tail (count - 1) q := by
  have hpop := h.contents_eq
  rw [length_cons, contents_pop buf h.head_lt] at hpop
  obtain ⟨hx, hq⟩ := cons.inj hpop
  have hlen := h.room
  refine ⟨hx, mod_lt _ (zero_lt_of_lt h.head_lt), ?_, le_of_succ_le hlen, ?_, hq⟩
  · rw [h.count_eq]
    rfl
  · rw [h.tail_eq, length_cons, mod_add_mod]
    congr 1
    omega

end

end RingBuffer
