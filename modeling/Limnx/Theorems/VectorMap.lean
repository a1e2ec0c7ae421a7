import Mathlib.Data.Set.Card
import Limnx.Lib.GuardedRun
import Limnx.Lib.TableSum
import Limnx.VecStore

/-! A key is cut when it is stored, and compared in full. -/

open List Finset

namespace Limnx
open Function GuardedRun TableSum

inductive VecOp (V : Type)
  | store (key : List UInt8) (vec : V)
  | delete (key : List UInt8)

/-- `last key` is the vector of the last successful store of the key, if it was not deleted since. -/
structure VecHistory (V : Type) where
  vs : VecStore V
  last : List UInt8 → Option V := fun _ => none

/-- The entry is the one of the key. -/
def VecEntry.Has (e : VecEntry) (key : List UInt8) : Prop := e.used = true ∧ e.key = key

namespace VecHistory
variable {V : Type} {s : VecHistory V} {key : List UInt8} {vec : V} {i : Fin 64}

def present (s : VecHistory V) : Set (List UInt8) := { key | s.last key ≠ none }

/-- The store is a map of at most 64 keys to the vectors stored last. -/
structure IsMap (s : VecHistory V) : Prop where
  get : ∀ key, s.vs.get key = s.last key
  apart : ∀ key key' i, s.vs.find key = some i → s.vs.find key' = some i → key = key'
  full : ∀ key vec, (s.vs.store key vec).1 = false → s.present.ncard = 64
  count : s.vs.count = s.present.ncard

structure Valid (s : VecHistory V) : Prop where
  inj : ∀ i j key, (s.vs.entries i).Has key → (s.vs.entries j).Has key → i = j
  last : ∀ i key, (s.vs.entries i).Has key → key.length ≤ 31 ∧ s.last key = some (s.vs.vectors i)
  only : ∀ key, s.last key ≠ none → ∃ i, (s.vs.entries i).Has key
  count : s.vs.count = weight (·.used.toNat) s.vs.entries

theorem find_some (h : s.vs.find key = some i) : (s.vs.entries i).Has key := by
  simpa [VecEntry.Has] using find?_some h

theorem find_none (h : s.vs.find key = none) (i : Fin 64) : ¬(s.vs.entries i).Has key := by
  simpa [VecEntry.Has] using find?_eq_none.mp h i (mem_finRange i)

theorem Valid.set {e : VecEntry} {n : Nat} {o : Option V} (h : s.Valid)
    (hold : ∀ key', (s.vs.entries i).Has key' → key' = key) (hother : ∀ j, (s.vs.entries j).Has key → j = i)
    (he : e.used → e.key = key ∧ key.length ≤ 31 ∧ o = some vec) (hne : e.used = false → o = none)
    (hn : n + (s.vs.entries i).used.toNat = s.vs.count + e.used.toNat) :
    Valid ⟨⟨n, update s.vs.entries i e, update s.vs.vectors i vec⟩, update s.last key o⟩ := by
  have hcases {j key'} (hj : (update s.vs.entries i e j).Has key') :
      j = i ∧ key' = key ∧ key.length ≤ 31 ∧ o = some vec ∨ j ≠ i ∧ key' ≠ key ∧ (s.vs.entries j).Has key' := by
    by_cases hji : j = i
    · rw [hji, update_self] at hj
      exact .inl ⟨hji, hj.2.symm.trans (he hj.1).1, (he hj.1).2⟩
    · rw [update_of_ne hji] at hj
      exact .inr ⟨hji, fun hkey => hji (hother j (hkey ▸ hj)), hj⟩
  refine ⟨fun a b key' ha hb => ?_, fun j key' hj => ?_, fun key' hkey' => ?_, ?_⟩
  · obtain ⟨rfl, hkey, -⟩ | ⟨-, hkey, ha⟩ := hcases ha <;> obtain ⟨rfl, hkey', -⟩ | ⟨-, hkey', hb⟩ := hcases hb
    · rfl
    · exact absurd hkey hkey'
    · exact absurd hkey' hkey
    · exact h.inj a b key' ha hb
  · change _ ∧ update s.last key o key' = some (update s.vs.vectors i vec j)
    obtain ⟨rfl, rfl, hshort, ho⟩ | ⟨hji, hkey, hj⟩ := hcases hj
    · rw [update_self, update_self]
      exact ⟨hshort, ho⟩
    · rw [update_of_ne hji, update_of_ne hkey]
      exact h.last j key' hj
  · change update s.last key o key' ≠ none at hkey'
    obtain rfl | hkey := eq_or_ne key' key
    · rw [update_self] at hkey'
      have hused : e.used := Bool.not_eq_false _ ▸ fun hu => hkey' (hne hu)
      refine ⟨i, ?_⟩
      change (update s.vs.entries i e i).Has key'
      rw [update_self]
      exact ⟨hused, (he hused).1⟩
    · rw [update_of_ne hkey] at hkey'
      obtain ⟨j, hj⟩ := h.only key' hkey'
      have hji : j ≠ i := by
        rintro rfl
        exact hkey (hold key' hj)
      refine ⟨j, ?_⟩
      change (update s.vs.entries i e j).Has key'
      rwa [update_of_ne hji]
  · have hw := weight_update (·.used.toNat) s.vs.entries i e
    have hc := h.count
    change n = weight _ (update s.vs.entries i e)
    omega

namespace Valid
variable (h : s.Valid)
include h

theorem ncard : s.present.ncard = weight (·.used.toNat) s.vs.entries := by
  have hset : s.present = (univ.filter fun i => (s.vs.entries i).used).image fun i => (s.vs.entries i).key := by
    ext key
    simp only [present, Set.mem_ofPred_eq, coe_image, coe_filter, Set.mem_image, mem_univ, true_and]
    exact ⟨h.only key, fun ⟨i, hi⟩ => (h.last i key hi).2 ▸ Option.some_ne_none _⟩
  rw [hset, Set.ncard_coe_finset, card_image_of_injOn, card_filter, weight]
  · exact sum_congr rfl fun i _ => by cases (s.vs.entries i).used <;> rfl
  · intro i hi j hj heq
    simp only [coe_filter, mem_univ, true_and] at hi hj
    exact h.inj i j _ ⟨hi, rfl⟩ ⟨hj, heq.symm⟩

theorem last_none (hf : s.vs.find key = none) : s.last key = none := by
  by_contra hne
  obtain ⟨i, hi⟩ := h.only key hne
  exact find_none hf i hi

theorem isMap : s.IsMap := by
  refine ⟨fun key => ?_, fun key key' i hi hi' => (find_some hi).2.symm.trans (find_some hi').2, fun key vec hfull => ?_, ?_⟩
  · rw [VecStore.get]
    cases hf : s.vs.find key with
    | none => exact (h.last_none hf).symm
    | some i => exact (h.last i key (find_some hf)).2.symm
  · rw [VecStore.store] at hfull
    split at hfull
    · cases hfull
    split at hfull
    · cases hfull
    rename_i hf
    have hused : ∀ i, (s.vs.entries i).used.toNat = 1 := fun i => by
      have := find?_eq_none.mp hf i (mem_finRange i)
      simp at this
      rw [this]
      rfl
    rw [h.ncard, weight, sum_congr rfl fun i _ => hused i]
    rfl
  · rw [h.ncard, h.count]

end Valid

section
variable [Zero V]

def step (s : VecHistory V) : VecOp V → VecHistory V
  | .store key vec =>
    let (ok, vs) := s.vs.store key vec
    ⟨vs, if ok then update s.last key (some vec) else s.last⟩
  | .delete key => ⟨(s.vs.delete key).2, update s.last key none⟩

/-- A long key is stored only when there is no room for it. -/
def Fits (s : VecHistory V) : VecOp V → Prop
  | .store key _ => key.length ≤ 31 ∨ ∀ i, (s.vs.entries i).used = true
  | .delete _ => True

theorem Valid.step {op : VecOp V} (h : s.Valid) (hop : s.Fits op) : (s.step op).Valid := by
  cases op with
  | store key vec =>
    rw [VecHistory.step, VecStore.store]
    cases hf : s.vs.find key with
    | some i =>
      have hi := find_some hf
      have hset := h.set (o := some vec) (fun key' hkey' => hkey'.2.symm.trans hi.2) (fun j hj => h.inj j i key hj hi)
        (fun _ => ⟨hi.2, (h.last i key hi).1, rfl⟩) (fun hu => nomatch hi.1.symm.trans hu) rfl
      rwa [update_eq_self] at hset
    | none =>
      cases hfree : (finRange 64).find? fun i => !(s.vs.entries i).used with
      | none => exact h
      | some i =>
        have hi : (s.vs.entries i).used = false := by simpa using find?_some hfree
        have hshort : key.length ≤ 31 := hop.resolve_right fun hfull => nomatch hi.symm.trans (hfull i)
        refine h.set (fun key' hkey' => nomatch hi.symm.trans hkey'.1) (fun j hj => absurd hj (find_none hf j))
          (fun _ => ⟨take_of_length_le hshort, hshort, rfl⟩) nofun ?_
        rw [hi]
        rfl
  | delete key =>
    rw [VecHistory.step, VecStore.delete]
    cases hf : s.vs.find key with
    | some i =>
      have hi := find_some hf
      refine h.set (fun key' hkey' => hkey'.2.symm.trans hi.2) (fun j hj => h.inj j i key hj hi) nofun (fun _ => rfl) ?_
      have hle := le_weight (·.used.toNat) s.vs.entries i
      rw [← h.count] at hle
      rw [hi.1] at hle ⊢
      exact Nat.sub_add_cancel hle
    | none =>
      dsimp only
      rw [← h.last_none hf, update_eq_self]
      exact h

theorem Valid.fits {op : VecOp V} (h : s.Valid) (hmap : (s.step op).IsMap) : s.Fits op := by
  cases op with
  | delete key => trivial
  | store key vec =>
    by_contra hnot
    obtain ⟨hlong, i, hi⟩ : ¬key.length ≤ 31 ∧ ∃ i, (s.vs.entries i).used = false := by simpa [Fits] using hnot
    have hget := hmap.get key
    rw [VecHistory.step, VecStore.store] at hget
    cases hf : s.vs.find key with
    | some i => exact hlong (h.last i key (find_some hf)).1
    | none =>
      rw [hf] at hget
      cases hfree : (finRange 64).find? fun i => !(s.vs.entries i).used with
      | none => simpa [hi] using find?_eq_none.mp hfree i (mem_finRange i)
      | some j =>
        -- the key that is stored is shorter than the one that is looked for
        rw [hfree] at hget
        obtain ⟨l, hl, -⟩ := Option.map_eq_some_iff.mp (hget.trans (update_self ..))
        have hkey : (update s.vs.entries j ⟨true, key.take 31⟩ l).Has key := @find_some _ ⟨_, s.last⟩ _ _ hl
        rw [update_apply] at hkey
        split at hkey
        · exact hlong (hkey.2 ▸ length_take_le ..)
        · exact hlong (h.last l key hkey).1

def init : VecHistory V where
  vs := { vectors := fun _ => 0 }

theorem init_valid : (init : VecHistory V).Valid :=
  ⟨fun _ _ _ hi => (nomatch hi.1), fun _ _ hi => (nomatch hi.1), fun _ hne => absurd rfl hne,
    (weight_eq_zero fun _ => rfl).symm⟩

/-- The store is a map in every state of a run exactly if long keys are stored only when there is no room for them. -/
theorem vecstore_is_map_iff (ops : List (VecOp V)) :
    (∀ pre, pre <+: ops → (run step init pre).IsMap) ↔ Guarded step Fits init ops :=
  prefixes_iff_guarded (fun _ => Valid.isMap) (fun _ _ => Valid.fits) (fun _ _ => Valid.step) init_valid

end

/-- A key of 32 bytes is stored twice: it has two entries and is not found, and one of 31 bytes is. -/
theorem long_key_stored_twice :
    let s := run step (init : VecHistory Nat) [.store (.replicate 32 97) 1, .store (.replicate 32 97) 2]
    s.vs.count = 2 ∧ s.last (.replicate 32 97) = some 2 ∧ s.vs.get (.replicate 32 97) = none ∧
      s.vs.get (.replicate 31 97) = some 1 := by decide +kernel

end VecHistory

end Limnx
