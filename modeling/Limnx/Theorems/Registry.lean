import Limnx.Supervisor

/-! Numbers are given out in increasing order, so no two registered processes share one (`Valid`). -/

open Nat

namespace Limnx
open List Option
namespace ProcTable
variable {t t' : ProcTable} {p q c : Process} {pid : Nat} {f : Process → Process} {fill : Nat → Process}
  {fault : Option Fault}

theorem has_of_lookup (h : processLookup t pid = some p) : t.Has p ∧ p.pid = pid := by
  obtain ⟨slot, hslot, hf⟩ := exists_of_findSome?_eq_some h
  rw [filter_eq_some_iff] at hf
  obtain ⟨rfl, hpid⟩ := hf
  exact ⟨hslot, beq_iff_eq.mp hpid⟩

def Registered (t : ProcTable) (pid : Nat) : Prop := ∃ p, t.Has p ∧ p.pid = pid

theorem Registered.lookup (h : t.Registered pid) : ∃ p, processLookup t pid = some p := by
  obtain ⟨p, hp, rfl⟩ := h
  cases hl : processLookup t p.pid with
  | some q => exact ⟨q, rfl⟩
  | none =>
    rw [processLookup, findSome?_eq_none_iff] at hl
    simpa using hl _ hp

theorem has_map : Has { t with procTable := t.procTable.map (Option.map f) } p ↔ ∃ q, t.Has q ∧ f q = p := by
  simp only [Has, List.mem_map, map_eq_some_iff]
  constructor
  · rintro ⟨slot, hslot, q, rfl, hq⟩
    exact ⟨q, hslot, hq⟩
  · rintro ⟨q, hq, h⟩
    exact ⟨some q, hq, q, rfl, h⟩

theorem has_modify : (t.modify pid f).Has p ↔ ∃ q, t.Has q ∧ (if q.pid = pid then f q else q) = p := has_map

theorem has_reparent {dying parent : Nat} : (processReparentChildren t dying parent).Has p ↔
    ∃ q, t.Has q ∧ (if q.parentPid = dying then { q with parentPid := parent } else q) = p := has_map

theorem Registered.modify {n : Nat} (h : t.Registered n) (hf : ∀ p, t.Has p → p.pid = pid → (f p).pid = p.pid) :
    (t.modify pid f).Registered n := by
  obtain ⟨p, hp, rfl⟩ := h
  refine ⟨_, has_modify.mpr ⟨p, hp, rfl⟩, ?_⟩
  split
  · exact hf p hp ‹_›
  · rfl

theorem Registered.reparent {n dying parent : Nat} (h : t.Registered n) :
    (processReparentChildren t dying parent).Registered n := by
  obtain ⟨p, hp, rfl⟩ := h
  refine ⟨_, has_reparent.mpr ⟨p, hp, rfl⟩, ?_⟩
  split <;> rfl

theorem has_of_unregister (h : (processUnregister t pid).Has p) : t.Has p := by
  unfold processUnregister at h
  split at h
  · rcases mem_or_eq_of_mem_set h with h | h
    · exact h
    · cases h
  · exact h

theorem has_register (h : processRegister t c = some t') : t'.Has p ↔ t.Has p ∨ p = c := by
  simp only [processRegister, map_eq_some_iff] at h
  obtain ⟨i, hi, rfl⟩ := h
  obtain ⟨hlt, hnone, -⟩ := findIdx?_eq_some_iff_getElem.mp hi
  simp only [Has, mem_iff_getElem?, getElem?_set]
  constructor
  · rintro ⟨j, hj⟩
    split at hj
    · subst j
      simp at hj
      exact .inr hj.symm
    · exact .inl ⟨j, hj⟩
  · rintro (⟨j, hj⟩ | rfl)
    · refine ⟨j, ?_⟩
      -- the slot taken was empty, so it is not the slot of `p`
      rw [if_neg, hj]
      rintro rfl
      rw [getElem?_eq_getElem hlt, some_inj] at hj
      simp [hj] at hnone
    · exact ⟨i, by simp [hlt]⟩

theorem registerNew_cases {r : Option Process} (h : registerNew t fault fill = (r, t')) :
    (r = none ∧ t'.procTable = t.procTable ∧ t.nextPid ≤ t'.nextPid) ∨
      (r = some (fill t.nextPid) ∧
        processRegister { t with nextPid := t.nextPid + 1 } (fill t.nextPid) = some t') := by
  simp only [registerNew, processAllocPid] at h
  split at h
  · cases h
    exact .inl ⟨rfl, rfl, Nat.le_refl _⟩
  split at h
  · cases h
    exact .inl ⟨rfl, rfl, le_succ _⟩
  split at h
  · cases h
    exact .inr ⟨rfl, ‹_›⟩
  · cases h
    exact .inl ⟨rfl, rfl, le_succ _⟩

theorem registerNew_snd_cases (t : ProcTable) (fault : Option Fault) (fill : Nat → Process) :
    ((registerNew t fault fill).1 = none ∧ (registerNew t fault fill).2.procTable = t.procTable ∧
        t.nextPid ≤ (registerNew t fault fill).2.nextPid) ∨
      ((registerNew t fault fill).1 = some (fill t.nextPid) ∧
        processRegister { t with nextPid := t.nextPid + 1 } (fill t.nextPid) = some (registerNew t fault fill).2) :=
  registerNew_cases rfl

theorem has_registerNew {r : Option Process}
    (h : registerNew t fault fill = (r, t')) : t'.Has p ↔ t.Has p ∨ r = some p := by
  obtain ⟨rfl, ht, -⟩ | ⟨rfl, hr⟩ := registerNew_cases h
  · simp [Has, ht]
  · rw [has_register hr, some_inj, eq_comm (a := p)]
    rfl

/-- Numbers are unique and below the next one. -/
structure Valid (t : ProcTable) : Prop where
  pids_lt : ∀ p, t.Has p → p.pid < t.nextPid
  pids_inj : ∀ (i j : Nat) (p q : Process), t.procTable[i]? = some (some p) → t.procTable[j]? = some (some q) →
    p.pid = q.pid → i = j

theorem lookup_of_has (hv : t.Valid) (hp : t.Has p) : processLookup t p.pid = some p := by
  obtain ⟨q, hq⟩ := Registered.lookup ⟨p, hp, rfl⟩
  obtain ⟨hqt, hpid⟩ := has_of_lookup hq
  obtain ⟨i, hi⟩ := mem_iff_getElem?.mp hp
  obtain ⟨j, hj⟩ := mem_iff_getElem?.mp hqt
  obtain rfl := hv.pids_inj j i q p hj hi hpid
  rw [hq, some.inj (some.inj (hj.symm.trans hi))]

theorem valid_empty : Valid {} where
  pids_lt p hp := by simp [Has] at hp
  pids_inj i j p q hi := by
    have := mem_of_getElem? hi
    simp at this

theorem Valid.register (hv : t.Valid) (hc : ∀ p, t.Has p → p.pid ≠ c.pid) (hlt : c.pid < t.nextPid)
    (h : processRegister t c = some t') : t'.Valid := by
  have hhas := fun p => has_register (p := p) h
  simp only [processRegister, map_eq_some_iff] at h
  obtain ⟨i, -, rfl⟩ := h
  constructor
  · intro p hp
    rcases (hhas p).mp hp with hp | rfl
    · exact hv.pids_lt p hp
    · exact hlt
  · intro a b p q ha hb hpq
    -- a slot of the new table is the slot taken, or it is an old slot
    have hold : ∀ {a : Nat} {p : Process}, (t.procTable.set i (some c))[a]? = some (some p) →
        a = i ∧ p = c ∨ t.procTable[a]? = some (some p) := by
      intro a p ha
      rw [getElem?_set] at ha
      split at ha
      · split at ha
        · cases ha
          exact .inl ⟨Eq.symm ‹_›, rfl⟩
        · cases ha
      · exact .inr ha
    obtain ⟨rfl, rfl⟩ | ha' := hold ha <;> obtain ⟨rfl, rfl⟩ | hb' := hold hb
    · rfl
    · exact absurd hpq.symm (hc q (mem_of_getElem? hb'))
    · exact absurd hpq (hc p (mem_of_getElem? ha'))
    · exact hv.pids_inj a b p q ha' hb' hpq

theorem Valid.nextPid_le (hv : t.Valid) (ht : t'.procTable = t.procTable) (hn : t.nextPid ≤ t'.nextPid) : t'.Valid where
  pids_lt p hp := Nat.lt_of_lt_of_le (hv.pids_lt p (by rwa [Has, ← ht])) hn
  pids_inj i j p q hi hj := hv.pids_inj i j p q (ht ▸ hi) (ht ▸ hj)

theorem Valid.registerNew (hv : t.Valid) (hfill : ∀ n, (fill n).pid = n) : (registerNew t fault fill).2.Valid := by
  obtain ⟨-, ht, hn⟩ | ⟨-, hr⟩ := registerNew_snd_cases t fault fill
  · exact hv.nextPid_le ht hn
  have hv' : Valid { t with nextPid := t.nextPid + 1 } := hv.nextPid_le rfl (le_succ _)
  refine hv'.register (fun p hp => ?_) ?_ hr
  · have : p.pid < t.nextPid := hv.pids_lt p hp
    rw [hfill]
    omega
  · rw [hfill]
    exact lt_succ_self _

end ProcTable
end Limnx
