import Limnx.Futex
import Limnx.Lib.GuardedRun

/-! Wakes go to waiters, and none of them is lost. -/

namespace Limnx
open Function List GuardedRun

namespace FutexSys
variable {s : FutexSys} {p i j t : Nat} {c : FutexWake}

/-- Who waits for `p` in slot `j` expects the value that the word has. -/
def Fresh (s : FutexSys) (p j : Nat) : Prop := ∀ w, s.waiters j = some w → w.physAddr = p → w.expected = s.word p

/-- So it is in the slots that a `futex_wake` has passed. -/
def Passed (s : FutexSys) : Prop := ∀ t c, s.calls t = some c → c.still → ∀ j < c.i, s.Fresh c.physAddr j

theorem Fresh.setWaiter {o : Option FutexWaiter} (h : j ≠ i → s.Fresh p j)
    (ho : ∀ w ∈ o, w.expected = s.word w.physAddr) : (s.setWaiter i o).Fresh p j := by
  intro w hw hp
  simp only [FutexSys.setWaiter] at hw
  obtain rfl | hne := eq_or_ne j i
  · rw [update_self] at hw
    exact hp ▸ ho w hw
  · rw [update_of_ne hne] at hw
    exact h hne w hw hp

theorem Passed.setCall (h : s.Passed) {o : Option FutexWake}
    (ho : ∀ c ∈ o, c.still → ∀ j < c.i, s.Fresh c.physAddr j) : (s.setCall t o).Passed := by
  intro u c hc
  simp only [FutexSys.setCall] at hc
  obtain rfl | hne := eq_or_ne u t
  · rw [update_self] at hc
    exact ho c hc
  · rw [update_of_ne hne] at hc
    exact h u c hc

theorem fresh_of_unmatched (h : ¬(s.waiters j).any (·.physAddr = p)) : s.Fresh p j := by
  intro w hw hp
  simp [hw, hp] at h

theorem Passed.futexWake (h : s.Passed) (hc : s.calls t = some c) : (s.futexWake t c).2.Passed := by
  unfold FutexSys.futexWake
  split
  next j hnext =>
    have hgone : (s.setWaiter j none).Passed := fun u d hd hstill k hk => .setWaiter (fun _ => h u d hd hstill k hk) nofun
    refine hgone.setCall fun d hd hstill k hk => .setWaiter (fun hne => ?_) nofun
    cases hd
    by_cases hki : k < c.i
    · exact h t c hc hstill k hki
    -- between `i` and `j` nobody waits for the word
    unfold nextWaiter at hnext
    split at hnext
    · have hkj : k < j := Nat.lt_of_le_of_ne (Nat.lt_succ_iff.mp hk) hne
      exact fresh_of_unmatched (by simpa using (find?_range'_eq_some.mp hnext).2.2 k (Nat.not_lt.mp hki) hkj)
    · cases hnext
  · exact h.setCall nofun

theorem Passed.step (h : s.Passed) (op : FutexOp) : (s.step op).Passed := by
  unfold FutexSys.step react
  cases op with
  | store p v =>
    intro t d hd hstill j hj w hw hp
    obtain ⟨c, hc, rfl⟩ := Option.map_eq_some_iff.mp hd
    obtain ⟨hc', hsame⟩ := Bool.and_eq_true_iff.mp hstill
    refine (h t c hc hc' j hj w hw hp).trans ?_
    obtain hne | rfl : c.physAddr ≠ p ∨ v = s.word p := by simpa using hsame
    · exact (update_of_ne hne ..).symm
    · exact (congrFun (update_eq_self p s.word) c.physAddr).symm
  | wait t p expected =>
    dsimp only [futexWait]
    split_ifs with hp hword
    · exact h
    · exact h
    split
    · exact h
    · refine fun u c hc hstill j hj => .setWaiter (fun _ => h u c hc hstill j hj) fun w hw => ?_
      cases hw
      exact (Classical.not_not.mp hword).symm
  | wake t p maxWake =>
    dsimp only
    split_ifs
    · exact h
    · exact h
    · refine h.setCall fun c hc _ j hj => ?_
      cases hc
      exact absurd hj (Nat.not_lt_zero j)
  | turn t =>
    dsimp only
    split
    · exact h
    · exact h.futexWake ‹_›

/-- No wake-up is lost: when `futex_wake` returns fewer threads than it may wake and the word is still as when it was
    called, whoever waits for the word expects its value. -/
theorem no_wake_lost {word : Nat → U32} {ops : List FutexOp} {r : Int} (hs : s = run step { word } ops)
    (hc : s.calls t = some c) (hstill : c.still) (hr : (s.react (.turn t)).1 = some r) (hlt : r < c.maxWake)
    (hj : j < futexMaxWaiters) : s.Fresh c.physAddr j := by
  have h : s.Passed := hs ▸ run_invariant (fun _ op h => h.step op) nofun
  by_cases hji : j < c.i
  · exact h t c hc hstill j hji
  simp only [react, hc, futexWake] at hr
  split at hr
  · cases hr
  next hnext =>
    cases hr
    rw [nextWaiter, if_pos (by omega)] at hnext
    exact fresh_of_unmatched (by simpa using find?_range'_eq_none.mp hnext j (by omega) (by omega))

/-- Thread 5 comes when the word has changed, and takes the slot of the first thread that is woken. -/
theorem no_wake_lost_late : (run step { word := fun _ => 0 } [.wait 1 8 0, .wait 3 8 0, .store 8 1, .wake 2 8 9, .turn 2,
    .wait 5 8 1, .turn 2]).Fresh 8 0 :=
  no_wake_lost (t := 2) (c := ⟨8, 9, 2, 2, true⟩) (r := 2) rfl rfl rfl rfl (by decide) (by decide)

end FutexSys
end Limnx
