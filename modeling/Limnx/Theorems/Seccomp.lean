import Limnx.Lib.GuardedRun
import Limnx.Syscall

/-! A second `sys_seccomp` ANDs its words into the filter; an AND that leaves no bit at all is read as "no filter", and
    everything passes again. -/

namespace Limnx
open GuardedRun
variable {arch : Arch} {p : Process} {call : SeccompCall} {n : Nat}

def letThrough (arch : Arch) (p : Process) : Set Nat := {n | n < 128 ∧ syscallDispatch arch p n = .handled}

/-- `syscall_dispatch` refuses the call `n`. -/
def Refused (arch : Arch) (p : Process) (n : Nat) : Prop := ∃ kill, syscallDispatch arch p n = .refused kill

theorem handled_iff : syscallDispatch arch p n = .handled ↔ arch.hasHandler n ∧ seccompAllows arch p n := by
  simp only [syscallDispatch]
  cases arch.hasHandler n <;> cases seccompAllows arch p n <;> simp

theorem refused_iff : Refused arch p n ↔ arch.hasHandler n ∧ seccompAllows arch p n = false := by
  simp only [Refused, syscallDispatch]
  cases arch.hasHandler n <;> cases seccompAllows arch p n <;> simp

def Filtered (p : Process) : Prop := p.seccompMask ≠ 0 ∨ p.seccompMaskHi ≠ 0

instance : Decidable (Filtered p) := inferInstanceAs (Decidable (_ ∨ _))

theorem allows_of_not_filtered (h : ¬Filtered p) : seccompAllows arch p n := by
  obtain ⟨h1, h2⟩ : p.seccompMask = 0 ∧ p.seccompMaskHi = 0 := by simpa [Filtered] using h
  simp [seccompAllows, h1, h2]

theorem allows_of_filtered (h : Filtered p) (hn : n < 128) : seccompAllows arch p n ↔
    n = arch.sysExit ∨ n = arch.sysRtSigreturn ∨
      if n < 64 then p.seccompMask.getLsbD n = true else p.seccompMaskHi.getLsbD (n - 64) := by
  have hf : (p.seccompMask != 0 || p.seccompMaskHi != 0) := by simpa [Filtered] using h
  simp only [seccompAllows, hf, Bool.true_and, if_pos hn]
  by_cases he : n = arch.sysExit
  · simp [he]
  by_cases hr : n = arch.sysRtSigreturn
  · simp [hr]
  have hsub : (n != arch.sysExit && n != arch.sysRtSigreturn) := by simp [he, hr]
  split <;> simp [he, hr]

theorem sysSeccomp_of_filtered (call : SeccompCall) (h : Filtered p) : (sysSeccomp p call).seccompMask = p.seccompMask &&& call.mask ∧
    (sysSeccomp p call).seccompMaskHi = p.seccompMaskHi &&& call.maskHi := by
  have hf : (p.seccompMask != 0 || p.seccompMaskHi != 0) := by simpa [Filtered] using h
  simp only [sysSeccomp, hf, if_true]
  split <;> exact ⟨rfl, rfl⟩

def Unfiltered (arch : Arch) (p : Process) : Prop := ∀ n, n < 128 → arch.hasHandler n → seccompAllows arch p n

theorem unfiltered_iff : Unfiltered arch p ↔ ∀ n < 128, ¬Refused arch p n := by
  simp only [refused_iff, Unfiltered, not_and, Bool.not_eq_false]

/-- The call leaves a bit in the filter, or the filter stops no call there is. -/
def KeepsFilter (arch : Arch) (p : Process) (call : SeccompCall) : Prop :=
  p.seccompMask &&& call.mask ≠ 0 ∨ p.seccompMaskHi &&& call.maskHi ≠ 0 ∨ Unfiltered arch p

theorem seccompAllows_of_sysSeccomp
    (hbit : p.seccompMask &&& call.mask ≠ 0 ∨ p.seccompMaskHi &&& call.maskHi ≠ 0) (hn : n < 128)
    (h : seccompAllows arch (sysSeccomp p call) n) : seccompAllows arch p n := by
  have hf : Filtered p := by
    refine hbit.imp (fun h1 h0 => h1 ?_) fun h1 h0 => h1 ?_ <;> simp [h0]
  obtain ⟨hmask, hhi⟩ := sysSeccomp_of_filtered call hf
  have hf' : Filtered (sysSeccomp p call) := by rwa [Filtered, hmask, hhi]
  rw [allows_of_filtered hf' hn, hmask, hhi] at h
  rw [allows_of_filtered hf hn]
  refine h.imp_right (Or.imp_right fun h => ?_)
  split at h <;> simp_all

theorem letThrough_subset_iff : letThrough arch (sysSeccomp p call) ⊆ letThrough arch p ↔ KeepsFilter arch p call := by
  constructor
  · intro hsub
    by_cases hbit : p.seccompMask &&& call.mask ≠ 0 ∨ p.seccompMaskHi &&& call.maskHi ≠ 0
    · exact or_assoc.mp (.inl hbit)
    refine .inr (.inr fun n hn hh => ?_)
    by_cases hf : Filtered p
    · -- the words have become zero, so the call `n` passes afterwards
      obtain ⟨hmask, hhi⟩ := sysSeccomp_of_filtered call hf
      have hopen : ¬Filtered (sysSeccomp p call) := by rwa [Filtered, hmask, hhi]
      exact (handled_iff.mp (hsub ⟨hn, handled_iff.mpr ⟨hh, allows_of_not_filtered hopen⟩⟩).2).2
    · exact allows_of_not_filtered hf
  · rintro hk n ⟨hn, hh⟩
    obtain ⟨hh, ha⟩ := handled_iff.mp hh
    refine ⟨hn, handled_iff.mpr ⟨hh, ?_⟩⟩
    rcases or_assoc.mpr hk with hbit | hopen
    · exact seccompAllows_of_sysSeccomp hbit hn ha
    · exact hopen n hn hh

theorem Refused.of_subset {q : Process} (hsub : letThrough arch q ⊆ letThrough arch p) (hn : n < 128)
    (h : Refused arch p n) : Refused arch q n := by
  obtain ⟨hh, ha⟩ := refused_iff.mp h
  refine refused_iff.mpr ⟨hh, Bool.eq_false_iff.mpr fun hq => ?_⟩
  have := (handled_iff.mp (hsub ⟨hn, handled_iff.mpr ⟨hh, hq⟩⟩).2).2
  simp [ha] at this

theorem letThrough_run_subset {calls : List SeccompCall} (h : Guarded sysSeccomp (KeepsFilter arch) p calls) :
    letThrough arch (run sysSeccomp p calls) ⊆ letThrough arch p := by
  induction calls generalizing p with
  | nil => exact subset_rfl
  | cons call calls ih => exact (ih h.2).trans (letThrough_subset_iff.mpr h.1)

theorem guarded_of_steps {calls : List SeccompCall} (h : ∀ before call after, calls = before ++ call :: after →
      letThrough arch (run sysSeccomp p (before ++ [call])) ⊆ letThrough arch (run sysSeccomp p before)) :
    Guarded sysSeccomp (KeepsFilter arch) p calls := by
  induction calls generalizing p with
  | nil => trivial
  | cons c cs ih =>
    refine ⟨letThrough_subset_iff.mp (h [] c cs rfl), ih fun before call after hcs => ?_⟩
    exact h (c :: before) call after (by rw [hcs, List.cons_append])

/-- Along any run of `sys_seccomp` calls, the numbers below 128 that are let through never grow, and what is refused
    stays refused, exactly when each call keeps the filter. -/
theorem seccomp_narrows_iff (arch : Arch) (p : Process) (calls : List SeccompCall) :
    ((∀ before call after, calls = before ++ call :: after →
        letThrough arch (run sysSeccomp p (before ++ [call])) ⊆ letThrough arch (run sysSeccomp p before)) ∧
      ∀ before between after, calls = before ++ between ++ after → ∀ n < 128,
        Refused arch (run sysSeccomp p before) n → Refused arch (run sysSeccomp p (before ++ between)) n) ↔
      Guarded sysSeccomp (KeepsFilter arch) p calls := by
  constructor
  · exact fun h => guarded_of_steps h.1
  · refine fun h => ⟨?_, ?_⟩
    · rintro before call after rfl
      rw [run_append]
      exact letThrough_subset_iff.mpr (guarded_append.mp h).2.1
    · rintro before between after rfl n hn href
      rw [run_append]
      rw [List.append_assoc, guarded_append, guarded_append] at h
      exact href.of_subset (letThrough_run_subset h.2.1) hn

/-- A filter that allows only `read`, then a call that allows only `write`: `open`, refused after the first
    call, is let through after the second. -/
theorem seccomp_disjoint_masks_open_all :
    Refused .x86_64 (run sysSeccomp {} [⟨1, 0, 0⟩]) 2 ∧
      2 ∈ letThrough .x86_64 (run sysSeccomp {} [⟨1, 0, 0⟩, ⟨2, 0, 0⟩]) ∧
      ¬KeepsFilter .x86_64 (run sysSeccomp {} [⟨1, 0, 0⟩]) ⟨2, 0, 0⟩ := by
  refine ⟨⟨false, by decide⟩, ⟨by decide, by decide⟩, ?_⟩
  rintro (h | h | h)
  · exact h (by decide)
  · exact h (by decide)
  · exact absurd (h 2 (by decide) (by decide)) (by decide)

end Limnx
