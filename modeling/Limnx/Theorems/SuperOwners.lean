import Limnx.Lib.GuardedRun
import Limnx.Theorems.Registry

/-! A step changes one supervisor in use at most, and keeps its texts unless it stops it (`supervisor_step`), but only
    `sys_super_stop` asks who its owner is. -/

open Option

namespace Limnx
open GuardedRun ProcTable Kernel List
variable {k : Kernel} {proc : Process} {env : Env} {sv sv' : Supervisor} {T T' T'' : List Supervisor} {pid s i : Nat}

def OnlyAt (j : Nat) (T T' : List Supervisor) : Prop := ∀ s ≠ j, T'[s]? = T[s]?

theorem OnlyAt.refl (T : List Supervisor) : OnlyAt i T T := fun _ _ => rfl

theorem OnlyAt.trans (h : OnlyAt i T T') (h' : OnlyAt i T' T'') : OnlyAt i T T'' := fun s hs => (h' s hs).trans (h s hs)

theorem OnlyAt.set : OnlyAt i T (T.set i sv) := fun _ hs => getElem?_set_ne hs.symm

def Supervisor.path? (sv : Supervisor) (i : Nat) : Option CStr :=
  ((sv.children[i]?).filter (·.used)).map (·.elfPath)

theorem Supervisor.path?_eq {p : CStr} :
    sv.path? i = some p ↔ ∃ ch : SuperChild, sv.children[i]? = some ch ∧ ch.used ∧ ch.elfPath = p := by
  simp [Supervisor.path?, and_assoc]

structure Supervisor.Kept (sv sv' : Supervisor) : Prop where
  used : sv.used = true → sv'.used = true
  name : sv'.name = sv.name
  path : ∀ i p, sv.path? i = some p → sv'.path? i = some p

theorem Supervisor.Kept.refl (sv : Supervisor) : sv.Kept sv := ⟨id, rfl, fun _ _ => id⟩

theorem Supervisor.Kept.trans {sv'' : Supervisor} (h : sv.Kept sv') (h' : sv'.Kept sv'') : sv.Kept sv'' :=
  ⟨h'.used ∘ h.used, h'.name.trans h.name, fun i p hp => h'.path i p (h.path i p hp)⟩

theorem Supervisor.Kept.modify {g : SuperChild → SuperChild} (hu : sv'.used = sv.used) (hn : sv'.name = sv.name)
    (hc : sv'.children = sv.children.modify i g)
    (hg : ∀ ch, sv.children[i]? = some ch → ch.used → (g ch).used ∧ (g ch).elfPath = ch.elfPath) : sv.Kept sv' := by
  refine ⟨(hu ▸ ·), hn, fun j p hp => ?_⟩
  obtain ⟨ch, hch, hused, rfl⟩ := path?_eq.mp hp
  rw [path?_eq, hc, getElem?_modify, hch]
  obtain rfl | hij := eq_or_ne i j
  · exact ⟨g ch, by simp, hg ch hch hused⟩
  · exact ⟨ch, by simp [hij], hused, rfl⟩

structure KeptAt (j : Nat) (T T' : List Supervisor) : Prop where
  only : OnlyAt j T T'
  kept : ∀ sv, T[j]? = some sv → sv.used = true → ∃ sv', T'[j]? = some sv' ∧ sv.Kept sv'

theorem KeptAt.refl (T : List Supervisor) : KeptAt i T T := ⟨.refl T, fun sv h _ => ⟨sv, h, .refl sv⟩⟩

theorem KeptAt.trans (h : KeptAt i T T') (h' : KeptAt i T' T'') : KeptAt i T T'' := by
  refine ⟨h.only.trans h'.only, fun sv hsv hused => ?_⟩
  obtain ⟨sv', hsv', hkept⟩ := h.kept sv hsv hused
  obtain ⟨sv'', hsv'', hkept'⟩ := h'.kept sv' hsv' (hkept.used hused)
  exact ⟨sv'', hsv'', hkept.trans hkept'⟩

theorem KeptAt.set (h : T[i]? = some sv) (hk : sv.Kept sv') : KeptAt i T (T.set i sv') := by
  refine ⟨.set, fun sv1 hsv1 _ => ⟨sv', ?_, ?_⟩⟩
  · obtain ⟨hlt, -⟩ := List.getElem?_eq_some_iff.mp h
    rw [getElem?_set_self hlt]
  · rwa [← some_inj.mp (h.symm.trans hsv1)]

theorem restartChild_kept : KeptAt s k.supervisors (supervisorRestartChild proc env s k i).supervisors := by
  unfold supervisorRestartChild
  split
  · exact .refl _
  rename_i sv hsv
  split
  · exact .refl _
  split
  · exact .refl _
  split
  · exact .refl _
  · exact .set hsv (.modify rfl rfl rfl fun ch _ hused => ⟨hused, rfl⟩)

theorem restartChildren_kept (is : List Nat) :
    KeptAt s k.supervisors (is.foldl (supervisorRestartChild proc env s) k).supervisors := by
  induction is generalizing k with
  | nil => exact .refl _
  | cons i is ih => exact restartChild_kept.trans ih

theorem supervisor?_eq : k.supervisor? s = some sv ↔ k.supervisors[s]? = some sv ∧ sv.used := filter_eq_some_iff

theorem create_kept (k : Kernel) (pid : Nat) (name : CStr) :
    ∃ j, KeptAt j k.supervisors (supervisorCreate k pid name).2.supervisors ∧
      ∀ sv, k.supervisors[j]? = some sv → sv.used = false := by
  unfold supervisorCreate
  split
  · exact ⟨k.supervisors.length, .refl _, by simp⟩
  rename_i j hj
  obtain ⟨hlt, hfree, -⟩ := findIdx?_eq_some_iff_getElem.mp hj
  have hnot : ∀ sv, k.supervisors[j]? = some sv → sv.used = false := fun sv hsv => by
    rw [← some_inj.mp ((getElem?_eq_getElem hlt).symm.trans hsv)]
    simpa using hfree
  exact ⟨j, ⟨fun s hs => by simp [hs.symm], fun sv hsv hused => nomatch (hnot sv hsv).symm.trans hused⟩, hnot⟩

theorem addChild_kept {path : CStr} {nsId caps : U64} :
    KeptAt s k.supervisors (supervisorAddChild k s path nsId caps).2.supervisors := by
  unfold supervisorAddChild
  split
  · exact .refl _
  rename_i sv hsv
  split
  · exact .refl _
  rename_i j hj
  obtain ⟨hlt, hfree, -⟩ := findIdx?_eq_some_iff_getElem.mp hj
  refine .set (supervisor?_eq.mp hsv).1 (.modify rfl rfl rfl fun ch hch hused => ?_)
  rw [getElem?_eq_getElem hlt] at hch
  simp [some_inj.mp hch, hused] at hfree

theorem setPolicy_kept {policy : BitVec 8} : KeptAt s k.supervisors (supervisorSetPolicy k s policy).2.supervisors := by
  unfold supervisorSetPolicy
  split
  · exact .refl _
  rename_i sv hsv
  split
  · exact .refl _
  · exact .set (supervisor?_eq.mp hsv).1 ⟨id, rfl, fun _ _ => id⟩

theorem start_kept : KeptAt s k.supervisors (supervisorStart k proc env s).2.supervisors := by
  unfold supervisorStart
  split
  · exact .refl _
  · exact restartChildren_kept _

theorem countRestart_kept (now : U64) : sv.Kept (countRestart sv now) := by
  unfold countRestart
  split <;> exact ⟨id, rfl, fun _ _ => id⟩

theorem onExit_kept (k : Kernel) (proc : Process) (env : Env) (pid : Nat) (status : U32) :
    ∃ j, KeptAt j k.supervisors (supervisorOnExit k proc env pid status).supervisors ∧
      ∀ sv, k.supervisors[j]? = some sv → sv.children.any (·.isPid pid) := by
  have hsame : ∃ j, KeptAt j k.supervisors k.supervisors ∧
      ∀ sv, k.supervisors[j]? = some sv → sv.children.any (·.isPid pid) :=
    ⟨k.supervisors.length, .refl _, by simp⟩
  unfold supervisorOnExit
  split
  · exact hsame
  split
  · exact hsame
  rename_i j hj
  obtain ⟨hlt, hfound, -⟩ := findIdx?_eq_some_iff_getElem.mp hj
  split
  · exact hsame
  rename_i svj hsvj
  have hcount := KeptAt.set hsvj (countRestart_kept env.now)
  refine ⟨j, ?_, fun sv hsv => ?_⟩
  · dsimp only
    split
    · exact hcount
    split
    · cases (countRestart svj env.now).children.findIdx? (·.isPid pid) with
      | none => exact hcount
      | some c => exact hcount.trans (restartChild_kept (k := { procs := _, supervisors := _ }))
    · exact hcount.trans (restartChildren_kept (k := { procs := _, supervisors := _ }) _)
  · rw [← some_inj.mp ((getElem?_eq_getElem hlt).symm.trans hsv)]
    exact (Bool.and_eq_true_iff.mp hfound).2

/-- The operation of a process can change the supervisor in slot `j`: a call with its number, by the owner if it is to be
    stopped, or the end of one of its children. -/
def Acts (j : Nat) (sv : Supervisor) (pid : Nat) : KernelOp → Prop
  | .superAdd superId _ _ _ | .superSetPolicy superId _ | .superStart superId _ => (superId.setWidth 32).toNat = j
  | .superStop _ _ => sv.ownerPid = pid
  | .exit _ _ => sv.children.any (·.isPid pid) = true
  | _ => False

/-- The owner stops supervisor `s`. -/
def Stops (s : Nat) (k : Kernel) : Nat × KernelOp → Prop
  | (pid, .superStop superId _) =>
    (superId.setWidth 32).toNat = s ∧ ∃ sv, k.supervisor? s = some sv ∧ sv.ownerPid = pid
  | _ => False

theorem supervisor_step (k : Kernel) (pid : Nat) (op : KernelOp) :
    ∃ j, OnlyAt j k.supervisors (k.step (pid, op)).supervisors ∧
      (∀ sv, k.supervisor? j = some sv → Acts j sv pid op) ∧
      (¬Stops j k (pid, op) → KeptAt j k.supervisors (k.step (pid, op)).supervisors) := by
  have hkept {j T} (h : KeptAt j k.supervisors T) (ha : ∀ sv, k.supervisor? j = some sv → Acts j sv pid op) :
      ∃ j, OnlyAt j k.supervisors T ∧ (∀ sv, k.supervisor? j = some sv → Acts j sv pid op) ∧
        (¬Stops j k (pid, op) → KeptAt j k.supervisors T) := ⟨j, h.only, ha, fun _ => h⟩
  have hsame := hkept (.refl (i := k.supervisors.length) _) (by simp [supervisor?_eq])
  unfold step
  cases hl : processLookup k.procs pid with
  | none => exact hsame
  | some proc =>
    obtain rfl := (has_of_lookup hl).2
    cases op with
    | setcap | setuid | fork | exec | execve => exact hsame
    | reap =>
      simp only [call]
      split <;> exact hsame
    | superCreate name =>
      simp only [call, sysSuperCreate]
      split
      · exact hsame
      obtain ⟨j, hcreate, hfree⟩ := create_kept k proc.pid _
      refine hkept hcreate fun sv hsv => ?_
      obtain ⟨hget, hused⟩ := supervisor?_eq.mp hsv
      cases (hfree sv hget).symm.trans hused
    | superAdd superId path nsId caps =>
      simp only [call, sysSuperAdd]
      split
      · exact hsame
      · exact hkept addChild_kept fun _ _ => rfl
    | superSetPolicy superId policy => exact hkept setPolicy_kept fun _ _ => rfl
    | superStart superId env => exact hkept start_kept fun _ _ => rfl
    | superStop superId env =>
      simp only [call, sysSuperStop, supervisorStop]
      split
      · exact hsame
      rename_i sv hsv
      split
      · exact hsame
      rename_i howner
      refine ⟨_, .set, fun sv' hsv' => ?_, fun hnot => absurd ⟨rfl, sv, hsv, not_not.mp howner⟩ hnot⟩
      obtain rfl := some_inj.mp (hsv.symm.trans hsv')
      exact not_not.mp howner
    | exit status env =>
      obtain ⟨j, hexit, hchild⟩ := onExit_kept { k with procs := processReparentChildren k.procs proc.pid 1 } proc env
        proc.pid (status.setWidth 32)
      exact hkept hexit fun sv hsv => hchild sv (supervisor?_eq.mp hsv).1

/-- The calls that add a child, set the policy and start the children are made by the owner. -/
def ByOwner (k : Kernel) : Nat × KernelOp → Prop
  | (pid, .superAdd superId _ _ _) | (pid, .superSetPolicy superId _) | (pid, .superStart superId _) =>
    ∀ sv, k.supervisor? (superId.setWidth 32).toNat = some sv → sv.ownerPid = pid
  | _ => True

/-- In a run of such calls, a supervisor in use is changed by its owner or by the end of one of its children only. -/
theorem only_owner_controls {ops : List (Nat × KernelOp)} {op : KernelOp}
    (h : Guarded step ByOwner k (ops ++ [(pid, op)])) (hsv : (run step k ops).supervisor? s = some sv) :
    (run step k (ops ++ [(pid, op)])).supervisors[s]? = some sv ∨ sv.ownerPid = pid ∨
      ∃ status env, op = .exit status env ∧ sv.children.any (·.isPid pid) = true := by
  rw [guarded_append, guarded_cons] at h
  obtain ⟨-, hop, -⟩ := h
  rw [run_append, run_cons, run_nil]
  obtain ⟨j, honly, hacts, -⟩ := supervisor_step (run step k ops) pid op
  obtain rfl | hs := eq_or_ne s j
  · right
    have hact := hacts sv hsv
    cases op with
    | superAdd | superSetPolicy | superStart => exact .inl (hop sv (hact ▸ hsv))
    | superStop => exact .inl hact
    | exit status env => exact .inr ⟨status, env, rfl, hact⟩
    | _ => exact hact.elim
  · exact .inl ((honly s hs).trans (supervisor?_eq.mp hsv).1)

def twoProcs : Kernel :=
  { procs := { procTable := [some { pid := 1 }, some { pid := 2 }], nextPid := 3 }
    supervisors := [{ used := true, ownerPid := 1 }] }

def policyThenStop : List (Nat × KernelOp) :=
  [(1, .superSetPolicy 0 1)] ++ [(2, .superStop 0 ⟨0, fun _ => none, fun _ => false⟩)]

/-- Process 1 sets the policy of its supervisor, which process 2 then cannot stop. -/
theorem only_owner_controls_stop : ∃ sv, sv.policy = .oneForAll ∧
    (run step twoProcs [(1, .superSetPolicy 0 1)]).supervisor? 0 = some sv ∧
      (run step twoProcs policyThenStop).supervisors[0]? = some sv := by
  have h : Guarded step ByOwner twoProcs policyThenStop := by
    refine ⟨fun sv hsv => ?_, trivial, trivial⟩
    cases hsv
    rfl
  refine ⟨_, rfl, rfl, (only_owner_controls h rfl).resolve_right ?_⟩
  rintro (h | ⟨_, _, h, -⟩) <;> cases h

/-- Process 2 sets the policy of the supervisor of process 1. -/
theorem policy_set_by_other :
    (twoProcs.supervisor? 0).map (·.policy) = some .oneForOne ∧
      ((twoProcs.step (2, .superSetPolicy 0 1)).supervisor? 0).map (fun sv => (sv.ownerPid, sv.policy)) =
        some (1, .oneForAll) := by
  decide

end Limnx
