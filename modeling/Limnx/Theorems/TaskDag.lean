import Mathlib.Data.Fintype.EquivFin
import Limnx.Lib.Acyclic
import Limnx.Lib.GuardedRun
import Limnx.TaskGraph

/-! Dependencies stay acyclic. -/

namespace Limnx

open Relation Acyclic GuardedRun TaskTable List Function

namespace TaskTable

variable {s s' : TaskTable} {i t : Fin maxTasks} {id taskId depId : U32} {x : WorkflowTask} {pid : Nat}
  {n : Nat}

theorem findTask_some (h : s.findTask id = some i) : (s.tasks i).used ∧ (s.tasks i).id = id := by
  simpa using find?_some h

def Distinct (s : TaskTable) : Prop :=
  ∀ i j, (s.tasks i).used = true → (s.tasks j).used = true → (s.tasks i).id = (s.tasks j).id → i = j

theorem Distinct.findTask (h : s.Distinct) (hi : (s.tasks i).used) : s.findTask (s.tasks i).id = some i := by
  have hsome : (s.findTask (s.tasks i).id).isSome := by
    rw [TaskTable.findTask, find?_isSome]
    exact ⟨i, mem_finRange i, by simp [hi]⟩
  obtain ⟨j, hj⟩ := Option.isSome_iff_exists.mp hsome
  obtain ⟨hused, hid⟩ := findTask_some hj
  rw [hj, h j i hused hi hid]

theorem set_tasks_self (t : WorkflowTask) : (s.set i t).tasks i = t := update_self ..

theorem set_tasks_ne {j : Fin maxTasks} (t : WorkflowTask) (h : j ≠ i) : (s.set i t).tasks j = s.tasks j :=
  update_of_ne h ..

def newTask (s : TaskTable) (name : CStr) (nsId : U32) (ownerPid : Nat) : WorkflowTask :=
  { used := true, id := s.nextTaskId, ownerPid, nsId, name := name.take (taskNameMax - 1) }

theorem create_cases (s : TaskTable) (name : CStr) (nsId : U32) (ownerPid : Nat) :
    (s.taskgraphCreate name nsId ownerPid).2 = s ∨
      ∃ i, (s.tasks i).used = false ∧ (s.taskgraphCreate name nsId ownerPid).2 =
        { s.set i (s.newTask name nsId ownerPid) with nextTaskId := s.nextTaskId + 1 } := by
  unfold taskgraphCreate
  split
  next i hi => exact .inr ⟨i, by simpa using find?_some hi, rfl⟩
  · exact .inl rfl

theorem record_cases (s : TaskTable) (t : Fin maxTasks) (taskId depId : U32) :
    ((s.dependRecord t taskId depId).2 = s ∧ s.dependNew t taskId depId ≠ .ok true) ∨
      ((s.dependRecord t taskId depId).2 = s.addDep t depId ∧ s.dependNew t taskId depId = .ok true) := by
  unfold dependRecord
  split
  next e he => exact .inl ⟨rfl, by simp [he]⟩
  rename_i new hnew
  cases new with
  | true => exact .inr ⟨rfl, hnew⟩
  | false => exact .inl ⟨rfl, by simp [hnew]⟩

theorem start_cases (s : TaskTable) (taskId : U32) (pid : Nat) :
    (s.taskgraphStart taskId pid).2 = s ∨
      ∃ t, s.findTask taskId = some t ∧ (s.tasks t).status = .pending ∧ (∀ d ∈ (s.tasks t).deps, s.depDone d) ∧
        (s.taskgraphStart taskId pid).2 = s.set t { s.tasks t with status := .running, workerPid := pid } := by
  unfold taskgraphStart
  split
  · exact .inl rfl
  rename_i t ht
  split
  · exact .inl rfl
  rename_i hpending
  split
  next hall => exact .inr ⟨t, ht, by simpa using hpending, by simpa using hall, rfl⟩
  · exact .inl rfl

theorem complete_cases (s : TaskTable) (taskId result : U32) (pid : Nat) (ns : U32) :
    (s.taskgraphComplete taskId result pid ns).2 = s ∨
      ∃ t, s.findTask taskId = some t ∧ (s.tasks t).completableBy pid ns ∧
        (s.taskgraphComplete taskId result pid ns).2 =
          s.set t { s.tasks t with status := if 0 ≤ result.toInt then .done else .failed, result } := by
  unfold taskgraphComplete
  split
  · exact .inl rfl
  rename_i t ht
  split
  · exact .inl rfl
  next hmay => exact .inr ⟨t, ht, by simpa using hmay, rfl⟩

theorem dependFind_ok {dep : Fin maxTasks} (h : s.dependFind taskId depId pid = .ok (t, dep)) :
    s.findTask taskId = some t ∧ s.findTask depId = some dep ∧ (s.tasks t).ownerPid = pid ∧
      (s.tasks t).status = .pending := by
  unfold dependFind at h
  split at h
  · cases h
  rename_i t' ht
  split at h
  · cases h
  rename_i howner
  split at h
  · cases h
  rename_i hpending
  split at h
  · cases h
  rename_i dep' hdep
  cases h
  exact ⟨ht, hdep, by simpa using howner, by simpa using hpending⟩

theorem dependRefind_ok (h : s.dependRefind taskId depId pid = .ok t) :
    s.findTask taskId = some t ∧ (∃ dep, s.findTask depId = some dep) ∧ (s.tasks t).ownerPid = pid ∧
      (s.tasks t).status = .pending := by
  unfold dependRefind at h
  split at h
  next t' dep ht hdep =>
    split at h
    · cases h
    rename_i howner
    split at h
    · cases h
    rename_i hpending
    cases h
    exact ⟨ht, ⟨dep, hdep⟩, by simpa using howner, by simpa using hpending⟩
  · cases h

theorem dependSlot_ok {tokens : List CapToken} {caps : U32}
    (h : s.dependSlot tokens taskId depId pid caps = .ok t) : s.findTask taskId = some t := by
  unfold dependSlot at h
  split at h
  · cases h
  rename_i t' dep hfind
  split at h
  · split at h
    · exact (dependRefind_ok h).1
    · cases h
  · cases h
    exact (dependFind_ok hfind).1

theorem depend_cases (s : TaskTable) (tokens : List CapToken) (taskId depId : U32) (pid : Nat) (caps : U32) :
    ((s.taskgraphDepend tokens taskId depId pid caps).2 = s ∧
      ∀ t, s.dependSlot tokens taskId depId pid caps = .ok t → s.dependNew t taskId depId ≠ .ok true) ∨
      ∃ t, s.dependSlot tokens taskId depId pid caps = .ok t ∧ s.dependNew t taskId depId = .ok true ∧
        (s.taskgraphDepend tokens taskId depId pid caps).2 = s.addDep t depId := by
  unfold taskgraphDepend
  split
  next e he => exact .inl ⟨rfl, fun t ht => by simp [he] at ht⟩
  rename_i t ht
  rcases s.record_cases t taskId depId with ⟨hs, hnew⟩ | ⟨hs, hnew⟩
  · exact .inl ⟨hs, fun t' ht' => by cases ht.symm.trans ht'; exact hnew⟩
  · exact .inr ⟨t, ht, hnew, hs⟩

/-! ### The relation -/

/-- Task `a` waits for task `b`. -/
def DependsOn (s : TaskTable) (a b : U32) : Prop :=
  ∃ i, (s.tasks i).used = true ∧ (s.tasks i).id = a ∧ b ∈ (s.tasks i).deps

/-- No task waits for itself, be it through others. -/
def NoCycle (s : TaskTable) : Prop := IsAcyclic s.DependsOn

theorem noCycle_set (hused : x.used = (s.tasks i).used) (hid : x.id = (s.tasks i).id)
    (hdeps : x.deps = (s.tasks i).deps) (h : s.NoCycle) : (s.set i x).NoCycle := by
  have hfields : ∀ j, ((s.set i x).tasks j).used = (s.tasks j).used ∧ ((s.set i x).tasks j).id = (s.tasks j).id ∧
      ((s.set i x).tasks j).deps = (s.tasks j).deps := by
    intro j
    obtain rfl | hj := eq_or_ne j i
    · rw [set_tasks_self]
      exact ⟨hused, hid, hdeps⟩
    · rw [set_tasks_ne x hj]
      exact ⟨rfl, rfl, rfl⟩
  refine h.mono fun a b hab => ?_
  unfold DependsOn at hab ⊢
  simpa only [hfields] using hab

theorem noCycle_new {next : U32} (hdeps : x.deps = []) (h : s.NoCycle) :
    ({ s.set i x with nextTaskId := next } : TaskTable).NoCycle := by
  refine h.mono fun a b => ?_
  rintro ⟨j, hused, hid, hb⟩
  obtain rfl | hj := eq_or_ne j i
  · simp [set_tasks_self, hdeps] at hb
  · simp only [set_tasks_ne x hj] at hused hid hb
    exact ⟨j, hused, hid, hb⟩

theorem addDep_edge (hused : (s.tasks t).used) :
    AddsEdge s.DependsOn (s.addDep t depId).DependsOn (s.tasks t).id depId := by
  intro a b
  constructor
  · rintro ⟨j, hj, hid, hb⟩
    obtain rfl | hjt := eq_or_ne j t
    · simp only [addDep, set_tasks_self, mem_append, mem_singleton] at hj hid hb
      rcases hb with hb | rfl
      · exact .inl ⟨j, hj, hid, hb⟩
      · exact .inr ⟨hid.symm, rfl⟩
    · simp only [addDep, set_tasks_ne _ hjt] at hj hid hb
      exact .inl ⟨j, hj, hid, hb⟩
  · rintro (⟨j, hj, hid, hb⟩ | ⟨rfl, rfl⟩)
    · obtain rfl | hjt := eq_or_ne j t
      · exact ⟨j, by simpa [addDep, set_tasks_self] using hj, by simpa [addDep, set_tasks_self] using hid,
          by simp [addDep, set_tasks_self, hb]⟩
      · exact ⟨j, by rwa [addDep, set_tasks_ne _ hjt], by rwa [addDep, set_tasks_ne _ hjt],
          by rwa [addDep, set_tasks_ne _ hjt]⟩
    · exact ⟨t, by simpa [addDep, set_tasks_self] using hused, by simp [addDep, set_tasks_self],
        by simp [addDep, set_tasks_self]⟩

theorem cleanup_used (h : ((s.taskgraphCleanupPid pid).tasks i).used) :
    (s.tasks i).used ∧ (s.taskgraphCleanupPid pid).tasks i = s.tasks i := by
  unfold taskgraphCleanupPid at h ⊢
  simp only at h ⊢
  split at h
  · cases h
  next hkept => exact ⟨h, if_neg hkept⟩

theorem dependsOn_cleanup {a b : U32} (h : (s.taskgraphCleanupPid pid).DependsOn a b) : s.DependsOn a b := by
  obtain ⟨j, hj, hid, hb⟩ := h
  obtain ⟨hused, heq⟩ := cleanup_used hj
  rw [heq] at hid hb
  exact ⟨j, hused, hid, hb⟩

/-- A dependency that the call would record does not lead back to its task. -/
def ClosesNoCycle (s : TaskTable) : TaskCall → Prop
  | .depend taskId depId callerPid callerCaps tokens => ∀ t,
    s.dependSlot tokens taskId depId callerPid callerCaps = .ok t → s.dependNew t taskId depId = .ok true →
      ¬ ReflTransGen s.DependsOn depId taskId
  | _ => True

theorem step_noCycle_iff (h : s.NoCycle) (op : TaskCall) : (s.step op).NoCycle ↔ s.ClosesNoCycle op := by
  cases op with
  | create name ns owner =>
    refine iff_of_true ?_ trivial
    rcases s.create_cases name ns owner with hs | ⟨i, -, hs⟩
    · rwa [step, hs]
    · rw [step, hs]
      exact noCycle_new rfl h
  | depend taskId depId pid caps tokens =>
    rcases s.depend_cases tokens taskId depId pid caps with ⟨hs, hnone⟩ | ⟨t, ht, hnew, hs⟩
    · rw [step, hs]
      exact iff_of_true h fun t ht hnew => absurd hnew (hnone t ht)
    obtain ⟨hused, hid⟩ := findTask_some (dependSlot_ok ht)
    rw [step, hs, NoCycle, (addDep_edge hused).acyclic_iff h, hid]
    exact ⟨fun hno t' _ _ => hno, fun hno => hno t ht hnew⟩
  | start taskId pid =>
    refine iff_of_true ?_ trivial
    rcases s.start_cases taskId pid with hs | ⟨t, -, -, -, hs⟩
    · rwa [step, hs]
    · rw [step, hs]
      exact noCycle_set rfl rfl rfl h
  | complete taskId result pid ns =>
    refine iff_of_true ?_ trivial
    rcases s.complete_cases taskId result pid ns with hs | ⟨t, -, -, hs⟩
    · rwa [step, hs]
    · rw [step, hs]
      exact noCycle_set rfl rfl rfl h
  | cleanup pid => exact iff_of_true (h.mono fun _ _ => dependsOn_cleanup) trivial

structure Numbered (n : Nat) (s : TaskTable) : Prop where
  next : ∃ m ≤ n, s.nextTaskId = BitVec.ofNat 32 (m + 1) ∧ ∀ i, (s.tasks i).used = true → (s.tasks i).id.toNat ≤ m
  distinct : s.Distinct

theorem Numbered.mono {n m : Nat} (h : Numbered n s) (hnm : n ≤ m) : Numbered m s := by
  obtain ⟨k, hk, hnext⟩ := h.next
  exact ⟨⟨k, by omega, hnext⟩, h.distinct⟩

theorem Numbered.of_sub (h : Numbered n s) (hnext : s'.nextTaskId = s.nextTaskId)
    (hsub : ∀ i, (s'.tasks i).used → (s.tasks i).used ∧ (s'.tasks i).id = (s.tasks i).id) : Numbered n s' := by
  obtain ⟨m, hm, hm', hids⟩ := h.next
  refine ⟨⟨m, hm, hnext.trans hm', fun i hi => ?_⟩, fun i j hi hj hij => ?_⟩
  · rw [(hsub i hi).2]
    exact hids i (hsub i hi).1
  · rw [(hsub i hi).2, (hsub j hj).2] at hij
    exact h.distinct i j (hsub i hi).1 (hsub j hj).1 hij

theorem Numbered.set (h : Numbered n s) (hused : x.used = (s.tasks i).used)
    (hid : x.id = (s.tasks i).id) : Numbered n (s.set i x) := by
  refine h.of_sub rfl fun j hj => ?_
  obtain rfl | hji := eq_or_ne j i
  · rw [set_tasks_self] at hj ⊢
    exact ⟨hused ▸ hj, hid⟩
  · rw [set_tasks_ne x hji] at hj ⊢
    exact ⟨hj, rfl⟩

theorem Numbered.new (h : Numbered n s) (hn : n + 1 < 2 ^ 32) (hid : x.id = s.nextTaskId) :
    Numbered (n + 1) { s.set i x with nextTaskId := s.nextTaskId + 1 } := by
  obtain ⟨m, hm, hnext, hids⟩ := h.next
  have hnew : x.id.toNat = m + 1 := by
    rw [hid, hnext, BitVec.toNat_ofNat]
    exact Nat.mod_eq_of_lt (by omega)
  have hold : ∀ j ≠ i, (s.set i x).tasks j = s.tasks j := fun j hj => set_tasks_ne x hj
  refine ⟨⟨m + 1, by omega, ?_, fun j hj => ?_⟩, fun j k hj hk hjk => ?_⟩
  · rw [hnext, BitVec.ofNat_add (m + 1) 1]
    rfl
  · obtain rfl | hji := eq_or_ne j i
    · simp only [set_tasks_self]
      omega
    · simp only [hold j hji] at hj ⊢
      have := hids j hj
      omega
  · -- the new task has a number that no other has
    by_cases hji : j = i
    · by_cases hki : k = i
      · rw [hji, hki]
      subst hji
      simp only [set_tasks_self, hold k hki] at hk hjk
      have := hids k hk
      rw [← hjk] at this
      omega
    · obtain rfl | hki := eq_or_ne k i
      · simp only [set_tasks_self, hold j hji] at hj hjk
        have := hids j hj
        rw [hjk] at this
        omega
      · simp only [hold j hji, hold k hki] at hj hk hjk
        exact h.distinct j k hj hk hjk

def creations : TaskCall → Nat
  | .create .. => 1
  | _ => 0

theorem Numbered.step (h : Numbered n s) (op : TaskCall) (hn : n + creations op < 2 ^ 32) :
    Numbered (n + creations op) (s.step op) := by
  cases op with
  | create name ns owner =>
    rcases s.create_cases name ns owner with hs | ⟨i, -, hs⟩
    · rw [TaskTable.step, hs]
      exact h.mono (Nat.le_add_right ..)
    · rw [TaskTable.step, hs]
      exact h.new hn rfl
  | depend taskId depId pid caps tokens =>
    rcases s.depend_cases tokens taskId depId pid caps with ⟨hs, -⟩ | ⟨t, -, -, hs⟩
    · rwa [TaskTable.step, hs]
    · rw [TaskTable.step, hs]
      exact h.set rfl rfl
  | start taskId pid =>
    rcases s.start_cases taskId pid with hs | ⟨t, -, -, -, hs⟩
    · rwa [TaskTable.step, hs]
    · rw [TaskTable.step, hs]
      exact h.set rfl rfl
  | complete taskId result pid ns =>
    rcases s.complete_cases taskId result pid ns with hs | ⟨t, -, -, hs⟩
    · rwa [TaskTable.step, hs]
    · rw [TaskTable.step, hs]
      exact h.set rfl rfl
  | cleanup pid =>
    refine h.of_sub rfl fun i hi => ?_
    obtain ⟨hused, heq⟩ := cleanup_used hi
    exact ⟨hused, congrArg WorkflowTask.id heq⟩

theorem Numbered.run {ops : List TaskCall} (h : Numbered n s)
    (hn : n + (ops.map creations).sum < 2 ^ 32) : Numbered (n + (ops.map creations).sum) (run TaskTable.step s ops) := by
  induction ops generalizing n s with
  | nil => exact h
  | cons op ops ih =>
    rw [map_cons, sum_cons] at hn ⊢
    rw [run_cons, ← Nat.add_assoc]
    exact ih (h.step op (by omega)) (by omega)

theorem numbered_init : Numbered 0 {} :=
  ⟨⟨0, Nat.le_refl 0, rfl, fun _ h => Bool.noConfusion h⟩, fun _ _ h => Bool.noConfusion h⟩

/-- If a task is pending, none runs or failed, and no dependency was removed, some pending task can be started. -/
def CanGoOn (s : TaskTable) : Prop :=
  (∃ i, (s.tasks i).used = true ∧ (s.tasks i).status = .pending) →
    (∀ i, (s.tasks i).used = true → (s.tasks i).status ≠ .running ∧ (s.tasks i).status ≠ .failed) →
    (∀ i, (s.tasks i).used = true → ∀ d ∈ (s.tasks i).deps, ∃ j, (s.tasks j).used = true ∧ (s.tasks j).id = d) →
    ∃ i, (s.tasks i).used = true ∧ (s.tasks i).status = .pending ∧
      ∀ pid, (s.taskgraphStart (s.tasks i).id pid).1 = 0 ∧
        ((s.taskgraphStart (s.tasks i).id pid).2.tasks i).status = .running

theorem canGoOn (h : s.NoCycle) (hd : s.Distinct) : s.CanGoOn := by
  intro hpending hstill hthere
  -- a pending task that lists no pending task
  obtain ⟨i, ⟨hused, hpend⟩, hlast⟩ := h.exists_last (fun i => (s.tasks i).id) hpending
  have hdone : ∀ d ∈ (s.tasks i).deps, s.depDone d := by
    intro d hmem
    obtain ⟨j, hj, rfl⟩ := hthere i hused d hmem
    have hnot : (s.tasks j).status ≠ .pending := fun hp => hlast j ⟨hj, hp⟩ ⟨i, hused, rfl, hmem⟩
    obtain ⟨hrun, hfail⟩ := hstill j hj
    have hstatus : (s.tasks j).status = .done := by
      cases hs : (s.tasks j).status with
      | done => rfl
      | pending => exact absurd hs hnot
      | running => exact absurd hs hrun
      | failed => exact absurd hs hfail
    simp [depDone, hd.findTask hj, hstatus]
  refine ⟨i, hused, hpend, fun pid => ?_⟩
  unfold taskgraphStart
  simp only [hd.findTask hused, hpend, ne_eq, not_true_eq_false, if_false]
  rw [if_pos (all_eq_true.mpr hdone)]
  exact ⟨rfl, by rw [set_tasks_self]⟩

end TaskTable

/-- Fewer than 2^32 tasks are asked for. The graph stays acyclic exactly if no call records a dependency that already
    waits for its task; and as long as nothing runs, failed or was removed, a pending task can then be started. -/
theorem taskgraph_acyclic_iff (ops : List TaskCall) (hn : (ops.map creations).sum < 2 ^ 32) :
    (∀ pre, pre <+: ops →
      (run step {} pre).NoCycle ∧ (run step {} pre).CanGoOn) ↔
      Guarded step TaskTable.ClosesNoCycle {} ops := by
  have hempty : ({} : TaskTable).NoCycle := by
    intro a ha
    obtain ⟨b, ⟨i, hi, -⟩, -⟩ := TransGen.head'_iff.mp ha
    exact Bool.noConfusion hi
  have hiff : (∀ pre, pre <+: ops → (run step {} pre).NoCycle) ↔ _ := prefixes_iff_guarded (fun _ hs => hs)
    (fun s op hs => (step_noCycle_iff hs op).mp) (fun s op hs => (step_noCycle_iff hs op).mpr) hempty
  constructor
  · exact fun h => hiff.mp fun pre hpre => (h pre hpre).1
  · intro hok pre hpre
    have hacyclic := hiff.mpr hok pre hpre
    obtain ⟨rest, rfl⟩ := hpre
    rw [map_append, sum_append] at hn
    have hbound : 0 + (pre.map creations).sum < 2 ^ 32 := by omega
    have hnum := numbered_init.run hbound
    exact ⟨hacyclic, canGoOn hacyclic hnum.distinct⟩

def pairCalls : List TaskCall := [.create [] 0 7, .create [] 0 7, .depend 2 1 7 0 []]

theorem taskgraph_acyclic_pair : (run step {} pairCalls).NoCycle ∧ (run step {} pairCalls).CanGoOn := by
  have hnone : ∀ i, ((run step {} (pairCalls.take 2)).tasks i).id = 1 →
      ((run step {} (pairCalls.take 2)).tasks i).deps = [] := by decide +kernel
  have hok : Guarded step TaskTable.ClosesNoCycle {} pairCalls := by
    refine ⟨trivial, trivial, fun t _ _ hpath => ?_, trivial⟩
    rcases hpath.cases_head with heq | ⟨b, ⟨i, -, hid, hb⟩, -⟩
    · exact absurd heq (by decide)
    · have hdeps : _ = [] := hnone i hid
      exact absurd (hdeps ▸ hb) not_mem_nil
  exact (taskgraph_acyclic_iff pairCalls (by decide)).mpr hok pairCalls prefix_rfl

def mutualCalls : List TaskCall := [.create [] 0 7, .create [] 0 7, .depend 1 2 7 0 [], .depend 2 1 7 0 []]

/-- Both dependencies are recorded. -/
theorem mutual_dependency : ∃ ops : List TaskCall, (ops.map creations).sum < 2 ^ 32 ∧ ¬ (run step {} ops).NoCycle := by
  have hfirst : (run step {} mutualCalls).DependsOn 1 2 := ⟨⟨0, by decide⟩, by decide +kernel⟩
  have hsecond : (run step {} mutualCalls).DependsOn 2 1 := ⟨⟨1, by decide⟩, by decide +kernel⟩
  exact ⟨mutualCalls, by decide, fun h => h 1 (.tail (.single hfirst) hsecond)⟩

end Limnx
