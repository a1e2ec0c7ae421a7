import Limnx.Theorems.TaskDag
import Limnx.Theorems.TokenHistory

/-! # The order of tasks

`taskgraph_complete` does not look at the status, and the right to depend on a task of another namespace can be lost
before the lock is taken again. -/

namespace Limnx

open GuardedRun List TaskSys WorkflowTask CapToken

def nsName (ns : U32) : CStr :=
  [0x6e, 0x73, 0x2f] ++ (Nat.toDigits 10 ns.toNat).map fun c => UInt8.ofNat c.toNat

/-- The process has the capability for all namespaces, or a token for this one. -/
def XnsRight (tokens : List CapToken) (pid : Nat) (caps ns : U32) : Prop :=
  caps &&& capXnsTask ≠ 0 ∨ capTokenCheck tokens pid capXnsTask (some (nsName ns)) = true

/-- `taskgraph_start` is called for the pending task in slot `i` when all its dependencies are done. -/
def Starts (s : TaskTable) (op : TaskOp) (i : Fin maxTasks) : Prop :=
  (∃ pid, op = .start (s.tasks i).id pid) ∧ (s.tasks i).status = .pending ∧
    ∀ d ∈ (s.tasks i).deps, ∃ j, (s.tasks j).used = true ∧ (s.tasks j).id = d ∧ (s.tasks j).status = .done

/-- `taskgraph_complete` is called for the running task in slot `i`, by someone who may. -/
def Finishes (s : TaskTable) (op : TaskOp) (i : Fin maxTasks) (y : WorkflowTask) : Prop :=
  (s.tasks i).status = .running ∧ (y.status = .done ∨ y.status = .failed) ∧
    ∃ result pid ns, op = .complete (s.tasks i).id result pid ns ∧ (s.tasks i).completableBy pid ns = true

/-- The dependency `d` is recorded on the task in slot `i` within a namespace, or by an owner who holds the right
    to leave it. -/
def MayDepend (s : TaskSys) (op : TaskOp) (i : Fin maxTasks) (d : U32) : Prop :=
  ∃ dep, s.table.findTask d = some dep ∧ ((s.table.tasks dep).nsId = (s.table.tasks i).nsId ∨
    ∃ k c, op = .dependAgain k ∧ s.calls[k]? = some c ∧
      XnsRight s.tokens.tokens (s.table.tasks i).ownerPid c.callerCaps (s.table.tasks dep).nsId)

/-- What a step may do to the task in slot `i`, if it is in use and stays so. -/
structure TaskLaw (s : TaskSys) (op : TaskOp) (i : Fin maxTasks) (y : WorkflowTask) : Prop where
  status : (y.status = (s.table.tasks i).status ∧ y.result = (s.table.tasks i).result) ∨
    (Starts s.table op i ∧ y.status = .running ∧ y.result = (s.table.tasks i).result) ∨ Finishes s.table op i y
  deps : ∀ d ∈ y.deps, d ∈ (s.table.tasks i).deps ∨ MayDepend s op i d

variable {s : TaskSys} {i t : Fin maxTasks} {d : U32} {op : TaskOp} {c : DependCall}

inductive Records (s : TaskSys) (t : Fin maxTasks) (d : U32) : TaskOp → Prop
  | atOnce {taskId : U32} {pid : Nat} {caps : U32} {dep : Fin maxTasks} :
      s.table.findTask d = some dep → (s.table.tasks dep).nsId = (s.table.tasks t).nsId →
      Records s t d (.depend taskId d pid caps)
  | again {k : Nat} {c : DependCall} {dep : Fin maxTasks} : s.calls[k]? = some c → c.granted = true → c.depId = d →
      s.table.findTask d = some dep → (s.table.tasks t).ownerPid = c.callerPid → Records s t d (.dependAgain k)

inductive TableCase (s : TaskSys) : TaskOp → TaskTable → Prop
  | same (op : TaskOp) : TableCase s op s.table
  | create {name : CStr} {ns : U32} {owner : Nat} {i : Fin maxTasks} : (s.table.tasks i).used = false →
      TableCase s (.create name ns owner)
        { s.table.set i (s.table.newTask name ns owner) with nextTaskId := s.table.nextTaskId + 1 }
  | record {op : TaskOp} {t : Fin maxTasks} {d : U32} : Records s t d op →
      TableCase s op (s.table.addDep t d)
  | start {taskId : U32} {pid : Nat} {t : Fin maxTasks} : s.table.findTask taskId = some t →
      (s.table.tasks t).status = .pending → (∀ d ∈ (s.table.tasks t).deps, s.table.depDone d = true) →
      TableCase s (.start taskId pid)
        (s.table.set t { s.table.tasks t with status := .running, workerPid := pid })
  | complete {taskId result : U32} {pid : Nat} {ns : U32} {t : Fin maxTasks} :
      s.table.findTask taskId = some t → (s.table.tasks t).completableBy pid ns = true →
      TableCase s (.complete taskId result pid ns)
        (s.table.set t { s.table.tasks t with status := if 0 ≤ result.toInt then .done else .failed, result })
  | cleanup (pid : Nat) : TableCase s (.cleanup pid) (s.table.taskgraphCleanupPid pid)

theorem depend_tableCase (s : TaskSys) (taskId depId : U32) (pid : Nat) (caps : U32) :
    TableCase s (.depend taskId depId pid caps) (s.depend taskId depId pid caps).table := by
  unfold depend
  split
  · exact .same _
  rename_i t dep hfind
  obtain ⟨-, hdep, -, -⟩ := TaskTable.dependFind_ok hfind
  split
  · exact .same _
  rename_i hns
  rcases s.table.record_cases t taskId depId with ⟨hs, -⟩ | ⟨hs, -⟩
  · simp only [hs]
    exact .same _
  · simp only [hs]
    exact .record (.atOnce hdep (by simpa using hns))

theorem dependCheck_table (s : TaskSys) (k : Nat) : (s.dependCheck k).table = s.table := by
  unfold dependCheck
  split
  · rfl
  split
  · rfl
  · split <;> rfl

theorem dependAgain_tableCase (s : TaskSys) (k : Nat) : TableCase s (.dependAgain k) (s.dependAgain k).table := by
  unfold dependAgain
  split
  · exact .same _
  rename_i c hc
  split
  next hgranted =>
    split
    · exact .same _
    rename_i t hfind
    obtain ⟨-, ⟨dep, hdep⟩, howner, -⟩ := TaskTable.dependRefind_ok hfind
    rcases s.table.record_cases t c.taskId c.depId with ⟨hs, -⟩ | ⟨hs, -⟩
    · simp only [hs]
      exact .same _
    · simp only [hs]
      exact .record (.again hc hgranted rfl hdep howner)
  · exact .same _

theorem tableCase (s : TaskSys) (op : TaskOp) : TableCase s op (s.step op).table := by
  cases op with
  | create name ns owner =>
    unfold step
    rcases s.table.create_cases name ns owner with hs | ⟨i, hfree, hs⟩
    · simp only [hs]
      exact .same _
    · simp only [hs]
      exact .create hfree
  | depend taskId depId pid caps => exact depend_tableCase s taskId depId pid caps
  | dependCheck k =>
    unfold step
    rw [dependCheck_table]
    exact .same _
  | dependAgain k => exact dependAgain_tableCase s k
  | start taskId pid =>
    unfold step
    rcases s.table.start_cases taskId pid with hs | ⟨t, ht, hpending, hdone, hs⟩
    · simp only [hs]
      exact .same _
    · simp only [hs]
      exact .start ht hpending hdone
  | complete taskId result pid ns =>
    unfold step
    rcases s.table.complete_cases taskId result pid ns with hs | ⟨t, ht, hmay, hs⟩
    · simp only [hs]
      exact .same _
    · simp only [hs]
      exact .complete ht hmay
  | cleanup pid => exact .cleanup pid
  | token op => exact .same _

/-- Numbers are given out while nothing in use and no call in progress has them, to namespaces of at most two digits; a
    task is running when completed; no token is taken away while a call relies on it. -/
def TaskGuard (s : TaskSys) : TaskOp → Prop
  | .create _ ns _ => ns.toNat < 100 ∧ (∀ i, (s.table.tasks i).used = true → (s.table.tasks i).id ≠ s.table.nextTaskId) ∧
    ∀ c ∈ s.calls, c.depId ≠ s.table.nextTaskId
  | .complete taskId _ pid ns => ∀ t, s.table.findTask taskId = some t →
    (s.table.tasks t).completableBy pid ns = true → (s.table.tasks t).status = .running
  | .token (.revoke ..) | .token (.cleanup _) => ∀ c ∈ s.calls, c.granted = false
  | _ => True

structure CallInv (s : TaskSys) (c : DependCall) : Prop where
  depNs : ∀ i, (s.table.tasks i).used = true → (s.table.tasks i).id = c.depId → (s.table.tasks i).nsId = c.depNs
  right : c.granted = true → xnsGranted s.tokens.tokens c.callerPid c.callerCaps c.depNs = true

structure TaskInv (s : TaskSys) : Prop where
  distinct : s.table.Distinct
  ns : ∀ i, (s.table.tasks i).used = true → (s.table.tasks i).nsId.toNat < 100
  calls : ∀ c ∈ s.calls, CallInv s c

theorem nsResource_eq {ns : U32} (h : ns.toNat < 100) : nsResource ns = nsName ns := by
  have hall : ∀ n < 100, nsResource (BitVec.ofNat 32 n) = nsName (BitVec.ofNat 32 n) := by decide +kernel
  simpa using hall ns.toNat h

theorem Records.mayDepend (hs : TaskInv s) (h : Records s t d op) : MayDepend s op t d := by
  cases h with
  | atOnce hdep hns => exact ⟨_, hdep, .inl hns⟩
  | @again k c dep hc hgranted hid hdep howner =>
    have hcall := hs.calls c (mem_of_getElem? hc)
    obtain ⟨hused, hdepId⟩ := TaskTable.findTask_some hdep
    have hns := hcall.depNs dep hused (hdepId.trans hid.symm)
    refine ⟨dep, hdep, .inr ⟨k, c, rfl, hc, ?_⟩⟩
    rw [howner, hns]
    have hright := hcall.right hgranted
    unfold xnsGranted at hright
    rw [nsResource_eq (hns ▸ hs.ns dep hused)] at hright
    simpa [XnsRight] using hright

theorem TaskInv.law (hs : TaskInv s) (hok : TaskGuard s op) (hused : (s.table.tasks i).used)
    (hstays : ((s.step op).table.tasks i).used) : TaskLaw s op i ((s.step op).table.tasks i) := by
  have hsame : TaskLaw s op i (s.table.tasks i) := ⟨.inl ⟨rfl, rfl⟩, fun d hd => .inl hd⟩
  have hcase := tableCase s op
  generalize (s.step op).table = u at hcase hstays
  cases hcase with
  | same => exact hsame
  | @create name ns owner j hfree =>
    have hij : i ≠ j := by
      rintro rfl
      simp [hfree] at hused
    simp only [TaskTable.set_tasks_ne _ hij]
    exact hsame
  | @record _ t d hrec =>
    obtain rfl | hit := eq_or_ne i t
    · simp only [TaskTable.addDep, TaskTable.set_tasks_self]
      refine ⟨.inl ⟨rfl, rfl⟩, fun e he => ?_⟩
      rcases mem_append.mp he with he | he
      · exact .inl he
      · rw [mem_singleton.mp he]
        exact .inr (hrec.mayDepend hs)
    · rw [TaskTable.addDep, TaskTable.set_tasks_ne _ hit]
      exact hsame
  | @start taskId pid t ht hpending hdone =>
    obtain rfl | hit := eq_or_ne i t
    · obtain ⟨-, rfl⟩ := TaskTable.findTask_some ht
      simp only [TaskTable.set_tasks_self]
      refine ⟨.inr (.inl ⟨⟨⟨pid, rfl⟩, hpending, fun d hd => ?_⟩, rfl, rfl⟩), fun d hd => .inl hd⟩
      have hd := hdone d hd
      unfold TaskTable.depDone at hd
      split at hd
      next j hj =>
        obtain ⟨hj', hid⟩ := TaskTable.findTask_some hj
        exact ⟨j, hj', hid, by simpa using hd⟩
      · cases hd
    · rw [TaskTable.set_tasks_ne _ hit]
      exact hsame
  | @complete taskId result pid ns t ht hmay =>
    obtain rfl | hit := eq_or_ne i t
    · have hrunning := hok i ht hmay
      obtain ⟨-, rfl⟩ := TaskTable.findTask_some ht
      simp only [TaskTable.set_tasks_self]
      refine ⟨.inr (.inr ⟨hrunning, ?_, result, pid, ns, rfl, hmay⟩), fun d hd => .inl hd⟩
      split
      · exact .inl rfl
      · exact .inr rfl
    · rw [TaskTable.set_tasks_ne _ hit]
      exact hsame
  | cleanup pid =>
    rw [(TaskTable.cleanup_used hstays).2]
    exact hsame

theorem TableCase.used {u : TaskTable} (h : TableCase s op u) :
    (∀ i, (u.tasks i).used → (s.table.tasks i).used ∧ (u.tasks i).id = (s.table.tasks i).id ∧
      (u.tasks i).nsId = (s.table.tasks i).nsId) ∨
    ∃ i name ns owner, op = .create name ns owner ∧
      u = { s.table.set i (s.table.newTask name ns owner) with nextTaskId := s.table.nextTaskId + 1 } := by
  have hset : ∀ (t : Fin maxTasks) (x : WorkflowTask), x.used = (s.table.tasks t).used → x.id = (s.table.tasks t).id →
      x.nsId = (s.table.tasks t).nsId → ∀ i, ((s.table.set t x).tasks i).used →
        (s.table.tasks i).used ∧ ((s.table.set t x).tasks i).id = (s.table.tasks i).id ∧
          ((s.table.set t x).tasks i).nsId = (s.table.tasks i).nsId := by
    intro t x hused hid hns i hi
    obtain rfl | hit := eq_or_ne i t
    · rw [TaskTable.set_tasks_self] at hi ⊢
      exact ⟨hused ▸ hi, hid, hns⟩
    · rw [TaskTable.set_tasks_ne _ hit] at hi ⊢
      exact ⟨hi, rfl, rfl⟩
  cases h with
  | same => exact .inl fun i hi => ⟨hi, rfl, rfl⟩
  | @create name ns owner i _ => exact .inr ⟨i, name, ns, owner, rfl, rfl⟩
  | record | start | complete => exact .inl (hset _ _ rfl rfl rfl)
  | cleanup pid =>
    refine .inl fun i hi => ?_
    obtain ⟨hused, heq⟩ := TaskTable.cleanup_used hi
    exact ⟨hused, congrArg WorkflowTask.id heq, congrArg nsId heq⟩

theorem TaskInv.distinct_step (hs : TaskInv s) (hok : TaskGuard s op) : (s.step op).table.Distinct := by
  have hcase := (tableCase s op).used
  generalize (s.step op).table = u at hcase
  intro j k hj hk hjk
  rcases hcase with hold | ⟨i, name, ns, owner, rfl, rfl⟩
  · rw [(hold j hj).2.1, (hold k hk).2.1] at hjk
    exact hs.distinct j k (hold j hj).1 (hold k hk).1 hjk
  -- the number of the new task is that of no other
  obtain ⟨-, hfresh, -⟩ := hok
  by_cases hji : j = i
  · by_cases hki : k = i
    · rw [hji, hki]
    subst hji
    simp only [TaskTable.set_tasks_self, TaskTable.set_tasks_ne _ hki] at hk hjk
    exact absurd hjk.symm (hfresh k hk)
  · obtain rfl | hki := eq_or_ne k i
    · simp only [TaskTable.set_tasks_self, TaskTable.set_tasks_ne _ hji] at hj hjk
      exact absurd hjk (hfresh j hj)
    · simp only [TaskTable.set_tasks_ne _ hji, TaskTable.set_tasks_ne _ hki] at hj hk hjk
      exact hs.distinct j k hj hk hjk

theorem TaskInv.ns_step (hs : TaskInv s) (hok : TaskGuard s op)
    (hi : ((s.step op).table.tasks i).used) : ((s.step op).table.tasks i).nsId.toNat < 100 := by
  have hcase := (tableCase s op).used
  generalize (s.step op).table = u at hcase hi
  rcases hcase with hold | ⟨j, name, ns, owner, rfl, rfl⟩
  · rw [(hold i hi).2.2]
    exact hs.ns i (hold i hi).1
  obtain rfl | hij := eq_or_ne i j
  · simp only [TaskTable.set_tasks_self]
    exact hok.1
  · simp only [TaskTable.set_tasks_ne _ hij] at hi ⊢
    exact hs.ns i hi

theorem CallInv.depNs_step (hc : CallInv s c) (hmem : c ∈ s.calls) (hok : TaskGuard s op)
    (hi : ((s.step op).table.tasks i).used) (hid : ((s.step op).table.tasks i).id = c.depId) :
    ((s.step op).table.tasks i).nsId = c.depNs := by
  have hcase := (tableCase s op).used
  generalize (s.step op).table = u at hcase hi hid
  rcases hcase with hold | ⟨j, name, ns, owner, rfl, rfl⟩
  · rw [(hold i hi).2.1] at hid
    rw [(hold i hi).2.2]
    exact hc.depNs i (hold i hi).1 hid
  · obtain rfl | hij := eq_or_ne i j
    · simp only [TaskTable.set_tasks_self] at hid
      exact absurd hid.symm (hok.2.2 c hmem)
    · simp only [TaskTable.set_tasks_ne _ hij] at hi hid ⊢
      exact hc.depNs i hi hid

def TokensKept (ts ts' : List CapToken) : Prop :=
  ∀ x, Alive ts x → ∃ y, Alive ts' y ∧ y.targetPid = x.targetPid ∧ y.perms = x.perms ∧ y.resource = x.resource

theorem TokensKept.xnsGranted {ts ts' : List CapToken} {pid : Nat} {caps ns : U32} (h : TokensKept ts ts')
    (hg : xnsGranted ts pid caps ns) : xnsGranted ts' pid caps ns := by
  unfold Limnx.xnsGranted capTokenCheck grantingToken at hg ⊢
  rw [Bool.or_eq_true] at hg ⊢
  refine hg.imp id fun hg => ?_
  rw [find?_isSome] at hg ⊢
  obtain ⟨x, hx, hgrants⟩ := hg
  have hused : x.used := by
    simp only [grants, Bool.and_eq_true] at hgrants
    exact hgrants.1.1.1
  obtain ⟨y, hy, htarget, hperms, hres⟩ := h x ⟨hx, hused⟩
  refine ⟨y, hy.1, ?_⟩
  simpa only [grants, htarget, hperms, hres, hy.2, hused] using hgrants

theorem tokensKept_insert {s s' : TokenSys} {owner target : Nat} {perms : U32} {resource : CStr}
    {birth : Birth} (h : tokenInsert s owner perms target resource birth = some s') : TokensKept s.tokens s'.tokens := by
  obtain ⟨i, old, hi, hold, rfl⟩ := tokenInsert_eq h
  exact fun x hx => ⟨x, (alive_set_free hi hold rfl).mpr (.inl hx), rfl, rfl, rfl⟩

theorem tokensKept_link {ts : List CapToken} {c : Delegation} {newId : U32} :
    TokensKept ts (linkTokens ts c newId) := by
  intro x hx
  unfold linkTokens
  split
  next j hj =>
    obtain ⟨i, hi⟩ := mem_iff_getElem?.mp hx.1
    have hget : (ts.modify j (·.linkTo c))[i]? = some (if j = i then x.linkTo c else x) := by
      rw [getElem?_modify, hi]
      rfl
    refine ⟨_, ⟨mem_of_getElem? hget, ?_⟩, ?_⟩
    · split
      · exact hx.2
      · exact hx.2
    · split <;> exact ⟨rfl, rfl, rfl⟩
  · exact ⟨x, hx, rfl, rfl, rfl⟩

def TaskOp.KeepsTokens : TaskOp → Prop
  | .token (.revoke ..) | .token (.cleanup _) => False
  | _ => True

theorem tokensKept_step {op : TokenOp} (s : TokenSys) (hop : (TaskOp.token op).KeepsTokens) :
    TokensKept s.tokens (s.step op).tokens := by
  have hrefl : TokensKept s.tokens s.tokens := fun x hx => ⟨x, hx, rfl, rfl, rfl⟩
  have hcase := stepCase s op
  generalize s.step op = s' at hcase
  cases hcase with
  | same | begin | full => exact hrefl
  | create _ hins => exact tokensKept_insert hins
  | @created _ _ u _ _ hins | @unlinked _ _ u _ _ hins => exact (tokensKept_insert hins : TokensKept s.tokens u.tokens)
  | link => exact tokensKept_link
  | revoke | cleanup => exact hop.elim

inductive CallCase (s : TaskSys) (c : DependCall) : TaskOp → Prop
  | old {op : TaskOp} : c ∈ s.calls → CallCase s c op
  | new {taskId depId : U32} {pid : Nat} {caps : U32} {dep : Fin maxTasks} : c.granted = false →
      s.table.findTask c.depId = some dep → c.depNs = (s.table.tasks dep).nsId →
      CallCase s c (.depend taskId depId pid caps)
  | granted {k : Nat} {c0 : DependCall} : c0 ∈ s.calls → c = { c0 with granted := true } →
      xnsGranted s.tokens.tokens c0.callerPid c0.callerCaps c0.depNs = true → CallCase s c (.dependCheck k)

theorem depend_callCase {taskId depId : U32} {pid : Nat} {caps : U32}
    (hc : c ∈ (s.depend taskId depId pid caps).calls) : CallCase s c (.depend taskId depId pid caps) := by
  unfold depend at hc
  split at hc
  · exact .old hc
  rename_i t dep hfind
  obtain ⟨-, hdep, -, -⟩ := TaskTable.dependFind_ok hfind
  split at hc
  · rcases mem_cons.mp hc with rfl | hc
    · exact .new rfl hdep rfl
    · exact .old hc
  · exact .old hc

theorem dependCheck_callCase {k : Nat} (hc : c ∈ (s.dependCheck k).calls) : CallCase s c (.dependCheck k) := by
  unfold dependCheck at hc
  split at hc
  · exact .old hc
  rename_i c0 hc0
  split at hc
  · exact .old hc
  split at hc
  next hgranted =>
    rcases mem_or_eq_of_mem_set hc with hc | hc
    · exact .old hc
    · exact .granted (mem_of_getElem? hc0) hc hgranted
  · exact .old (mem_of_mem_eraseIdx hc)

theorem dependAgain_callCase {k : Nat} (hc : c ∈ (s.dependAgain k).calls) : CallCase s c (.dependAgain k) := by
  unfold dependAgain at hc
  split at hc
  · exact .old hc
  split at hc
  · split at hc
    · exact .old (mem_of_mem_eraseIdx hc)
    · exact .old (mem_of_mem_eraseIdx hc)
  · exact .old hc

theorem callCase (hc : c ∈ (s.step op).calls) : CallCase s c op := by
  cases op with
  | depend taskId depId pid caps => exact depend_callCase hc
  | dependCheck k => exact dependCheck_callCase hc
  | dependAgain k => exact dependAgain_callCase hc
  | create | start | complete | cleanup | token => exact .old hc

theorem tokens_step (hop : op.KeepsTokens) : TokensKept s.tokens.tokens (s.step op).tokens.tokens := by
  have hrefl : TokensKept s.tokens.tokens s.tokens.tokens := fun x hx => ⟨x, hx, rfl, rfl, rfl⟩
  cases op with
  | token op => exact tokensKept_step s.tokens hop
  | depend taskId depId pid caps =>
    simp only [step, depend]
    split
    · exact hrefl
    · split <;> exact hrefl
  | dependCheck k =>
    simp only [step, dependCheck]
    split
    · exact hrefl
    split
    · exact hrefl
    · split <;> exact hrefl
  | dependAgain k =>
    simp only [step, dependAgain]
    split
    · exact hrefl
    split
    · split <;> exact hrefl
    · exact hrefl
  | create | start | complete | cleanup => exact hrefl

theorem CallInv.right_step (hc : CallInv s c) (hmem : c ∈ s.calls) (hok : TaskGuard s op)
    (hg : c.granted) : xnsGranted (s.step op).tokens.tokens c.callerPid c.callerCaps c.depNs := by
  by_cases hop : op.KeepsTokens
  · exact (tokens_step hop).xnsGranted (hc.right hg)
  -- a step that takes tokens away finds no call with a right
  have hnone : c.granted = false := by
    cases op with
    | token op =>
      cases op with
      | revoke | cleanup => exact hok c hmem
      | create | delegateBegin | delegateCreate | delegateLink => exact absurd trivial hop
    | create | depend | dependCheck | dependAgain | start | complete | cleanup => exact absurd trivial hop
  simp [hnone] at hg

theorem CallInv.step (hc : CallInv s c) (hmem : c ∈ s.calls) (hok : TaskGuard s op) : CallInv (s.step op) c :=
  ⟨fun _ hi hid => hc.depNs_step hmem hok hi hid, hc.right_step hmem hok⟩

theorem TaskInv.step (hs : TaskInv s) (hok : TaskGuard s op) : TaskInv (s.step op) := by
  refine ⟨hs.distinct_step hok, fun i hi => hs.ns_step hok hi, fun c hc => ?_⟩
  cases callCase hc with
  | old hmem => exact (hs.calls c hmem).step hmem hok
  | @new taskId depId pid caps dep hgranted hdep hns =>
    refine ⟨fun i hi hid => ?_, fun hg => by simp [hgranted] at hg⟩
    obtain ⟨hused, hdepId⟩ := TaskTable.findTask_some hdep
    rcases (tableCase s (.depend taskId depId pid caps)).used with hold | ⟨j, _, _, _, hop, -⟩
    · obtain ⟨hiused, hiid, hins⟩ := hold i hi
      have heq : i = dep := hs.distinct i dep hiused hused (by rw [← hiid, hid, hdepId])
      rw [hins, hns, heq]
    · cases hop
  | @granted k c0 hmem heq hright =>
    have hstep := (hs.calls c0 hmem).step hmem hok
    rw [heq]
    have hkeeps : (TaskOp.dependCheck k).KeepsTokens := trivial
    exact ⟨hstep.depNs, fun _ => (tokens_step hkeeps).xnsGranted hright⟩

theorem taskInv_init : TaskInv {} :=
  ⟨fun _ _ h => Bool.noConfusion h, fun _ h => Bool.noConfusion h, fun _ h => absurd h not_mem_nil⟩

/-- The task is done or has failed. -/
def WorkflowTask.Finished (x : WorkflowTask) : Prop := x.status = .done ∨ x.status = .failed

theorem TaskLaw.finished {y : WorkflowTask} (h : TaskLaw s op i y) (hf : (s.table.tasks i).Finished) :
    y.status = (s.table.tasks i).status ∧ y.result = (s.table.tasks i).result := by
  rcases h.status with hsame | ⟨⟨-, hpending, -⟩, -⟩ | ⟨hrunning, -⟩
  · exact hsame
  · rcases hf with hf | hf <;> simp [hpending] at hf
  · rcases hf with hf | hf <;> simp [hrunning] at hf

/-- The slot is in use in every state of the run. -/
def InUseAlong (s : TaskSys) (i : Fin maxTasks) (ops : List TaskOp) : Prop :=
  ∀ pre, pre <+: ops → ((run step s pre).table.tasks i).used = true

theorem finished_run {ops : List TaskOp} (hs : TaskInv s) (hok : Guarded step TaskGuard s ops)
    (huse : InUseAlong s i ops) (hf : (s.table.tasks i).Finished) :
    ((run step s ops).table.tasks i).status = (s.table.tasks i).status ∧
      ((run step s ops).table.tasks i).result = (s.table.tasks i).result := by
  induction ops generalizing s with
  | nil => exact ⟨rfl, rfl⟩
  | cons op ops ih =>
    obtain ⟨hstatus, hresult⟩ :=
      (hs.law hok.1 (huse [] nil_prefix) (huse [op] ⟨ops, rfl⟩)).finished hf
    have hrest := ih (hs.step hok.1) hok.2 (fun pre hpre => huse (op :: pre) ((prefix_cons_inj op).mpr hpre))
      (by unfold Finished; rwa [hstatus])
    rw [run_cons, hrest.1, hrest.2]
    exact ⟨hstatus, hresult⟩

/-- In a run whose steps meet the guard, every step obeys the law for every task in use, and as long as a
    finished task is in use it keeps its status and its result. -/
theorem task_order {ops : List TaskOp} (hok : Guarded step TaskGuard {} ops) :
    (∀ pre op post, ops = pre ++ op :: post → ∀ i, ((run step {} pre).table.tasks i).used = true →
      ((run step {} (pre ++ [op])).table.tasks i).used = true →
      TaskLaw (run step {} pre) op i ((run step {} (pre ++ [op])).table.tasks i)) ∧
    (∀ pre mid post, ops = pre ++ (mid ++ post) → ∀ i, InUseAlong (run step {} pre) i mid →
      ((run step {} pre).table.tasks i).Finished →
      ((run step {} (pre ++ mid)).table.tasks i).status = ((run step {} pre).table.tasks i).status ∧
      ((run step {} (pre ++ mid)).table.tasks i).result = ((run step {} pre).table.tasks i).result) := by
  have hinv : ∀ pre, Guarded step TaskGuard {} pre → TaskInv (run step {} pre) := fun pre hpre =>
    hpre.invariant (fun s op (hs : TaskInv s) => hs.step) taskInv_init
  constructor
  · rintro pre op post rfl i hused hstays
    obtain ⟨hpre, hrest⟩ := guarded_append.mp hok
    rw [run_append, run_cons, run_nil] at hstays ⊢
    exact (hinv pre hpre).law hrest.1 hused hstays
  · rintro pre mid post rfl i huse hf
    obtain ⟨hpre, hrest⟩ := guarded_append.mp hok
    rw [run_append]
    exact finished_run (hinv pre hpre) (guarded_append.mp hrest).1 huse hf

def twoTasks : List TaskOp :=
  [.create [] 0 7, .create [] 0 7, .depend 2 1 7 0, .start 2 7, .start 1 7, .complete 1 0 7 0, .start 2 7]

/-- The second task depends on the first, cannot be started before it and can after it. -/
theorem task_order_two : let s := run step {} (twoTasks.take 6)
    (s.table.tasks ⟨1, by decide⟩).deps = [1] ∧ (s.table.tasks ⟨1, by decide⟩).status = .pending ∧
      TaskLaw s (.start 2 7) ⟨1, by decide⟩ ((run step {} twoTasks).table.tasks ⟨1, by decide⟩) := by
  have hok : Guarded step TaskGuard {} twoTasks := by
    refine ⟨⟨by decide, by decide +kernel, nofun⟩, ⟨by decide, by decide +kernel, nofun⟩, trivial, trivial, trivial,
      fun t => ?_, trivial, trivial⟩
    revert t
    decide +kernel
  exact ⟨by decide +kernel, by decide +kernel, (task_order hok).1 (twoTasks.take 6) _ [] rfl _ (by decide +kernel)
    (by decide +kernel)⟩

/-- A pending task is completed without having run. -/
theorem pending_task_completed :
    ∃ (ops : List TaskOp) (op : TaskOp) (i : Fin maxTasks), ((run step {} ops).table.tasks i).used = true ∧
      ((run step {} (ops ++ [op])).table.tasks i).used = true ∧
      ¬ TaskLaw (run step {} ops) op i ((run step {} (ops ++ [op])).table.tasks i) := by
  refine ⟨[.create [] 0 7], .complete 1 0 7 0, ⟨0, by decide⟩, by decide +kernel, by decide +kernel, fun h => ?_⟩
  have hbefore : ((run step {} [.create [] 0 7]).table.tasks ⟨0, by decide⟩).status = .pending := by
    decide +kernel
  have hafter : ((run step {} ([.create [] 0 7] ++ [.complete 1 0 7 0])).table.tasks ⟨0, by decide⟩).status =
    .done := by decide +kernel
  rcases h.status with ⟨hsame, -⟩ | ⟨-, hrunning, -⟩ | ⟨hrunning, -⟩
  · rw [hbefore, hafter] at hsame
    cases hsame
  · rw [hafter] at hrunning
    cases hrunning
  · rw [hbefore] at hrunning
    cases hrunning

end Limnx
