import Limnx.Lib.GuardedRun
import Limnx.Lib.TableSum
import Limnx.Theorems.MmPrograms

/-! The pages charged to a process. -/

namespace Limnx

open Function GuardedRun StateProg Mem TableSum MmapEntry MmProc Mm List MemOp

def MmapEntry.charge (e : MmapEntry) : Nat := if e.used ∧ e.shmId = none then e.numPages else 0

def MmProc.charged (p : MmProc) : Nat := weight charge p.mmapTable

/-- The calls that the accounts are about. -/
def MemOp.Accounts : MemOp → Prop
  | .mmap .. | .munmap .. | .mmap2 .. | .mmapGuard .. | .mmapFile .. | .fmmap .. | .fork .. | .setLimit .. => True
  | _ => False

/-- No file is mapped: `sys_fmmap` and `sys_mmap_file` are refused for their arguments or because no slot is free. -/
def ChargesAll (s : Mm) : MemOp → Prop
  | .fmmap pid file => (s.proc pid).freeSlot = none ∨
      ∀ size bytes, file = some (size, bytes) → size = 0 ∨ mmapMaxPages < w64 (size + (pageSize - 1)) / pageSize
  | .mmapFile pid node _ n => (s.proc pid).freeSlot = none ∨ node = none ∨ n = 0 ∨ mmapMaxPages < n
  | _ => True

/-- No process has mapped anything. -/
structure Unmapped (s : Mm) : Prop where
  used : ∀ pid ∈ s.pids, (s.proc pid).usedMemPages = 0
  table : ∀ pid ∈ s.pids, ∀ i, ((s.proc pid).mmapTable i).used = false
  nextPid : ∀ pid ∈ s.pids, pid < s.nextPid

structure Charged (p p' : MmProc) : Prop where
  entry : ∃ slot e, p.freeSlot = some slot ∧ p'.mmapTable = update p.mmapTable slot e ∧ e.used = true ∧
    e.shmId = none ∧ e.numPages ≤ mmapMaxPages ∧ p.overLimit e.numPages = false ∧
    p'.usedMemPages = w64 (p.usedMemPages + e.numPages)
  rlimit : p'.rlimitMemPages = p.rlimitMemPages

structure Refunded (p p' : MmProc) : Prop where
  entry : ∃ slot, (p.mmapTable slot).used = true ∧ p' = (p.dropEntry slot).refund (p.mmapTable slot).numPages

def ChangesBy (R : MmProc → MmProc → Prop) (pid : Nat) (s s' : Mm) : Prop :=
  s'.pids = s.pids ∧ s'.nextPid = s.nextPid ∧
    (s'.proc = s.proc ∨ ∃ p', R (s.proc pid) p' ∧ s'.proc = update s.proc pid p')

section
variable {s t : Mm} {pid : Nat} {R : MmProc → MmProc → Prop} {fault : Mem.Fault} {op : MemOp}

theorem ChangesBy.refl : ChangesBy R pid s s := ⟨rfl, rfl, .inl rfl⟩

theorem ChangesBy.of_records (h : t.records = s.records) : ChangesBy R pid s t := by
  simp only [records, Prod.mk.injEq] at h
  exact ⟨h.2.1, h.2.2, .inl h.1⟩

theorem ChangesBy.modifyProc {f : MmProc → MmProc} (a : Int) (h : t.records = s.records)
    (hR : R (s.proc pid) (f (s.proc pid))) :
    Ends (modifyProc pid f >>= fun _ => pure a) t fun _ u => ChangesBy R pid s u := by
  simp only [records, Prod.mk.injEq] at h
  refine ⟨h.2.1, h.2.2, .inr ⟨f (s.proc pid), hR, ?_⟩⟩
  change update t.proc pid (f (t.proc pid)) = _
  rw [h.1]

theorem sysMmap_charges {addrHint length prot flags : Nat} :
    Ends (sysMmap pid addrHint length prot flags) s fun _ t => ChangesBy Charged pid s t := by
  unfold sysMmap
  split
  · exact .refl
  split
  · exact .refl
  split
  · exact .refl
  rw [ends_bind, ends_getProc]
  split
  · exact .refl
  rename_i hlimit
  cases hslot : (s.proc pid).freeSlot with
  | none => exact .refl
  | some slot =>
    refine outside_records.mapFresh.ends_bind ?_
    rintro (_ | frames) t ht
    · exact .of_records ht
    · refine ChangesBy.modifyProc _ ht ⟨⟨slot, _, hslot, rfl, rfl, rfl, ?_, ?_, rfl⟩, rfl⟩
      · simp only [record]
        omega
      · simpa [record] using hlimit

theorem ChangesBy.record {slot : Fin mmapMaxEntries} {e : MmapEntry} {n : Nat} {a : Int} (h : t.records = s.records)
    (hslot : (s.proc pid).freeSlot = some slot) (hn : n ≤ mmapMaxPages) (hlimit : (s.proc pid).overLimit n = false)
    (hused : e.used) (hshm : e.shmId = none) (hpages : e.numPages = n) :
    Ends (recordAt pid slot e n n >>= fun _ => pure a) t fun _ t => ChangesBy Charged pid s t := by
  subst hpages
  exact ChangesBy.modifyProc a h ⟨⟨slot, e, hslot, rfl, hused, hshm, hn, hlimit, rfl⟩, rfl⟩

theorem sysMmap2_charges {numPages flags : Nat} {quota : Bool} :
    Ends (sysMmap2 pid numPages flags quota) s fun _ t => ChangesBy Charged pid s t := by
  unfold sysMmap2
  split
  · exact .refl
  rw [ends_bind, ends_getProc]
  split
  · exact .refl
  rename_i hlimit
  split
  · exact .refl
  have hpages : numPages ≤ mmapMaxPages := by omega
  have hover : (s.proc pid).overLimit numPages = false := by simpa using hlimit
  cases hslot : (s.proc pid).freeSlot with
  | none => exact .refl
  | some slot =>
    simp only
    split
    · exact ChangesBy.record rfl hslot hpages hover rfl rfl rfl
    refine outside_records.allocContiguous.ends_bind ?_
    rintro (_ | phys) t ht
    · exact .of_records ht
    · refine outside_records.mapRun.ends_bind ?_
      rintro (_ | _) u hu
      · exact .of_records (hu.trans ht)
      · exact ChangesBy.record (hu.trans ht) hslot hpages hover rfl rfl rfl

theorem sysMmapGuard_charges {numPages : Nat} :
    Ends (sysMmapGuard pid numPages) s fun _ t => ChangesBy Charged pid s t := by
  unfold sysMmapGuard
  split
  · exact .refl
  rw [ends_bind, ends_getProc]
  split
  · exact .refl
  rename_i hlimit
  have hpages : numPages ≤ mmapMaxPages := by omega
  have hover : (s.proc pid).overLimit numPages = false := by simpa using hlimit
  cases hslot : (s.proc pid).freeSlot with
  | none => exact .refl
  | some slot =>
    refine outside_records.allocContiguous.ends_bind ?_
    rintro (_ | phys) t ht
    · exact .of_records ht
    · refine outside_records.mapRun.ends_bind ?_
      rintro (_ | _) u hu
      · exact .of_records ((outside_records.freeRun u).trans (hu.trans ht))
      · exact ChangesBy.record (hu.trans ht) hslot hpages hover rfl rfl rfl

theorem unmapEntry_records {c : Nat} {e : MmapEntry} : Stable records (unmapEntry c e) := by
  unfold unmapEntry
  split
  · exact .bind outside_records.unmapPages fun _ => shmDrop_records
  · exact outside_records.unmapPages

theorem sysMunmap_refunds {virtAddr : Nat} : Ends (sysMunmap pid virtAddr) s fun _ t => ChangesBy Refunded pid s t := by
  unfold sysMunmap
  rw [ends_bind, ends_getProc]
  cases hslot : (s.proc pid).findSlot fun e => decide (e.virtAddr = virtAddr) with
  | none => exact .refl
  | some slot =>
    exact unmapEntry_records.ends_bind fun _ t ht =>
      ChangesBy.modifyProc _ ht ⟨slot, (findSlot_used hslot).1, rfl⟩

theorem sysFmmap_refused {file : Option (Nat × Buf)} (h : ChargesAll s (.fmmap pid file)) :
    Ends (sysFmmap pid file) s fun _ t => t = s := by
  unfold sysFmmap
  rcases file with _ | ⟨size, bytes⟩
  · exact rfl
  simp only
  split
  · exact rfl
  rename_i hsize
  split
  · exact rfl
  rename_i hpages
  rw [ends_bind, ends_getProc]
  rcases h with h | h
  · rw [h]
    exact rfl
  rcases h size bytes rfl with h | h
  · exact absurd h hsize
  · exact absurd h hpages

theorem sysMmapFile_refused {node : Option Nat} {offset n : Nat} (h : ChargesAll s (.mmapFile pid node offset n)) :
    Ends (sysMmapFile pid node offset n) s fun _ t => t = s := by
  unfold sysMmapFile
  split
  · exact rfl
  rename_i hn
  rcases node with _ | node
  · exact rfl
  rw [ends_bind, ends_getProc]
  rcases h with h | h | h
  · rw [h]
    exact rfl
  · simp at h
  · exact absurd h hn

def MmProc.account (p : MmProc) : (Fin mmapMaxEntries → MmapEntry) × Nat × Nat :=
  (p.mmapTable, p.usedMemPages, p.rlimitMemPages)

structure Forked (pid : Nat) (s s' : Mm) : Prop where
  nextPid : s.nextPid ≤ s'.nextPid
  pids : s'.pids = s.pids ∨ s'.pids = s.nextPid :: s.pids ∧ s.nextPid < s'.nextPid ∧
    ((s'.proc s.nextPid).account = (s.proc pid).account ∨ (s'.proc s.nextPid).account = ({} : MmProc).account)
  account : ∀ q, q < s.nextPid → (s'.proc q).account = (s.proc q).account

theorem Forked.of_accounts {u : Mm} (h : Forked pid s t) (haccount : ∀ q, (u.proc q).account = (t.proc q).account)
    (hpids : u.pids = t.pids) (hnext : u.nextPid = t.nextPid) : Forked pid s u := by
  refine ⟨by rw [hnext]; exact h.nextPid, ?_, fun q hq => (haccount q).trans (h.account q hq)⟩
  rw [haccount, hpids, hnext]
  exact h.pids

theorem forked_allocPid (h : t.records = (s.proc, s.pids, s.nextPid + 1)) : Forked pid s t := by
  simp only [records, Prod.mk.injEq] at h
  exact ⟨by omega, .inl h.2.1, fun q _ => by rw [h.1]⟩

theorem forked_addProc {p : MmProc} (h : t.records = (s.proc, s.pids, s.nextPid + 1))
    (hp : p.account = (s.proc pid).account ∨ p.account = ({} : MmProc).account) :
    Forked pid s { t.setProc s.nextPid p with pids := s.nextPid :: t.pids } := by
  simp only [records, Prod.mk.injEq] at h
  obtain ⟨hproc, hpids, hnext⟩ := h
  refine ⟨?_, .inr ⟨?_, ?_, ?_⟩, fun q hq => ?_⟩
  · change s.nextPid ≤ t.nextPid
    omega
  · rw [hpids]
  · change s.nextPid < t.nextPid
    omega
  · simpa [setProc] using hp
  · simp [setProc, Nat.ne_of_lt hq, hproc]

theorem processFork_forks : Ends (Mem.processFork pid fault) s fun _ t => Forked pid s t := by
  have hrefl : Forked pid s s := ⟨Nat.le_refl _, .inl rfl, fun _ _ => rfl⟩
  unfold Mem.processFork
  split
  · exact hrefl
  rw [ends_bind, ends_allocPid, ends_bind, ends_getProc]
  refine outside_records.vmmCloneCow.ends_bind ?_
  rintro (_ | cr3) t ht
  · exact forked_allocPid ht
  · simp only
    split
    · exact forked_allocPid ht
    split
    · exact forked_allocPid ht
    exact forked_addProc ht (.inl rfl)

theorem processForkVfork_forks : Ends (Mem.processForkVfork pid fault) s fun _ t => Forked pid s t := by
  have hrefl : Forked pid s s := ⟨Nat.le_refl _, .inl rfl, fun _ _ => rfl⟩
  unfold Mem.processForkVfork
  split
  · exact hrefl
  split
  · exact forked_allocPid rfl
  split
  · exact forked_allocPid rfl
  exact forked_addProc rfl (.inr rfl)

theorem sysFork_forks {vfork : Bool} : Ends (Mem.sysFork pid vfork fault) s fun _ t => Forked pid s t := by
  unfold Mem.sysFork
  split
  · exact ⟨Nat.le_refl _, .inl rfl, fun _ _ => rfl⟩
  have hfork : Ends (forkProcess pid vfork fault) s fun _ t => Forked pid s t := by
    unfold forkProcess
    split
    · exact processForkVfork_forks
    · exact processFork_forks
  refine hfork.bind ?_
  rintro (_ | child) t ht
  · exact ht
  · refine (outsideShm_records.countShm).ends_bind fun _ u hu => ?_
    simp only [records, Prod.mk.injEq] at hu
    obtain ⟨hproc, hpids, hnext⟩ := hu
    refine ht.of_accounts (fun q => ?_) hpids hnext
    -- the parent may wait for its child from now on
    change (update u.proc pid _ q).account = _
    obtain rfl | hq := eq_or_ne q pid
    · rw [update_self, ← hproc]
      rfl
    · rw [update_of_ne hq, hproc]

structure ExactAccount (p : MmProc) : Prop where
  used : p.usedMemPages = p.charged
  entry : ∀ i, (p.mmapTable i).used = true → (p.mmapTable i).numPages ≤ mmapMaxPages ∧ (p.mmapTable i).shmId = none

def StaysWithin (p p' : MmProc) : Prop :=
  p'.rlimitMemPages = p.rlimitMemPages ∧
    (0 < p.rlimitMemPages → p.charged ≤ p.rlimitMemPages → p'.charged ≤ p.rlimitMemPages)

variable {p p' : MmProc}

theorem ExactAccount.of_account (h : ExactAccount p) (he : p'.account = p.account) : ExactAccount p' := by
  simp only [account, Prod.mk.injEq] at he
  refine ⟨?_, ?_⟩
  · unfold charged
    rw [he.1, he.2.1]
    exact h.used
  · rw [he.1]
    exact h.entry

theorem StaysWithin.of_account (he : p'.account = p.account) : StaysWithin p p' := by
  simp only [account, Prod.mk.injEq] at he
  refine ⟨he.2.2, fun _ hle => ?_⟩
  unfold charged at hle ⊢
  rw [he.1]
  exact hle

theorem exactAccount_empty : ExactAccount {} := by
  refine ⟨?_, fun i hi => by simp at hi⟩
  simp [charged, weight, charge]

theorem ExactAccount.charged_le (h : ExactAccount p) : p.charged ≤ mmapMaxEntries * mmapMaxPages := by
  have := weight_le charge p.mmapTable (b := mmapMaxPages) fun i => by
    unfold charge
    split
    next hu => exact (h.entry i hu.1).1
    · exact Nat.zero_le _
  simpa [charged] using this

theorem ExactAccount.charge (h : ExactAccount p) (hc : Charged p p') : ExactAccount p' ∧ StaysWithin p p' := by
  obtain ⟨⟨slot, e, hslot, htable, hused, hshm, hn, hlimit, hused'⟩, hr⟩ := hc
  have hfree : (p.mmapTable slot).charge = 0 := by
    have hused : (p.mmapTable slot).used = false := by simpa using find?_some hslot
    simp [MmapEntry.charge, hused]
  have he : e.charge = e.numPages := by simp [MmapEntry.charge, hused, hshm]
  have hsum : p'.charged = p.charged + e.numPages := by
    have := weight_update MmapEntry.charge p.mmapTable slot e
    unfold charged
    rw [htable]
    omega
  have hsmall : p.charged + e.numPages < 2 ^ 64 := by
    have := h.charged_le
    simp only [mmapMaxEntries, mmapMaxPages] at this hn
    omega
  have hw : w64 (p.usedMemPages + e.numPages) = p.charged + e.numPages := by
    rw [h.used, w64, Nat.mod_eq_of_lt hsmall]
  refine ⟨⟨by rw [hused', hw, hsum], fun i hi => ?_⟩, hr, fun hpos _ => ?_⟩
  · rw [htable] at hi ⊢
    obtain rfl | his := eq_or_ne i slot
    · rw [update_self]
      exact ⟨hn, hshm⟩
    · rw [update_of_ne his] at hi ⊢
      exact h.entry i hi
  · simp only [overLimit, hpos, decide_true, Bool.true_and, decide_eq_false_iff_not, hw] at hlimit
    omega

theorem ExactAccount.refund (h : ExactAccount p) (hc : Refunded p p') : ExactAccount p' ∧ StaysWithin p p' := by
  obtain ⟨slot, hused, rfl⟩ := hc
  have hcharge : (p.mmapTable slot).charge = (p.mmapTable slot).numPages := by
    simp [MmapEntry.charge, hused, (h.entry slot hused).2]
  have hle : (p.mmapTable slot).numPages ≤ p.charged := by
    rw [← hcharge]
    exact le_weight MmapEntry.charge p.mmapTable slot
  have hsum : ((p.dropEntry slot).refund (p.mmapTable slot).numPages).charged =
      p.charged - (p.mmapTable slot).numPages := by
    have := weight_update MmapEntry.charge p.mmapTable slot { p.mmapTable slot with used := false, shmId := none }
    have hzero : MmapEntry.charge { p.mmapTable slot with used := false, shmId := none } = 0 := by
      simp [MmapEntry.charge]
    change weight MmapEntry.charge (update p.mmapTable slot _) = _
    unfold charged
    omega
  refine ⟨⟨?_, fun i hi => ?_⟩, rfl, fun _ hlim => ?_⟩
  · rw [hsum]
    change (if _ ≤ p.usedMemPages then p.usedMemPages - _ else p.usedMemPages) = _
    rw [h.used, if_pos hle]
  · obtain rfl | his := eq_or_ne i slot
    · simp [refund, dropEntry, setEntry] at hi
    · simp only [refund, dropEntry, setEntry, update_of_ne his] at hi ⊢
      exact h.entry i hi
  · rw [hsum]
    omega

/-- The accounts of all processes are exact. -/
structure ExactAccounts (s : Mm) : Prop where
  exact : ∀ pid ∈ s.pids, ExactAccount (s.proc pid)
  nextPid : ∀ pid ∈ s.pids, pid < s.nextPid

structure KeepsAccounts (op : MemOp) (s s' : Mm) : Prop where
  exact : ExactAccounts s'
  pids : ∀ pid ∈ s.pids, pid ∈ s'.pids
  within : ∀ pid ∈ s.pids, (∀ r, op ≠ .setLimit pid r) → StaysWithin (s.proc pid) (s'.proc pid)

theorem StaysWithin.refl : StaysWithin p p := ⟨rfl, fun _ h => h⟩

section
variable (h : ExactAccounts s)
include h

theorem ChangesBy.keepsAccounts
    (hR : ∀ p', ExactAccount (s.proc pid) → R (s.proc pid) p' → ExactAccount p' ∧ StaysWithin (s.proc pid) p')
    (hc : ChangesBy R pid s t) (hpid : pid ∈ s.pids) : KeepsAccounts op s t := by
  obtain ⟨hpids, hnext, hproc⟩ := hc
  have hafter : ∀ q ∈ s.pids, ExactAccount (t.proc q) ∧ StaysWithin (s.proc q) (t.proc q) := by
    intro q hq
    rcases hproc with hproc | ⟨p', hp', hproc⟩
    · rw [hproc]
      exact ⟨h.exact q hq, .refl⟩
    rw [hproc]
    obtain rfl | hqp := eq_or_ne q pid
    · rw [update_self]
      exact hR p' (h.exact q hq) hp'
    · rw [update_of_ne hqp]
      exact ⟨h.exact q hq, .refl⟩
  refine ⟨⟨fun q hq => ?_, fun q hq => ?_⟩, fun q hq => by rw [hpids]; exact hq, fun q hq _ => (hafter q hq).2⟩
  · rw [hpids] at hq
    exact (hafter q hq).1
  · rw [hpids] at hq
    rw [hnext]
    exact h.nextPid q hq

theorem Forked.keepsAccounts (hf : Forked pid s t) (hpid : pid ∈ s.pids) : KeepsAccounts op s t := by
  have hold : ∀ q ∈ s.pids, (t.proc q).account = (s.proc q).account := fun q hq => hf.account q (h.nextPid q hq)
  have hnext : ∀ q ∈ s.pids, q < t.nextPid := fun q hq => Nat.lt_of_lt_of_le (h.nextPid q hq) hf.nextPid
  refine ⟨?_, fun q hq => ?_, fun q hq _ => .of_account (hold q hq)⟩
  · rcases hf.pids with hpids | ⟨hpids, hlt, hchild⟩
    · rw [← hpids] at hold hnext
      exact ⟨fun q hq => (h.exact q (hpids ▸ hq)).of_account (hold q hq), hnext⟩
    refine ⟨fun q hq => ?_, fun q hq => ?_⟩ <;> rw [hpids] at hq <;> rcases mem_cons.mp hq with rfl | hq
    · rcases hchild with hchild | hchild
      · exact (h.exact pid hpid).of_account hchild
      · exact exactAccount_empty.of_account hchild
    · exact (h.exact q hq).of_account (hold q hq)
    · exact hlt
    · exact hnext q hq
  · rcases hf.pids with hpids | ⟨hpids, -, -⟩ <;> rw [hpids]
    · exact hq
    · exact mem_cons_of_mem _ hq

theorem ExactAccounts.keeps_refl : KeepsAccounts op s s := ⟨h, fun _ => id, fun _ _ _ => .refl⟩

theorem ExactAccounts.step (hop : op.Accounts) (hok : ChargesAll s op) : KeepsAccounts op s (s.step op) := by
  unfold Mm.step
  split
  next hruns =>
    have hpid : op.pid ∈ s.pids := by
      simp only [runs, Bool.and_eq_true, decide_eq_true_eq] at hruns
      exact hruns.1
    cases op with
    | mmap pid a l pr fl => exact sysMmap_charges.keepsAccounts h (fun _ hp => hp.charge) hpid
    | munmap pid a => exact sysMunmap_refunds.keepsAccounts h (fun _ hp => hp.refund) hpid
    | mmap2 pid n fl q => exact sysMmap2_charges.keepsAccounts h (fun _ hp => hp.charge) hpid
    | mmapGuard pid n => exact sysMmapGuard_charges.keepsAccounts h (fun _ hp => hp.charge) hpid
    | fork pid v f => exact sysFork_forks.keepsAccounts h hpid
    | fmmap pid file =>
      have := (sysFmmap_refused hok).run
      rw [show (prog (.fmmap pid file) s).2 = s from this]
      exact h.keeps_refl
    | mmapFile pid node o n =>
      have := (sysMmapFile_refused hok).run
      rw [show (prog (.mmapFile pid node o n) s).2 = s from this]
      exact h.keeps_refl
    | setLimit pid r =>
      have hother : ∀ q ≠ pid, (prog (.setLimit pid r) s).2.proc q = s.proc q := by
        intro q hq
        exact update_of_ne hq _ _
      refine ⟨⟨fun q hq => ?_, h.nextPid⟩, fun _ => id, fun q hq hne => ?_⟩
      · obtain rfl | hqp := eq_or_ne q pid
        · have he := h.exact q hq
          change ExactAccount (update s.proc q _ q)
          rw [update_self]
          exact ⟨he.used, he.entry⟩
        · rw [hother q hqp]
          exact h.exact q hq
      · rw [hother q (fun he => hne r (he ▸ rfl))]
        exact .refl
    | shmget | shmat | shmdt | mprotect | brk | execve | terminate | access | write | signal => exact hop.elim
  · exact h.keeps_refl

end

theorem Unmapped.exactAccounts (h : Unmapped s) : ExactAccounts s := by
  refine ⟨fun pid hpid => ⟨?_, fun i hi => ?_⟩, h.nextPid⟩
  · rw [h.used pid hpid]
    simp [charged, weight, charge, h.table pid hpid]
  · simp [h.table pid hpid i] at hi

end

/-- In every run in which no file is mapped the accounts are exact; and once the sum of a process is within its limit,
    it stays so until the limit is set again. -/
theorem accounting_exact {s : Mm} {ops ops' : List MemOp} (hs : Unmapped s)
    (hops : ∀ op ∈ ops ++ ops', op.Accounts) (hok : Guarded step ChargesAll s (ops ++ ops')) :
    (∀ pid ∈ (run step s (ops ++ ops')).pids,
      ((run step s (ops ++ ops')).proc pid).usedMemPages = ((run step s (ops ++ ops')).proc pid).charged) ∧
    ∀ pid ∈ (run step s ops).pids, ∀ r, 0 < r → ((run step s ops).proc pid).rlimitMemPages = r →
      ((run step s ops).proc pid).charged ≤ r → (∀ op ∈ ops', ∀ r', op ≠ .setLimit pid r') →
      ((run step s (ops ++ ops')).proc pid).charged ≤ r := by
  obtain ⟨hok1, hok2⟩ := guarded_append.mp hok
  have hops1 : ∀ op ∈ ops, op.Accounts := fun op h => hops op (mem_append_left _ h)
  have hops2 : ∀ op ∈ ops', op.Accounts := fun op h => hops op (mem_append_right _ h)
  have h1 : ExactAccounts (run step s ops) :=
    (hok1.and_forall hops1).invariant (fun _ _ h hop => (h.step hop.1 hop.2).exact) hs.exactAccounts
  rw [run_append]
  refine ⟨fun pid hpid => ?_, fun pid hpid r hr hlim hle hset => ?_⟩
  · have h2 : ExactAccounts (run step (run step s ops) ops') :=
      (hok2.and_forall hops2).invariant (fun _ _ h hop => (h.step hop.1 hop.2).exact) h1
    exact (h2.exact pid hpid).used
  · -- the limit and the bound are carried along the rest of the run
    have hstep : ∀ (u : Mm) op, (ExactAccounts u ∧ pid ∈ u.pids ∧ (u.proc pid).rlimitMemPages = r ∧
        (u.proc pid).charged ≤ r) → ((op.Accounts ∧ ∀ r', op ≠ .setLimit pid r') ∧ ChargesAll u op) →
        ExactAccounts (u.step op) ∧ pid ∈ (u.step op).pids ∧ ((u.step op).proc pid).rlimitMemPages = r ∧
          ((u.step op).proc pid).charged ≤ r := by
      rintro u op ⟨hu, hp, hl, hc⟩ ⟨⟨hacc, hne⟩, hall⟩
      have hk := hu.step hacc hall
      obtain ⟨hl', hc'⟩ := hk.within pid hp hne
      rw [hl] at hl' hc'
      exact ⟨hk.exact, hk.pids pid hp, hl', hc' hr hc⟩
    exact ((hok2.and_forall fun op h => ⟨hops2 op h, hset op h⟩).invariant hstep ⟨h1, hpid, hlim, hle⟩).2.2.2

theorem oneProcess_unmapped : Unmapped oneProcess where
  used pid hpid := by
    rw [mem_singleton.mp hpid]
    rfl
  table pid hpid i := by
    rw [mem_singleton.mp hpid]
    rfl
  nextPid pid hpid := by
    rw [mem_singleton.mp hpid]
    decide

theorem accounting_exact_map_fork :
    ((run step oneProcess [.mmap2 1 2 1 true, .mmap 1 0 1 3 0, .munmap 1 mmapRegionBase, .fork 1 false {}]).proc
      2).usedMemPages =
    ((run step oneProcess [.mmap2 1 2 1 true, .mmap 1 0 1 3 0, .munmap 1 mmapRegionBase, .fork 1 false {}]).proc
      2).charged :=
  (@accounting_exact oneProcess [.mmap2 1 2 1 true, .mmap 1 0 1 3 0, .munmap 1 mmapRegionBase, .fork 1 false {}] []
    oneProcess_unmapped (by simp [Accounts]) ⟨trivial, trivial, trivial, trivial, trivial⟩).1 2
    (by decide +kernel)

/-- Two pages of a file are mapped, which are not charged. When the file is unmapped they are refunded, and three more
    pages pass the limit of three. -/
theorem file_map_uncharged :
    ∃ (s : Mm) (ops : List MemOp), Unmapped s ∧ (∀ op ∈ ops, op.Accounts) ∧ 1 ∈ (run step s ops).pids ∧
      ((run step s ops).proc 1).usedMemPages = 3 ∧ ((run step s ops).proc 1).charged = 5 ∧
      ((run step s ops).proc 1).rlimitMemPages = 3 :=
  ⟨oneProcess,
    [.mmap2 1 2 1 true, .mmapFile 1 (some 0) 0 2, .munmap 1 (mmapRegionBase + 3 * pageSize), .mmap2 1 3 1 true],
    oneProcess_unmapped, by simp [Accounts], by decide +kernel, by decide +kernel, by decide +kernel,
    by decide +kernel⟩

end Limnx
