import Limnx.Theorems.MmGrowth
import Limnx.Lib.GuardedRun

/-! # The heap of a process

The pages that `sys_brk` maps can be present: a forked child starts with a break of 0, and a shrinking call or one that
runs out of frames leaves pages mapped. -/

namespace Limnx

open Function StateProg Mem GuardedRun List Mm

variable {s t u : Mm} {pid addr : Nat}

def Mm.AllMapped (s : Mm) (c lo hi : Nat) : Prop := ∀ a, lo ≤ a → a < hi → (s.pteAt c (pageOf a)).present = true

def growPages (p : MmProc) (addr : Nat) : Nat := (pageUp addr - pageUp p.brkCurrent) / pageSize

/-- A call of `sys_brk` that is not refused grows into pages that are not present. -/
def GrowsFresh (s : Mm) : MemOp → Prop
  | .brk pid addr =>
    (s.proc pid).brkRefuses addr = false → ∀ k < growPages (s.proc pid) addr,
      (s.pteAt (s.proc pid).cr3 (rangePage (pageUp (s.proc pid).brkCurrent) k)).present = false
  | _ => True

/-- The pages of the process keep their entries, those of the user half their contents, and the answer is the new break
    if every page from the base to it is mapped, the old one otherwise. -/
structure BrkLaw (s : Mm) (pid addr : Nat) (ret : Int) (t : Mm) : Prop where
  mapping : ∀ v, (s.pteAt (s.proc pid).cr3 v).present = true →
    t.pteAt (s.proc pid).cr3 v = s.pteAt (s.proc pid).cr3 v
  contents : ∀ v < userPages, (s.pteAt (s.proc pid).cr3 v).present = true →
    t.data (s.pteAt (s.proc pid).cr3 v).frame = s.data (s.pteAt (s.proc pid).cr3 v).frame
  moved : (s.proc pid).brkRefuses addr = false → t.AllMapped (s.proc pid).cr3 (s.proc pid).brkBase addr →
    ret = s64 addr ∧ (t.proc pid).brkCurrent = addr
  stays : (s.proc pid).brkRefuses addr = true ∨ ¬ t.AllMapped (s.proc pid).cr3 (s.proc pid).brkBase addr →
    ret = s64 (s.proc pid).brkCurrent ∧ (t.proc pid).brkCurrent = (s.proc pid).brkCurrent

/-- The heap lies between its base and its limit and is mapped up to the break. -/
structure HeapOk (s : Mm) (p : MmProc) : Prop where
  aligned : p.brkBase % pageSize = 0
  user : p.brkBase ≤ userAddrMax
  base_le : p.brkBase ≤ p.brkCurrent
  le_max : p.brkCurrent ≤ p.brkBase + brkMax
  mapped : s.AllMapped p.cr3 p.brkBase p.brkCurrent

/-- The processes of `D` have frames in use behind their pages and a heap that is `HeapOk`. -/
structure HeapInv (D : Nat → Prop) (s : Mm) : Prop where
  nextPid : ∀ pid ∈ s.pids, pid < s.nextPid
  later : ∀ pid, s.nextPid ≤ pid → D pid
  rooted : s.Rooted
  cr3 : ∀ pid ∈ s.pids, D pid → s.pmm.bitmap (s.proc pid).cr3 = true
  backed : ∀ pid ∈ s.pids, D pid → s.Backed (s.proc pid).cr3
  heap : ∀ pid ∈ s.pids, D pid → HeapOk s (s.proc pid)

def MmProc.heap (p : MmProc) : Nat × Nat × Nat := (p.cr3, p.brkBase, p.brkCurrent)

theorem Mm.AllMapped.grown {c lo hi : Nat} (h : s.AllMapped c lo hi) (hg : MemGrown s t) (hc : s.pmm.bitmap c) :
    t.AllMapped c lo hi := fun a hlo hhi => hg.present c _ hc (h a hlo hhi)

theorem HeapOk.grown {p q : MmProc} (h : HeapOk s p) (hg : MemGrown s t) (hc : s.pmm.bitmap p.cr3)
    (hq : q.heap = p.heap) : HeapOk t q := by
  simp only [MmProc.heap, Prod.mk.injEq] at hq
  obtain ⟨hcr3, hbase, hcur⟩ := hq
  obtain ⟨haligned, huser, hle, hmax, hmapped⟩ := h
  constructor
  · rw [hbase]; exact haligned
  · rw [hbase]; exact huser
  · rw [hbase, hcur]; exact hle
  · rw [hbase, hcur]; exact hmax
  · rw [hcr3, hbase, hcur]; exact hmapped.grown hg hc

variable {D : Nat → Prop} {p : MmProc} {fault : Mem.Fault}

theorem HeapInv.grown (h : HeapInv D s) (hg : MemGrown s t) (hpids : t.pids = s.pids) (hnext : s.nextPid ≤ t.nextPid)
    (hproc : ∀ pid ∈ s.pids, D pid → (t.proc pid).cr3 = (s.proc pid).cr3 ∧ HeapOk t (t.proc pid)) : HeapInv D t where
  nextPid pid hpid := by
    have := h.nextPid pid (hpids ▸ hpid)
    omega
  later pid hpid := h.later pid (by omega)
  rooted := hg.rooted h.rooted
  cr3 pid hpid hD := by
    rw [hpids] at hpid
    rw [(hproc pid hpid hD).1]
    exact hg.bitmap _ (h.cr3 pid hpid hD)
  backed pid hpid hD := by
    rw [hpids] at hpid
    rw [(hproc pid hpid hD).1]
    exact hg.backed (h.cr3 pid hpid hD) (h.backed pid hpid hD)
  heap pid hpid hD := (hproc pid (hpids ▸ hpid) hD).2

theorem HeapInv.of_heap (h : HeapInv D s) (hg : MemGrown s t) (hpids : t.pids = s.pids) (hnext : s.nextPid ≤ t.nextPid)
    (hproc : ∀ pid, (t.proc pid).heap = (s.proc pid).heap) : HeapInv D t := by
  refine h.grown hg hpids hnext fun pid hpid hD => ⟨congrArg Prod.fst (hproc pid), ?_⟩
  exact (h.heap pid hpid hD).grown hg (h.cr3 pid hpid hD) (hproc pid)

theorem HeapInv.of_records (h : HeapInv D s) (hg : MemGrown s t) (hrec : t.records = s.records) : HeapInv D t := by
  simp only [records, Prod.mk.injEq] at hrec
  obtain ⟨hproc, hpids, hnext⟩ := hrec
  exact h.of_heap hg hpids (Nat.le_of_eq hnext.symm) fun q => by rw [hproc]

theorem setProc_field {α : Type} {f : MmProc → α} (hp : f p = f (s.proc pid)) (q : Nat) :
    f ((s.setProc pid p).proc q) = f (s.proc q) := by
  obtain rfl | hq := eq_or_ne q pid
  · simpa [setProc] using hp
  · simp [setProc, update_of_ne hq]

theorem HeapInv.setProc (h : HeapInv D s) (hp : p.heap = (s.proc pid).heap) : HeapInv D (s.setProc pid p) :=
  h.of_heap (.of_memory rfl) rfl (Nat.le_refl _) (setProc_field hp)

theorem mapFresh_records {c virt n : Nat} {flags : PteFlags} {giveBack : Bool} {fill : Nat → Buf} :
    Ends (mapFresh c virt flags giveBack fill 0 n) s fun r t =>
      MapsFresh c virt 0 n s r.isSome t ∧ t.records = s.records :=
  mapFresh_ends.and outside_records.mapFresh.ends

theorem sysMmap_heapInv {addrHint length prot flags : Nat} (h : HeapInv D s) :
    Ends (sysMmap pid addrHint length prot flags) s fun _ t => HeapInv D t := by
  unfold sysMmap
  split
  · exact h
  split
  · exact h
  split
  · exact h
  rw [ends_bind, ends_getProc]
  split
  · exact h
  split
  · exact h
  rw [ends_bind]
  refine mapFresh_records.mono ?_
  rintro r t ⟨ht, hrec⟩
  have hInv := h.of_records ht.grown hrec
  split
  · exact hInv
  · rw [ends_bind, ends_modifyProc, ends_pure]
    exact hInv.setProc rfl

/-! ### `sys_brk` -/

structure GrowRange (p : MmProc) (addr : Nat) : Prop where
  base_le : p.brkBase ≤ addr
  le_max : addr ≤ p.brkBase + brkMax
  page : ∀ k ≤ growPages p addr, rangePage (pageUp p.brkCurrent) k = pageOf (pageUp p.brkCurrent + k * pageSize)
  inside : ∀ k < growPages p addr, p.brkBase ≤ pageUp p.brkCurrent + k * pageSize ∧
    pageUp p.brkCurrent + k * pageSize < addr
  cover : ∀ a, p.brkCurrent ≤ a → a < addr →
    (∃ b, p.brkBase ≤ b ∧ b < p.brkCurrent ∧ pageOf a = pageOf b) ∨
      ∃ k < growPages p addr, pageOf a = pageOf (pageUp p.brkCurrent + k * pageSize)
  distinct : ∀ j k, j < k → k < growPages p addr →
    pageOf (pageUp p.brkCurrent + j * pageSize) ≠ pageOf (pageUp p.brkCurrent + k * pageSize)

theorem HeapOk.growRange (h : HeapOk s p) (hr : p.brkRefuses addr = false) : GrowRange p addr := by
  obtain ⟨haligned, huser, hle, hmax, -⟩ := h
  simp only [MmProc.brkRefuses, Bool.or_eq_false_iff, decide_eq_false_iff_not] at hr
  unfold userAddrMax brkMax pageSize w64 at *
  have haddr : addr ≤ p.brkBase + 32 * 1024 * 1024 := by omega
  have hup : ∀ x, x < 2 ^ 63 → pageUp x = (x + 4095) / 4096 * 4096 := by
    unfold pageUp w64 pageSize
    omega
  have hcur := hup p.brkCurrent (by omega)
  have hnew := hup addr (by omega)
  constructor
  · omega
  · exact haddr
  · intro k hk
    unfold growPages pageSize at hk
    unfold rangePage w64 pageSize
    rw [Nat.mod_eq_of_lt (by omega)]
  · intro k hk
    unfold growPages pageSize at hk
    unfold pageSize
    omega
  · intro a hlo hhi
    by_cases ha : a < (p.brkCurrent + 4095) / 4096 * 4096
    · left
      refine ⟨p.brkCurrent - 1, by omega, by omega, ?_⟩
      unfold pageOf pageSize
      omega
    · right
      refine ⟨(a - (p.brkCurrent + 4095) / 4096 * 4096) / 4096, ?_, ?_⟩
      · unfold growPages pageSize
        omega
      · unfold pageOf pageSize
        omega
  · intro j k hjk hk
    unfold growPages pageSize at hk
    unfold pageOf pageSize
    omega

theorem grow_law {ok : Bool} (h : HeapOk s p) (hr : p.brkRefuses addr = false) (hs : s.Rooted) (hc : s.pmm.bitmap p.cr3)
    (hfresh : ∀ k < growPages p addr, (s.pteAt p.cr3 (rangePage (pageUp p.brkCurrent) k)).present = false)
    (ht : MapsFresh p.cr3 (pageUp p.brkCurrent) 0 (growPages p addr) s ok t) :
    (∀ v, (s.pteAt p.cr3 v).present → t.pteAt p.cr3 v = s.pteAt p.cr3 v) ∧
      (ok ↔ t.AllMapped p.cr3 p.brkBase addr) := by
  have hg := h.growRange hr
  obtain ⟨m, hm, hok, hkept, hmapped⟩ := ht.mapped
  refine ⟨fun v hv => hkept _ _ fun k _ hk hvk => ?_, fun hyes a hlo hhi => ?_, fun hall => ?_⟩
  · have := hfresh k (by omega)
    rw [← hvk, hv] at this
    exact Bool.noConfusion this
  · -- an address below the old break, on the last page of the old heap, or on a new page
    by_cases ha : a < p.brkCurrent
    · exact (h.mapped.grown ht.grown hc) a hlo ha
    rcases hg.cover a (by omega) hhi with ⟨b, hb, hbc, hab⟩ | ⟨k, hk, hak⟩
    · rw [hab]
      exact (h.mapped.grown ht.grown hc) b hb hbc
    · rw [hak, ← hg.page k (by omega)]
      exact hmapped hs hc k (Nat.zero_le k) (by have := hok.mp hyes; omega)
  · -- the page at which the loop stopped is not mapped
    refine hok.mpr (by_contra fun hne => ?_)
    have hlt : m < growPages p addr := by omega
    obtain ⟨hlo, hhi⟩ := hg.inside m hlt
    have hpres := hall _ hlo hhi
    rw [hkept p.cr3 _ fun k _ hk => ?_, ← hg.page m (by omega), hfresh m hlt] at hpres
    · exact Bool.noConfusion hpres
    · rw [hg.page k (by omega)]
      exact (hg.distinct k m (by omega) hlt).symm

theorem sysBrk_law (h : HeapInv D s) (hpid : pid ∈ s.pids) (hD : D pid) (hfresh : GrowsFresh s (.brk pid addr)) :
    Ends (sysBrk pid addr) s fun ret t => BrkLaw s pid addr ret t ∧ HeapInv D t := by
  unfold sysBrk
  rw [ends_bind, ends_getProc]
  split
  next hr => exact ⟨⟨fun _ _ => rfl, fun _ _ _ => rfl, by simp [hr], fun _ => ⟨rfl, rfl⟩⟩, h⟩
  rename_i hr
  rw [Bool.not_eq_true] at hr
  have hok := h.heap pid hpid hD
  have hc := h.cr3 pid hpid hD
  rw [ends_bind]
  refine mapFresh_records.mono ?_
  rintro r t ⟨ht, hrec⟩
  have hInv := h.of_records ht.grown hrec
  have hproc : t.proc = s.proc := congrArg Prod.fst hrec
  obtain ⟨hmapping, hall⟩ := grow_law hok hr h.rooted hc (hfresh hr) ht
  have hcontents : ∀ v < userPages, (s.pteAt (s.proc pid).cr3 v).present →
      t.data (s.pteAt (s.proc pid).cr3 v).frame = s.data (s.pteAt (s.proc pid).cr3 v).frame :=
    fun v hv hp => ht.grown.data _ (h.backed pid hpid hD v hv hp)
  split
  · -- a frame was missing
    refine ⟨⟨hmapping, hcontents, fun _ hm => ?_, fun _ => ⟨rfl, by rw [pure_run, hproc]⟩⟩, hInv⟩
    exact absurd (hall.mpr hm) (by simp)
  · rw [ends_bind, ends_modifyProc, ends_pure]
    have hm := hall.mp rfl
    refine ⟨⟨hmapping, hcontents, fun _ _ => ⟨rfl, by simp [setProc]⟩, fun hno => ?_⟩, ?_⟩
    · exact absurd hm (hno.resolve_left (by simp [hr]))
    · -- the process has the new break, the others are as before
      refine hInv.grown (.of_memory rfl) rfl (Nat.le_refl _) fun q hq hDq => ?_
      obtain rfl | hqp := eq_or_ne q pid
      · have hg := hok.growRange hr
        simp only [setProc, update_self, hproc, true_and]
        exact ⟨hok.aligned, hok.user, hg.base_le, hg.le_max, hm⟩
      · simp only [setProc, update_of_ne hqp, true_and]
        exact (hInv.heap q hq hDq).grown (.of_memory rfl) (hInv.cr3 q hq hDq) rfl

theorem HeapInv.addProc (h : HeapInv D s) (hpid : pid ∉ s.pids) (hlt : pid < s.nextPid)
    (hc : s.pmm.bitmap p.cr3) (hback : s.Backed p.cr3) (hok : HeapOk s p) :
    HeapInv D { s.setProc pid p with pids := pid :: s.pids } := by
  have hold : ∀ q ∈ s.pids, (s.setProc pid p).proc q = s.proc q := by
    rintro q hq
    exact update_of_ne (ne_of_mem_of_not_mem hq hpid) ..
  have hg : MemGrown s { s.setProc pid p with pids := pid :: s.pids } := .of_memory rfl
  refine ⟨fun q hq => ?_, h.later, h.rooted, fun q hq hD => ?_, fun q hq hD => ?_, fun q hq hD => ?_⟩
  all_goals rcases mem_cons.mp hq with rfl | hq
  · exact hlt
  · exact h.nextPid q hq
  · simpa [Mm.setProc] using hc
  · simp only [hold q hq]
    exact h.cr3 q hq hD
  · simpa [Mm.setProc] using hg.backed hc hback
  · simpa only [hold q hq] using hg.backed (h.cr3 q hq hD) (h.backed q hq hD)
  · exact hok.grown hg hc (by simp [Mm.setProc])
  · exact (h.heap q hq hD).grown hg (h.cr3 q hq hD) (by rw [hold q hq])

section
variable (h : HeapInv D s) (hpid : pid ∈ s.pids) (hD : D pid)
include h hpid hD

theorem processFork_heapInv : Ends (Mem.processFork pid fault) s fun _ t => HeapInv D t := by
  unfold Mem.processFork
  split
  · exact h
  rw [ends_bind, ends_allocPid, ends_bind, ends_getProc]
  have h1 : HeapInv D { s with nextPid := s.nextPid + 1 } := h.of_heap (.of_memory rfl) rfl (by simp) fun _ => rfl
  rw [ends_bind]
  refine ((vmmCloneCow_grown (s := { s with nextPid := s.nextPid + 1 }) (h.cr3 pid hpid hD) (h.backed pid hpid hD)).and
    outside_records.vmmCloneCow.ends).mono ?_
  rintro r t ⟨⟨hg, hnew⟩, hrec⟩
  have h2 := h1.of_records hg hrec
  simp only [records, Prod.mk.injEq] at hrec
  obtain ⟨-, hpids, hnext⟩ := hrec
  cases r with
  | none => exact h2
  | some cr3 =>
    obtain ⟨hc, hback⟩ := hnew cr3 rfl
    simp only
    split
    · exact h2
    split
    · exact h2
    refine h2.addProc (fun hin => ?_) (by simp [hnext]) hc hback ?_
    · have := h.nextPid _ (hpids ▸ hin)
      omega
    · exact ⟨rfl, by simp, Nat.le_refl _, by simp, fun a _ ha => absurd ha (by simp)⟩

theorem processForkVfork_heapInv : Ends (Mem.processForkVfork pid fault) s fun _ t => HeapInv D t := by
  unfold Mem.processForkVfork
  split
  · exact h
  rw [ends_bind, ends_allocPid, ends_bind, ends_getProc]
  have hg : MemGrown s { s with nextPid := s.nextPid + 1 } := .of_memory rfl
  have h1 : HeapInv D { s with nextPid := s.nextPid + 1 } := h.of_heap hg rfl (by simp) fun _ => rfl
  split
  · exact h1
  split
  · exact h1
  have hc := h.cr3 pid hpid hD
  refine h1.addProc (fun hin => ?_) (by simp) (hg.bitmap _ hc) (hg.backed hc (h.backed pid hpid hD)) ?_
  · have := h.nextPid _ hin
    omega
  · exact (h.heap pid hpid hD).grown hg hc rfl

theorem sysFork_heapInv {vfork : Bool} : Ends (Mem.sysFork pid vfork fault) s fun _ t => HeapInv D t := by
  have hfork : Ends (forkProcess pid vfork fault) s fun _ t => HeapInv D t := by
    unfold forkProcess
    split
    · exact processForkVfork_heapInv h hpid hD
    · exact processFork_heapInv h hpid hD
  unfold Mem.sysFork
  split
  · exact h
  rw [ends_bind]
  refine hfork.mono fun r t ht => ?_
  split
  · exact ht
  rw [ends_bind]
  refine (outsideShm_records.countShm.ends.and outsideShm_memory.countShm.ends).mono ?_
  rintro _ u ⟨hrec, hmem⟩
  exact (ht.of_records (.of_memory hmem) hrec).setProc rfl

end

/-- Process numbers are below the next one, and no page table or shared region names a free frame. -/
structure Mm.Sane (m : Mm) : Prop where
  nextPid : ∀ pid ∈ m.pids, pid < m.nextPid
  rooted : m.Rooted
  cr3 : ∀ pid ∈ m.pids, m.pmm.bitmap (m.proc pid).cr3 = true
  pages : ∀ c, m.Backed c
  frames : ∀ c, ∀ f ∈ (m.space c).frames, m.pmm.bitmap f = true
  shm : ∀ i j, j < (m.shm i).numPages → m.pmm.bitmap ((m.shm i).physPages j) = true

/-- The state `s` after `pid` was made from a file, or has loaded one. -/
def Loads (m : Mm) (pid : Nat) (s : Mm) : Prop :=
  (∃ file fault, Mem.processCreateFromElf file fault m = (some pid, s)) ∨
    (pid ∈ m.pids ∧ ∃ file, Mem.sysExecve pid file m = (0, s))

structure NewSpace (m : Mm) (c : Nat) (s : Mm) : Prop where
  grown : MemGrown m s
  free : m.pmm.bitmap c = false
  used : s.pmm.bitmap c = true
  backed : s.Backed c
  fresh : ∀ v < userPages, (s.pteAt c v).present = true → m.pmm.bitmap (s.pteAt c v).frame = false
  others : ∀ d ≠ c, s.space d = m.space d

variable {m : Mm} {c : Nat} {f : ElfFile} {g : Nat}

theorem NewSpace.create : Ends vmmCreateAddressSpace m fun r s => ∀ c, r = some c → NewSpace m c s := by
  refine newSpace_grown.mono ?_
  rintro r s ⟨hg, hnew⟩ c hc
  obtain ⟨hfree, hused, hempty, hothers⟩ := hnew c hc
  have hnone : ∀ v < userPages, (s.pteAt c v).present = false := fun v hv => by rw [hempty v hv]
  exact ⟨hg, hfree, hused, fun v hv hp => by simp [hnone v hv] at hp, fun v hv hp => by simp [hnone v hv] at hp, hothers⟩

theorem NewSpace.mapFresh {virt n : Nat} {ok : Bool} (h : NewSpace m c s) (ht : MapsFresh c virt 0 n s ok t) :
    NewSpace m c t where
  grown := h.grown.trans ht.grown
  free := h.free
  used := ht.grown.bitmap c h.used
  backed := ht.grown.backed h.used h.backed
  fresh v hv hp := by
    rcases ht.fresh c v with heq | hfree
    · rw [heq] at hp ⊢
      exact h.fresh v hv hp
    · exact by_contra fun hm => by simp [h.grown.bitmap _ (by simpa using hm)] at hfree
  others d hd := (ht.others d hd).trans (h.others d hd)

theorem elfSegments_newSpace {l : List ElfPhdr} {highest count : Nat} (h : NewSpace m c s)
    (hal : highest % pageSize = 0) (hhi : highest ≤ userAddrMax) :
    Ends (elfSegments c f l highest count) s fun r t =>
      NewSpace m c t ∧ ∀ brk, r = .ok brk → brk % pageSize = 0 ∧ brk ≤ userAddrMax := by
  induction l generalizing s highest count with
  | nil =>
    refine ⟨h, ?_⟩
    rw [elfSegments, pure_run]
    intro brk hbrk
    split at hbrk
    · cases hbrk
    · cases hbrk
      exact ⟨hal, hhi⟩
  | cons p l ih =>
    unfold elfSegments
    split
    · exact ih h hal hhi
    split
    · exact ⟨h, nofun⟩
    rename_i hvalid
    rw [ends_bind]
    refine mapFresh_ends.mono fun r t ht => ?_
    split
    · exact ⟨h.mapFresh ht, nofun⟩
    have hstop : p.stop % pageSize = 0 ∧ p.stop ≤ userAddrMax := by
      simp only [ElfPhdr.valid, Bool.not_eq_true', Bool.not_eq_false, Bool.and_eq_true, decide_eq_true_eq] at hvalid
      unfold ElfPhdr.stop pageUp pageSize w64 userAddrMax at *
      omega
    refine ih (h.mapFresh ht) ?_ ?_
    · rcases Nat.le_total highest p.stop with hle | hle
      · rw [Nat.max_eq_right hle]; exact hstop.1
      · rw [Nat.max_eq_left hle]; exact hal
    · exact Nat.max_le.mpr ⟨hhi, hstop.2⟩

theorem elfLoad_newSpace :
    Ends (elfLoad f) m fun r s => ∀ c brk, r = .ok (c, brk) →
      NewSpace m c s ∧ brk % pageSize = 0 ∧ brk ≤ userAddrMax := by
  unfold elfLoad
  split
  · exact nofun
  rw [ends_bind]
  refine NewSpace.create.mono fun r t ht => ?_
  cases r with
  | none => exact nofun
  | some c =>
    rw [ends_bind]
    refine (elfSegments_newSpace (ht c rfl) rfl (Nat.zero_le _)).mono ?_
    rintro r u ⟨hu, hbrk⟩
    split
    · exact nofun
    · rintro c' brk' ⟨⟩
      exact ⟨hu, hbrk _ rfl⟩

theorem mapStack_newSpace (h : NewSpace m c s) : Ends (mapStack c) s fun _ t => NewSpace m c t := by
  unfold mapStack
  rw [ends_bind]
  refine mapFresh_ends.mono fun r t ht => ?_
  split <;> exact h.mapFresh ht

/-- `pid`, or a process made later. -/
def OfFamily (pid : Nat) (s : Mm) (q : Nat) : Prop := q = pid ∨ s.nextPid ≤ q

theorem HeapInv.of_load (hc : s.pmm.bitmap p.cr3) (hback : s.Backed p.cr3) (hs : s.Rooted)
    (hal : p.brkBase % pageSize = 0) (hmax : p.brkBase ≤ userAddrMax) (hbrk : p.brkCurrent = p.brkBase)
    (hp : s.proc pid = p) (hnext : ∀ q ∈ s.pids, q < s.nextPid) : HeapInv (OfFamily pid s) s := by
  have hone : ∀ q ∈ s.pids, OfFamily pid s q → q = pid := by
    rintro q hq (rfl | hle)
    · rfl
    · have := hnext q hq
      omega
  refine ⟨hnext, fun q => .inr, hs, fun q hq hD => ?_, fun q hq hD => ?_, fun q hq hD => ?_⟩
  all_goals rw [hone q hq hD, hp]
  · exact hc
  · exact hback
  · exact ⟨hal, hmax, by omega, by omega, fun a h1 h2 => by omega⟩

theorem processCreateFromElf_heapInv (hm : m.Sane) :
    Ends (Mem.processCreateFromElf f fault) m fun r s => ∀ pid, r = some pid → HeapInv (OfFamily pid s) s := by
  unfold Mem.processCreateFromElf
  rw [ends_bind]
  refine (elfLoad_newSpace.and outside_records.elfLoad.ends).mono ?_
  rintro r s ⟨hload, hrec⟩
  split
  · exact nofun
  rename_i cr3 brk
  obtain ⟨hs, hal, hmax⟩ := hload cr3 brk rfl
  split
  · exact nofun
  rw [ends_bind, ends_allocPid, ends_bind]
  have hs1 : NewSpace m cr3 { s with nextPid := s.nextPid + 1 } := { hs with grown := hs.grown.trans (.of_memory rfl) }
  refine ((mapStack_newSpace hs1).and outside_records.mapStack.ends).mono ?_
  rintro ok t ⟨ht, hrec'⟩
  simp only [records, Prod.mk.injEq] at hrec hrec'
  split
  · split
    · exact nofun
    split
    · exact nofun
    rw [ends_bind, ends_addProc, ends_pure]
    rintro pid ⟨rfl⟩
    refine HeapInv.of_load (p := { cr3, mmapNextAddr := mmapRegionBase, brkBase := brk, brkCurrent := brk }) ht.used
      ht.backed (ht.grown.rooted hm.rooted) hal hmax rfl ?_ fun q hq => ?_
    · simp [setProc]
    · obtain ⟨-, hpids, hnext⟩ := hrec
      obtain ⟨-, hpids', hnext'⟩ := hrec'
      change q < t.nextPid
      rcases mem_cons.mp hq with rfl | hq
      · omega
      · have := hm.nextPid q (hpids ▸ hpids' ▸ hq)
        omega
  · exact nofun

theorem foldl_freePage_bitmap {l : List Nat} {p : Pmm} (h : g ∉ l) :
    (l.foldl (fun p f => p.freePage f) p).bitmap g = p.bitmap g := by
  induction l generalizing p with
  | nil => rfl
  | cons f l ih =>
    rw [mem_cons, not_or] at h
    rw [foldl_cons, ih h.2, freePage_bitmap h.1]

def Mm.Unshared (s : Mm) (g : Nat) : Prop := ∀ i j, j < (s.shm i).numPages → (s.shm i).physPages j ≠ g

structure Spared (g : Nat) (s t : Mm) : Prop where
  bitmap : t.pmm.bitmap g = s.pmm.bitmap g
  unshared : t.Unshared g
  kernel : t.kernel = s.kernel
  space : t.space = s.space
  pids : t.pids = s.pids
  nextPid : t.nextPid = s.nextPid
  cr3 : ∀ q, (t.proc q).cr3 = (s.proc q).cr3

theorem Spared.trans (h : Spared g s t) (h' : Spared g t u) : Spared g s u :=
  ⟨h'.bitmap.trans h.bitmap, h'.unshared, h'.kernel.trans h.kernel, h'.space.trans h.space, h'.pids.trans h.pids,
    h'.nextPid.trans h.nextPid, fun q => (h'.cr3 q).trans (h.cr3 q)⟩

theorem shmDrop_spares {g sid : Nat} (h : s.Unshared g) : Ends (shmDrop sid) s fun _ t => Spared g s t := by
  unfold shmDrop
  simp only [ends_modify]
  split
  · split
    · refine ⟨?_, fun i j hj => ?_, rfl, rfl, rfl, rfl, fun _ => rfl⟩
      · have hlist := foldl_freePage_bitmap (l := (range (s.shm sid).numPages).map (s.shm sid).physPages)
          (p := s.pmm) (g := g) (by
            intro hg
            obtain ⟨j, hj, hjg⟩ := mem_map.mp hg
            exact h sid j (mem_range.mp hj) hjg)
        rwa [foldl_map] at hlist
      · obtain rfl | hi := eq_or_ne i sid
        · simp [setShm] at hj
        · simp only [setShm, update_of_ne hi] at hj ⊢
          exact h i j hj
    · refine ⟨rfl, fun i j hj => ?_, rfl, rfl, rfl, rfl, fun _ => rfl⟩
      obtain rfl | hi := eq_or_ne i sid
      · simp only [setShm, update_self] at hj ⊢
        exact h i j hj
      · simp only [setShm, update_of_ne hi] at hj ⊢
        exact h i j hj
  · exact ⟨rfl, h, rfl, rfl, rfl, rfl, fun _ => rfl⟩

theorem detachShm_spares {l : List (Fin mmapMaxEntries)} (h : s.Unshared g) :
    Ends (detachShm pid l) s fun _ t => Spared g s t := by
  induction l generalizing s with
  | nil => exact ⟨rfl, h, rfl, rfl, rfl, rfl, fun _ => rfl⟩
  | cons i l ih =>
    unfold detachShm
    rw [ends_bind, ends_getProc]
    split
    · rw [ends_bind]
      refine (shmDrop_spares h).mono fun _ t ht => ?_
      have hdrop : Spared g t (t.setProc pid ((t.proc pid).dropEntry i)) :=
        ⟨rfl, ht.unshared, rfl, rfl, rfl, rfl, setProc_field rfl⟩
      exact (ih hdrop.unshared).mono fun _ u hu => (ht.trans hdrop).trans hu
    · exact ih h

theorem leaveSpace_spares
    (hpages : ∀ v < userPages, ((s.space p.cr3).pte v).present → ((s.space p.cr3).pte v).frame ≠ g)
    (hframes : g ∉ (s.space p.cr3).frames) : Ends (leaveSpace p) s fun _ t => t.pmm.bitmap g = s.pmm.bitmap g := by
  unfold leaveSpace
  split
  · rfl
  rw [vmmFreeUserPages, ends_modify]
  refine foldl_freePage_bitmap fun hin => ?_
  rcases mem_append.mp hin with hin | hin
  · obtain ⟨v, hv, hvg⟩ := mem_map.mp hin
    have hv := (mem_filter.mp hv).2
    simp only [Bool.and_eq_true, decide_eq_true_eq] at hv
    exact hpages v hv.1 hv.2 hvg
  · exact hframes hin

theorem leaveSpace_rest :
    Ends (leaveSpace p) s fun _ t => t.kernel = s.kernel ∧ (∀ d ≠ p.cr3, t.space d = s.space d) ∧
      (s.Rooted → t.Rooted) ∧ t.pids = s.pids ∧ t.nextPid = s.nextPid := by
  unfold leaveSpace
  split
  · exact ⟨rfl, fun _ _ => rfl, id, rfl, rfl⟩
  rw [vmmFreeUserPages, ends_modify]
  refine ⟨rfl, fun d hd => update_of_ne hd .., fun hs d i hi => ?_, rfl, rfl⟩
  refine hs d i ?_
  obtain rfl | hd := eq_or_ne d p.cr3
  · simp [setSpace] at hi
  · simpa [setSpace, update_of_ne hd] using hi

theorem sysExecve_heapInv (hm : m.Sane) (hpid : pid ∈ m.pids) :
    Ends (Mem.sysExecve pid f) m fun r s => r = 0 → HeapInv (OfFamily pid s) s := by
  unfold Mem.sysExecve
  rw [ends_bind]
  refine ((elfLoad_newSpace.and outside_records.elfLoad.ends).and outsideMemory_shm.elfLoad.ends).mono ?_
  rintro r s ⟨⟨hload, hrec⟩, hshm⟩
  split
  · exact fun h => absurd (show (-ENOEXEC : Int) = 0 from h) (by decide)
  rename_i cr3 brk
  obtain ⟨hs, hal, hmax⟩ := hload cr3 brk rfl
  rw [ends_bind]
  refine (((mapStack_newSpace hs).and outside_records.mapStack.ends).and
    outsideMemory_shm.mapStack.ends).mono ?_
  rintro ok t ⟨⟨ht, hrec'⟩, hshm'⟩
  rw [hrec] at hrec'
  rw [hshm] at hshm'
  simp only [records, Prod.mk.injEq] at hrec'
  obtain ⟨hproc, hpids, hnext⟩ := hrec'
  split
  · -- what was free in `m` is in no shared region and not part of the old image
    have hold : m.pmm.bitmap (m.proc pid).cr3 := hm.cr3 pid hpid
    have hne : (m.proc pid).cr3 ≠ cr3 := fun heq => by simp [heq, ht.free] at hold
    have hspace := ht.others _ hne
    have hunshared : ∀ g, m.pmm.bitmap g = false → t.Unshared g := by
      intro g hg i j hj hjg
      rw [hshm'] at hj hjg
      simpa [hjg, hg] using hm.shm i j hj
    have hpages : ∀ g, m.pmm.bitmap g = false → ∀ v < userPages,
        ((m.space (m.proc pid).cr3).pte v).present → ((m.space (m.proc pid).cr3).pte v).frame ≠ g := by
      intro g hg v hv hp heq
      have := hm.pages (m.proc pid).cr3 v hv
      rw [(private_of_user hv).pteAt] at this
      simpa [heq, hg] using this hp
    have hframes : ∀ g, m.pmm.bitmap g = false → g ∉ (m.space (m.proc pid).cr3).frames := by
      intro g hg hin
      simpa [hg] using hm.frames _ g hin
    rw [ends_bind]
    have hdetach : Ends (detachShm pid (finRange mmapMaxEntries)) t fun _ u =>
        ∀ g, m.pmm.bitmap g = false → Spared g t u := fun g hg => (detachShm_spares (hunshared g hg)).run
    refine hdetach.mono fun _ u hu => ?_
    have hcr3 := hu cr3 ht.free
    rw [ends_bind, ends_getProc, ends_bind]
    have hucr3 : (u.proc pid).cr3 = (m.proc pid).cr3 := by rw [hcr3.cr3, hproc]
    have huspace : u.space (u.proc pid).cr3 = m.space (m.proc pid).cr3 := by rw [hucr3, hcr3.space, hspace]
    have hleave : Ends (leaveSpace (u.proc pid)) u fun _ w =>
        ∀ g, m.pmm.bitmap g = false → w.pmm.bitmap g = u.pmm.bitmap g := by
      intro g hg
      refine (leaveSpace_spares ?_ ?_).run
      · rw [huspace]
        exact hpages g hg
      · rw [huspace]
        exact hframes g hg
    refine (hleave.and leaveSpace_rest).mono ?_
    rintro _ w ⟨hw, hkernel, hothers, hroot, hwpids, hwnext⟩
    rw [ends_bind, ends_modifyProc, ends_pure]
    intro _
    have hwspace : w.space cr3 = t.space cr3 := by
      rw [hothers cr3 (by rw [hucr3]; exact hne.symm), hcr3.space]
    have hwpte : ∀ v, w.pteAt cr3 v = t.pteAt cr3 v := pteAt_congr (hkernel.trans hcr3.kernel) hwspace
    have hused : ∀ g, m.pmm.bitmap g = false → w.pmm.bitmap g = t.pmm.bitmap g := fun g hg =>
      (hw g hg).trans (hu g hg).bitmap
    have htroot : u.Rooted := by
      unfold Mm.Rooted
      rw [hcr3.space, hcr3.kernel]
      exact ht.grown.rooted hm.rooted
    refine HeapInv.of_load (p := { w.proc pid with
        cr3, brkBase := brk, brkCurrent := brk, mmapTable := fun _ => {}, mmapNextAddr := mmapRegionBase
        usedMemPages := 0, vforkParent := none }) ?_ ?_ (hroot htroot) hal hmax rfl ?_ ?_
    · exact (hused cr3 ht.free).trans ht.used
    · intro v hv hp
      change (w.pteAt cr3 v).present = true at hp
      change w.pmm.bitmap (w.pteAt cr3 v).frame
      rw [hwpte] at hp ⊢
      rw [hused _ (ht.fresh v hv hp)]
      exact ht.backed v hv hp
    · simp [setProc]
    · intro q hq
      change q < w.nextPid
      have hq : q ∈ m.pids := by
        rw [← hpids, ← hcr3.pids, ← hwpids]
        exact hq
      have := hm.nextPid q hq
      rw [hwnext, hcr3.nextPid, hnext]
      exact this
  · exact fun h => absurd (show (-ENOMEM : Int) = 0 from h) (by decide)

theorem Loads.heapInv (hm : m.Sane) (h : Loads m pid s) : HeapInv (OfFamily pid s) s := by
  rcases h with ⟨file, fault, h⟩ | ⟨hpid, file, h⟩
  · have hcreate : Ends (Mem.processCreateFromElf file fault) m _ := processCreateFromElf_heapInv hm
    have := hcreate.run pid (by rw [h])
    rwa [h] at this
  · have := (sysExecve_heapInv (f := file) hm hpid).run (by rw [h])
    rwa [h] at this

/-- `sys_brk`, a fork or `sys_mmap` of a process in `D`. -/
def MemOp.HeapCall (D : Nat → Prop) : MemOp → Prop
  | .brk pid _ | .fork pid _ _ | .mmap pid _ _ _ _ => D pid
  | _ => False

theorem HeapInv.step {op : MemOp} (h : HeapInv D s) (hop : op.HeapCall D) (hok : GrowsFresh s op) :
    HeapInv D (s.step op) := by
  unfold Mm.step
  split
  next hruns =>
    have hpid : op.pid ∈ s.pids := by
      simp only [runs, Bool.and_eq_true, decide_eq_true_eq] at hruns
      exact hruns.1
    cases op with
    | brk pid addr => exact ((sysBrk_law h hpid hop hok).mono fun _ _ => And.right).run
    | mmap pid a l pr fl => exact (sysMmap_heapInv h).run
    | fork pid v f => exact (sysFork_heapInv h hpid hop).run
    | munmap | mmap2 | mmapGuard | mmapFile | fmmap | shmget | shmat | shmdt | mprotect | execve | terminate
    | setLimit | access | write | signal => exact hop.elim
  · exact h

/-- If every `sys_brk` of the run that is not refused grows into pages not present, each keeps the pages of its caller,
    and moves the break exactly if the whole heap is mapped. -/
theorem brk_keeps_memory {m s : Mm} {pid0 pid addr : Nat} {ops : List MemOp} (hm : m.Sane) (hload : Loads m pid0 s)
    (hops : ∀ op ∈ ops ++ [.brk pid addr], op.HeapCall (OfFamily pid0 s))
    (hok : Guarded step GrowsFresh s (ops ++ [.brk pid addr])) (hruns : (run step s ops).runs pid) :
    BrkLaw (run step s ops) pid addr (sysBrk pid addr (run step s ops)).1
      (sysBrk pid addr (run step s ops)).2 := by
  obtain ⟨hok1, hok2⟩ := guarded_append.mp hok
  have hinv : HeapInv (OfFamily pid0 s) (run step s ops) :=
    (hok1.and_forall fun op hop => hops op (mem_append_left _ hop)).invariant
      (fun _ _ h hop => h.step hop.1 hop.2) (hload.heapInv hm)
  have hD : OfFamily pid0 s pid := hops (.brk pid addr) (mem_append_right _ mem_cons_self)
  simp only [runs, Bool.and_eq_true, decide_eq_true_eq] at hruns
  exact ((sysBrk_law hinv hruns.1 hD hok2.1).mono fun _ _ => And.left).run

def bareMachine : Mm :=
  { pmm := { oneProcess.pmm with total := 128 }, kernel := default, space := fun _ => default }

theorem bareMachine_sane : bareMachine.Sane where
  nextPid _ h := absurd h not_mem_nil
  rooted _ _ h := Bool.noConfusion h
  cr3 _ h := absurd h not_mem_nil
  pages _ _ _ h := Bool.noConfusion h
  frames _ _ h := absurd h not_mem_nil
  shm _ _ h := absurd h (Nat.not_lt_zero _)

def lowImage : ElfFile where
  size := 4096 + 64
  byte _ := 7
  magic := 0x464C457F
  class64 := 2
  encoding := 1
  type := 2
  machine := 62
  phoff := 8
  phnum := 1
  phentsize := 56
  entry := 0x1000
  phdr _ := { vaddr := 0x1000, memsz := 4096, filesz := 4096, offset := 64, write := true, exec := true }

def lowProcess : Mm := (Mem.processCreateFromElf lowImage {} bareMachine).2

theorem lowProcess_loads : Loads bareMachine 1 lowProcess := by
  have hpid : (Mem.processCreateFromElf lowImage {} bareMachine).1 = some 1 := by decide +kernel
  exact .inl ⟨lowImage, {}, by rw [lowProcess, ← hpid]⟩

theorem brk_keeps_memory_grow :
    BrkLaw (run step lowProcess [.brk 1 0x2800, .fork 1 false {}]) 1 0x3800
      (sysBrk 1 0x3800 (run step lowProcess [.brk 1 0x2800, .fork 1 false {}])).1
      (sysBrk 1 0x3800 (run step lowProcess [.brk 1 0x2800, .fork 1 false {}])).2 :=
  @brk_keeps_memory bareMachine lowProcess 1 1 0x3800 [.brk 1 0x2800, .fork 1 false {}] bareMachine_sane
    lowProcess_loads (by simp [MemOp.HeapCall, OfFamily])
    ⟨fun _ => by decide +kernel, trivial, fun _ => by decide +kernel, trivial⟩ (by decide +kernel)

/-- The break of a forked child starts at 0. Its first page of heap but one lies on the copied image, and the call
    puts a page of zeros in its place. -/
theorem child_heap_over_image :
    ∃ (m s : Mm) (ops : List MemOp) (pid addr : Nat), m.Sane ∧ Loads m 1 s ∧
      (∀ op ∈ ops ++ [.brk pid addr], op.HeapCall (OfFamily 1 s)) ∧ (run step s ops).runs pid ∧
      ((run step s ops).pteAt ((run step s ops).proc pid).cr3 1).present = true ∧
      ¬ BrkLaw (run step s ops) pid addr (sysBrk pid addr (run step s ops)).1
        (sysBrk pid addr (run step s ops)).2 := by
  refine ⟨bareMachine, lowProcess, [.fork 1 false {}], 2, 0x2000, bareMachine_sane, lowProcess_loads, ?_,
    by decide +kernel, by decide +kernel, fun h => ?_⟩
  · have hnext : lowProcess.nextPid = 2 := by decide +kernel
    simp [MemOp.HeapCall, OfFamily, hnext]
  · exact absurd (h.mapping 1 (by decide +kernel)) (by decide +kernel)

end Limnx
