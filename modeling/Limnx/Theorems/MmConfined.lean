import Limnx.Theorems.MmTables

/-! Which page table entries a call on a range changes. -/

namespace Limnx

open Function StateProg Mem Mm

variable {s t u : Mm} {c pid virt : Nat} {V : Nat → Prop}

def Below (virt n : Nat) : Prop := n = 0 ∨ pageOf virt + n ≤ userPages

theorem below_iff (virt n : Nat) : Below virt n ↔ ∀ i < n, rangePage virt i < userPages := by
  have hlt : pageOf virt < 2 ^ 36 := Nat.mod_lt _ (by decide)
  simp only [rangePage_eq, Below]
  unfold userPages
  constructor
  · intro h i hi
    omega
  · intro h
    -- the first page of the range that is not below the end of the user half
    by_contra hn
    have h1 := h (2 ^ 35 - pageOf virt) (by omega)
    omega

/-- Only entries on the way to pages of `V` in the address space `c` differ. -/
structure Touches (c : Nat) (V : Nat → Prop) (s t : Mm) : Prop where
  kernel : t.kernel = s.kernel
  others : ∀ d ≠ c, t.space d = s.space d
  pte : ∀ v, (t.space c).pte v ≠ (s.space c).pte v → V v
  table : ∀ l i, (t.space c).table l i ≠ (s.space c).table l i → ∃ v, V v ∧ i = v / 512 ^ l

namespace Touches

theorem refl : Touches c V s s := ⟨rfl, fun _ _ => rfl, fun _ h => absurd rfl h, fun _ _ h => absurd rfl h⟩

theorem trans (h : Touches c V s t) (h' : Touches c V t u) : Touches c V s u where
  kernel := h'.kernel.trans h.kernel
  others d hd := (h'.others d hd).trans (h.others d hd)
  pte v hv := by
    by_cases htv : (t.space c).pte v = (s.space c).pte v
    · exact h'.pte v (htv ▸ hv)
    · exact h.pte v htv
  table l i hi := by
    by_cases hti : (t.space c).table l i = (s.space c).table l i
    · exact h'.table l i (hti ▸ hi)
    · exact h.table l i hti

theorem of_eq (hk : t.kernel = s.kernel) (hs : t.space = s.space) : Touches c V s t :=
  ⟨hk, fun _ _ => by rw [hs], fun _ h => absurd (by rw [hs]) h, fun _ _ h => absurd (by rw [hs]) h⟩

end Touches

theorem Extends.touches {v : Nat} {new : List Nat} (h : Extends c v new s t) (hv : V v)
    (hpte : ∀ w ≠ v, (t.space c).pte w = (s.space c).pte w) : Touches c V s t where
  kernel := h.kernel
  others _ hd := h.others hd
  pte w hw := by
    by_cases hwv : w = v
    · exact hwv ▸ hv
    · exact absurd (hpte w hwv) hw
  table l i hi := ⟨v, hv, by_contra fun hne => hi (h.table_eq l i hne)⟩

variable (hV : ∀ v, V v → v < userPages) {fill : Nat → Buf} {flags : PteFlags} {n i : Nat} {free : Bool}
include hV

theorem vmmMapPageIn_touches {va f : Nat} (hv : V (pageOf va)) :
    Ends (vmmMapPageIn c va f flags) s fun _ t => Touches c V s t := by
  refine (vmmMapPageIn_ends (private_of_user (hV _ hv))).mono ?_
  rintro ok t ⟨new, hext, hpte, -⟩
  refine hext.touches hv fun w hw => ?_
  rw [hpte]
  split
  · exact update_of_ne hw ..
  · rfl

theorem storePte_touches {va : Nat} {e : Pte} (hv : V (pageOf va)) :
    Ends (storePte c va e) s fun _ t => Touches c V s t := by
  have hp : s.Private c (pageOf va) := private_of_user (hV _ hv)
  refine (Extends.setPte hp e).touches hv fun w hw => ?_
  rw [hp.setHome, setSpace_self, Space.setPte_pte]
  split
  · exact update_of_ne hw ..
  · rfl

theorem mapFresh_touches {giveBack : Bool} (hr : ∀ k, i ≤ k → k < i + n → V (rangePage virt k)) :
    Ends (mapFresh c virt flags giveBack fill i n) s fun _ t => Touches c V s t := by
  induction n generalizing i s with
  | zero => exact .refl
  | succ n ih =>
    unfold mapFresh
    rw [ends_bind]
    refine ends_allocPage fun f pmm _ => ?_
    cases f with
    | none => exact .of_eq rfl rfl
    | some f =>
      simp only [ends_bind, fillFrame, ends_modify]
      refine (vmmMapPageIn_touches hV (hr i (Nat.le_refl i) (by omega))).mono fun ok t ht => ?_
      -- the state in which the page is mapped differs from `s` in frames and contents
      have h₀ : Touches c V s { s with pmm, data := update s.data f (fill i) } := .of_eq rfl rfl
      replace ht := h₀.trans ht
      split
      · rw [ends_bind]
        refine (ih fun k hk hkn => hr k (by omega) (by omega)).mono fun r u hu => ?_
        split <;> exact ht.trans hu
      · split
        · exact ht.trans (.of_eq rfl rfl)
        · exact ht

theorem unmapPage_touches {va other : Nat} (hv : V (pageOf va)) :
    Ends (unmapPage c va free other) s fun _ t => Touches c V s t := by
  unfold unmapPage
  rw [ends_bind, ends_vmmGetPte]
  split
  · rw [ends_bind]
    refine (storePte_touches hV hv).mono fun _ t ht => ?_
    split
    · exact ht.trans (.of_eq rfl rfl)
    · exact ht
  · split <;> exact .of_eq rfl rfl

theorem unmapPages_touches {phys : Nat} (hr : ∀ k, i ≤ k → k < i + n → V (rangePage virt k)) :
    Ends (unmapPages c virt phys free i n) s fun _ t => Touches c V s t := by
  induction n generalizing i s with
  | zero => exact .refl
  | succ n ih =>
    unfold unmapPages
    rw [ends_bind]
    refine (unmapPage_touches hV (hr i (Nat.le_refl i) (by omega))).mono fun _ t ht => ?_
    exact (ih fun k hk hkn => hr k (by omega) (by omega)).mono fun _ u hu => ht.trans hu

theorem protectPages_touches {prot n i : Nat} (hr : ∀ k, i ≤ k → k < i + n → V (rangePage virt k)) :
    Ends (protectPages c virt prot i n) s fun _ t => Touches c V s t := by
  induction n generalizing i s with
  | zero => exact .refl
  | succ n ih =>
    have hpage : Ends (protectPage c (w64 (virt + i * pageSize)) prot) s fun _ t => Touches c V s t := by
      unfold protectPage
      rw [ends_bind, ends_vmmGetPte]
      split
      · exact storePte_touches hV (hr i (Nat.le_refl i) (by omega))
      · exact .refl
    unfold protectPages
    rw [ends_bind]
    refine hpage.mono fun _ t ht => ?_
    exact (ih fun k hk hkn => hr k (by omega) (by omega)).mono fun _ u hu => ht.trans hu

omit hV

/-! ### The calls -/

inductive RangeCall
  | mmap (addrHint length prot flags : Nat)
  | mprotect (virtAddr length prot : Nat)
  | munmap (virtAddr : Nat)
  | brk (addr : Nat)

def MmapEntry.Holds (e : MmapEntry) (v : Nat) : Prop := InRange e.virtAddr e.numPages v

namespace RangeCall

def op (pid : Nat) : RangeCall → MemOp
  | mmap addrHint length prot flags => .mmap pid addrHint length prot flags
  | mprotect virtAddr length prot => .mprotect pid virtAddr length prot
  | munmap virtAddr => .munmap pid virtAddr
  | brk addr => .brk pid addr

def OfMapping : RangeCall → Prop
  | mprotect .. | munmap .. => True
  | mmap .. | brk .. => False

variable (p : MmProc)

def mmapRefuses (length prot flags : Nat) : Prop :=
  length = 0 ∨ mmapNumPages length flags = 0 ∨ mmapMaxPages < mmapNumPages length flags ∨
    (mapFixed flags ∧ prot = 0) ∨ p.overLimit (mmapNumPages length flags) ∨ p.freeSlot = none

def mprotectRefuses (virtAddr length : Nat) : Prop :=
  virtAddr % pageSize ≠ 0 ∨ length = 0 ∨ p.findSlot (fun e => e.covers virtAddr (lengthPages length)) = none

def brkPages (addr : Nat) : Nat := (pageUp addr - pageUp p.brkCurrent) / pageSize

/-- The call is refused, or its range ends in the user half and, for a range of mapped pages, belongs to one
    used entry of the process. -/
def Inside : RangeCall → Prop
  | mmap addrHint length prot flags =>
    mmapRefuses p length prot flags ∨ Below (mmapVirt p addrHint flags) (mmapNumPages length flags)
  | mprotect virtAddr length _ =>
    mprotectRefuses p virtAddr length ∨
      (Below virtAddr (lengthPages length) ∧
        ∃ slot, (p.mmapTable slot).used ∧ ∀ i < lengthPages length, (p.mmapTable slot).Holds (rangePage virtAddr i))
  | munmap virtAddr =>
    ∀ slot, p.findSlot (fun e => e.virtAddr = virtAddr) = some slot → Below virtAddr (p.mmapTable slot).numPages
  | brk addr => p.brkRefuses addr ∨ Below (pageUp p.brkCurrent) (brkPages p addr)

end RangeCall

/-- A call of a process with the record `p` changes nothing in the kernel's page tables and other address spaces, in its
    own only entries for the user half, and for a call on mapped pages only those of one used entry. -/
structure TablesConfined (p : MmProc) (call : RangeCall) (s t : Mm) : Prop where
  kernel : t.kernel = s.kernel
  others : ∀ d ≠ p.cr3, t.space d = s.space d
  pte : ∀ v, (t.space p.cr3).pte v ≠ (s.space p.cr3).pte v → v < userPages
  table : ∀ l i, (t.space p.cr3).table l i ≠ (s.space p.cr3).table l i → ∃ v < userPages, i = v / 512 ^ l
  entry : call.OfMapping → ∀ w, (t.space p.cr3).pte w ≠ (s.space p.cr3).pte w →
    ∃ slot, (p.mmapTable slot).used ∧
      ∀ v, (t.space p.cr3).pte v ≠ (s.space p.cr3).pte v → (p.mmapTable slot).Holds v

variable {p : MmProc} {call : RangeCall}

theorem Touches.confined (h : Touches p.cr3 V s t) (hV : ∀ v, V v → v < userPages)
    (he : call.OfMapping → ∃ slot, (p.mmapTable slot).used ∧ ∀ v, V v → (p.mmapTable slot).Holds v) :
    TablesConfined p call s t where
  kernel := h.kernel
  others := h.others
  pte v hv := hV v (h.pte v hv)
  table l i hi := by
    obtain ⟨v, hv, rfl⟩ := h.table l i hi
    exact ⟨v, hV v hv, rfl⟩
  entry hcall _ _ := by
    obtain ⟨slot, hused, hslot⟩ := he hcall
    exact ⟨slot, hused, fun v hv => hslot v (h.pte v hv)⟩

theorem TablesConfined.refl (p : MmProc) (call : RangeCall) (s : Mm) : TablesConfined p call s s :=
  ⟨rfl, fun _ _ => rfl, fun _ h => absurd rfl h, fun _ _ h => absurd rfl h, fun _ _ h => absurd rfl h⟩

/-! ### Each call is its loop

As far as page tables go, a call that is not refused does what its loop over the pages does. -/

structure SameTables (s t : Mm) : Prop where
  kernel : t.kernel = s.kernel
  space : t.space = s.space

theorem TablesConfined.congr (h : TablesConfined p call s t) (htu : SameTables t u) : TablesConfined p call s u := by
  obtain ⟨hk, hs⟩ := htu
  constructor
  · rw [hk]; exact h.kernel
  · rw [hs]; exact h.others
  · rw [hs]; exact h.pte
  · rw [hs]; exact h.table
  · rw [hs]; exact h.entry

open RangeCall

theorem sysMmap_of_refuses {addrHint length prot flags : Nat} (h : mmapRefuses (s.proc pid) length prot flags) :
    Ends (sysMmap pid addrHint length prot flags) s fun _ t => t = s := by
  unfold sysMmap
  split
  · rfl
  split
  · rfl
  split
  · rfl
  rw [ends_bind, ends_getProc]
  split
  · rfl
  split
  · rfl
  exfalso
  unfold mmapRefuses at h
  simp_all

theorem sysMmap_loop {addrHint length prot flags : Nat} (h : ¬ mmapRefuses (s.proc pid) length prot flags) :
    Ends (sysMmap pid addrHint length prot flags) s fun _ t =>
      SameTables
        (mapFresh (s.proc pid).cr3 (mmapVirt (s.proc pid) addrHint flags) userData true (fun _ => zeroBytes) 0
          (mmapNumPages length flags) s).2 t := by
  unfold mmapRefuses at h
  push Not at h
  obtain ⟨hl, hn, hm, hf, ho, hs⟩ := h
  unfold sysMmap
  rw [if_neg hl, if_neg (by omega), if_neg (by tauto), ends_bind, ends_getProc, if_neg ho]
  split
  · contradiction
  rw [ends_bind]
  refine ends_self.mono ?_
  rintro r t rfl
  split <;> exact ⟨rfl, rfl⟩

theorem sysBrk_of_refuses {addr : Nat} (h : (s.proc pid).brkRefuses addr) :
    Ends (sysBrk pid addr) s fun _ t => t = s := by
  unfold sysBrk
  rw [ends_bind, ends_getProc, if_pos h, ends_pure]

theorem sysBrk_loop {addr : Nat} (h : ¬ (s.proc pid).brkRefuses addr) :
    Ends (sysBrk pid addr) s fun _ t =>
      SameTables
        (mapFresh (s.proc pid).cr3 (pageUp (s.proc pid).brkCurrent) userData true (fun _ => zeroBytes) 0
          (brkPages (s.proc pid) addr) s).2 t := by
  unfold sysBrk
  rw [ends_bind, ends_getProc, if_neg h, ends_bind]
  refine ends_self.mono ?_
  rintro r t rfl
  split <;> exact ⟨rfl, rfl⟩

theorem sysMprotect_of_refuses {virtAddr length prot : Nat} (h : mprotectRefuses (s.proc pid) virtAddr length) :
    Ends (sysMprotect pid virtAddr length prot) s fun _ t => t = s := by
  unfold sysMprotect
  rw [ends_bind, ends_getProc]
  split
  · rfl
  split
  · rfl
  split
  · rfl
  exfalso
  unfold mprotectRefuses at h
  simp_all

theorem sysMprotect_loop {virtAddr length prot : Nat} (h : ¬ mprotectRefuses (s.proc pid) virtAddr length) :
    Ends (sysMprotect pid virtAddr length prot) s fun _ t =>
      SameTables (protectPages (s.proc pid).cr3 virtAddr prot 0 (lengthPages length) s).2 t := by
  unfold mprotectRefuses at h
  push Not at h
  obtain ⟨ha, hl, hs⟩ := h
  unfold sysMprotect
  rw [ends_bind, ends_getProc, if_neg (by omega), if_neg hl]
  split
  · contradiction
  · exact ⟨rfl, rfl⟩

theorem shmDrop_tables (sid : Nat) : Ends (shmDrop sid) s fun _ t => SameTables s t := by
  unfold shmDrop
  simp only [ends_modify]
  split
  · split <;> exact ⟨rfl, rfl⟩
  · exact ⟨rfl, rfl⟩

theorem sysMunmap_none {virtAddr : Nat} (h : (s.proc pid).findSlot (fun e => e.virtAddr = virtAddr) = none) :
    Ends (sysMunmap pid virtAddr) s fun _ t => t = s := by
  unfold sysMunmap
  rw [ends_bind, ends_getProc]
  split
  · rfl
  · simp_all

theorem sysMunmap_loop {virtAddr : Nat} {slot : Fin mmapMaxEntries}
    (h : (s.proc pid).findSlot (fun e => e.virtAddr = virtAddr) = some slot) :
    ∃ phys free, Ends (sysMunmap pid virtAddr) s fun _ t =>
      SameTables (unmapPages (s.proc pid).cr3 virtAddr phys free 0 ((s.proc pid).mmapTable slot).numPages s).2 t := by
  have hva : ((s.proc pid).mmapTable slot).virtAddr = virtAddr := by simpa using (findSlot_used h).2
  unfold sysMunmap
  simp only [ends_bind, ends_getProc, h, unmapEntry, hva]
  split
  next sid _ =>
    refine ⟨0, false, ?_⟩
    rw [ends_bind]
    refine ends_self.mono ?_
    rintro _ t rfl
    exact (shmDrop_tables sid).mono fun _ u hu => ⟨hu.kernel, hu.space⟩
  · exact ⟨_, true, rfl, rfl⟩

/-! ### A machine in which every loop runs to its end -/

structure Open (c : Nat) (s : Mm) : Prop where
  table : ∀ l i, ((s.space c).table l i).isSome
  shared : ∀ i, (s.space c).shared i = false

theorem Extends.opens {v : Nat} {new : List Nat} (h : Extends c v new s t) (ho : Open c s) : Open c t :=
  ⟨fun l i => h.table_mono l i (ho.table l i), by rw [h.shared]; exact ho.shared⟩

theorem storePte_open {va : Nat} {e : Pte} (h : Open c s) :
    Ends (storePte c va e) s fun _ t =>
      Open c t ∧ (t.space c).pte = update (s.space c).pte (pageOf va) e := by
  have hp : s.Private c (pageOf va) := h.shared _
  rw [storePte, ends_modify]
  refine ⟨(Extends.setPte hp e).opens h, ?_⟩
  rw [hp.setHome, setSpace_self, Space.setPte_of_table e (h.table _ _)]

structure Roomy (c n : Nat) (s : Mm) : Prop extends Open c s where
  fails : ∀ k, s.pmm.fails k = false
  hint : 1 ≤ s.pmm.hint
  room : s.pmm.hint + n ≤ s.pmm.total
  bitmap : ∀ f, s.pmm.hint ≤ f → s.pmm.bitmap f = false

theorem allocPage_roomy {n : Nat} (h : Roomy c (n + 1) s) :
    Ends allocPage s fun f t => f.isSome ∧ Roomy c n t ∧ t.space = s.space := by
  have hroom := h.room
  have hrun : s.pmm.findRun 1 (max s.pmm.hint 1) s.pmm.total = some s.pmm.hint := by
    obtain ⟨k, hk⟩ : ∃ k, s.pmm.total - s.pmm.hint = k + 1 := ⟨s.pmm.total - s.pmm.hint - 1, by omega⟩
    rw [Nat.max_eq_left h.hint, Pmm.findRun, hk, List.range'_succ, List.find?_cons_of_pos]
    have := h.bitmap _ (Nat.le_refl s.pmm.hint)
    simp [this]
    omega
  have halloc : s.pmm.allocPage =
      (some s.pmm.hint, ({ s.pmm with calls := s.pmm.calls + 1 } : Pmm).take s.pmm.hint 1) := by
    simp [Pmm.allocPage, Pmm.allocContiguous, h.fails, hrun]
  refine ⟨by simp [allocPage, halloc], ⟨⟨h.table, h.shared⟩, ?_, ?_, ?_, ?_⟩, rfl⟩
  · simp [allocPage, halloc, Pmm.take, h.fails]
  · simp [allocPage, halloc, Pmm.take]
  · simp [allocPage, halloc, Pmm.take]
    omega
  · intro f hf
    simp only [allocPage, halloc, Pmm.take] at hf ⊢
    simp [h.bitmap f (by omega)]
    omega

theorem mapFresh_roomy {giveBack : Bool} (h : Roomy c n s) :
    Ends (mapFresh c virt flags giveBack fill i n) s fun _ t =>
      (∀ v, ((s.space c).pte v).present → ((t.space c).pte v).present) ∧
        ∀ k, i ≤ k → k < i + n → ((t.space c).pte (rangePage virt k)).present := by
  induction n generalizing i s with
  | zero => exact ⟨fun _ h => h, by omega⟩
  | succ n ih =>
    unfold mapFresh
    rw [ends_bind]
    refine (allocPage_roomy h).mono ?_
    rintro f t ⟨hf, ht, hsp⟩
    obtain ⟨f, rfl⟩ := Option.isSome_iff_exists.mp hf
    simp only [ends_bind, fillFrame, ends_modify]
    refine (vmmMapPageIn_ends (s := { t with data := update t.data f (fill i) }) (ht.shared _)).mono ?_
    rintro ok u ⟨new, hext, hpte, hfull⟩
    obtain ⟨rfl, hpmm⟩ := hfull fun l => ht.table _ _
    have hu : Roomy c n u := by
      refine ⟨hext.opens ⟨ht.table, ht.shared⟩, ?_, ?_, ?_, ?_⟩
      · rw [hpmm]; exact ht.fails
      · rw [hpmm]; exact ht.hint
      · rw [hpmm]; exact ht.room
      · rw [hpmm]; exact ht.bitmap
    rw [if_pos rfl] at hpte ⊢
    -- a page that is present stays so when another one is mapped, or the same one again
    have hkeep : ∀ v, ((s.space c).pte v).present → ((u.space c).pte v).present := by
      intro v hv
      rw [hpte, hsp]
      by_cases hvp : v = pageOf (w64 (virt + i * pageSize))
      · rw [hvp, update_self]
      · rwa [update_of_ne hvp]
    rw [ends_bind]
    refine (ih hu).mono ?_
    rintro r w ⟨hold, hnew⟩
    have hw : (∀ v, ((s.space c).pte v).present → ((w.space c).pte v).present) ∧
        ∀ k, i ≤ k → k < i + (n + 1) → ((w.space c).pte (rangePage virt k)).present := by
      refine ⟨fun v hv => hold v (hkeep v hv), fun k hk hkn => ?_⟩
      rcases Nat.eq_or_lt_of_le hk with rfl | hk
      · refine hold _ ?_
        rw [hpte, rangePage, update_self]
      · exact hnew k (by omega) (by omega)
    split <;> exact hw

/-- A loop over the pages of a range, each of which must be present or satisfy `P` already: all satisfy `P` in the
    end. -/
theorem rangeLoop_open {P : Pte → Prop} {page : Nat → MmM Unit} {loop : Nat → Nat → MmM Unit}
    (hzero : ∀ i, loop i 0 = pure ()) (hsucc : ∀ i n, loop i (n + 1) = page i >>= fun _ => loop (i + 1) n)
    (hpage : ∀ i s, Open c s → ((s.space c).pte (rangePage virt i)).present ∨ P ((s.space c).pte (rangePage virt i)) →
      Ends (page i) s fun _ t => Open c t ∧ P ((t.space c).pte (rangePage virt i)) ∧
        ∀ v ≠ rangePage virt i, (t.space c).pte v = (s.space c).pte v)
    (h : Open c s) (hs : ∀ k, i ≤ k → k < i + n →
      ((s.space c).pte (rangePage virt k)).present ∨ P ((s.space c).pte (rangePage virt k))) :
    Ends (loop i n) s fun _ t => (∀ v, P ((s.space c).pte v) → P ((t.space c).pte v)) ∧
      ∀ k, i ≤ k → k < i + n → P ((t.space c).pte (rangePage virt k)) := by
  induction n generalizing i s with
  | zero =>
    rw [hzero]
    exact ⟨fun _ h => h, by omega⟩
  | succ n ih =>
    rw [hsucc, ends_bind]
    refine (hpage i s h (hs i (Nat.le_refl i) (by omega))).mono ?_
    rintro _ t ⟨ht, hP, hrest⟩
    refine (ih ht fun k hk hkn => ?_).mono ?_
    · by_cases hk' : rangePage virt k = rangePage virt i
      · rw [hk']
        exact .inr hP
      · rw [hrest _ hk']
        exact hs k (by omega) (by omega)
    · rintro _ u ⟨hold, hnew⟩
      refine ⟨fun v hv => hold v ?_, fun k hk hkn => ?_⟩
      · by_cases hvp : v = rangePage virt i
        · exact hvp ▸ hP
        · rwa [hrest v hvp]
      · rcases Nat.eq_or_lt_of_le hk with rfl | hk
        · exact hold _ hP
        · exact hnew k (by omega) (by omega)

theorem unmapPages_open {phys : Nat} (h : Open c s) (hs : ∀ k < n, ((s.space c).pte (rangePage virt k)).present) :
    Ends (unmapPages c virt phys free 0 n) s fun _ t => ∀ k < n, (t.space c).pte (rangePage virt k) = {} := by
  refine (rangeLoop_open (P := (· = {})) (fun _ => rfl) (fun _ _ => rfl) (fun i s h hs => ?_) h
    fun k _ hk => .inl (hs k (by omega))).mono fun _ t ht k hk => ht.2 k (Nat.zero_le k) (by omega)
  generalize (if phys = 0 then 0 else phys + i) = other
  unfold unmapPage
  rw [ends_bind, ends_vmmGetPte, Private.pteAt (h.shared _)]
  split
  · rw [ends_bind]
    refine (storePte_open h).mono fun _ t ht => ?_
    have hpte : (t.space c).pte (rangePage virt i) = {} ∧
        ∀ v ≠ rangePage virt i, (t.space c).pte v = (s.space c).pte v := by
      rw [ht.2]
      exact ⟨update_self .., fun v hv => update_of_ne hv ..⟩
    split
    · exact ⟨⟨ht.1.table, ht.1.shared⟩, hpte⟩
    · exact ⟨ht.1, hpte⟩
  next hnot =>
    split
    · exact ⟨⟨h.table, h.shared⟩, hs.resolve_left hnot, fun _ _ => rfl⟩
    · exact ⟨h, hs.resolve_left hnot, fun _ _ => rfl⟩

theorem protectPages_open {prot : Nat} (h : Open c s) (hs : ∀ k < n, ((s.space c).pte (rangePage virt k)).present) :
    Ends (protectPages c virt prot 0 n) s fun _ t => ∀ k < n, ((t.space c).pte (rangePage virt k)).flags.user := by
  refine (rangeLoop_open (P := (·.flags.user)) (fun _ => rfl) (fun _ _ => rfl) (fun i s h hs => ?_) h
    fun k _ hk => .inl (hs k (by omega))).mono fun _ t ht k hk => ht.2 k (Nat.zero_le k) (by omega)
  unfold protectPage
  rw [ends_bind, ends_vmmGetPte, Private.pteAt (h.shared _)]
  split
  · refine (storePte_open h).mono fun _ t ht => ⟨ht.1, ?_, fun v hv => ?_⟩
    · rw [ht.2, rangePage, update_self]
      rfl
    · rw [ht.2]
      exact update_of_ne hv ..
  next hnot => exact ⟨h, hs.resolve_left hnot, fun _ _ => rfl⟩

def openSpace : Space :=
  { (default : Space) with table := fun _ _ => some true, parent := by simp, pages_table := by simp [default] }

def presentSpace (n : Nat) : Space where
  table _ _ := some true
  pte v := if v < n then { frame := 1, present := true } else {}
  pages := List.range n
  pte_pages v hv := by
    split at hv
    · exact List.mem_range.mpr ‹_›
    · exact absurd rfl hv
  pages_lt := List.pairwise_lt_range
  shared_high := (default : Space).shared_high

def machine (p : MmProc) (sp : Space) (n : Nat) : Mm where
  pmm := { total := n + 1, bitmap := fun f => decide (f = 0), refcounts := fun _ => 0, hint := 1, bitmap_zero := rfl }
  kernel := default
  space _ := sp
  proc _ := p

theorem machine_roomy (p : MmProc) (n : Nat) : Roomy c n (machine p openSpace n) where
  table _ _ := rfl
  shared _ := rfl
  fails _ := rfl
  hint := Nat.le_refl 1
  room := by simp [machine, Nat.add_comm]
  bitmap f hf := by
    have : 1 ≤ f := hf
    simp [machine]
    omega

theorem machine_present (p : MmProc) (virt i : Nat) :
    (((machine p (presentSpace (2 ^ 36)) 0).space c).pte (rangePage virt i)) = { frame := 1, present := true } :=
  if_pos (Nat.mod_lt _ (by decide))

/-! ### The condition is exact -/

theorem confined_of_inside (h : call.Inside p) (hp : s.proc pid = p) :
    Ends (call.op pid).prog s fun _ t => TablesConfined p call s t := by
  subst hp
  cases call with
  | mmap addrHint length prot flags =>
    by_cases hr : mmapRefuses (s.proc pid) length prot flags
    · refine (sysMmap_of_refuses hr).mono ?_
      rintro _ t rfl
      exact .refl ..
    · have hb := (below_iff _ _).mp (h.resolve_left hr)
      refine (sysMmap_loop hr).mono fun _ t ht => TablesConfined.congr ?_ ht
      refine Touches.confined (mapFresh_touches (V := (· < userPages)) (fun _ h => h) ?_) (fun _ h => h) nofun
      exact fun k _ hk => hb k (by omega)
  | brk addr =>
    by_cases hr : (s.proc pid).brkRefuses addr
    · refine (sysBrk_of_refuses hr).mono ?_
      rintro _ t rfl
      exact .refl ..
    · have hb := (below_iff _ _).mp (h.resolve_left hr)
      refine (sysBrk_loop hr).mono fun _ t ht => TablesConfined.congr ?_ ht
      refine Touches.confined (mapFresh_touches (V := (· < userPages)) (fun _ h => h) ?_) (fun _ h => h) nofun
      exact fun k _ hk => hb k (by omega)
  | munmap virtAddr =>
    cases hslot : (s.proc pid).findSlot fun e => decide (e.virtAddr = virtAddr) with
    | none =>
      refine (sysMunmap_none hslot).mono ?_
      rintro _ t rfl
      exact .refl ..
    | some slot =>
      have hb := (below_iff _ _).mp (h slot hslot)
      obtain ⟨hused, hva⟩ := findSlot_used hslot
      rw [decide_eq_true_eq] at hva
      obtain ⟨phys, free, hloop⟩ := sysMunmap_loop hslot
      refine hloop.mono fun _ t ht => TablesConfined.congr ?_ ht
      have hV : ∀ v, InRange virtAddr ((s.proc pid).mmapTable slot).numPages v → v < userPages := by
        rintro v ⟨i, hi, rfl⟩
        exact hb i hi
      refine Touches.confined (unmapPages_touches hV fun k _ hk => ⟨k, by omega, rfl⟩) hV fun _ => ?_
      exact ⟨slot, hused, fun v hv => by rwa [MmapEntry.Holds, hva]⟩
  | mprotect virtAddr length prot =>
    by_cases hr : mprotectRefuses (s.proc pid) virtAddr length
    · refine (sysMprotect_of_refuses hr).mono ?_
      rintro _ t rfl
      exact .refl ..
    · obtain ⟨hb, slot, hused, hholds⟩ := h.resolve_left hr
      rw [below_iff] at hb
      refine (sysMprotect_loop hr).mono fun _ t ht => TablesConfined.congr ?_ ht
      have hV : ∀ v, InRange virtAddr (lengthPages length) v → v < userPages := by
        rintro v ⟨i, hi, rfl⟩
        exact hb i hi
      refine Touches.confined (protectPages_touches hV fun k _ hk => ⟨k, by omega, rfl⟩) hV fun _ => ?_
      refine ⟨slot, hused, ?_⟩
      rintro v ⟨i, hi, rfl⟩
      exact hholds i hi

theorem mapFresh_changes (hi : i < n)
    (hu : SameTables (mapFresh p.cr3 virt flags true fill 0 n (machine p openSpace n)).2 u) :
    (u.space p.cr3).pte (rangePage virt i) ≠ ((machine p openSpace n).space p.cr3).pte (rangePage virt i) := by
  have hloop : Ends (mapFresh p.cr3 virt flags true fill 0 n) (machine p openSpace n) _ :=
    mapFresh_roomy (machine_roomy p n)
  have hmapped := hloop.run.2 i (Nat.zero_le i) (by omega)
  rw [← hu.space] at hmapped
  intro heq
  rw [heq] at hmapped
  simp [machine, openSpace] at hmapped

theorem unmapPages_changes {n i phys : Nat} {s : Mm} (hi : i < n) (hs : s = machine p (presentSpace (2 ^ 36)) 0)
    (hu : SameTables (unmapPages p.cr3 virt phys free 0 n s).2 u) :
    (u.space p.cr3).pte (rangePage virt i) ≠ (s.space p.cr3).pte (rangePage virt i) := by
  have hloop : Ends (unmapPages p.cr3 virt phys free 0 n) s _ :=
    unmapPages_open (hs ▸ ⟨fun _ _ => rfl, fun _ => rfl⟩) fun k _ => by rw [hs, machine_present]
  have hempty := hloop.run i hi
  rw [← hu.space] at hempty
  rw [hempty, hs, machine_present]
  decide

theorem protectPages_changes {n i prot : Nat} (hi : i < n)
    (hu : SameTables (protectPages p.cr3 virt prot 0 n (machine p (presentSpace (2 ^ 36)) 0)).2 u) :
    (u.space p.cr3).pte (rangePage virt i) ≠
      ((machine p (presentSpace (2 ^ 36)) 0).space p.cr3).pte (rangePage virt i) := by
  have hloop : Ends (protectPages p.cr3 virt prot 0 n) (machine p (presentSpace (2 ^ 36)) 0) _ :=
    protectPages_open ⟨fun _ _ => rfl, fun _ => rfl⟩ fun k _ => by rw [machine_present]
  have huser := hloop.run i hi
  rw [← hu.space] at huser
  intro heq
  rw [heq, machine_present] at huser
  exact absurd huser (by decide)

theorem inside_of_confined (h : ∀ s : Mm, s.proc pid = p → TablesConfined p call s ((call.op pid).prog s).2) :
    call.Inside p := by
  cases call with
  | mmap addrHint length prot flags =>
    refine or_iff_not_imp_left.mpr fun hr => (below_iff _ _).mpr fun i hi => ?_
    have hloop : Ends (sysMmap pid addrHint length prot flags) (machine p openSpace (mmapNumPages length flags)) _ :=
      sysMmap_loop hr
    exact (h _ rfl).pte _ (mapFresh_changes hi hloop.run)
  | brk addr =>
    refine or_iff_not_imp_left.mpr fun hr => (below_iff _ _).mpr fun i hi => ?_
    have hloop : Ends (sysBrk pid addr) (machine p openSpace (brkPages p addr)) _ := sysBrk_loop hr
    exact (h _ rfl).pte _ (mapFresh_changes hi hloop.run)
  | munmap virtAddr =>
    refine fun slot hslot => (below_iff _ _).mpr fun i hi => ?_
    obtain ⟨phys, free, hloop⟩ := @sysMunmap_loop (machine p (presentSpace (2 ^ 36)) 0) pid virtAddr slot hslot
    exact (h _ rfl).pte _ (unmapPages_changes hi rfl hloop.run)
  | mprotect virtAddr length prot =>
    refine or_iff_not_imp_left.mpr fun hr => ?_
    have hloop : Ends (sysMprotect pid virtAddr length prot) (machine p (presentSpace (2 ^ 36)) 0) _ :=
      sysMprotect_loop hr
    have hconf := h (machine p (presentSpace (2 ^ 36)) 0) rfl
    refine ⟨(below_iff _ _).mpr fun i hi => hconf.pte _ (protectPages_changes hi hloop.run), ?_⟩
    by_cases hn : lengthPages length = 0
    · -- no page, so any entry that the check accepted will do
      obtain ⟨slot, hslot⟩ := Option.ne_none_iff_exists'.mp fun hnone => hr (.inr (.inr hnone))
      exact ⟨slot, (findSlot_used hslot).1, by omega⟩
    · have h0 := protectPages_changes (Nat.pos_of_ne_zero hn) hloop.run
      obtain ⟨slot, hused, hslot⟩ := hconf.entry trivial _ h0
      exact ⟨slot, hused, fun i hi => hslot _ (protectPages_changes hi hloop.run)⟩

/-- A call is confined to the user half, and to one entry of the process if it works on mapped pages, whatever the state
    of the memory, exactly if it is refused or its range is inside. -/
theorem confined_iff (p : MmProc) (pid : Nat) (call : RangeCall) :
    (∀ s : Mm, s.proc pid = p → TablesConfined p call s ((call.op pid).prog s).2) ↔ call.Inside p :=
  ⟨inside_of_confined, fun h _ hs => (confined_of_inside h hs).run⟩

def kernelPage : Space :=
  ((((default : Space).setTable 3 256 false).setTable 2 (256 * 512) false).setTable 1 (256 * 512 ^ 2) false).setPte (2 ^ 35)
    { frame := 3, present := true, flags := { writable := true } }

def withKernelPage : Mm :=
  { oneProcess with kernel := kernelPage, space := fun c => if c = 7 then newSpace kernelPage 7 else default }

/-- `sys_mmap` with `MAP_FIXED` at an address of the kernel half puts a page that the user may write in the place
    of the kernel's own. -/
theorem kernel_page_replaced :
    ∃ (s : Mm) (call : RangeCall), ¬ TablesConfined (s.proc 1) call s ((call.op 1).prog s).2 ∧
      s.kernel.pte (2 ^ 35) = { frame := 3, present := true, flags := { writable := true } } ∧
      (((call.op 1).prog s).2.kernel.pte (2 ^ 35)) = { frame := 8, present := true, flags := userData } := by
  have hpage : (((RangeCall.mmap 0xFFFF800000000000 4096 3 16).op 1).prog withKernelPage).2.kernel.pte (2 ^ 35) =
      { frame := 8, present := true, flags := userData } := by decide +kernel
  have hbefore : withKernelPage.kernel.pte (2 ^ 35) = { frame := 3, present := true, flags := { writable := true } } := by
    decide +kernel
  refine ⟨withKernelPage, .mmap 0xFFFF800000000000 4096 3 16, fun h => ?_, hbefore, hpage⟩
  rw [h.kernel, hbefore] at hpage
  exact absurd hpage (by decide)

end Limnx
