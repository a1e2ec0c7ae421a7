import Limnx.Process
import Limnx.Lib.StateProg

/-! # Frames, page tables and the state of the memory system (`mm/pmm.c`, `mm/vmm.c`, `ipc/shm.h`)

The x86_64 build. Physical addresses are frame numbers, 0 for none. A page is the number made of the four table indices.
`table l i` is the entry for the table of level `l` (3, 2 and 1 for PDPT, PD and PT) with the index path `i`, and `pte
v` the last entry. The tables under the PML4 entries that `vmm_create_address_space` copies are the kernel's own.
Nothing calls `swap_out`. -/

namespace Limnx
open Function List

def pageSize : Nat := 4096
def userAddrMax : Nat := 0x800000000000

def w64 (n : Nat) : Nat := n % 2 ^ 64

def s64 (n : Nat) : Int := if n < 2 ^ 63 then n else n - 2 ^ 64

def pageOf (va : Nat) : Nat := va / pageSize % 2 ^ 36

def userPages : Nat := 2 ^ 35

/-- `bitmap`, `refcounts` and `alloc_hint` of `pmm.c`. Frame 0 is never free. -/
structure Pmm where
  total : Nat
  bitmap : Nat → Bool
  refcounts : Nat → Nat
  hint : Nat
  /-- Whether the allocation with this number is made to fail. -/
  fails : Nat → Bool := fun _ => false
  calls : Nat := 0
  bitmap_zero : bitmap 0 = true

namespace Pmm
variable (p : Pmm)

def take (i n : Nat) : Pmm :=
  { p with
    bitmap := fun j => p.bitmap j || (decide (i ≤ j) && decide (j < i + n))
    refcounts := fun j => if i ≤ j ∧ j < i + n then 1 else p.refcounts j
    hint := i + n
    bitmap_zero := by simp [p.bitmap_zero] }

def findRun (n lo hi : Nat) : Option Nat :=
  (range' lo (hi - lo)).find? fun i => decide (i + n ≤ hi) && (range' i n).all fun j => !p.bitmap j

/-- `pmm_alloc_contiguous`, which is `pmm_alloc_page` for one frame: from the hint on, then from frame 1. -/
def allocContiguous (n : Nat) : Option Nat × Pmm :=
  let q := { p with calls := p.calls + 1 }
  if n = 0 ∨ p.fails p.calls then (none, q)
  else
    match (p.findRun n (max p.hint 1) p.total).or (p.findRun n 1 (max p.hint 1)) with
    | some i => (some i, q.take i n)
    | none => (none, q)

def allocPage : Option Nat × Pmm := p.allocContiguous 1

def freePage (f : Nat) : Pmm :=
  if h : f = 0 then p
  else if p.bitmap f = false then p
  else if 1 < p.refcounts f then { p with refcounts := update p.refcounts f (p.refcounts f - 1) }
  else
    { p with
      refcounts := update p.refcounts f 0
      bitmap := update p.bitmap f false
      bitmap_zero := by rw [update_of_ne (Ne.symm h)]; exact p.bitmap_zero }

def refInc (f : Nat) : Pmm :=
  if 0 < f ∧ f < p.total then { p with refcounts := update p.refcounts f ((p.refcounts f + 1) % 2 ^ 16) } else p

def refDec (f : Nat) : Pmm :=
  if f = 0 ∨ p.total ≤ f then p else { p with refcounts := update p.refcounts f (p.refcounts f - 1) }

def refGet (f : Nat) : Nat := if p.total ≤ f then 0 else p.refcounts f

end Pmm

/-! ## Page tables -/

/-- The flags of an entry besides `PTE_PRESENT`. -/
structure PteFlags where
  writable : Bool := false
  user : Bool := false
  nx : Bool := false
  cow : Bool := false
  wasWritable : Bool := false
deriving DecidableEq

structure Pte where
  frame : Nat := 0
  present : Bool := false
  flags : PteFlags := {}
deriving DecidableEq

def userData : PteFlags := { user := true, writable := true, nx := true }

def insertPage (v : Nat) : List Nat → List Nat
  | [] => [v]
  | u :: l => if v < u then v :: u :: l else if v = u then u :: l else u :: insertPage v l

theorem mem_insertPage {v u : Nat} {l : List Nat} : u ∈ insertPage v l ↔ u = v ∨ u ∈ l := by
  induction l with
  | nil => simp [insertPage]
  | cons x l ih =>
    unfold insertPage
    split
    · simp
    split
    · simp_all
    · simp only [mem_cons, ih]
      exact or_left_comm

theorem pairwise_insertPage {v : Nat} {l : List Nat} (h : l.Pairwise (· < ·)) : (insertPage v l).Pairwise (· < ·) := by
  induction l with
  | nil => simp [insertPage]
  | cons x l ih =>
    obtain ⟨hx, hl⟩ := pairwise_cons.mp h
    unfold insertPage
    split
    · refine pairwise_cons.mpr ⟨fun u hu => ?_, h⟩
      rcases mem_cons.mp hu with rfl | hu
      · assumption
      · have := hx u hu
        omega
    · split
      · exact h
      refine pairwise_cons.mpr ⟨fun u hu => ?_, ih hl⟩
      rcases mem_insertPage.mp hu with rfl | hu
      · omega
      · exact hx u hu

/-- The page tables of an address space. `pages` lists the pages that have, or had, an entry, as the loops of `vmm.c`
    meet them; `frames` are the frames of the tables of the user half and of the PML4, `highFrames` those of tables of
    its own in the kernel half. A table has its parent, a page with an entry its table, and only tables of the kernel
    half are shared. -/
structure Space where
  table : Nat → Nat → Option Bool := fun _ _ => none
  pte : Nat → Pte := fun _ => {}
  pages : List Nat := []
  frames : List Nat := []
  highFrames : List Nat := []
  shared : Nat → Bool := fun _ => false
  parent : ∀ l i, l < 3 → (table l i).isSome → (table (l + 1) (i / 512)).isSome := by simp
  pages_table : ∀ v ∈ pages, (table 1 (v / 512)).isSome := by simp
  pte_pages : ∀ v, pte v ≠ {} → v ∈ pages := by simp
  pages_lt : pages.Pairwise (· < ·) := by simp
  shared_high : ∀ i, shared i = true → 256 ≤ i := by simp

instance : Inhabited Space := ⟨{}⟩

namespace Space
variable (sp : Space)

def setPte (v : Nat) (e : Pte) : Space :=
  if h : (sp.table 1 (v / 512)).isSome then
    { sp with
      pte := update sp.pte v e
      pages := insertPage v sp.pages
      pages_table := fun u hu => (mem_insertPage.mp hu).elim (fun hu => hu ▸ h) (sp.pages_table u)
      pte_pages := fun u hu => by
        by_cases huv : u = v
        · exact mem_insertPage.mpr (.inl huv)
        · rw [update_of_ne huv] at hu
          exact mem_insertPage.mpr (.inr (sp.pte_pages u hu))
      pages_lt := pairwise_insertPage sp.pages_lt }
  else sp

def setTable (l i : Nat) (user : Bool) : Space :=
  if h : l < 3 → (sp.table (l + 1) (i / 512)).isSome then
    { sp with
      table := fun l' i' => if l' = l ∧ i' = i then some user else sp.table l' i'
      parent := fun l' i' hl hi => by
        split
        · rfl
        split at hi
        next he =>
          obtain ⟨rfl, rfl⟩ := he
          exact h hl
        · exact sp.parent l' i' hl hi
      pages_table := fun v hv => by
        split
        · rfl
        · exact sp.pages_table v hv }
  else sp

def addTable (l v f : Nat) (user : Bool) : Space :=
  if v < userPages then { sp.setTable l (v / 512 ^ l) user with frames := f :: sp.frames }
  else { sp.setTable l (v / 512 ^ l) user with highFrames := f :: sp.highFrames }

end Space

/-- `mmap_entry_t`. The defaults are what `mem_zero` leaves, with `shm_id` and `vfs_node` -1. -/
structure MmapEntry where
  virtAddr : Nat := 0
  phys : Nat := 0
  numPages : Nat := 0
  used : Bool := false
  shmId : Option Nat := none
  demand : Bool := false
  vfsNode : Option Nat := none
  fileOffset : Nat := 0
deriving DecidableEq

def mmapMaxEntries : Nat := 64
def mmapMaxPages : Nat := 524288
def mmapRegionBase : Nat := 0x100000000

/-- The fields of `process_t` that the memory system uses. -/
structure MmProc where
  cr3 : Nat := 0
  mmapTable : Fin mmapMaxEntries → MmapEntry := fun _ => {}
  mmapNextAddr : Nat := 0
  usedMemPages : Nat := 0
  rlimitMemPages : Nat := 0
  brkBase : Nat := 0
  brkCurrent : Nat := 0
  vforkParent : Option Nat := none
  /-- The process waits in `sys_fork` for this child. -/
  vforkChild : Option Nat := none

def maxShmRegions : Nat := 16

/-- `shm_region_t`. A free slot has the key -1. -/
structure ShmRegion where
  key : Int := -1
  physPages : Nat → Nat := fun _ => 0
  numPages : Nat := 0
  refCount : Nat := 0

/-- The memory system: frames with their contents, the kernel's page tables, the address spaces by the frame of their
    PML4, the processes, and the shared-memory table. -/
structure Mm where
  pmm : Pmm
  data : Nat → Buf := fun _ _ => 0
  kernel : Space := {}
  space : Nat → Space := fun _ => {}
  live : List Nat := []
  proc : Nat → MmProc := fun _ => {}
  pids : List Nat := []
  nextPid : Nat := 1
  shm : Nat → ShmRegion := fun _ => {}

abbrev MmM := StateProg Mm

namespace Mm
variable (s : Mm)

/-- The tables that hold the entries of level `l` on the way to page `v`: the kernel's own where it shares
    them, below the PML4. -/
def holdsShared (c l v : Nat) : Bool := decide (l < 3) && (s.space c).shared (v / 512 ^ 3)

def home (c l v : Nat) : Space := if s.holdsShared c l v then s.kernel else s.space c

def setSpace (c : Nat) (sp : Space) : Mm := { s with space := update s.space c sp }

def setHome (c l v : Nat) (f : Space → Space) : Mm :=
  if s.holdsShared c l v then { s with kernel := f s.kernel } else s.setSpace c (f (s.space c))

/-- The entry of a page in the address space `c`; empty if a table on the way is not there. -/
def pteAt (c v : Nat) : Pte := (s.home c 0 v).pte v

def setProc (pid : Nat) (p : MmProc) : Mm := { s with proc := update s.proc pid p }

def setShm (i : Nat) (r : ShmRegion) : Mm := { s with shm := update s.shm i r }

end Mm

/-! ## Programs -/

namespace Mem

open StateProg

def allocPage : MmM (Option Nat) := fun s => ((s.pmm.allocPage).1, { s with pmm := s.pmm.allocPage.2 })

def allocContiguous (n : Nat) : MmM (Option Nat) :=
  fun s => ((s.pmm.allocContiguous n).1, { s with pmm := (s.pmm.allocContiguous n).2 })

def freePage (f : Nat) : MmM Unit := modify fun s => { s with pmm := s.pmm.freePage f }

def refInc (f : Nat) : MmM Unit := modify fun s => { s with pmm := s.pmm.refInc f }

def refDec (f : Nat) : MmM Unit := modify fun s => { s with pmm := s.pmm.refDec f }

def fillFrame (f : Nat) (bytes : Buf) : MmM Unit :=
  modify fun s => { s with data := update s.data f bytes }

def freeRun (phys i n : Nat) : MmM Unit :=
  modify fun s => { s with pmm := (range' i (n - i)).foldl (fun p k => p.freePage (phys + k)) s.pmm }

def vmmGetPte (c va : Nat) : MmM Pte := gets fun s => s.pteAt c (pageOf va)

def storePte (c va : Nat) (e : Pte) : MmM Unit :=
  modify fun s => s.setHome c 0 (pageOf va) fun sp => sp.setPte (pageOf va) e

/-- One level of `vmm_map_page_in`: the table is made if it is not there, and has `PTE_USER` if the mapping
    needs it. -/
def ensureTable (c l v : Nat) (user : Bool) : MmM Bool := do
  match ← gets fun s => (s.home c l v).table l (v / 512 ^ l) with
  | some u => do
    modify fun s => s.setHome c l v fun sp => sp.setTable l (v / 512 ^ l) (u || user)
    pure true
  | none => do
    match ← allocPage with
    | none => pure false
    | some f => do
      modify fun s => s.setHome c l v fun sp => sp.addTable l v f user
      pure true

def vmmMapPageIn (c va f : Nat) (flags : PteFlags) : MmM Bool := do
  if ← ensureTable c 3 (pageOf va) flags.user then
    if ← ensureTable c 2 (pageOf va) flags.user then
      if ← ensureTable c 1 (pageOf va) flags.user then do
        storePte c va { frame := f, present := true, flags }
        pure true
      else pure false
    else pure false
  else pure false

def newSpace (kernel : Space) (f : Nat) : Space where
  table l i := if l = 3 ∧ 256 ≤ i then kernel.table 3 i else none
  frames := [f]
  shared i := decide (256 ≤ i) && (kernel.table 3 i).isSome
  parent l i hl hi := by
    split at hi
    · omega
    · simp at hi
  shared_high i hi := by simp_all

def vmmCreateAddressSpace : MmM (Option Nat) := do
  match ← allocPage with
  | none => pure none
  | some f => do
    modify fun s => { s.setSpace f (newSpace s.kernel f) with live := f :: s.live }
    pure (some f)

def isShmPage (t : Fin mmapMaxEntries → MmapEntry) (v : Nat) : Bool :=
  (finRange mmapMaxEntries).any fun i =>
    (t i).used && (t i).shmId.isSome && decide ((t i).virtAddr ≤ v * pageSize) &&
      decide (v * pageSize < w64 ((t i).virtAddr + (t i).numPages * pageSize))

def clonePage (parent child : Nat) (t : Fin mmapMaxEntries → MmapEntry) (v : Nat) : MmM Unit := do
  let e ← gets fun s => (s.space parent).pte v
  if e.present then
    if isShmPage t v then do
      let _ ← vmmMapPageIn child (v * pageSize) e.frame e.flags
      refInc e.frame
    else do
      let flags := { e.flags with
        writable := false, cow := true, wasWritable := e.flags.wasWritable || e.flags.writable }
      storePte parent (v * pageSize) { frame := e.frame, present := true, flags }
      let _ ← vmmMapPageIn child (v * pageSize) e.frame flags
      refInc e.frame
  else pure ()

def clonePages (parent child : Nat) (t : Fin mmapMaxEntries → MmapEntry) : List Nat → MmM Unit
  | [] => pure ()
  | v :: l => do
    clonePage parent child t v
    clonePages parent child t l

def vmmCloneCow (parent : Nat) (t : Fin mmapMaxEntries → MmapEntry) : MmM (Option Nat) := do
  match ← vmmCreateAddressSpace with
  | none => pure none
  | some child => do
    let pages ← gets fun s => (s.space parent).pages.filter fun v => decide (v < userPages)
    clonePages parent child t pages
    pure (some child)

/-- `vmm_free_user_pages`: the frames of the present user pages and those of the tables lose a reference, and the
    address space is gone. -/
def vmmFreeUserPages (c : Nat) : MmM Unit :=
  modify fun s =>
    let sp := s.space c
    let mapped := (sp.pages.filter fun v => decide (v < userPages) && (sp.pte v).present).map fun v => (sp.pte v).frame
    { s.setSpace c {} with
      live := s.live.erase c
      pmm := (mapped ++ sp.frames).foldl (fun p f => p.freePage f) s.pmm }

end Mem

end Limnx
