import Limnx.Mm

/-! # The memory system calls (`syscall/sys_mm.c`, `syscall/sys_misc.c`, `syscall/sys_proc.c`, `proc/elf.c`,
`proc/process.c`)

Each call is a program over the state. The answers of `kmalloc`, `thread_create`, `process_register` and of the namespace
quota (`Fault`), the contents of files and the headers of an ELF file are inputs. -/

namespace Limnx
open List

def zeroBytes : Buf := fun _ => 0

def pageUp (x : Nat) : Nat := w64 (x + (pageSize - 1)) / pageSize * pageSize

def brkMax : Nat := 32 * 1024 * 1024

namespace MmProc
variable (p : MmProc)

def freeSlot : Option (Fin mmapMaxEntries) :=
  (finRange mmapMaxEntries).find? fun i => !(p.mmapTable i).used

def findSlot (q : MmapEntry → Bool) : Option (Fin mmapMaxEntries) :=
  (finRange mmapMaxEntries).find? fun i => (p.mmapTable i).used && q (p.mmapTable i)

def setEntry (i : Fin mmapMaxEntries) (e : MmapEntry) : MmProc :=
  { p with mmapTable := Function.update p.mmapTable i e }

def overLimit (n : Nat) : Bool :=
  decide (0 < p.rlimitMemPages) && decide (p.rlimitMemPages < w64 (p.usedMemPages + n))

/-- The entry is given up. Pages that were not charged are refunded all the same. -/
def dropEntry (slot : Fin mmapMaxEntries) : MmProc :=
  p.setEntry slot { p.mmapTable slot with used := false, shmId := none }

def refund (n : Nat) : MmProc :=
  { p with usedMemPages := if n ≤ p.usedMemPages then p.usedMemPages - n else p.usedMemPages }

def brkRefuses (addr : Nat) : Bool :=
  decide (addr = 0) || decide (addr < p.brkBase) || decide (w64 (p.brkBase + brkMax) < addr)

end MmProc

variable (e : MmapEntry)

/-- The entry that a call records. `demand` is as it was where the call does not set it. -/
def MmapEntry.record (virt phys n : Nat) (shmId : Option Nat) : MmapEntry :=
  { e with virtAddr := virt, phys, numPages := n, used := true, shmId, vfsNode := none, fileOffset := 0 }

/-- The range check of `sys_mprotect`: both ends against one entry, in `uint64_t`. -/
def MmapEntry.covers (virt n : Nat) : Bool :=
  decide (e.virtAddr ≤ virt) && decide (w64 (virt + n * pageSize) ≤ w64 (e.virtAddr + e.numPages * pageSize))

def MmapEntry.demandAt (pageAddr : Nat) : Bool :=
  e.used && e.demand && decide (e.virtAddr ≤ pageAddr) &&
    decide (pageAddr < w64 (e.virtAddr + e.numPages * pageSize))

namespace Mem

open StateProg

def getProc (pid : Nat) : MmM MmProc := gets fun s => s.proc pid

def modifyProc (pid : Nat) (f : MmProc → MmProc) : MmM Unit := modify fun s => s.setProc pid (f (s.proc pid))

/-- Pages from `virt` on, from the `i`th, get new frames. The loops of `sys_mmap` and `sys_brk` give the frame back when
    its page cannot be mapped, those for segments and stacks do not. Mapped pages stay. -/
def mapFresh (c virt : Nat) (flags : PteFlags) (giveBack : Bool) (fill : Nat → Buf) :
    Nat → Nat → MmM (Option (List Nat))
  | _, 0 => pure (some [])
  | i, n + 1 => do
    match ← allocPage with
    | none => pure none
    | some f => do
      fillFrame f (fill i)
      if ← vmmMapPageIn c (w64 (virt + i * pageSize)) f flags then do
        match ← mapFresh c virt flags giveBack fill (i + 1) n with
        | none => pure none
        | some l => pure (some (f :: l))
      else if giveBack then do
        freePage f
        pure none
      else pure none

/-- The frames from `phys` on are zeroed and mapped. -/
def mapRun (c virt phys : Nat) : Nat → Nat → MmM Bool
  | _, 0 => pure true
  | i, n + 1 => do
    fillFrame (phys + i) zeroBytes
    if ← vmmMapPageIn c (w64 (virt + i * pageSize)) (phys + i) userData then mapRun c virt phys (i + 1) n
    else pure false

/-- A present page is unmapped, and its frame freed if `free`. For another page the frame `other`, if any, is freed. -/
def unmapPage (c va : Nat) (free : Bool) (other : Nat) : MmM Unit := do
  let e ← vmmGetPte c va
  if e.present then do
    storePte c va {}
    if free then freePage e.frame else pure ()
  else if other ≠ 0 then freePage other
  else pure ()

/-- The pages of a mapping are unmapped; `phys` is the first frame that its entry names. -/
def unmapPages (c virt phys : Nat) (free : Bool) : Nat → Nat → MmM Unit
  | _, 0 => pure ()
  | i, n + 1 => do
    unmapPage c (w64 (virt + i * pageSize)) free (if phys = 0 then 0 else phys + i)
    unmapPages c virt phys free (i + 1) n

/-! ## `sys_mmap`, `sys_munmap`, `sys_mmap2`, `sys_mmap_guard`, `sys_mmap_file` -/

/-- The page count of `sys_mmap`: a small `length` without flags is already one. -/
def mmapNumPages (length flags : Nat) : Nat :=
  if length ≤ mmapMaxPages ∧ flags = 0 then length else w64 (length + (pageSize - 1)) / pageSize

def mapFixed (flags : Nat) : Bool := flags.testBit 4

def useFixed (addrHint flags : Nat) : Bool := mapFixed flags && decide (addrHint ≠ 0)

def mmapVirt (p : MmProc) (addrHint flags : Nat) : Nat :=
  if useFixed addrHint flags then addrHint - addrHint % pageSize else p.mmapNextAddr

def mmapRecord (p : MmProc) (addrHint flags numPages phys : Nat) (slot : Fin mmapMaxEntries) : MmProc :=
  { p.setEntry slot ((p.mmapTable slot).record (mmapVirt p addrHint flags) phys numPages none) with
    mmapNextAddr :=
      if useFixed addrHint flags then p.mmapNextAddr else w64 (p.mmapNextAddr + (numPages + 1) * pageSize)
    usedMemPages := w64 (p.usedMemPages + numPages) }

def sysMmap (pid addrHint length prot flags : Nat) : MmM Int := do
  if length = 0 then pure (-EINVAL)
  else if mmapNumPages length flags = 0 ∨ mmapMaxPages < mmapNumPages length flags then pure (-EINVAL)
  else if mapFixed flags ∧ prot = 0 then pure (s64 addrHint)
  else do
    let p ← getProc pid
    if p.overLimit (mmapNumPages length flags) then pure (-ENOMEM)
    else
      match p.freeSlot with
      | none => pure (-1)
      | some slot => do
        match ← mapFresh p.cr3 (mmapVirt p addrHint flags) userData true (fun _ => zeroBytes) 0
            (mmapNumPages length flags) with
        | none => pure (-ENOMEM)
        | some frames => do
          modifyProc pid fun p => mmapRecord p addrHint flags (mmapNumPages length flags) (frames.headD 0) slot
          pure (s64 (mmapVirt p addrHint flags))

/-- What `sys_munmap`, `sys_shmdt`, `sys_execve` and `process_terminate` do under `shm_lock`: the region loses a
    reference, and its frames with the last one. -/
def shmDrop (sid : Nat) : MmM Unit :=
  modify fun s =>
    let r := s.shm sid
    if sid < maxShmRegions ∧ 0 < r.refCount then
      if r.refCount = 1 then
        { s.setShm sid { key := -1, physPages := fun i => if i < r.numPages then 0 else r.physPages i } with
          pmm := (range r.numPages).foldl (fun p i => p.freePage (r.physPages i)) s.pmm }
      else s.setShm sid { r with refCount := r.refCount - 1 }
    else s

/-- The pages of an entry are unmapped in `sys_munmap`, without giving back the frames of a shared region. -/
def unmapEntry (c : Nat) (e : MmapEntry) : MmM Unit :=
  match e.shmId with
  | some sid => do
    unmapPages c e.virtAddr 0 false 0 e.numPages
    shmDrop sid
  | none => unmapPages c e.virtAddr e.phys true 0 e.numPages

def sysMunmap (pid virtAddr : Nat) : MmM Int := do
  let p ← getProc pid
  match p.findSlot fun e => e.virtAddr = virtAddr with
  | none => pure (-1)
  | some slot => do
    unmapEntry p.cr3 (p.mmapTable slot)
    modifyProc pid fun p => (p.dropEntry slot).refund (p.mmapTable slot).numPages
    pure 0

/-- The record of `sys_mmap2`, `sys_mmap_guard` and `sys_mmap_file`, which set `demand`. -/
def recordAt (pid : Nat) (slot : Fin mmapMaxEntries) (e : MmapEntry) (n charge : Nat) : MmM Unit :=
  modifyProc pid fun p =>
    { p.setEntry slot e with
      mmapNextAddr := w64 (e.virtAddr + (n + 1) * pageSize)
      usedMemPages := w64 (p.usedMemPages + charge) }

def mmapDemand (flags : Nat) : Bool := flags.testBit 0

def sysMmap2 (pid numPages flags : Nat) (quota : Bool) : MmM Int := do
  if numPages = 0 ∨ mmapMaxPages < numPages then pure (-EINVAL)
  else do
    let p ← getProc pid
    if p.overLimit numPages then pure (-ENOMEM)
    else if !quota then pure (-ENOMEM)
    else
      match p.freeSlot with
      | none => pure (-ENOMEM)
      | some slot => do
        let virt := p.mmapNextAddr
        if mmapDemand flags then do
          recordAt pid slot { virtAddr := virt, numPages, used := true, demand := true } numPages numPages
          pure (s64 virt)
        else
          match ← allocContiguous numPages with
          | none => pure (-ENOMEM)
          | some phys => do
            if ← mapRun p.cr3 virt phys 0 numPages then do
              recordAt pid slot { virtAddr := virt, phys, numPages, used := true } numPages numPages
              pure (s64 virt)
            else pure (-ENOMEM)

def sysMmapGuard (pid numPages : Nat) : MmM Int := do
  if numPages = 0 ∨ mmapMaxPages < numPages then pure (-EINVAL)
  else do
    let p ← getProc pid
    if p.overLimit numPages then pure (-ENOMEM)
    else
      match p.freeSlot with
      | none => pure (-ENOMEM)
      | some slot => do
        match ← allocContiguous numPages with
        | none => pure (-ENOMEM)
        | some phys => do
          let virt := p.mmapNextAddr
          if ← mapRun p.cr3 virt phys 0 numPages then do
            recordAt pid slot { virtAddr := virt, phys, numPages, used := true } numPages numPages
            pure (s64 virt)
          else do
            freeRun phys 0 numPages
            pure (-ENOMEM)

/-- `node` is the index of the node behind the descriptor, if it has one. -/
def sysMmapFile (pid : Nat) (node : Option Nat) (offset numPages : Nat) : MmM Int := do
  if numPages = 0 ∨ mmapMaxPages < numPages then pure (-1)
  else
    match node with
    | none => pure (-1)
    | some node => do
      let p ← getProc pid
      match p.freeSlot with
      | none => pure (-ENOMEM)
      | some slot => do
        let virt := p.mmapNextAddr
        recordAt pid slot
          { virtAddr := virt, numPages, used := true, demand := true, vfsNode := some node, fileOffset := offset }
          numPages 0
        pure (s64 virt)

def fmmapBatchPages : Nat := 64

/-- The pages `b`, `b + 1`, … of a batch are mapped; from the one that cannot be on, the frames are freed. -/
def fmmapMap (c virt phys i batch : Nat) : Nat → Nat → MmM Bool
  | _, 0 => pure true
  | b, n + 1 => do
    if ← vmmMapPageIn c (w64 (virt + (i + b) * pageSize)) (phys + b) userData then
      fmmapMap c virt phys i batch (b + 1) n
    else do
      freeRun phys b batch
      pure false

/-- The file is read into the frames of a batch. -/
def fmmapFill (file : Buf) (size phys i : Nat) : Nat → MmM Unit
  | 0 => pure ()
  | n + 1 => do
    fillFrame (phys + n) fun o => if (i + n) * pageSize + o < size then file ((i + n) * pageSize + o) else 0
    fmmapFill file size phys i n

/-- The loop over the batches. The answer is the number of pages of the batches that were mapped. -/
def fmmapBatches (c virt : Nat) (file : Buf) (size numPages : Nat) : Nat → Nat → MmM Nat
  | 0, i => pure i
  | fuel + 1, i => do
    if numPages ≤ i then pure i
    else do
      let batch := min (numPages - i) fmmapBatchPages
      match ← allocContiguous batch with
      | some phys => do
        fmmapFill file size phys i batch
        if ← fmmapMap c virt phys i batch 0 batch then fmmapBatches c virt file size numPages fuel (i + batch)
        else pure i
      | none => do
        match ← allocPage with
        | none => pure i
        | some phys => do
          fmmapFill file size phys i 1
          if ← fmmapMap c virt phys i 1 0 1 then fmmapBatches c virt file size numPages fuel (i + 1)
          else pure i

/-- `file` is the size and the contents of the node behind the descriptor, if it has one. -/
def sysFmmap (pid : Nat) (file : Option (Nat × Buf)) : MmM Int := do
  match file with
  | none => pure (-1)
  | some (size, bytes) =>
    if size = 0 then pure (-1)
    else
      let numPages := w64 (size + (pageSize - 1)) / pageSize
      if mmapMaxPages < numPages then pure (-1)
      else do
        let p ← getProc pid
        match p.freeSlot with
        | none => pure (-1)
        | some slot => do
          let virt := p.mmapNextAddr
          let done ← fmmapBatches p.cr3 virt bytes size numPages numPages 0
          if done < numPages then do
            unmapPages p.cr3 virt 0 true 0 done
            pure (-1)
          else do
            modifyProc pid fun p =>
              { p.setEntry slot ((p.mmapTable slot).record virt 0 numPages none) with
                mmapNextAddr := w64 (virt + (numPages + 1) * pageSize) }
            pure (s64 virt)

/-! ## Shared memory -/

def s32 (n : Nat) : Int := if n % 2 ^ 32 < 2 ^ 31 then n % 2 ^ 32 else n % 2 ^ 32 - 2 ^ 32

/-- What the first section of `sys_shmget` finds: the region with the key, a free slot that is now taken, or
    nothing. -/
inductive ShmSlot
  | found (i : Nat)
  | taken (i : Nat)
  | full

def shmgetReserve (key numPages : Nat) : MmM ShmSlot := do
  match ← gets fun s => (range maxShmRegions).find? fun i => (s.shm i).key = s32 key with
  | some i => pure (.found i)
  | none => do
    match ← gets fun s => (range maxShmRegions).find? fun i => (s.shm i).key = -1 with
    | none => pure .full
    | some i => do
      modify fun s => s.setShm i { s.shm i with key := s32 key, numPages, refCount := 0 }
      pure (.taken i)

/-- The frames of a new region, from the page `i` on. -/
def shmgetFill (slot : Nat) : Nat → Nat → MmM Bool
  | _, 0 => pure true
  | i, n + 1 => do
    match ← allocPage with
    | none => do
      modify fun s => { s with pmm := (range i).foldl (fun p j => p.freePage ((s.shm slot).physPages j)) s.pmm }
      pure false
    | some f => do
      fillFrame f zeroBytes
      modify fun s => s.setShm slot { s.shm slot with physPages := Function.update (s.shm slot).physPages i f }
      shmgetFill slot (i + 1) n

def sysShmget (key numPages : Nat) : MmM Int := do
  if numPages = 0 ∨ 16 < numPages then pure (-1)
  else
    match ← shmgetReserve key numPages with
    | .found i => pure i
    | .full => pure (-1)
    | .taken i => do
      if ← shmgetFill i 0 numPages then pure i
      else do
        modify fun s => s.setShm i { s.shm i with key := -1 }
        pure (-1)

/-- The first section of `sys_shmat`: the frames of the region. -/
def shmatLookup (shmid : Nat) : MmM (Option (List Nat)) :=
  gets fun s =>
    if maxShmRegions ≤ shmid ∨ (s.shm shmid).key = -1 then none
    else some ((range (s.shm shmid).numPages).map (s.shm shmid).physPages)

/-- The frames of a region are mapped, each with one more reference. -/
def shmatPages (c virt : Nat) : Nat → List Nat → MmM Bool
  | _, [] => pure true
  | i, f :: l => do
    if ← vmmMapPageIn c (w64 (virt + i * pageSize)) f userData then do
      refInc f
      shmatPages c virt (i + 1) l
    else pure false

/-- The part of `sys_shmat` between its two sections. The answer is the address. -/
def shmatMap (pid shmid : Nat) (frames : List Nat) : MmM (Option Nat) := do
  let p ← getProc pid
  match p.freeSlot with
  | none => pure none
  | some slot => do
    let virt := p.mmapNextAddr
    if ← shmatPages p.cr3 virt 0 frames then do
      modifyProc pid fun p =>
        { p.setEntry slot ((p.mmapTable slot).record virt (frames.headD 0) frames.length (some shmid)) with
          mmapNextAddr := w64 (virt + (frames.length + 1) * pageSize) }
      pure (some virt)
    else pure none

def shmatCount (shmid : Nat) : MmM Unit :=
  modify fun s => s.setShm shmid { s.shm shmid with refCount := (s.shm shmid).refCount + 1 }

def sysShmat (pid shmid : Nat) : MmM Int := do
  match ← shmatLookup shmid with
  | none => pure 0
  | some frames => do
    match ← shmatMap pid shmid frames with
    | none => pure 0
    | some virt => do
      shmatCount shmid
      pure (s64 virt)

def sysShmdt (pid virtAddr : Nat) : MmM Int := do
  let p ← getProc pid
  match p.findSlot fun e => e.virtAddr = virtAddr && e.shmId.isSome with
  | none => pure (-1)
  | some slot => do
    shmDrop ((p.mmapTable slot).shmId.getD 0)
    unmapPages p.cr3 virtAddr 0 true 0 (p.mmapTable slot).numPages
    modifyProc pid fun p => p.dropEntry slot
    pure 0

def protectPte (prot : Nat) (e : Pte) : Pte :=
  let write := decide (prot ≠ 0) && prot.testBit 1
  { frame := e.frame
    present := prot ≠ 0
    flags :=
      { user := true
        writable := write && !e.flags.cow
        nx := decide (prot ≠ 0) && !prot.testBit 2
        cow := e.flags.cow
        wasWritable := e.flags.cow && write } }

def protectPage (c va prot : Nat) : MmM Unit := do
  let e ← vmmGetPte c va
  if e.present then storePte c va (protectPte prot e) else pure ()

def protectPages (c virt prot : Nat) : Nat → Nat → MmM Unit
  | _, 0 => pure ()
  | i, n + 1 => do
    protectPage c (w64 (virt + i * pageSize)) prot
    protectPages c virt prot (i + 1) n

def lengthPages (length : Nat) : Nat := w64 (length + (pageSize - 1)) / pageSize

def sysMprotect (pid virtAddr length prot : Nat) : MmM Int := do
  let p ← getProc pid
  if virtAddr % pageSize ≠ 0 then pure (-EINVAL)
  else if length = 0 then pure (-EINVAL)
  else
    match p.findSlot fun e => e.covers virtAddr (lengthPages length) with
    | none => pure (-EINVAL)
    | some _ => do
      protectPages p.cr3 virtAddr prot 0 (lengthPages length)
      pure 0

def sysBrk (pid addr : Nat) : MmM Int := do
  let p ← getProc pid
  if p.brkRefuses addr then pure (s64 p.brkCurrent)
  else do
    let oldEnd := pageUp p.brkCurrent
    match ← mapFresh p.cr3 oldEnd userData true (fun _ => zeroBytes) 0 ((pageUp addr - oldEnd) / pageSize) with
    | none => pure (s64 p.brkCurrent)
    | some _ => do
      modifyProc pid fun p => { p with brkCurrent := addr }
      pure (s64 addr)

/-! ## Processes -/

/-- What the parts of the kernel outside this model answer to `process_fork` and `process_create_from_elf`:
    `true` for success. -/
structure Fault where
  quota : Bool := true
  kmalloc : Bool := true
  thread : Bool := true
  register : Bool := true

def MmapEntry.region (e : MmapEntry) : Option Nat := if e.used then e.shmId else none

def detachShm (pid : Nat) : List (Fin mmapMaxEntries) → MmM Unit
  | [] => pure ()
  | i :: l => do
    match MmapEntry.region ((← getProc pid).mmapTable i) with
    | some sid => do
      shmDrop sid
      modifyProc pid fun p => p.dropEntry i
      detachShm pid l
    | none => detachShm pid l

def wakeVforkParent (parent : Nat) : MmM Unit := modifyProc parent fun p => { p with vforkChild := none }

/-- The address space of a process is freed; one that a vfork child shares goes back to the parent. -/
def leaveSpace (p : MmProc) : MmM Unit :=
  match p.vforkParent with
  | some parent => wakeVforkParent parent
  | none => vmmFreeUserPages p.cr3

def processTerminate (pid : Nat) : MmM Unit := do
  detachShm pid (finRange mmapMaxEntries)
  leaveSpace (← getProc pid)
  modify fun s => { s.setProc pid {} with pids := s.pids.erase pid }

def countRegion (sid : Nat) : MmM Unit := if sid < maxShmRegions then shmatCount sid else pure ()

def countShm (pid : Nat) : List (Fin mmapMaxEntries) → MmM Unit
  | [] => pure ()
  | i :: l => do
    match MmapEntry.region ((← getProc pid).mmapTable i) with
    | some sid => do
      countRegion sid
      countShm pid l
    | none => countShm pid l

def addProc (pid : Nat) (p : MmProc) : MmM Unit := modify fun s => { s.setProc pid p with pids := pid :: s.pids }

def allocPid : MmM Nat := fun s => (s.nextPid, { s with nextPid := s.nextPid + 1 })

/-- `process_fork`. The break is not copied. -/
def processFork (pid : Nat) (fault : Fault) : MmM (Option Nat) := do
  if !fault.kmalloc then pure none
  else do
    let child ← allocPid
    let p ← getProc pid
    match ← vmmCloneCow p.cr3 p.mmapTable with
    | none => pure none
    | some cr3 =>
      if !fault.thread then pure none
      else if !fault.register then pure none
      else do
        addProc child
          { cr3, mmapTable := p.mmapTable, mmapNextAddr := p.mmapNextAddr, usedMemPages := p.usedMemPages
            rlimitMemPages := p.rlimitMemPages }
        pure (some child)

/-- `process_fork_vfork`. The child has no mappings of its own. -/
def processForkVfork (pid : Nat) (fault : Fault) : MmM (Option Nat) := do
  if !fault.kmalloc then pure none
  else do
    let child ← allocPid
    let p ← getProc pid
    if !fault.thread then pure none
    else if !fault.register then pure none
    else do
      addProc child
        { cr3 := p.cr3, mmapNextAddr := p.mmapNextAddr, brkBase := p.brkBase, brkCurrent := p.brkCurrent
          vforkParent := some pid }
      pure (some child)

def forkProcess (pid : Nat) (vfork : Bool) (fault : Fault) : MmM (Option Nat) :=
  if vfork then processForkVfork pid fault else processFork pid fault

def sysFork (pid : Nat) (vfork : Bool) (fault : Fault) : MmM Int := do
  if !fault.quota then pure (-ENOMEM)
  else
    match ← forkProcess pid vfork fault with
    | none => pure (-1)
    | some child => do
      countShm pid (finRange mmapMaxEntries)
      modifyProc pid fun p => { p with vforkChild := if vfork then some child else none }
      pure child

/-! ## Program images -/

/-- `elf64_phdr_t`, as far as it is read: `PT_LOAD`, `PF_W` and `PF_X` as Booleans. -/
structure ElfPhdr where
  load : Bool := true
  vaddr : Nat
  memsz : Nat
  filesz : Nat
  offset : Nat
  write : Bool
  exec : Bool

def emX86_64 : Nat := 0x3E

structure ElfFile where
  size : Nat
  byte : Buf
  magic : Nat
  class64 : Nat
  encoding : Nat
  type : Nat
  machine : Nat
  phoff : Nat
  phnum : Nat
  phentsize : Nat
  entry : Nat
  phdr : Nat → ElfPhdr

variable (f : ElfFile)

/-- The checks of the file header; the builds have `EM_X86_64` and `EM_AARCH64` (0xB7) for `machine`. -/
def ElfFile.valid (machine : Nat) : Bool :=
  decide (64 ≤ f.size) && decide (f.magic = 0x464C457F) && decide (f.class64 = 2) && decide (f.encoding = 1) &&
    decide (f.type = 2) && decide (f.machine = machine) && decide (f.phoff ≠ 0) && decide (f.phnum ≠ 0) &&
    decide (w64 (f.phoff + f.phnum * f.phentsize) ≤ f.size)

variable (p : ElfPhdr)

def ElfPhdr.valid (size : Nat) : Bool :=
  decide (p.vaddr < userAddrMax) && decide (w64 (p.vaddr + p.memsz) ≤ userAddrMax) &&
    (decide (p.filesz = 0) || decide (w64 (p.offset + p.filesz) ≤ size)) && decide (p.filesz ≤ p.memsz)

def ElfPhdr.flags : PteFlags := { user := true, writable := p.write, nx := !p.exec }

def ElfPhdr.start : Nat := p.vaddr - p.vaddr % pageSize

def ElfPhdr.stop : Nat := pageUp (w64 (p.vaddr + p.memsz))

def ElfFile.segment (p : ElfPhdr) (i o : Nat) : UInt8 :=
  let a := p.start + i * pageSize + o
  if p.vaddr ≤ a ∧ a < w64 (p.vaddr + p.filesz) then f.byte (p.offset + (a - p.vaddr)) else 0

/-- The loop over the segments, with the highest address and the number of segments so far. -/
def elfSegments (c : Nat) (f : ElfFile) : List ElfPhdr → Nat → Nat → MmM (Except Int Nat)
  | [], highest, count => pure (if count = 0 then .error (-EINVAL) else .ok highest)
  | p :: l, highest, count => do
    if !p.load then elfSegments c f l highest count
    else if !p.valid f.size then pure (.error (-EINVAL))
    else
      match ← mapFresh c p.start p.flags false (f.segment p) 0 ((p.stop - p.start) / pageSize) with
      | none => pure (.error (-ENOMEM))
      | some _ => elfSegments c f l (max highest p.stop) (count + 1)

/-- `elf_load`. The answer is the address space and the break. -/
def elfLoad : MmM (Except Int (Nat × Nat)) := do
  if !f.valid emX86_64 then pure (.error (-EINVAL))
  else
    match ← vmmCreateAddressSpace with
    | none => pure (.error (-ENOMEM))
    | some c => do
      match ← elfSegments c f ((range f.phnum).map f.phdr) 0 0 with
      | .error e => pure (.error e)
      | .ok brk => pure (.ok (c, brk))

def userStackTop : Nat := 0x800000000000
def userStackSize : Nat := 64 * 1024

def mapStack (c : Nat) : MmM Bool := do
  match ← mapFresh c (userStackTop - userStackSize) userData false (fun _ => zeroBytes) 0
      (userStackSize / pageSize) with
  | none => pure false
  | some _ => pure true

def processCreateFromElf (fault : Fault) : MmM (Option Nat) := do
  match ← elfLoad f with
  | .error _ => pure none
  | .ok (cr3, brk) =>
    if !fault.kmalloc then pure none
    else do
      let pid ← allocPid
      if ← mapStack cr3 then
        if !fault.thread then pure none
        else if !fault.register then pure none
        else do
          addProc pid { cr3, mmapNextAddr := mmapRegionBase, brkBase := brk, brkCurrent := brk }
          pure (some pid)
      else pure none

/-- `sys_execve`, from the file on. -/
def sysExecve (pid : Nat) (f : ElfFile) : MmM Int := do
  match ← elfLoad f with
  | .error _ => pure (-ENOEXEC)
  | .ok (cr3, brk) => do
    if ← mapStack cr3 then do
      detachShm pid (finRange mmapMaxEntries)
      leaveSpace (← getProc pid)
      modifyProc pid fun p =>
        { p with
          cr3, brkBase := brk, brkCurrent := brk, mmapTable := fun _ => {}, mmapNextAddr := mmapRegionBase
          usedMemPages := 0, vforkParent := none }
      pure 0
    else do
      vmmFreeUserPages cr3
      pure (-ENOMEM)

/-! ## Page faults, user writes and signal frames -/

def cowPte (e : Pte) (f : Nat) : Pte :=
  { frame := f, present := true, flags := { e.flags with cow := false, wasWritable := false, writable := true } }

/-- A private copy of a copy-on-write page, or the page itself if it is the only reference; for `page_fault_handler` and
    signal frames. The answer is whether there was memory. -/
def breakCow (c va : Nat) (e : Pte) : MmM Bool := do
  if (← gets fun s => s.pmm.refGet e.frame) = 1 then do
    storePte c va (cowPte e e.frame)
    pure true
  else
    match ← allocPage with
    | none => pure false
    | some f => do
      fillFrame f (← gets fun s => s.data e.frame)
      storePte c va (cowPte e f)
      refDec e.frame
      pure true

def demandPageFault (c va : Nat) : MmM Bool := do
  match ← allocPage with
  | none => pure false
  | some f => do
    fillFrame f zeroBytes
    vmmMapPageIn c va f userData

/-- The loop of `page_fault_handler` over the demand regions. `none`: no region gave a page. -/
def demandRegions (c pageAddr : Nat) (file : Nat → Buf) : List MmapEntry → MmM Bool
  | [] => pure false
  | e :: l => do
    if e.demandAt pageAddr then
      match e.vfsNode with
      | some node => do
        match ← allocPage with
        | none => pure false
        | some f => do
          fillFrame f fun o => file node (e.fileOffset + (pageAddr - e.virtAddr) + o)
          if ← vmmMapPageIn c pageAddr f { user := true, nx := true } then pure true
          else do
            freePage f
            demandRegions c pageAddr file l
      | none => do
        if ← demandPageFault c pageAddr then pure true
        else demandRegions c pageAddr file l
    else demandRegions c pageAddr file l

/-- The part of `page_fault_handler` that may give the process the page. -/
def resolveFault (p : MmProc) (addr : Nat) (present write : Bool) (file : Nat → Buf) : MmM Bool := do
  let e ← vmmGetPte p.cr3 addr
  if present then
    if write && e.flags.cow && e.flags.wasWritable then breakCow p.cr3 addr e else pure false
  else demandRegions p.cr3 (addr - addr % pageSize) file ((finRange mmapMaxEntries).map p.mmapTable)

/-- `page_fault_handler` in user mode: the process goes on or is terminated. `file` gives the contents of the nodes. -/
def pageFault (pid addr : Nat) (present write : Bool) (file : Nat → Buf) : MmM Bool := do
  if ← resolveFault (← getProc pid) addr present write file then pure true
  else do
    Mem.processTerminate pid
    pure false

/-- A write in user mode: the processor faults until the page is writable. -/
def userWrite (pid va : Nat) (b : UInt8) (file : Nat → Buf) : Nat → MmM Bool
  | 0 => pure false
  | fuel + 1 => do
    let p ← getProc pid
    let e ← vmmGetPte p.cr3 va
    if e.present && e.flags.user && e.flags.writable then do
      modify fun s =>
        { s with data := Function.update s.data e.frame (Function.update (s.data e.frame) (va % pageSize) b) }
      pure true
    else if ← pageFault pid va e.present true file then userWrite pid va b file fuel
    else pure false

def signalFrameAddr (rsp : Nat) : Nat := w64 (rsp + 2 ^ 64 - 32) / 16 * 16

/-- A copy-on-write page is made private before the signal frame is written. -/
def ownPage (c va : Nat) (e : Pte) : MmM Bool := if e.flags.cow then breakCow c va e else pure true

/-- The 32 bytes of a signal frame are stored from the physical address of its first byte on. -/
def writeFrame (s : Mm) (phys : Nat) (bytes : Buf) : Mm :=
  { s with data := fun f o =>
      if phys ≤ f * pageSize + o ∧ f * pageSize + o < phys + 32 ∧ o < pageSize then bytes (f * pageSize + o - phys)
      else s.data f o }

/-- The signal frame that `syscall_dispatch` writes to the stack, through the frame of its first byte. -/
def signalFrame (pid rsp : Nat) (bytes : Buf) : MmM Bool := do
  let p ← getProc pid
  let e ← vmmGetPte p.cr3 (signalFrameAddr rsp)
  if !e.present then pure false
  else if ← ownPage p.cr3 (signalFrameAddr rsp) e then do
    let e ← vmmGetPte p.cr3 (signalFrameAddr rsp)
    modify fun s => writeFrame s (e.frame * pageSize + signalFrameAddr rsp % pageSize) bytes
    pure true
  else pure false

end Mem

/-- A call, each with the process that makes it, or an access of a process to its memory. -/
inductive MemOp
  | mmap (pid addrHint length prot flags : Nat)
  | munmap (pid virtAddr : Nat)
  | mmap2 (pid numPages flags : Nat) (quota : Bool)
  | mmapGuard (pid numPages : Nat)
  | mmapFile (pid : Nat) (node : Option Nat) (offset numPages : Nat)
  | fmmap (pid : Nat) (file : Option (Nat × Buf))
  | shmget (pid key numPages : Nat)
  | shmat (pid shmid : Nat)
  | shmdt (pid virtAddr : Nat)
  | mprotect (pid virtAddr length prot : Nat)
  | brk (pid addr : Nat)
  | fork (pid : Nat) (vfork : Bool) (fault : Mem.Fault)
  | execve (pid : Nat) (file : Mem.ElfFile)
  | terminate (pid : Nat)
  /-- `sys_setrlimit` for memory. -/
  | setLimit (pid r : Nat)
  /-- A page fault in user mode, where the processor reports one. -/
  | access (pid addr : Nat) (wr : Bool) (file : Nat → Buf)
  | write (pid va : Nat) (b : UInt8) (file : Nat → Buf)
  | signal (pid rsp : Nat) (bytes : Buf)

namespace MemOp

def pid : MemOp → Nat
  | mmap p .. | munmap p .. | mmap2 p .. | mmapGuard p .. | mmapFile p .. | fmmap p .. | shmget p .. | shmat p ..
  | shmdt p .. | mprotect p .. | brk p .. | fork p .. | execve p .. | terminate p | setLimit p .. | access p ..
  | write p .. | signal p .. => p

open Mem StateProg

def prog : MemOp → MmM Int
  | mmap pid addrHint length prot flags => sysMmap pid addrHint length prot flags
  | munmap pid virtAddr => sysMunmap pid virtAddr
  | mmap2 pid numPages flags quota => sysMmap2 pid numPages flags quota
  | mmapGuard pid numPages => sysMmapGuard pid numPages
  | mmapFile pid node offset numPages => sysMmapFile pid node offset numPages
  | fmmap pid file => sysFmmap pid file
  | shmget _ key numPages => sysShmget key numPages
  | shmat pid shmid => sysShmat pid shmid
  | shmdt pid virtAddr => sysShmdt pid virtAddr
  | mprotect pid virtAddr length prot => sysMprotect pid virtAddr length prot
  | brk pid addr => sysBrk pid addr
  | fork pid vfork fault => Mem.sysFork pid vfork fault
  | execve pid file => Mem.sysExecve pid file
  | terminate pid => do
    Mem.processTerminate pid
    pure 0
  | setLimit pid r => do
    modifyProc pid fun p => { p with rlimitMemPages := r }
    pure 0
  | access pid addr wr file => do
    let p ← getProc pid
    let e ← vmmGetPte p.cr3 addr
    -- no fault where the access is allowed
    if e.present && e.flags.user && (!wr || e.flags.writable) then pure 0
    else do
      let _ ← pageFault pid addr e.present wr file
      pure 0
  | write pid va b file => do
    let _ ← userWrite pid va b file 3
    pure 0
  | signal pid rsp bytes => do
    let _ ← signalFrame pid rsp bytes
    pure 0

end MemOp

/-- The process can run: it is live and does not wait for a vfork child. -/
def Mm.runs (s : Mm) (pid : Nat) : Bool := decide (pid ∈ s.pids) && (s.proc pid).vforkChild.isNone

def Mm.step (s : Mm) (op : MemOp) : Mm := if s.runs op.pid then (op.prog s).2 else s

end Limnx
