import Limnx.Lib.Bitmap
import Limnx.LimnFormat

/-! # LimnFS (`blk/limnfs.c`)

1024 inodes on blocks of 4096 bytes: superblock, block bitmap, inode bitmap, inode table, data. The superblock and both
bitmaps are kept in memory and written out by the flush functions. An operation is a `BlockProg` with the statics as its
state; only `limnfs_read_data` reads past the cache. A failed read leaves its buffer as it was, and where the code goes
on without a check the old contents are passed along. -/

namespace Limnx
open ByteCodec Bytes Bitmap Dentry

def u32 (n : Nat) : Nat := n % 2 ^ 32
def u64 (n : Nat) : Nat := n % 2 ^ 64

def pred32 (n : Nat) : Nat := if n = 0 then 2 ^ 32 - 1 else n - 1

/-- `limnfs_state_t` and the statics `alloc_hint` and `scratch_block3`, the buffer as earlier operations left it, which
    is read only after a failed read. -/
structure Lfs where
  mounted : Bool := false
  super : Super := {}
  blockBitmap : Buf := fun _ => 0
  blockBitmapBytes : Nat := 0
  inodeBitmap : Buf := fun _ => 0
  allocHint : Nat := 0
  scratch3 : Block := zero

abbrev LfsM (raw wr : Bool) : Type → Type := StateT Lfs (BlockProg raw wr Block)

/-- A writing operation. -/
abbrev LfsW : Type → Type := LfsM false true

section Operations
variable {raw wr : Bool} {α σ : Type}

def bcacheRead (b : Nat) : LfsM raw wr (Option Block) := fun s => .read b fun o => .done (o, s)

def bcacheWrite (b : Nat) (data : Block) : LfsM raw true Bool := fun s => .write rfl b data fun o => .done (o, s)

def blkReadMulti (b n : Nat) : LfsM true wr (Option (List Block)) := fun s => .readRaw rfl b n fun o => .done (o, s)

def Lfs.bitmapBlocks (s : Lfs) : Nat := if s.blockBitmapBytes / blockSize = 0 then 1 else s.blockBitmapBytes / blockSize

def flushBlockBitmap : LfsM raw true Bool := do
  let s ← get
  (List.range s.bitmapBlocks).allM fun b =>
    let remain := min blockSize (s.blockBitmapBytes - b * blockSize)
    bcacheWrite (1 + b) (make fun i => if i < remain then s.blockBitmap (b * blockSize + i) else 0)

def flushInodeBitmap : LfsM raw true Bool := do
  let s ← get
  bcacheWrite (1 + s.bitmapBlocks) (make fun i => if i < 128 then s.inodeBitmap i else 0)

def flushSuperblock : LfsM raw true Bool := do
  let s ← get
  bcacheWrite 0 s.super.encode

def limnfsSync : LfsM raw true Unit := do
  let s ← get
  if s.mounted then
    let _ ← flushBlockBitmap
    let _ ← flushInodeBitmap
    let _ ← flushSuperblock

def limnfsReadInode (ino : Nat) : LfsM raw wr (Option Inode) := do
  if maxInodes ≤ ino then return none
  let s ← get
  match ← bcacheRead (s.super.inodeTblStart + ino / Inode.perBlock) with
  | none => return none
  | some b => return some (Inode.load b (ino % Inode.perBlock))

def limnfsWriteInode (ino : Nat) (inode : Inode) : LfsM raw true Bool := do
  if maxInodes ≤ ino then return false
  let s ← get
  match ← bcacheRead (s.super.inodeTblStart + ino / Inode.perBlock) with
  | none => return false
  | some b => bcacheWrite (s.super.inodeTblStart + ino / Inode.perBlock) (Inode.store b (ino % Inode.perBlock) inode)

def limnfsAllocInode : LfsM raw true (Option Nat) := do
  let s ← get
  match firstClear s.inodeBitmap 1 maxInodes with
  | none => return none
  | some i =>
    set { s with
      inodeBitmap := set s.inodeBitmap i
      super := { s.super with freeInodes := pred32 s.super.freeInodes } }
    let _ ← flushInodeBitmap
    let _ ← flushSuperblock
    return some i

def takeBlock (i : Nat) : LfsM raw wr Nat := do
  modify fun s => { s with
    blockBitmap := set s.blockBitmap i
    super := { s.super with freeBlocks := pred32 s.super.freeBlocks }
    allocHint := i + 1 }
  return i

/-- Next fit: from the hint to the end, then from the start to the hint. `0` when all blocks are used. -/
def limnfsAllocBlock : LfsM raw wr Nat := do
  let s ← get
  let start := max s.allocHint s.super.dataStart
  match firstClear s.blockBitmap start s.super.totalBlocks with
  | some i => takeBlock i
  | none =>
    match firstClear s.blockBitmap s.super.dataStart start with
    | some i => takeBlock i
    | none => return 0

def limnfsFreeBlock (blk : Nat) : LfsM raw wr Unit :=
  modify fun s =>
    if blk < s.super.dataStart ∨ s.super.totalBlocks ≤ blk then s
    else { s with
      blockBitmap := clear s.blockBitmap blk
      super := { s.super with freeBlocks := u32 (s.super.freeBlocks + 1) } }

/-! ## Block pointers -/

def followPath : Nat → List Nat → LfsM raw wr Nat
  | b, [] => return b
  | b, i :: path => do
    match ← bcacheRead b with
    | none => return 0
    | some ptrs => if ptrAt ptrs i = 0 then return 0 else followPath (ptrAt ptrs i) path

def doublePath (n : Nat) : List Nat := [n / ptrsPerBlock, n % ptrsPerBlock]

def triplePath (n : Nat) : List Nat := n / (ptrsPerBlock * ptrsPerBlock) :: doublePath (n % (ptrsPerBlock * ptrsPerBlock))

def doubleBase : Nat := maxDirect + ptrsPerBlock
def tripleBase : Nat := maxDirect + ptrsPerBlock + ptrsPerBlock * ptrsPerBlock

variable (inode : Inode)

def getFileBlock (logicalBlock : Nat) : LfsM raw wr Nat :=
  if h : logicalBlock < maxDirect then return inode.direct ⟨logicalBlock, h⟩
  else
    let idx := logicalBlock - maxDirect
    if idx < ptrsPerBlock ∧ inode.indirect ≠ 0 then followPath inode.indirect [idx]
    else if ptrsPerBlock ≤ idx ∧ inode.doubleIndirect ≠ 0 ∧ idx - ptrsPerBlock < ptrsPerBlock * ptrsPerBlock then
      followPath inode.doubleIndirect (doublePath (idx - ptrsPerBlock))
    else if tripleBase ≤ logicalBlock ∧ inode.tripleIndirect ≠ 0 then
      followPath inode.tripleIndirect (triplePath (logicalBlock - tripleBase))
    else return 0

def allocZeroed : LfsM raw true Nat := do
  let b ← limnfsAllocBlock
  if b = 0 then return 0
  let _ ← bcacheWrite b zero
  return b

/-- Enter `blk` at `path` below the pointer block `b` and allocate the pointer blocks missing on the way. When one
    cannot be had, `blk` is freed again. Pointer blocks are read into `scratch`. -/
def linkPath (blk : Nat) : Nat → List Nat → Block → LfsM raw true Bool
  | _, [], _ => return true
  | b, [i], scratch => do
    let ptrs := (← bcacheRead b).getD scratch
    let _ ← bcacheWrite b (setPtrAt ptrs i blk)
    return true
  | b, i :: path, scratch => do
    let ptrs := (← bcacheRead b).getD scratch
    if ptrAt ptrs i ≠ 0 then linkPath blk (ptrAt ptrs i) path ptrs
    else
      let c ← allocZeroed
      if c = 0 then
        limnfsFreeBlock blk
        return false
      let ptrs := setPtrAt ((← bcacheRead b).getD zero) i c
      let _ ← bcacheWrite b ptrs
      linkPath blk c path ptrs

def treeRoot (root : Nat) : LfsM raw true Nat := if root = 0 then allocZeroed else return root

/-- Allocate a block for a logical position of a file: the block, or `0`, and the inode, which the caller
    has to store. -/
def allocFileBlock (logicalBlock : Nat) : LfsM raw true (Nat × Inode) := do
  let blk ← allocZeroed
  if blk = 0 then return (0, inode)
  if h : logicalBlock < maxDirect then
    return (blk, { inode with
      direct := Function.update inode.direct ⟨logicalBlock, h⟩ blk
      blockCount := u32 (inode.blockCount + 1) })
  let idx := logicalBlock - maxDirect
  if idx < ptrsPerBlock then
    let root ← treeRoot inode.indirect
    if root = 0 then
      limnfsFreeBlock blk
      return (0, inode)
    let inode := { inode with indirect := root }
    if ← linkPath blk root [idx] zero then
      return (blk, { inode with blockCount := u32 (inode.blockCount + 1) })
    else return (0, inode)
  else if idx - ptrsPerBlock < ptrsPerBlock * ptrsPerBlock then
    let root ← treeRoot inode.doubleIndirect
    if root = 0 then
      limnfsFreeBlock blk
      return (0, inode)
    let inode := { inode with doubleIndirect := root }
    if ← linkPath blk root (doublePath (idx - ptrsPerBlock)) zero then
      return (blk, { inode with blockCount := u32 (inode.blockCount + 1) })
    else return (0, inode)
  else
    let s ← get
    let scratch := if inode.tripleIndirect = 0 then zero else s.scratch3
    let root ← treeRoot inode.tripleIndirect
    if root = 0 then
      limnfsFreeBlock blk
      return (0, inode)
    let inode := { inode with tripleIndirect := root }
    if ← linkPath blk root (triplePath (idx - ptrsPerBlock - ptrsPerBlock * ptrsPerBlock)) scratch then
      return (blk, { inode with blockCount := u32 (inode.blockCount + 1) })
    else return (0, inode)

def bitmapBytes (totalBlocks : Nat) : Nat :=
  (max (u32 (totalBlocks + 7) / 8) 4096 + blockSize - 1) / blockSize * blockSize

def inodeBlocks : Nat := (maxInodes * 128 + blockSize - 1) / blockSize

/-- `kmallocOk` says whether memory for the bitmap can be had. -/
def limnfsFormat (totalBlocks : Nat) (kmallocOk : Bool) : LfsM raw true Bool := do
  if !kmallocOk then return false
  let bytes := bitmapBytes totalBlocks
  let inodeTblStart := 1 + bytes / blockSize + 1
  let dataStart := inodeTblStart + inodeBlocks
  modify fun s => { s with
    blockBitmapBytes := bytes
    super := {
      magic := limnfsMagic
      totalBlocks
      totalInodes := maxInodes
      blockSize
      inodeTblStart
      dataStart
      freeBlocks := u32 (totalBlocks + (2 ^ 32 - dataStart))
      freeInodes := maxInodes - 1 } }
  if !(← flushSuperblock) then return false
  modify fun s => { s with
    blockBitmap := (List.range dataStart).foldl set (splice s.blockBitmap 0 bytes fun _ => 0) }
  if !(← flushBlockBitmap) then return false
  modify fun s => { s with inodeBitmap := set (splice s.inodeBitmap 0 128 fun _ => 0) 0 }
  if !(← flushInodeBitmap) then return false
  if !(← (List.range inodeBlocks).allM fun b => bcacheWrite (inodeTblStart + b) zero) then return false
  if !(← limnfsWriteInode 0 { type := typeDir, mode := 7 }) then return false
  modify fun s => { s with mounted := true }
  return true

def limnfsMount (kmallocOk : Bool) : LfsM raw wr Bool := do
  match ← bcacheRead 0 with
  | none => return false
  | some b =>
    if (Super.decode b).magic ≠ limnfsMagic then return false
    modify fun s => { s with super := Super.decode b }
    if !kmallocOk then return false
    let bytes := bitmapBytes (Super.decode b).totalBlocks
    modify fun s => { s with blockBitmapBytes := bytes }
    let s ← get
    let ok ← (List.range s.bitmapBlocks).allM fun i => do
      match ← bcacheRead (1 + i) with
      | none => return false
      | some b =>
        modify fun s => { s with
          blockBitmap := splice s.blockBitmap (i * blockSize) (min blockSize (bytes - i * blockSize)) b.get }
        return true
    if !ok then return false
    match ← bcacheRead (1 + s.bitmapBlocks) with
    | none => return false
    | some b =>
      modify fun s => { s with inodeBitmap := splice s.inodeBitmap 0 128 b.get, mounted := true }
      return true

/-- Free the tree of height `h` at `b` and return what is then in the buffer. A tree of pointer blocks below overwrites
    the buffer, and the block is read again. -/
def freeTree : Nat → Nat → Block → LfsM raw wr Block
  | 0, b, scratch => do
    limnfsFreeBlock b
    return scratch
  | h + 1, b, scratch => do
    let scratch ← match ← bcacheRead b with
      | none => pure scratch
      | some ptrs =>
        (List.range ptrsPerBlock).foldlM (fun scratch i =>
          if ptrAt scratch i = 0 then pure scratch
          else do
            let scratch ← freeTree h (ptrAt scratch i) scratch
            if h = 0 then pure scratch
            else
              let again ← bcacheRead b
              pure (again.getD scratch)) ptrs
    limnfsFreeBlock b
    return scratch

def limnfsFreeInode (ino : Nat) : LfsM raw true Unit := do
  if ino = 0 ∨ maxInodes ≤ ino then return
  match ← limnfsReadInode ino with
  | none => return
  | some inode =>
    (List.finRange 10).forM fun i => if inode.direct i = 0 then pure () else limnfsFreeBlock (inode.direct i)
    if inode.indirect ≠ 0 then
      let _ ← freeTree 1 inode.indirect zero
    if inode.doubleIndirect ≠ 0 then
      let _ ← freeTree 2 inode.doubleIndirect zero
    if inode.tripleIndirect ≠ 0 then
      let _ ← freeTree 3 inode.tripleIndirect zero
    let _ ← limnfsWriteInode ino {}
    modify fun s => { s with
      inodeBitmap := clear s.inodeBitmap ino
      super := { s.super with freeInodes := u32 (s.super.freeInodes + 1) } }
    let _ ← flushInodeBitmap
    let _ ← flushSuperblock

/-! ## File data -/

def blockSlice (b : Block) (off n : Nat) : List UInt8 := (List.range n).map fun i => b.get (off + i)

/-- Read the whole blocks that remain of `len` bytes, at most 64 in a request: the bytes so far and the next block. -/
def bulkRead (len : Nat) : Nat → Nat → List UInt8 → LfsM true wr (Option (Nat × List UInt8))
  | 0, blk, acc => return some (blk, acc)
  | fuel + 1, blk, acc =>
    if len < acc.length + blockSize then return some (blk, acc)
    else do
      let batch := min 64 ((len - acc.length) / blockSize)
      match ← blkReadMulti blk batch with
      | none => return none
      | some bs => bulkRead len fuel (u32 (blk + batch)) (acc ++ bs.flatMap fun b => blockSlice b 0 blockSize)

/-- Spot check: are a few blocks after the first one where they would be in a contiguous file? -/
def spotChecks (startLb nBlocks firstBlk : Nat) : LfsM raw wr Bool :=
  [1, nBlocks / 4, nBlocks / 2, nBlocks - 1].allM fun c =>
    if c = 0 ∨ nBlocks ≤ c then return true
    else do
      let blk ← getFileBlock inode (startLb + c)
      return blk == u32 (firstBlk + c)

/-- `none` when the file does not look contiguous. -/
def limnfsReadDataSequential (offset len : Nat) : LfsM true wr (Option (List UInt8)) := do
  let startLb := offset / blockSize
  let nBlocks := (offset + len - 1) / blockSize - startLb + 1
  let firstBlk ← getFileBlock inode startLb
  if firstBlk = 0 then return none
  if !(← spotChecks inode startLb nBlocks firstBlk) then return none
  let blockOffset := offset % blockSize
  let head ← if blockOffset = 0 then pure (some (firstBlk, []))
    else do
      match ← bcacheRead firstBlk with
      | none => pure none
      | some b => pure (some (u32 (firstBlk + 1), blockSlice b blockOffset (min (blockSize - blockOffset) len)))
  match head with
  | none => return none
  | some (blk, acc) =>
    match ← bulkRead len len blk acc with
    | none => return none
    | some (blk, acc) =>
      if acc.length < len then
        match ← bcacheRead blk with
        | none => return none
        | some b => return some (acc ++ blockSlice b 0 (len - acc.length))
      else return some acc

def runLength (inode : Inode) (logicalBlock diskBlock maxRun : Nat) : Nat → Nat → LfsM raw wr Nat
  | 0, run => return run
  | fuel + 1, run =>
    if maxRun ≤ run then return run
    else do
      let next ← getFileBlock inode (logicalBlock + run)
      if next ≠ u32 (diskBlock + run) then return run
      else runLength inode logicalBlock diskBlock maxRun fuel (run + 1)

/-- The block-by-block path. Every round reads at least one byte or stops. -/
def readLoop (inode : Inode) (offset len : Nat) : Nat → List UInt8 → LfsM true wr (List UInt8)
  | 0, acc => return acc
  | fuel + 1, acc =>
    if len ≤ acc.length then return acc
    else do
      let pos := offset + acc.length
      let logicalBlock := pos / blockSize
      let blockOffset := pos % blockSize
      let diskBlock ← getFileBlock inode logicalBlock
      if diskBlock = 0 then return acc
      -- A run of blocks that are contiguous on disk is read past the cache.
      let bulk ← if blockOffset = 0 ∧ blockSize ≤ len - acc.length then do
          let run ← runLength inode logicalBlock diskBlock (min 8 ((len - acc.length) / blockSize)) 8 1
          if 1 < run then blkReadMulti diskBlock run else pure none
        else pure none
      match bulk with
      | some bs => readLoop inode offset len fuel (acc ++ bs.flatMap fun b => blockSlice b 0 blockSize)
      | none =>
        match ← bcacheRead diskBlock with
        | none => return acc
        | some b =>
          readLoop inode offset len fuel
            (acc ++ blockSlice b blockOffset (min (blockSize - blockOffset) (len - acc.length)))

/-- The bytes read; `none` for the inode that cannot be read. -/
def limnfsReadData (ino offset len : Nat) : LfsM true wr (Option (List UInt8)) := do
  match ← limnfsReadInode ino with
  | none => return none
  | some inode =>
    if inode.size ≤ offset then return some []
    let len := min len (inode.size - offset)
    let fast ← if 32 * 1024 ≤ len then limnfsReadDataSequential inode offset len else pure none
    match fast with
    | some bytes => return some bytes
    | none => return some (← readLoop inode offset len len [])

/-- Write block by block until all is written or a block cannot be had: the number of bytes and the inode. Every round
    writes a byte or stops. -/
def writeLoop (offset len : Nat) (buf : Buf) : Nat → Nat → Inode → LfsM raw true (Nat × Inode)
  | 0, written, inode => return (written, inode)
  | fuel + 1, written, inode =>
    if len ≤ written then return (written, inode)
    else do
      let pos := u64 (offset + written)
      let logicalBlock := u32 (pos / blockSize)
      let blockOffset := pos % blockSize
      let diskBlock ← getFileBlock inode logicalBlock
      let (diskBlock, inode) ← if diskBlock = 0 then allocFileBlock inode logicalBlock else pure (diskBlock, inode)
      if diskBlock = 0 then return (written, inode)
      match ← bcacheRead diskBlock with
      | none => return (written, inode)
      | some b =>
        let chunk := min (blockSize - blockOffset) (len - written)
        if ← bcacheWrite diskBlock (make (splice b.get blockOffset chunk fun i => buf (written + i))) then
          writeLoop offset len buf fuel (written + chunk) inode
        else return (written, inode)

/-- The number of bytes written; `none` for the inode that cannot be read. -/
def limnfsWriteData (ino offset : Nat) (buf : Buf) (len : Nat) : LfsM raw true (Option Nat) := do
  match ← limnfsReadInode ino with
  | none => return none
  | some inode =>
    let (written, inode) ← writeLoop offset len buf len 0 inode
    let finish := u64 (offset + written)
    let inode := if inode.size < finish then { inode with size := u32 finish } else inode
    let _ ← limnfsWriteInode ino inode
    return some written

/-! ## Directories -/

/-- Walk the blocks of a directory with `total` entries. `visit` sees the block number, the block and its number of
    entries, and ends the walk or goes on with a new `acc`. A missing block ends it. -/
def dirScan (dir : Inode) (total : Nat) (visit : σ → Nat → Block → Nat → α ⊕ σ) : Nat → Nat → σ → LfsM raw wr (Option α)
  | 0, _, _ => return none
  | fuel + 1, lb, acc =>
    if total ≤ lb * dentriesPerBlock then return none
    else do
      let diskBlock ← getFileBlock dir lb
      if diskBlock = 0 then return none
      match ← bcacheRead diskBlock with
      | none => return none
      | some entries =>
        match visit acc diskBlock entries (min dentriesPerBlock (total - lb * dentriesPerBlock)) with
        | .inl a => return some a
        | .inr acc => dirScan dir total visit fuel (lb + 1) acc

def Inode.totalEntries (dir : Inode) : Nat := dir.size / dentrySize

def dirFind (dir : Inode) (p : Block → Nat → Bool) : LfsM raw wr (Option (Nat × Block × Nat)) :=
  dirScan dir dir.totalEntries (σ := Unit)
    (fun _ blk entries n =>
      match (List.range n).find? (p entries) with
      | some i => .inl (blk, entries, i)
      | none => .inr ())
    (dir.totalEntries + 1) 0 ()

def isNamed (name : CStr) (entries : Block) (i : Nat) : Bool :=
  (load entries i).inode != 0 && nameAt entries i == name

def isDeleted (entries : Block) (i : Nat) : Bool := (load entries i).inode == 0

def readDir (dirIno : Nat) : LfsM raw wr (Option Inode) := do
  match ← limnfsReadInode dirIno with
  | none => return none
  | some dir => return if dir.type = typeDir then some dir else none

def limnfsDirLookup (dirIno : Nat) (name : CStr) : LfsM raw wr (Option Nat) := do
  match ← readDir dirIno with
  | none => return none
  | some dir =>
    match ← dirFind dir (isNamed name) with
    | some (_, entries, i) => return some (load entries i).inode
    | none => return none

def limnfsDirAdd (dirIno : Nat) (name : CStr) (childIno type : Nat) : LfsM raw true Bool := do
  match ← readDir dirIno with
  | none => return false
  | some dir =>
    if name.length = 0 ∨ 57 < name.length then return false
    match ← dirFind dir isDeleted with
    | some (blk, entries, i) =>
      let _ ← bcacheWrite blk (fill entries i childIno name type)
      return true
    | none =>
      let newIdx := dir.totalEntries
      let lb := newIdx / dentriesPerBlock
      let diskBlock ← getFileBlock dir lb
      let (diskBlock, dir) ← if diskBlock = 0 then allocFileBlock dir lb else pure (diskBlock, dir)
      if diskBlock = 0 then return false
      match ← bcacheRead diskBlock with
      | none => return false
      | some entries =>
        if !(← bcacheWrite diskBlock (fill entries (newIdx % dentriesPerBlock) childIno name type)) then
          return false
        let _ ← limnfsWriteInode dirIno { dir with size := u32 ((newIdx + 1) * dentrySize) }
        return true

def limnfsDirRemove (dirIno : Nat) (name : CStr) : LfsM raw true Bool := do
  match ← readDir dirIno with
  | none => return false
  | some dir =>
    match ← dirFind dir (isNamed name) with
    | some (blk, entries, i) =>
      let _ ← bcacheWrite blk (erase entries i)
      return true
    | none => return false

def limnfsDirIter (dirIno index : Nat) : LfsM raw wr (Option Dentry) := do
  match ← readDir dirIno with
  | none => return none
  | some dir =>
    dirScan dir dir.totalEntries
      (fun seen _ entries n =>
        let live := (List.range n).filter fun i => !isDeleted entries i
        match live[index - seen]? with
        | some i => .inl (load entries i)
        | none => .inr (seen + live.length))
      (dir.totalEntries + 1) 0 0

def limnfsCreate (type mode parentIno : Nat) (name : CStr) : LfsM raw true (Option Nat) := do
  match ← limnfsAllocInode with
  | none => return none
  | some ino =>
    if !(← limnfsWriteInode ino { type, mode, parent := parentIno }) then
      limnfsFreeInode ino
      return none
    if !(← limnfsDirAdd parentIno name ino type) then
      limnfsFreeInode ino
      return none
    return some ino

def limnfsCreateFile (parentIno : Nat) (name : CStr) : LfsM raw true (Option Nat) :=
  limnfsCreate typeFile 6 parentIno name

def limnfsCreateDir (parentIno : Nat) (name : CStr) : LfsM raw true (Option Nat) :=
  limnfsCreate typeDir 7 parentIno name

def limnfsDelete (parentIno : Nat) (name : CStr) : LfsM raw true Bool := do
  match ← limnfsDirLookup parentIno name with
  | none => return false
  | some childIno =>
    match ← limnfsReadInode childIno with
    | none => return false
    | some child =>
      let nonempty ← if child.type = typeDir then Option.isSome <$> limnfsDirIter childIno 0 else pure false
      if nonempty then return false
      if !(← limnfsDirRemove parentIno name) then return false
      limnfsFreeInode childIno
      return true

/-! ## Truncating -/

/-- Free the entries from `start` on of the pointers in the buffer: the buffer, and whether an entry is
    left. -/
def truncatePtrs (start : Nat) (ptrs : Block) : LfsM raw wr (Block × Bool) :=
  (List.range ptrsPerBlock).foldlM (fun (ptrs, anyUsed) i => do
    if start ≤ i ∧ ptrAt ptrs i ≠ 0 then
      limnfsFreeBlock (ptrAt ptrs i)
      return (setPtrAt ptrs i 0, anyUsed)
    else return (ptrs, anyUsed || ptrAt ptrs i != 0)) (ptrs, false)

/-- Free the data blocks from index `start` on below a block `b` of pointers to pointer blocks. The buffer `ptrs` comes
    back with whether an entry is left. -/
def truncateMids (start b : Nat) (ptrs : Block) : LfsM raw true (Block × Bool) :=
  (List.range ptrsPerBlock).foldlM (fun (ptrs, anyUsed) i => do
    let midBlk := ptrAt ptrs i
    if midBlk = 0 then return (ptrs, anyUsed)
    let midStart := start - i * ptrsPerBlock
    if ptrsPerBlock ≤ midStart then return (ptrs, true)
    match ← bcacheRead midBlk with
    | none => return (ptrs, anyUsed)
    | some midPtrs =>
      let (midPtrs, midUsed) ← truncatePtrs midStart midPtrs
      if midUsed then
        let _ ← bcacheWrite midBlk midPtrs
        let again ← bcacheRead b
        return (again.getD midPtrs, true)
      else
        limnfsFreeBlock midBlk
        let again ← bcacheRead b
        let ptrs := setPtrAt (again.getD midPtrs) i 0
        let _ ← bcacheWrite b ptrs
        return (ptrs, anyUsed)) (ptrs, false)

def truncateDbls (start b : Nat) (ptrs : Block) : LfsM raw true (Block × Bool) :=
  (List.range ptrsPerBlock).foldlM (fun (ptrs, anyUsed) i => do
    let dblBlk := ptrAt ptrs i
    if dblBlk = 0 then return (ptrs, anyUsed)
    match ← bcacheRead dblBlk with
    | none => return (ptrs, anyUsed)
    | some dblPtrs =>
      let (scratch, dblUsed) ← truncateMids (start - i * (ptrsPerBlock * ptrsPerBlock)) dblBlk dblPtrs
      if dblUsed then
        let again ← bcacheRead b
        return (again.getD scratch, true)
      else
        limnfsFreeBlock dblBlk
        let again ← bcacheRead b
        let ptrs := setPtrAt (again.getD scratch) i 0
        let _ ← bcacheWrite b ptrs
        return (ptrs, anyUsed)) (ptrs, false)

def truncateIndirect (start root : Nat) : LfsM raw true Nat := do
  if root = 0 then return 0
  match ← bcacheRead root with
  | none => return root
  | some ptrs =>
    let (ptrs, anyUsed) ← truncatePtrs start ptrs
    if anyUsed then
      let _ ← bcacheWrite root ptrs
      return root
    else
      limnfsFreeBlock root
      return 0

def truncateDouble (start root : Nat) : LfsM raw true Nat := do
  if root = 0 then return 0
  match ← bcacheRead root with
  | none => return root
  | some ptrs =>
    let (_, anyUsed) ← truncateMids start root ptrs
    if anyUsed then return root
    else
      limnfsFreeBlock root
      return 0

def truncateTriple (start root : Nat) : LfsM raw true Nat := do
  if root = 0 then return 0
  match ← bcacheRead root with
  | none => return root
  | some ptrs =>
    let (_, anyUsed) ← truncateDbls start root ptrs
    if anyUsed then return root
    else
      limnfsFreeBlock root
      return 0

def truncateDirect (newBlocks : Nat) (direct : Fin 10 → Nat) : LfsM raw wr (Fin 10 → Nat) :=
  (List.finRange 10).foldlM (fun direct (i : Fin 10) => do
    if newBlocks ≤ i ∧ direct i ≠ 0 then
      limnfsFreeBlock (direct i)
      return Function.update direct i 0
    else return direct) direct

def limnfsTruncate (ino newSize : Nat) : LfsM raw true Bool := do
  match ← limnfsReadInode ino with
  | none => return false
  | some inode =>
    if inode.size ≤ newSize then limnfsWriteInode ino { inode with size := newSize }
    else
      let newBlocks := if newSize = 0 then 0 else u32 (newSize + blockSize - 1) / blockSize
      let direct ← truncateDirect newBlocks inode.direct
      let indirect ← truncateIndirect (newBlocks - maxDirect) inode.indirect
      let doubleIndirect ← truncateDouble (newBlocks - doubleBase) inode.doubleIndirect
      let tripleIndirect ← truncateTriple (newBlocks - tripleBase) inode.tripleIndirect
      let metaBlocks := (if indirect ≠ 0 then 1 else 0) + (if doubleIndirect ≠ 0 then 1 else 0) +
        (if tripleIndirect ≠ 0 then 1 else 0)
      limnfsWriteInode ino { inode with
        direct, indirect, doubleIndirect, tripleIndirect
        size := newSize
        blockCount := newBlocks + metaBlocks }

end Operations

end Limnx
