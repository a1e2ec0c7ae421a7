import Limnx.Process
import Limnx.LimnFs

/-! # The virtual file system (`fs/vfs.c`)

A table of 1024 nodes; a slot with an empty name is free. Paths are resolved component by component, a link by resolving
its target and the rest of the path from the root, in buffers of `MAX_PATH` bytes. A path or name is the C string up to
its terminator. `event` is history: the registration that the slot's contents come from. -/

namespace Limnx
open ByteCodec

def maxVfsNodes : Nat := 1024
def maxSymlinkDepth : Nat := 8
def maxPath : Nat := 256
def vfsMaxFileSize : Nat := 1024 * 1024 * 1024

def slash : UInt8 := 47
def dot : UInt8 := 46

inductive NodeType
  | file
  | directory
  | symlink
  | fifo
  | device
deriving DecidableEq

/-- `vfs_node_t`. For a device `diskInode` is the minor number; for an opened FIFO `pipe` is what its `data`
    points to. -/
structure VfsNode where
  name : CStr := []
  type : NodeType := .file
  writable : Bool := false
  mountpoint : Bool := false
  mode : U16 := 0
  uid : U16 := 0
  gid : U16 := 0
  parent : Option Nat := none
  size : Nat := 0
  capacity : Nat := 0
  data : Option Buf := none
  pipe : Option Nat := none
  diskInode : Option Nat := none
  event : Nat := 0

def VfsNode.used (n : VfsNode) : Bool := !n.name.isEmpty

/-- `nodes`, `node_count` and `procfs_dir_idx`. -/
structure Vfs where
  nodes : Nat → VfsNode := fun _ => {}
  nodeCount : Nat := 0
  procfsDir : Option Nat := none
  events : Nat := 0

abbrev VfsResult : Type := Except Int Nat

namespace Vfs
variable (v : Vfs)

def modify (i : Nat) (f : VfsNode → VfsNode) : Vfs := { v with nodes := Function.update v.nodes i (f (v.nodes i)) }

def init : Vfs where
  nodes := Function.update (fun _ => {}) 0 { name := [slash], type := .directory, mode := 0o755 }
  nodeCount := 1
  events := 1

/-! ## Path resolution -/

/-- `vfs_path_split`: the part before the last slash and the part after it. -/
def pathSplit (path : CStr) : CStr × CStr :=
  match (path.reverse.findIdx? (· == slash)).map (path.length - 1 - ·) with
  | none => ([slash], path.take (maxPath - 1))
  | some 0 => ([slash], (path.drop 1).take (maxPath - 1))
  | some last => (path.take (min last (maxPath - 1)), (path.drop (last + 1)).take (maxPath - 1))

def findChild (parent : Nat) (name : CStr) : Option Nat :=
  (List.range v.nodeCount).find? fun i =>
    (v.nodes i).used && (v.nodes i).parent == some parent && (v.nodes i).name == name

/-- The next component, at most 255 bytes, and the rest of the path. -/
def component (p : CStr) : CStr × CStr :=
  let c := (p.take (maxPath - 1)).takeWhile (· != slash)
  (c, p.drop c.length)

def skipSlash (p : CStr) : CStr := if p.head? = some slash then p.tail else p

def withSlash (s : CStr) : CStr := if s = [] ∨ s.getLast? = some slash then s else s ++ [slash]

/-- The nodes from `n` up to the root, the root left out, at most `depth`. -/
def ancestors (v : Vfs) : Nat → Option Nat → List Nat
  | 0, _ => []
  | _, none => []
  | depth + 1, some n => if n = 0 then [] else n :: ancestors v depth (v.nodes n).parent

def parentPath (n : Option Nat) : CStr :=
  let p := (v.ancestors 64 n).reverse.foldl
    (fun p i => if p.length < maxPath - 2 then (p ++ slash :: (v.nodes i).name).take (maxPath - 1) else p) []
  if p = [] then [slash] else p

def linkTarget (n : VfsNode) (data : Buf) : CStr :=
  ((List.range (min n.size (maxPath - 1))).map data).takeWhile (· != 0)

/-- The path that is resolved instead when a link is met with `rest` to go. -/
def expandLink (n : VfsNode) (target rest : CStr) : CStr :=
  if target.head? = some slash then
    if rest = [] then target else (withSlash (target.take (maxPath - 2)) ++ rest).take (maxPath - 1)
  else
    let abs := (withSlash ((v.parentPath n.parent).take (maxPath - 2)) ++ target).take (maxPath - 1)
    if rest = [] then abs
    else ((if abs.length < maxPath - 1 then withSlash abs else abs) ++ rest).take (maxPath - 1)

/-- The loop over the components of a path. `follow` resolves the path that a link stands for. Every round takes a
    byte. -/
def resolveLoop (v : Vfs) (follow : CStr → VfsResult) : Nat → Nat → CStr → VfsResult
  | 0, current, _ => .ok current
  | fuel + 1, current, p =>
    if p = [] then .ok current
    else
      let c := (component p).1
      let rest := (component p).2
      if c = [] then resolveLoop v follow fuel current (skipSlash rest)
      else if c = [dot] then resolveLoop v follow fuel current (skipSlash rest)
      else if c = [dot, dot] then
        resolveLoop v follow fuel ((v.nodes current).parent.getD current) (skipSlash rest)
      else
        match v.findChild current c with
        | none => .error (-ENOENT)
        | some child =>
          let n := v.nodes child
          match n.type, n.data with
          | .symlink, some data => follow (v.expandLink n (linkTarget n data) rest)
          | _, _ => resolveLoop v follow fuel child (skipSlash rest)

/-- `vfs_resolve_path_depth`, by the number of links that may still be followed; at `0` one too many was. -/
def resolvePathDepth (v : Vfs) : Nat → CStr → VfsResult
  | 0, path => if path.head? ≠ some slash then .error (-EINVAL) else .error (-ELOOP)
  | depth + 1, path =>
    if path.head? ≠ some slash then .error (-EINVAL)
    else v.resolveLoop (v.resolvePathDepth depth) path.length 0 path.tail

def resolvePath (path : CStr) : VfsResult := v.resolvePathDepth (maxSymlinkDepth + 1) path

/-- The slot that the next node gets: the first free one below `node_count`, or the next one. -/
def freeSlot : Option Nat :=
  match (List.range' 1 (v.nodeCount - 1)).find? fun i => !(v.nodes i).used with
  | some i => some i
  | none => if v.nodeCount < maxVfsNodes then some v.nodeCount else none

def registerNode (parent : Nat) (name : CStr) (type : NodeType) (size : Nat) (data : Option Buf) : Option (Nat × Vfs) :=
  v.freeSlot.map fun i =>
    (i, { v with
      nodes := Function.update v.nodes i
        { name := name.take (maxPath - 1), type, size, data, parent := some parent
          mode := if type = .directory then 0o755 else 0o644
          event := v.events }
      nodeCount := max v.nodeCount (i + 1)
      events := v.events + 1 })

def getNode (i : Nat) : Option VfsNode := if i < v.nodeCount ∧ (v.nodes i).used then some (v.nodes i) else none

def cleared (n : VfsNode) : VfsNode :=
  { n with name := [], data := none, pipe := none, size := 0, capacity := 0, writable := false, mountpoint := false,
           parent := none, diskInode := none }

def hasChildren (i : Nat) : Bool :=
  (List.range v.nodeCount).any fun j => (v.nodes j).used && (v.nodes j).parent == some i

end Vfs

abbrev VfsM (raw wr : Bool) : Type → Type := StateT Vfs (LfsM raw wr)

/-- A reading call, and a writing one. -/
abbrev VfsR : Type → Type := VfsM true false

abbrev VfsW : Type → Type := VfsM false true

/-- What `kmalloc` gives: nothing, or memory with some contents. -/
abbrev Memory : Type := Option Buf

section Operations
variable {raw wr : Bool}

def onLfs {α : Type} (p : LfsM raw wr α) : VfsM raw wr α := StateT.lift p

variable (v : Vfs)

def Vfs.newEntry (path : CStr) : Except Int (Nat × CStr) :=
  match v.resolvePath path with
  | .ok _ => .error (-EEXIST)
  | .error _ =>
    let (dir, base) := Vfs.pathSplit path
    if base = [] then .error (-EINVAL)
    else
      match v.resolvePath dir with
      | .error _ => .error (-ENOENT)
      | .ok parent => if (v.nodes parent).type ≠ .directory then .error (-ENOTDIR) else .ok (parent, base)

/-- Register a node and change it with `f`; the table may be full. -/
def registerWith (parent : Nat) (name : CStr) (type : NodeType) (size : Nat) (data : Memory)
    (f : VfsNode → VfsNode) : VfsM raw wr VfsResult := do
  let v ← get
  match v.registerNode parent name type size data with
  | none => return .error (-ENOSPC)
  | some (i, v) =>
    set (v.modify i f)
    return .ok i

/-- `buf` is the outcome of the allocation before LimnFS is mounted. -/
def vfsCreate (path : CStr) (buf : Memory) : VfsM raw true VfsResult := do
  let v ← get
  match v.newEntry path with
  | .error e => return .error e
  | .ok (parent, base) =>
    let lfs ← onLfs get
    if lfs.mounted then
      match ← onLfs (limnfsCreateFile ((v.nodes parent).diskInode.getD 0) base) with
      | none => return .error (-ENOSPC)
      | some ino =>
        registerWith parent base .file 0 none fun n => { n with diskInode := some ino, writable := true, mode := 6 }
    else
      match buf with
      | none => return .error (-ENOMEM)
      | some _ => registerWith parent base .file 0 buf fun n => { n with capacity := 4096, writable := true, mode := 6 }

def vfsMkdir (path : CStr) : VfsM raw true VfsResult := do
  let v ← get
  match v.newEntry path with
  | .error e => return .error e
  | .ok (parent, base) =>
    let lfs ← onLfs get
    if lfs.mounted then
      match ← onLfs (limnfsCreateDir ((v.nodes parent).diskInode.getD 0) base) with
      | none => return .error (-ENOSPC)
      | some ino => registerWith parent base .directory 0 none fun n => { n with diskInode := some ino }
    else registerWith parent base .directory 0 none id

def vfsSymlink (path target : CStr) (buf : Memory) : VfsM raw wr VfsResult := do
  let v ← get
  match v.newEntry path with
  | .error e => return .error e
  | .ok (parent, base) =>
    if target.length = 0 ∨ maxPath ≤ target.length then return .error (-EINVAL)
    match buf with
    | none => return .error (-ENOMEM)
    | some mem =>
      registerWith parent base .symlink target.length (some (splice mem 0 (target.length + 1) fun i => target.getD i 0))
        fun n => { n with mode := 0o777 }

def vfsMkfifo (path : CStr) : VfsM raw wr VfsResult := do
  let v ← get
  match v.newEntry path with
  | .error e => return .error e
  | .ok (parent, base) => registerWith parent base .fifo 0 none fun n => { n with mode := 0o666, writable := true }

/-- The capacity after growing to hold `needed` bytes: doubled until it is enough, at most the largest file. -/
def grownCapacity (capacity needed : Nat) : Nat :=
  min vfsMaxFileSize ((List.range 64).foldl (fun c _ => if c < needed then c * 2 else c) (if capacity = 0 then 4096 else capacity))

variable (n : VfsNode)

/-- `krealloc` of a buffer: the old bytes, then the contents of the new memory. -/
def grownData (mem : Buf) : Buf :=
  match n.data with
  | none => mem
  | some old => splice mem 0 n.capacity old

/-- The node with room for `needed` bytes; `none` when memory runs out. -/
def VfsNode.grow (needed : Nat) (buf : Memory) : Option VfsNode :=
  if needed ≤ n.capacity then some n
  else buf.map fun mem => { n with data := some (grownData n mem), capacity := grownCapacity n.capacity needed }

def vfsRead (i offset len : Nat) : VfsM true wr (Except Int (List UInt8)) := do
  let v ← get
  if v.nodeCount ≤ i then return .error (-EBADF)
  let n := v.nodes i
  if !n.used then return .error (-ENOENT)
  if n.type ≠ .file then return .error (-EISDIR)
  if n.size ≤ offset then return .ok []
  match n.diskInode with
  | some ino =>
    match ← onLfs (limnfsReadData ino offset len) with
    | none => return .error (-1)
    | some bytes => return .ok bytes
  | none =>
    let data := n.data.getD fun _ => 0
    return .ok ((List.range (min len (n.size - offset))).map fun k => data (offset + k))

def vfsWrite (i offset : Nat) (src : Buf) (len : Nat) (buf : Memory) : VfsM raw true VfsResult := do
  let v ← get
  if v.nodeCount ≤ i then return .error (-EBADF)
  let n := v.nodes i
  if !n.used then return .error (-ENOENT)
  if !n.writable then return .error (-EACCES)
  let finish := u64 (offset + len)
  if vfsMaxFileSize < finish then return .error (-ENOSPC)
  match n.diskInode with
  | some ino =>
    match ← onLfs (limnfsWriteData ino offset src len) with
    | none => return .error (-1)
    | some written =>
      if 0 < written then modify fun v => v.modify i fun n => { n with size := max n.size (u64 (offset + written)) }
      return .ok written
  | none =>
    match n.grow finish buf with
    | none => return .error (-ENOMEM)
    | some n =>
      set (v.modify i fun _ => { n with
        data := some (splice (n.data.getD fun _ => 0) offset len src)
        size := max n.size finish })
      return .ok len

def vfsTruncateNode (i newSize : Nat) (buf : Memory) : VfsM raw true VfsResult := do
  let v ← get
  if v.nodeCount ≤ i then return .error (-EBADF)
  let n := v.nodes i
  if !n.used then return .error (-ENOENT)
  if n.type ≠ .file then return .error (-EISDIR)
  if !n.writable then return .error (-EACCES)
  if vfsMaxFileSize < newSize then return .error (-ENOSPC)
  match n.diskInode with
  | some ino =>
    if !(← onLfs (limnfsTruncate ino newSize)) then return .error (- EIO)
    modify fun v => v.modify i fun n => { n with size := newSize }
    return .ok 0
  | none =>
    match n.grow newSize buf with
    | none => return .error (-ENOMEM)
    | some n =>
      set (v.modify i fun _ => { n with
        data := n.data.map fun d => splice d n.size (newSize - n.size) fun _ => 0
        size := newSize })
      return .ok 0

def vfsDelete (path : CStr) : VfsM raw true VfsResult := do
  let v ← get
  match v.resolvePath path with
  | .error _ => return .error (-ENOENT)
  | .ok i =>
    if i = 0 then return .error (-EACCES)
    let n := v.nodes i
    if n.type = .directory ∧ v.hasChildren i then return .error (-ENOTEMPTY)
    if n.diskInode.isSome then
      let parentIno := match n.parent with
        | some p => (v.nodes p).diskInode.getD 0
        | none => 0
      let _ ← onLfs (limnfsDelete parentIno n.name)
    modify fun v => v.modify i Vfs.cleared
    return .ok 0

/-- The node moves in the table before LimnFS is told; what LimnFS returns is not looked at. -/
def vfsRename (oldPath newPath : CStr) : VfsM raw true VfsResult := do
  let v ← get
  match v.resolvePath oldPath with
  | .error _ => return .error (-ENOENT)
  | .ok i =>
    if i = 0 then return .error (-ENOENT)
    match v.newEntry newPath with
    | .error e => return .error e
    | .ok (newParent, base) =>
      let n := v.nodes i
      set (v.modify i fun n => { n with parent := some newParent, name := base.take (maxPath - 1) })
      match n.diskInode with
      | none => return .ok 0
      | some ino =>
        let oldParentIno := match n.parent with
          | some p => (v.nodes p).diskInode.getD 0
          | none => 0
        let newParentIno := (v.nodes newParent).diskInode.getD 0
        let _ ← onLfs (limnfsDirRemove oldParentIno n.name)
        let _ ← onLfs (limnfsDirAdd newParentIno base ino (if n.type = .directory then typeDir else typeFile))
        match ← onLfs (limnfsReadInode ino) with
        | none => return .ok 0
        | some inode =>
          let _ ← onLfs (limnfsWriteInode ino { inode with parent := newParentIno })
          return .ok 0

/-- A mode of three bits stands for all classes. `stack` is what the inode on the stack holds when reading it fails; it
    is written back all the same. -/
def vfsChmod (path : CStr) (mode : U16) (stack : Inode) : VfsM raw true VfsResult := do
  let v ← get
  match v.resolvePath path with
  | .error _ => return .error (-ENOENT)
  | .ok i =>
    let mode := if mode ≤ 7 then mode <<< 6 ||| mode <<< 3 ||| mode else mode
    set (v.modify i fun n => { n with mode := mode &&& 0xFFF, writable := mode &&& 0x80 != 0 })
    match (v.nodes i).diskInode with
    | none => return .ok 0
    | some ino =>
      let inode := (← onLfs (limnfsReadInode ino)).getD stack
      let _ ← onLfs (limnfsWriteInode ino { inode with mode := (mode &&& 0xFFF).toNat })
      return .ok 0

def VfsNode.setText (text : CStr) : VfsNode :=
  match n.data with
  | none => n
  | some d => { n with data := some (splice d 0 (text.length + 1) fun k => text.getD k 0), size := text.length }

def Vfs.procfsRefresh (pidStr status cmdline : CStr) : Vfs :=
  match v.procfsDir.bind fun dir => v.findChild dir pidStr with
  | none => v
  | some dir =>
    let v := match v.findChild dir [115, 116, 97, 116, 117, 115] with
      | some i => v.modify i fun n => n.setText status
      | none => v
    if cmdline.length = 0 ∨ 512 ≤ cmdline.length then v
    else
      match v.findChild dir [99, 109, 100, 108, 105, 110, 101] with
      | some i => v.modify i fun n => n.setText cmdline
      | none => v

/-- Only tmpfs can be mounted; the mount point is an empty directory. -/
def Vfs.mount (path fstype : CStr) : VfsResult × Vfs :=
  if fstype ≠ [116, 109, 112, 102, 115] then (.error (-EINVAL), v)
  else
    match v.resolvePath path with
    | .error _ => (.error (-ENOENT), v)
    | .ok i =>
      if (v.nodes i).type ≠ .directory then (.error (-ENOTDIR), v)
      else if v.hasChildren i then (.error (-ENOTEMPTY), v)
      else (.ok 0, v.modify i fun n => { n with mountpoint := true, writable := true })

/-- One round of `vfs_umount` over the table: children of `m` without children are deleted. Their flags and
    inode numbers stay. -/
def Vfs.umountRound (m : Nat) (v : Vfs) : Vfs × Bool :=
  (List.range v.nodeCount).foldl (fun (v, changed) i =>
    if (v.nodes i).used && (v.nodes i).parent == some m && !v.hasChildren i then
      (v.modify i fun n => { n with name := [], data := none, pipe := none, size := 0, capacity := 0, parent := none }, true)
    else (v, changed)) (v, false)

/-- Rounds until nothing changes. A round that changes something deletes a node, so that there are at most
    `node_count` such rounds. -/
def Vfs.umountRounds (m : Nat) : Nat → Vfs → Vfs
  | 0, v => v
  | fuel + 1, v => if (v.umountRound m).2 then umountRounds m fuel (v.umountRound m).1 else (v.umountRound m).1

def Vfs.umount (path : CStr) : VfsResult × Vfs :=
  match v.resolvePath path with
  | .error _ => (.error (-ENOENT), v)
  | .ok i =>
    if !(v.nodes i).mountpoint then (.error (-EINVAL), v)
    else
      (.ok 0, (Vfs.umountRounds i (v.nodeCount + 1) v).modify i fun n => { n with mountpoint := false, writable := false })

def itoaDigits : Nat → Nat → CStr
  | 0, _ => []
  | fuel + 1, val => if val = 0 then [] else itoaDigits fuel (val / 10) ++ [UInt8.ofNat (48 + val % 10)]

def itoaSimple (val : Nat) : CStr := if val = 0 then [48] else itoaDigits 23 val

def procPath : CStr := [47, 112, 114, 111, 99]

def vfsProcfsInit : VfsM raw true Unit := do
  match ← vfsMkdir procPath with
  | .error _ => modify fun v => { v with procfsDir := none }
  | .ok i => modify fun v => { v with procfsDir := some i }

def procfsFile (dir : Nat) (name : CStr) (capacity : Nat) (buf : Memory) : VfsM raw wr Unit := do
  match buf with
  | none => return
  | some m =>
    let _ ← registerWith dir name .file 0 (some (Function.update m 0 0)) fun n => { n with capacity }

/-- The link to the directory of a process. A first one is made at the path of the status file, so that it fails
    when that file is there. -/
def procfsLinks (path : CStr) (cwd : Option CStr) (link link' : Memory) : VfsM raw wr Unit := do
  match cwd with
  | none => return
  | some cwd =>
    if cwd = [] then return
    let _ ← vfsSymlink (path ++ [47, 115, 116, 97, 116, 117, 115]) cwd link
    let _ ← vfsSymlink (path ++ [47, 99, 119, 100]) cwd link'

/-- `vfs_procfs_register_pid`. `sbuf` and `cbuf` are the buffers of the two files, `cwd` the directory of the process if
    any, `link` and `link'` the buffers of the links. -/
def vfsProcfsRegisterPid (pid : Nat) (sbuf cbuf : Memory) (cwd : Option CStr) (link link' : Memory) :
    VfsM raw true Unit := do
  let v ← get
  if v.procfsDir.isNone then return
  let path := procPath ++ slash :: itoaSimple pid
  match ← vfsMkdir path with
  | .error _ => return
  | .ok dir =>
    procfsFile dir [115, 116, 97, 116, 117, 115] 1024 sbuf
    procfsFile dir [99, 109, 100, 108, 105, 110, 101] 512 cbuf
    procfsLinks path cwd link link'

/-- The children of the directory are deleted, whether or not they have children, then the directory is. -/
def Vfs.procfsDeleteSubtree (dir : Nat) : Vfs :=
  ((List.range v.nodeCount).foldl (fun v i =>
    if (v.nodes i).used && (v.nodes i).parent == some dir then
      v.modify i fun n => { n with name := [], data := none, pipe := none, size := 0, capacity := 0, parent := none }
    else v) v).modify dir fun n => { n with name := [], data := none, pipe := none, size := 0, parent := none }

def Vfs.procfsUnregisterPid (pid : Nat) : Vfs :=
  match v.procfsDir.bind fun dir => v.findChild dir (itoaSimple pid) with
  | none => v
  | some dir => v.procfsDeleteSubtree dir

end Operations

end Limnx
