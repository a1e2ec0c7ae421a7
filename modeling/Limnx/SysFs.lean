import Limnx.CapToken
import Limnx.Vfs

/-! # File system calls (`syscall/sys_fs.c`, `syscall/sys_misc.c`)

Descriptors, the permission checks and the calls. A descriptor holds the number of a slot for the pointer to a node;
what pipes, terminals and sockets give or take is not modelled. `event` of a descriptor is history: the registration of
the node it was opened on. -/

namespace Limnx

def maxFds : Nat := 64
def maxPipes : Nat := 8

def oRdonly : U64 := 0
def oWronly : U64 := 1
def oRdwr : U64 := 2
def oAccmode : U64 := 3
def oCreat : U64 := 0x40
def oTrunc : U64 := 0x200
def oAppend : U64 := 0x400
def oNonblock : U64 := 0x800

def devTty : Nat := 3

/-- What a descriptor that is no file refers to. -/
inductive FdObject
  | pty
  | unixSock
  | eventfd
  | epoll
  | uring
  | tcp
deriving DecidableEq

/-- `fd_entry_t`; `pipe` is the pipe and whether this is its write end. -/
structure FdEntry where
  node : Option Nat := none
  offset : Nat := 0
  pipe : Option (Nat × Bool) := none
  other : Option FdObject := none
  openFlags : U64 := 0
  event : Nat := 0
deriving DecidableEq

def FdEntry.isFree (e : FdEntry) : Bool := e.node.isNone && e.pipe.isNone && e.other.isNone

/-- The fields of a pipe that decide when its slot is free. -/
structure Pipe where
  used : Bool := false
  readRefs : Nat := 0
  writeRefs : Nat := 0
  closedRead : Bool := false
  closedWrite : Bool := false
deriving DecidableEq

structure Task where
  proc : Process := {}
  cwd : CStr := [slash]
  fds : Nat → FdEntry := fun _ => {}

structure FsKernel where
  vfs : Vfs := Vfs.init
  lfs : Lfs := {}
  cache : Bcache
  tokens : List CapToken := []
  tasks : Nat → Task := fun _ => {}
  pipes : Nat → Pipe := fun _ => {}

namespace FsKernel

def call {raw wr : Bool} {α : Type} (k : FsKernel) (p : VfsM raw wr α) : α × FsKernel :=
  let r := BlockProg.run bcacheHandler ((p.run k.vfs).run k.lfs) k.cache
  (r.1.1.1, { k with vfs := r.1.1.2, lfs := r.1.2, cache := r.2 })

def setFd (k : FsKernel) (t fd : Nat) (e : FdEntry) : FsKernel :=
  { k with tasks := Function.update k.tasks t { k.tasks t with fds := Function.update (k.tasks t).fds fd e } }

end FsKernel

/-- The path as it is used: as given when it is absolute, else after the working directory. -/
def resolveUserPath (cwd path : CStr) : CStr :=
  if path.head? = some slash then path.take (maxPath - 1)
  else
    let out := cwd.take (maxPath - 1)
    let out := if out.length < maxPath - 1 then Vfs.withSlash out else out
    (out ++ path).take (maxPath - 1)

def processInGroup (p : Process) (gid : U16) : Bool :=
  p.egid == gid || (p.groups.take (min p.ngroups.toNat maxSupplGroups)).contains gid

def checkFilePerm (p : Process) (n : VfsNode) (access : U64) : Bool :=
  p.euid == 0 ||
    let bits := if p.euid = n.uid then (n.mode >>> 6) &&& 7
      else if processInGroup p n.gid then (n.mode >>> 3) &&& 7
      else n.mode &&& 7
    !((access = oRdonly ∨ access = oRdwr) ∧ bits &&& 4 = 0) && !((access = oWronly ∨ access = oRdwr) ∧ bits &&& 2 = 0)

def countOpenFds (t : Task) : Nat := (List.range maxFds).countP fun fd => !(t.fds fd).isFree

/-- The check of a capability with the fallback to tokens. -/
def fsAllowed (tokens : List CapToken) (p : Process) (cap : U32) (path : CStr) : Bool :=
  p.capabilities &&& cap != 0 || capTokenCheck tokens p.pid cap (some path)

namespace FsKernel
variable (k : FsKernel) (t : Nat)

/-- A path argument, copied from the user and resolved. -/
def userPath (raw : CStr) : CStr := resolveUserPath (k.tasks t).cwd (raw.take (maxPath - 1))

def parentDenies (path : CStr) : Bool :=
  match k.vfs.resolvePath (Vfs.pathSplit path).1 with
  | .error _ => false
  | .ok parent =>
    match k.vfs.getNode parent with
    | none => false
    | some n => !checkFilePerm (k.tasks t).proc n oWronly

def own (i : Nat) (mode : U16) : FsKernel :=
  let p := (k.tasks t).proc
  match k.vfs.getNode i with
  | none => k
  | some _ =>
    { k with vfs := k.vfs.modify i fun n => { n with uid := p.euid, gid := p.egid, mode := mode &&& ~~~p.umask } }

def fdLimitReached : Bool :=
  (k.tasks t).proc.rlimitNfds ≠ 0 ∧ (k.tasks t).proc.rlimitNfds.toNat ≤ countOpenFds (k.tasks t)

def freeFd : Option Nat := (List.range maxFds).find? fun fd => ((k.tasks t).fds fd).isFree

def install (i : Nat) (openFlags : U64) (pipe : Option (Nat × Bool)) : Int × FsKernel :=
  match k.freeFd t with
  | none => (-1, k)
  | some fd =>
    (fd, k.setFd t fd { node := if (k.vfs.getNode i).isSome then some i else none, offset := 0, pipe, other := none,
                        openFlags, event := (k.vfs.nodes i).event })

/-- What the files in `/proc/<pid>` are refreshed with. -/
structure ProcText where
  status : CStr
  cmdline : CStr

/-- Opening a path below `/proc/` refreshes the directory of the process it names. `text` is the text of
    each process that exists. -/
def refreshOnOpen (path : CStr) (text : Nat → Option ProcText) : FsKernel :=
  if [slash, 112, 114, 111, 99, slash].isPrefixOf path then
    let digits := (path.drop 6).takeWhile fun c => 48 ≤ c && c ≤ 57
    let pid := digits.foldl (fun n c => u64 (n * 10 + (c.toNat - 48))) 0
    if pid = 0 then k
    else
      match text pid with
      | none => k
      | some x => { k with vfs := k.vfs.procfsRefresh (itoaSimple pid) x.status x.cmdline }
  else k

def openNode (path : CStr) (flags : U64) (mem : Memory) : VfsResult × FsKernel :=
  match k.vfs.resolvePath path with
  | .ok i => (.ok i, k)
  | .error _ =>
    if flags &&& oCreat = 0 then (.error (-1), k)
    else if k.parentDenies t path then (.error (-EACCES), k)
    else
      let r := k.call (vfsCreate path mem : VfsW _)
      match r.1 with
      | .error _ => (.error (-1), r.2)
      | .ok i => (.ok i, r.2.own t i 0o666)

def openAllowed (path : CStr) (acc : U64) : Bool :=
  !((acc = oRdonly ∨ acc = oRdwr) ∧ !fsAllowed k.tokens (k.tasks t).proc capFsRead path) &&
  !((acc = oWronly ∨ acc = oRdwr) ∧ !fsAllowed k.tokens (k.tasks t).proc capFsWrite path)

def openDenied (path : CStr) (acc : U64) (i : Nat) : Option Int :=
  let task := k.tasks t
  let refuses := match k.vfs.getNode i with
    | none => false
    | some n => (acc = oWronly ∨ acc = oRdwr) ∧ !n.writable || !checkFilePerm task.proc n acc
  if !k.openAllowed t path acc then some (-EACCES)
  else if refuses then some (-EACCES)
  else if k.fdLimitReached t then some (-EMFILE)
  else none

/-- Open FIFO `i`: the first opener allocates its pipe. -/
def openFifo (i : Nat) (acc : U64) : Int × FsKernel :=
  let pipe := match (k.vfs.nodes i).pipe with
    | some p => some p
    | none => (List.range maxPipes).find? fun p => !(k.pipes p).used
  match pipe with
  | none => (-ENOMEM, k)
  | some p =>
    let k := if (k.vfs.nodes i).pipe.isSome then k
      else { k with
        pipes := Function.update k.pipes p ({ used := true } : Pipe)
        vfs := k.vfs.modify i fun n => { n with pipe := some p } }
    let r := k.install t i acc (some (p, acc = oWronly ∨ acc = oRdwr))
    if r.1 < 0 then r
    else
      let pp := r.2.pipes p
      (r.1, { r.2 with
        pipes := Function.update r.2.pipes p
          ({ pp with
            readRefs := pp.readRefs + if acc = oRdonly ∨ acc = oRdwr then 1 else 0
            writeRefs := pp.writeRefs + if acc = oWronly ∨ acc = oRdwr then 1 else 0 } : Pipe) })

/-- `raw` is the path argument, `none` for a pointer that is refused; `mem` is what allocations give. -/
def sysOpen (raw : Option CStr) (flags : U64) (mem : Memory) (text : Nat → Option ProcText) : Int × FsKernel :=
  match raw with
  | none => (-1, k)
  | some raw =>
    let path := k.userPath t raw
    let r := (k.refreshOnOpen path text).openNode t path flags mem
    let k := r.2
    let acc := flags &&& oAccmode
    match r.1 with
    | .error e => (e, k)
    | .ok i =>
      match k.openDenied t path acc i with
      | some e => (e, k)
      | none =>
        let k := if flags &&& oTrunc ≠ 0 then (k.call (vfsTruncateNode i 0 mem : VfsW _)).2 else k
        if (k.vfs.nodes i).type = .fifo ∧ (k.vfs.getNode i).isSome then k.openFifo t i acc
        else k.install t i (flags &&& (oAccmode ||| oAppend ||| oNonblock)) none

def sysCreate (raw : Option CStr) (mem : Memory) : Int × FsKernel :=
  match raw with
  | none => (-1, k)
  | some raw =>
    let task := k.tasks t
    let path := k.userPath t raw
    if !fsAllowed k.tokens task.proc capFsWrite path then (-EACCES, k)
    else if k.parentDenies t path then (-EACCES, k)
    else if k.fdLimitReached t then (-EMFILE, k)
    else
      let r := k.call (vfsCreate path mem : VfsW _)
      match r.1 with
      | .error _ => (-1, r.2)
      | .ok i => (r.2.own t i 0o666).install t i oRdwr none

/-! ## Other calls on paths -/

def stickyDenies (path : CStr) : Bool :=
  let p := (k.tasks t).proc
  match k.vfs.resolvePath (Vfs.pathSplit path).1, k.vfs.resolvePath path with
  | .ok dir, .ok i =>
    match k.vfs.getNode dir, k.vfs.getNode i with
    | some d, some n => d.mode &&& 0x200 ≠ 0 ∧ p.euid ≠ 0 ∧ p.euid ≠ n.uid ∧ p.euid ≠ d.uid
    | _, _ => false
  | _, _ => false

def code : VfsResult → Int
  | .ok n => n
  | .error e => e

def sysUnlink (raw : Option CStr) : Int × FsKernel :=
  match raw with
  | none => (-1, k)
  | some raw =>
    let path := k.userPath t raw
    if !fsAllowed k.tokens (k.tasks t).proc capFsWrite path then (-EACCES, k)
    else if k.parentDenies t path || k.stickyDenies t path then (-EACCES, k)
    else
      let r := k.call (vfsDelete path : VfsW _)
      (code r.1, r.2)

def sysMkdir (raw : Option CStr) : Int × FsKernel :=
  match raw with
  | none => (-1, k)
  | some raw =>
    let path := k.userPath t raw
    if !fsAllowed k.tokens (k.tasks t).proc capFsWrite path then (-EACCES, k)
    else if k.parentDenies t path then (-EACCES, k)
    else
      let r := k.call (vfsMkdir path : VfsW _)
      match r.1 with
      | .error _ => (-1, r.2)
      | .ok i => (0, r.2.own t i 0o777)

/-- The tokens are asked about the path as given, before it is resolved. -/
def sysSymlink (target raw : Option CStr) (mem : Memory) : Int × FsKernel :=
  match target, raw with
  | some target, some raw =>
    if !fsAllowed k.tokens (k.tasks t).proc capFsWrite (raw.take (maxPath - 1)) then (-EACCES, k)
    else
      let r := k.call (vfsSymlink (k.userPath t raw) (target.take (maxPath - 1)) mem : VfsW _)
      match r.1 with
      | .error e => (e, r.2)
      | .ok _ => (0, r.2)
  | _, _ => (-EFAULT, k)

def sysTruncate (raw : Option CStr) (newSize : Nat) (mem : Memory) : Int × FsKernel :=
  match raw with
  | none => (-1, k)
  | some raw =>
    let path := k.userPath t raw
    if !fsAllowed k.tokens (k.tasks t).proc capFsWrite path then (-EACCES, k)
    else
      match k.vfs.resolvePath path with
      | .error _ => (-1, k)
      | .ok i =>
        let r := k.call (vfsTruncateNode i newSize mem : VfsW _)
        (code r.1, r.2)

def chmodDenied (path : CStr) : Option Int :=
  let p := (k.tasks t).proc
  if p.euid = 0 then none
  else
    match k.vfs.resolvePath path with
    | .error _ => some (-1)
    | .ok i =>
      match k.vfs.getNode i with
      | none => none
      | some n => if n.uid = p.euid then none else some (-EPERM)

def sysChmod (raw : Option CStr) (mode : U16) (stack : Inode) : Int × FsKernel :=
  match raw with
  | none => (-1, k)
  | some raw =>
    let path := k.userPath t raw
    match k.chmodDenied t path with
    | some e => (e, k)
    | none =>
      let r := k.call (vfsChmod path mode stack : VfsW _)
      (code r.1, r.2)

def sysMount (raw fstype : Option CStr) : Int × FsKernel :=
  match raw, fstype with
  | some raw, some fstype =>
    if (k.tasks t).proc.euid ≠ 0 then (-EPERM, k)
    else
      let r := k.vfs.mount (k.userPath t raw) (fstype.take 31)
      (code r.1, { k with vfs := r.2 })
  | _, _ => (-EFAULT, k)

def sysUmount (raw : Option CStr) : Int × FsKernel :=
  match raw with
  | none => (-EFAULT, k)
  | some raw =>
    if (k.tasks t).proc.euid ≠ 0 then (-EPERM, k)
    else
      let r := k.vfs.umount (k.userPath t raw)
      (code r.1, { k with vfs := r.2 })

/-! ## Calls on descriptors -/

/-- What a read or write on a descriptor comes to: an error, an answer from outside the VFS, or the node `i` under the
    descriptor `fd`. -/
inductive FdTarget
  | error (e : Int)
  | elsewhere
  | node (fd i : Nat)
deriving DecidableEq

def fdDevice (fd : Nat) : Option VfsNode :=
  ((k.tasks t).fds fd).node.bind fun i => if (k.vfs.nodes i).type = .device then some (k.vfs.nodes i) else none

/-- The rest of `sys_read` and `sys_fwrite` after devices. `refused` is the access mode that does not allow the call. -/
def fileTarget (fd : Nat) (refused : U64) : FdTarget :=
  let e := (k.tasks t).fds fd
  if e.pipe.isSome || e.other.isSome then .elsewhere
  else
    match e.node with
    | none => .error (-1)
    | some i => if e.openFlags &&& oAccmode = refused ∨ k.vfs.nodeCount ≤ i then .error (-1) else .node fd i

/-- `/dev/tty` stands for another descriptor; a terminal behind that one is asked without end. -/
def fdTarget (fd tty : Nat) (refused : U64) : FdTarget :=
  match k.fdDevice t fd with
  | none => k.fileTarget t fd refused
  | some n =>
    if n.diskInode ≠ some devTty ∨ (k.fdDevice t tty).isSome then .elsewhere
    else k.fileTarget t tty refused

def readTarget (fd : Nat) : FdTarget := if maxFds ≤ fd then .error (-1) else k.fdTarget t fd 0 oWronly

def writeTarget (fd : Nat) : FdTarget := if maxFds ≤ fd then .error (-1) else k.fdTarget t fd 1 oRdonly

/-- The answer to a read; `elsewhere` when it does not come from the VFS. -/
inductive FdReply
  | error (e : Int)
  | elsewhere
  | bytes (bs : List UInt8)
  | count (n : Nat)

def advance (fd n : Nat) : FsKernel :=
  let e := (k.tasks t).fds fd
  k.setFd t fd { e with offset := e.offset + n }

/-- `bufOk` says whether the user's buffer is accepted. -/
def sysRead (fd len : Nat) (bufOk : Bool) : FdReply × FsKernel :=
  if maxFds ≤ fd then (.error (-1), k)
  else if len = 0 then (.bytes [], k)
  else if !bufOk then (.error (-1), k)
  else
    match k.readTarget t fd with
    | .error e => (.error e, k)
    | .elsewhere => (.elsewhere, k)
    | .node fd i =>
      let r := k.call (vfsRead i ((k.tasks t).fds fd).offset len : VfsR _)
      match r.1 with
      | .error e => (.error e, r.2)
      | .ok bs => (.bytes bs, r.2.advance t fd bs.length)

def sysFwrite (fd : Nat) (src : Buf) (len : Nat) (bufOk : Bool) (mem : Memory) : FdReply × FsKernel :=
  if maxFds ≤ fd then (.error (-1), k)
  else if len = 0 then (.count 0, k)
  else if !bufOk then (.error (-1), k)
  else
    match k.writeTarget t fd with
    | .error e => (.error e, k)
    | .elsewhere => (.elsewhere, k)
    | .node fd i =>
      let e := (k.tasks t).fds fd
      let k := if e.openFlags &&& oAppend ≠ 0 then k.setFd t fd { e with offset := (k.vfs.nodes i).size } else k
      let r := k.call (vfsWrite i ((k.tasks t).fds fd).offset src len mem : VfsW _)
      match r.1 with
      | .error e => (.error e, r.2)
      | .ok n => (.count n, r.2.advance t fd n)

/-- The node of a descriptor that `sys_ftruncate` and `sys_fstat` use. -/
def descriptorNode (fd : Nat) : Option Nat := if maxFds ≤ fd then none else ((k.tasks t).fds fd).node

def sysFtruncate (fd length : Nat) (mem : Memory) : Int × FsKernel :=
  match k.descriptorNode t fd with
  | none => (-EBADF, k)
  | some i =>
    if k.vfs.nodeCount ≤ i then (-EBADF, k)
    else
      let r := k.call (vfsTruncateNode i length mem : VfsW _)
      (code r.1, r.2)

/-! ## Submitted operations -/

inductive UringOpcode
  | nop
  | read
  | write
  | pollAdd
  | other
deriving DecidableEq

/-- The fields of `uring_sqe_t` that are used; `bufOk`: the user's buffer is accepted, `src`: what it holds, `mem`: what
    an allocation gives. -/
structure UringSqe where
  opcode : UringOpcode
  fd : Int
  bufOk : Bool := true
  src : Buf := fun _ => 0
  len : Nat := 0
  mem : Memory := none

/-- The node of a submitted read or write. Pipes, terminals and sockets are asked first; unlike `sys_read` and
    `sys_fwrite`, it looks neither at the kind of the node nor at the mode of the descriptor. -/
def uringTarget (fd : Int) : FdTarget :=
  if fd < 0 ∨ (maxFds : Int) ≤ fd then .error (-EBADF)
  else
    let e := (k.tasks t).fds fd.toNat
    if e.isFree then .error (-EBADF)
    else if e.pipe.isSome ∨ e.other = some .pty ∨ e.other = some .unixSock then .elsewhere
    else
      match e.node with
      | none => .error (-EBADF)
      | some i => if k.vfs.nodeCount ≤ i then .error (-1) else .node fd.toNat i

def uringDoRead (fd : Int) (len : Nat) : FdReply × FsKernel :=
  match k.uringTarget t fd with
  | .error e => (.error e, k)
  | .elsewhere => (.elsewhere, k)
  | .node fd i =>
    let r := k.call (vfsRead i ((k.tasks t).fds fd).offset len : VfsR _)
    match r.1 with
    | .error e => (.error e, r.2)
    | .ok bs => (.bytes bs, r.2.advance t fd bs.length)

/-- The flag for appending is not the one that `sys_open` stores. -/
def uringDoWrite (fd : Int) (src : Buf) (len : Nat) (mem : Memory) : FdReply × FsKernel :=
  match k.uringTarget t fd with
  | .error e => (.error e, k)
  | .elsewhere => (.elsewhere, k)
  | .node fd i =>
    let e := (k.tasks t).fds fd
    let k := if e.openFlags &&& 4 ≠ 0 then k.setFd t fd { e with offset := (k.vfs.nodes i).size } else k
    let r := k.call (vfsWrite i ((k.tasks t).fds fd).offset src len mem : VfsW _)
    match r.1 with
    | .error e => (.error e, r.2)
    | .ok n => (.count n, r.2.advance t fd n)

def uringEntry (sqe : UringSqe) : FdReply × FsKernel :=
  match sqe.opcode with
  | .nop => (.count 0, k)
  | .read => if sqe.bufOk then k.uringDoRead t sqe.fd sqe.len else (.error (-EFAULT), k)
  | .write => if sqe.bufOk then k.uringDoWrite t sqe.fd sqe.src sqe.len sqe.mem else (.error (-EFAULT), k)
  | .pollAdd => (.elsewhere, k)
  | .other => (.error (-EINVAL), k)

/-- The number of operations done, and the kernel after them. `maxEntries` is the size of the ring. -/
def sysUringEnter (uringFd : Nat) (sqes : List UringSqe) (maxEntries : Nat) (ptrsOk : Bool) : Int × FsKernel :=
  if maxFds ≤ uringFd then (-EBADF, k)
  else if ((k.tasks t).fds uringFd).other ≠ some .uring then (-EINVAL, k)
  else if sqes.length = 0 then (0, k)
  else if !ptrsOk then (-EFAULT, k)
  else ((sqes.take maxEntries).length, (sqes.take maxEntries).foldl (fun k sqe => (k.uringEntry t sqe).2) k)

/-- The fields of `struct linux_stat` that `fill_linux_stat` takes from the node. -/
structure LinuxStat where
  ino : Nat
  size : Nat
  uid : U16
  gid : U16
  type : NodeType
  mode : U16
deriving DecidableEq

def fillLinuxStat (n : VfsNode) (i : Nat) : LinuxStat :=
  { ino := i + 1, size := n.size, uid := n.uid, gid := n.gid, type := n.type, mode := n.mode &&& 0xFFF }

def sysFstat (fd : Nat) (bufOk : Bool) : Except Int LinuxStat :=
  if maxFds ≤ fd then .error (-EBADF)
  else if !bufOk then .error (-EFAULT)
  else
    match k.descriptorNode t fd with
    | none => .error (-EBADF)
    | some i => .ok (fillLinuxStat (k.vfs.nodes i) (if i < k.vfs.nodeCount then i else 0))

/-- `fd_close`: a pipe loses a reference, and the entry is empty. -/
def sysClose (fd : Nat) : Int × FsKernel :=
  if maxFds ≤ fd then (-1, k)
  else
    let e := (k.tasks t).fds fd
    if e.isFree then (-1, k)
    else
      let pipes := match e.pipe with
        | none => k.pipes
        | some (p, isWrite) =>
          let pp := k.pipes p
          let pp := if isWrite then
              { pp with writeRefs := pp.writeRefs - 1, closedWrite := pp.closedWrite || pp.writeRefs ≤ 1 }
            else { pp with readRefs := pp.readRefs - 1, closedRead := pp.closedRead || pp.readRefs ≤ 1 }
          Function.update k.pipes p { pp with used := pp.used && !(pp.closedRead && pp.closedWrite) }
      (0, { k.setFd t fd {} with pipes })

def direntType : NodeType → UInt8
  | .file => 8
  | .directory => 4
  | .symlink => 10
  | .fifo => 1
  | .device => 0

def direntReclen (name : CStr) : Nat := (19 + name.length + 8) / 8 * 8 % 2 ^ 16

/-- A `struct linux_dirent64`: number, position of the next entry, length, type, name and padding. -/
def direntBytes (n : VfsNode) (i next : Nat) : List UInt8 :=
  (List.range 8).map (ByteCodec.byteOf (i + 1)) ++ ((List.range 8).map (ByteCodec.byteOf next) ++
    ((List.range 2).map (ByteCodec.byteOf (direntReclen n.name)) ++
      direntType n.type :: (n.name ++ List.replicate (direntReclen n.name - (19 + n.name.length)) 0)))

/-- The loop over the table: the children of `dir` are counted in `live`, those from `index` on are put while there is
    room, and `offset` is the position after the last one put. -/
def direntsLoop (v : Vfs) (dir index bufsize : Nat) : List Nat → Nat → List UInt8 → Nat → List UInt8 × Nat
  | [], _, out, offset => (out, offset)
  | i :: is, live, out, offset =>
    match v.getNode i with
    | none => direntsLoop v dir index bufsize is live out offset
    | some child =>
      if child.parent ≠ some dir then direntsLoop v dir index bufsize is live out offset
      else if live < index then direntsLoop v dir index bufsize is (live + 1) out offset
      else if bufsize < out.length + direntReclen child.name then (out, offset)
      else direntsLoop v dir index bufsize is (live + 1) (out ++ direntBytes child i (live + 1)) (live + 1)

/-- The bytes put into the user's buffer; `bufOk` says whether the buffer is accepted. -/
def sysGetdents64 (fd bufsize : Nat) (bufOk : Bool) : Except Int (List UInt8) × FsKernel :=
  if maxFds ≤ fd then (.error (-EBADF), k)
  else if bufsize = 0 then (.error (-EINVAL), k)
  else if !bufOk then (.error (-EFAULT), k)
  else
    let e := (k.tasks t).fds fd
    match e.node with
    | none => (.error (-EBADF), k)
    | some dir =>
      if (k.vfs.nodes dir).type ≠ .directory then (.error (-ENOTDIR), k)
      else if k.vfs.nodeCount ≤ dir then (.error (-EBADF), k)
      else
        let r := direntsLoop k.vfs dir (u32 e.offset) bufsize (List.range k.vfs.nodeCount) 0 [] e.offset
        (.ok r.1, k.setFd t fd { e with offset := r.2 })

inductive Op
  | open (raw : Option CStr) (flags : U64) (mem : Memory) (text : Nat → Option ProcText)
  | create (raw : Option CStr) (mem : Memory)
  | unlink (raw : Option CStr)
  | mkdir (raw : Option CStr)
  | symlink (target raw : Option CStr) (mem : Memory)
  | truncate (raw : Option CStr) (newSize : Nat) (mem : Memory)
  | mount (raw fstype : Option CStr)
  | umount (raw : Option CStr)
  | read (fd len : Nat) (bufOk : Bool)
  | fwrite (fd : Nat) (src : Buf) (len : Nat) (bufOk : Bool) (mem : Memory)
  | ftruncate (fd length : Nat) (mem : Memory)
  | close (fd : Nat)

def step (k : FsKernel) : Nat × Op → FsKernel
  | (t, .open raw flags mem text) => (k.sysOpen t raw flags mem text).2
  | (t, .create raw mem) => (k.sysCreate t raw mem).2
  | (t, .unlink raw) => (k.sysUnlink t raw).2
  | (t, .mkdir raw) => (k.sysMkdir t raw).2
  | (t, .symlink target raw mem) => (k.sysSymlink t target raw mem).2
  | (t, .truncate raw newSize mem) => (k.sysTruncate t raw newSize mem).2
  | (t, .mount raw fstype) => (k.sysMount t raw fstype).2
  | (t, .umount raw) => (k.sysUmount t raw).2
  | (t, .read fd len bufOk) => (k.sysRead t fd len bufOk).2
  | (t, .fwrite fd src len bufOk mem) => (k.sysFwrite t fd src len bufOk mem).2
  | (t, .ftruncate fd length mem) => (k.sysFtruncate t fd length mem).2
  | (t, .close fd) => (k.sysClose t fd).2

end FsKernel

end Limnx
