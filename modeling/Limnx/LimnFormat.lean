import Limnx.Lib.PtrTree
import Limnx.Bcache
import Limnx.Errno

/-! # On-disk structures of LimnFS (`blk/limnfs.h`)

The superblock, inodes, directory entries and pointer blocks, as records and as packed little-endian bytes. Storing a
field takes it modulo its width. -/

namespace Limnx
open ByteCodec Bytes

def limnfsMagic : Nat := 0x4C494D46
def typeFree : Nat := 0
def typeFile : Nat := 1
def typeDir : Nat := 2
def maxInodes : Nat := 1024
def maxDirect : Nat := 10
def dentrySize : Nat := 64
def dentriesPerBlock : Nat := blockSize / dentrySize
def ptrsPerBlock : Nat := blockSize / 4

structure Super where
  magic : Nat := 0
  totalBlocks : Nat := 0
  totalInodes : Nat := 0
  blockSize : Nat := 0
  inodeTblStart : Nat := 0
  dataStart : Nat := 0
  freeBlocks : Nat := 0
  freeInodes : Nat := 0
  reserved : Bytes 4064 := zero

namespace Super

def encode (s : Super) : Block :=
  make (pack [(4, s.magic), (4, s.totalBlocks), (4, s.totalInodes), (4, s.blockSize), (4, s.inodeTblStart),
    (4, s.dataStart), (4, s.freeBlocks), (4, s.freeInodes)] s.reserved.get)

def decode (b : Block) : Super where
  magic := ByteCodec.decode b.get 0 4
  totalBlocks := ByteCodec.decode b.get 4 4
  totalInodes := ByteCodec.decode b.get 8 4
  blockSize := ByteCodec.decode b.get 12 4
  inodeTblStart := ByteCodec.decode b.get 16 4
  dataStart := ByteCodec.decode b.get 20 4
  freeBlocks := ByteCodec.decode b.get 24 4
  freeInodes := ByteCodec.decode b.get 28 4
  reserved := make fun k => b.get (32 + k)

end Super

structure Inode where
  type : Nat := 0
  mode : Nat := 0
  size : Nat := 0
  blockCount : Nat := 0
  direct : Fin 10 → Nat := fun _ => 0
  indirect : Nat := 0
  doubleIndirect : Nat := 0
  tripleIndirect : Nat := 0
  parent : Nat := 0
  uid : Nat := 0
  gid : Nat := 0
  reserved : Bytes 44 := zero

namespace Inode

/-- The size of the packed record. The comment in the header says 128. -/
def bytes : Nat := 116

def encode (i : Inode) : Buf :=
  pack [(2, i.type), (2, i.mode), (4, i.size), (4, i.blockCount), (4, i.direct 0), (4, i.direct 1), (4, i.direct 2),
    (4, i.direct 3), (4, i.direct 4), (4, i.direct 5), (4, i.direct 6), (4, i.direct 7), (4, i.direct 8),
    (4, i.direct 9), (4, i.indirect), (4, i.doubleIndirect), (4, i.tripleIndirect), (4, i.parent), (2, i.uid),
    (2, i.gid)] i.reserved.get

def decode (f : Buf) : Inode where
  type := ByteCodec.decode f 0 2
  mode := ByteCodec.decode f 2 2
  size := ByteCodec.decode f 4 4
  blockCount := ByteCodec.decode f 8 4
  direct k := ByteCodec.decode f (12 + 4 * k) 4
  indirect := ByteCodec.decode f 52 4
  doubleIndirect := ByteCodec.decode f 56 4
  tripleIndirect := ByteCodec.decode f 60 4
  parent := ByteCodec.decode f 64 4
  uid := ByteCodec.decode f 68 2
  gid := ByteCodec.decode f 70 2
  reserved := make fun k => f (72 + k)

def perBlock : Nat := Limnx.blockSize / bytes

def load (b : Block) (k : Nat) : Inode := decode fun j => b.get (k * bytes + j)

def store (b : Block) (k : Nat) (i : Inode) : Block := make (splice b.get (k * bytes) bytes i.encode)

end Inode

structure Dentry where
  inode : Nat
  nameLen : Nat
  fileType : Nat
  name : Bytes 58

namespace Dentry

def load (b : Block) (k : Nat) : Dentry where
  inode := decode b.get (k * dentrySize) 4
  nameLen := decode b.get (k * dentrySize + 4) 1
  fileType := decode b.get (k * dentrySize + 5) 1
  name := make fun j => b.get (k * dentrySize + 6 + j)

def nameAt (b : Block) (k : Nat) : CStr :=
  ((List.range (Limnx.blockSize - (k * dentrySize + 6))).map fun j => b.get (k * dentrySize + 6 + j)).takeWhile (· != 0)

/-- Fill in entry `k` of a directory block. The name is copied with its terminator, at most 58 bytes. -/
def fill (b : Block) (k childIno : Nat) (name : CStr) (type : Nat) : Block :=
  let f := put b.get (k * dentrySize) 4 childIno
  let f := put f (k * dentrySize + 4) 1 name.length
  let f := put f (k * dentrySize + 5) 1 type
  let copied := name.take 57 ++ [0]
  make (splice f (k * dentrySize + 6) copied.length fun j => copied.getD j 0)

def erase (b : Block) (k : Nat) : Block :=
  make (put (put b.get (k * dentrySize) 4 0) (k * dentrySize + 6) 1 0)

end Dentry

def ptrAt (b : Block) (i : Nat) : Nat := if i < ptrsPerBlock then decode b.get (4 * i) 4 else 0

def setPtrAt (b : Block) (i v : Nat) : Block := make (put b.get (4 * i) 4 v)

end Limnx
