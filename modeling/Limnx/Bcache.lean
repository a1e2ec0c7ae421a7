import Limnx.Lib.ByteCodec
import Limnx.Lib.BlockProg
import Limnx.Lib.IntrusiveList

/-! # The block cache (`blk/bcache.c`)

256 entries of one 4096-byte block each, in a doubly linked list by recent use and on hash chains by block number.
Writes stay in the cache until the entry is evicted, invalidated or flushed. The device is virtio-blk in whole blocks. A
link is `none` for `-1`. -/

namespace Limnx
open Function IntrusiveList

def bcacheEntries : Nat := 256
def blockSize : Nat := 4096
def hashBuckets : Nat := 256

abbrev Block : Type := Bytes blockSize

abbrev Disk := Nat → Block

/-- The blocks of the device, and for each request, in order, whether it fails and what a failed read leaves in its
    buffer. The driver leaves the buffer as it is (`none`). -/
structure BlkDevice where
  disk : Disk
  requests : Nat
  fails : Nat → Bool
  leaves : Nat → Option Block := fun _ => none

def virtioBlkReadMulti (b n : Nat) (d : BlkDevice) : Option (List Block) × BlkDevice :=
  (if d.fails d.requests then none else some (Handler.blocksAt d.disk b n), { d with requests := d.requests + 1 })

def virtioBlkWriteMulti (b : Nat) (data : Block) (d : BlkDevice) : Bool × BlkDevice :=
  if d.fails d.requests then (false, { d with requests := d.requests + 1 })
  else (true, { d with disk := update d.disk b data, requests := d.requests + 1 })

structure BcacheEntry where
  data : Block
  tag : Nat
  valid : Bool
  dirty : Bool

/-- The statics of the cache. `lru` holds `lru_head`, `lru_tail` and the entries' `lru_prev` and
    `lru_next`. -/
structure Bcache where
  cache : Nat → BcacheEntry
  lru : Links
  hashTable : Nat → Option Nat
  hashNext : Nat → Option Nat
  dev : BlkDevice

namespace Bcache
variable (s : Bcache)

def setEntry (i : Nat) (e : BcacheEntry) : Bcache := { s with cache := update s.cache i e }

def dllUnlink (i : Nat) (s : Bcache) : Bcache := { s with lru := s.lru.unlink i }

def dllPushHead (i : Nat) (s : Bcache) : Bcache := { s with lru := s.lru.pushHead i }

def hashFn (blockNo : Nat) : Nat := blockNo % hashBuckets

/-- The walk is bounded by the number of entries; a chain has no more. -/
def hashFind (blockNo : Nat) (s : Bcache) : Option Nat :=
  find s.hashNext (fun i => (s.cache i).valid && (s.cache i).tag == blockNo) bcacheEntries (s.hashTable (hashFn blockNo))

def hashInsert (i : Nat) (s : Bcache) : Bcache :=
  let bucket := hashFn (s.cache i).tag
  { s with hashNext := update s.hashNext i (s.hashTable bucket)
           hashTable := update s.hashTable bucket (some i) }

def hashRemove (i : Nat) (s : Bcache) : Bcache :=
  let bucket := hashFn (s.cache i).tag
  let r := remove s.hashNext bcacheEntries (s.hashTable bucket) i
  { s with hashNext := r.2, hashTable := update s.hashTable bucket r.1 }

def writebackEntry (i : Nat) (s : Bcache) : Bcache :=
  let e := s.cache i
  if !e.valid || !e.dirty then s
  else
    let r := virtioBlkWriteMulti e.tag e.data s.dev
    let s := { s with dev := r.2 }
    if r.1 then s.setEntry i { e with dirty := false } else s

def init : Bcache :=
  (List.range bcacheEntries).foldl (fun s i => dllPushHead i s)
    { s with
      cache := fun i => { s.cache i with tag := 0, valid := false, dirty := false }
      lru := ⟨none, none, fun _ => none, fun _ => none⟩
      hashTable := fun _ => none
      hashNext := fun _ => none }

/-- The cache after `bcache_init`, over a device that holds zeroes and does not fail. -/
def blank : Bcache :=
  init
    { cache := fun _ => ⟨fun _ => 0, 0, false, false⟩
      lru := ⟨none, none, fun _ => none, fun _ => none⟩
      hashTable := fun _ => none
      hashNext := fun _ => none
      dev := { disk := fun _ _ => 0, requests := 0, fails := fun _ => false } }

def promote (i : Nat) (s : Bcache) : Bcache := dllPushHead i (dllUnlink i s)

def evict (i : Nat) (s : Bcache) : Bcache :=
  let s := if (s.cache i).valid && (s.cache i).dirty then writebackEntry i s else s
  if (s.cache i).valid then hashRemove i s else s

def read (blockNo : Nat) (s : Bcache) : Option Block × Bcache :=
  match hashFind blockNo s with
  | some i => (some (s.cache i).data, promote i s)
  | none =>
    match s.lru.tail with
    | none => (none, s)
    | some victim =>
      let s := evict victim s
      let r := virtioBlkReadMulti blockNo 1 s.dev
      let left := s.dev.leaves s.dev.requests
      let s := { s with dev := r.2 }
      match r.1.bind List.head? with
      | none => (none, s.setEntry victim { s.cache victim with data := left.getD (s.cache victim).data })
      | some data =>
        let s := s.setEntry victim { data, tag := blockNo, valid := true, dirty := false }
        (some data, promote victim (hashInsert victim s))

def write (blockNo : Nat) (data : Block) (s : Bcache) : Bool × Bcache :=
  match hashFind blockNo s with
  | some i => (true, promote i (s.setEntry i { s.cache i with data, dirty := true }))
  | none =>
    match s.lru.tail with
    | none =>
      let r := virtioBlkWriteMulti blockNo data s.dev
      (r.1, { s with dev := r.2 })
    | some victim =>
      let s := evict victim s
      let s := s.setEntry victim { data, tag := blockNo, valid := true, dirty := true }
      (true, promote victim (hashInsert victim s))

def invalidate (blockNo : Nat) (s : Bcache) : Bcache :=
  match hashFind blockNo s with
  | none => s
  | some i =>
    let s := if (s.cache i).dirty then writebackEntry i s else s
    let s := hashRemove i s
    let s := s.setEntry i { s.cache i with valid := false, dirty := false }
    let s := dllUnlink i s
    { s with lru := s.lru.pushTail i }

/-- The flusher takes the lock for one entry at a time. -/
def flushEntry (i : Nat) (s : Bcache) : Bcache :=
  if (s.cache i).valid && (s.cache i).dirty then writebackEntry i s else s

def flush : Bcache :=
  (List.range bcacheEntries).foldl (fun s i => flushEntry i s) s

def readRaw (b n : Nat) (s : Bcache) : Option (List Block) × Bcache :=
  let r := virtioBlkReadMulti b n s.dev
  (r.1, { s with dev := r.2 })

end Bcache

/-- How LimnFS reaches the device: through the cache, and past it for bulk reads. -/
def bcacheHandler : Handler Block Bcache where
  read := Bcache.read
  write := Bcache.write
  readRaw := Bcache.readRaw

end Limnx
