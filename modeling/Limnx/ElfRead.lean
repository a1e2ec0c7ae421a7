import Limnx.Lib.ByteCodec
import Limnx.SysMm

/-! # What `elf_load` reads and maps (`proc/elf.c`)

`elf_load` with the bytes that it reads and the pages that it maps. A structure is read up to the last member that is
used. -/

namespace Limnx.Mem

open ByteCodec

def readPhdr (data : Buf) (h : Nat) : ElfPhdr where
  load := decode data h 4 = 1
  write := (decode data (h + 4) 4).testBit 1
  exec := (decode data (h + 4) 4).testBit 0
  offset := decode data (h + 8) 8
  vaddr := decode data (h + 16) 8
  filesz := decode data (h + 32) 8
  memsz := decode data (h + 40) 8

/-- `data` are the bytes from the start of the input on, with whatever lies behind its end. -/
def readElf (data : Buf) (size : Nat) : ElfFile where
  size := size
  byte := data
  magic := decode data 0 4
  class64 := decode data 4 1
  encoding := decode data 5 1
  type := decode data 16 2
  machine := decode data 18 2
  entry := decode data 24 8
  phoff := decode data 32 8
  phentsize := decode data 54 2
  phnum := decode data 56 2
  phdr i := readPhdr data (w64 (decode data 32 8 + i * decode data 54 2))

inductive ElfEvent where
  /-- `data[pos]` to `data[pos + len - 1]` are read; the index is a `uint64_t`. -/
  | read (pos len : Nat)
  | map (i virt : Nat)
  deriving DecidableEq

/-- `pmm_alloc_page` and `vmm_map_page_in` for a page of a segment. -/
inductive PageOutcome where
  | noFrame
  | noTable
  | mapped

/-- Rounds one after the other, up to the first that ends with an error. -/
def rounds (f : Nat → List ElfEvent × Option Int) : Nat → List ElfEvent × Option Int
  | 0 => ([], none)
  | n + 1 =>
    let r := rounds f n
    if r.2 = none then (r.1 ++ (f n).1, (f n).2) else r

def ElfPhdr.copyIn (p : ElfPhdr) (virt : Nat) : List ElfEvent :=
  let dataEnd := w64 (p.vaddr + p.filesz)
  if p.vaddr < virt + pageSize ∧ virt < dataEnd then
    let copyStart := max p.vaddr virt
    let copyEnd := min dataEnd (virt + pageSize)
    [.read (w64 (p.offset + (copyStart - p.vaddr))) (w64 (copyEnd + (2 ^ 64 - copyStart)))]
  else []

def ElfPhdr.loadPage (p : ElfPhdr) (i : Nat) (mem : Nat → PageOutcome) (j : Nat) : List ElfEvent × Option Int :=
  let virt := p.start + j * pageSize
  match mem j with
  | .noFrame => ([], some (-ENOMEM))
  | .noTable => (p.copyIn virt, some (-ENOMEM))
  | .mapped => (p.copyIn virt ++ [.map i virt], none)

def ElfFile.loadSegment (f : ElfFile) (mem : Nat → Nat → PageOutcome) (i : Nat) : List ElfEvent × Option Int :=
  let p := f.phdr i
  let h := w64 (f.phoff + i * f.phentsize)
  if !p.load then ([.read h 4], none)
  else if userAddrMax ≤ p.vaddr then ([.read h 24], some (-EINVAL))
  else if !p.valid f.size then ([.read h 48], some (-EINVAL))
  else
    let r := rounds (p.loadPage i (mem i)) ((p.stop - p.start) / pageSize)
    (.read h 48 :: r.1, r.2)

/-- `elf_load` with what it reads and maps, and its return value. `created`: `vmm_create_address_space` gives an address
    space. -/
def elfLoadTrace (machine : Nat) (data : Buf) (size : Nat) (created : Bool) (mem : Nat → Nat → PageOutcome) :
    List ElfEvent × Int :=
  let f := readElf data size
  if size < 64 then ([], -EINVAL)
  else if !f.valid machine then ([.read 0 58], -EINVAL)
  else if !created then ([.read 0 58], -ENOMEM)
  else
    let r := rounds (f.loadSegment mem) f.phnum
    (.read 0 58 :: r.1, r.2.getD (if (List.range f.phnum).any fun i => (f.phdr i).load then 0 else -EINVAL))

end Limnx.Mem
