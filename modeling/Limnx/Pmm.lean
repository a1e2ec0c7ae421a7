import Mathlib.Data.Finset.Card
import Limnx.Mm

/-! # The page allocator (`mm/pmm.c`)

The allocator of `Limnx.Mm` again, with its loops, its counters and their widths, and `pmm_init` of the x86_64 build. 0
is the answer of an allocation that fails. -/

namespace Limnx
open Function

/-- `total_pages`, `bitmap`, `refcounts`, `free_pages` and `alloc_hint`. From `total` on, the arrays are what
    lies behind them in memory. -/
structure PmmState where
  total : Nat
  bitmap : Nat → Bool
  refcounts : Nat → U16
  freePages : U64
  hint : Nat := 1

namespace PmmState
variable (s : PmmState)

def takeFrame (f : Nat) : PmmState :=
  { s with
    bitmap := update s.bitmap f true
    refcounts := update s.refcounts f 1
    freePages := s.freePages - 1 }

def firstClear (lo hi : Nat) : Option Nat := (List.range' lo (hi - lo)).find? fun i => !s.bitmap i

def pmmAllocPage : Nat × PmmState :=
  match (s.firstClear s.hint s.total).or (s.firstClear 1 s.hint) with
  | some i => (i, { s.takeFrame i with hint := i + 1 })
  | none => (0, s)

/-- The loops of `pmm_alloc_contiguous`, over the `n` frames from `i` on: the last `run` frames were free, from
    `start` on. -/
def scan (count : Nat) : (n i run start : Nat) → Option Nat
  | 0, _, _, _ => none
  | n + 1, i, run, start =>
    if s.bitmap i then scan count n (i + 1) 0 start
    else
      let start := if run = 0 then i else start
      if run + 1 = count then some start else scan count n (i + 1) (run + 1) start

def begin : Nat := if 0 < s.hint then s.hint else 1

def pmmAllocContiguous (count : Nat) : Nat × PmmState :=
  if count = 0 then (0, s)
  else if count = 1 then s.pmmAllocPage
  else
    match (s.scan count (s.total - s.begin) s.begin 0 0).or
      (if 1 < s.begin then s.scan count (s.begin - 1) 1 0 0 else none) with
    | some start => (start, { (List.range' start count).foldl takeFrame s with hint := start + count })
    | none => (0, s)

def pmmMarkUsed (f : Nat) : PmmState :=
  if f = 0 ∨ s.total ≤ f then s else if s.bitmap f then s else s.takeFrame f

def pmmFreePage (f : Nat) : PmmState :=
  if f = 0 then s
  else if !s.bitmap f then s
  else if 1 < s.refcounts f then { s with refcounts := update s.refcounts f (s.refcounts f - 1) }
  else
    { s with
      refcounts := update s.refcounts f 0
      bitmap := update s.bitmap f false
      freePages := s.freePages + 1 }

def pmmRefInc (f : Nat) : PmmState :=
  if 0 < f ∧ f < s.total then { s with refcounts := update s.refcounts f (s.refcounts f + 1) } else s

def pmmRefDec (f : Nat) : U16 × PmmState :=
  if f = 0 ∨ s.total ≤ f then (0, s)
  else if 0 < s.refcounts f then
    (s.refcounts f - 1, { s with refcounts := update s.refcounts f (s.refcounts f - 1) })
  else (0, s)

def clearFrames : Finset Nat := (Finset.range s.total).filter fun f => s.bitmap f = false

end PmmState

/-- An entry of the memory map. Physical addresses have 52 bits (`PTE_ADDR_MASK`). -/
structure MemmapEntry where
  base : Nat
  length : Nat
  usable : Bool
  top_le : base + length ≤ 2 ^ 52

abbrev Memmap := List MemmapEntry

namespace Memmap
variable (m : Memmap)

def highestAddr : Nat := m.foldl (fun highest e => if highest < e.base + e.length then e.base + e.length else highest) 0

def totalPages : Nat := m.highestAddr / pageSize

def bitmapSize : Nat := (m.totalPages + 7) / 8

def bitmapEntry : Option MemmapEntry := m.find? fun e => e.usable && decide (m.bitmapSize ≤ e.length)

def bitmapBytes : Nat := (m.bitmapSize + (pageSize - 1)) / pageSize * pageSize

end Memmap

namespace PmmState
variable (s : PmmState)

def clearFrame (f : Nat) : PmmState :=
  { s with bitmap := update s.bitmap f false, freePages := s.freePages + 1 }

def reserve (f : Nat) : PmmState :=
  if s.bitmap f then s else { s with bitmap := update s.bitmap f true, freePages := s.freePages - 1 }

def freeEntry (e : MemmapEntry) : PmmState :=
  if e.usable then (List.range' (e.base / pageSize) (e.length / pageSize)).foldl clearFrame s else s

def reserveBytes (a size : Nat) : PmmState :=
  (List.range' (a / pageSize) ((a + size + (pageSize - 1)) / pageSize - a / pageSize)).foldl reserve s

end PmmState

structure PmmBoot where
  state : PmmState
  bitmapAt : Nat
  refcountsAt : Nat

/-- `pmm_init` once entry `e` is chosen for the bitmap. The bits behind the bitmap are `behind`. -/
def pmmInitAt (m : Memmap) (behind : Nat → Bool) (e : MemmapEntry) : PmmBoot :=
  let allUsed : PmmState :=
    { total := m.totalPages
      bitmap := fun f => decide (f < 8 * m.bitmapSize) || behind f
      refcounts := fun _ => 0
      freePages := 0 }
  let s := (((m.foldl PmmState.freeEntry allUsed).reserve 0).reserveBytes e.base m.bitmapSize).reserveBytes
    (e.base + m.bitmapBytes) (2 * m.totalPages)
  { state := { s with refcounts := fun f => if 1 ≤ f ∧ f < s.total ∧ s.bitmap f then 1 else 0, hint := 1 }
    bitmapAt := e.base
    refcountsAt := e.base + m.bitmapBytes }

/-- `pmm_init`, or none where it panics. -/
def pmmInit (m : Memmap) (behind : Nat → Bool) : Option PmmBoot := m.bitmapEntry.map (pmmInitAt m behind)

end Limnx
