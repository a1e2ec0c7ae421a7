import Limnx.Theorems.PageAllocator

/-! What `pmm_init` makes of the memory map. -/

namespace Limnx
open Function List PmmState MemmapEntry

def MemmapEntry.Has (e : MemmapEntry) (a : Nat) : Prop := e.base ≤ a ∧ a < e.base + e.length

def MemmapEntry.frames (e : MemmapEntry) : List Nat :=
  if e.usable then range' (e.base / pageSize) (e.length / pageSize) else []

def framesAt (a size : Nat) : List Nat :=
  range' (a / pageSize) ((a + size + (pageSize - 1)) / pageSize - a / pageSize)

namespace Memmap
variable {m : Memmap} {e : MemmapEntry} {a f : Nat} {behind : Nat → Bool} {b : PmmBoot}

/-- The byte at `a` belongs to a usable entry. -/
def Usable (m : Memmap) (a : Nat) : Prop := ∃ e ∈ m, e.usable ∧ e.Has a

/-- Entries consist of whole pages and do not overlap. -/
structure Wf (m : Memmap) : Prop where
  base : ∀ e ∈ m, e.base % pageSize = 0
  length : ∀ e ∈ m, e.length % pageSize = 0
  disjoint : m.Pairwise fun e e' => ∀ a, e.Has a → ¬e'.Has a

/-- The byte at `a` belongs to the bitmap or to the reference counts. -/
def InArray (m : Memmap) (b : PmmBoot) (a : Nat) : Prop :=
  (b.bitmapAt ≤ a ∧ a < b.bitmapAt + m.bitmapSize) ∨ (b.refcountsAt ≤ a ∧ a < b.refcountsAt + 2 * m.totalPages)

/-- The allocator's data lies in usable memory, and the other usable pages are free, but page 0. -/
structure Respected (m : Memmap) (b : PmmBoot) : Prop where
  inside : ∀ a, m.InArray b a → m.Usable a
  free : ∀ f < b.state.total,
    b.state.bitmap f = false ↔ f ≠ 0 ∧ ∀ a, a / pageSize = f → m.Usable a ∧ ¬m.InArray b a
  held : ∀ f, 1 ≤ f → f < b.state.total → b.state.bitmap f = true → b.state.refcounts f = 1
  pages : b.state.freePages.toNat = b.state.clearFrames.card

theorem highest_spec (m : Memmap) {h : Nat} (hh : h ≤ 2 ^ 52) :
    let top := m.foldl (fun highest e => if highest < e.base + e.length then e.base + e.length else highest) h
    h ≤ top ∧ top ≤ 2 ^ 52 ∧ ∀ e ∈ m, e.base + e.length ≤ top := by
  induction m generalizing h with
  | nil => exact ⟨le_rfl, hh, fun e he => absurd he not_mem_nil⟩
  | cons e m ih =>
    have hle := e.top_le
    have hnext : ∀ x, x = (if h < e.base + e.length then e.base + e.length else h) →
        x ≤ 2 ^ 52 ∧ h ≤ x ∧ e.base + e.length ≤ x := fun x hx => by split at hx <;> omega
    obtain ⟨hh', hge, hge'⟩ := hnext _ rfl
    obtain ⟨hlow, hhigh, hall⟩ := ih hh'
    refine ⟨Nat.le_trans hge hlow, hhigh, fun e' he' => ?_⟩
    rcases mem_cons.mp he' with rfl | he'
    · exact Nat.le_trans hge' hlow
    · exact hall e' he'

theorem totalPages_lt (m : Memmap) : m.totalPages < 2 ^ 64 := by
  have := (highest_spec m (Nat.zero_le _)).2.1
  rw [totalPages, highestAddr, pageSize]
  omega

theorem frame_lt (he : e ∈ m) (hf : f ∈ e.frames) : f < m.totalPages := by
  have := (highest_spec m (Nat.zero_le _)).2.2 e he
  rw [frames] at hf
  split at hf
  · rw [mem_range'_1] at hf
    rw [totalPages, highestAddr]
    simp only [pageSize] at *
    omega
  · exact absurd hf not_mem_nil

theorem Wf.mem_frames (h : m.Wf) (he : e ∈ m) : f ∈ e.frames ↔ e.usable ∧ e.Has (f * pageSize) := by
  have hbase := h.base e he
  have hlength := h.length e he
  rw [frames]
  split
  next hu =>
    simp only [mem_range'_1, hu, Has, pageSize, true_and] at *
    omega
  next hu => simp [hu]

theorem Wf.usable_iff (h : m.Wf) : m.Usable a ↔ ∃ e ∈ m, a / pageSize ∈ e.frames := by
  refine exists_congr fun e => and_congr_right fun he => ?_
  have hbase := h.base e he
  have hlength := h.length e he
  rw [h.mem_frames he]
  refine and_congr_right fun _ => ?_
  simp only [Has, pageSize] at *
  omega

theorem Wf.nodup_frames (h : m.Wf) : (m.flatMap frames).Nodup := by
  rw [nodup_flatMap]
  refine ⟨fun e _ => ?_, h.disjoint.imp_of_mem fun {e e'} he he' hdisj f hf hf' => ?_⟩
  · rw [frames]
    split
    · exact nodup_range'
    · exact nodup_nil
  · exact hdisj _ ((h.mem_frames he).mp hf).2 ((h.mem_frames he').mp hf').2

theorem mem_framesAt {size : Nat} (ha : a % pageSize = 0) :
    f ∈ framesAt a size ↔ ∃ c, c / pageSize = f ∧ a ≤ c ∧ c < a + size := by
  rw [framesAt, mem_range'_1]
  simp only [pageSize] at *
  constructor
  · intro hf
    exact ⟨f * 4096, by omega, by omega, by omega⟩
  · rintro ⟨c, rfl, hlow, hhigh⟩
    omega

end Memmap

namespace PmmState
variable {s : PmmState} {l : List Nat} {f : Nat}

theorem Counted.clearFrames_fold (h : s.Counted) (hl : l.Nodup) (hset : ∀ f ∈ l, f < s.total ∧ s.bitmap f) :
    (l.foldl clearFrame s).Counted ∧ (l.foldl clearFrame s).total = s.total ∧
      ∀ f, (l.foldl clearFrame s).bitmap f = (!decide (f ∈ l) && s.bitmap f) := by
  induction l generalizing s with
  | nil => exact ⟨h, rfl, fun f => by simp⟩
  | cons g l ih =>
    obtain ⟨hg, hl⟩ := nodup_cons.mp hl
    obtain ⟨hlt, hbit⟩ := hset g mem_cons_self
    have hset' : ∀ f ∈ l, f < (s.clearFrame g).total ∧ (s.clearFrame g).bitmap f := fun f hf => by
      obtain ⟨hf', hbit'⟩ := hset f (mem_cons_of_mem g hf)
      have hne : f ≠ g := fun h => hg (h ▸ hf)
      exact ⟨hf', (update_of_ne hne ..).trans hbit'⟩
    obtain ⟨hcounted, htotal, hbits⟩ := ih (h.clear hbit hlt rfl) hl hset'
    refine ⟨hcounted, htotal, fun f => (hbits f).trans ?_⟩
    rcases eq_or_ne f g with rfl | hne
    · simp
    · simp [hne]

theorem Counted.reserve (h : s.Counted) (hf : f < s.total ∨ s.bitmap f) : (s.reserve f).Counted := by
  rw [PmmState.reserve]
  split
  · exact h
  rename_i hclear
  have hfree : s.Free f 1 := fun g hlow hhigh => by
    obtain rfl : g = f := by omega
    simpa using hclear
  have htake : (s.takeFrame f).Counted := by
    have := h.took (hf.resolve_right hclear) hfree
    rw [takeFrame_eq]
    exact ⟨this.1, this.2⟩
  exact ⟨htake.1, htake.2⟩

variable (s : PmmState)

theorem reserve_bitmap (f g : Nat) : (s.reserve f).bitmap g = (decide (g = f) || s.bitmap g) := by
  rw [reserve]
  split
  · rcases eq_or_ne g f with rfl | hne <;> simp [*]
  · rcases eq_or_ne g f with rfl | hne <;> simp [*]

theorem reserve_total (f : Nat) : (s.reserve f).total = s.total := by
  rw [reserve]
  split <;> rfl

theorem foldl_reserve (l : List Nat) : (l.foldl reserve s).total = s.total ∧
    (∀ f, (l.foldl reserve s).bitmap f = (decide (f ∈ l) || s.bitmap f)) ∧
    (s.Counted → (∀ f ∈ l, f < s.total) → (l.foldl reserve s).Counted) := by
  induction l generalizing s with
  | nil => exact ⟨rfl, fun f => by simp, fun h _ => h⟩
  | cons g l ih =>
    obtain ⟨htotal, hbits, hcounted⟩ := ih (s.reserve g)
    rw [reserve_total] at htotal hcounted
    refine ⟨htotal, fun f => (hbits f).trans ?_, fun h hl => ?_⟩
    · rw [reserve_bitmap]
      simp [Bool.or_assoc, Bool.or_left_comm]
    · exact hcounted (h.reserve (.inl (hl g mem_cons_self))) fun f hf => hl f (mem_cons_of_mem g hf)

theorem foldl_freeEntry (m : Memmap) : m.foldl freeEntry s = (m.flatMap frames).foldl clearFrame s := by
  rw [foldl_flatMap]
  congr
  funext s e
  rw [freeEntry, frames]
  split <;> rfl

end PmmState

namespace Memmap
variable {m : Memmap} {e : MemmapEntry} {a f : Nat} {behind : Nat → Bool} {b : PmmBoot}

def allUsed (m : Memmap) (behind : Nat → Bool) : PmmState :=
  ⟨m.totalPages, fun f => decide (f < 8 * m.bitmapSize) || behind f, fun _ => 0, 0, 1⟩

theorem allUsed_bitmap (hf : f < m.totalPages) : (m.allUsed behind).bitmap f := by
  have : f < 8 * m.bitmapSize := by
    rw [bitmapSize]
    omega
  simp [allUsed, this]

theorem allUsed_counted : (m.allUsed behind).Counted := by
  refine ⟨m.totalPages_lt, (Finset.card_eq_zero.mpr ?_).symm⟩
  refine Finset.eq_empty_of_forall_notMem fun f hf => ?_
  obtain ⟨hlt, hclear⟩ := mem_clearFrames.mp hf
  simp [allUsed_bitmap hlt] at hclear

def freed (m : Memmap) (behind : Nat → Bool) : PmmState := m.foldl freeEntry (m.allUsed behind)

theorem Wf.freed (h : m.Wf) (behind : Nat → Bool) : (m.freed behind).Counted ∧ (m.freed behind).total = m.totalPages ∧
    ∀ f, (m.freed behind).bitmap f = (!decide (f ∈ m.flatMap frames) && (m.allUsed behind).bitmap f) := by
  rw [Memmap.freed, foldl_freeEntry]
  refine allUsed_counted.clearFrames_fold h.nodup_frames fun f hf => ?_
  obtain ⟨e, he, hf⟩ := mem_flatMap.mp hf
  exact ⟨frame_lt he hf, allUsed_bitmap (frame_lt he hf)⟩

theorem pmmInitAt_total (h : m.Wf) : (pmmInitAt m behind e).state.total = m.totalPages := by
  refine (foldl_reserve _ _).1.trans ((foldl_reserve _ _).1.trans ?_)
  exact (reserve_total _ _).trans (h.freed behind).2.1

theorem pmmInitAt_bitmap (h : m.Wf) : (pmmInitAt m behind e).state.bitmap f =
    (decide (f ∈ framesAt (e.base + m.bitmapBytes) (2 * m.totalPages)) || (decide (f ∈ framesAt e.base m.bitmapSize) ||
      (decide (f = 0) || (!decide (f ∈ m.flatMap frames) && (m.allUsed behind).bitmap f)))) := by
  refine ((foldl_reserve _ _).2.1 f).trans (congrArg _ ?_)
  refine ((foldl_reserve _ _).2.1 f).trans (congrArg _ ?_)
  exact (reserve_bitmap _ _ f).trans (congrArg _ ((h.freed behind).2.2 f))

theorem pmmInitAt_counted (h : m.Wf) (hzero : m.totalPages = 0 → behind 0)
    (hframes : ∀ f ∈ framesAt e.base m.bitmapSize, f < m.totalPages)
    (hframes' : ∀ f ∈ framesAt (e.base + m.bitmapBytes) (2 * m.totalPages), f < m.totalPages) :
    (pmmInitAt m behind e).state.Counted := by
  obtain ⟨hcounted, htotal, hbits⟩ := h.freed behind
  have hreserve : ((m.freed behind).reserve 0).Counted := by
    refine hcounted.reserve ?_
    rcases Nat.eq_zero_or_pos m.totalPages with hz | hpos
    · have hno : 0 ∉ m.flatMap frames := fun hmem => by
        obtain ⟨e, he, hf⟩ := mem_flatMap.mp hmem
        have := frame_lt he hf
        omega
      exact .inr (by simp [hbits, hno, allUsed, hzero hz])
    · exact .inl (htotal ▸ hpos)
  have htotal' : ((m.freed behind).reserve 0).total = m.totalPages := (reserve_total _ _).trans htotal
  obtain ⟨htotal1, -, hcounted1⟩ := foldl_reserve ((m.freed behind).reserve 0) (framesAt e.base m.bitmapSize)
  have h1 := hcounted1 hreserve fun f hf => htotal' ▸ hframes f hf
  have h2 := (foldl_reserve _ (framesAt (e.base + m.bitmapBytes) (2 * m.totalPages))).2.2 h1 fun f hf =>
    (htotal1.trans htotal') ▸ hframes' f hf
  exact ⟨h2.1, h2.2⟩

theorem Wf.bitmapBytes_le (h : m.Wf) (he : e ∈ m) (hsize : m.bitmapSize ≤ e.length) : m.bitmapBytes ≤ e.length := by
  have := h.length e he
  rw [bitmapBytes]
  simp only [pageSize] at *
  omega

/-- Behind the entry that takes the bitmap, memory is usable as far as the reference counts go. (A map without any
    memory has no bitmap, and bit 0 is what lies there.) -/
def RoomBehind (m : Memmap) (behind : Nat → Bool) : Prop :=
  (m.totalPages = 0 → behind 0 = true) ∧ ∀ e ∈ m.bitmapEntry,
    ∀ a, e.base + e.length ≤ a → a < e.base + m.bitmapBytes + 2 * m.totalPages → m.Usable a

theorem bitmapEntry_spec (he : m.bitmapEntry = some e) : e ∈ m ∧ e.usable ∧ m.bitmapSize ≤ e.length := by
  have hp := find?_some he
  rw [Bool.and_eq_true, decide_eq_true_eq] at hp
  exact ⟨mem_of_find?_eq_some he, hp⟩

theorem pmmInitAt_inside (he : m.bitmapEntry = some e) (hroom : m.RoomBehind behind)
    (ha : m.InArray (pmmInitAt m behind e) a) : m.Usable a := by
  obtain ⟨hmem, hu, hsize⟩ := bitmapEntry_spec he
  rcases Nat.lt_or_ge a (e.base + e.length) with hlt | hge
  · refine ⟨e, hmem, hu, ?_, hlt⟩
    rcases ha with ha | ha
    · exact ha.1
    · exact Nat.le_trans (Nat.le_add_right ..) ha.1
  · rcases ha with ha | ha
    · have := ha.2
      simp only [pmmInitAt] at this
      omega
    · exact hroom.2 e he a hge ha.2

theorem pmmInitAt_respected (h : m.Wf) (he : m.bitmapEntry = some e) (hroom : m.RoomBehind behind) :
    m.Respected (pmmInitAt m behind e) := by
  have hmem := (bitmapEntry_spec he).1
  have hbase := h.base e hmem
  have hbase' : (e.base + m.bitmapBytes) % pageSize = 0 := by
    rw [bitmapBytes]
    simp only [pageSize] at *
    omega
  have hlt : ∀ a, m.InArray (pmmInitAt m behind e) a → a / pageSize < m.totalPages := fun a ha => by
    obtain ⟨e', he', hf⟩ := h.usable_iff.mp (pmmInitAt_inside he hroom ha)
    exact frame_lt he' hf
  refine ⟨fun a => pmmInitAt_inside he hroom, fun f hf => ?_, fun f hpos hf hset => ?_, ?_⟩
  · rw [pmmInitAt_total h] at hf
    simp only [pmmInitAt_bitmap h, allUsed_bitmap hf, Bool.or_eq_false_iff, Bool.and_true, Bool.not_eq_false',
      decide_eq_false_iff_not, decide_eq_true_eq, mem_framesAt hbase, mem_framesAt hbase']
    constructor
    · rintro ⟨hcounts, hbitmap, hne, hfree⟩
      refine ⟨hne, fun a ha => ⟨h.usable_iff.mpr ?_, ?_⟩⟩
      · rw [ha]
        exact mem_flatMap.mp hfree
      · rintro (harray | harray)
        · exact hbitmap ⟨a, ha, harray⟩
        · exact hcounts ⟨a, ha, harray⟩
    · rintro ⟨hne, hall⟩
      have hdiv : f * pageSize / pageSize = f := Nat.mul_div_cancel f (by decide)
      refine ⟨?_, ?_, hne, mem_flatMap.mpr (hdiv ▸ h.usable_iff.mp (hall _ hdiv).1)⟩
      · rintro ⟨a, ha, harray⟩
        exact (hall a ha).2 (.inr harray)
      · rintro ⟨a, ha, harray⟩
        exact (hall a ha).2 (.inl harray)
  · exact if_pos ⟨hpos, hf, hset⟩
  · refine (pmmInitAt_counted h hroom.1 (fun f hf => ?_) fun f hf => ?_).pages
    · obtain ⟨a, rfl, ha⟩ := (mem_framesAt hbase).mp hf
      exact hlt a (.inl ha)
    · obtain ⟨a, rfl, ha⟩ := (mem_framesAt hbase').mp hf
      exact hlt a (.inr ha)

theorem framesAt_zero (ha : a % pageSize = 0) : framesAt a 0 = [] := by
  refine eq_nil_iff_forall_not_mem.mpr fun f hf => ?_
  obtain ⟨c, -, hlow, hhigh⟩ := (mem_framesAt ha).mp hf
  omega

theorem behind_zero (h : m.Wf) (he : e ∈ m) (hz : m.totalPages = 0)
    (hpages : (pmmInitAt m behind e).state.freePages.toNat = (pmmInitAt m behind e).state.clearFrames.card) :
    behind 0 := by
  have hsize : m.bitmapSize = 0 := by rw [bitmapSize, hz]
  have hbytes : m.bitmapBytes = 0 := by rw [bitmapBytes, hsize]; rfl
  have hnone : m.flatMap frames = [] := eq_nil_iff_forall_not_mem.mpr fun f hf => by
    obtain ⟨e, he, hf⟩ := mem_flatMap.mp hf
    have := frame_lt he hf
    omega
  have hfreed : m.freed behind = m.allUsed behind := by rw [freed, foldl_freeEntry, hnone]; rfl
  have hstate : (pmmInitAt m behind e).state.freePages = ((m.allUsed behind).reserve 0).freePages := by
    have hat : framesAt e.base 0 = [] := framesAt_zero (h.base e he)
    rw [← hfreed]
    change ((framesAt (e.base + m.bitmapBytes) (2 * m.totalPages)).foldl reserve
      ((framesAt e.base m.bitmapSize).foldl reserve ((m.freed behind).reserve 0))).freePages = _
    rw [hbytes, hsize, hz, Nat.add_zero, Nat.mul_zero, hat]
    rfl
  have hcard : (pmmInitAt m behind e).state.clearFrames.card = 0 := by
    have := clearFrames_card_le (s := (pmmInitAt m behind e).state)
    rw [pmmInitAt_total h, hz] at this
    exact Nat.le_zero.mp this
  by_contra hclear
  have hbit : (m.allUsed behind).bitmap 0 = false := by simpa [allUsed, hsize] using hclear
  rw [hstate, hcard, reserve, hbit] at hpages
  exact absurd (show (0 - 1 : U64).toNat = 0 from hpages) (by decide)

/-- Start-up respects the memory map exactly if there is room behind the entry of the bitmap. -/
theorem pmmInit_respected_iff (h : m.Wf) (hb : pmmInit m behind = some b) : m.Respected b ↔ m.RoomBehind behind := by
  obtain ⟨e, he, rfl⟩ := Option.map_eq_some_iff.mp hb
  constructor
  · intro hr
    obtain ⟨hmem, -, hsize⟩ := bitmapEntry_spec he
    refine ⟨fun hz => behind_zero h hmem hz hr.pages, fun e' he' a hlow hhigh => hr.inside a (.inr ?_)⟩
    obtain rfl : e = e' := Option.some.inj (he.symm.trans he')
    have := h.bitmapBytes_le hmem hsize
    exact ⟨by dsimp only [pmmInitAt]; omega, hhigh⟩
  · exact pmmInitAt_respected h he

/-- The state of such a start-up is one in which the runs of the allocator begin. -/
theorem Respected.initial (h : m.Wf) (hb : pmmInit m behind = some b) (hr : m.Respected b) : b.state.Initial := by
  obtain ⟨e, -, rfl⟩ := Option.map_eq_some_iff.mp hb
  refine ⟨⟨pmmInitAt_total h ▸ m.totalPages_lt, hr.pages⟩, ?_, fun f hpos hf => ?_, rfl⟩
  · simp [pmmInitAt_bitmap h]
  · cases hset : (pmmInitAt m behind e).state.bitmap f with
    | true => exact hr.held f hpos hf hset
    | false => exact if_neg fun hall => Bool.false_ne_true (hset.symm.trans hall.2.2)

/-- Two usable entries with an unusable one between them. -/
def splitMap : Memmap :=
  [⟨0, 0x10000, true, by decide⟩, ⟨0x10000, 0x10000, false, by decide⟩, ⟨0x20000, 0x10000, true, by decide⟩]

theorem splitMap_wf : splitMap.Wf := by
  refine ⟨by decide, by decide, ?_⟩
  simp only [splitMap, pairwise_cons, forall_mem_cons, MemmapEntry.Has]
  refine ⟨⟨?_, ?_, nofun⟩, ⟨?_, nofun⟩, nofun, .nil⟩ <;> omega

theorem splitMap_room : splitMap.RoomBehind fun _ => false := by
  refine ⟨fun h => absurd h (by decide), fun e he a hlow hhigh => ?_⟩
  obtain rfl : _ = e := Option.some.inj he
  have : a < 0 + 4096 + 96 := hhigh
  have : 0 + 0x10000 ≤ a := hlow
  omega

theorem splitMap_respected : ∃ b, pmmInit splitMap (fun _ => false) = some b ∧ splitMap.Respected b :=
  ⟨_, rfl, (pmmInit_respected_iff splitMap_wf rfl).mpr splitMap_room⟩

/-- The bitmap fills the one page of the usable entry, and the reference counts lie in memory that is not usable. -/
theorem counts_outside : ∃ m : Memmap, m.Wf ∧ ∃ b, pmmInit m (fun _ => false) = some b ∧
    b.refcountsAt = 0x2000 ∧ ¬m.Respected b := by
  refine ⟨[⟨0x1000, 0x1000, true, by decide⟩, ⟨0x2000, 0xe000, false, by decide⟩], ⟨by decide, by decide, ?_⟩,
    _, rfl, rfl, fun hr => ?_⟩
  · refine pairwise_pair.mpr fun a ha ha' => ?_
    have : a < 0x1000 + 0x1000 := ha.2
    have : 0x2000 ≤ a := ha'.1
    omega
  · obtain ⟨e, he, hu, hhas⟩ := hr.inside 0x2000 (.inr (by decide))
    rcases mem_pair.mp he with rfl | rfl
    · exact absurd hhas.2 (by decide)
    · exact absurd hu (by decide)

open PmmSys GuardedRun

theorem total_step {s : PmmSys} (h : s.Sound) (op : PmmOp) : (s.step op).pmm.total = s.pmm.total := by
  have halloc (n : Nat) : (s.step (.allocContiguous n)).pmm.total = s.pmm.total := by
    obtain ⟨a, -, -, -, -, hs⟩ | ⟨-, hs, -⟩ := h.alloc_cases n
    all_goals rw [hs]
    rfl
  cases op with
  | allocPage => exact halloc 1
  | allocContiguous n => exact halloc n
  | markUsed | refInc | refDec | freePage =>
    simp only [PmmSys.step, pmmMarkUsed, pmmRefInc, pmmRefDec, pmmFreePage]
    split_ifs <;> rfl

def Booted (b : PmmBoot) (s : PmmSys) : Prop :=
  s.Sound ∧ s.pmm.total = b.state.total ∧ ∀ f < b.state.total, (start b.state).refs f ≤ s.refs f

/-- From start-up on, as long as no frame loses the reference that start-up gave it, what is allocated is usable memory
    outside the allocator's own arrays. -/
theorem allocated_usable (ops : List PmmOp) (op : PmmOp) (h : m.Wf) (hroom : m.RoomBehind behind)
    (hb : pmmInit m behind = some b)
    (hops : Guarded step (fun s op => s.Held op ∧ s.Shares op ∧
      ∀ f < b.state.total, (start b.state).refs f ≤ (s.step op).refs f) (start b.state) ops)
    (hf : a / pageSize ∈ (run step (start b.state) ops).frames op) : m.Usable a ∧ ¬m.InArray b a := by
  have hr : m.Respected b := by
    obtain ⟨e, he, rfl⟩ := Option.map_eq_some_iff.mp hb
    exact pmmInitAt_respected h he hroom
  obtain ⟨hsound, htotal, hrefs⟩ : Booted b (run step (start b.state) ops) := hops.invariant
    (fun s op hs hop => ⟨hs.1.step hop.1 hop.2.1, (total_step hs.1 op).trans hs.2.1, hop.2.2⟩)
    ⟨.start (hr.initial h hb), rfl, fun _ _ => le_rfl⟩
  obtain ⟨hvalid, hunheld, -⟩ := hsound.exact.unheld op _ hf
  have hlt := htotal ▸ hvalid.2
  have hfirst : (start b.state).refs (a / pageSize) = 0 := Nat.le_zero.mp (hunheld ▸ hrefs _ hlt)
  have hclear : b.state.bitmap (a / pageSize) = false := by simpa [start, hvalid.1, hlt] using hfirst
  exact ((hr.free _ hlt).mp hclear).2 a rfl

/-- Only the second usable entry has room for 15 frames. -/
theorem allocated_usable_split : ∃ b, pmmInit splitMap (fun _ => false) = some b ∧ splitMap.Usable 0x20000 ∧
    ¬splitMap.InArray b 0x20000 :=
  ⟨_, rfl, allocated_usable [.allocPage] (.allocContiguous 15) splitMap_wf splitMap_room rfl (by decide +kernel)
    (by decide +kernel)⟩

end Memmap
end Limnx
