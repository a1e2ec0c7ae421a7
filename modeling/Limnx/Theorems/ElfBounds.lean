import Mathlib.Algebra.BigOperators.Intervals
import Limnx.ElfRead

/-! The sums of header fields that `elf_load` checks can wrap around, and the size of a program header is not compared
    with what is read of one. -/

namespace Limnx.Mem

open Nat Bool ByteCodec List ElfPhdr ElfEvent

section
variable {f : Nat → List ElfEvent × Option Int} {n : Nat}

theorem rounds_eq_none : (rounds f n).2 = none ↔ ∀ k < n, (f k).2 = none := by
  induction n with
  | zero => simp [rounds]
  | succ n ih =>
    rw [forall_lt_succ_right, ← ih, rounds]
    split
    next hdone => simp [hdone]
    next hdone => simp [hdone]

theorem mem_rounds {e : ElfEvent} : e ∈ (rounds f n).1 ↔ ∃ k < n, (∀ l < k, (f l).2 = none) ∧ e ∈ (f k).1 := by
  induction n with
  | zero => simp [rounds]
  | succ n ih =>
    rw [exists_lt_succ_right, ← ih, ← rounds_eq_none, rounds]
    split
    next hdone => simp [hdone]
    next hdone => simp [hdone]

theorem countP_rounds_le {P : ElfEvent → Bool} {b : Nat → Nat} (hb : ∀ k, (f k).1.countP P ≤ b k) :
    (rounds f n).1.countP P ≤ ∑ k ∈ Finset.range n, b k := by
  induction n with
  | zero => simp [rounds]
  | succ n ih =>
    have := hb n
    rw [Finset.sum_range_succ, rounds]
    split
    · rw [countP_append]
      omega
    · omega

end

theorem range_inside {pos len size : Nat} (hpos : pos < 2 ^ 64) (hsize : size < 2 ^ 64) :
    (∀ k < len, w64 (pos + k) < size) ↔ len = 0 ∨ pos + len ≤ size := by
  unfold w64
  constructor
  · intro h
    by_contra! hout
    rcases Nat.lt_or_ge pos size with hlt | hge
    · have := h (size - pos) (by omega)
      omega
    · have := h 0 (by omega)
      omega
  · rintro (rfl | h) k hk
    · cases hk
    · omega

def ElfEvent.maps (i : Nat) : ElfEvent → Bool
  | .map k _ => k = i
  | _ => false

namespace ElfPhdr
variable {p : ElfPhdr} {size virt pos len : Nat}

def copied (p : ElfPhdr) : Nat :=
  if p.vaddr + p.memsz < 2 ^ 64 then p.filesz
  -- the loop takes at most the page of `p_vaddr`
  else if p.stop ≤ p.start then 0
  else if p.vaddr + p.filesz < 2 ^ 64 then min p.filesz (p.start + pageSize - p.vaddr)
  else if p.start < w64 (p.vaddr + p.filesz) then p.filesz
  else 0

def span (p : ElfPhdr) : Nat :=
  if p.memsz = 0 then 0 else (p.vaddr + p.memsz - 1) / pageSize + 1 - p.vaddr / pageSize

def pages (p : ElfPhdr) : Nat := (p.stop - p.start) / pageSize

structure Fits (p : ElfPhdr) : Prop where
  offset : p.offset < 2 ^ 64
  memsz : p.memsz < 2 ^ 64

structure Checked (p : ElfPhdr) (size : Nat) : Prop where
  vaddr : p.vaddr < userAddrMax
  upper : w64 (p.vaddr + p.memsz) ≤ userAddrMax
  file : p.filesz = 0 ∨ w64 (p.offset + p.filesz) ≤ size
  filesz : p.filesz ≤ p.memsz

theorem valid_iff : p.valid size ↔ p.Checked size := by
  simp only [valid, and_eq_true, or_eq_true, decide_eq_true_eq]
  exact ⟨fun ⟨⟨⟨h1, h2⟩, h3⟩, h4⟩ => ⟨h1, h2, h3, h4⟩,
    fun ⟨h1, h2, h3, h4⟩ => ⟨⟨⟨h1, h2⟩, h3⟩, h4⟩⟩

theorem mem_copyIn : .read pos len ∈ p.copyIn virt ↔
    (p.vaddr < virt + pageSize ∧ virt < w64 (p.vaddr + p.filesz)) ∧
      pos = w64 (p.offset + (max p.vaddr virt - p.vaddr)) ∧
      len = w64 (min (w64 (p.vaddr + p.filesz)) (virt + pageSize) + (2 ^ 64 - max p.vaddr virt)) := by
  unfold copyIn
  dsimp only
  split
  · simp [*]
  · simp [*]

theorem Checked.pages_of_lt (h : p.Checked size) (hlt : p.vaddr + p.memsz < 2 ^ 64) :
    p.start + p.pages * pageSize = (p.vaddr + p.memsz + 4095) / 4096 * 4096 := by
  have := h.vaddr
  have := h.upper
  simp only [pages, start, stop, pageUp, w64, pageSize, userAddrMax] at *
  omega

theorem Checked.pages_of_ge (h : p.Checked size) (hfits : p.Fits) (hge : 2 ^ 64 ≤ p.vaddr + p.memsz) :
    p.pages ≤ 1 ∧ (p.pages = 0 ↔ p.stop ≤ p.start) := by
  have := h.vaddr
  have := h.upper
  have := hfits.memsz
  simp only [pages, start, stop, pageUp, w64, pageSize, userAddrMax] at *
  omega

def Copies (p : ElfPhdr) (virt x : Nat) : Prop :=
  ∃ pos len, .read pos len ∈ p.copyIn virt ∧ ∃ k < len, w64 (pos + k) = x

theorem copies_iff {x : Nat} : p.Copies virt x ↔ (p.vaddr < virt + pageSize ∧ virt < w64 (p.vaddr + p.filesz)) ∧
    ∃ k < w64 (min (w64 (p.vaddr + p.filesz)) (virt + pageSize) + (2 ^ 64 - max p.vaddr virt)),
      w64 (p.offset + (max p.vaddr virt - p.vaddr) + k) = x := by
  have hw (a k : Nat) : w64 (w64 a + k) = w64 (a + k) := by
    unfold w64
    omega
  constructor
  · rintro ⟨pos, len, hmem, hk⟩
    obtain ⟨hin, rfl, rfl⟩ := mem_copyIn.mp hmem
    exact ⟨hin, by simpa only [hw] using hk⟩
  · rintro ⟨hin, hk⟩
    exact ⟨_, _, mem_copyIn.mpr ⟨hin, rfl, rfl⟩, by simpa only [hw] using hk⟩

section
variable (h : p.Checked size)
include h

theorem Checked.copies_of_lt (hlt : p.vaddr + p.memsz < 2 ^ 64) {x : Nat} :
    (∃ j < p.pages, p.Copies (p.start + j * pageSize) x) ↔ ∃ k < p.filesz, w64 (p.offset + k) = x := by
  have hpages := h.pages_of_lt hlt
  have hfile := h.filesz
  have hstart : p.start ≤ p.vaddr ∧ p.vaddr < p.start + 4096 := by
    simp only [start, pageSize]
    omega
  have hend : w64 (p.vaddr + p.filesz) = p.vaddr + p.filesz := mod_eq_of_lt (by omega)
  simp only [copies_iff, hend, pageSize] at *
  constructor
  · rintro ⟨j, hj, ⟨hin1, hin2⟩, k, hk, rfl⟩
    refine ⟨max p.vaddr (p.start + j * 4096) - p.vaddr + k, ?_, by rw [Nat.add_assoc]⟩
    simp only [w64] at hk
    omega
  · rintro ⟨k, hk, rfl⟩
    -- the page of the byte
    refine ⟨(p.vaddr + k - p.start) / 4096, by omega, by omega,
      p.vaddr + k - max p.vaddr (p.start + (p.vaddr + k - p.start) / 4096 * 4096), ?_, congrArg w64 (by omega)⟩
    simp only [w64]
    omega

omit h in
theorem and_exists_lt {C : Prop} {P : Nat → Prop} {m n : Nat} (hC : C → m = n) (hn : ¬C → n = 0) :
    (C ∧ ∃ k < m, P k) ↔ ∃ k < n, P k := by
  by_cases h : C
  · simp [h, hC h]
  · simp [h, hn h]

theorem Checked.copies_iff_copied (hfits : p.Fits) {x : Nat} :
    (∃ j < p.pages, p.Copies (p.start + j * pageSize) x) ↔ ∃ k < p.copied, w64 (p.offset + k) = x := by
  unfold copied
  rcases Nat.lt_or_ge (p.vaddr + p.memsz) (2 ^ 64) with hlt | hge
  · rw [if_pos hlt]
    exact h.copies_of_lt hlt
  rw [if_neg (Nat.not_lt.mpr hge)]
  obtain ⟨hone, hzero⟩ := h.pages_of_ge hfits hge
  split
  next hstop => simp [hzero.mpr hstop]
  rename_i hstop
  have hpages : p.pages = 1 := by omega
  have hv := h.vaddr
  have hm := hfits.memsz
  have hfile := h.filesz
  have hstart : p.start ≤ p.vaddr ∧ p.vaddr < p.start + 4096 := by
    simp only [start, pageSize]
    omega
  simp only [hpages, lt_one_iff, exists_eq_left, Nat.zero_mul, Nat.add_zero, copies_iff,
    max_eq_left hstart.1, Nat.sub_self]
  refine and_exists_lt (fun hin => ?_) fun hout => ?_
  · rw [if_pos hin.2]
    simp only [pageSize, userAddrMax, w64] at hv hin ⊢
    split <;> omega
  · rw [if_neg fun hlt => hout ⟨hstart.2, hlt⟩]
    simp only [pageSize, userAddrMax, w64] at hv hout ⊢
    split <;> omega

theorem Checked.copied_inside (hfits : p.Fits) (hsize : size < 2 ^ 64) :
    (∀ j < p.pages, ∀ pos len, .read pos len ∈ p.copyIn (p.start + j * pageSize) →
      ∀ k < len, w64 (pos + k) < size) ↔
      p.copied = 0 ∨ p.offset + p.copied ≤ size := by
  rw [← range_inside hfits.offset hsize]
  constructor
  · intro hin k hk
    obtain ⟨j, hj, pos, len, hread, l, hl, heq⟩ := (h.copies_iff_copied hfits).mpr ⟨k, hk, rfl⟩
    exact heq ▸ hin j hj pos len hread l hl
  · intro hin j hj pos len hread l hl
    obtain ⟨k, hk, heq⟩ := (h.copies_iff_copied hfits).mp ⟨j, hj, pos, len, hread, l, hl, rfl⟩
    exact heq ▸ hin k hk

theorem Checked.pages_le_span (hfits : p.Fits) : p.pages ≤ p.span ↔ p.memsz = 0 → p.vaddr % pageSize = 0 := by
  have hv := h.vaddr
  have hm := hfits.memsz
  rcases Nat.lt_or_ge (p.vaddr + p.memsz) (2 ^ 64) with hlt | hge
  · have hpages := h.pages_of_lt hlt
    simp only [span, start, pageSize] at *
    split <;> omega
  · have hone := (h.pages_of_ge hfits hge).1
    simp only [span, userAddrMax, pageSize] at *
    rw [if_neg (by omega)]
    omega

theorem Checked.page_below {j : Nat} (hj : j < p.pages) : p.start + j * pageSize + pageSize ≤ userAddrMax := by
  have hu := h.upper
  simp only [pages, start, stop, pageUp, w64, pageSize, userAddrMax] at *
  omega

end

def readTo (p : ElfPhdr) : Nat := if !p.load then 4 else if userAddrMax ≤ p.vaddr then 24 else 48

def accepted (p : ElfPhdr) (size : Nat) : Bool := !p.load || p.valid size

theorem mem_loadPage {i j : Nat} {mem : Nat → PageOutcome} {e : ElfEvent} (he : e ∈ (p.loadPage i mem j).1) :
    e ∈ p.copyIn (p.start + j * pageSize) ∨ e = .map i (p.start + j * pageSize) := by
  unfold loadPage at he
  dsimp only at he
  split at he
  · cases he
  · exact .inl he
  · simpa using he

theorem countP_copyIn {i : Nat} : (p.copyIn virt).countP (maps i) = 0 := by
  unfold copyIn
  dsimp only
  split
  · rfl
  · rfl

theorem countP_loadPage {i k j : Nat} {mem : Nat → PageOutcome} :
    (p.loadPage k mem j).1.countP (maps i) ≤ if k = i then 1 else 0 := by
  unfold loadPage
  dsimp only
  split
  · exact Nat.zero_le _
  · rw [countP_copyIn]
    exact Nat.zero_le _
  · rw [countP_append, countP_copyIn]
    simp [maps, countP_cons]

end ElfPhdr

/-- What is read lies in the input, what is mapped in user space, and no segment gets more pages than it has a byte
    in. -/
structure Bounded (f : ElfFile) (r : List ElfEvent) : Prop where
  reads : ∀ pos len, .read pos len ∈ r → ∀ k < len, w64 (pos + k) < f.size
  below : ∀ i virt, .map i virt ∈ r → virt + pageSize ≤ userAddrMax
  span : ∀ i, r.countP (maps i) ≤ (f.phdr i).span

namespace ElfFile
variable {f : ElfFile} {mem : Nat → Nat → PageOutcome} {i : Nat} {e : ElfEvent}

/-- The loader comes to program header `i`: all before it were accepted. -/
def Reached (f : ElfFile) (i : Nat) : Prop := i < f.phnum ∧ ∀ k < i, (f.phdr k).accepted f.size

/-- Header `i` lies in the input as far as it is read, and so do the bytes that are copied for it. A segment
    without a byte does not begin inside a page. -/
structure Inside (f : ElfFile) (i : Nat) : Prop where
  header : w64 (f.phoff + i * f.phentsize) + (f.phdr i).readTo ≤ f.size
  data : (f.phdr i).load → (f.phdr i).valid f.size →
    (f.phdr i).copied = 0 ∨ (f.phdr i).offset + (f.phdr i).copied ≤ f.size
  empty : (f.phdr i).load → (f.phdr i).valid f.size → (f.phdr i).memsz = 0 → (f.phdr i).vaddr % pageSize = 0

theorem loadSegment_eq : f.loadSegment mem i =
    let r := if (f.phdr i).load ∧ (f.phdr i).valid f.size then
      rounds ((f.phdr i).loadPage i (mem i)) (f.phdr i).pages
      else ([], if (f.phdr i).load then some (-EINVAL) else none)
    (.read (w64 (f.phoff + i * f.phentsize)) (f.phdr i).readTo :: r.1, r.2) := by
  unfold loadSegment readTo
  dsimp only
  cases (f.phdr i).load with
  | false => rfl
  | true =>
    rcases Nat.lt_or_ge (f.phdr i).vaddr userAddrMax with hlow | hhigh
    · cases (f.phdr i).valid f.size with
      | false => simp [Nat.not_le.mpr hlow]
      | true => simp [Nat.not_le.mpr hlow, pages]
    · have hv : (f.phdr i).valid f.size = false := by
        simp [ElfPhdr.valid, Nat.not_lt.mpr hhigh]
      simp [hhigh, hv]

theorem loadSegment_accepted (h : (f.loadSegment mem i).2 = none) : (f.phdr i).accepted f.size := by
  rw [loadSegment_eq] at h
  cases hl : (f.phdr i).load with
  | false => simp [accepted, hl]
  | true =>
    by_contra hv
    simp_all [accepted]

theorem loadSegment_mapped (h : (f.phdr i).accepted f.size) : (f.loadSegment (fun _ _ => .mapped) i).2 = none := by
  rw [loadSegment_eq]
  cases hl : (f.phdr i).load with
  | false => rfl
  | true =>
    have hv : (f.phdr i).valid f.size := by simpa [accepted, hl] using h
    simp [hv, rounds_eq_none, loadPage]

theorem mem_loadSegment : e ∈ (f.loadSegment mem i).1 ↔
    e = .read (w64 (f.phoff + i * f.phentsize)) (f.phdr i).readTo ∨ ((f.phdr i).load ∧ (f.phdr i).valid f.size) ∧
      e ∈ (rounds ((f.phdr i).loadPage i (mem i)) (f.phdr i).pages).1 := by
  rw [loadSegment_eq, mem_cons]
  split
  · simp [*]
  · simp [*]

theorem countP_loadSegment {k : Nat} :
    (f.loadSegment mem k).1.countP (maps i) ≤ if k = i then (f.phdr i).pages else 0 := by
  rw [loadSegment_eq, countP_cons_of_neg (by simp [maps])]
  split
  · refine (countP_rounds_le fun j => countP_loadPage).trans ?_
    split
    next hk => simp [hk]
    · simp
  · exact Nat.zero_le _

theorem mem_trace (he : e ∈ (rounds (f.loadSegment mem) f.phnum).1) : ∃ i, f.Reached i ∧
    (e = .read (w64 (f.phoff + i * f.phentsize)) (f.phdr i).readTo ∨
      ((f.phdr i).load ∧ (f.phdr i).valid f.size) ∧ ∃ j < (f.phdr i).pages,
        (e ∈ (f.phdr i).copyIn ((f.phdr i).start + j * pageSize) ∨
          e = .map i ((f.phdr i).start + j * pageSize))) := by
  obtain ⟨i, hi, hdone, he⟩ := mem_rounds.mp he
  refine ⟨i, ⟨hi, fun k hk => loadSegment_accepted (hdone k hk)⟩, (mem_loadSegment.mp he).imp_right ?_⟩
  rintro ⟨hload, he⟩
  obtain ⟨j, hj, -, he⟩ := mem_rounds.mp he
  exact ⟨hload, j, hj, mem_loadPage he⟩

theorem bounded_of_inside (hfits : ∀ i, (f.phdr i).Fits) (hsize : f.size < 2 ^ 64)
    (h : ∀ i, f.Reached i → f.Inside i) : Bounded f (rounds (f.loadSegment mem) f.phnum).1 where
  reads pos len he := by
    obtain ⟨i, hi, heq | ⟨⟨hl, hv⟩, j, hj, hcopy | heq⟩⟩ := mem_trace he
    · obtain ⟨rfl, rfl⟩ := read.inj heq
      exact (range_inside (mod_lt _ (by decide)) hsize).mpr (.inr (h i hi).header)
    · exact ((valid_iff.mp hv).copied_inside (hfits i) hsize).mpr ((h i hi).data hl hv) j hj pos len hcopy
    · cases heq
  below k virt he := by
    obtain ⟨i, -, heq | ⟨⟨-, hv⟩, j, hj, hcopy | heq⟩⟩ := mem_trace he
    · cases heq
    · exact absurd (decide_eq_true rfl) (countP_eq_zero.mp (countP_copyIn (i := k)) (.map k virt) hcopy)
    · obtain ⟨rfl, rfl⟩ := map.inj heq
      exact (valid_iff.mp hv).page_below hj
  span i := by
    rcases Nat.eq_zero_or_pos ((rounds (f.loadSegment mem) f.phnum).1.countP (maps i)) with hzero | hpos
    · rw [hzero]
      exact Nat.zero_le _
    obtain ⟨e, he, hmaps⟩ := countP_pos_iff.mp hpos
    obtain ⟨k, hk, rfl | ⟨⟨hl, hv⟩, j, -, hcopy | rfl⟩⟩ := mem_trace he
    · cases hmaps
    · exact absurd hmaps (countP_eq_zero.mp countP_copyIn e hcopy)
    obtain rfl : k = i := of_decide_eq_true hmaps
    calc (rounds (f.loadSegment mem) f.phnum).1.countP (maps k)
      _ ≤ ∑ l ∈ Finset.range f.phnum, if l = k then (f.phdr k).pages else 0 :=
        countP_rounds_le fun _ => countP_loadSegment
      _ ≤ (f.phdr k).pages := by
        rw [Finset.sum_ite_eq']
        split <;> simp
      _ ≤ (f.phdr k).span := ((valid_iff.mp hv).pages_le_span (hfits k)).mpr ((h k hk).empty hl hv)

theorem Reached.inside (hi : f.Reached i) (hfits : (f.phdr i).Fits) (hsize : f.size < 2 ^ 64)
    (h : Bounded f (rounds (f.loadSegment fun _ _ => .mapped) f.phnum).1) : f.Inside i := by
  have hmem {e : ElfEvent} (he : e ∈ (f.loadSegment (fun _ _ => .mapped) i).1) :
      e ∈ (rounds (f.loadSegment fun _ _ => .mapped) f.phnum).1 :=
    mem_rounds.mpr ⟨i, hi.1, fun k hk => loadSegment_mapped (hi.2 k hk), he⟩
  have hpage (hl : (f.phdr i).load) (hv : (f.phdr i).valid f.size) {j : Nat} (hj : j < (f.phdr i).pages) :
      ∀ e ∈ (f.phdr i).copyIn ((f.phdr i).start + j * pageSize) ++ [.map i ((f.phdr i).start + j * pageSize)],
        e ∈ (rounds (f.loadSegment fun _ _ => .mapped) f.phnum).1 := fun e he =>
    hmem (mem_loadSegment.mpr (.inr ⟨⟨hl, hv⟩, mem_rounds.mpr ⟨j, hj, fun _ _ => rfl, he⟩⟩))
  refine ⟨?_, fun hl hv => ?_, fun hl hv => ?_⟩
  · have hread := h.reads _ _ (hmem (mem_loadSegment.mpr (.inl rfl)))
    refine ((range_inside (mod_lt _ (by decide)) hsize).mp hread).resolve_left ?_
    unfold readTo
    split
    · decide
    · split <;> decide
  · refine ((valid_iff.mp hv).copied_inside hfits hsize).mp fun j hj pos len hread => ?_
    exact h.reads pos len (hpage hl hv hj _ (mem_append_left _ hread))
  · by_contra hout
    have hlt := Nat.not_le.mp (mt ((valid_iff.mp hv).pages_le_span hfits).mp hout)
    have hspan : (f.phdr i).span = 0 := if_pos (Classical.not_imp.mp hout).1
    have hmap := hpage hl hv (zero_lt_of_lt hlt) _ (mem_append_right _ (mem_singleton_self _))
    have hpos := (countP_pos_iff (p := maps i)).mpr ⟨_, hmap, decide_eq_true rfl⟩
    have hle := h.span i
    omega

end ElfFile

variable {data : Buf} {size : Nat}

theorem readPhdr_fits (h : Nat) : (readPhdr data h).Fits := ⟨decode_lt data 8 _, decode_lt data 8 _⟩

theorem bounded_cons_read {f : ElfFile} {r : List ElfEvent} {pos len : Nat} :
    Bounded f (.read pos len :: r) ↔ (∀ k < len, w64 (pos + k) < f.size) ∧ Bounded f r := by
  have hcount (i : Nat) : (read pos len :: r).countP (maps i) = r.countP (maps i) := countP_cons_of_neg nofun
  constructor
  · rintro ⟨hreads, hbelow, hspan⟩
    exact ⟨hreads pos len mem_cons_self, fun _ _ he => hreads _ _ (mem_cons_of_mem _ he),
      fun _ _ he => hbelow _ _ (mem_cons_of_mem _ he), fun i => hcount i ▸ hspan i⟩
  · rintro ⟨hread, hreads, hbelow, hspan⟩
    refine ⟨fun _ _ he => ?_, fun i v he => ?_, fun i => (hcount i).symm ▸ hspan i⟩
    · obtain heq | he := mem_cons.mp he
      · obtain ⟨rfl, rfl⟩ := read.inj heq
        exact hread
      · exact hreads _ _ he
    · exact hbelow i v ((mem_cons.mp he).resolve_left nofun)

/-- `elf_load` stays in its bounds, whatever memory there is, exactly if each program header it comes to is inside. -/
theorem elfLoad_bounded_iff (machine : Nat) (data : Buf) (size : U64) : let f := readElf data size.toNat
    (∀ created mem, Bounded f (elfLoadTrace machine data size.toNat created mem).1) ↔
      (f.valid machine → ∀ i, f.Reached i → f.Inside i) := by
  intro f
  have hsize : f.size < 2 ^ 64 := size.isLt
  have hnil : Bounded f [] := ⟨nofun, nofun, fun _ => Nat.zero_le _⟩
  have hhead {r : List ElfEvent} (hlarge : ¬size.toNat < 64) (hr : Bounded f r) : Bounded f (.read 0 58 :: r) := by
    refine bounded_cons_read.mpr ⟨(range_inside (by decide) hsize).mpr (.inr ?_), hr⟩
    have : f.size = size.toNat := rfl
    omega
  constructor
  · intro h hv i hi
    have hlarge : ¬size.toNat < 64 := by
      simp only [ElfFile.valid, and_eq_true, decide_eq_true_eq] at hv
      exact Nat.not_lt.mpr hv.1.1.1.1.1.1.1.1
    have htrace := h true fun _ _ => .mapped
    rw [elfLoadTrace, if_neg hlarge, if_neg (by simpa using hv)] at htrace
    exact hi.inside (readPhdr_fits _) hsize (bounded_cons_read.mp htrace).2
  · intro h created mem
    unfold elfLoadTrace
    dsimp only
    split
    · exact hnil
    rename_i hlarge
    split
    · exact hhead hlarge hnil
    rename_i hv
    split
    · exact hhead hlarge hnil
    · exact hhead hlarge (ElfFile.bounded_of_inside (fun _ => readPhdr_fits _) hsize (h (by simpa using hv)))

def tinyElf : List UInt8 :=
  [0x7f, 0x45, 0x4c, 0x46, 2, 1, 0, 0, 0, 0, 0, 0, 0, 0, 0, 0, 2, 0, 0x3e, 0, 0, 0, 0, 0, 0, 0, 0, 0, 0, 0, 0, 0,
    64, 0, 0, 0, 0, 0, 0, 0, 0, 0, 0, 0, 0, 0, 0, 0, 0, 0, 0, 0, 0, 0, 0, 0, 1, 0, 0, 0, 0, 0, 0, 0]

/-- `p_type` of the header is read behind the end of the file. -/
theorem tinyElf_read_outside : let data := fun k => tinyElf.getD k 0
    tinyElf.length = 64 ∧ .read 64 4 ∈ (elfLoadTrace emX86_64 data 64 true fun _ _ => .mapped).1 ∧
      ¬Bounded (readElf data 64) (elfLoadTrace emX86_64 data 64 true fun _ _ => .mapped).1 := by
  intro data
  have hread : .read 64 4 ∈ (elfLoadTrace emX86_64 data 64 true fun _ _ => .mapped).1 := by decide +kernel
  exact ⟨rfl, hread, fun h => absurd (h.reads 64 4 hread 0 (by decide)) (by decide)⟩

end Limnx.Mem
