import Mathlib.Order.Interval.Finset.Nat
import Limnx.Pmm
import Limnx.Lib.GuardedRun

/-! Frames are free exactly if nobody holds them. -/

namespace Limnx
open GuardedRun Function List PmmState

namespace PmmState
variable {s : PmmState} {n lo hi a f i r b : Nat} {o o' : Option Nat}

/-- The frames from `a` on, `n` of them, are free. -/
def Free (s : PmmState) (a n : Nat) : Prop := ∀ f, a ≤ f → f < a + n → s.bitmap f = false

/-- There are `n` free frames in a row between `lo` and `hi`. -/
def HasRun (s : PmmState) (n lo hi : Nat) : Prop := ∃ a, lo ≤ a ∧ a + n ≤ hi ∧ s.Free a n

structure FirstRun (s : PmmState) (n lo hi a : Nat) : Prop where
  lo_le : lo ≤ a
  le_hi : a + n ≤ hi
  free : s.Free a n
  first : ∀ b, lo ≤ b → s.Free b n → a ≤ b

theorem FirstRun.hasRun (h : s.FirstRun n lo hi a) : s.HasRun n lo hi := ⟨a, h.lo_le, h.le_hi, h.free⟩

def Searched (s : PmmState) (n lo hi : Nat) : Option Nat → Prop
  | some a => s.FirstRun n lo hi a
  | none => ¬s.HasRun n lo hi

theorem firstClear_searched (lo hi : Nat) : s.Searched 1 lo hi (s.firstClear lo hi) := by
  cases h : s.firstClear lo hi with
  | none =>
    rintro ⟨a, hlo, hhi, hfree⟩
    have := find?_range'_eq_none.mp h a hlo (by omega)
    simp [hfree a le_rfl (by omega)] at this
  | some a =>
    obtain ⟨hclear, hmem, hfirst⟩ := find?_range'_eq_some.mp h
    rw [mem_range'_1] at hmem
    refine ⟨hmem.1, by omega, fun f hlow hhigh => ?_, fun b hlo hb => ?_⟩
    · obtain rfl : f = a := by omega
      simpa using hclear
    · by_contra hba
      have := hfirst b hlo (by omega)
      simp [hb b le_rfl (by omega)] at this

theorem scan_searched {count : Nat} (hrun : r < count) (hle : r ≤ i) (hstart : r ≠ 0 → b = i - r)
    (hfree : s.Free (i - r) r) : s.Searched count (i - r) (i + n) (s.scan count n i r b) := by
  induction n generalizing i r b with
  | zero =>
    rintro ⟨a, hlo, hhi, -⟩
    omega
  | succ n ih =>
    rw [scan, show i + (n + 1) = i + 1 + n by omega]
    split
    next hset =>
      -- A run that starts at `i` or before would contain `i`.
      have hskip : ∀ c, i - r ≤ c → s.Free c count → i + 1 ≤ c := fun c hlo hb => by
        by_contra hbi
        have := hb i (by omega) (by omega)
        simp [hset] at this
      have := ih (i := i + 1) (b := b) (by omega) (Nat.zero_le _) (by simp) fun f hlow hhigh => by omega
      cases ho : s.scan count n (i + 1) 0 b with
      | none =>
        rw [ho] at this
        rintro ⟨c, hlo, hhi, hb⟩
        exact this ⟨c, hskip c hlo hb, hhi, hb⟩
      | some a =>
        rw [ho] at this
        obtain ⟨hlo, hhi, ha, hfirst⟩ := this
        exact ⟨by omega, hhi, ha, fun c hlo hb => hfirst c (hskip c hlo hb) hb⟩
    next hclear =>
      have hgrown : s.Free (i - r) (r + 1) := fun f hlow hhigh => by
        rcases Nat.lt_or_ge f i with hfi | hfi
        · exact hfree f hlow (by omega)
        · obtain rfl : f = i := by omega
          simpa using hclear
      have hstart' : (if r = 0 then i else b) = i - r := by
        split
        · omega
        · exact hstart ‹_›
      rw [hstart']
      split
      next hcount => exact ⟨le_rfl, by omega, hcount ▸ hgrown, fun c hlo _ => hlo⟩
      have hsub : i + 1 - (r + 1) = i - r := by omega
      have := ih (i := i + 1) (r := r + 1) (b := i - r) (by omega) (by omega) (fun _ => hsub.symm)
        (hsub.symm ▸ hgrown)
      rwa [hsub] at this

theorem search_searched (hn : 0 < n) (lo hi : Nat) : s.Searched n lo hi (s.scan n (hi - lo) lo 0 0) := by
  rcases Nat.le_total lo hi with hle | hle
  · have := scan_searched (s := s) (n := hi - lo) (b := 0) hn (Nat.zero_le lo) (by simp) fun f hlow hhigh => by omega
    rwa [Nat.sub_zero, Nat.add_sub_cancel' hle] at this
  rw [Nat.sub_eq_zero_of_le hle]
  rintro ⟨a, hlo, hhi, -⟩
  omega

def took (s : PmmState) (a n : Nat) : PmmState :=
  { s with
    bitmap := fun f => decide (a ≤ f ∧ f < a + n) || s.bitmap f
    refcounts := fun f => if a ≤ f ∧ f < a + n then 1 else s.refcounts f
    freePages := s.freePages - BitVec.ofNat 64 n
    hint := a + n }

theorem foldl_takeFrame (s : PmmState) (a n : Nat) :
    { (range' a n).foldl takeFrame s with hint := a + n } = s.took a n := by
  induction n generalizing s a with
  | zero =>
    have hno : ∀ f, ¬(a ≤ f ∧ f < a) := fun f => by omega
    simp [took, hno]
  | succ n ih =>
    have hin : ∀ f, (a + 1 ≤ f ∧ f < a + 1 + n) ∨ f = a ↔ a ≤ f ∧ f < a + (n + 1) := fun f => by omega
    rw [range'_succ, foldl_cons, show a + (n + 1) = a + 1 + n by omega, ih, took, took]
    simp only [takeFrame, mk.injEq, true_and]
    refine ⟨funext fun f => ?_, funext fun f => ?_, by bv_omega⟩
    · rcases eq_or_ne f a with rfl | hne
      · simp
      · simp only [← hin f, update_of_ne hne, hne, or_false]
    · rcases eq_or_ne f a with rfl | hne
      · simp
      · simp only [← hin f, update_of_ne hne, hne, or_false]

theorem Searched.or {lo' hi' : Nat} (h : s.Searched n lo hi o) (h' : s.Searched n lo' hi' o') :
    (∃ a, o.or o' = some a ∧ (s.FirstRun n lo hi a ∨ ¬s.HasRun n lo hi ∧ s.FirstRun n lo' hi' a)) ∨
      o.or o' = none ∧ ¬s.HasRun n lo hi ∧ ¬s.HasRun n lo' hi' := by
  cases o with
  | some a => exact .inl ⟨a, rfl, .inl h⟩
  | none =>
    cases o' with
    | some a => exact .inl ⟨a, rfl, .inr ⟨h, h'⟩⟩
    | none => exact .inr ⟨rfl, h, h'⟩

/-- Frame 0 is not found as a single free frame. -/
def GuardsZero (s : PmmState) (n : Nat) : Prop := n = 1 → s.hint = 0 → 0 < s.total → s.bitmap 0 = true

theorem firstClear_begin (h0 : s.GuardsZero 1) : s.firstClear s.hint s.total = s.firstClear s.begin s.total := by
  rw [begin]
  split
  · rfl
  rename_i hpos
  obtain hz : s.hint = 0 := by omega
  rcases Nat.eq_zero_or_pos s.total with ht | ht
  · rw [hz, ht]
    rfl
  rw [hz, firstClear, firstClear, Nat.sub_zero, ← Nat.sub_add_cancel ht, range'_succ,
    find?_cons_of_neg (by simp [h0 rfl hz ht])]
  rfl

theorem firstClear_before : s.firstClear 1 s.hint = s.firstClear 1 s.begin := by
  rw [begin]
  split
  · rfl
  obtain hz : s.hint = 0 := by omega
  rw [hz]
  rfl

theorem contiguous_cases (hn : 1 ≤ n) (h0 : s.GuardsZero n) :
    (∃ a, (s.FirstRun n s.begin s.total a ∨ ¬s.HasRun n s.begin s.total ∧ s.FirstRun n 1 s.begin a) ∧
        s.pmmAllocContiguous n = (a, s.took a n)) ∨
      ¬s.HasRun n s.begin s.total ∧ ¬s.HasRun n 1 s.begin ∧ s.pmmAllocContiguous n = (0, s) := by
  rw [pmmAllocContiguous, if_neg (by omega)]
  split
  next hone =>
    subst hone
    rw [pmmAllocPage, firstClear_begin h0, firstClear_before]
    obtain ⟨a, ho, ha⟩ | ⟨ho, hno, hno'⟩ := (firstClear_searched s.begin s.total).or (firstClear_searched 1 s.begin)
    · rw [ho]
      exact .inl ⟨a, ha, by rw [← foldl_takeFrame]; rfl⟩
    · rw [ho]
      exact .inr ⟨hno, hno', rfl⟩
  · have hif : (if 1 < s.begin then s.scan n (s.begin - 1) 1 0 0 else none) = s.scan n (s.begin - 1) 1 0 0 := by
      split
      · rfl
      · rw [Nat.sub_eq_zero_of_le (by omega)]
        rfl
    rw [hif]
    obtain ⟨a, ho, ha⟩ | ⟨ho, hno, hno'⟩ := (search_searched hn s.begin s.total).or (search_searched hn 1 s.begin)
    · rw [ho]
      exact .inl ⟨a, ha, by rw [← foldl_takeFrame]⟩
    · rw [ho]
      exact .inr ⟨hno, hno', rfl⟩

theorem begin_pos : 1 ≤ s.begin := by
  rw [begin]
  split <;> omega

/-- If there are `n` free frames in a row, they are found, marked used with one reference, and `free_pages` drops by
    `n`; if there are not, the answer is 0 and nothing changes. -/
def Completes (s : PmmState) (n : Nat) (r : Nat × PmmState) : Prop :=
  (s.HasRun n 1 s.total → 1 ≤ r.1 ∧ r.1 + n ≤ s.total ∧ s.Free r.1 n ∧ r.2 = s.took r.1 n) ∧
    (¬s.HasRun n 1 s.total → r = (0, s))

/-- A contiguous allocation is complete exactly if a run (where there is one) lies wholly on one side of the hint, no
    run is found past the last frame, and frame 0 is not taken for a free one. -/
theorem pmmAllocContiguous_completes_iff (hn : 1 ≤ n) :
    s.Completes n (s.pmmAllocContiguous n) ↔ s.GuardsZero n ∧
      (s.HasRun n 1 s.total → s.HasRun n s.begin s.total ∨ s.HasRun n 1 s.begin) ∧
      (s.HasRun n 1 s.begin → s.HasRun n 1 s.total) := by
  constructor
  · intro h
    have h0 : s.GuardsZero n := by
      rintro rfl hz ht
      by_contra hclear
      have hres : s.pmmAllocContiguous 1 = (0, { s.takeFrame 0 with hint := 1 }) := by
        rw [pmmAllocContiguous, if_neg (by decide), if_pos rfl, pmmAllocPage, hz, firstClear, Nat.sub_zero,
          ← Nat.sub_add_cancel ht, range'_succ, find?_cons_of_pos (by simpa using hclear)]
        rfl
      rw [hres] at h
      rcases Classical.em (s.HasRun 1 1 s.total) with hrun | hrun
      · exact absurd (h.1 hrun).1 (Nat.not_succ_le_zero 0)
      have := congrArg (fun r : Nat × PmmState => r.2.bitmap 0) (h.2 hrun)
      have hset : (s.takeFrame 0).bitmap 0 = true := by simp [takeFrame]
      exact hclear (this.symm.trans hset)
    refine ⟨h0, fun hrun => ?_, fun hrun => ?_⟩
    · obtain ⟨a, ha, -⟩ | ⟨-, -, hres⟩ := contiguous_cases hn h0
      · exact ha.imp FirstRun.hasRun fun h => h.2.hasRun
      · rw [hres] at h
        exact absurd (h.1 hrun).1 (Nat.not_succ_le_zero 0)
    · by_contra hno
      obtain ⟨a, ha, hres⟩ | ⟨-, hno', -⟩ := contiguous_cases hn h0
      · rw [hres] at h
        have ha0 : a = 0 := congrArg Prod.fst (h.2 hno)
        have := begin_pos (s := s)
        rcases ha with ha | ⟨-, ha⟩ <;> have := ha.lo_le <;> omega
      · exact hno' hrun
  · rintro ⟨h0, hsplit, hpast⟩
    have hbegin := begin_pos (s := s)
    obtain ⟨a, ha, hres⟩ | ⟨hno, hno', hres⟩ := contiguous_cases hn h0
    · rw [hres]
      have hrun : s.HasRun n 1 s.total := by
        rcases ha with ha | ⟨-, ha⟩
        · exact ⟨a, Nat.le_trans hbegin ha.lo_le, ha.le_hi, ha.free⟩
        · exact hpast ha.hasRun
      refine ⟨fun _ => ?_, fun hno => absurd hrun hno⟩
      rcases ha with ha | ⟨-, ha⟩
      · exact ⟨Nat.le_trans hbegin ha.lo_le, ha.le_hi, ha.free, rfl⟩
      obtain ⟨b, hlo, hhi, hb⟩ := hrun
      have := ha.first b hlo hb
      exact ⟨ha.lo_le, by omega, ha.free, rfl⟩
    · rw [hres]
      exact ⟨fun hrun => ((hsplit hrun).elim hno hno').elim, fun _ => rfl⟩

def splitRun : PmmState := ⟨8, fun f => !(f == 3 || f == 4), fun _ => 1, 2, 4⟩

def wholeRun : PmmState := { splitRun with bitmap := fun f => !(f == 5 || f == 6) }

theorem wholeRun_completes : wholeRun.Completes 2 (wholeRun.pmmAllocContiguous 2) := by
  have hrun (lo : Nat) (hlo : lo ≤ 5) : wholeRun.HasRun 2 lo 8 := ⟨5, hlo, by decide, fun f hlow hhigh => by
    obtain rfl | rfl : f = 5 ∨ f = 6 := by omega
    all_goals rfl⟩
  exact (pmmAllocContiguous_completes_iff (by decide)).mpr ⟨fun h => absurd h (by decide),
    fun _ => .inl (hrun _ (by decide)), fun _ => hrun 1 (by decide)⟩

theorem splitRun_not_completes : ¬splitRun.Completes 2 (splitRun.pmmAllocContiguous 2) := by
  have hrun : splitRun.HasRun 2 1 8 := ⟨3, by decide, by decide, fun f hlow hhigh => by
    obtain rfl | rfl : f = 3 ∨ f = 4 := by omega
    all_goals rfl⟩
  intro h
  have := (h.1 hrun).1
  exact absurd this (by decide)

@[simp] theorem mem_clearFrames : f ∈ s.clearFrames ↔ f < s.total ∧ s.bitmap f = false := by simp [clearFrames]

theorem clearFrames_card_le : s.clearFrames.card ≤ s.total := by
  have := Finset.card_filter_le (Finset.range s.total) fun f => s.bitmap f = false
  rwa [Finset.card_range] at this

structure Counted (s : PmmState) : Prop where
  total_lt : s.total < 2 ^ 64
  pages : s.freePages.toNat = s.clearFrames.card

theorem Counted.took (h : s.Counted) (hle : a + n ≤ s.total) (hfree : s.Free a n) : (s.took a n).Counted := by
  have hclear : (s.took a n).clearFrames = s.clearFrames \ Finset.Ico a (a + n) := by
    ext f
    simp [PmmState.took, and_assoc, and_comm]
  have hsub : Finset.Ico a (a + n) ⊆ s.clearFrames := fun f hf => by
    obtain ⟨hlow, hhigh⟩ := Finset.mem_Ico.mp hf
    exact mem_clearFrames.mpr ⟨by omega, hfree f hlow hhigh⟩
  have hn := Finset.card_le_card hsub
  have hcard := Finset.card_sdiff_of_subset hsub
  rw [Nat.card_Ico, Nat.add_sub_cancel_left] at hcard hn
  refine ⟨h.total_lt, ?_⟩
  rw [hclear, hcard, ← h.pages]
  rw [← h.pages] at hn
  simp only [PmmState.took]
  bv_omega

theorem Counted.clear {c : Nat → U16} {t : PmmState} (h : s.Counted) (hset : s.bitmap f) (hlt : f < s.total)
    (ht : t = { s with bitmap := update s.bitmap f false, refcounts := c, freePages := s.freePages + 1 }) : t.Counted := by
  have hclear : t.clearFrames = insert f s.clearFrames := by
    subst ht
    ext g
    rcases eq_or_ne g f with rfl | hne <;> simp [*]
  have hle := clearFrames_card_le (s := t)
  have hcard := Finset.card_insert_of_notMem (show f ∉ s.clearFrames by simp [hset])
  rw [hclear, hcard, ← h.pages] at hle
  subst ht
  have hlt := h.total_lt
  refine ⟨hlt, ?_⟩
  rw [hclear, hcard, ← h.pages]
  bv_omega

theorem takeFrame_eq (s : PmmState) (f : Nat) : s.takeFrame f = { s.took f 1 with hint := s.hint } := by
  rw [← foldl_takeFrame]
  rfl

/-- What `pmm_init` is to leave. -/
structure Initial (s : PmmState) : Prop where
  counted : s.Counted
  zero : s.bitmap 0 = true
  counts : ∀ f, 1 ≤ f → f < s.total → s.refcounts f = if s.bitmap f then 1 else 0
  hint : s.hint = 1

end PmmState

/-! ### References -/

inductive PmmOp where
  | allocPage
  | allocContiguous (n : Nat)
  | markUsed (f : Nat)
  | refInc (f : Nat)
  | refDec (f : Nat)
  | freePage (f : Nat)
  deriving DecidableEq

structure PmmSys where
  pmm : PmmState
  refs : Nat → Nat

namespace PmmSys
variable {s : PmmSys} {n a f k : Nat} {op : PmmOp} {ops : List PmmOp}

def Valid (s : PmmSys) (f : Nat) : Prop := 1 ≤ f ∧ f < s.pmm.total

instance : Decidable (s.Valid f) := inferInstanceAs (Decidable (_ ∧ _))

def start (p : PmmState) : PmmSys := ⟨p, fun f => if 1 ≤ f ∧ f < p.total ∧ p.bitmap f then 1 else 0⟩

def gain (s : PmmSys) (l : List Nat) (f : Nat) : Nat := if f ∈ l then s.refs f + 1 else s.refs f

def frames (s : PmmSys) : PmmOp → List Nat
  | .allocPage => if s.pmm.pmmAllocPage.1 = 0 then [] else [s.pmm.pmmAllocPage.1]
  | .allocContiguous n =>
    if (s.pmm.pmmAllocContiguous n).1 = 0 then [] else range' (s.pmm.pmmAllocContiguous n).1 n
  | _ => []

def step (s : PmmSys) (op : PmmOp) : PmmSys :=
  match op with
  | .allocPage => ⟨s.pmm.pmmAllocPage.2, s.gain (s.frames op)⟩
  | .allocContiguous n => ⟨(s.pmm.pmmAllocContiguous n).2, s.gain (s.frames op)⟩
  | .markUsed f => ⟨s.pmm.pmmMarkUsed f, if s.Valid f ∧ s.refs f = 0 then s.gain [f] else s.refs⟩
  | .refInc f => ⟨s.pmm.pmmRefInc f, if s.Valid f then s.gain [f] else s.refs⟩
  | .refDec f => ⟨(s.pmm.pmmRefDec f).2, update s.refs f (s.refs f - 1)⟩
  | .freePage f => ⟨s.pmm.pmmFreePage f, update s.refs f (s.refs f - 1)⟩

/-- References are dropped by their holders, and no frame gets more than 65535. -/
def Held (s : PmmSys) : PmmOp → Prop
  | .refInc f => s.Valid f → s.refs f < 65535
  | .refDec f | .freePage f => s.refs f ≠ 0
  | _ => True

instance : DecidablePred s.Held := fun op => by cases op <;> unfold Held <;> infer_instance

/-- A frame without references gets none by `pmm_ref_inc`, and `pmm_ref_dec` does not drop the last one. -/
def Shares (s : PmmSys) : PmmOp → Prop
  | .refInc f => s.Valid f → s.refs f ≠ 0
  | .refDec f => s.refs f ≠ 1
  | _ => True

instance : DecidablePred s.Shares := fun op => by cases op <;> unfold Shares <;> infer_instance

/-- The bitmap and the counts say which references there are. -/
structure Sound (s : PmmSys) : Prop where
  counted : s.pmm.Counted
  zero : s.pmm.bitmap 0 = true
  valid : ∀ f, s.refs f ≠ 0 → s.Valid f
  bits : ∀ f, s.Valid f → (s.pmm.bitmap f = false ↔ s.refs f = 0)
  counts : ∀ f, s.Valid f → (s.pmm.refcounts f).toNat = s.refs f
  hint_pos : 1 ≤ s.pmm.hint
  hint_le : s.pmm.hint = 1 ∨ s.pmm.hint ≤ s.pmm.total

theorem Sound.start {p : PmmState} (h : p.Initial) : (start p).Sound where
  counted := h.counted
  zero := h.zero
  valid f hf := by
    simp only [PmmSys.start] at hf
    split at hf
    next hv => exact ⟨hv.1, hv.2.1⟩
    · exact absurd rfl hf
  bits f hf := by
    have hf' : 1 ≤ f ∧ f < p.total := hf
    simp [PmmSys.start, hf']
  counts f hf := by
    have hf' : 1 ≤ f ∧ f < p.total := hf
    simp only [PmmSys.start, h.counts f hf.1 hf.2, hf', true_and]
    split <;> rfl
  hint_pos := h.hint.ge
  hint_le := .inl h.hint

section
variable (h : s.Sound)
include h

theorem Sound.took (ha : 1 ≤ a) (hle : a + n ≤ s.pmm.total) (hfree : s.pmm.Free a n) (hk : 1 ≤ k)
    (hk' : k = 1 ∨ k ≤ s.pmm.total) : Sound ⟨{ s.pmm.took a n with hint := k }, s.gain (range' a n)⟩ := by
  have hin : ∀ f, f ∈ range' a n ↔ a ≤ f ∧ f < a + n := fun f => mem_range'_1
  have hzero : ∀ f, a ≤ f ∧ f < a + n → s.refs f = 0 := fun f hf =>
    (h.bits f ⟨by omega, by omega⟩).mp (hfree f hf.1 hf.2)
  have hcounted := h.counted.took hle hfree
  refine ⟨⟨hcounted.1, hcounted.2⟩, ?_, fun f hf => ?_, fun f hf => ?_, fun f hf => ?_, hk, hk'⟩
  · simp [PmmState.took, h.zero]
  · simp only [gain, hin] at hf
    split at hf
    · exact ⟨by omega, by dsimp only [PmmState.took]; omega⟩
    · exact h.valid f hf
  · have := h.bits f hf
    simp only [PmmState.took, gain, hin]
    split <;> simp [*]
  · have := h.counts f hf
    simp only [PmmState.took, gain, hin]
    split
    · rw [hzero f ‹_›]
      rfl
    · exact this

theorem begin_eq : s.pmm.begin = s.pmm.hint := if_pos h.hint_pos

omit h in
theorem frames_cases (s : PmmSys) (op : PmmOp) : s.frames op = [] ∨
    ∃ n, s.frames op = s.frames (.allocContiguous n) ∧ s.step op = s.step (.allocContiguous n) := by
  cases op with
  | allocPage => exact .inr ⟨1, rfl, rfl⟩
  | allocContiguous n => exact .inr ⟨n, rfl, rfl⟩
  | markUsed | refInc | refDec | freePage => exact .inl rfl

omit h in
@[simp] theorem gain_nil : s.gain [] = s.refs := rfl

theorem Sound.alloc_cases (n : Nat) :
    (∃ a, 1 ≤ a ∧ a + n ≤ s.pmm.total ∧ s.pmm.Free a n ∧ s.frames (.allocContiguous n) = range' a n ∧
        s.step (.allocContiguous n) = ⟨s.pmm.took a n, s.gain (range' a n)⟩) ∨
      s.frames (.allocContiguous n) = [] ∧ s.step (.allocContiguous n) = s ∧
        (n = 1 → ¬s.pmm.HasRun 1 s.pmm.hint s.pmm.total ∧ ¬s.pmm.HasRun 1 1 s.pmm.hint) := by
  rcases Nat.eq_zero_or_pos n with rfl | hn
  · exact .inr ⟨rfl, rfl, fun h => absurd h (by decide)⟩
  obtain ⟨a, ha, hres⟩ | ⟨hno, hno', hres⟩ := contiguous_cases hn fun _ _ _ => h.zero
  · rw [begin_eq h] at ha
    have ha' : 1 ≤ a ∧ a + n ≤ s.pmm.total ∧ s.pmm.Free a n := by
      have hpos := h.hint_pos
      have hle := h.hint_le
      rcases ha with ha | ⟨-, ha⟩
      · exact ⟨Nat.le_trans hpos ha.lo_le, ha.le_hi, ha.free⟩
      have := ha.lo_le
      have := ha.le_hi
      exact ⟨ha.lo_le, by omega, ha.free⟩
    have hframes : s.frames (.allocContiguous n) = range' a n := by
      rw [frames, hres, if_neg (by dsimp only; omega)]
    refine .inl ⟨a, ha'.1, ha'.2.1, ha'.2.2, hframes, ?_⟩
    rw [step, hframes, hres]
  · rw [begin_eq h] at hno hno'
    have hframes : s.frames (.allocContiguous n) = [] := by rw [frames, hres, if_pos rfl]
    refine .inr ⟨hframes, by rw [step, hframes, hres, gain_nil], ?_⟩
    rintro rfl
    exact ⟨hno, hno'⟩

theorem Sound.alloc (n : Nat) : (s.step (.allocContiguous n)).Sound := by
  obtain ⟨a, ha, hle, hfree, -, hstep⟩ | ⟨-, hstep, -⟩ := h.alloc_cases n
  · rw [hstep]
    exact h.took ha hle hfree (by omega) (.inr hle)
  · rwa [hstep]

theorem Sound.setCount {c : U16} (hf : s.Valid f) (hheld : s.refs f ≠ 0) (hc : c ≠ 0) :
    Sound ⟨{ s.pmm with refcounts := update s.pmm.refcounts f c }, update s.refs f c.toNat⟩ := by
  have hc' : c.toNat ≠ 0 := fun h => hc (by bv_omega)
  refine { h with
    counted := ⟨h.counted.1, h.counted.2⟩, valid := fun g hg => ?_, bits := fun g hg => ?_, counts := fun g hg => ?_ }
  all_goals rcases eq_or_ne g f with rfl | hne
  · exact hf
  · exact h.valid g (by simpa [hne] using hg)
  · simpa [hc'] using (not_congr (h.bits g hf)).mpr hheld
  · simpa [hne] using h.bits g hg
  · simp
  · simpa [hne] using h.counts g hg

theorem Sound.release (hf : s.Valid f) (hheld : s.refs f ≠ 0) :
    Sound ⟨{ s.pmm with
      refcounts := update s.pmm.refcounts f 0
      bitmap := update s.pmm.bitmap f false
      freePages := s.pmm.freePages + 1 }, update s.refs f 0⟩ := by
  have hset : s.pmm.bitmap f := by
    have := (h.bits f hf).not.mpr hheld
    simpa using this
  obtain ⟨hpos, hlt⟩ := hf
  refine { h with
    counted := h.counted.clear hset hlt rfl, zero := ?_, valid := fun g hg => ?_, bits := fun g hg => ?_,
    counts := fun g hg => ?_ }
  · exact (update_of_ne (by omega) ..).trans h.zero
  · rcases eq_or_ne g f with rfl | hne
    · exact ⟨hpos, hlt⟩
    · exact h.valid g (by simpa [hne] using hg)
  · rcases eq_or_ne g f with rfl | hne
    · simp
    · simpa [hne] using h.bits g hg
  · rcases eq_or_ne g f with rfl | hne
    · simp
    · simpa [hne] using h.counts g hg

theorem Sound.step (hheld : s.Held op) (hshares : s.Shares op) : (s.step op).Sound := by
  cases op with
  | allocPage => exact h.alloc 1
  | allocContiguous n => exact h.alloc n
  | markUsed f =>
    simp only [PmmSys.step, pmmMarkUsed]
    rcases Classical.em (s.Valid f) with hf | hf
    · have hno : ¬(f = 0 ∨ s.pmm.total ≤ f) := by
        have := hf.1
        have := hf.2
        omega
      rw [if_neg hno]
      cases hb : s.pmm.bitmap f with
      | true => simpa [hf, (h.bits f hf).not.mp (by simp [hb])] using h
      | false =>
        rw [if_neg (by simp), if_pos ⟨hf, (h.bits f hf).mp hb⟩, takeFrame_eq]
        refine h.took (n := 1) hf.1 hf.2 (fun g hlow hhigh => ?_) h.hint_pos h.hint_le
        obtain rfl : g = f := by omega
        exact hb
    · have hno : f = 0 ∨ s.pmm.total ≤ f := by
        simp only [Valid] at hf
        omega
      rw [if_pos hno, if_neg fun hv => hf hv.1]
      exact h
  | refInc f =>
    simp only [PmmSys.step, pmmRefInc]
    rcases Classical.em (s.Valid f) with hf | hf
    · have hcount := h.counts f hf
      have hlt := hheld hf
      have hgain : s.gain [f] = update s.refs f (s.pmm.refcounts f + 1).toNat := by
        funext g
        rcases eq_or_ne g f with rfl | hne
        · rw [update_self]
          simp only [gain, mem_singleton, if_true]
          bv_omega
        · simp [gain, hne]
      rw [if_pos hf, if_pos (show 0 < f ∧ f < s.pmm.total from hf), hgain]
      exact h.setCount hf (hshares hf) (by bv_omega)
    · rw [if_neg hf, if_neg (show ¬(0 < f ∧ f < s.pmm.total) from hf)]
      exact h
  | refDec f =>
    have hf := h.valid f hheld
    have hcount := h.counts f hf
    have hheld' : s.refs f ≠ 0 := hheld
    have hshares' : s.refs f ≠ 1 := hshares
    have hno : ¬(f = 0 ∨ s.pmm.total ≤ f) := by
      have := hf.1
      have := hf.2
      omega
    simp only [PmmSys.step, pmmRefDec]
    rw [if_neg hno, if_pos (by bv_omega), show s.refs f - 1 = (s.pmm.refcounts f - 1).toNat by bv_omega]
    exact h.setCount hf hheld (by bv_omega)
  | freePage f =>
    have hf := h.valid f hheld
    have hcount := h.counts f hf
    have hset : s.pmm.bitmap f := by
      have := (h.bits f hf).not.mpr hheld
      simpa using this
    have hpos := hf.1
    simp only [PmmSys.step, pmmFreePage]
    rw [if_neg (by omega), if_neg (by simp [hset])]
    split
    next hmore =>
      rw [show s.refs f - 1 = (s.pmm.refcounts f - 1).toNat by bv_omega]
      exact h.setCount hf hheld (by bv_omega)
    · rw [show s.refs f - 1 = 0 by bv_omega]
      exact h.release hf hheld

end

/-- A frame is free exactly if it has no references, and allocations hand out such frames while there are any. -/
structure Exact (s : PmmSys) : Prop where
  clear : ∀ f, f ∈ s.pmm.clearFrames ↔ s.Valid f ∧ s.refs f = 0
  count : s.pmm.freePages.toNat = s.pmm.clearFrames.card
  nodup : ∀ op, (s.frames op).Nodup
  unheld : ∀ op, ∀ f ∈ s.frames op, s.Valid f ∧ s.refs f = 0 ∧ (s.step op).pmm.refcounts f = 1
  fails : s.frames .allocPage = [] → ∀ f, f ∉ s.pmm.clearFrames

theorem Sound.exact (h : s.Sound) : s.Exact where
  clear f := by
    rw [mem_clearFrames]
    constructor
    · rintro ⟨hlt, hclear⟩
      have hne : f ≠ 0 := by
        rintro rfl
        simp [h.zero] at hclear
      have hf : s.Valid f := ⟨Nat.pos_of_ne_zero hne, hlt⟩
      exact ⟨hf, (h.bits f hf).mp hclear⟩
    · rintro ⟨hf, hrefs⟩
      exact ⟨hf.2, (h.bits f hf).mpr hrefs⟩
  count := h.counted.pages
  nodup op := by
    obtain hno | ⟨n, heq, -⟩ := s.frames_cases op
    · simp [hno]
    obtain ⟨a, -, -, -, hframes, -⟩ | ⟨hframes, -⟩ := h.alloc_cases n
    · rw [heq, hframes]
      exact nodup_range'
    · simp [heq, hframes]
  unheld op f hmem := by
    obtain hno | ⟨n, heq, hstep⟩ := s.frames_cases op
    · simp [hno] at hmem
    rw [heq] at hmem
    obtain ⟨a, ha, hle, hfree, hframes, htook⟩ | ⟨hframes, -⟩ := h.alloc_cases n
    · rw [hframes, mem_range'_1] at hmem
      have hf : s.Valid f := ⟨by omega, by omega⟩
      exact ⟨hf, (h.bits f hf).mp (hfree f hmem.1 hmem.2), by simp [hstep, htook, PmmState.took, hmem]⟩
    · simp [hframes] at hmem
  fails hno f hmem := by
    obtain ⟨hlt, hclear⟩ := mem_clearFrames.mp hmem
    have hne : f ≠ 0 := by
      rintro rfl
      simp [h.zero] at hclear
    obtain ⟨a, -, -, -, hframes, -⟩ | ⟨-, -, hrun⟩ := h.alloc_cases 1
    · exact absurd (hframes.symm.trans hno) (by simp)
    have hfree : s.pmm.Free f 1 := fun g hlow hhigh => by
      obtain rfl : g = f := by omega
      exact hclear
    rcases Nat.lt_or_ge f s.pmm.hint with hlo | hlo
    · exact (hrun rfl).2 ⟨f, by omega, by omega, hfree⟩
    · exact (hrun rfl).1 ⟨f, hlo, by omega, hfree⟩

/-- In every run in which `pmm_ref_inc` shares held frames and `pmm_ref_dec` does not drop a last reference, the
    allocator gives out exactly the frames without references. -/
theorem frames_without_references {p : PmmState} (hp : p.Initial)
    (hops : Guarded step (fun s op => s.Held op ∧ s.Shares op) (start p) ops) : (run step (start p) ops).Exact :=
  (hops.invariant (fun _ _ h hop => h.step hop.1 hop.2) (Sound.start hp)).exact

def smallPmm : PmmState := ⟨5, fun f => f ≤ 1, fun f => if f = 1 then 1 else 0, 3, 1⟩

theorem smallPmm_initial : smallPmm.Initial := ⟨⟨by decide, by decide⟩, rfl, by decide +revert, rfl⟩

theorem frames_without_references_small :
    (run step (start smallPmm) [.allocContiguous 2, .refInc 2, .refDec 2, .freePage 2, .markUsed 4]).Exact :=
  frames_without_references smallPmm_initial (by decide)

theorem frame_lost_by_refDec : Guarded step Held (start smallPmm) [.allocPage, .refDec 2] ∧
    ¬(run step (start smallPmm) [.allocPage, .refDec 2]).Exact := by
  refine ⟨by decide, fun h => ?_⟩
  have := (h.clear 2).mpr
  exact absurd this (by decide)

end PmmSys
end Limnx
