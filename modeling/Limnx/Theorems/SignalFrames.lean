import Limnx.Theorems.SignalSteps

/-! # Signal frames in memory

A frame is read back as it was written if it lies inside one page and the pages of the stack are different frames. -/

open List

namespace Limnx.Signals
open Function

instance (priority := 2000) decidableForallFrame (frames : List U64) (P : U64 → Prop) [DecidablePred P] :
    Decidable (∀ f ∈ frames, P f) := List.decidableBAll P frames

/-- The frame at `f` lies inside one page of user space, at an aligned address. -/
@[mk_iff]
structure Fits (arch : Arch) (f : U64) : Prop where
  user : f.toNat < userAddrMax
  page : f.toNat % pageSize + 8 * arch.frameLen ≤ pageSize
  aligned : f.toNat % 8 = 0

instance (arch : Arch) (f : U64) : Decidable (Fits arch f) := decidable_of_iff' _ (fits_iff arch f)

theorem toNat_frameAddr_le {arch : Arch} {sp : U64} (h : 8 * arch.frameLen ≤ sp.toNat) :
    (frameAddr arch sp).toNat + 8 * arch.frameLen ≤ sp.toNat := by
  have hlen : 8 * arch.frameLen < 2 ^ 64 := by cases arch <;> decide
  have hand : (frameAddr arch sp).toNat ≤ (sp - BitVec.ofNat 64 (8 * arch.frameLen)).toNat := by
    exact Nat.and_le_left
  rw [BitVec.toNat_sub, BitVec.toNat_ofNat, Nat.mod_eq_of_lt hlen] at hand
  omega

namespace SigState
variable {s t u : SigState} {alloc : Option Nat} {f : U64}

def KeepsFrame (s t : SigState) (f : U64) : Prop :=
  ∀ w ∈ s.readFrame f, ∃ w' ∈ t.readFrame f, ∀ i < s.arch.frameLen, w' i = w i

instance (s t : SigState) (f : U64) : Decidable (KeepsFrame s t f) := by
  unfold KeepsFrame
  infer_instance

theorem KeepsFrame.refl (s : SigState) (f : U64) : KeepsFrame s s f := fun w h => ⟨w, h, fun _ _ => rfl⟩

theorem readFrame_of_page {p : UserPage} (hp : s.pages (pageOf f.toNat) = some p) :
    s.readFrame f = some fun i => s.mem ((p.phys + f.toNat % pageSize) / 8 + i) := by
  unfold readFrame wordAddr
  rw [hp]
  rfl

theorem page_of_readFrame {w : Nat → U64} (h : s.readFrame f = some w) :
    ∃ p, s.pages (pageOf f.toNat) = some p ∧ w = fun i => s.mem ((p.phys + f.toNat % pageSize) / 8 + i) := by
  cases hp : s.pages (pageOf f.toNat) with
  | none =>
    unfold readFrame wordAddr at h
    rw [hp] at h
    cases h
  | some p =>
    rw [readFrame_of_page hp] at h
    exact ⟨p, rfl, (Option.some.inj h).symm⟩

/-- The stack pages that matter are different frames of memory: that of the next signal frame, those of the
    saved ones, and the frame that an allocation gives. -/
@[mk_iff]
structure PagesApart (s : SigState) (alloc : Option Nat) : Prop where
  aligned : ∀ f ∈ frameAddr s.arch s.ctx.sp :: s.frames, ∀ p ∈ s.pages (pageOf f.toNat), p.phys % pageSize = 0
  apart : ∀ f ∈ s.frames, pageOf f.toNat ≠ pageOf (frameAddr s.arch s.ctx.sp).toNat →
    ∀ p ∈ s.pages (pageOf f.toNat), ∀ q ∈ s.pages (pageOf (frameAddr s.arch s.ctx.sp).toNat), p.phys ≠ q.phys
  fresh : ∀ new ∈ alloc, new % pageSize = 0 ∧ ∀ f ∈ s.frames, ∀ p ∈ s.pages (pageOf f.toNat), p.phys ≠ new

instance (s : SigState) (alloc : Option Nat) : Decidable (s.PagesApart alloc) :=
  decidable_of_iff' _ (pagesApart_iff s alloc)

theorem Fits.word_lt (h : Fits s.arch f) {i : Nat} (hi : i < s.arch.frameLen) : f.toNat % pageSize / 8 + i < 512 := by
  have hpage := h.page
  unfold pageSize at hpage ⊢
  omega

theorem Fits.offset (h : Fits s.arch f) : f.toNat % pageSize % 8 = 0 := by
  have haligned := h.aligned
  unfold pageSize
  omega

theorem breakCow_keeps (happ : s.PagesApart alloc) (hf : f ∈ s.frames) (hfits : Fits s.arch f)
    (h : s.breakCow alloc (pageOf (frameAddr s.arch s.ctx.sp).toNat) = some u) : KeepsFrame s u f := by
  intro w hw
  obtain ⟨p, hp, rfl⟩ := page_of_readFrame hw
  unfold breakCow at h
  split at h
  · cases h
  rename_i q hq
  split at h
  · cases h
    exact ⟨_, hw, fun _ _ => rfl⟩
  split at h
  · cases h
    by_cases hpage : pageOf f.toNat = pageOf (frameAddr s.arch s.ctx.sp).toNat
    · obtain rfl : p = q := Option.some.inj (hp.symm.trans (hpage ▸ hq))
      exact ⟨_, readFrame_of_page (p := { phys := p.phys }) (by rw [hpage]; exact update_self ..), fun _ _ => rfl⟩
    · exact ⟨_, readFrame_of_page (p := p) ((update_of_ne hpage ..).trans hp), fun _ _ => rfl⟩
  · obtain ⟨new, halloc, rfl⟩ := Option.map_eq_some_iff.mp h
    obtain ⟨hnew, hfresh⟩ := happ.fresh new halloc
    have hphys := happ.aligned f (mem_cons_of_mem _ hf) p hp
    have hoff := Fits.offset hfits
    by_cases hpage : pageOf f.toNat = pageOf (frameAddr s.arch s.ctx.sp).toNat
    · obtain rfl : p = q := Option.some.inj (hp.symm.trans (hpage ▸ hq))
      refine ⟨_, readFrame_of_page (p := { phys := new }) (by rw [hpage]; exact update_self ..), fun i hi => ?_⟩
      have hfit := Fits.word_lt hfits hi
      dsimp only
      rw [copyPage, if_pos (by omega)]
      congr 1
      omega
    · refine ⟨_, readFrame_of_page (p := p) ((update_of_ne hpage ..).trans hp), fun i hi => ?_⟩
      have hfit := Fits.word_lt hfits hi
      have hne := hfresh f hf p hp
      unfold pageSize at *
      exact if_neg (by omega)

theorem breakCow_pages {page : Nat} (h : s.breakCow alloc page = some u) :
    ∃ q q', s.pages page = some q ∧ u.pages page = some q' ∧ (q'.phys = q.phys ∨ alloc = some q'.phys) ∧
      ∀ n ≠ page, u.pages n = s.pages n := by
  unfold breakCow at h
  split at h
  · cases h
  rename_i q hq
  split at h
  · cases h
    exact ⟨q, q, hq, hq, .inl rfl, fun _ _ => rfl⟩
  split at h
  · cases h
    exact ⟨q, _, hq, update_self .., .inl rfl, fun n hn => update_of_ne hn ..⟩
  · obtain ⟨new, halloc, rfl⟩ := Option.map_eq_some_iff.mp h
    exact ⟨q, _, hq, update_self .., .inr halloc, fun n hn => update_of_ne hn ..⟩

theorem push_keeps {n : Nat} {words : Nat → U64} (happ : s.PagesApart alloc) (hf : f ∈ s.frames)
    (hfits : Fits s.arch f) (hnew : Fits s.arch (frameAddr s.arch s.ctx.sp))
    (hbelow : (frameAddr s.arch s.ctx.sp).toNat + 8 * s.arch.frameLen ≤ f.toNat)
    (hcow : s.breakCow alloc (pageOf (frameAddr s.arch s.ctx.sp).toNat) = some u)
    (hword : u.wordAddr (frameAddr s.arch s.ctx.sp) = some n) :
    KeepsFrame s (s.withMemory u.pages (writeWords u.mem n s.arch.frameLen words)) f := by
  have hu := breakCow_keeps happ hf hfits hcow
  obtain ⟨q, q', hq, hq', hphys, hother⟩ := breakCow_pages hcow
  obtain rfl : (q'.phys + (frameAddr s.arch s.ctx.sp).toNat % pageSize) / 8 = n := by
    rw [wordAddr, hq'] at hword
    exact Option.some.inj hword
  intro w hw
  obtain ⟨w', hw', heq⟩ := hu w hw
  obtain ⟨p, hp, rfl⟩ := page_of_readFrame hw'
  refine ⟨_, readFrame_of_page hp, fun i hi => ?_⟩
  rw [← heq i hi]
  -- the words of the saved frame are not among those that are written
  refine if_neg ?_
  have hq8 : q'.phys % pageSize = 0 := by
    rcases hphys with h | h
    · rw [h]
      exact happ.aligned _ mem_cons_self q hq
    · exact (happ.fresh _ h).1
  have hword1 := Fits.word_lt hfits hi
  have hpage2 := hnew.page
  by_cases hpage : pageOf f.toNat = pageOf (frameAddr s.arch s.ctx.sp).toNat
  · obtain rfl : p = q' := Option.some.inj (hp.symm.trans (hpage ▸ hq'))
    have hf := hfits.user
    have hframe := hnew.user
    unfold pageOf userAddrMax pageSize at *
    omega
  · rw [hother _ hpage] at hp
    have hp8 := happ.aligned f (mem_cons_of_mem _ hf) p hp
    have hne : p.phys ≠ q'.phys := by
      rcases hphys with h | h
      · rw [h]
        exact happ.apart f hf hpage p hp q hq
      · exact (happ.fresh _ h).2 f hf p hp
    unfold pageSize at *
    omega

theorem push_reads (s : SigState) {n : Nat} (words : Nat → U64) (hword : u.wordAddr f = some n) :
    ∃ w, (s.withMemory u.pages (writeWords u.mem n s.arch.frameLen words)).readFrame f = some w ∧
      ∀ i < s.arch.frameLen, w i = words i := by
  have hread : (s.withMemory u.pages (writeWords u.mem n s.arch.frameLen words)).readFrame f =
      some fun i => writeWords u.mem n s.arch.frameLen words (n + i) := by
    change (u.wordAddr f).map _ = _
    rw [hword]
    rfl
  refine ⟨_, hread, fun i hi => ?_⟩
  have hin : n ≤ n + i ∧ n + i < n + s.arch.frameLen := by omega
  rw [writeWords, if_pos hin, Nat.add_sub_cancel_left]

end SigState

end Limnx.Signals
