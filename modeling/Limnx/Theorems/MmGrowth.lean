import Limnx.Theorems.MmTables

/-! # Programs that only add to memory

Mapping new pages and cloning an address space leave the frames in use, their contents and the pages that are present.
-/

namespace Limnx

open Function StateProg Mem Mm List

variable {s t u : Mm} {c v virt : Nat} {tbl : Fin mmapMaxEntries → MmapEntry}

/-- Frames in use stay so with their contents, and present pages stay present. -/
structure MemGrown (s t : Mm) : Prop where
  bitmap : ∀ f, s.pmm.bitmap f = true → t.pmm.bitmap f = true
  data : ∀ f, s.pmm.bitmap f = true → t.data f = s.data f
  present : ∀ c v, s.pmm.bitmap c = true → (s.pteAt c v).present = true → (t.pteAt c v).present = true
  frame : ∀ c v, s.pmm.bitmap c = true → (t.pteAt c v).present = true →
    t.pmm.bitmap (t.pteAt c v).frame = true ∨
      ((s.pteAt c v).present = true ∧ (t.pteAt c v).frame = (s.pteAt c v).frame)
  rooted : s.Rooted → t.Rooted

namespace MemGrown

theorem refl : MemGrown s s := ⟨fun _ h => h, fun _ _ => rfl, fun _ _ _ h => h, fun _ _ _ h => .inr ⟨h, rfl⟩, id⟩

theorem trans (h : MemGrown s t) (h' : MemGrown t u) : MemGrown s u where
  bitmap f hf := h'.bitmap f (h.bitmap f hf)
  data f hf := (h'.data f (h.bitmap f hf)).trans (h.data f hf)
  present c v hc hv := h'.present c v (h.bitmap c hc) (h.present c v hc hv)
  frame c v hc hv := by
    rcases h'.frame c v (h.bitmap c hc) hv with hu | ⟨ht, heq⟩
    · exact .inl hu
    rcases h.frame c v hc ht with ht | ⟨hs, heq'⟩
    · exact .inl (heq ▸ h'.bitmap _ ht)
    · exact .inr ⟨hs, heq.trans heq'⟩
  rooted hs := h'.rooted (h.rooted hs)

theorem of_took {pmm : Pmm} {data : Nat → Buf} {new : List Nat} (h : s.pmm.Took pmm new)
    (hdata : ∀ f, s.pmm.bitmap f → data f = s.data f) : MemGrown s { s with pmm, data } :=
  { (refl : MemGrown s s) with
    bitmap := fun f hf => by simp [h.bitmap f, hf], data := hdata, frame := fun _ _ _ h => .inr ⟨h, rfl⟩ }

end MemGrown

theorem pteAt_congr (hk : t.kernel = s.kernel) (hs : t.space c = s.space c) (v : Nat) : t.pteAt c v = s.pteAt c v := by
  unfold pteAt home holdsShared
  rw [hk, hs]

theorem MemGrown.of_memory (h : t.memory = s.memory) : MemGrown s t := by
  simp only [memory, Prod.mk.injEq] at h
  obtain ⟨hpmm, hdata, hk, hsp⟩ := h
  have hpte : ∀ c v, t.pteAt c v = s.pteAt c v := fun c => pteAt_congr hk (by rw [hsp])
  refine ⟨fun f hf => hpmm ▸ hf, fun f _ => by rw [hdata], fun c v _ hv => ?_, fun c v _ hv => ?_, fun hs => ?_⟩
  · rwa [hpte]
  · rw [hpte] at hv ⊢
    exact .inr ⟨hv, rfl⟩
  · unfold Mm.Rooted
    rw [hk, hsp]
    exact hs

theorem Walks.bitmap (h : Walks c s t) (f : Nat) (hf : s.pmm.bitmap f) : t.pmm.bitmap f := by
  obtain ⟨new, hnew⟩ := h.took
  simp [hnew.bitmap f, hf]

theorem WalksTo.grown {R : Prop} {e : Pte} {ok : Bool} (h : WalksTo R c v e s ok t) (he : e.present)
    (hf : t.pmm.bitmap e.frame) : MemGrown s t where
  bitmap := h.bitmap
  data f _ := by rw [h.data]
  present d w _ hw := by
    rcases h.pteAt d w with heq | ⟨-, -, heq⟩
    · rwa [heq]
    · rwa [heq]
  frame d w _ hw := by
    rcases h.pteAt d w with heq | ⟨-, -, heq⟩
    · rw [heq] at hw ⊢
      exact .inr ⟨hw, rfl⟩
    · rw [heq]
      exact .inl hf
  rooted := h.rooted

/-- The end of a loop that maps new pages from page `i` of the range on: the first `m` are mapped, all if the answer is
    yes. A changed entry shows a frame that was free. -/
structure MapsFresh (c virt i n : Nat) (s : Mm) (ok : Bool) (t : Mm) : Prop where
  grown : MemGrown s t
  fresh : ∀ d w, t.pteAt d w = s.pteAt d w ∨ s.pmm.bitmap (t.pteAt d w).frame = false
  others : ∀ d ≠ c, t.space d = s.space d
  mapped : ∃ m ≤ n, (ok = true ↔ m = n) ∧
    (∀ d w, (∀ k, i ≤ k → k < i + m → w ≠ rangePage virt k) → t.pteAt d w = s.pteAt d w) ∧
    (s.Rooted → s.pmm.bitmap c = true → ∀ k, i ≤ k → k < i + m → (t.pteAt c (rangePage virt k)).present = true)

theorem freePage_bitmap {p : Pmm} {f g : Nat} (h : g ≠ f) : (p.freePage f).bitmap g = p.bitmap g := by
  unfold Pmm.freePage
  split
  · rfl
  split
  · rfl
  split
  · rfl
  · exact update_of_ne h ..

theorem MapsFresh.fail {n i : Nat} (hb : ∀ f, s.pmm.bitmap f → t.pmm.bitmap f)
    (hd : ∀ f, s.pmm.bitmap f → t.data f = s.data f) (hp : ∀ d w, t.pteAt d w = s.pteAt d w)
    (ho : ∀ d ≠ c, t.space d = s.space d) (hr : s.Rooted → t.Rooted) : MapsFresh c virt i (n + 1) s false t where
  grown := by
    refine ⟨hb, hd, fun c v _ hv => ?_, fun c v _ hv => ?_, hr⟩
    · rwa [hp]
    · rw [hp] at hv ⊢
      exact .inr ⟨hv, rfl⟩
  fresh d w := .inl (hp d w)
  others := ho
  mapped := ⟨0, by omega, by simp, fun d w _ => hp d w, by omega⟩

theorem MapsFresh.cons {n i : Nat} {e : Pte} {ok : Bool} (h : MapsFresh c virt (i + 1) n t ok u) (hst : MemGrown s t)
    (hpte : ∀ d w, t.pteAt d w = s.pteAt d w ∨ (true ∧ w = rangePage virt i ∧ t.pteAt d w = e))
    (hfree : s.pmm.bitmap e.frame = false) (ho : ∀ d ≠ c, t.space d = s.space d)
    (he : s.Rooted → t.pteAt c (rangePage virt i) = e) (hpres : e.present) : MapsFresh c virt i (n + 1) s ok u where
  grown := hst.trans h.grown
  fresh d w := by
    rcases h.fresh d w with hu | hu
    · rw [hu]
      rcases hpte d w with ht | ⟨-, -, ht⟩
      · exact .inl ht
      · exact .inr (by rw [ht, hfree])
    · exact .inr (by_contra fun hs => by simp [hst.bitmap _ (by simpa using hs)] at hu)
  others d hd := (h.others d hd).trans (ho d hd)
  mapped := by
    obtain ⟨m, hm, hok, hkept, hmapped⟩ := h.mapped
    refine ⟨m + 1, by omega, by rw [hok]; omega, fun d w hw => ?_, fun hs hc k hk hkm => ?_⟩
    · rw [hkept d w fun k hk hkm => hw k (by omega) (by omega)]
      exact (hpte d w).resolve_right fun h => hw i (Nat.le_refl i) (by omega) h.2.1
    · rcases Nat.eq_or_lt_of_le hk with rfl | hk
      · refine h.grown.present _ _ (hst.bitmap c hc) ?_
        rw [he hs, hpres]
      · exact hmapped (hst.rooted hs) (hst.bitmap c hc) k (by omega) (by omega)

theorem mapFresh_ends {flags : PteFlags} {giveBack : Bool} {fill : Nat → Buf} {n i : Nat} :
    Ends (mapFresh c virt flags giveBack fill i n) s fun r t => MapsFresh c virt i n s r.isSome t := by
  induction n generalizing i s with
  | zero =>
    exact ⟨.refl, fun _ _ => .inl rfl, fun _ _ => rfl, 0, by omega, by simp [mapFresh, pure_run], fun _ _ _ => rfl,
      by omega⟩
  | succ n ih =>
    unfold mapFresh
    rw [ends_bind]
    refine ends_allocPage fun f pmm hf => ?_
    cases f with
    | none =>
      have hb : ∀ g, s.pmm.bitmap g → pmm.bitmap g := fun g hg => by simp [hf.bitmap g, hg]
      exact .fail hb (fun _ _ => rfl) (fun _ _ => rfl) (fun _ _ => rfl) id
    | some f =>
      have hfree : s.pmm.bitmap f = false := hf.free f (by simp)
      have hne : ∀ g, s.pmm.bitmap g → g ≠ f := by
        rintro g hg rfl
        simp [hfree] at hg
      simp only [ends_bind, fillFrame, ends_modify]
      refine vmmMapPageIn_walks.mono fun ok t ht => ?_
      have hstart : MemGrown s { s with pmm, data := update s.data f (fill i) } :=
        .of_took hf fun g hg => update_of_ne (hne g hg) ..
      split
      next hok =>
        subst hok
        have hgrown : MemGrown s t := hstart.trans (ht.grown rfl (ht.bitmap f (by simp [hf.bitmap f])))
        rw [ends_bind]
        refine (ih (s := t)).mono fun r u hu => ?_
        suffices h : MapsFresh c virt i (n + 1) s r.isSome u by
          cases r <;> exact h
        exact hu.cons hgrown ht.pteAt hfree ht.others (fun hs => ht.stored hs rfl) rfl
      next hok =>
        have hpte : ∀ d w, t.pteAt d w = s.pteAt d w := fun d w => (ht.pteAt d w).resolve_right fun h => hok h.1
        have hdata : ∀ g, s.pmm.bitmap g → t.data g = s.data g := fun g hg => by
          rw [ht.data]
          exact update_of_ne (hne g hg) ..
        have hb : ∀ g, s.pmm.bitmap g → t.pmm.bitmap g := fun g hg => ht.bitmap g (hstart.bitmap g hg)
        split
        · rw [ends_bind, freePage, ends_modify, ends_pure]
          have hb' : ∀ g, s.pmm.bitmap g → (t.pmm.freePage f).bitmap g := fun g hg =>
            (freePage_bitmap (hne g hg)).trans (hb g hg)
          exact .fail hb' hdata hpte ht.others fun hs => ht.rooted hs
        · exact .fail hb hdata hpte ht.others fun hs => ht.rooted hs

/-! ### A clone of an address space -/

def Mm.Backed (s : Mm) (c : Nat) : Prop :=
  ∀ v < userPages, (s.pteAt c v).present = true → s.pmm.bitmap (s.pteAt c v).frame = true

theorem MemGrown.backed (h : MemGrown s t) (hc : s.pmm.bitmap c) (hs : s.Backed c) : t.Backed c := by
  intro v hv hp
  rcases h.frame c v hc hp with ht | ⟨hp', heq⟩
  · exact ht
  · rw [heq]
    exact h.bitmap _ (hs v hv hp')

theorem refInc_grown {f : Nat} : Ends (refInc f) s fun _ t => MemGrown s t := by
  have hb : (s.pmm.refInc f).bitmap = s.pmm.bitmap := by
    unfold Pmm.refInc
    split <;> rfl
  rw [refInc, ends_modify]
  exact { (MemGrown.refl : MemGrown s s) with
    bitmap := fun g hg => by simpa [hb] using hg, frame := fun _ _ _ h => .inr ⟨h, rfl⟩ }

theorem storePte_grown {e : Pte} (hv : v < userPages) (he : e.present)
    (hs : (s.pteAt c v).present) (hf : e.frame = (s.pteAt c v).frame) :
    Ends (storePte c (v * pageSize) e) s fun _ t => MemGrown s t := by
  have hpage : pageOf (v * pageSize) = v := by unfold pageOf pageSize userPages at *; omega
  refine (storePte_present (private_of_user (by rwa [hpage])) (by rwa [hpage])).mono ?_
  rw [hpage]
  rintro _ t ⟨hext, hpmm, hpte⟩
  have hpteAt := hext.pteAt (private_of_user hv) hpte
  obtain ⟨pmm, sp, rfl⟩ := hext.rest
  subst hpmm
  refine ⟨fun _ h => h, fun _ _ => rfl, fun d w _ hw => ?_, fun d w _ hw => ?_, fun hr d i hi => ?_⟩
  · rw [hpteAt]
    split
    · exact he
    · exact hw
  · rw [hpteAt] at hw ⊢
    split
    next h =>
      obtain ⟨rfl, rfl⟩ := h
      exact .inr ⟨hs, hf⟩
    next h =>
      rw [if_neg h] at hw
      exact .inr ⟨hw, rfl⟩
  · refine hr d i ?_
    obtain rfl | hd := eq_or_ne d c
    · rwa [← hext.shared]
    · rwa [← hext.others hd]

theorem clonePage_grown {parent child : Nat} (hv : v < userPages)
    (hback : s.Backed parent) : Ends (clonePage parent child tbl v) s fun _ t => MemGrown s t := by
  unfold clonePage
  rw [ends_bind, ends_gets, ← (private_of_user hv : s.Private parent v).pteAt]
  generalize he : s.pteAt parent v = e
  split
  next hp =>
    have hframe : s.pmm.bitmap e.frame := by
      rw [← he]
      exact hback v hv (by rwa [he])
    split
    · rw [ends_bind]
      refine vmmMapPageIn_walks.mono fun ok t ht => ?_
      have hst : MemGrown s t := ht.grown rfl (ht.bitmap _ hframe)
      exact refInc_grown.mono fun _ u hu => hst.trans hu
    · rw [ends_bind]
      refine (storePte_grown hv rfl (by rw [he]; exact hp) (by rw [he])).mono fun _ t hst => ?_
      rw [ends_bind]
      refine vmmMapPageIn_walks.mono fun ok u hu => ?_
      have htu : MemGrown t u := hu.grown rfl (hu.bitmap _ (hst.bitmap _ hframe))
      exact refInc_grown.mono fun _ w hw => (hst.trans htu).trans hw
  · exact .refl

theorem clonePages_grown {parent child : Nat} {l : List Nat}
    (hl : ∀ v ∈ l, v < userPages) (hp : s.pmm.bitmap parent) (hback : s.Backed parent) :
    Ends (clonePages parent child tbl l) s fun _ t => MemGrown s t := by
  induction l generalizing s with
  | nil => exact .refl
  | cons v l ih =>
    unfold clonePages
    rw [ends_bind]
    refine (clonePage_grown (hl v mem_cons_self) hback).mono fun _ t ht => ?_
    refine (ih (fun w hw => hl w (mem_cons_of_mem v hw)) (ht.bitmap _ hp) (ht.backed hp hback)).mono ?_
    exact fun _ u hu => ht.trans hu

theorem newSpace_grown :
    Ends vmmCreateAddressSpace s fun r t => MemGrown s t ∧
      ∀ c, r = some c → s.pmm.bitmap c = false ∧ t.pmm.bitmap c ∧
        (∀ v < userPages, t.pteAt c v = {}) ∧ ∀ d ≠ c, t.space d = s.space d := by
  unfold vmmCreateAddressSpace
  rw [ends_bind]
  refine ends_allocPage fun f pmm hf => ?_
  cases f with
  | none => exact ⟨.of_took hf fun _ _ => rfl, nofun⟩
  | some f =>
    have hfree : s.pmm.bitmap f = false := hf.free f (by simp)
    have hne : ∀ g, s.pmm.bitmap g → g ≠ f := by
      rintro g hg rfl
      simp [hfree] at hg
    rw [ends_bind, ends_modify, ends_pure]
    have hother : ∀ d ≠ f, update s.space f (newSpace s.kernel f) d = s.space d := fun d hd =>
      update_of_ne hd ..
    refine ⟨⟨fun g hg => ?_, fun _ _ => rfl, fun d w hd hw => ?_, fun d w hd hw => ?_, fun hs d i hi => ?_⟩, ?_⟩
    · exact (hf.bitmap g).trans (by simp [hg])
    · rwa [pteAt_congr (by rfl) (hother d (hne d hd))]
    · rw [pteAt_congr (by rfl) (hother d (hne d hd))] at hw ⊢
      exact .inr ⟨hw, rfl⟩
    · obtain rfl | hd := eq_or_ne d f
      · simp only [setSpace, update_self, newSpace, Bool.and_eq_true] at hi
        exact hi.2
      · simp only [setSpace, hother d hd] at hi
        exact hs d i hi
    · rintro c ⟨rfl⟩
      refine ⟨hfree, (hf.bitmap f).trans (by simp), fun v hv => ?_, hother⟩
      rw [(private_of_user hv).pteAt]
      simp [setSpace, newSpace]

theorem vmmCloneCow_grown {parent : Nat} (hp : s.pmm.bitmap parent) (hback : s.Backed parent) :
    Ends (vmmCloneCow parent tbl) s fun r t => MemGrown s t ∧
      ∀ c, r = some c → t.pmm.bitmap c ∧ t.Backed c := by
  unfold vmmCloneCow
  rw [ends_bind]
  refine newSpace_grown.mono ?_
  rintro r t ⟨hst, hnew⟩
  cases r with
  | none => exact ⟨hst, nofun⟩
  | some child =>
    obtain ⟨-, hchild, hempty, -⟩ := hnew child rfl
    rw [ends_bind, ends_gets, ends_bind]
    have hl : ∀ v ∈ (t.space parent).pages.filter fun v => decide (v < userPages), v < userPages := by
      simp
    refine (clonePages_grown hl (hst.bitmap _ hp) (hst.backed hp hback)).mono fun _ u htu => ?_
    refine ⟨hst.trans htu, ?_⟩
    rintro c ⟨rfl⟩
    refine ⟨htu.bitmap _ hchild, htu.backed hchild fun v hv hpres => ?_⟩
    rw [hempty v hv] at hpres
    exact Bool.noConfusion hpres

end Limnx
