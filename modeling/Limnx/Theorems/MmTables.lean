import Limnx.Theorems.MmPrograms

/-! # What a mapping does to frames and page tables

Tables of the user half belong to the address space alone. -/

namespace Limnx

open Function StateProg Mem List Space Mm Bool

def rangePage (virt i : Nat) : Nat := pageOf (w64 (virt + i * pageSize))

theorem rangePage_eq (virt i : Nat) : rangePage virt i = (pageOf virt + i) % 2 ^ 36 := by
  unfold rangePage pageOf w64 pageSize
  omega

def InRange (virt n v : Nat) : Prop := ∃ i < n, v = rangePage virt i

structure Pmm.Took (p q : Pmm) (l : List Nat) : Prop where
  total : q.total = p.total
  fails : q.fails = p.fails
  nodup : l.Nodup
  free : ∀ f ∈ l, p.bitmap f = false
  bitmap : ∀ f, q.bitmap f = (p.bitmap f || decide (f ∈ l))
  refcounts : ∀ f, q.bitmap f = true → q.refcounts f = if f ∈ l then 1 else p.refcounts f
  lt : p.hint ≤ p.total → ∀ f ∈ l, f < p.total
  hint : p.hint ≤ p.total → q.hint ≤ q.total

namespace Pmm

variable {p q r : Pmm} {l l' : List Nat}

theorem Took.refl (p : Pmm) : p.Took p [] := ⟨rfl, rfl, .nil, by simp, by simp, by simp, by simp, id⟩

theorem Took.trans (h : p.Took q l) (h' : q.Took r l') : p.Took r (l' ++ l) where
  total := h'.total.trans h.total
  fails := h'.fails.trans h.fails
  nodup := by
    refine nodup_append.mpr ⟨h'.nodup, h.nodup, fun f hf' g hg hfg => ?_⟩
    have := h'.free f hf'
    rw [h.bitmap f, hfg] at this
    simp [hg] at this
  free f hf := by
    rcases mem_append.mp hf with hf | hf
    · have := h'.free f hf
      rw [h.bitmap f] at this
      simp_all
    · exact h.free f hf
  bitmap f := by
    rw [h'.bitmap, h.bitmap, Bool.or_assoc]
    simp only [mem_append, decide_or, Bool.or_comm]
  refcounts f hf := by
    rw [h'.refcounts f hf]
    by_cases hl' : f ∈ l'
    · simp [hl']
    have hq : q.bitmap f := by
      rw [h'.bitmap f] at hf
      simpa [hl'] using hf
    simp [hl', h.refcounts f hq]
  lt hp f hf := by
    rcases mem_append.mp hf with hf | hf
    · exact h.total ▸ h'.lt (h.hint hp) f hf
    · exact h.lt hp f hf
  hint hp := h'.hint (h.hint hp)

theorem findRun_some {n lo hi i : Nat} (h : p.findRun n lo hi = some i) :
    lo ≤ i ∧ i + n ≤ hi ∧ ∀ j ∈ range' i n, p.bitmap j = false := by
  have hi := find?_some h
  have hm := mem_range'_1.mp (mem_of_find?_eq_some h)
  simp only [and_eq_true, decide_eq_true_eq, all_eq_true, not_eq_true'] at hi
  exact ⟨hm.1, hi.1, hi.2⟩

theorem take_took {i n : Nat} (h : ∀ j ∈ range' i n, p.bitmap j = false)
    (hle : p.hint ≤ p.total → i + n ≤ p.total) : p.Took (p.take i n) (range' i n) where
  total := rfl
  fails := rfl
  nodup := nodup_range'
  free := h
  bitmap f := by simp [take, mem_range'_1]
  refcounts f _ := by simp [take, mem_range'_1]
  lt hp f hf := by
    have := mem_range'_1.mp hf
    omega
  hint hp := hle hp

theorem allocContiguous_took (p : Pmm) (n : Nat) :
    p.Took (p.allocContiguous n).2 ((p.allocContiguous n).1.elim [] fun i => range' i n) := by
  have hq : p.Took { p with calls := p.calls + 1 } [] := ⟨rfl, rfl, .nil, by simp, by simp, by simp, by simp, id⟩
  unfold allocContiguous
  split
  · exact hq
  split
  next i hi =>
    rw [Option.or_eq_some_iff] at hi
    have hfree : ∀ j ∈ range' i n, p.bitmap j = false := by
      rcases hi with hi | ⟨-, hi⟩ <;> exact (findRun_some hi).2.2
    have hle : p.hint ≤ p.total → i + n ≤ p.total := by
      rcases hi with hi | ⟨-, hi⟩
      · exact fun _ => (findRun_some hi).2.1
      · have := findRun_some hi
        omega
    have := hq.trans (take_took (p := { p with calls := p.calls + 1 }) hfree hle)
    simpa using this
  · exact hq

end Pmm

variable {s t u : Mm} {c v : Nat} {user : Bool} {e : Pte}

theorem ends_allocPage {Q : Option Nat → Mm → Prop}
    (h : ∀ f pmm, s.pmm.Took pmm f.toList → Q f { s with pmm }) : Ends allocPage s Q := by
  refine h _ _ ?_
  have hlist : ∀ o : Option Nat, (o.elim [] fun i => range' i 1) = o.toList := by
    intro o
    cases o <;> rfl
  rw [← hlist]
  exact s.pmm.allocContiguous_took 1

/-! ### Tables of one address space -/

def Mm.Private (s : Mm) (c v : Nat) : Prop := (s.space c).shared (v / 512 ^ 3) = false

theorem private_of_user (h : v < userPages) : s.Private c v := by
  by_contra hs
  have := (s.space c).shared_high _ (by simpa [Private] using hs)
  unfold userPages at h
  omega

theorem Mm.Private.home (h : s.Private c v) (l : Nat) : s.home c l v = s.space c := by
  rw [Mm.home, Mm.holdsShared, show (s.space c).shared (v / 512 ^ 3) = false from h, Bool.and_false]
  exact if_neg Bool.false_ne_true

theorem Mm.Private.setHome (h : s.Private c v) (l : Nat) (f : Space → Space) :
    s.setHome c l v f = s.setSpace c (f (s.space c)) := by
  rw [Mm.setHome, Mm.holdsShared, show (s.space c).shared (v / 512 ^ 3) = false from h, Bool.and_false]
  exact if_neg Bool.false_ne_true

theorem Mm.Private.pteAt (h : s.Private c v) : s.pteAt c v = (s.space c).pte v := by
  rw [Mm.pteAt, h.home]

@[simp] theorem Mm.setSpace_self (s : Mm) (c : Nat) (sp : Space) : (s.setSpace c sp).space c = sp := by
  simp [setSpace]

/-- Tables for page `v` are put into the address space `c`, in the frames `new`, and entries may get
    `PTE_USER`. What the last level holds is left open. -/
structure Extends (c v : Nat) (new : List Nat) (s t : Mm) : Prop where
  rest : ∃ pmm sp, t = { s with pmm, space := update s.space c sp }
  took : s.pmm.Took t.pmm new
  frames : (t.space c).frames = (if v < userPages then new else []) ++ (s.space c).frames
  highFrames : (t.space c).highFrames = (if v < userPages then [] else new) ++ (s.space c).highFrames
  shared : (t.space c).shared = (s.space c).shared
  table_mono : ∀ l i, ((s.space c).table l i).isSome → ((t.space c).table l i).isSome
  table_eq : ∀ l i, i ≠ v / 512 ^ l → (t.space c).table l i = (s.space c).table l i

namespace Extends

variable {new new' : List Nat}

theorem refl : Extends c v [] s s where
  rest := ⟨s.pmm, s.space c, by simp⟩
  took := .refl _
  frames := by simp
  highFrames := by simp
  shared := rfl
  table_mono _ _ h := h
  table_eq _ _ _ := rfl

section
variable (h : Extends c v new s t)
include h

theorem trans (h' : Extends c v new' t u) : Extends c v (new' ++ new) s u where
  rest := by
    obtain ⟨p, sp, ht⟩ := h.rest
    obtain ⟨p', sp', hu⟩ := h'.rest
    exact ⟨p', sp', by simp [hu, ht]⟩
  took := h.took.trans h'.took
  frames := by
    rw [h'.frames, h.frames]
    split <;> simp
  highFrames := by
    rw [h'.highFrames, h.highFrames]
    split <;> simp
  shared := h'.shared.trans h.shared
  table_mono l i hi := h'.table_mono l i (h.table_mono l i hi)
  table_eq l i hi := (h'.table_eq l i hi).trans (h.table_eq l i hi)

theorem private_iff (u : Nat) : t.Private c u ↔ s.Private c u := by
  rw [Private, h.shared, Private]

theorem others {d : Nat} (hd : d ≠ c) : t.space d = s.space d := by
  obtain ⟨p, sp, rfl⟩ := h.rest
  exact update_of_ne hd ..

theorem kernel : t.kernel = s.kernel := by
  obtain ⟨p, sp, rfl⟩ := h.rest
  rfl

end

end Extends

theorem Space.setTable_table {sp : Space} {l i : Nat} (user : Bool) (h : l < 3 → (sp.table (l + 1) (i / 512)).isSome) :
    (sp.setTable l i user).table = fun l' i' => if l' = l ∧ i' = i then some user else sp.table l' i' := by
  rw [setTable, dif_pos h]

variable (sp : Space)

theorem Space.setTable_rest (l i : Nat) (user : Bool) :
    (sp.setTable l i user).pte = sp.pte ∧ (sp.setTable l i user).frames = sp.frames ∧
      (sp.setTable l i user).highFrames = sp.highFrames ∧ (sp.setTable l i user).shared = sp.shared := by
  unfold setTable
  split <;> simp

theorem Extends.of_setTable {l : Nat} {new : List Nat} {sp : Space} (user : Bool) (pmm : Pmm)
    (hp : l < 3 → ((s.space c).table (l + 1) (v / 512 ^ l / 512)).isSome) (ht : s.pmm.Took pmm new)
    (htable : sp.table = ((s.space c).setTable l (v / 512 ^ l) user).table)
    (hframes : sp.frames = (if v < userPages then new else []) ++ (s.space c).frames)
    (hhigh : sp.highFrames = (if v < userPages then [] else new) ++ (s.space c).highFrames)
    (hshared : sp.shared = (s.space c).shared) : Extends c v new s { s.setSpace c sp with pmm } where
  rest := ⟨pmm, sp, rfl⟩
  took := ht
  frames := by simpa using hframes
  highFrames := by simpa using hhigh
  shared := by simpa using hshared
  table_mono l' i hi := by
    simp only [setSpace_self, htable, setTable_table user hp]
    split
    · rfl
    · exact hi
  table_eq l' i hi := by
    simp only [setSpace_self, htable, setTable_table user hp]
    refine if_neg ?_
    rintro ⟨rfl, rfl⟩
    exact hi rfl

theorem ensureTable_ends {l : Nat} (hv : s.Private c v)
    (hp : l < 3 → ((s.space c).table (l + 1) (v / 512 ^ l / 512)).isSome) :
    Ends (ensureTable c l v user) s fun ok t =>
      ∃ new, Extends c v new s t ∧ (t.space c).pte = (s.space c).pte ∧
        (ok → ((t.space c).table l (v / 512 ^ l)).isSome) ∧
        (((s.space c).table l (v / 512 ^ l)).isSome → ok ∧ t.pmm = s.pmm) := by
  unfold ensureTable
  rw [ends_bind, ends_gets, hv.home]
  split
  next u hu =>
    simp only [ends_bind, ends_modify, ends_pure, hv.setHome]
    obtain ⟨hpte, hframes, hhigh, hshared⟩ := (s.space c).setTable_rest l (v / 512 ^ l) (u || user)
    refine ⟨[], Extends.of_setTable (u || user) s.pmm hp (.refl _) rfl ?_ ?_ hshared, ?_, fun _ => ?_, fun _ => ⟨trivial, rfl⟩⟩
    · simp [hframes]
    · simp [hhigh]
    · simpa using hpte
    · simp [setTable_table _ hp]
  next hu =>
    rw [ends_bind]
    refine ends_allocPage fun f pmm hf => ?_
    cases f with
    | none =>
      refine ⟨[], ?_, rfl, by simp, by simp [hu]⟩
      exact { (Extends.refl : Extends c v [] s s) with rest := ⟨pmm, s.space c, by simp [pure_run]⟩, took := hf }
    | some f =>
      have hv' : Private { s with pmm } c v := hv
      simp only [ends_bind, ends_modify, ends_pure, hv'.setHome]
      obtain ⟨hpte, hframes, hhigh, hshared⟩ := (s.space c).setTable_rest l (v / 512 ^ l) user
      refine ⟨[f], ?_, ?_, fun _ => ?_, by simp [hu]⟩
      · refine Extends.of_setTable user pmm hp hf ?_ ?_ ?_ ?_
        · unfold addTable
          split <;> rfl
        · unfold addTable
          split <;> simp_all
        · unfold addTable
          split <;> simp_all
        · unfold addTable
          split <;> simpa using hshared
      · rw [setSpace_self]
        unfold addTable
        split <;> simpa using hpte
      · rw [setSpace_self]
        unfold addTable
        split <;> simp [setTable_table _ hp]

theorem Space.setPte_of_table {sp : Space} {v : Nat} (e : Pte) (h : (sp.table 1 (v / 512)).isSome) :
    (sp.setPte v e).pte = update sp.pte v e := by
  rw [setPte, dif_pos h]

theorem Space.setPte_pte (v : Nat) (e : Pte) :
    (sp.setPte v e).pte = if (sp.table 1 (v / 512)).isSome then update sp.pte v e else sp.pte := by
  unfold setPte
  split <;> simp_all

theorem Space.setPte_rest (v : Nat) (e : Pte) :
    (sp.setPte v e).table = sp.table ∧ (sp.setPte v e).frames = sp.frames ∧
      (sp.setPte v e).highFrames = sp.highFrames ∧ (sp.setPte v e).shared = sp.shared := by
  unfold setPte
  split <;> simp

theorem Extends.setPte (hv : s.Private c v) (e : Pte) : Extends c v [] s (s.setHome c 0 v fun sp => sp.setPte v e) := by
  obtain ⟨htable, hframes, hhigh, hshared⟩ := (s.space c).setPte_rest v e
  rw [hv.setHome]
  refine ⟨⟨s.pmm, _, rfl⟩, .refl _, ?_, ?_, ?_, ?_, ?_⟩
  · simp [hframes]
  · simp [hhigh]
  · simpa using hshared
  · simp [htable]
  · simp [htable]

/-- The end of `vmm_map_page_in` for page `v` and entry `e`: the tables on the way are there, and the entry is
    stored, unless a frame was missing. -/
def MapsPage (c v : Nat) (e : Pte) (s : Mm) (ok : Bool) (t : Mm) : Prop :=
  ∃ new, Extends c v new s t ∧
    ((t.space c).pte = if ok then update (s.space c).pte v e else (s.space c).pte) ∧
    ((∀ l, ((s.space c).table l (v / 512 ^ l)).isSome) → ok = true ∧ t.pmm = s.pmm)

theorem ensureTable_bind {l : Nat} {m : MmM Bool} (hv : s.Private c v)
    (hp : l < 3 → ((s.space c).table (l + 1) (v / 512 ^ (l + 1))).isSome)
    (hm : ∀ t, t.Private c v → ((t.space c).table l (v / 512 ^ l)).isSome → Ends m t (MapsPage c v e t)) :
    Ends (do if ← ensureTable c l v user then m else pure false) s (MapsPage c v e s) := by
  rw [ends_bind]
  have hdiv : v / 512 ^ l / 512 = v / 512 ^ (l + 1) := by rw [Nat.div_div_eq_div_mul, ← Nat.pow_succ]
  refine (ensureTable_ends hv (by rwa [hdiv])).mono ?_
  rintro ok t ⟨new, hext, hpte, hok, hthere⟩
  split
  next h =>
    refine (hm t ((hext.private_iff v).mpr hv) (hok h)).mono ?_
    rintro ok' u ⟨new', hext', hpte', hfull'⟩
    refine ⟨new' ++ new, hext.trans hext', by rw [hpte', hpte], fun hfull => ?_⟩
    obtain ⟨h', hpmm⟩ := hfull' fun k => hext.table_mono _ _ (hfull k)
    exact ⟨h', hpmm.trans (hthere (hfull l)).2⟩
  next h =>
    rw [ends_pure]
    refine ⟨new, hext, by simpa using hpte, fun hfull => ?_⟩
    exact absurd (hthere (hfull l)).1 h

theorem vmmMapPageIn_ends {va f : Nat} {flags : PteFlags} (hv : s.Private c (pageOf va)) :
    Ends (vmmMapPageIn c va f flags) s (MapsPage c (pageOf va) { frame := f, present := true, flags } s) := by
  refine ensureTable_bind hv (by omega) fun t3 hv3 h3 => ?_
  refine ensureTable_bind hv3 (fun _ => h3) fun t2 hv2 h2 => ?_
  refine ensureTable_bind hv2 (fun _ => h2) fun t1 hv1 h1 => ?_
  rw [ends_bind, storePte, ends_modify, ends_pure]
  refine ⟨[], Extends.setPte hv1 _, ?_, fun _ => ⟨rfl, ?_⟩⟩
  · rw [hv1.setHome]
    simp [setPte_of_table _ h1]
  · rw [hv1.setHome]
    rfl

theorem Extends.pteAt {new : List Nat} (h : Extends c v new s t) (hv : s.Private c v)
    (hpte : (t.space c).pte = update (s.space c).pte v e) (d w : Nat) :
    t.pteAt d w = if d = c ∧ w = v then e else s.pteAt d w := by
  obtain rfl | hd := eq_or_ne d c
  · by_cases hw : w = v
    · subst hw
      rw [((h.private_iff w).mpr hv).pteAt, hpte, update_self, if_pos ⟨rfl, rfl⟩]
    rw [if_neg fun h => hw h.2]
    unfold pteAt home holdsShared
    rw [h.shared, h.kernel]
    split
    · rfl
    · rw [hpte, update_of_ne hw]
  · rw [if_neg fun h => hd h.1]
    unfold Mm.pteAt Mm.home Mm.holdsShared
    rw [h.others hd, h.kernel]

theorem Space.table_of_present {sp : Space} (h : (sp.pte v).present) : (sp.table 1 (v / 512)).isSome := by
  refine sp.pages_table v (sp.pte_pages v fun hv => ?_)
  rw [hv] at h
  exact Bool.noConfusion h

theorem storePte_present {va : Nat} (hv : s.Private c (pageOf va)) (hp : (s.pteAt c (pageOf va)).present) :
    Ends (storePte c va e) s fun _ t => Extends c (pageOf va) [] s t ∧ t.pmm = s.pmm ∧
      (t.space c).pte = update (s.space c).pte (pageOf va) e := by
  rw [hv.pteAt] at hp
  rw [storePte, ends_modify]
  refine ⟨.setPte hv e, ?_, ?_⟩
  · rw [hv.setHome]
    rfl
  · rw [hv.setHome, setSpace_self, setPte_of_table e (table_of_present hp)]

/-! ### Pages of either half

The tables of a page that is not the address space's own are the kernel's, and every address space that shares
them sees the change. -/

structure Walks (c : Nat) (s t : Mm) : Prop where
  took : ∃ new, s.pmm.Took t.pmm new
  data : t.data = s.data
  live : t.live = s.live
  others : ∀ d ≠ c, t.space d = s.space d
  shared : ∀ d, (t.space d).shared = (s.space d).shared
  kernel : ∀ l i, (s.kernel.table l i).isSome → (t.kernel.table l i).isSome
  table : ∀ d l i, ((s.space d).table l i).isSome → ((t.space d).table l i).isSome

namespace Walks

theorem refl : Walks c s s := ⟨⟨[], .refl _⟩, rfl, rfl, fun _ _ => rfl, fun _ => rfl, fun _ _ h => h, fun _ _ _ h => h⟩

theorem trans (h : Walks c s t) (h' : Walks c t u) : Walks c s u where
  took := by
    obtain ⟨l, hl⟩ := h.took
    obtain ⟨l', hl'⟩ := h'.took
    exact ⟨_, hl.trans hl'⟩
  data := h'.data.trans h.data
  live := h'.live.trans h.live
  others d hd := (h'.others d hd).trans (h.others d hd)
  shared d := (h'.shared d).trans (h.shared d)
  kernel l i hi := h'.kernel l i (h.kernel l i hi)
  table d l i hi := h'.table d l i (h.table d l i hi)

theorem of_took {pmm : Pmm} {new : List Nat} (h : s.pmm.Took pmm new) : Walks c s { s with pmm } :=
  { (refl : Walks c s s) with took := ⟨new, h⟩ }

theorem setHome {l : Nat} {f : Space → Space} (hshared : ∀ sp, (f sp).shared = sp.shared)
    (htable : ∀ sp l i, ((sp : Space).table l i).isSome → ((f sp).table l i).isSome) :
    Walks c s (s.setHome c l v f) := by
  unfold Mm.setHome
  split
  · exact { (refl : Walks c s s) with kernel := fun l i => htable _ l i }
  refine { (refl : Walks c s s) with
    others := fun d hd => update_of_ne hd .., shared := fun d => ?_, table := fun d l i hi => ?_ }
  · obtain rfl | hd := eq_or_ne d c
    · simpa using hshared _
    · simp [setSpace, update_of_ne hd]
  · obtain rfl | hd := eq_or_ne d c
    · simpa using htable _ l i hi
    · simpa [setSpace, update_of_ne hd] using hi

end Walks

section
variable {l : Nat} {f : Space → Space} (hshared : ∀ sp, (f sp).shared = sp.shared)
include hshared

theorem pteAt_setHome (d w : Nat) :
    (s.setHome c l v f).pteAt d w = s.pteAt d w ∨ (s.setHome c l v f).pteAt d w = (f (s.home d 0 w)).pte w := by
  unfold setHome pteAt home holdsShared
  split
  · -- the kernel's tables: every address space that shares them sees the change
    split
    · exact .inr rfl
    · exact .inl rfl
  · obtain rfl | hd := eq_or_ne d c
    · simp only [setSpace_self, hshared]
      split
      · exact .inl rfl
      · exact .inr rfl
    · simp [setSpace, update_of_ne hd]

theorem pteAt_setHome_eq (hpte : ∀ sp, (f sp).pte = sp.pte) (d w : Nat) :
    (s.setHome c l v f).pteAt d w = s.pteAt d w := by
  rcases pteAt_setHome hshared d w with h | h
  · exact h
  · rw [h, hpte, pteAt]

theorem home_setHome : (s.setHome c l v f).home c l v = f (s.home c l v) := by
  unfold setHome home
  by_cases h : s.holdsShared c l v
  · simp only [h, if_true]
    exact if_pos h
  have h' : (s.setSpace c (f (s.space c))).holdsShared c l v = false := by
    simpa [holdsShared, hshared] using h
  simp [h, h']

end

theorem Space.addTable_rest (l v f : Nat) (user : Bool) :
    (sp.addTable l v f user).pte = sp.pte ∧ (sp.addTable l v f user).shared = sp.shared ∧
      (sp.addTable l v f user).table = (sp.setTable l (v / 512 ^ l) user).table := by
  obtain ⟨hpte, -, -, hshared⟩ := sp.setTable_rest l (v / 512 ^ l) user
  unfold addTable
  split <;> exact ⟨hpte, hshared, rfl⟩

theorem Space.setTable_mono (l i : Nat) (user : Bool) (l' i' : Nat) (h : (sp.table l' i').isSome) :
    ((sp.setTable l i user).table l' i').isSome := by
  unfold setTable
  split
  · simp only
    split
    · rfl
    · exact h
  · exact h

def Mm.Rooted (s : Mm) : Prop := ∀ c i, (s.space c).shared i = true → (s.kernel.table 3 i).isSome

theorem Walks.rooted (h : Walks c s t) (hs : s.Rooted) : t.Rooted := fun d i hi =>
  h.kernel 3 i (hs d i (by rwa [← h.shared]))

def Mm.Reaches (s : Mm) (c v l : Nat) : Prop := ((s.home c 0 v).table l (v / 512 ^ l)).isSome

theorem home_low {l : Nat} (hl : l < 3) : s.home c l v = s.home c 0 v := by
  simp [home, holdsShared, hl]

theorem reaches_of_home {l : Nat} (hs : s.Rooted) (hl : l ≤ 3)
    (h : ((s.home c l v).table l (v / 512 ^ l)).isSome) : s.Reaches c v l := by
  rcases Nat.lt_or_eq_of_le hl with hl | rfl
  · rwa [Reaches, ← home_low hl]
  by_cases hsh : s.Private c v
  · rw [hsh.home] at h
    rwa [Reaches, hsh.home]
  have hsh : (s.space c).shared (v / 512 ^ 3) := by rwa [Private, not_eq_false] at hsh
  rw [Reaches, home, if_pos (by rwa [holdsShared, decide_eq_true (by decide), Bool.true_and])]
  exact hs c _ hsh

theorem ensureTable_walks {R : Prop} {l : Nat} (hl : l ≤ 3) (hR : R → s.Rooted)
    (hp : l < 3 → R → s.Reaches c v (l + 1)) :
    Ends (ensureTable c l v user) s fun ok t => Walks c s t ∧ (∀ d w, t.pteAt d w = s.pteAt d w) ∧
      (R → ok → t.Reaches c v l) := by
  have hdiv : v / 512 ^ l / 512 = v / 512 ^ (l + 1) := by rw [Nat.div_div_eq_div_mul, ← Nat.pow_succ]
  have hparent : R → l < 3 → ((s.home c l v).table (l + 1) (v / 512 ^ l / 512)).isSome := by
    intro hs hl
    rw [hdiv, home_low hl]
    exact hp hl hs
  unfold ensureTable
  rw [ends_bind, ends_gets]
  split
  next u hu =>
    rw [ends_bind, ends_modify, ends_pure]
    have hshared : ∀ sp : Space, (sp.setTable l (v / 512 ^ l) (u || user)).shared = sp.shared :=
      fun sp => (sp.setTable_rest ..).2.2.2
    have hwalks : Walks c s (s.setHome c l v fun sp => sp.setTable l (v / 512 ^ l) (u || user)) :=
      .setHome hshared fun sp l' i' => sp.setTable_mono l (v / 512 ^ l) _ l' i'
    refine ⟨hwalks, pteAt_setHome_eq hshared fun sp => (sp.setTable_rest ..).1, fun hs _ => ?_⟩
    refine reaches_of_home (hwalks.rooted (hR hs)) hl ?_
    rw [home_setHome hshared, setTable_table _ (hparent hs)]
    simp
  · rw [ends_bind]
    refine ends_allocPage fun f pmm hf => ?_
    cases f with
    | none => exact ⟨.of_took hf, fun _ _ => rfl, by simp [pure_run]⟩
    | some f =>
      rw [ends_bind, ends_modify, ends_pure]
      have hshared : ∀ sp : Space, (sp.addTable l v f user).shared = sp.shared := fun sp => (sp.addTable_rest ..).2.1
      have hwalks : Walks c s (setHome { s with pmm } c l v fun sp => sp.addTable l v f user) := by
        refine (Walks.of_took hf).trans (.setHome hshared fun sp l' i' hi => ?_)
        rw [(sp.addTable_rest l v f user).2.2]
        exact sp.setTable_mono l (v / 512 ^ l) user l' i' hi
      refine ⟨hwalks, pteAt_setHome_eq hshared fun sp => (sp.addTable_rest ..).1, fun hs _ => ?_⟩
      refine reaches_of_home (hwalks.rooted (hR hs)) hl ?_
      have hhome : home { s with pmm } c l v = s.home c l v := rfl
      rw [home_setHome hshared, hhome, (addTable_rest _ l v f user).2.2, setTable_table _ (hparent hs)]
      simp

/-- `vmm_map_page_in` for any page: only the entry of this page changes, and it does if the answer is yes.
    `R` says that the kernel has the tables that are shared. -/
structure WalksTo (R : Prop) (c v : Nat) (e : Pte) (s : Mm) (ok : Bool) (t : Mm) : Prop extends Walks c s t where
  pteAt : ∀ d w, t.pteAt d w = s.pteAt d w ∨ (ok = true ∧ w = v ∧ t.pteAt d w = e)
  stored : R → ok = true → t.pteAt c v = e

theorem ensureTable_bind_walks {R : Prop} {l : Nat} {m : MmM Bool} (hl : l ≤ 3)
    (hR : R → s.Rooted) (hp : l < 3 → R → s.Reaches c v (l + 1))
    (hm : ∀ t, (R → t.Rooted) → (R → t.Reaches c v l) → Ends m t (WalksTo R c v e t)) :
    Ends (do if ← ensureTable c l v user then m else pure false) s (WalksTo R c v e s) := by
  rw [ends_bind]
  refine (ensureTable_walks hl hR hp).mono ?_
  rintro ok t ⟨hwalks, hpte, hreach⟩
  split
  next hok =>
    refine (hm t (fun hr => hwalks.rooted (hR hr)) fun hr => hreach hr hok).mono fun ok' u hu => ?_
    exact { hwalks.trans hu.toWalks with pteAt := fun d w => hpte d w ▸ hu.pteAt d w, stored := hu.stored }
  · exact { hwalks with pteAt := fun d w => .inl (hpte d w), stored := nofun }

theorem vmmMapPageIn_walks {va f : Nat} {flags : PteFlags} :
    Ends (vmmMapPageIn c va f flags) s
      (WalksTo s.Rooted c (pageOf va) { frame := f, present := true, flags } s) := by
  refine ensureTable_bind_walks (Nat.le_refl 3) id (by omega) fun t3 hs3 h3 => ?_
  refine ensureTable_bind_walks (by omega) hs3 (fun _ => h3) fun t2 hs2 h2 => ?_
  refine ensureTable_bind_walks (by omega) hs2 (fun _ => h2) fun t1 hs1 h1 => ?_
  rw [ends_bind, storePte, ends_modify, ends_pure]
  have hshared : ∀ sp : Space, (sp.setPte (pageOf va) { frame := f, present := true, flags }).shared = sp.shared :=
    fun sp => (sp.setPte_rest ..).2.2.2
  refine { Walks.setHome hshared fun sp l i hi => ?_ with pteAt := fun d w => ?_, stored := fun hr _ => ?_ }
  · rwa [(sp.setPte_rest ..).1]
  · rcases pteAt_setHome hshared d w with h | h
    · exact .inl h
    rw [h, setPte_pte]
    split
    · by_cases hw : w = pageOf va
      · exact .inr ⟨rfl, hw, by rw [hw, update_self]⟩
      · exact .inl (by rw [update_of_ne hw, pteAt])
    · exact .inl rfl
  · have hreach := h1 hr
    rw [pteAt, home_setHome hshared, setPte_of_table _ hreach, update_self]

end Limnx
