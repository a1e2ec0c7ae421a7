import Limnx.CapToken
import Mathlib.Data.Finset.Card

/-! A cascade revokes the linked descendants. -/

namespace Limnx
open List
variable {ts ts' us : List CapToken} {id : U32} {x y z : CapToken} {fuel : Nat}

/-- The token is in use. -/
def Alive (ts : List CapToken) (x : CapToken) : Prop := x ∈ ts ∧ x.used = true

/-- No two tokens in use have one number. -/
def Uniq (ts : List CapToken) : Prop :=
  ∀ (i j : Nat) (x y : CapToken), ts[i]? = some x → ts[j]? = some y → x.used = true → y.used = true →
    x.id = y.id → i = j

structure Shrinks (ts ts' : List CapToken) : Prop where
  kept : ∀ (i : Nat) (x : CapToken), ts'[i]? = some x → x.used = true → ts[i]? = some x
  length_eq : ts'.length = ts.length

theorem Shrinks.refl (ts : List CapToken) : Shrinks ts ts := ⟨fun _ _ h _ => h, rfl⟩

theorem Shrinks.trans (h : Shrinks ts ts') (h' : Shrinks ts' us) : Shrinks ts us where
  kept i x hx hu := h.kept i x (h'.kept i x hx hu) hu
  length_eq := h'.length_eq.trans h.length_eq

theorem Shrinks.alive (h : Shrinks ts ts') (hx : Alive ts' x) : Alive ts x := by
  obtain ⟨i, hi⟩ := mem_iff_getElem?.mp hx.1
  exact ⟨mem_of_getElem? (h.kept i x hi hx.2), hx.2⟩

theorem Shrinks.uniq (h : Shrinks ts ts') (hu : Uniq ts) : Uniq ts' := fun i j x y hi hj hx hy =>
  hu i j x y (h.kept i x hi hx) (h.kept j y hj hy) hx hy

theorem Uniq.eq_of_id (hu : Uniq ts) (hx : Alive ts x) (hy : Alive ts y) (hid : x.id = y.id) : x = y := by
  obtain ⟨i, hi⟩ := mem_iff_getElem?.mp hx.1
  obtain ⟨j, hj⟩ := mem_iff_getElem?.mp hy.1
  obtain rfl := hu i j x y hi hj hx.2 hy.2 hid
  exact Option.some.inj (hi.symm.trans hj)

def usedSlots (ts : List CapToken) : Finset Nat := (Finset.range ts.length).filter fun i => (ts[i]?).any (·.used)

theorem mem_usedSlots {i : Nat} : i ∈ usedSlots ts ↔ ∃ x, ts[i]? = some x ∧ x.used := by
  simp only [usedSlots, Finset.mem_filter, Finset.mem_range, Option.any_eq_true, and_iff_right_iff_imp]
  rintro ⟨x, hx, -⟩
  exact (List.getElem?_eq_some_iff.mp hx).1

theorem Shrinks.usedSlots_subset (h : Shrinks ts ts') : usedSlots ts' ⊆ usedSlots ts := by
  intro i hi
  obtain ⟨x, hx, hu⟩ := mem_usedSlots.mp hi
  exact mem_usedSlots.mpr ⟨x, h.kept i x hx hu, hu⟩

theorem clearToken_cases (id : U32) (ts : List CapToken) :
    (clearToken id ts = ts ∧ ∀ x, Alive ts x → x.id ≠ id) ∨
      ∃ i x, ts[i]? = some x ∧ x.used ∧ x.id = id ∧ clearToken id ts = ts.set i { x with used := false } := by
  unfold clearToken
  split
  next i hi =>
    obtain ⟨hlt, hp, -⟩ := findIdx?_eq_some_iff_getElem.mp hi
    simp only [Bool.and_eq_true, beq_iff_eq] at hp
    refine .inr ⟨i, ts[i], getElem?_eq_getElem hlt, hp.1, hp.2, ?_⟩
    rw [modify_eq_set_getElem?, getElem?_eq_getElem hlt]
    rfl
  next hi =>
    refine .inl ⟨rfl, fun x hx hid => ?_⟩
    have := findIdx?_eq_none_iff.mp hi x hx.1
    simp [hx.2, hid] at this

theorem getElem?_set_cleared {i j : Nat} (hx : (ts.set i { y with used := false })[j]? = some x)
    (hused : x.used) : j ≠ i ∧ ts[j]? = some x := by
  rw [getElem?_set] at hx
  split at hx
  · split at hx
    · cases hx
      cases hused
    · cases hx
  next hne => exact ⟨Ne.symm hne, hx⟩

theorem shrinks_clearToken (id : U32) (ts : List CapToken) : Shrinks ts (clearToken id ts) := by
  obtain ⟨h, -⟩ | ⟨i, y, -, -, -, h⟩ := clearToken_cases id ts <;> rw [h]
  · exact Shrinks.refl ts
  · exact ⟨fun j x hx hu => (getElem?_set_cleared hx hu).2, length_set⟩

theorem alive_clearToken (hu : Uniq ts) : Alive (clearToken id ts) x ↔ Alive ts x ∧ x.id ≠ id := by
  obtain ⟨h, hne⟩ | ⟨i, y, hy, hyu, hyid, h⟩ := clearToken_cases id ts <;> rw [h]
  · exact ⟨fun hx => ⟨hx, hne x hx⟩, And.left⟩
  constructor
  · rintro ⟨hx, hxu⟩
    obtain ⟨j, hj⟩ := mem_iff_getElem?.mp hx
    obtain ⟨hji, hj⟩ := getElem?_set_cleared hj hxu
    exact ⟨⟨mem_of_getElem? hj, hxu⟩, fun hid => hji (hu j i x y hj hy hxu hyu (hid.trans hyid.symm))⟩
  · rintro ⟨⟨hx, hxu⟩, hid⟩
    obtain ⟨j, hj⟩ := mem_iff_getElem?.mp hx
    refine ⟨mem_of_getElem? (i := j) ?_, hxu⟩
    rw [getElem?_set_ne, hj]
    rintro rfl
    rw [hy, Option.some_inj] at hj
    exact hid (hj ▸ hyid)

theorem card_usedSlots_clearToken (hz : Alive ts z) (hid : z.id = id) :
    (usedSlots (clearToken id ts)).card < (usedSlots ts).card := by
  obtain ⟨-, hne⟩ | ⟨i, y, hy, hyu, -, h⟩ := clearToken_cases id ts
  · exact absurd hid (hne z hz)
  refine Finset.card_lt_card ⟨(shrinks_clearToken id ts).usedSlots_subset, fun hsub => ?_⟩
  obtain ⟨x, hx, hxu⟩ := mem_usedSlots.mp (hsub (mem_usedSlots.mpr ⟨y, hy, hyu⟩))
  rw [h] at hx
  exact (getElem?_set_cleared hx hxu).1 rfl

/-- `x`, in use, is the token `id` or leads to it by parent links of tokens in use. -/
inductive Linked (ts : List CapToken) (id : U32) : CapToken → Prop
  | self {x : CapToken} : Alive ts x → x.id = id → Linked ts id x
  | child {x y : CapToken} : Alive ts x → Linked ts id y → x.parentId = y.id → Linked ts id x

theorem Linked.alive (h : Linked ts id x) : Alive ts x := by
  cases h with
  | self hx _ => exact hx
  | child hx _ _ => exact hx

structure Cascaded (ts ts' : List CapToken) (id : U32) : Prop where
  shrinks : Shrinks ts ts'
  gone : ∀ x, Alive ts' x → x.id ≠ id ∧ x.parentId ≠ id
  closed : ∀ y, Alive ts y → ¬Alive ts' y → ∀ x, Alive ts' x → x.parentId ≠ y.id
  linked : ∀ y, Alive ts y → ¬Alive ts' y → Linked ts id y

structure Scanned (ts cur : List CapToken) (id : U32) (fuel i : Nat) : Prop where
  shrinks : Shrinks ts cur
  small : (usedSlots cur).card ≤ fuel
  gone : ∀ x, Alive cur x → x.id ≠ id
  closed : ∀ y, Alive ts y → ¬Alive cur y → y.id ≠ id → ∀ x, Alive cur x → x.parentId ≠ y.id
  linked : ∀ y, Alive ts y → ¬Alive cur y → Linked ts id y
  done : ∀ (j : Nat) (x : CapToken), j < i → cur[j]? = some x → x.used = true → x.parentId ≠ id

def CascadeOk (fuel : Nat) : Prop :=
  ∀ ⦃ts : List CapToken⦄ ⦃id : U32⦄, Uniq ts → ts.length ≤ maxTokens → (usedSlots ts).card ≤ fuel →
    (∃ z, Alive ts z ∧ z.id = id) → Cascaded ts (revokeCascadeLocked fuel id ts) id

variable {cur : List CapToken} {i : Nat}

theorem Scanned.linked_of_linked (h : Scanned ts cur id fuel i) (hu : Uniq ts) (hz : ∃ z, Alive ts z ∧ z.id = id)
    (hx : Alive cur x) (hpar : x.parentId = id) (hy : Linked cur x.id y) : Linked ts id y := by
  induction hy with
  | self hy hid =>
    obtain ⟨z, hz, hzid⟩ := hz
    obtain rfl := (h.shrinks.uniq hu).eq_of_id hx hy hid.symm
    exact .child (h.shrinks.alive hx) (.self hz hzid) (hpar.trans hzid.symm)
  | child hy _ hpar ih => exact .child (h.shrinks.alive hy) ih hpar

theorem Scanned.skip (h : Scanned ts cur id fuel i)
    (hskip : ∀ x, cur[i]? = some x → x.used → x.parentId ≠ id) : Scanned ts cur id fuel (i + 1) :=
  { h with
    done := fun j w hj hw hwu => by
      rcases Nat.lt_succ_iff_lt_or_eq.mp hj with hj | rfl
      · exact h.done j w hj hw hwu
      · exact hskip w hw hwu }

theorem Scanned.restart (h : Scanned ts cur id fuel i) : Scanned ts cur id fuel 0 :=
  { h with done := fun _ _ hj => absurd hj (Nat.not_lt_zero _) }

section
variable (hok : CascadeOk fuel) (hu : Uniq ts) (hlen : ts.length ≤ maxTokens)
    (hz : ∃ z, Alive ts z ∧ z.id = id)
include hok hu hlen hz

theorem Scanned.visit (h : Scanned ts cur id fuel i) (hx : cur[i]? = some x) (hused : x.used) (hpar : x.parentId = id) :
    Scanned ts (revokeCascadeLocked fuel x.id cur) id fuel (i + 1) := by
  have hxa : Alive cur x := ⟨mem_of_getElem? hx, hused⟩
  have hc := hok (h.shrinks.uniq hu) (h.shrinks.length_eq ▸ hlen) h.small ⟨x, hxa, rfl⟩
  refine ⟨h.shrinks.trans hc.shrinks, ?_, fun y hy => h.gone y (hc.shrinks.alive hy), ?_, ?_, ?_⟩
  · exact (Finset.card_le_card hc.shrinks.usedSlots_subset).trans h.small
  · intro y hy hny hid w hw
    by_cases hyc : Alive cur y
    · exact hc.closed y hyc hny w hw
    · exact h.closed y hy hyc hid w (hc.shrinks.alive hw)
  · intro y hy hny
    by_cases hyc : Alive cur y
    · exact h.linked_of_linked hu hz hxa hpar (hc.linked y hyc hny)
    · exact h.linked y hy hyc
  · intro j w hj hw hwu
    have hwc := hc.shrinks.kept j w hw hwu
    rcases Nat.lt_succ_iff_lt_or_eq.mp hj with hj | rfl
    · exact h.done j w hj hwc hwu
    -- the token in slot `i` was cleared
    obtain rfl : w = x := Option.some.inj (hwc.symm.trans hx)
    exact absurd rfl (hc.gone w ⟨mem_of_getElem? hw, hwu⟩).1

theorem Scanned.scan (h : Scanned ts cur id fuel 0) :
    Scanned ts (revokeScan (revokeCascadeLocked fuel) id cur).1 id fuel maxTokens := by
  -- the slots are visited in order; after `n` of them the scan has come to slot `n`
  suffices hn : ∀ n, Scanned ts ((range n).foldl (revokeVisit (revokeCascadeLocked fuel) id) (cur, false)).1
      id fuel n from hn maxTokens
  intro n
  induction n with
  | zero => exact h
  | succ n ih =>
    rw [range_succ, foldl_append]
    simp only [foldl_cons, foldl_nil]
    unfold revokeVisit
    split
    next x hx =>
      split
      next hcond =>
        simp only [Bool.and_eq_true, beq_iff_eq] at hcond
        exact ih.visit hok hu hlen hz hx hcond.1 hcond.2
      next hcond =>
        refine ih.skip fun w hw hwu hpar => hcond ?_
        obtain rfl : w = x := Option.some.inj (hw.symm.trans hx)
        simp [hwu, hpar]
    next hx => exact ih.skip fun w hw => nomatch hx.symm.trans hw

theorem Scanned.passes : ∀ (n : Nat) {cur : List CapToken}, Scanned ts cur id fuel 0 →
      Scanned ts (revokePasses (revokeCascadeLocked fuel) id (n + 1) cur) id fuel maxTokens
  | n, cur, h => by
    have hscan := h.scan hok hu hlen hz
    rw [revokePasses]
    dsimp only
    split
    · cases n with
      | zero => exact hscan
      | succ n => exact Scanned.passes n hscan.restart
    · exact hscan

end

theorem cascadeOk : ∀ fuel, CascadeOk fuel
  | 0, ts, id, _, _, hsmall, hz => by
    obtain ⟨z, hz, -⟩ := hz
    obtain ⟨i, hi⟩ := mem_iff_getElem?.mp hz.1
    have := Finset.card_pos.mpr ⟨i, mem_usedSlots.mpr ⟨z, hi, hz.2⟩⟩
    omega
  | fuel + 1, ts, id, hu, hlen, hsmall, hz => by
    obtain ⟨z, hza, hzid⟩ := hz
    have hcard := card_usedSlots_clearToken hza hzid
    have hcleared : ∀ y, Alive ts y → ¬Alive (clearToken id ts) y → y.id = id := fun y hy hny =>
      by_contra fun hne => hny ((alive_clearToken hu).mpr ⟨hy, hne⟩)
    have hstart : Scanned ts (clearToken id ts) id fuel 0 :=
      { shrinks := shrinks_clearToken id ts
        small := by omega
        gone := fun x hx => ((alive_clearToken hu).mp hx).2
        closed := fun y hy hny hne => absurd (hcleared y hy hny) hne
        linked := fun y hy hny => .self hy (hcleared y hy hny)
        done := fun _ _ hj => absurd hj (Nat.not_lt_zero _) }
    have hend := Scanned.passes (cascadeOk fuel) hu hlen ⟨z, hza, hzid⟩ 31 hstart
    have hpar : ∀ x, Alive (revokeCascadeLocked (fuel + 1) id ts) x → x.parentId ≠ id := by
      intro x hx
      obtain ⟨j, hj⟩ := mem_iff_getElem?.mp hx.1
      refine hend.done j x ?_ hj hx.2
      have := (List.getElem?_eq_some_iff.mp (hend.shrinks.kept j x hj hx.2)).1
      omega
    refine ⟨hend.shrinks, fun x hx => ⟨hend.gone x hx, hpar x hx⟩, fun y hy hny x hx => ?_, hend.linked⟩
    by_cases hyid : y.id = id
    · exact hyid ▸ hpar x hx
    · exact hend.closed y hy hny hyid x hx

section
variable (hu : Uniq ts) (hlen : ts.length ≤ maxTokens) (hz : ∃ z, Alive ts z ∧ z.id = id)
include hu hlen hz

theorem cascaded : Cascaded ts (revokeCascadeLocked maxTokens id ts) id := by
  refine cascadeOk maxTokens hu hlen ?_ hz
  refine (Finset.card_filter_le _ _).trans ?_
  rwa [Finset.card_range]

theorem alive_revokeCascade : Alive (revokeCascadeLocked maxTokens id ts) x ↔ Alive ts x ∧ ¬Linked ts id x := by
  have hc := cascaded hu hlen hz
  constructor
  · refine fun hx => ⟨hc.shrinks.alive hx, fun hl => ?_⟩
    -- by induction along the links: the parent is cleared, so the child is
    have hdead : ∀ y, Linked ts id y → ¬Alive (revokeCascadeLocked maxTokens id ts) y := by
      intro y hy
      induction hy with
      | self _ hid => exact fun ha => (hc.gone _ ha).1 hid
      | child _ hy hpar ih => exact fun ha => hc.closed _ hy.alive ih _ ha hpar
    exact hdead x hl hx
  · rintro ⟨hx, hnl⟩
    by_contra hna
    exact hnl (hc.linked x hx hna)

theorem shrinks_revokeCascade : Shrinks ts (revokeCascadeLocked maxTokens id ts) := (cascaded hu hlen hz).shrinks

end

end Limnx
