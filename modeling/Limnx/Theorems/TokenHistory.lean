import Limnx.Lib.BitWord
import Limnx.Theorems.TokenCascade

/-! As long as fewer than 2^31 tokens have been created, numbers are given out once, and every token in use has a
    recorded birth (`Consistent`). -/

namespace Limnx
open BitWord List Option TokenSys
variable {s s' : TokenSys} {x y z : CapToken} {owner target : Nat} {perms : U32} {resource : CStr}
  {birth : Birth} {d : Delegation} {calls : List Delegation} {pid : Nat} {ts : List CapToken} {newId : U32}
  {i : Nat}

theorem tokenInsert_eq (h : tokenInsert s owner perms target resource birth = some s') :
    ∃ (i : Nat) (old : CapToken), s.tokens[i]? = some old ∧ old.used = false ∧
      s' = { s with
        tokens := s.tokens.set i (freshToken s.nextTokenId owner perms target resource)
        nextTokenId := s.nextTokenId + 1
        births := fun id => if id = s.nextTokenId then some birth else s.births id } := by
  obtain ⟨i, hi, rfl⟩ := map_eq_some_iff.mp h
  obtain ⟨hlt, hused, -⟩ := findIdx?_eq_some_iff_getElem.mp hi
  exact ⟨i, s.tokens[i], getElem?_eq_getElem hlt, by simpa using hused, rfl⟩

theorem tokenInsert_calls (h : tokenInsert s owner perms target resource birth = some s') : s'.calls = s.calls := by
  obtain ⟨i, old, -, -, rfl⟩ := tokenInsert_eq h
  rfl

theorem getElem?_set_free {i j : Nat} {new : CapToken}
    (h : (ts.set i new)[j]? = some x) : (j = i ∧ x = new) ∨ (j ≠ i ∧ ts[j]? = some x) := by
  rw [getElem?_set] at h
  split at h
  · split at h
    · cases h
      exact .inl ⟨Eq.symm ‹_›, rfl⟩
    · cases h
  · exact .inr ⟨Ne.symm ‹_›, h⟩

theorem alive_set_free {old new : CapToken} (hi : ts[i]? = some old)
    (hold : old.used = false) (hnew : new.used) : Alive (ts.set i new) x ↔ Alive ts x ∨ x = new := by
  obtain ⟨hlt, -⟩ := List.getElem?_eq_some_iff.mp hi
  constructor
  · rintro ⟨hx, hu⟩
    obtain ⟨j, hj⟩ := mem_iff_getElem?.mp hx
    rcases getElem?_set_free hj with ⟨-, rfl⟩ | ⟨-, hj⟩
    · exact .inr rfl
    · exact .inl ⟨mem_of_getElem? hj, hu⟩
  · rintro (⟨hx, hu⟩ | rfl)
    · obtain ⟨j, hj⟩ := mem_iff_getElem?.mp hx
      refine ⟨mem_of_getElem? (i := j) ?_, hu⟩
      rw [getElem?_set_ne, hj]
      rintro rfl
      obtain rfl : old = x := some.inj (hi.symm.trans hj)
      simp [hold] at hu
    · exact ⟨mem_set hlt x, hnew⟩

theorem uniq_set_free {new : CapToken} (hu : Uniq ts)
    (hfresh : ∀ x, Alive ts x → x.id ≠ new.id) : Uniq (ts.set i new) := by
  intro a b x y ha hb hx hy hid
  rcases getElem?_set_free ha with ⟨rfl, rfl⟩ | ⟨-, ha'⟩ <;> rcases getElem?_set_free hb with ⟨rfl, rfl⟩ | ⟨-, hb'⟩
  · rfl
  · exact absurd hid.symm (hfresh y ⟨mem_of_getElem? hb', hy⟩)
  · exact absurd hid (hfresh x ⟨mem_of_getElem? ha', hx⟩)
  · exact hu a b x y ha' hb' hx hy hid

theorem getElem?_linkTokens (hu : Uniq ts) (h : (linkTokens ts d newId)[i]? = some x) (hx : x.used) :
    ∃ y, ts[i]? = some y ∧ y.used ∧ x = if y.id = newId then y.linkTo d else y := by
  unfold linkTokens at h
  split at h
  next j hj =>
    obtain ⟨hlt, hp, -⟩ := findIdx?_eq_some_iff_getElem.mp hj
    simp only [Bool.and_eq_true, beq_iff_eq] at hp
    rw [getElem?_modify, Option.map_eq_map, Option.map_eq_some_iff] at h
    obtain ⟨y, hy, rfl⟩ := h
    obtain rfl | hji := eq_or_ne j i
    · obtain rfl : ts[j] = y := some.inj ((getElem?_eq_getElem hlt).symm.trans hy)
      exact ⟨_, hy, hp.1, by simp [hp.2]⟩
    · rw [if_neg hji] at hx ⊢
      refine ⟨y, hy, hx, (if_neg fun hid => hji ?_).symm⟩
      exact hu j i _ y (getElem?_eq_getElem hlt) hy hp.1 hx (hp.2.trans hid.symm)
  next hnone =>
    refine ⟨x, h, hx, (if_neg fun hid => ?_).symm⟩
    have := findIdx?_eq_none_iff.mp hnone x (mem_of_getElem? h)
    simp [hx, hid] at this

theorem alive_linkTokens (hu : Uniq ts)
    (h : Alive (linkTokens ts d newId) x) : ∃ y, Alive ts y ∧ x = if y.id = newId then y.linkTo d else y := by
  obtain ⟨i, hi⟩ := mem_iff_getElem?.mp h.1
  obtain ⟨y, hy, hyu, rfl⟩ := getElem?_linkTokens hu hi h.2
  exact ⟨y, ⟨mem_of_getElem? hy, hyu⟩, rfl⟩

theorem exists_alive_linkTokens (d : Delegation) (newId : U32) (h : Alive ts y) :
    ∃ x, Alive (linkTokens ts d newId) x ∧ x.id = y.id := by
  unfold linkTokens
  split
  next j hj =>
    obtain ⟨i, hi⟩ := mem_iff_getElem?.mp h.1
    have hget : (ts.modify j (·.linkTo d))[i]? = some (if j = i then y.linkTo d else y) := by
      rw [getElem?_modify, hi]
      rfl
    refine ⟨_, ⟨mem_of_getElem? hget, ?_⟩, ?_⟩
    · split
      · exact h.2
      · exact h.2
    · split <;> rfl
  · exact ⟨y, h, rfl⟩

theorem uniq_linkTokens (hu : Uniq ts) : Uniq (linkTokens ts d newId) := by
  intro i j x y hi hj hx hy hid
  obtain ⟨x', hi', hx', rfl⟩ := getElem?_linkTokens hu hi hx
  obtain ⟨y', hj', hy', rfl⟩ := getElem?_linkTokens hu hj hy
  refine hu i j x' y' hi' hj' hx' hy' ?_
  split at hid <;> split at hid <;> exact hid

theorem shrinks_cleanup : Shrinks s.tokens (capTokenCleanupPid s pid).tokens := by
  refine ⟨fun i x hx hu => ?_, by simp [capTokenCleanupPid]⟩
  simp only [capTokenCleanupPid, getElem?_map, map_eq_some_iff] at hx
  obtain ⟨y, hy, rfl⟩ := hx
  split at hu
  · cases hu
  next hc => rw [if_neg hc, hy]

theorem alive_cleanup : Alive (capTokenCleanupPid s pid).tokens x ↔ Alive s.tokens x ∧ x.concerns pid = false := by
  constructor
  · intro hx
    refine ⟨shrinks_cleanup.alive hx, ?_⟩
    obtain ⟨y, hy, rfl⟩ := mem_map.mp hx.1
    have hu := hx.2
    split at hu
    · cases hu
    rename_i hc
    rw [if_neg hc]
    simpa [hu] using hc
  · rintro ⟨⟨hx, hu⟩, hc⟩
    exact ⟨mem_map.mpr ⟨x, hx, by simp [hc]⟩, hu⟩

/-- The token `c` was delegated from `p`. -/
def ParentOf (s : TokenSys) (p c : U32) : Prop := s.births c = some (.delegated p)

/-- The token `c` came from `a` by delegations. -/
def Descends (s : TokenSys) (a c : U32) : Prop := Relation.TransGen (ParentOf s) a c

def Above (s : TokenSys) (a c : U32) : Prop := Relation.ReflTransGen (ParentOf s) a c

def AliveId (s : TokenSys) (a : U32) : Prop := ∃ x, Alive s.tokens x ∧ x.id = a

theorem descends_iff_above {a c p : U32} (h : ParentOf s p c) : Descends s a c ↔ Above s a p := by
  constructor
  · intro hd
    obtain ⟨q, haq, hqc⟩ := Relation.TransGen.tail'_iff.mp hd
    obtain rfl : q = p := by
      rw [ParentOf, h] at hqc
      cases hqc
      rfl
    exact haq
  · exact fun ha => Relation.TransGen.tail' ha h

/-- The table agrees with its history. -/
structure Consistent (s : TokenSys) : Prop where
  length_le : s.tokens.length ≤ maxTokens
  uniq : Uniq s.tokens
  next_pos : 0 < s.nextTokenId.toNat
  births_lt : ∀ id b, s.births id = some b → 0 < id.toNat ∧ id.toNat < s.nextTokenId.toNat
  parent_lt : ∀ p c, ParentOf s p c → 0 < p.toNat ∧ p.toNat < c.toNat
  born : ∀ x, Alive s.tokens x → ∃ b, s.births x.id = some b
  calls_lt : ∀ d ∈ s.calls, 0 < d.parentTokId.toNat ∧ d.parentTokId.toNat < s.nextTokenId.toNat
  created : ∀ d ∈ s.calls, ∀ c, d.newId = some c → ParentOf s d.parentTokId c
  root : ∀ x, Alive s.tokens x → (∀ p, ¬ParentOf s p x.id) → x.parentId = 0
  link : ∀ x p, Alive s.tokens x → ParentOf s p x.id →
    x.parentId = p ∨ (x.parentId = 0 ∧ ∃ d ∈ s.calls, d.newId = some x.id)

def Source (s : TokenSys) (p : U32) : Prop :=
  (∃ x, Alive s.tokens x ∧ ParentOf s p x.id) ∨ ∃ d ∈ s.calls, d.newId = none ∧ d.parentTokId = p

namespace Consistent

section
variable (h : Consistent s)
include h

theorem id_lt (hx : Alive s.tokens x) : x.id.toNat < s.nextTokenId.toNat :=
  (h.births_lt _ _ (h.born x hx).choose_spec).2

theorem above_le {a c : U32} (hac : Above s a c) : a.toNat ≤ c.toNat := by
  induction hac with
  | refl => exact Nat.le_refl _
  | tail _ hpc ih => exact ih.trans (Nat.le_of_lt (h.parent_lt _ _ hpc).2)

theorem source_lt {p : U32} (hp : Source s p) : p.toNat < s.nextTokenId.toNat := by
  rcases hp with ⟨x, hx, hpx⟩ | ⟨d, hd, -, rfl⟩
  · exact (h.parent_lt _ _ hpx).2.trans (h.id_lt hx)
  · exact (h.calls_lt d hd).2

theorem parentOf_of_parentId (hx : Alive s.tokens x) (hne : x.parentId ≠ 0) : ParentOf s x.parentId x.id := by
  by_cases hroot : ∀ p, ¬ParentOf s p x.id
  · exact absurd (h.root x hx hroot) hne
  obtain ⟨p, hp⟩ := not_forall_not.mp hroot
  rcases h.link x p hx hp with rfl | ⟨h0, -⟩
  · exact hp
  · exact absurd h0 hne

omit h in
theorem empty : Consistent {} := by
  have hdead : ∀ x : CapToken, ¬Alive ({} : TokenSys).tokens x := by
    rintro x ⟨hx, hu⟩
    obtain rfl := eq_of_mem_replicate hx
    cases hu
  refine ⟨by simp, fun i j x y hi _ hx => ?_, by decide, ?_, ?_, fun x hx => absurd hx (hdead x), ?_, ?_,
    fun x hx => absurd hx (hdead x), fun x _ hx => absurd hx (hdead x)⟩
  · exact absurd ⟨mem_of_getElem? hi, hx⟩ (hdead x)
  · simp
  · simp [ParentOf]
  · simp
  · simp

theorem insert (hn : s.nextTokenId.toNat < 2 ^ 31) (hins : tokenInsert s owner perms target resource birth = some s')
    (hbirth : ∀ p, birth = .delegated p → 0 < p.toNat ∧ p.toNat < s.nextTokenId.toNat)
    (hcalls : ∀ d ∈ calls, d ∈ s.calls ∨ (d.newId = some s.nextTokenId ∧ birth = .delegated d.parentTokId))
    (hkeep : ∀ d ∈ s.calls, ∀ c, d.newId = some c → d ∈ calls)
    (hnew : ∀ p, birth = .delegated p → ∃ d ∈ calls, d.newId = some s.nextTokenId) :
    Consistent { s' with calls := calls } := by
  obtain ⟨i, old, hi, hold, rfl⟩ := tokenInsert_eq hins
  have hnext : (s.nextTokenId + 1).toNat = s.nextTokenId.toNat + 1 := by
    exact Nat.mod_eq_of_lt (by simp; omega)
  have hne : ∀ {c : U32}, c.toNat < s.nextTokenId.toNat → c ≠ s.nextTokenId := by
    rintro c hc rfl
    exact Nat.lt_irrefl _ hc
  have hbirthOld : ∀ {x}, Alive s.tokens x → x.id ≠ s.nextTokenId := fun hx => hne (h.id_lt hx)
  have hbirths_lt : ∀ id b, s.births id = some b → id ≠ s.nextTokenId := fun id b hb => hne (h.births_lt id b hb).2
  constructor
  · simpa using h.length_le
  · exact uniq_set_free h.uniq fun x hx => hbirthOld hx
  · rw [hnext]
    omega
  · intro id b hb
    rw [hnext]
    dsimp only at hb
    split at hb
    next hid =>
      rw [hid]
      exact ⟨h.next_pos, Nat.lt_succ_self _⟩
    · have := h.births_lt id b hb
      omega
  · intro p c hpc
    simp only [ParentOf] at hpc
    split at hpc
    next hid =>
      rw [hid]
      exact hbirth p (some.inj hpc)
    · exact h.parent_lt p c hpc
  · intro x hx
    dsimp only
    rcases (alive_set_free hi hold rfl).mp hx with hx | rfl
    · rw [if_neg (hbirthOld hx)]
      exact h.born x hx
    · exact ⟨birth, if_pos rfl⟩
  · intro d hd
    rw [hnext]
    rcases hcalls d hd with hd | ⟨-, hb⟩
    · have := h.calls_lt d hd
      omega
    · have := hbirth _ hb
      omega
  · intro d hd c hc
    simp only [ParentOf]
    rcases hcalls d hd with hd | ⟨hid, hb⟩
    · have hpc := h.created d hd c hc
      rw [if_neg (hbirths_lt c _ hpc)]
      exact hpc
    · obtain rfl : s.nextTokenId = c := some.inj (hid.symm.trans hc)
      rw [if_pos rfl, hb]
  · intro x hx hroot
    rcases (alive_set_free hi hold rfl).mp hx with hx | rfl
    · refine h.root x hx fun p hp => hroot p ?_
      simp only [ParentOf, if_neg (hbirthOld hx)]
      exact hp
    · rfl
  · intro x p hx hp
    rcases (alive_set_free hi hold rfl).mp hx with hx | rfl
    · simp only [ParentOf, if_neg (hbirthOld hx)] at hp
      refine (h.link x p hx hp).imp_right fun ⟨h0, d, hd, hid⟩ => ⟨h0, d, hkeep d hd _ hid, hid⟩
    · simp only [ParentOf, freshToken, if_true, some_inj] at hp
      exact .inr ⟨rfl, hnew p hp⟩

theorem shrink {revoked : List U32} (hts : Shrinks s.tokens ts)
    (hcalls : ∀ d ∈ calls, d ∈ s.calls ∨ (d.newId = none ∧ AliveId s d.parentTokId))
    (hkeep : ∀ d ∈ s.calls, ∀ c, d.newId = some c → AliveId s c → d ∈ calls) :
    Consistent { s with tokens := ts, calls := calls, revoked := revoked } where
  length_le := hts.length_eq ▸ h.length_le
  uniq := hts.uniq h.uniq
  next_pos := h.next_pos
  births_lt := h.births_lt
  parent_lt := h.parent_lt
  born x hx := h.born x (hts.alive hx)
  calls_lt d hd := by
    rcases hcalls d hd with hd | ⟨-, x, hx, hid⟩
    · exact h.calls_lt d hd
    · rw [← hid]
      exact h.births_lt _ _ (h.born x hx).choose_spec
  created d hd c hc := by
    rcases hcalls d hd with hd | ⟨hnone, -⟩
    · exact h.created d hd c hc
    · simp [hnone] at hc
  root x hx := h.root x (hts.alive hx)
  link x p hx hp := (h.link x p (hts.alive hx) hp).imp_right fun ⟨h0, d, hd, hid⟩ =>
    ⟨h0, d, hkeep d hd _ hid ⟨x, hts.alive hx, rfl⟩, hid⟩

theorem linkStep (hd : d ∈ s.calls) (hid : d.newId = some newId)
    (hcalls : ∀ e ∈ calls, e ∈ s.calls) (hkeep : ∀ e ∈ s.calls, e.newId ≠ some newId → e ∈ calls) :
    Consistent { s with tokens := linkTokens s.tokens d newId, calls := calls } := by
  have hpar := h.created d hd newId hid
  constructor
  · refine le_of_eq_of_le ?_ h.length_le
    simp only [linkTokens]
    split <;> simp
  · exact uniq_linkTokens h.uniq
  · exact h.next_pos
  · exact h.births_lt
  · exact h.parent_lt
  · intro x hx
    obtain ⟨y, hy, rfl⟩ := alive_linkTokens h.uniq hx
    have := h.born y hy
    split <;> exact this
  · exact fun e he => h.calls_lt e (hcalls e he)
  · exact fun e he => h.created e (hcalls e he)
  · intro x hx hroot
    obtain ⟨y, hy, rfl⟩ := alive_linkTokens h.uniq hx
    split at hroot
    next hyid => exact absurd (hyid ▸ hpar) (hroot d.parentTokId)
    rename_i hyid
    rw [if_neg hyid]
    exact h.root y hy hroot
  · intro x p hx hp
    obtain ⟨y, hy, rfl⟩ := alive_linkTokens h.uniq hx
    by_cases hyid : y.id = newId
    · rw [if_pos hyid] at hp ⊢
      have hp' : ParentOf s p newId := hyid ▸ hp
      rw [ParentOf, hpar, some_inj] at hp'
      cases hp'
      exact .inl rfl
    · rw [if_neg hyid] at hp ⊢
      refine (h.link y p hy hp).imp_right fun ⟨h0, e, he, heid⟩ => ⟨h0, e, hkeep e he ?_, heid⟩
      exact fun hne => hyid (some.inj (heid.symm.trans hne))

end

end Consistent

/-! ### The cases of a step -/

structure Begun (x : CapToken) (d : Delegation) : Prop where
  newId : d.newId = none
  parent : d.parentTokId = x.id
  perms : Within d.perms x.perms
  resource : x.resource <+: d.resource
  depth_lt : x.depth.toNat < 4
  newDepth : d.newDepth.toNat = x.depth.toNat + 1

inductive StepCase (s : TokenSys) : TokenOp → TokenSys → Prop
  | same (op : TokenOp) : StepCase s op s
  | create {owner : Nat} {caps perms : U32} {target : Nat} {resource : CStr} {s' : TokenSys} :
      Within perms caps →
      tokenInsert s owner perms target resource (.root ⟨owner, caps, perms, resource.take (tokenPathMax - 1)⟩) =
        some s' →
      StepCase s (.create owner caps perms target resource) s'
  | begin {id : U32} {caller target : Nat} {perms : U32} {resource : CStr} {x : CapToken}
      {d : Delegation} : Alive s.tokens x → x.id = id → Begun x d →
      StepCase s (.delegateBegin id caller target perms resource) { s with calls := d :: s.calls }
  | full {i : Nat} {d : Delegation} : s.calls[i]? = some d → d.newId = none →
      StepCase s (.delegateCreate i) { s with calls := s.calls.eraseIdx i }
  | created {i : Nat} {d : Delegation} {s' : TokenSys} : s.calls[i]? = some d → d.newId = none →
      tokenInsert s d.callerPid d.perms d.targetPid d.resource (.delegated d.parentTokId) = some s' →
      s.nextTokenId.toInt > 0 →
      StepCase s (.delegateCreate i) { s' with calls := s.calls.set i { d with newId := some s.nextTokenId } }
  | unlinked {i : Nat} {d : Delegation} {s' : TokenSys} : s.calls[i]? = some d → d.newId = none →
      tokenInsert s d.callerPid d.perms d.targetPid d.resource (.delegated d.parentTokId) = some s' →
      s.nextTokenId.toInt ≤ 0 →
      StepCase s (.delegateCreate i) { s' with calls := s.calls.eraseIdx i }
  | link {i : Nat} {d : Delegation} {newId : U32} : s.calls[i]? = some d → d.newId = some newId →
      StepCase s (.delegateLink i) { s with tokens := linkTokens s.tokens d newId, calls := s.calls.eraseIdx i }
  | revoke {id : U32} {caller : Nat} {x : CapToken} {ts : List CapToken} : Alive s.tokens x → x.id = id →
      x.ownerPid = caller → revokeCascadeLocked maxTokens id s.tokens = ts →
      StepCase s (.revoke id caller) { s with tokens := ts, revoked := id :: s.revoked }
  | cleanup (pid : Nat) : StepCase s (.cleanup pid) (capTokenCleanupPid s pid)

theorem alive_of_findToken {id : U32} (h : findToken ts id = some x) : Alive ts x ∧ x.id = id := by
  have hp := find?_some h
  simp only [Bool.and_eq_true, beq_iff_eq] at hp
  exact ⟨⟨mem_of_find?_eq_some h, hp.1⟩, hp.2⟩

theorem begun_of_delegateBegin {id : U32} {caller : Nat}
    (h : delegateBegin s id caller target perms resource = .ok d) : ∃ x, Alive s.tokens x ∧ x.id = id ∧ Begun x d := by
  simp only [delegateBegin] at h
  split at h
  · cases h
  rename_i x hx
  obtain ⟨halive, hid⟩ := alive_of_findToken hx
  refine ⟨x, halive, hid, ?_⟩
  split at h
  · cases h
  generalize (if perms = 0 then x.perms else perms) = q at h
  split at h
  · cases h
  rename_i hperms
  split at h
  · cases h
  rename_i hres
  split at h
  · cases h
  rename_i hdepth
  have hlt : x.depth.toNat < 4 := by
    simpa [tokenMaxDepth, BitVec.le_def] using hdepth
  cases h
  refine ⟨rfl, rfl, not_not.mp hperms, ?_, hlt, ?_⟩
  · by_cases hr : resource = []
    · simp [hr]
    by_cases hp : x.resource = []
    · simp [hp]
    · simpa [hr, hp, prefixMatch] using hres
  · rw [BitVec.toNat_add]
    exact Nat.mod_eq_of_lt (by simp; omega)

theorem stepCase (s : TokenSys) (op : TokenOp) : StepCase s op (s.step op) := by
  cases op with
  | create owner caps perms target resource =>
    simp only [step, capTokenCreate]
    split
    · exact .same _
    rename_i hw
    split
    · exact .create (not_not.mp hw) ‹_›
    · exact .same _
  | delegateBegin id caller target perms resource =>
    simp only [step]
    split
    next d hd =>
      obtain ⟨x, hx, hid, hb⟩ := begun_of_delegateBegin hd
      exact .begin hx hid hb
    · exact .same _
  | delegateCreate i =>
    simp only [step, delegateCreate]
    split
    next d hd =>
      split
      · exact .same _
      rename_i hnone
      have hnone : d.newId = none := by simpa using hnone
      split
      · exact .full hd hnone
      split
      · exact .created hd hnone ‹_› ‹_›
      · exact .unlinked hd hnone ‹_› (not_lt.mp ‹_›)
    · exact .same _
  | delegateLink i =>
    simp only [step, delegateLink]
    split
    · split
      · exact .same _
      · exact .link ‹_› ‹_›
    · exact .same _
  | revoke id caller =>
    simp only [step, capTokenRevoke]
    split
    · exact .same _
    rename_i x hx
    obtain ⟨halive, hid⟩ := alive_of_findToken hx
    split
    · exact .same _
    · exact .revoke halive hid (not_not.mp ‹_›) rfl
  | cleanup pid => exact .cleanup pid

/-- Numbers are left: the next one is positive as an `int`. -/
def IdsLeft (s : TokenSys) : TokenOp → Prop
  | .create .. | .delegateCreate _ => s.nextTokenId.toNat < 2 ^ 31
  | _ => True

instance (s : TokenSys) (op : TokenOp) : Decidable (IdsLeft s op) := by
  unfold IdsLeft
  split <;> infer_instance

theorem toInt_pos_of_lt {n : U32} (hpos : 0 < n.toNat) (hlt : n.toNat < 2 ^ 31) : n.toInt > 0 := by
  rw [BitVec.toInt_eq_toNat_of_lt (by omega)]
  omega

theorem mem_eraseIdx_of_ne {e : Delegation} (hd : calls[i]? = some d) (he : e ∈ calls) (hne : e ≠ d) :
    e ∈ calls.eraseIdx i := by
  obtain ⟨j, hj⟩ := mem_iff_getElem?.mp he
  refine mem_eraseIdx_iff_getElem?.mpr ⟨j, fun hji => hne ?_, hj⟩
  subst hji
  exact some.inj (hj.symm.trans hd)

theorem mem_set_of_ne {e f : Delegation} (hd : calls[i]? = some d) (he : e ∈ calls) (hne : e ≠ d) :
    e ∈ calls.set i f := by
  obtain ⟨j, hj⟩ := mem_iff_getElem?.mp he
  refine mem_of_getElem? (i := j) ?_
  rw [getElem?_set_ne, hj]
  rintro rfl
  exact hne (some.inj (hj.symm.trans hd))

theorem Consistent.step {op : TokenOp} (h : Consistent s) (hids : IdsLeft s op) : Consistent (s.step op) := by
  have hc := stepCase s op
  generalize s.step op = s' at hc
  cases hc with
  | same => exact h
  | create _ hins =>
    have hcalls := tokenInsert_calls hins
    have hs' : Consistent { s' with calls := s'.calls } :=
      h.insert hids hins nofun (fun d hd => .inl (hcalls ▸ hd))
        (fun d hd c _ => hcalls ▸ hd) nofun
    exact hs'
  | begin hx hid hb =>
    refine h.shrink (Shrinks.refl _) (fun d hd => ?_) fun d hd _ _ _ => mem_cons_of_mem _ hd
    rcases mem_cons.mp hd with rfl | hd
    · exact .inr ⟨hb.newId, _, hx, hb.parent.symm⟩
    · exact .inl hd
  | full hd hnone =>
    refine h.shrink (Shrinks.refl _) (fun e he => .inl (mem_of_mem_eraseIdx he)) fun e he c hc _ => ?_
    exact mem_eraseIdx_of_ne hd he fun hed => by simp [hed, hnone] at hc
  | @created i d s' hd hnone hins _ =>
    refine h.insert hids hins (fun p hp => ?_) (fun e he => ?_) (fun e he c hc => ?_) fun p _ => ?_
    · cases hp
      exact h.calls_lt d (mem_of_getElem? hd)
    · rcases mem_or_eq_of_mem_set he with he | rfl
      · exact .inl he
      · exact .inr ⟨rfl, rfl⟩
    · exact mem_set_of_ne hd he fun hed => by simp [hed, hnone] at hc
    · exact ⟨_, List.mem_set (List.getElem?_eq_some_iff.mp hd).1 _, rfl⟩
  | unlinked _ _ _ hneg =>
    have := toInt_pos_of_lt h.next_pos hids
    omega
  | link hd hid =>
    refine h.linkStep (mem_of_getElem? hd) hid (fun e he => mem_of_mem_eraseIdx he) fun e he hne => ?_
    exact mem_eraseIdx_of_ne hd he fun hed => hne (hed ▸ hid)
  | revoke hx hid _ hts =>
    have hshrinks := shrinks_revokeCascade h.uniq h.length_le ⟨_, hx, hid⟩
    rw [hts] at hshrinks
    exact h.shrink hshrinks (fun _ hd => .inl hd) fun _ hd _ _ _ => hd
  | cleanup pid => exact h.shrink shrinks_cleanup (fun _ hd => .inl hd) fun _ hd _ _ _ => hd

def delegateOnce : List TokenOp :=
  [.create 1 0xC0 0xC0 0 [47, 97], .delegateBegin 1 2 3 0 [], .delegateCreate 0, .delegateLink 0]

end Limnx
