import Limnx.Lib.GuardedRun
import Limnx.Theorems.TokenHistory

/-! Permissions and resources are right in every interleaving. The depth is not: a new token has depth 0 until its
    delegation writes the link. -/

namespace Limnx
open BitWord GuardedRun List TokenSys
variable {s s' : TokenSys} {x y : CapToken} {d : Delegation} {c p : U32} {k k' : Nat} {r r' : RootBirth}
  {birth : Birth} {resource : CStr} {perms : U32}

/-- The token `c` was obtained by `k` delegations from the token that `r` created. -/
inductive Obtained (births : U32 → Option Birth) (r : RootBirth) : U32 → Nat → Prop
  | root {c : U32} : births c = some (.root r) → Obtained births r c 0
  | delegated {p c : U32} {k : Nat} : births c = some (.delegated p) → Obtained births r p k →
      Obtained births r c (k + 1)

theorem Obtained.unique (h : Obtained s.births r c k) (h' : Obtained s.births r' c k') : r = r' ∧ k = k' := by
  induction h generalizing k' with
  | root hb =>
    cases h' with
    | root hb' =>
      rw [hb] at hb'
      cases hb'
      exact ⟨rfl, rfl⟩
    | delegated hp _ => cases hb.symm.trans hp
  | delegated hp _ ih =>
    cases h' with
    | root hb => cases hb.symm.trans hp
    | delegated hp' hk' =>
      rw [hp] at hp'
      cases hp'
      obtain ⟨rfl, rfl⟩ := ih hk'
      exact ⟨rfl, rfl⟩

theorem Obtained.lt (h : Obtained s.births r c k) (hs : Consistent s) : c.toNat < s.nextTokenId.toNat := by
  cases h with
  | root hb => exact (hs.births_lt c _ hb).2
  | delegated hp _ => exact (hs.births_lt c _ hp).2

theorem obtained_insert_iff {births : U32 → Option Birth} (hs : Consistent s)
    (hb : ∀ c, c.toNat < s.nextTokenId.toNat → births c = s.births c) (hc : c.toNat < s.nextTokenId.toNat) :
    Obtained births r c k ↔ Obtained s.births r c k := by
  constructor
  · intro h
    induction h with
    | root hr => exact .root (hb _ hc ▸ hr)
    | delegated hp _ ih =>
      rw [hb _ hc] at hp
      exact .delegated hp (ih ((hs.parent_lt _ _ hp).2.trans hc))
  · intro h
    induction h with
    | root hr => exact .root ((hb _ hc).trans hr)
    | delegated hp _ ih => exact .delegated ((hb _ hc).trans hp) (ih ((hs.parent_lt _ _ hp).2.trans hc))

/-- What a token or a delegation holds is an attenuation of what the root token was created with. -/
structure Attenuates (r : RootBirth) (perms : U32) (resource : CStr) : Prop where
  perms_within : Within perms r.perms
  root_within : Within r.perms r.caps
  resource_le : r.resource <+: resource
  root_length : r.resource.length < tokenPathMax

theorem Attenuates.take (h : Attenuates r perms resource) : Attenuates r perms (resource.take (tokenPathMax - 1)) := by
  refine { h with resource_le := ?_ }
  rw [prefix_take_iff]
  exact ⟨h.resource_le, Nat.le_sub_one_of_lt h.root_length⟩

/-- Tokens in use, and those to be made, are within a root. -/
structure AttenuateInv (s : TokenSys) : Prop where
  consistent : Consistent s
  tokens : ∀ x, Alive s.tokens x → ∃ r k, Obtained s.births r x.id k ∧ Attenuates r x.perms x.resource
  calls : ∀ d ∈ s.calls, d.newId = none → ∃ r k, Obtained s.births r d.parentTokId k ∧ Attenuates r d.perms d.resource

theorem AttenuateInv.empty : AttenuateInv {} := by
  refine ⟨Consistent.empty, fun x hx => ?_, nofun⟩
  obtain ⟨b, hb⟩ := Consistent.empty.born x hx
  cases hb

theorem births_below (s : TokenSys) (birth : Birth) (c : U32) (hc : c.toNat < s.nextTokenId.toNat) :
    (if c = s.nextTokenId then some birth else s.births c) = s.births c :=
  if_neg (by rintro rfl; exact Nat.lt_irrefl _ hc)

theorem AttenuateInv.insert {owner target : Nat} {calls : List Delegation}
    (h : AttenuateInv s) (hs' : Consistent { s' with calls := calls })
    (hins : tokenInsert s owner perms target resource birth = some s')
    (hcalls : ∀ d ∈ calls, d.newId = none → d ∈ s.calls)
    (hnew : ∀ births, (∀ c, c.toNat < s.nextTokenId.toNat → births c = s.births c) →
      births s.nextTokenId = some birth →
      ∃ r k, Obtained births r s.nextTokenId k ∧ Attenuates r perms (resource.take (tokenPathMax - 1))) :
    AttenuateInv { s' with calls := calls } := by
  obtain ⟨i, old, hi, hold, rfl⟩ := tokenInsert_eq hins
  have hs := h.consistent
  have hb := births_below s birth
  refine ⟨hs', fun x hx => ?_, fun d hd hnone => ?_⟩
  · rcases (alive_set_free hi hold rfl).mp hx with hx | rfl
    · obtain ⟨r, k, hk, ha⟩ := h.tokens x hx
      exact ⟨r, k, (obtained_insert_iff hs hb (hs.id_lt hx)).mpr hk, ha⟩
    · exact hnew _ hb (if_pos rfl)
  · obtain ⟨r, k, hk, ha⟩ := h.calls d (hcalls d hd hnone) hnone
    exact ⟨r, k, (obtained_insert_iff hs hb (hk.lt hs)).mpr hk, ha⟩

theorem AttenuateInv.step {op : TokenOp} (h : AttenuateInv s) (hids : IdsLeft s op) : AttenuateInv (s.step op) := by
  have hs := h.consistent
  have hs' := hs.step hids
  have hc := stepCase s op
  generalize s.step op = s' at hc hs'
  cases hc with
  | same => exact h
  | @create owner caps perms target resource s' hw hins =>
    refine h.insert hs' hins (fun d hd _ => tokenInsert_calls hins ▸ hd) fun s'' _ hb => ?_
    refine ⟨_, 0, .root hb, Within.refl _, hw, prefix_rfl, ?_⟩
    simp only [length_take, tokenPathMax]
    omega
  | @begin id _ _ _ _ x d hx _ hb =>
    refine ⟨hs', h.tokens, fun e he hnone => ?_⟩
    rcases mem_cons.mp he with rfl | he
    · obtain ⟨r, k, hk, ha⟩ := h.tokens x hx
      refine ⟨r, k, hb.parent ▸ hk, { ha with perms_within := ?_, resource_le := ?_ }⟩
      · exact hb.perms.trans ha.perms_within
      · exact ha.resource_le.trans hb.resource
    · exact h.calls e he hnone
  | full => exact ⟨hs', h.tokens, fun e he => h.calls e (mem_of_mem_eraseIdx he)⟩
  | @created i d s' hd hnone hins _ =>
    refine h.insert hs' hins (fun e he hnone' => ?_) fun s'' hb hnew => ?_
    · rcases mem_or_eq_of_mem_set he with he | rfl
      · exact he
      · cases hnone'
    · obtain ⟨r, k, hk, ha⟩ := h.calls d (mem_of_getElem? hd) hnone
      exact ⟨r, k + 1, .delegated hnew ((obtained_insert_iff hs hb (hk.lt hs)).mpr hk), ha.take⟩
  | unlinked _ _ _ hneg =>
    have := toInt_pos_of_lt hs.next_pos hids
    omega
  | link =>
    refine ⟨hs', fun x hx => ?_, fun e he => h.calls e (mem_of_mem_eraseIdx he)⟩
    obtain ⟨y, hy, rfl⟩ := alive_linkTokens hs.uniq hx
    have := h.tokens y hy
    split <;> exact this
  | revoke hx hid _ hts =>
    have hshrinks := shrinks_revokeCascade hs.uniq hs.length_le ⟨_, hx, hid⟩
    rw [hts] at hshrinks
    exact ⟨hs', fun x hxa => h.tokens x (hshrinks.alive hxa), h.calls⟩
  | cleanup pid => exact ⟨hs', fun x hx => h.tokens x (alive_cleanup.mp hx).1, h.calls⟩

/-- The token `c` is not yet linked to its parent. -/
def Unlinked (s : TokenSys) (c : U32) : Prop := ∃ d ∈ s.calls, d.newId = some c

/-- No delegation starts from a token that is not yet linked. -/
def DepthSafe (s : TokenSys) (op : TokenOp) : Prop :=
  IdsLeft s op ∧
    match op with
    | .delegateBegin id _ _ _ _ => ¬Unlinked s id
    | _ => True

/-- Chains have at most four links, and the recorded depth is right. -/
structure DepthInv (s : TokenSys) : Prop where
  consistent : Consistent s
  tokens : ∀ x r k, Alive s.tokens x → Obtained s.births r x.id k → k ≤ 4 ∧
    (Unlinked s x.id → x.depth = 0) ∧ (¬Unlinked s x.id → x.depth.toNat = k)
  calls : ∀ d ∈ s.calls, ∀ r k, Obtained s.births r d.parentTokId k → k + 1 ≤ 4 ∧ d.newDepth.toNat = k + 1
  distinct : ∀ (i j : Nat) (d e : Delegation) (c : U32), s.calls[i]? = some d → s.calls[j]? = some e →
    d.newId = some c → e.newId = some c → i = j

theorem DepthInv.empty : DepthInv {} := by
  refine ⟨Consistent.empty, fun x r k hx _ => ?_, fun d hd => (nomatch hd), fun i j d e c hi => (nomatch hi)⟩
  obtain ⟨b, hb⟩ := Consistent.empty.born x hx
  cases hb

theorem DepthInv.insert {owner target : Nat} {calls : List Delegation}
    (h : DepthInv s) (hs' : Consistent { s' with calls := calls })
    (hins : tokenInsert s owner perms target resource birth = some s')
    (hcalls : ∀ e ∈ calls, ∃ e' ∈ s.calls, e.parentTokId = e'.parentTokId ∧ e.newDepth = e'.newDepth)
    (hunl : ∀ c, c.toNat < s.nextTokenId.toNat → ((∃ d ∈ calls, d.newId = some c) ↔ Unlinked s c))
    (hnew : ∀ births r k, (∀ c, c.toNat < s.nextTokenId.toNat → births c = s.births c) →
      births s.nextTokenId = some birth → Obtained births r s.nextTokenId k →
      k ≤ 4 ∧ ((¬∃ d ∈ calls, d.newId = some s.nextTokenId) → k = 0))
    (hdistinct : ∀ (i j : Nat) (d e : Delegation) (c : U32), calls[i]? = some d → calls[j]? = some e →
      d.newId = some c → e.newId = some c → i = j) : DepthInv { s' with calls := calls } := by
  obtain ⟨i, old, hi, hold, rfl⟩ := tokenInsert_eq hins
  have hs := h.consistent
  have hb := births_below s birth
  refine ⟨hs', fun x r k hx hk => ?_, fun e he r k hk => ?_, hdistinct⟩
  · rcases (alive_set_free hi hold rfl).mp hx with hx | rfl
    · have hlt := hs.id_lt hx
      obtain ⟨h4, h0, hd⟩ := h.tokens x r k hx ((obtained_insert_iff hs hb hlt).mp hk)
      exact ⟨h4, fun hu => h0 ((hunl _ hlt).mp hu), fun hu => hd ((hunl _ hlt).not.mp hu)⟩
    · obtain ⟨h4, h0⟩ := hnew _ r k hb (if_pos rfl) hk
      exact ⟨h4, fun _ => rfl, fun hu => (h0 hu).symm⟩
  · obtain ⟨e', he', hpar, hdepth⟩ := hcalls e he
    have hlt := (hs.calls_lt e' he').2
    rw [hpar] at hk
    rw [hdepth]
    exact h.calls e' he' r k ((obtained_insert_iff hs hb hlt).mp hk)

theorem not_unlinked_next (hs : Consistent s) : ¬Unlinked s s.nextTokenId := by
  rintro ⟨d, hd, hid⟩
  exact absurd (hs.births_lt _ _ (hs.created d hd _ hid)).2 (Nat.lt_irrefl _)

theorem DepthInv.createdStep {i : Nat} (h : DepthInv s) (hd : s.calls[i]? = some d) (hnone : d.newId = none)
    (hins : tokenInsert s d.callerPid d.perms d.targetPid d.resource (.delegated d.parentTokId) = some s')
    (hs' : Consistent { s' with calls := s.calls.set i { d with newId := some s.nextTokenId } }) :
    DepthInv { s' with calls := s.calls.set i { d with newId := some s.nextTokenId } } := by
  have hs := h.consistent
  have hdm := mem_of_getElem? hd
  refine h.insert hs' hins (fun e he => ?_) (fun c hc => ?_) (fun births r k hb hbirth hk => ?_) ?_
  · rcases mem_or_eq_of_mem_set he with he | rfl
    · exact ⟨e, he, rfl, rfl⟩
    · exact ⟨d, hdm, rfl, rfl⟩
  · constructor
    · rintro ⟨e, he, hec⟩
      rcases mem_or_eq_of_mem_set he with he | rfl
      · exact ⟨e, he, hec⟩
      · cases hec
        exact absurd hc (Nat.lt_irrefl _)
    · rintro ⟨e, he, hec⟩
      exact ⟨e, mem_set_of_ne hd he fun hed => by simp [hed, hnone] at hec, hec⟩
  · cases hk with
    | root hr => cases hr.symm.trans hbirth
    | delegated hp hk =>
      rw [hbirth] at hp
      cases hp
      have hlt := (hs.calls_lt d hdm).2
      refine ⟨(h.calls d hdm r _ ((obtained_insert_iff hs hb hlt).mp hk)).1, fun hno => absurd ?_ hno⟩
      exact ⟨_, List.mem_set (List.getElem?_eq_some_iff.mp hd).1 _, rfl⟩
  · -- only the delegation at `i` has the new number
    have hold : ∀ {j e c}, (s.calls.set i { d with newId := some s.nextTokenId })[j]? = some e → e.newId = some c →
        (j = i ∧ c = s.nextTokenId) ∨ (s.calls[j]? = some e ∧ c ≠ s.nextTokenId) := by
      intro j e c hj hc
      rw [getElem?_set] at hj
      split at hj
      · split at hj
        · cases hj
          exact .inl ⟨Eq.symm ‹_›, (Option.some.inj hc).symm⟩
        · cases hj
      · refine .inr ⟨hj, ?_⟩
        rintro rfl
        exact not_unlinked_next hs ⟨e, mem_of_getElem? hj, hc⟩
    intro a b e f c ha hb he hf
    rcases hold ha he with ⟨rfl, hc⟩ | ⟨ha', hc⟩ <;> rcases hold hb hf with ⟨rfl, hc'⟩ | ⟨hb', hc'⟩
    · rfl
    · exact absurd hc hc'
    · exact absurd hc' hc
    · exact h.distinct a b e f c ha' hb' he hf

theorem getElem?_eraseIdx_inj {α : Type} {l : List α} {i a b : Nat} {x y : α} (hx : (l.eraseIdx i)[a]? = some x)
    (hy : (l.eraseIdx i)[b]? = some y) (h : ∀ a' b' : Nat, l[a']? = some x → l[b']? = some y → a' = b') : a = b := by
  rw [getElem?_eraseIdx] at hx hy
  split at hx <;> split at hy <;> have := h _ _ hx hy <;> omega

theorem DepthInv.eraseCall {i : Nat} (h : DepthInv s) (hd : s.calls[i]? = some d) (hnone : d.newId = none)
    (hs' : Consistent { s with calls := s.calls.eraseIdx i }) : DepthInv { s with calls := s.calls.eraseIdx i } := by
  have hunl : ∀ c, Unlinked { s with calls := s.calls.eraseIdx i } c ↔ Unlinked s c := fun c =>
    ⟨fun ⟨e, he, hc⟩ => ⟨e, mem_of_mem_eraseIdx he, hc⟩,
      fun ⟨e, he, hc⟩ => ⟨e, mem_eraseIdx_of_ne hd he fun hed => by simp [hed, hnone] at hc, hc⟩⟩
  refine ⟨hs', fun x r k hx hk => ?_, fun e he => h.calls e (mem_of_mem_eraseIdx he), ?_⟩
  · rw [hunl]
    exact h.tokens x r k hx hk
  · exact fun a b e f c ha hb he hf =>
      getElem?_eraseIdx_inj ha hb fun a' b' ha' hb' => h.distinct a' b' e f c ha' hb' he hf

theorem DepthInv.linkStep {i : Nat} (h : DepthInv s) (hd : s.calls[i]? = some d) (hid : d.newId = some c)
    (hs' : Consistent { s with tokens := linkTokens s.tokens d c, calls := s.calls.eraseIdx i }) :
    DepthInv { s with tokens := linkTokens s.tokens d c, calls := s.calls.eraseIdx i } := by
  have hs := h.consistent
  have hdm := mem_of_getElem? hd
  -- the delegation that leaves is the only one with this number
  have hgone : ¬∃ e ∈ s.calls.eraseIdx i, e.newId = some c := by
    rintro ⟨e, he, hec⟩
    obtain ⟨j, hji, hj⟩ := mem_eraseIdx_iff_getElem?.mp he
    exact hji (h.distinct j i e d c hj hd hec hid)
  have hunl : ∀ b ≠ c, ((∃ e ∈ s.calls.eraseIdx i, e.newId = some b) ↔ Unlinked s b) := fun b hb =>
    ⟨fun ⟨e, he, heb⟩ => ⟨e, mem_of_mem_eraseIdx he, heb⟩, fun ⟨e, he, heb⟩ =>
      ⟨e, mem_eraseIdx_of_ne hd he fun hed => hb (Option.some.inj (heb.symm.trans (hed ▸ hid))), heb⟩⟩
  refine ⟨hs', fun x r k hx hk => ?_, fun e he => h.calls e (mem_of_mem_eraseIdx he), ?_⟩
  · obtain ⟨y, hy, rfl⟩ := alive_linkTokens hs.uniq hx
    by_cases hyc : y.id = c
    · rw [if_pos hyc] at hk ⊢
      have hkc : Obtained s.births r c k := hyc ▸ hk
      have hpar := hs.created d hdm c hid
      cases hkc with
      | root hr => cases hr.symm.trans hpar
      | @delegated p _ k hp hk =>
        have hp' : p = d.parentTokId := by simpa [hp] using (show s.births c = _ from hpar)
        subst hp'
        obtain ⟨h4, hdepth⟩ := h.calls d hdm r k hk
        refine ⟨h4, fun hu => absurd ?_ hgone, fun _ => hdepth⟩
        exact hyc ▸ hu
    · rw [if_neg hyc] at hk ⊢
      obtain ⟨h4, h0, hdepth⟩ := h.tokens y r k hy hk
      exact ⟨h4, fun hu => h0 ((hunl _ hyc).mp hu), fun hu => hdepth ((hunl _ hyc).not.mp hu)⟩
  · exact fun a b e f c ha hb he hf =>
      getElem?_eraseIdx_inj ha hb fun a' b' ha' hb' => h.distinct a' b' e f c ha' hb' he hf

theorem DepthInv.step {op : TokenOp} (h : DepthInv s) (hsafe : DepthSafe s op) : DepthInv (s.step op) := by
  have hs := h.consistent
  have hs' := hs.step hsafe.1
  have hc := stepCase s op
  generalize s.step op = s' at hc hs'
  cases hc with
  | same => exact h
  | create _ hins =>
    have heq : { s' with calls := s.calls } = s' := by rw [← tokenInsert_calls hins]
    rw [← heq] at hs' ⊢
    refine h.insert hs' hins (fun e he => ⟨e, he, rfl, rfl⟩) (fun _ _ => Iff.rfl) (fun births r k _ hb hk => ?_)
      h.distinct
    cases hk with
    | root => exact ⟨Nat.zero_le _, fun _ => rfl⟩
    | delegated hp _ => cases hp.symm.trans hb
  | @begin id _ _ _ _ x d hx hid hb =>
    have hunl : ∀ c, Unlinked { s with calls := d :: s.calls } c ↔ Unlinked s c := by
      simp only [Unlinked, mem_cons, or_and_right, exists_or, exists_eq_left, hb.newId]
      simp
    refine ⟨hs', fun y r k hy hk => ?_, fun e he r k hk => ?_, fun a b e f c ha hb' he hf => ?_⟩
    · rw [hunl]
      exact h.tokens y r k hy hk
    · rcases mem_cons.mp he with rfl | he
      · rw [hb.parent] at hk
        obtain ⟨-, -, hdepth⟩ := h.tokens x r k hx hk
        have hx4 := hdepth (hid ▸ hsafe.2)
        have := hb.depth_lt
        have := hb.newDepth
        omega
      · exact h.calls e he r k hk
    · cases a with
      | zero =>
        obtain rfl : d = e := Option.some.inj ha
        simp [hb.newId] at he
      | succ a =>
        cases b with
        | zero =>
          obtain rfl : d = f := Option.some.inj hb'
          simp [hb.newId] at hf
        | succ b => rw [h.distinct a b e f c ha hb' he hf]
  | full hd hnone => exact h.eraseCall hd hnone hs'
  | created hd hnone hins _ => exact h.createdStep hd hnone hins hs'
  | unlinked _ _ _ hneg =>
    have := toInt_pos_of_lt hs.next_pos hsafe.1
    omega
  | link hd hid => exact h.linkStep hd hid hs'
  | revoke hx hid _ hts =>
    have hshrinks := shrinks_revokeCascade hs.uniq hs.length_le ⟨_, hx, hid⟩
    rw [hts] at hshrinks
    exact ⟨hs', fun x r k hxa => h.tokens x r k (hshrinks.alive hxa), h.calls, h.distinct⟩
  | cleanup pid => exact ⟨hs', fun x r k hx => h.tokens x r k (alive_cleanup.mp hx).1, h.calls, h.distinct⟩

/-- In every interleaving in which numbers do not run out, each token in use came by a chain of delegations from a root,
    within its permissions and resource. If moreover no delegation starts from a token not yet linked, chains have at
    most four delegations, and the recorded depth is the length of the chain exactly for linked tokens. -/
theorem tokens_attenuate (ops : List TokenOp) (hids : Guarded step IdsLeft {} ops) :
    let s := run step {} ops
    (∀ x, Alive s.tokens x → ∃ r k, Obtained s.births r x.id k) ∧
      (∀ x r k, Alive s.tokens x → Obtained s.births r x.id k →
        Within x.perms r.perms ∧ Within r.perms r.caps ∧ r.resource <+: x.resource) ∧
      (Guarded step DepthSafe {} ops → ∀ x r k, Alive s.tokens x → Obtained s.births r x.id k →
        k ≤ tokenMaxDepth.toNat ∧ (x.depth.toNat = k ↔ ¬Unlinked s x.id)) := by
  have hinv := hids.invariant (fun _ _ h hs => h.step hs) AttenuateInv.empty
  refine ⟨fun x hx => ?_, fun x r k hx hk => ?_, fun hsafe x r k hx hk => ?_⟩
  · obtain ⟨r, k, hk, -⟩ := hinv.tokens x hx
    exact ⟨r, k, hk⟩
  · obtain ⟨r', k', hk', ha⟩ := hinv.tokens x hx
    obtain ⟨rfl, rfl⟩ := hk'.unique hk
    exact ⟨ha.perms_within, ha.root_within, ha.resource_le⟩
  · have hdepth := hsafe.invariant (fun _ _ h hs => h.step hs) DepthInv.empty
    obtain ⟨h4, h0, hd⟩ := hdepth.tokens x r k hx hk
    refine ⟨h4, fun heq hu => ?_, hd⟩
    -- an unlinked token has depth 0 but at least one delegation behind it
    obtain ⟨d, hdm, hid⟩ := hu
    have hpar := hdepth.consistent.created d hdm _ hid
    rw [h0 ⟨d, hdm, hid⟩] at heq
    cases hk with
    | root hr => cases hr.symm.trans hpar
    | delegated => simp at heq

theorem delegateOnce_attenuates : let s := run step {} delegateOnce
    ∀ x r k, Alive s.tokens x → Obtained s.births r x.id k →
      (Within x.perms r.perms ∧ Within r.perms r.caps ∧ r.resource <+: x.resource) ∧
        k ≤ tokenMaxDepth.toNat ∧ (x.depth.toNat = k ↔ ¬Unlinked s x.id) := by
  have hids : Guarded step IdsLeft {} delegateOnce := by decide
  have hsafe : Guarded step DepthSafe {} delegateOnce := by
    refine ⟨⟨by decide, trivial⟩, ⟨trivial, ?_⟩, ⟨by decide, trivial⟩, ⟨trivial, trivial⟩, trivial⟩
    rintro ⟨d, hd, -⟩
    exact absurd hd not_mem_nil
  obtain ⟨-, hatt, hdepth⟩ := tokens_attenuate delegateOnce hids
  exact fun x r k hx hk => ⟨hatt x r k hx hk, hdepth hsafe x r k hx hk⟩

/-- Token 2, delegated from token 1, is delegated on before it is linked: when all calls have returned, token 3
    has depth 1 with two delegations behind it. -/
theorem delegate_from_unlinked_depth_wrong :
    let s := run step {} [.create 1 0xC0 0xC0 0 [47, 97], .delegateBegin 1 2 3 0 [], .delegateCreate 0,
      .delegateBegin 2 3 0 0 [], .delegateCreate 0, .delegateLink 0, .delegateLink 0]
    s.calls = [] ∧ ∃ x r, Alive s.tokens x ∧ Obtained s.births r x.id 2 ∧ x.depth = 1 := by
  refine ⟨by decide +kernel, ⟨3, 3, 0, 0xC0, [47, 97], 2, 1, true⟩, ⟨1, 0xC0, 0xC0, [47, 97]⟩, ⟨by decide +kernel, rfl⟩,
    .delegated (p := 2) ?_ (.delegated (p := 1) ?_ (.root ?_)), rfl⟩ <;> decide +kernel

end Limnx
