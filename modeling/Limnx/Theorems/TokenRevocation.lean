import Limnx.Lib.GuardedRun
import Limnx.Theorems.TokenHistory

/-! `cap_token_revoke` misses a descendant whose delegation is between its sections, or below a token that
    `cap_token_cleanup_pid` has removed. -/

namespace Limnx
open GuardedRun Relation TokenSys ReflTransGen List
variable {s s' : TokenSys} {x y : CapToken} {a c p T id : U32} {pid : Nat} {birth : Birth}

/-- A successful revocation finds no delegation from the subtree in progress, and a cleanup that leaves an ancestor of a
    removed token leaves none of its children. -/
def RevokeSafe (s : TokenSys) (op : TokenOp) : Prop :=
  IdsLeft s op ∧
    match op with
    | .revoke id caller => (∃ x, Alive s.tokens x ∧ x.id = id ∧ x.ownerPid = caller) → ∀ d ∈ s.calls,
        (∀ c, d.newId = some c → AliveId s c) → ¬Above s id d.parentTokId
    | .cleanup pid => ∀ y z, Alive s.tokens y → y.concerns pid = true → Alive s.tokens z → z.concerns pid = false →
        Above s z.id y.id →
          (∀ x, Alive s.tokens x → ParentOf s y.id x.id → x.concerns pid = true) ∧
            ∀ d ∈ s.calls, d.newId = none → d.parentTokId ≠ y.id
    | _ => True

def Rooted (s : TokenSys) (p : U32) : Prop := AliveId s p ∨ ∀ a, Above s a p → ¬AliveId s a

/-- Nothing in use, or to be made, comes from a revoked token. -/
structure RevokeInv (s : TokenSys) : Prop where
  consistent : Consistent s
  rooted : ∀ p, Source s p → Rooted s p
  revoked : ∀ T ∈ s.revoked, ¬AliveId s T ∧ T.toNat < s.nextTokenId.toNat ∧ ∀ p, Source s p → ¬Above s T p

theorem RevokeInv.empty : RevokeInv {} := by
  refine ⟨Consistent.empty, fun p hp => ?_, nofun⟩
  rcases hp with ⟨x, -, hpx⟩ | ⟨d, hd, -⟩
  · cases hpx
  · cases hd

theorem RevokeInv.not_descends (h : RevokeInv s) (hT : T ∈ s.revoked) (hx : Alive s.tokens x) : ¬Descends s T x.id := by
  intro hd
  obtain ⟨p, -, hpx⟩ := TransGen.tail'_iff.mp hd
  exact (h.revoked T hT).2.2 p (.inl ⟨x, hx, hpx⟩) ((descends_iff_above hpx).mp hd)

theorem above_of_parentOf_iff (h : ∀ q c, c.toNat < s.nextTokenId.toNat → (ParentOf s' q c ↔ ParentOf s q c))
    (hs : Consistent s) (hc : c.toNat < s.nextTokenId.toNat) : Above s' a c ↔ Above s a c := by
  -- by induction on the number of the token: the parent of a token has a smaller number
  induction hn : c.toNat using Nat.strong_induction_on generalizing c with
  | _ n ih =>
    subst hn
    have hstep : ∀ q, ParentOf s q c → (Above s' a q ↔ Above s a q) := fun q hq =>
      have hlt := (hs.parent_lt q c hq).2
      ih _ hlt (hlt.trans hc) rfl
    constructor <;> intro hac <;> rcases cases_tail hac with rfl | ⟨q, haq, hqc⟩
    · exact refl
    · have hq := (h q c hc).mp hqc
      exact ((hstep q hq).mp haq).tail hq
    · exact refl
    · exact ((hstep q hqc).mpr haq).tail ((h q c hc).mpr hqc)

theorem RevokeInv.of_fewer (h : RevokeInv s) (hs' : Consistent s')
    (hpar : ∀ q c, c.toNat < s.nextTokenId.toNat → (ParentOf s' q c ↔ ParentOf s q c))
    (halive : ∀ a, a.toNat < s.nextTokenId.toNat → (AliveId s' a ↔ AliveId s a))
    (hsource : ∀ p, Source s' p → Source s p) (hrev : s'.revoked = s.revoked)
    (hnext : s.nextTokenId.toNat ≤ s'.nextTokenId.toNat) : RevokeInv s' := by
  have hs := h.consistent
  refine ⟨hs', fun p hp => ?_, fun T hT => ?_⟩
  · have hlt := hs.source_lt (hsource p hp)
    rcases h.rooted p (hsource p hp) with ha | hdead
    · exact .inl ((halive p hlt).mpr ha)
    refine .inr fun a hap => ?_
    have hap := (above_of_parentOf_iff hpar hs hlt).mp hap
    rw [halive a ((hs.above_le hap).trans_lt hlt)]
    exact hdead a hap
  · obtain ⟨hdead, hlt, hclear⟩ := h.revoked T (hrev ▸ hT)
    refine ⟨(halive T hlt).not.mpr hdead, hlt.trans_le hnext, fun p hp => ?_⟩
    rw [above_of_parentOf_iff hpar hs (hs.source_lt (hsource p hp))]
    exact hclear p (hsource p hp)

theorem RevokeInv.insert {owner target : Nat} {perms : U32} {resource : CStr} {calls : List Delegation}
    (h : RevokeInv s) (hs' : Consistent { s' with calls := calls })
    (hins : tokenInsert s owner perms target resource birth = some s') (hn : s.nextTokenId.toNat < 2 ^ 31)
    (hbirth : ∀ p, birth = .delegated p → Source s p)
    (hcalls : ∀ d ∈ calls, d.newId = none → d ∈ s.calls) : RevokeInv { s' with calls := calls } := by
  obtain ⟨i, old, hi, hold, rfl⟩ := tokenInsert_eq hins
  have hs := h.consistent
  have hpar : ∀ q c, c.toNat < s.nextTokenId.toNat → ((if c = s.nextTokenId then some birth else s.births c) =
      some (.delegated q) ↔ ParentOf s q c) := by
    intro q c hc
    rw [if_neg (by rintro rfl; exact Nat.lt_irrefl _ hc)]
    rfl
  refine h.of_fewer hs' hpar (fun a ha => ?_) (fun p hp => ?_) rfl ?_
  · constructor
    · rintro ⟨x, hx, rfl⟩
      rcases (alive_set_free hi hold rfl).mp hx with hx | rfl
      · exact ⟨x, hx, rfl⟩
      · exact absurd ha (Nat.lt_irrefl _)
    · rintro ⟨x, hx, rfl⟩
      exact ⟨x, (alive_set_free hi hold rfl).mpr (.inl hx), rfl⟩
  · rcases hp with ⟨x, hx, hpx⟩ | ⟨d, hd, hnone, rfl⟩
    · rcases (alive_set_free hi hold rfl).mp hx with hx | rfl
      · exact .inl ⟨x, hx, (hpar p x.id (hs.id_lt hx)).mp hpx⟩
      · simp only [ParentOf, freshToken, if_true, Option.some_inj] at hpx
        exact hbirth p hpx
    · exact .inr ⟨d, hcalls d hd hnone, hnone, rfl⟩
  · have hone : (1 : U32).toNat = 1 := by decide
    rw [BitVec.toNat_add, hone]
    omega

section
variable (h : RevokeInv s) (hid : AliveId s id) (hcalls : ∀ d ∈ s.calls, (∀ c, d.newId = some c → AliveId s c) → ¬Above s id d.parentTokId)
include h hid hcalls

theorem RevokeInv.linked_iff (hx : Alive s.tokens x) : Linked s.tokens id x ↔ Above s id x.id := by
  have hs := h.consistent
  constructor
  · intro hl
    induction hl with
    | self _ hid => exact hid ▸ refl
    | @child x y hx hy hpar ih =>
      have hne : x.parentId ≠ 0 := by
        intro h0
        have hpos := (hs.births_lt _ _ (hs.born y hy.alive).choose_spec).1
        simp [← hpar, h0] at hpos
      exact (ih hy.alive).tail (hpar ▸ hs.parentOf_of_parentId hx hne)
  · suffices hall : ∀ c, Above s id c → ∀ x, Alive s.tokens x → x.id = c → Linked s.tokens id x from
      fun habove => hall _ habove x hx rfl
    intro c hc
    induction hc with
    | refl => exact fun x hx hid => .self hx hid
    | @tail q c hq hqc ih =>
      rintro x hx rfl
      -- the parent is in use: otherwise nothing above it would be, but `id` is
      have hqa : AliveId s q := by
        rcases h.rooted q (.inl ⟨x, hx, hqc⟩) with ha | hdead
        · exact ha
        · exact absurd hid (hdead id hq)
      obtain ⟨y, hy, rfl⟩ := hqa
      rcases hs.link x y.id hx hqc with hpar | ⟨-, d, hd, hnew⟩
      · exact .child hx (ih y hy rfl) hpar
      have hdpar := hs.created d hd _ hnew
      have hyd : y.id = d.parentTokId := by simpa [ParentOf, show s.births x.id = _ from hqc] using hdpar
      refine absurd (hyd ▸ hq) (hcalls d hd fun c hc => ⟨x, hx, ?_⟩)
      exact Option.some.inj (hnew.symm.trans hc)

theorem RevokeInv.revokeStep {ts : List CapToken} (hts : ∀ x, Alive ts x ↔ Alive s.tokens x ∧ ¬Linked s.tokens id x)
    (hs' : Consistent { s with tokens := ts, revoked := id :: s.revoked }) :
    RevokeInv { s with tokens := ts, revoked := id :: s.revoked } := by
  have hs := h.consistent
  have halive : ∀ x, Alive ts x ↔ Alive s.tokens x ∧ ¬Above s id x.id := by
    intro x
    rw [hts]
    exact and_congr_right fun hx => not_congr (h.linked_iff hid hcalls hx)
  -- what is left has no parent at or below `id`
  have hsource : ∀ p, Source { s with tokens := ts, revoked := id :: s.revoked } p →
      Source s p ∧ ¬Above s id p := by
    rintro p (⟨x, hx, hpx⟩ | ⟨d, hd, hnone, rfl⟩)
    · obtain ⟨hx, hna⟩ := (halive x).mp hx
      exact ⟨.inl ⟨x, hx, hpx⟩, fun hp => hna (hp.tail hpx)⟩
    · exact ⟨.inr ⟨d, hd, hnone, rfl⟩, hcalls d hd fun c hc => by simp [hnone] at hc⟩
  refine ⟨hs', fun p hp => ?_, fun T hT => ?_⟩
  · obtain ⟨hp, hna⟩ := hsource p hp
    rcases h.rooted p hp with ⟨x, hx, rfl⟩ | hdead
    · exact .inl ⟨x, (halive x).mpr ⟨hx, hna⟩, rfl⟩
    · exact .inr fun a ha ⟨x, hx, hxa⟩ => hdead a ha ⟨x, ((halive x).mp hx).1, hxa⟩
  · rcases mem_cons.mp hT with rfl | hT
    · refine ⟨fun ⟨x, hx, hxid⟩ => ((halive x).mp hx).2 (hxid ▸ refl), ?_, fun p hp => (hsource p hp).2⟩
      obtain ⟨x, hx, rfl⟩ := hid
      exact hs.id_lt hx
    · obtain ⟨hdead, hlt, hclear⟩ := h.revoked T hT
      exact ⟨fun ⟨x, hx, hxT⟩ => hdead ⟨x, ((halive x).mp hx).1, hxT⟩, hlt, fun p hp => hclear p (hsource p hp).1⟩

end

theorem RevokeInv.cleanupStep (h : RevokeInv s) (hsafe : RevokeSafe s (.cleanup pid))
    (hs' : Consistent (capTokenCleanupPid s pid)) : RevokeInv (capTokenCleanupPid s pid) := by
  have hsource : ∀ p, Source (capTokenCleanupPid s pid) p → Source s p := by
    rintro p (⟨x, hx, hpx⟩ | hd)
    · exact .inl ⟨x, (alive_cleanup.mp hx).1, hpx⟩
    · exact .inr hd
  refine ⟨hs', fun p hp => ?_, fun T hT => ?_⟩
  · rcases h.rooted p (hsource p hp) with ⟨y, hy, rfl⟩ | hdead
    · cases hyc : y.concerns pid with
      | false => exact .inl ⟨y, alive_cleanup.mpr ⟨hy, hyc⟩, rfl⟩
      | true =>
        -- the parent is removed while it still has a child, so nothing above it is left
        refine .inr fun a ha ⟨z, hz, hza⟩ => ?_
        obtain ⟨hz, hzc⟩ := alive_cleanup.mp hz
        obtain ⟨hkids, hcalls⟩ := hsafe.2 y z hy hyc hz hzc (hza ▸ ha)
        rcases hp with ⟨x, hx, hpx⟩ | ⟨d, hd, hnone, hdp⟩
        · obtain ⟨hx, hxc⟩ := alive_cleanup.mp hx
          simp [hkids x hx hpx] at hxc
        · exact hcalls d hd hnone hdp
    · exact .inr fun a ha ⟨x, hx, hxa⟩ => hdead a ha ⟨x, (alive_cleanup.mp hx).1, hxa⟩
  · obtain ⟨hdead, hlt, hclear⟩ := h.revoked T hT
    exact ⟨fun ⟨x, hx, hxT⟩ => hdead ⟨x, (alive_cleanup.mp hx).1, hxT⟩, hlt, fun p hp => hclear p (hsource p hp)⟩

theorem RevokeInv.step {op : TokenOp} (h : RevokeInv s) (hsafe : RevokeSafe s op) : RevokeInv (s.step op) := by
  have hs := h.consistent
  have hs' := hs.step hsafe.1
  have hc := stepCase s op
  generalize s.step op = s' at hc hs'
  cases hc with
  | same => exact h
  | create _ hins =>
    exact h.insert hs' hins hsafe.1 nofun fun d hd _ => tokenInsert_calls hins ▸ hd
  | @begin id _ _ _ _ x d hx _ hb =>
    refine ⟨hs', fun p hp => ?_, fun T hT => ?_⟩
    · rcases hp with hx | ⟨e, he, hnone, rfl⟩
      · exact h.rooted p (.inl hx)
      rcases mem_cons.mp he with rfl | he
      · exact .inl ⟨x, hx, hb.parent.symm⟩
      · exact h.rooted _ (.inr ⟨e, he, hnone, rfl⟩)
    · obtain ⟨hdead, hlt, hclear⟩ := h.revoked T hT
      refine ⟨hdead, hlt, fun p hp => ?_⟩
      rcases hp with hx | ⟨e, he, hnone, rfl⟩
      · exact hclear p (.inl hx)
      rcases mem_cons.mp he with rfl | he
      · -- the parent is in use, so it is neither `T` nor a descendant of it
        intro hT'
        rw [hb.parent] at hT'
        rcases cases_tail hT' with hxT | ⟨q, hq, hqx⟩
        · exact hdead ⟨x, hx, hxT⟩
        · exact hclear q (.inl ⟨x, hx, hqx⟩) hq
      · exact hclear _ (.inr ⟨e, he, hnone, rfl⟩)
  | full hd hnone =>
    refine h.of_fewer hs' (fun _ _ _ => Iff.rfl) (fun _ _ => Iff.rfl) (fun p hp => ?_) rfl (Nat.le_refl _)
    exact hp.imp_right fun ⟨e, he, hrest⟩ => ⟨e, mem_of_mem_eraseIdx he, hrest⟩
  | @created i d s' hd hnone hins _ =>
    refine h.insert hs' hins hsafe.1 (fun p hp => ?_) fun e he hnone' => ?_
    · cases hp
      exact .inr ⟨d, mem_of_getElem? hd, hnone, rfl⟩
    · rcases mem_or_eq_of_mem_set he with he | rfl
      · exact he
      · cases hnone'
  | unlinked _ _ _ hneg =>
    have := toInt_pos_of_lt hs.next_pos hsafe.1
    omega
  | @link i d newId hd hid =>
    have hback : ∀ x, Alive (linkTokens s.tokens d newId) x → ∃ y, Alive s.tokens y ∧ x.id = y.id := by
      intro x hx
      obtain ⟨y, hy, rfl⟩ := alive_linkTokens hs.uniq hx
      exact ⟨y, hy, by split <;> rfl⟩
    refine h.of_fewer hs' (fun _ _ _ => Iff.rfl) (fun a _ => ⟨?_, ?_⟩) (fun p hp => ?_) rfl (Nat.le_refl _)
    · rintro ⟨x, hx, rfl⟩
      obtain ⟨y, hy, hxy⟩ := hback x hx
      exact ⟨y, hy, hxy.symm⟩
    · rintro ⟨y, hy, rfl⟩
      obtain ⟨x, hx, hxy⟩ := exists_alive_linkTokens d newId hy
      exact ⟨x, hx, hxy⟩
    · rcases hp with ⟨x, hx, hpx⟩ | ⟨e, he, hrest⟩
      · obtain ⟨y, hy, hxy⟩ := hback x hx
        exact .inl ⟨y, hy, hxy ▸ hpx⟩
      · exact .inr ⟨e, mem_of_mem_eraseIdx he, hrest⟩
  | @revoke id caller x ts hx hid howner hts =>
    refine h.revokeStep ⟨x, hx, hid⟩ (hsafe.2 ⟨x, hx, hid, howner⟩) (fun y => ?_) hs'
    rw [← hts]
    exact alive_revokeCascade hs.uniq hs.length_le ⟨x, hx, hid⟩
  | cleanup pid => exact h.cleanupStep hsafe hs'

theorem mem_revoked_step {op : TokenOp} (hT : T ∈ s.revoked) : T ∈ (s.step op).revoked := by
  have hc := stepCase s op
  generalize s.step op = s' at hc
  cases hc with
  | create _ hins | created _ _ hins _ | unlinked _ _ hins _ =>
    obtain ⟨i, old, -, -, rfl⟩ := tokenInsert_eq hins
    exact hT
  | revoke => exact mem_cons_of_mem _ hT
  | _ => exact hT

theorem mem_revoked_run {ops : List TokenOp} (hT : T ∈ s.revoked) : T ∈ (run step s ops).revoked :=
  have hstep (s : TokenSys) (op : TokenOp) : T ∈ s.revoked → T ∈ (s.step op).revoked := mem_revoked_step
  run_invariant hstep hT

theorem mem_revoked_of_revoke {caller : Nat} (h : (capTokenRevoke s T caller).1 = 0) :
    T ∈ (s.step (.revoke T caller)).revoked := by
  simp only [step, capTokenRevoke] at h ⊢
  split
  next hf => simp [hf, ENOENT] at h
  rename_i x hf
  split
  next ho => simp [hf, ho, EPERM] at h
  · exact mem_cons_self

/-- In every interleaving that meets the condition, once `cap_token_revoke(T)` has returned 0, no token in use descends
    from `T`, and `cap_token_check` grants nothing by one that does. -/
theorem revoke_complete_of_safe (before after : List TokenOp) (T : U32) (caller : Nat)
    (hret : (capTokenRevoke (run step {} before) T caller).1 = 0)
    (hsafe : Guarded step RevokeSafe {} (before ++ .revoke T caller :: after)) :
    let s := run step {} (before ++ .revoke T caller :: after)
    (∀ x, Alive s.tokens x → ¬Descends s T x.id) ∧
      ∀ pid cap resource x, grantingToken s.tokens pid cap resource = some x → ¬Descends s T x.id := by
  have hinv := hsafe.invariant (fun _ _ h hs => h.step hs) RevokeInv.empty
  have hT : T ∈ (run step {} (before ++ .revoke T caller :: after)).revoked := by
    rw [run_append, run_cons]
    exact mem_revoked_run (mem_revoked_of_revoke hret)
  refine ⟨fun x hx => hinv.not_descends hT hx, fun pid cap resource x hx => ?_⟩
  have hg := find?_some hx
  have hused : x.used = true := by
    simp only [CapToken.grants, Bool.and_eq_true] at hg
    exact hg.1.1.1
  exact hinv.not_descends hT ⟨mem_of_find?_eq_some hx, hused⟩

theorem delegateOnce_revoke_complete : let s := run step {} (delegateOnce ++ [.revoke 1 1])
    (∀ x, Alive s.tokens x → ¬Descends s 1 x.id) ∧
      ∀ pid cap resource x, grantingToken s.tokens pid cap resource = some x → ¬Descends s 1 x.id := by
  refine revoke_complete_of_safe delegateOnce [] 1 1 (by decide +kernel) ?_
  refine ⟨⟨by decide, trivial⟩, ⟨trivial, trivial⟩, ⟨by decide, trivial⟩, ⟨trivial, trivial⟩, ⟨trivial, ?_⟩, trivial⟩
  exact fun _ d hd => by
    have hnil : (run step {} delegateOnce).calls = [] := by decide +kernel
    exact absurd (hnil ▸ hd) not_mem_nil

/-- The root is revoked after a delegation has looked at it: the new token is created nevertheless, in use,
    and descends from the revoked one. -/
theorem revoke_during_delegation_incomplete :
    let before : List TokenOp := [.create 1 0xC0 0xC0 0 [47, 97], .delegateBegin 1 2 3 0 []]
    let s := run step {} (before ++ [.revoke 1 1, .delegateCreate 0, .delegateLink 0])
    (capTokenRevoke (run step {} before) 1 1).1 = 0 ∧
      ∃ x, Alive s.tokens x ∧ Descends s 1 x.id ∧ grantingToken s.tokens 3 0x80 (some [47, 97]) = some x := by
  refine ⟨by decide +kernel, ⟨2, 2, 3, 0xC0, [47, 97], 1, 1, true⟩, ⟨by decide +kernel, rfl⟩, .single ?_, ?_⟩
  · show _ = _
    decide +kernel
  · decide +kernel

end Limnx
