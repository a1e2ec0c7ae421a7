import Limnx.PubSub
import Limnx.Supervisor

/-! The number of a namespace is written with at most two characters, the first for all but the last digit, and a token
    is for everything that its resource is the beginning of. -/

open UInt8

namespace Limnx
open List

/-- The token can be used by the process for the capability. -/
def CapToken.Applies (x : CapToken) (pid : Nat) (cap : U32) : Prop :=
  x.used = true ∧ (x.targetPid = 0 ∨ x.targetPid = pid) ∧ x.perms &&& cap ≠ 0

/-- What the process can use for the capability are tokens for the name of namespace `a`, and it has one. -/
structure OnlyFor (tokens : List CapToken) (pid : Nat) (cap a : U32) : Prop where
  held : ∃ x ∈ tokens, x.Applies pid cap
  only : ∀ x ∈ tokens, x.Applies pid cap → x.resource = cString (nsResource a)

/-- The name of namespace `a`, up to its first zero byte, is the beginning of that of another namespace `b`. -/
def Covers (a b : Nat) : Prop :=
  a ≠ b ∧ (10 ≤ a ∧ a / 10 % 256 = 208 ∨ a < 10 ∧ 10 ≤ b ∧ b / 10 % 256 = a ∨
    10 ≤ a ∧ 10 ≤ b ∧ a % 2560 = b % 2560)

theorem digit_inj {m n : Nat} : (0x30 : UInt8) + ofNat m = 0x30 + ofNat n ↔ m % 256 = n % 256 := by
  rw [← UInt8.toNat_inj]
  simp only [UInt8.toNat_add, toNat_ofNat', reduceToNat]
  omega

theorem digit_eq_zero {n : Nat} : (0x30 : UInt8) + ofNat n = 0 ↔ n % 256 = 208 := by
  rw [← UInt8.toNat_inj]
  simp only [UInt8.toNat_add, toNat_ofNat', reduceToNat]
  omega

theorem cString_nsResource (ns : U32) : cString (nsResource ns) = 0x6e :: 0x73 :: 0x2f ::
    if ns.toNat < 10 then [0x30 + ofNat ns.toNat] else if ns.toNat / 10 % 256 = 208 then []
    else [0x30 + ofNat (ns.toNat / 10), 0x30 + ofNat (ns.toNat % 10)] := by
  have hsmall {n : Nat} (hn : n < 10) : (0x30 : UInt8) + ofNat n ≠ 0 := by
    rw [ne_eq, digit_eq_zero]
    omega
  unfold nsResource cString
  dsimp only
  split
  next hlt => simp [hsmall hlt]
  have hlast := hsmall (Nat.mod_lt ns.toNat (by decide : 0 < 10))
  split
  next hzero => simp [digit_eq_zero.mpr hzero]
  next hne => simp [mt digit_eq_zero.mp hne, hlast]

theorem prefixMatch_nsResource {a b : U32} :
    prefixMatch (cString (nsResource a)) (nsResource b) ↔ a = b ∨ Covers a.toNat b.toNat := by
  rw [cString_nsResource, prefixMatch, isPrefixOf_iff_prefix, nsResource, Covers, ← BitVec.toNat_inj]
  dsimp only
  split
  · split
    · simp only [cons_prefix_cons, nil_prefix, digit_inj, true_and, and_true]
      omega
    · simp only [cons_prefix_cons, nil_prefix, digit_inj, true_and, and_true]
      omega
  split
  · split
    · simp only [cons_prefix_cons, nil_prefix, true_and, true_iff]
      omega
    · simp only [cons_prefix_cons, nil_prefix, true_and, true_iff]
      omega
  · split
    · simp only [cons_prefix_cons, prefix_nil, digit_inj, reduceCtorEq, and_false, false_iff]
      omega
    · simp only [cons_prefix_cons, nil_prefix, digit_inj, true_and, and_true]
      omega

variable {tokens : List CapToken} {pid : Nat} {cap caps callerNs a b : U32}

theorem OnlyFor.capTokenCheck_iff (h : OnlyFor tokens pid cap a) :
    capTokenCheck tokens pid cap (some (nsResource b)) ↔ a = b ∨ Covers a.toNat b.toNat := by
  rw [← prefixMatch_nsResource, capTokenCheck, grantingToken, find?_isSome]
  simp only [CapToken.grants, Bool.and_eq_true, Bool.or_eq_true, Option.all_some, beq_iff_eq, bne_iff_ne]
  constructor
  · rintro ⟨x, hx, ⟨⟨hused, htarget⟩, hperms⟩, hres⟩
    rw [h.only x hx ⟨hused, htarget, hperms⟩, cString_nsResource] at hres
    rw [cString_nsResource]
    exact hres.resolve_left nofun
  · intro hpre
    obtain ⟨x, hx, happ⟩ := h.held
    refine ⟨x, hx, ⟨⟨happ.1, happ.2.1⟩, happ.2.2⟩, .inr ?_⟩
    rw [h.only x hx happ]
    exact hpre

theorem own_iff {granted : Prop} (h : granted ↔ a = b ∨ Covers a.toNat b.toNat) :
    (granted ↔ a = b) ↔ ¬Covers a.toNat b.toNat := by
  rw [h]
  constructor
  · intro hown hcovers
    exact hcovers.1 (congrArg BitVec.toNat (hown.mp (.inr hcovers)))
  · intro hnot
    exact or_iff_left hnot

/-- A process that has only tokens for the name of namespace `a` gets with them into namespace `a` and no other, unless
    the name of `a` is the beginning of that of the other one. -/
theorem token_for_own_namespace_iff (tokens : List CapToken) (pid : Nat) (caps callerNs a b : U32) :
    (OnlyFor tokens pid capXnsPubsub a → caps &&& capXnsPubsub = 0 → callerNs ≠ b → b ≠ 0 →
      ((checkXnsAccess tokens b callerNs pid caps = true ↔ a = b) ↔ ¬Covers a.toNat b.toNat)) ∧
    (OnlyFor tokens pid capXnsTask a → caps &&& capXnsTask = 0 →
      ((xnsGranted tokens pid caps b = true ↔ a = b) ↔ ¬Covers a.toNat b.toNat)) := by
  refine ⟨fun h hcaps hns hb => own_iff ?_, fun h hcaps => own_iff ?_⟩
  · rw [← h.capTokenCheck_iff]
    have hzero : b ≠ 0#32 := hb
    simp [checkXnsAccess, hcaps, hns, hzero]
  · rw [← h.capTokenCheck_iff]
    simp [xnsGranted, hcaps]

def tokenFor (a : U32) : CapToken :=
  freshToken 1 1 (capXnsPubsub ||| capXnsTask) 0 (cString (nsResource a))

theorem onlyFor_tokenFor_two (hcap : (capXnsPubsub ||| capXnsTask) &&& cap ≠ 0) : OnlyFor [tokenFor 2] pid cap 2 where
  held := ⟨_, mem_singleton_self _, rfl, .inl rfl, hcap⟩
  only x hx _ := by
    rw [mem_singleton.mp hx]
    decide

theorem token_for_own_namespace_two :
    ((checkXnsAccess [tokenFor 2] 3 0 5 0 = true ↔ (2 : U32) = 3) ↔ ¬Covers 2 3) ∧
      ((xnsGranted [tokenFor 2] 5 0 3 = true ↔ (2 : U32) = 3) ↔ ¬Covers 2 3) := by
  obtain ⟨hpubsub, htask⟩ := token_for_own_namespace_iff [tokenFor 2] 5 0 0 2 3
  exact ⟨hpubsub (onlyFor_tokenFor_two (by decide)) rfl (by decide) (by decide),
    htask (onlyFor_tokenFor_two (by decide)) rfl⟩

/-- A token for namespace 1 opens namespace 10, and one for namespace 10 namespace 2570. -/
theorem token_opens_other_namespace :
    checkXnsAccess [tokenFor 1] 10 0 5 0 = true ∧ xnsGranted [tokenFor 1] 5 0 10 = true ∧
      checkXnsAccess [tokenFor 10] 2570 0 5 0 = true := by
  decide +kernel

end Limnx
