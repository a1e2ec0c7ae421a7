import Limnx.Lib.GuardedRun
import Limnx.AgentReg

/-! `agent_send` takes the first slot that fits, whatever its namespace, and `agent_register_ns` looks for the whole of
    a name that it stores cut. -/

open List

namespace Limnx
open GuardedRun
namespace AgentWorld
variable {w w' : AgentWorld} {i j p : Nat} {s : CStr} {n m : U32}

/-- Slot `i` is in use for the name `s` in namespace `n`. -/
def Entry (w : AgentWorld) (i : Nat) (s : CStr) (n : U32) : Prop :=
  i < maxAgents ∧ (w.table i).used = true ∧ (w.table i).nsId = n ∧ (w.table i).name = s

/-- The entry of the name in the namespace, else the global one. -/
def resolve (w : AgentWorld) (s : CStr) (n : U32) : Option Nat :=
  (w.findName (s.take 31) n).or (w.findName (s.take 31) 0)

inductive NameOp
  | register (name : CStr) (pid : Nat) (ns : U32)
  | unregisterPid (pid : Nat)
  | unregisterNs (ns : U32)

def nameStep (w : AgentWorld) : NameOp → AgentWorld
  | .register name pid ns => (w.agentRegisterNs name pid ns).2
  | .unregisterPid pid => w.agentUnregisterPid pid
  | .unregisterNs ns => w.agentUnregisterNs ns

/-- The name is as it is stored, or there is no entry of what is stored for it. -/
def FitsStep (w : AgentWorld) : NameOp → Prop
  | .register name _ ns => name.length ≤ 31 ∨ w.findName (name.take 31) ns = none
  | _ => True

def Reaches (n m : U32) : Prop := m = n ∨ m = 0 ∨ n = 0

/-- An entry of another namespace that can be taken comes after the one that is meant, or is meant itself. -/
structure InOrder (w : AgentWorld) (s : CStr) (n : U32) : Prop where
  long : 31 < s.length → ∀ i, ¬ w.Entry i (s.take 31) n ∧ ¬ w.Entry i (s.take 31) 0
  first : ∀ i m, w.Entry i s m → Reaches n m → m ≠ n →
    (∃ j < i, w.Entry j s n) ∨ n ≠ 0 ∧ ∀ j, ¬ w.Entry j s n

structure Named (w : AgentWorld) : Prop where
  unique : ∀ i j s n, w.Entry i s n → w.Entry j s n → i = j
  short : ∀ i s n, w.Entry i s n → s.length ≤ 31

section
variable {k : Nat} {f : Nat → Bool} {P : Nat → Prop} (h : ∀ i, P i ↔ i < k ∧ f i = true)
include h

theorem find?_range_iff : (range k).find? f = some i ↔ P i ∧ ∀ j < i, ¬ P j := by
  simp only [find?_range_eq_some, mem_range, h, not_and, Bool.not_eq_true, Bool.not_eq_true']
  constructor
  · rintro ⟨hf, hi, hall⟩
    exact ⟨⟨hi, hf⟩, fun j hj _ => hall j hj⟩
  · rintro ⟨⟨hi, hf⟩, hall⟩
    exact ⟨hf, hi, fun j hj => hall j hj (Nat.lt_trans hj hi)⟩

theorem find?_range_none : (range k).find? f = none ↔ ∀ i, ¬ P i := by
  simp only [find?_eq_none, mem_range, h, not_and]

end

theorem entry_iff (i : Nat) : w.Entry i s n ↔
    i < maxAgents ∧ ((w.table i).used && (w.table i).nsId == n && (w.table i).name == s) := by
  simp [Entry, and_assoc]

theorem reached_iff (i : Nat) : (∃ m, w.Entry i s m ∧ Reaches n m) ↔ i < maxAgents ∧ ((w.table i).used &&
    ((w.table i).nsId == n || (w.table i).nsId == 0 || n == 0) && (w.table i).name == s) := by
  simp [Entry, Reaches, and_assoc, or_assoc, and_left_comm, and_comm]

theorem findName_eq : w.findName s n = some i ↔ w.Entry i s n ∧ ∀ j < i, ¬ w.Entry j s n := find?_range_iff entry_iff

theorem findName_none : w.findName s n = none ↔ ∀ i, ¬ w.Entry i s n := find?_range_none entry_iff

theorem findTarget_eq : w.findTarget s n = some i ↔
    (∃ m, w.Entry i s m ∧ Reaches n m) ∧ ∀ j < i, ¬ ∃ m, w.Entry j s m ∧ Reaches n m := find?_range_iff reached_iff

theorem findTarget_none : w.findTarget s n = none ↔ ∀ i, ¬ ∃ m, w.Entry i s m ∧ Reaches n m :=
  find?_range_none reached_iff

theorem resolve_none : w.resolve s n = none ↔ ∀ i, ¬ w.Entry i (s.take 31) n ∧ ¬ w.Entry i (s.take 31) 0 := by
  simp only [resolve, Option.or_eq_none_iff, findName_none, forall_and]

theorem Named.long_none (hw : w.Named) (hs : 31 < s.length) : w.findTarget s n = none :=
  findTarget_none.mpr fun i ⟨m, hm, _⟩ => absurd (hw.short i s m hm) (Nat.not_le.mpr hs)

theorem InOrder.of_eq (hw : w.Named) (h : w.findTarget s n = w.resolve s n) : w.InOrder s n := by
  refine ⟨fun hs => ?_, fun i m hi hreach hmn => ?_⟩
  · rw [hw.long_none hs] at h
    exact resolve_none.mp h.symm
  · rw [resolve, take_of_length_le (hw.short i s m hi)] at h
    cases hf : w.findTarget s n with
    | none => exact absurd ⟨m, hi, hreach⟩ (findTarget_none.mp hf i)
    | some k =>
      rw [hf] at h
      cases hname : w.findName s n with
      | none =>
        refine .inr ⟨?_, findName_none.mp hname⟩
        rintro rfl
        rw [hname] at h
        cases h
      | some j =>
        rw [hname, Option.some_or, Option.some_inj] at h
        subst h
        have hj := (findName_eq.mp hname).1
        refine .inl ⟨k, Nat.lt_of_le_of_ne (Nat.le_of_not_lt fun hlt => ?_) ?_, hj⟩
        · exact (findTarget_eq.mp hf).2 i hlt ⟨m, hi, hreach⟩
        · rintro rfl
          exact hmn (hi.2.2.1.symm.trans hj.2.2.1)

theorem InOrder.eq (hw : w.Named) (h : w.InOrder s n) : w.findTarget s n = w.resolve s n := by
  rcases Nat.lt_or_ge 31 s.length with hs | hs
  · rw [hw.long_none hs, resolve_none.mpr (h.long hs)]
  rw [resolve, take_of_length_le hs]
  cases hn : w.findName s n with
  | some j =>
    obtain ⟨hj, hfirst⟩ := findName_eq.mp hn
    refine findTarget_eq.mpr ⟨⟨n, hj, .inl rfl⟩, ?_⟩
    rintro k hk ⟨m, hm, hreach⟩
    obtain rfl | hmn := eq_or_ne m n
    · exact hfirst k hk hm
    obtain ⟨j', hj', hent⟩ | ⟨-, hno⟩ := h.first k m hm hreach hmn
    · exact hfirst j' (Nat.lt_trans hj' hk) hent
    · exact hno j hj
  | none =>
    have hno := findName_none.mp hn
    have hcand (i) : (∃ m, w.Entry i s m ∧ Reaches n m) ↔ w.Entry i s 0 := by
      refine ⟨?_, fun hi => ⟨0, hi, .inr (.inl rfl)⟩⟩
      rintro ⟨m, hm, hreach⟩
      obtain rfl | hmn := eq_or_ne m n
      · exact absurd hm (hno i)
      obtain ⟨j, -, hj⟩ | ⟨hn0, -⟩ := h.first i m hm hreach hmn
      · exact absurd hj (hno j)
      · obtain rfl := (hreach.resolve_left hmn).resolve_right hn0
        exact hm
    ext i
    simp only [findTarget_eq, findName_eq, hcand, Option.none_or]

theorem newReg_entry (e : AgentEntry) : (w.newReg i e).Entry j s n ↔
    if j = i then j < maxAgents ∧ e.used ∧ e.nsId = n ∧ e.name = s else w.Entry j s n := by
  unfold Entry newReg setEntry
  simp only [Function.update_apply]
  split <;> rfl

theorem Named.of_fewer (hw : w.Named) (h : ∀ i s n, w'.Entry i s n → w.Entry i s n) : w'.Named :=
  ⟨fun i j s n hi hj => hw.unique i j s n (h i s n hi) (h j s n hj), fun i s n hi => hw.short i s n (h i s n hi)⟩

theorem Named.unregister (hw : w.Named) (f : AgentEntry → Bool) : (w.unregister f).Named := by
  refine hw.of_fewer fun i s n => ?_
  dsimp only [Entry, AgentWorld.unregister]
  split
  · rintro ⟨-, hu, -⟩
    cases hu
  · exact id

theorem Named.register (hw : w.Named) (hfit : s.length ≤ 31 ∨ w.findName (s.take 31) n = none) :
    (w.agentRegisterNs s p n).2.Named := by
  unfold agentRegisterNs
  split
  · refine hw.of_fewer fun j t m hj => ?_
    rw [newReg_entry] at hj
    split at hj
    next hji => exact hji ▸ hj
    · exact hj
  next hnone =>
    have hnew : ∀ j, ¬ w.Entry j (s.take 31) n := by
      rcases hfit with hs | hfit
      · rw [take_of_length_le hs]
        exact findName_none.mp hnone
      · exact findName_none.mp hfit
    split
    · refine ⟨fun j k t m hj hk => ?_, fun j t m hj => ?_⟩
      · rw [newReg_entry] at hj hk
        split at hj <;> split at hk
        next hji hki => exact hji.trans hki.symm
        · obtain ⟨-, -, rfl, rfl⟩ := hj
          exact absurd hk (hnew k)
        · obtain ⟨-, -, rfl, rfl⟩ := hk
          exact absurd hj (hnew j)
        · exact hw.unique j k t m hj hk
      · rw [newReg_entry] at hj
        split at hj
        · obtain ⟨-, -, -, rfl⟩ := hj
          exact length_take_le ..
        · exact hw.short j t m hj
    · exact hw

theorem Named.step {op : NameOp} (hw : w.Named) (hop : w.FitsStep op) : (w.nameStep op).Named := by
  cases op with
  | register name pid ns => exact hw.register hop
  | unregisterPid pid => exact hw.unregister (·.pid == pid)
  | unregisterNs ns => exact hw.unregister (·.nsId == ns)

theorem Named.init : Named {} where
  unique _ _ _ _ h := nomatch h.2.1
  short _ _ _ h := nomatch h.2.1

/-- There is one entry for a name in a namespace, and a message goes to the right one exactly if the slots are in order.
    -/
theorem agents_resolve_iff {ops : List NameOp} (h : Guarded nameStep FitsStep {} ops) (hrun : run nameStep {} ops = w) :
    (∀ i j s n, w.Entry i s n → w.Entry j s n → i = j) ∧
    ∀ s n, (w.findTarget s n = w.resolve s n ↔ w.InOrder s n) ∧
      ∀ p data tokenId, (w.agentSend p s n data tokenId).1.returns = some (-ENOENT) ↔ w.findTarget s n = none := by
  have hw : w.Named := hrun ▸ h.invariant (fun _ _ => Named.step) .init
  refine ⟨hw.unique, fun s n => ⟨⟨InOrder.of_eq hw, InOrder.eq hw⟩, fun p data tokenId => ?_⟩⟩
  unfold agentSend
  split
  · simp [*]
  split
  · simp [*, ENOBUFS, ENOENT]
  · split <;> simp [*, ENOENT]

theorem agents_resolve_iff_two : let w := run nameStep {} [.register [0x61] 1 2, .register [0x61] 2 0]
    Guarded nameStep FitsStep {} [.register [0x61] 1 2, .register [0x61] 2 0] ∧ w.findTarget [0x61] 2 = some 0 ∧
      (w.findTarget [0x61] 2 = w.resolve [0x61] 2 ↔ w.InOrder [0x61] 2) := by
  have h : Guarded nameStep FitsStep {} [.register [0x61] 1 2, .register [0x61] 2 0] :=
    ⟨.inl (by decide), .inl (by decide), trivial⟩
  exact ⟨h, by decide, ((agents_resolve_iff h rfl).2 _ _).1⟩

/-- A global agent in a lower slot gets what is for the agent of the sender's namespace, and a sender of namespace 0
    reaches any other. -/
theorem message_to_global_agent :
    let w := run nameStep {} [.register [0x61] 1 0, .register [0x61] 2 2, .register [0x62] 3 2]
    w.findTarget [0x61] 2 = some 0 ∧ w.resolve [0x61] 2 = some 1 ∧
      w.findTarget [0x62] 0 = some 2 ∧ w.resolve [0x62] 0 = none := by
  decide

end AgentWorld
end Limnx
