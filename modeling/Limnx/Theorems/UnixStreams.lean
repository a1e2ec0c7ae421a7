import Limnx.Lib.GuardedRun
import Limnx.Lib.RingBuffer
import Limnx.UnixSock

/-! Bytes arrive in order, and only at the other end. -/

namespace Limnx

open Function GuardedRun RingBuffer List Option Nat UnixWorld UnixSock

namespace UnixSock
variable {s : UnixSock} {q bytes : List UInt8}

def Ring (s : UnixSock) (q : List UInt8) : Prop := Holds s.buf unixSockBufSz s.rdPos s.wrPos s.count q

def SameEnd (s s' : UnixSock) : Prop := s'.gen = s.gen ∧ s'.state = s.state ∧ s'.peer = s.peer

theorem copyIn_spec (s : UnixSock) (bytes : List UInt8) :
    ∃ a, bytes = a ++ (s.copyIn bytes).2 ∧ SameEnd s (s.copyIn bytes).1 ∧
      ∀ q, s.Ring q → (s.copyIn bytes).1.Ring (q ++ a) := by
  induction bytes generalizing s with
  | nil => exact ⟨[], rfl, ⟨rfl, rfl, rfl⟩, fun q hq => by rwa [append_nil]⟩
  | cons b rest ih =>
    by_cases hroom : s.count < unixSockBufSz
    · rw [show s.copyIn (b :: rest) = (s.pushByte b).copyIn rest from if_pos hroom]
      obtain ⟨a, ha, hsame, hring⟩ := ih (s.pushByte b)
      refine ⟨b :: a, by rw [cons_append, ← ha], hsame, fun q hq => ?_⟩
      have hpush : (s.pushByte b).Ring (q ++ [b]) := Holds.push hq (hq.count_eq ▸ hroom) b
      rw [append_cons]
      exact hring _ hpush
    · rw [show s.copyIn (b :: rest) = (s, b :: rest) from if_neg hroom]
      exact ⟨[], rfl, ⟨rfl, rfl, rfl⟩, fun q hq => by rwa [append_nil]⟩

theorem copyOut_sameEnd (s : UnixSock) (n : Nat) : SameEnd s (s.copyOut n).2 := by
  induction n generalizing s with
  | zero => exact ⟨rfl, rfl, rfl⟩
  | succ n ih =>
    rw [copyOut]
    split
    · exact ih s.popByte
    · exact ⟨rfl, rfl, rfl⟩

theorem copyOut_ring (h : s.Ring q) (n : Nat) : ∃ q', q = (s.copyOut n).1 ++ q' ∧ (s.copyOut n).2.Ring q' := by
  induction n generalizing s q with
  | zero => exact ⟨q, rfl, h⟩
  | succ n ih =>
    rw [copyOut]
    by_cases hpos : 0 < s.count
    · rw [if_pos hpos]
      cases q with
      | nil => exact absurd h.count_eq (Nat.ne_of_gt hpos)
      | cons x q =>
        obtain ⟨hx, hpop⟩ := Holds.pop h
        obtain ⟨q', hq', hring⟩ := ih (s := s.popByte) (q := q) hpop
        exact ⟨q', by rw [hx, cons_append, ← hq'], hring⟩
    · rw [if_neg hpos]
      exact ⟨q, rfl, h⟩

theorem copyOut_stops (s : UnixSock) (n : Nat) : (s.copyOut n).2.count = 0 ∨ (s.copyOut n).1.length = n := by
  induction n generalizing s with
  | zero => exact .inr rfl
  | succ n ih =>
    rw [copyOut]
    by_cases hpos : 0 < s.count
    · rw [if_pos hpos]
      exact (ih s.popByte).imp id (congrArg Nat.succ)
    · rw [if_neg hpos]
      exact .inl (Nat.eq_zero_of_not_pos hpos)

end UnixSock

namespace UnixWorld
variable {w w' : UnixWorld} {i j e p : Nat} {s : UnixSock}

theorem set_socks_self (s : UnixSock) : (w.set i s).socks i = s := update_self ..

theorem set_socks_ne {k : Nat} (hk : k ≠ i) (s : UnixSock) : (w.set i s).socks k = w.socks k := update_of_ne hk ..

def PointsTo (w : UnixWorld) (e j : Nat) : Prop :=
  ∀ k, (w.socks k).state ≠ .free → w.mate e = some (w.socks k).gen → k = j

def PcOk (w : UnixWorld) : UnixPc → Prop
  | .idle | .fault => True
  | .sendState _ e _ _ | .sendHasPeer _ e _ _ | .sendPeer _ e _ _ | .recvState _ e _ _ => e < w.nextGen
  | .sendLoop e j _ _ _ | .sendCopy e j _ _ _ | .sendFull e j _ _ _ => e < w.nextGen ∧ w.PointsTo e j
  | .recvDrain _ e _ done _ => e < w.nextGen ∧ done = []

/-- Ends are connected in pairs, what an end returned is a prefix of what its mate accepted, and the buffer holds the
    rest. -/
structure Streams (w : UnixWorld) : Prop where
  gens : ∀ i, (w.socks i).gen < w.nextGen
  apart : ∀ i j, (w.socks i).state ≠ .free → (w.socks j).state ≠ .free → (w.socks i).gen = (w.socks j).gen → i = j
  peers : ∀ i j, (w.socks i).peer = some j → (w.socks i).state = .connected ∧ (w.socks j).state = .connected ∧
    (w.socks j).peer = some i ∧ w.mate (w.socks i).gen = some (w.socks j).gen
  mated : ∀ i, (w.socks i).state = .connected → ∃ m, w.mate (w.socks i).gen = some m
  mates : ∀ e m, w.mate e = some m → w.mate m = some e ∧ m < w.nextGen
  fresh : ∀ e, w.nextGen ≤ e → w.put e = []
  flow : ∀ e m, w.mate e = some m → w.got e <+: w.put m
  lonely : ∀ e, w.mate e = none → w.got e = []
  holds : ∀ i m, (w.socks i).state = .connected → w.mate (w.socks i).gen = some m →
    (w.socks i).Ring ((w.put m).drop (w.got (w.socks i).gen).length)
  pcs : ∀ p, w.PcOk (w.pcs p)

theorem Streams.init : Streams {} where
  gens _ := Nat.one_pos
  apart _ _ hi := absurd rfl hi
  peers _ _ h := nomatch h
  mated _ h := nomatch h
  mates _ _ h := nomatch h
  fresh _ _ := rfl
  flow _ _ h := nomatch h
  lonely _ _ := rfl
  holds _ _ h := nomatch h
  pcs _ := trivial

namespace Streams

theorem mate_fresh (h : Streams w) (he : w.nextGen ≤ e) : w.mate e = none := by
  cases hm : w.mate e with
  | none => rfl
  | some m => exact absurd (h.mates m e (h.mates e m hm).1).2 (Nat.not_lt.mpr he)

theorem goto (h : Streams w) (p : Nat) {pc : UnixPc} (hpc : w.PcOk pc) : Streams (w.goto p pc) :=
  { h with
    pcs := fun q => by
      change w.PcOk (update w.pcs p pc q)
      by_cases hq : q = p
      · rw [hq, update_self]
        exact hpc
      · rw [update_of_ne hq]
        exact h.pcs q }

end Streams

theorem PcOk.mono {pc : UnixPc} (h : w.PcOk pc) (hnext : w.nextGen ≤ w'.nextGen)
    (hpoints : ∀ e < w.nextGen, ∀ j, w.PointsTo e j → w'.PointsTo e j) : w'.PcOk pc := by
  cases pc with
  | idle | fault => exact trivial
  | sendState | sendHasPeer | sendPeer | recvState => exact Nat.lt_of_lt_of_le h hnext
  | sendLoop | sendCopy | sendFull => exact ⟨Nat.lt_of_lt_of_le h.1 hnext, hpoints _ h.1 _ h.2⟩
  | recvDrain => exact ⟨Nat.lt_of_lt_of_le h.1 hnext, h.2⟩

structure Unchanged (s s' : UnixSock) : Prop where
  used : s.state ≠ .free
  gen : s'.gen = s.gen
  connected : s'.state = .connected → s.state = .connected
  ring : ∀ q, s.Ring q → s'.Ring q

namespace Streams

theorem resocks {f : Nat → UnixSock} {n : Nat} (h : Streams w) (hn : w.nextGen ≤ n) (hgens : ∀ k, (f k).gen < n)
    (hslots : ∀ k, (f k).state ≠ .free →
      Unchanged (w.socks k) (f k) ∨ k = i ∧ w.nextGen ≤ (f k).gen ∧ (f k).state ≠ .connected)
    (hpeers : ∀ i j, (f i).peer = some j → (w.socks i).peer = some j ∧ (f i).state = .connected ∧
      (f j).state = .connected ∧ (f j).peer = some i) : Streams { w with socks := f, nextGen := n } := by
  have hold (k : Nat) (hk : (f k).state = .connected) : Unchanged (w.socks k) (f k) :=
    (hslots k fun hf => nomatch hf.symm.trans hk).resolve_right fun hnew => hnew.2.2 hk
  refine ⟨hgens, fun k l hk hl heq => ?_, fun k l hp => ?_, fun k hk => ?_,
    fun e m hm => ⟨(h.mates e m hm).1, (h.mates e m hm).2.trans_le hn⟩, fun e he => h.fresh e (hn.trans he), h.flow, h.lonely,
    fun k m hk hm => ?_, fun p => ?_⟩
  · have hgk := h.gens k
    have hgl := h.gens l
    rcases hslots k hk with hk | ⟨hki, hk, -⟩ <;> rcases hslots l hl with hl | ⟨hli, hl, -⟩
    · exact h.apart k l hk.used hl.used (hk.gen.symm.trans (heq.trans hl.gen))
    · rw [← heq, hk.gen] at hl
      omega
    · rw [heq, hl.gen] at hk
      omega
    · rw [hki, hli]
  · obtain ⟨hpeer, hk, hl, hback⟩ := hpeers k l hp
    refine ⟨hk, hl, hback, ?_⟩
    rw [(hold k hk).gen, (hold l hl).gen]
    exact (h.peers k l hpeer).2.2.2
  · rw [(hold k hk).gen]
    exact h.mated k ((hold k hk).connected hk)
  · rw [(hold k hk).gen] at hm ⊢
    exact (hold k hk).ring _ (h.holds k m ((hold k hk).connected hk) hm)
  · refine (h.pcs p).mono hn fun e _ j hpt k hk hm => ?_
    rcases hslots k hk with hk | ⟨-, hge, -⟩
    · exact hpt k hk.used (hk.gen ▸ hm)
    · exact absurd (h.mates e _ hm).2 (Nat.not_lt.mpr hge)

theorem set (h : Streams w) (hgen : s.gen = (w.socks i).gen) (hpeer : s.peer = (w.socks i).peer)
    (hstate : (w.socks i).state ≠ .free ∨ s.state = .free)
    (hconn : s.state = .connected ↔ (w.socks i).state = .connected)
    (hring : ∀ q, (w.socks i).Ring q → s.Ring q) : Streams (w.set i s) := by
  have hconn' (k : Nat) (hk : (w.socks k).state = .connected) :
      ((w.set i s).socks k).state = .connected := by
    obtain rfl | hki := eq_or_ne k i
    · rw [set_socks_self]
      exact hconn.mpr hk
    · rw [set_socks_ne hki]
      exact hk
  have hpeer' (k : Nat) : ((w.set i s).socks k).peer = (w.socks k).peer := by
    by_cases hki : k = i
    · rw [hki, set_socks_self, hpeer]
    · rw [set_socks_ne hki]
  refine h.resocks (f := (w.set i s).socks) (i := i) (Nat.le_refl _) (fun k => ?_) (fun k hk => .inl ?_) fun k l hkl => ?_
  · by_cases hki : k = i
    · rw [hki, set_socks_self, hgen]
      exact h.gens i
    · rw [set_socks_ne hki]
      exact h.gens k
  · obtain rfl | hki := eq_or_ne k i
    · rw [set_socks_self] at hk ⊢
      exact ⟨hstate.resolve_right hk, hgen, hconn.mp, hring⟩
    · rw [set_socks_ne hki] at hk ⊢
      exact ⟨hk, rfl, id, fun _ => id⟩
  · rw [hpeer'] at hkl
    obtain ⟨hk, hl, hback, -⟩ := h.peers k l hkl
    exact ⟨hkl, hconn' k hk, hconn' l hl, (hpeer' l).trans hback⟩

theorem drop {g : Nat → UnixSock} (h : Streams w) (hs : s.state = .free ∧ s.peer = none ∧ s.gen = (w.socks i).gen)
    (hg : ∀ k, (g k).gen = (w.socks k).gen ∧ (g k).state = (w.socks k).state ∧ (∀ q, (w.socks k).Ring q → (g k).Ring q) ∧
      (g k).peer = if (w.socks i).peer = some k then none else (w.socks k).peer) :
    Streams { w with socks := update g i s } := by
  have hother (k : Nat) (hk : k ≠ i) : update g i s k = g k := update_of_ne hk ..
  refine h.resocks (i := i) (Nat.le_refl _) (fun k => ?_) (fun k hk => .inl ?_) fun k l hkl => ?_
  · by_cases hki : k = i
    · rw [hki, update_self, hs.2.2]
      exact h.gens i
    · rw [hother k hki, (hg k).1]
      exact h.gens k
  · have hki : k ≠ i := by
      rintro rfl
      rw [update_self] at hk
      exact hk hs.1
    obtain ⟨hgen, hstate, hring, -⟩ := hg k
    rw [hother k hki] at hk ⊢
    rw [hstate] at hk
    exact ⟨hk, hgen, fun hc => hstate.symm.trans hc, hring⟩
  · have hki : k ≠ i := by
      rintro rfl
      rw [update_self] at hkl
      exact nomatch hs.2.1.symm.trans hkl
    rw [hother k hki, (hg k).2.2.2] at hkl
    split at hkl
    · cases hkl
    rename_i hik
    obtain ⟨hk, hl, hback, -⟩ := h.peers k l hkl
    -- `l` is not the freed slot, since that one has not pointed to `k`
    have hli : l ≠ i := by
      rintro rfl
      exact hik hback
    rw [hother k hki, hother l hli]
    refine ⟨hkl, (hg k).2.1.trans hk, (hg l).2.1.trans hl, ?_⟩
    rw [(hg l).2.2.2, if_neg fun hil => ?_]
    · exact hback
    · exact hki (some.inj ((hback.symm.trans (h.peers i l hil).2.2.1)))

theorem dropSingle (h : Streams w) (hpeer : (w.socks i).peer = none)
    (hs : s.state = .free ∧ s.peer = none ∧ s.gen = (w.socks i).gen) : Streams (w.set i s) :=
  h.drop hs fun k => ⟨rfl, rfl, fun _ => id, by rw [hpeer, if_neg nofun]⟩

theorem unixSockClose (h : Streams w) (i : Nat) : Streams (w.unixSockClose i) := by
  have hrefs : Streams (w.set i { w.socks i with refs := (w.socks i).refs - 1 }) := by
    refine h.set rfl rfl ?_ Iff.rfl fun _ => id
    exact (Decidable.em ((w.socks i).state = .free)).symm
  rw [UnixWorld.unixSockClose]
  generalize w.set i { w.socks i with refs := (w.socks i).refs - 1 } = w at hrefs ⊢
  by_cases hpos : 0 < (w.socks i).refs
  · rw [if_pos hpos]
    exact hrefs
  rw [if_neg hpos]
  cases hp : (w.socks i).peer with
  | none => exact hrefs.dropSingle hp ⟨rfl, rfl, rfl⟩
  | some j =>
    -- the table after the peer has been told
    let g := update w.socks j { w.socks j with peerClosed := true, peer := none }
    have hg (k : Nat) : (g k).gen = (w.socks k).gen ∧ (g k).state = (w.socks k).state ∧
        (∀ q, (w.socks k).Ring q → (g k).Ring q) ∧
        (g k).peer = if (w.socks i).peer = some k then none else (w.socks k).peer := by
      rw [hp]
      obtain rfl | hk := eq_or_ne k j
      · rw [if_pos rfl, show g k = _ from update_self ..]
        exact ⟨rfl, rfl, fun _ => id, rfl⟩
      · rw [if_neg fun hjk => hk (some.inj hjk).symm, show g k = _ from update_of_ne hk ..]
        exact ⟨rfl, rfl, fun _ => id, rfl⟩
    exact hrefs.drop (s := { g i with state := .free, peer := none, path := [] }) ⟨rfl, rfl, (hg i).1⟩ hg

end Streams

/-! ### New sockets -/

theorem alloc_eq (h : w.alloc = some (i, w')) : (w.socks i).state = .free ∧
    w' = { w.set i ((w.socks i).reset w.nextGen) with nextGen := w.nextGen + 1 } := by
  obtain ⟨k, hk, heq⟩ := map_eq_some_iff.mp h
  obtain ⟨rfl, rfl⟩ := Prod.mk.inj heq
  exact ⟨by simpa using find?_some hk, rfl⟩

theorem reset_ring (s : UnixSock) (gen : Nat) : (s.reset gen).Ring [] := Holds.empty _ (by decide)

namespace Streams

theorem alloc (h : Streams w) (halloc : w.alloc = some (i, w')) : Streams w' := by
  obtain ⟨hfree, rfl⟩ := alloc_eq halloc
  refine h.resocks (i := i) (le_succ _) (fun k => ?_) (fun k hk => ?_) fun k l hkl => ?_
  · by_cases hki : k = i
    · rw [hki, set_socks_self]
      exact lt_succ_self _
    · rw [set_socks_ne hki]
      exact lt_succ_of_lt (h.gens k)
  · by_cases hki : k = i
    · rw [hki, set_socks_self]
      exact .inr ⟨rfl, Nat.le_refl _, nofun⟩
    · rw [set_socks_ne hki] at hk ⊢
      exact .inl ⟨hk, rfl, id, fun _ => id⟩
  · have hki : k ≠ i := by
      rintro rfl
      rw [set_socks_self] at hkl
      cases hkl
    rw [set_socks_ne hki] at hkl ⊢
    obtain ⟨hk, hl, hback, -⟩ := h.peers k l hkl
    have hli : l ≠ i := by
      rintro rfl
      exact nomatch hfree.symm.trans hl
    rw [set_socks_ne hli]
    exact ⟨hkl, hk, hl, hback⟩

end Streams

/-- A slot that is allocated and has no other end yet. -/
structure Fresh (n : Nat) (s : UnixSock) : Prop where
  state : s.state = .unbound
  ring : s.Ring []
  gen : n ≤ s.gen

theorem fresh_alloc (h : w.alloc = some (i, w')) : Fresh w.nextGen (w'.socks i) := by
  obtain ⟨-, rfl⟩ := alloc_eq h
  rw [set_socks_self]
  exact ⟨rfl, reset_ring _ _, Nat.le_refl _⟩

theorem alloc_rest (h : w.alloc = some (i, w')) : (∀ k ≠ i, w'.socks k = w.socks k) ∧
    w'.nextGen = w.nextGen + 1 ∧ w'.mate = w.mate ∧ w'.put = w.put ∧ w'.pcs = w.pcs := by
  obtain ⟨-, rfl⟩ := alloc_eq h
  exact ⟨fun _ hk => set_socks_ne hk _, rfl, rfl, rfl, rfl⟩

/-- The two ends of a connection, from either side. -/
inductive Ends (c s : Nat) : Nat → Nat → Prop
  | client : Ends c s c s
  | server : Ends c s s c

section
variable (w) (c s k : Nat)

theorem link_gen : ((w.link c s).socks k).gen = (w.socks k).gen := by
  simp only [link, set, update_apply]
  split_ifs <;> simp_all

theorem link_cases : (∃ l, Ends c s k l) ∨ k ≠ c ∧ k ≠ s ∧ (w.link c s).socks k = w.socks k := by
  by_cases hs : k = s
  · exact .inl ⟨c, hs ▸ .server⟩
  by_cases hc : k = c
  · exact .inl ⟨s, hc ▸ .client⟩
  · exact .inr ⟨hc, hs, (set_socks_ne hs _).trans (set_socks_ne hc _)⟩

theorem link_mate_cases : (∃ i l, Ends c s i l ∧ (w.socks i).gen = k) ∨ (w.link c s).mate k = w.mate k := by
  by_cases hs : k = (w.socks s).gen
  · exact .inl ⟨s, c, .server, hs.symm⟩
  by_cases hc : k = (w.socks c).gen
  · exact .inl ⟨c, s, .client, hc.symm⟩
  · exact .inr ((update_of_ne hs ..).trans (update_of_ne hc ..))

end

theorem Streams.link {c s n : Nat} (h : Streams w) (hne : s ≠ c)
    (hfresh : ∀ {k l}, Ends c s k l → Fresh n (w.socks k)) (hmate : ∀ e, n ≤ e → w.mate e = none)
    (hput : ∀ e, n ≤ e → w.put e = []) (hpcs : ∀ p, (w.link c s).PcOk (w.pcs p)) : Streams (w.link c s) := by
  have hused {k l : Nat} (hkl : Ends c s k l) : (w.socks k).state ≠ .free :=
    fun hf => nomatch hf.symm.trans (hfresh hkl).state
  have hgen : (w.socks s).gen ≠ (w.socks c).gen := fun heq => hne (h.apart s c (hused .server) (hused .client) heq)
  have hend {k l : Nat} (hkl : Ends c s k l) : Ends c s l k ∧
      (w.link c s).socks k = { w.socks k with state := .connected, peer := some l } ∧
      (w.link c s).mate (w.socks k).gen = some (w.socks l).gen := by
    cases hkl with
    | client =>
      exact ⟨.server, (set_socks_ne hne.symm _).trans (set_socks_self _),
        (update_of_ne hgen.symm ..).trans (update_self ..)⟩
    | server => exact ⟨.client, (set_socks_self _).trans (by rw [set_socks_ne hne]), update_self ..⟩
  have hstate (k : Nat) (hk : ((w.link c s).socks k).state ≠ .free) : (w.socks k).state ≠ .free := by
    obtain ⟨l, hkl⟩ | ⟨-, -, hsame⟩ := w.link_cases c s k
    · exact hused hkl
    · rwa [hsame] at hk
  -- the two ends had no mate, so that the other mates stay
  have hold {e m : Nat} (hm : w.mate e = some m) : (w.link c s).mate e = some m := by
    obtain ⟨k, l, hkl, rfl⟩ | hsame := w.link_mate_cases c s e
    · exact nomatch hm.symm.trans (hmate _ (hfresh hkl).gen)
    · exact hsame.trans hm
  have hcases {e m : Nat} (hm : (w.link c s).mate e = some m) :
      (∃ k l, Ends c s k l ∧ e = (w.socks k).gen ∧ m = (w.socks l).gen) ∨ w.mate e = some m := by
    obtain ⟨k, l, hkl, rfl⟩ | hsame := w.link_mate_cases c s e
    · exact .inl ⟨k, l, hkl, rfl, some.inj (hm.symm.trans (hend hkl).2.2)⟩
    · exact .inr (hsame.symm.trans hm)
  refine ⟨fun k => ?_, fun k l hk hl heq => ?_, fun k l hkl => ?_, fun k hk => ?_, fun e m hm => ?_, h.fresh,
    fun e m hm => ?_, fun e he => h.lonely e ?_, fun k m hk hm => ?_, hpcs⟩
  · rw [link_gen]
    exact h.gens k
  · rw [link_gen, link_gen] at heq
    exact h.apart k l (hstate k hk) (hstate l hl) heq
  · rw [link_gen, link_gen]
    obtain ⟨l', hkl'⟩ | ⟨-, -, hk⟩ := w.link_cases c s k
    · obtain ⟨hlk, hk, hm⟩ := hend hkl'
      rw [hk] at hkl ⊢
      obtain rfl := some.inj hkl
      rw [(hend hlk).2.1]
      exact ⟨rfl, rfl, rfl, hm⟩
    · rw [hk] at hkl ⊢
      obtain ⟨hk', hl, hback, hm⟩ := h.peers k l hkl
      obtain ⟨_, hlk⟩ | ⟨-, -, hl'⟩ := w.link_cases c s l
      · exact nomatch hl.symm.trans (hfresh hlk).state
      · rw [hl']
        exact ⟨hk', hl, hback, hold hm⟩
  · rw [link_gen]
    obtain ⟨l, hkl⟩ | ⟨-, -, hsame⟩ := w.link_cases c s k
    · exact ⟨_, (hend hkl).2.2⟩
    · rw [hsame] at hk
      exact (h.mated k hk).imp fun _ => hold
  · obtain ⟨k, l, hkl, rfl, rfl⟩ | hm := hcases hm
    · exact ⟨(hend (hend hkl).1).2.2, h.gens l⟩
    · exact ⟨hold (h.mates e m hm).1, (h.mates e m hm).2⟩
  · obtain ⟨k, l, hkl, rfl, rfl⟩ | hm := hcases hm
    · rw [show (w.link c s).got _ = [] from h.lonely _ (hmate _ (hfresh hkl).gen)]
      exact nil_prefix
    · exact h.flow e m hm
  · cases hm : w.mate e with
    | none => rfl
    | some m => exact nomatch he.symm.trans (hold hm)
  · rw [link_gen] at hm ⊢
    obtain ⟨l, hkl⟩ | ⟨-, -, hsame⟩ := w.link_cases c s k
    · obtain ⟨hlk, hk, hm'⟩ := hend hkl
      obtain rfl := some.inj (hm'.symm.trans hm)
      rw [show (w.link c s).put _ = [] from hput _ (hfresh hlk).gen, drop_nil, hk]
      exact (hfresh hkl).ring
    · rw [hsame] at hk ⊢
      obtain ⟨m', hm'⟩ := h.mated k hk
      obtain rfl := some.inj ((hold hm').symm.trans hm)
      exact h.holds k m' hk hm'

namespace Streams

theorem addBacklog (h : Streams w) (l s : Nat) : Streams (w.addBacklog l s) := by
  rw [UnixWorld.addBacklog]
  cases (range unixSockBacklog).find? fun k => ((w.socks l).backlog k).isNone with
  | none => exact h
  | some k => exact h.set rfl rfl (Decidable.em ((w.socks l).state = .free)).symm Iff.rfl fun _ => id

theorem unixSockConnect (h : Streams w) (path : List UInt8) : Streams (w.unixSockConnect path).2 := by
  rw [UnixWorld.unixSockConnect]
  cases (range maxUnixSocks).find? fun i => (w.socks i).state == .listening && (w.socks i).path == path with
  | none => exact h
  | some l =>
    by_cases hfull : unixSockBacklog ≤ (w.socks l).backlogCount
    · simp only [if_pos hfull]
      exact h
    simp only [if_neg hfull]
    cases hc : w.alloc with
    | none => exact h
    | some r =>
      obtain ⟨c, w1⟩ := r
      cases hs : w1.alloc with
      | some r =>
        obtain ⟨s, w2⟩ := r
        simp only [hs]
        have hcf := fresh_alloc hc
        have hsf := fresh_alloc hs
        obtain ⟨hsame1, hnext1, hmate1, hput1, hpcs1⟩ := alloc_rest hc
        obtain ⟨hsame2, hnext2, hmate2, hput2, hpcs2⟩ := alloc_rest hs
        have hne : s ≠ c := by
          rintro rfl
          exact nomatch (alloc_eq hs).1.symm.trans hcf.state
        have hends {k l : Nat} (hkl : Ends c s k l) : Fresh w.nextGen (w2.socks k) := by
          cases hkl with
          | client => exact hsame2 c hne.symm ▸ hcf
          | server => exact { hsf with gen := (hnext1.symm ▸ le_succ _ : w.nextGen ≤ w1.nextGen).trans hsf.gen }
        have hmate := hmate2.trans hmate1
        refine (((h.alloc hc).alloc hs).link hne hends (hmate ▸ fun _ => h.mate_fresh) (hput2 ▸ hput1 ▸ h.fresh)
          fun p => ?_).addBacklog l s
        rw [hpcs2, hpcs1]
        refine (h.pcs p).mono (show w.nextGen ≤ w2.nextGen by omega) fun e he j hpt k hk hm => ?_
        obtain ⟨i, l, hil, rfl⟩ | hold := w2.link_mate_cases c s e
        · exact absurd he (Nat.not_lt.mpr (hends hil).gen)
        rw [hold, hmate, link_gen] at hm
        obtain ⟨l, hkl⟩ | ⟨hkc, hks, hk'⟩ := w2.link_cases c s k
        · exact absurd (h.mates e _ hm).2 (Nat.not_lt.mpr (hends hkl).gen)
        · rw [hk', hsame2 k hks, hsame1 k hkc] at hk
          rw [hsame2 k hks, hsame1 k hkc] at hm
          exact hpt k hk hm
      | none =>
        -- the slot of the client is given back
        simp only [hs]
        have h1 := h.alloc hc
        have hpeer : (w1.socks c).peer = none := by
          obtain ⟨-, rfl⟩ := alloc_eq hc
          rw [set_socks_self]
          rfl
        exact h1.dropSingle hpeer ⟨rfl, hpeer, rfl⟩

/-! ### Copying -/

theorem relog (h : Streams w) (hsame : ∀ k, UnixSock.SameEnd (w.socks k) (w'.socks k))
    (hnext : w'.nextGen = w.nextGen) (hmate : w'.mate = w.mate) (hpcs : w'.pcs = w.pcs)
    (hfresh : ∀ e, w.nextGen ≤ e → w'.put e = []) (hflow : ∀ e m, w.mate e = some m → w'.got e <+: w'.put m)
    (hlonely : ∀ e, w.mate e = none → w'.got e = [])
    (hholds : ∀ k m, (w.socks k).state = .connected → w.mate (w.socks k).gen = some m →
      (w'.socks k).Ring ((w'.put m).drop (w'.got (w.socks k).gen).length)) : Streams w' where
  gens k := by
    rw [(hsame k).1, hnext]
    exact h.gens k
  apart k l hk hl heq := by
    rw [(hsame k).2.1] at hk
    rw [(hsame l).2.1] at hl
    rw [(hsame k).1, (hsame l).1] at heq
    exact h.apart k l hk hl heq
  peers k l hkl := by
    rw [(hsame k).2.2] at hkl
    rw [(hsame k).2.1, (hsame l).2.1, (hsame l).2.2, (hsame k).1, (hsame l).1, hmate]
    exact h.peers k l hkl
  mated k hk := by
    rw [(hsame k).1, hmate]
    exact h.mated k ((hsame k).2.1.symm.trans hk)
  mates e m hm := by
    rw [hmate] at hm ⊢
    rw [hnext]
    exact h.mates e m hm
  fresh e he := hfresh e (hnext ▸ he)
  flow e m hm := hflow e m (hmate ▸ hm)
  lonely e he := hlonely e (hmate ▸ he)
  holds k m hk hm := by
    rw [(hsame k).1, hmate] at hm
    rw [(hsame k).1]
    exact hholds k m ((hsame k).2.1.symm.trans hk) hm
  pcs p := by
    rw [hpcs]
    refine (h.pcs p).mono (Nat.le_of_eq hnext.symm) fun e _ j hpt k hk hm => ?_
    rw [(hsame k).1, hmate] at hm
    rw [(hsame k).2.1] at hk
    exact hpt k hk hm

theorem sameEnd_set (hs : UnixSock.SameEnd (w.socks i) s) (k : Nat) :
    UnixSock.SameEnd (w.socks k) ((w.set i s).socks k) := by
  obtain rfl | hk := eq_or_ne k i
  · rw [set_socks_self]
    exact hs
  · rw [set_socks_ne hk]
    exact ⟨rfl, rfl, rfl⟩

theorem copyIn (h : Streams w) (bytes : List UInt8) (he : e < w.nextGen) (hpt : w.PointsTo e j)
    (hj : (w.socks j).state = .free ∨ w.mate e = some (w.socks j).gen) : let r := (w.socks j).copyIn bytes
    Streams { w.set j r.1 with
      put := update w.put e (w.put e ++ bytes.take (bytes.length - r.2.length)) } := by
  intro r
  obtain ⟨a, ha, hsame, hring⟩ := copyIn_spec (w.socks j) bytes
  have htake : bytes.take (bytes.length - r.2.length) = a := by
    have hlen := congrArg length ha
    rw [length_append] at hlen
    rw [show bytes.length - r.2.length = a.length from Nat.sub_eq_of_eq_add hlen]
    conv_lhs => rw [ha]
    exact take_left
  rw [htake]
  let put := update w.put e (w.put e ++ a)
  have hpe : put e = w.put e ++ a := update_self ..
  have hpo (m : Nat) (hm : m ≠ e) : put m = w.put m := update_of_ne hm ..
  refine h.relog (sameEnd_set hsame) rfl rfl rfl (fun m hm => ?_) (fun m n hm => ?_) h.lonely fun k m hk hm => ?_
  · change put m = []
    rw [hpo m (Nat.ne_of_gt (Nat.lt_of_lt_of_le he hm))]
    exact h.fresh m hm
  · change w.got m <+: put n
    by_cases hn : n = e
    · rw [hn, hpe]
      exact (hn ▸ h.flow m n hm).trans (prefix_append ..)
    · rw [hpo n hn]
      exact h.flow m n hm
  · change (update w.socks j r.1 k).Ring ((put m).drop (w.got (w.socks k).gen).length)
    have hku : (w.socks k).state ≠ .free := fun hf => nomatch hf.symm.trans hk
    obtain rfl | hkj := eq_or_ne k j
    · have hme := (h.mates e _ (hj.resolve_left hku)).1
      obtain rfl : m = e := some.inj (hm.symm.trans hme)
      rw [update_self, hpe, drop_append_of_le_length (h.flow _ _ hm).length_le]
      exact hring _ (h.holds k m hk hm)
    · have hme : m ≠ e := by
        rintro rfl
        exact hkj (hpt k hku (h.mates _ m hm).1)
      rw [update_of_ne hkj, hpo m hme]
      exact h.holds k m hk hm

theorem copyOut (h : Streams w) (n : Nat) (hi : (w.socks i).state = .connected) (he : (w.socks i).gen = e) :
    let r := (w.socks i).copyOut n
    Streams { w.set i r.2 with got := update w.got e (w.got e ++ r.1) } := by
  intro r
  subst he
  obtain ⟨m0, hm0⟩ := h.mated i hi
  obtain ⟨q, hq, hring⟩ := copyOut_ring (h.holds i m0 hi hm0) n
  let got := update w.got (w.socks i).gen (w.got (w.socks i).gen ++ r.1)
  have hge : got (w.socks i).gen = w.got (w.socks i).gen ++ r.1 := update_self ..
  have hgo (m : Nat) (hm : m ≠ (w.socks i).gen) : got m = w.got m := update_of_ne hm ..
  refine h.relog (sameEnd_set (copyOut_sameEnd ..)) rfl rfl rfl h.fresh (fun m o hm => ?_) (fun m hm => ?_)
    fun k m hk hm => ?_
  · change got m <+: w.put o
    by_cases hmi : m = (w.socks i).gen
    · subst hmi
      obtain rfl : o = m0 := some.inj (hm.symm.trans hm0)
      rw [hge]
      refine ⟨q, ?_⟩
      rw [append_assoc, ← hq]
      exact prefix_iff_eq_append.mp (h.flow _ _ hm)
    · rw [hgo m hmi]
      exact h.flow m o hm
  · have hmi : m ≠ (w.socks i).gen := by
      rintro rfl
      exact nomatch hm.symm.trans hm0
    exact (hgo m hmi).trans (h.lonely m hm)
  · change (update w.socks i r.2 k).Ring ((w.put m).drop (got (w.socks k).gen).length)
    obtain rfl | hki := eq_or_ne k i
    · obtain rfl : m = m0 := some.inj (hm.symm.trans hm0)
      rw [update_self, hge, length_append, ← drop_drop, hq]
      rw [drop_left]
      exact hring
    · have hku : (w.socks k).state ≠ .free := fun hf => nomatch hf.symm.trans hk
      have hiu : (w.socks i).state ≠ .free := fun hf => nomatch hf.symm.trans hi
      rw [update_of_ne hki, hgo _ fun heq => hki (h.apart k i hku hiu heq)]
      exact h.holds k m hk hm

end Streams

/-- The slots that a call has looked at were not given to another connection: a send finds its own end when it reads the
    peer, its section the peer slot free or with the other end, and the section of a receive its own end. -/
def NotReused (w : UnixWorld) : UnixStep → Prop
  | .turn p =>
    match w.pcs p with
    | .sendPeer i e _ _ => (w.socks i).gen = e
    | .sendCopy e j _ _ _ => (w.socks j).state = .free ∨ w.mate e = some (w.socks j).gen
    | .recvDrain i e _ _ _ => (w.socks i).state = .connected ∧ (w.socks i).gen = e
    | _ => True
  | _ => True

instance (w : UnixWorld) (op : UnixStep) : Decidable (w.NotReused op) := by
  unfold NotReused
  split
  · split <;> infer_instance
  · infer_instance

namespace Streams

theorem turn (h : Streams w) (hok : w.NotReused (.turn p)) : Streams (w.turn p).2 := by
  have hpc := h.pcs p
  rw [NotReused] at hok
  rw [UnixWorld.turn]
  have hidle : Streams (w.goto p .idle) := h.goto p trivial
  generalize hp : w.pcs p = pc at hpc hok
  cases pc with
  | idle | fault => exact h
  | sendState i e bytes nb | sendHasPeer i e bytes nb =>
    dsimp only
    split
    · exact hidle
    · exact h.goto p hpc
  | sendPeer i e bytes nb =>
    dsimp only at hok ⊢
    cases hpeer : (w.socks i).peer with
    | none => exact h.goto p trivial
    | some j =>
      refine h.goto p ⟨hpc, fun k hk hm => ?_⟩
      obtain ⟨-, hj, -, hmate⟩ := h.peers i j hpeer
      rw [hok, hm] at hmate
      exact h.apart k j hk (fun hf => nomatch hf.symm.trans hj) (some.inj hmate)
  | sendLoop e j rest total nb | sendFull e j rest total nb =>
    dsimp only
    split
    · exact hidle
    split
    · exact hidle
    · exact h.goto p hpc
  | sendCopy e j rest total nb =>
    have hcopy := h.copyIn rest hpc.1 hpc.2 hok
    dsimp only
    split
    · exact hcopy.goto p trivial
    refine hcopy.goto p ?_
    have hpc' : UnixWorld.PcOk _ (w.pcs p) := hcopy.pcs p
    rw [hp] at hpc'
    exact hpc'
  | recvState i e len nb =>
    dsimp only
    split
    · exact hidle
    split
    · exact hidle
    · exact h.goto p ⟨hpc, rfl⟩
  | recvDrain i e left done nb =>
    obtain ⟨he, rfl⟩ := hpc
    have hcopy := h.copyOut left hok.1 hok.2
    have hnone (hr : ((w.socks i).copyOut left).1 = []) : Streams (w.set i ((w.socks i).copyOut left).2) := by
      dsimp only at hcopy
      rw [hr, append_nil, update_eq_self] at hcopy
      exact hcopy
    dsimp only [leave, leaveWith]
    split
    next hzero =>
      split
      · exact hcopy.goto p trivial
      rename_i hdone
      obtain ⟨-, hr⟩ : (w.socks i).peerClosed = false ∧ ((w.socks i).copyOut left).1 = [] := by simpa using hdone
      split
      · exact (hnone hr).goto p trivial
      · exact (hnone hr).goto p ⟨he, hr⟩
    next hzero =>
      have hall := (copyOut_stops (w.socks i) left).resolve_left hzero
      rw [if_pos (by rw [hall, Nat.sub_self])]
      exact hcopy.goto p trivial

theorem whole {r : Int × UnixWorld} (h : Streams w) (p : Nat) (hr : Streams r.2) : Streams (w.whole p r).2 := by
  rw [UnixWorld.whole]
  split
  · exact hr
  · exact h

theorem enter {pc : UnixPc} (h : Streams w) (p : Nat) (hpc : w.PcOk pc) : Streams (w.enter p pc).2 := by
  rw [UnixWorld.enter]
  split
  · exact h.goto p hpc
  · exact h

theorem step (h : Streams w) (op : UnixStep) (hok : w.NotReused op) : Streams (w.step op) := by
  cases op with
  | alloc p =>
    refine h.whole p ?_
    rw [unixSockAlloc]
    cases halloc : w.alloc with
    | none => exact h
    | some r => exact h.alloc halloc
  | bind p i path =>
    refine h.whole p ?_
    rw [unixSockBind]
    split
    · exact h
    split
    · exact h
    rename_i hstate
    have hstate : (w.socks i).state = .unbound := of_not_not hstate
    split
    · exact h
    · refine h.set rfl rfl (.inl ?_) ?_ fun _ => id <;> rw [hstate] <;> simp
  | listen p i =>
    refine h.whole p ?_
    rw [unixSockListen]
    split
    · exact h
    split
    · exact h
    rename_i hstate
    have hstate : (w.socks i).state = .bound := of_not_not hstate
    refine h.set rfl rfl (.inl ?_) ?_ fun _ => id <;> rw [hstate] <;> simp
  | connect p path => exact h.whole p (h.unixSockConnect path)
  | accept p i =>
    refine h.whole p ?_
    rw [unixSockAccept]
    split
    · exact h
    dsimp only
    split
    · exact h
    split
    · exact h
    cases (range unixSockBacklog).find? fun k => ((w.socks i).backlog k).isSome with
    | none => exact h
    | some k => exact h.set rfl rfl (Decidable.em ((w.socks i).state = .free)).symm Iff.rfl fun _ => id
  | send p i bytes nb | recv p i len nb => exact h.enter p (h.gens i)
  | close p i =>
    change Streams (if w.pcs p = .idle then w.unixSockClose i else w)
    split
    · exact h.unixSockClose i
    · exact h
  | turn p => exact h.turn hok

end Streams

end UnixWorld

open UnixWorld in
/-- In every run in which no slot is given to another connection under a call, what is returned on an end is a prefix of
    what was accepted on the other, and the buffer of a connected socket holds the rest. -/
theorem streams_private (ops : List UnixStep) (hops : Guarded step NotReused {} ops) : let w := run step {} ops
    (∀ e m, w.mate e = some m → w.got e <+: w.put m) ∧ (∀ e, w.mate e = none → w.got e = []) ∧
      ∀ i, (w.socks i).state = .connected → ∃ m, w.mate (w.socks i).gen = some m ∧
        contents (w.socks i).buf unixSockBufSz (w.socks i).rdPos (w.socks i).count =
          (w.put m).drop (w.got (w.socks i).gen).length := by
  intro w
  have h : Streams w := hops.invariant (fun _ op hs hok => hs.step op hok) Streams.init
  refine ⟨h.flow, h.lonely, fun i hi => ?_⟩
  obtain ⟨m, hm⟩ := h.mated i hi
  have hring := h.holds i m hi hm
  refine ⟨m, hm, ?_⟩
  rw [hring.count_eq]
  exact hring.contents_eq

def connectionSteps : List UnixStep := [.alloc 0, .bind 0 0 [47], .listen 0 0, .connect 1 [47], .accept 0 0]

def streamRun : List UnixStep :=
  connectionSteps ++ [.send 1 1 [7, 8, 9] false] ++ List.replicate 5 (.turn 1) ++
    [.recv 0 2 2 false, .turn 0, .turn 0, .close 1 1]

open UnixWorld in
theorem streams_private_closed :
    Guarded step NotReused {} streamRun ∧
      (run step {} streamRun).got 3 = [7, 8] ∧ (run step {} streamRun).put 2 = [7, 8, 9] ∧
      ∀ e m, (run step {} streamRun).mate e = some m →
        (run step {} streamRun).got e <+: (run step {} streamRun).put m := by
  have h : Guarded step NotReused {} streamRun := by decide +kernel
  exact ⟨h, by decide +kernel, by decide +kernel, (streams_private streamRun h).1⟩

/-- Process 1 is inside `unix_sock_send` on slot 1 when slot 2 is closed. The next connection is made of slots 2 and 3,
    and the bytes of process 1 are received on slot 2. -/
theorem sent_into_reused_slot :
    let w := run step {} (connectionSteps ++ [.send 1 1 [7, 8, 9] false, .turn 1, .turn 1, .turn 1, .turn 1,
      .close 0 2, .connect 2 [47], .turn 1, .recv 2 2 2 false, .turn 2, .turn 2])
    w.mate 4 = some 5 ∧ w.got 4 = [7, 8] ∧ w.put 5 = [] := by
  decide +kernel

end Limnx
