import Limnx.TcpProcs
import Limnx.Theorems.TcpUnique

/-! What one process can do to the connections of another. -/

namespace Limnx

open Function TcpProg TcpM GuardedRun TcpTable Option TcpProc TcpConn List BitVec Bool

variable {a : U64} {port : U16}

section
variable {α β : Type} {c : TcpConn} {s : TcpTable} {i : Nat} {f : α → β} {m : TcpM α}

theorem TcpM.holds_map {Q : TcpConn → Segment → Prop} {env : TcpConn → TcpConn → Prop} {R : β → TcpConn → Prop} :
    Holds Q env R ((f <$> m) c) ↔ Holds Q env (fun a c => R (f a) c) (m c) :=
  TcpProg.bind_holds _ _

def Refuses (R : α → Prop) (m : TcpM α) (c : TcpConn) : Prop :=
  Holds (fun _ _ => False) (fun _ _ => True) (fun a c' => R a ∧ c' = c) (m c)

theorem Refuses.call {R : α → Prop} (h : Refuses R m (s.conns i)) : R (s.call i m).1 ∧ (s.call i m).2 = s := by
  unfold Refuses at h
  unfold TcpTable.call
  cases hp : m (s.conns i) with
  | send seg c k =>
    rw [hp] at h
    exact h.1.elim
  | done a c =>
    rw [hp] at h
    obtain ⟨hR, rfl⟩ := h
    refine ⟨hR, ?_⟩
    change s.set i (s.conns i) = s
    rw [TcpTable.set, update_eq_self]

theorem Refuses.map (h : Refuses (fun _ => True) m c) : Refuses (fun _ => True) (f <$> m) c := holds_map.mpr h

theorem refuses_tcpConnect (now : Nat) (isn ip : U32) (port : U16)
    (h : ¬ (c.inUse ∧ c.state = .closed)) : Refuses (· = -EINVAL) (tcpConnect now isn ip port) c := by
  have hno : (!c.inUse || decide (c.state ≠ .closed)) := by
    by_cases huse : c.inUse
    · have hst : c.state ≠ .closed := fun hst => h ⟨huse, hst⟩
      simp [hst]
    · simp [huse]
  simp only [Refuses, tcpConnect, holds_steps]
  rw [if_pos hno]
  exact ⟨trivial, trivial⟩

theorem refuses_tcpListen (h : c.inUse = false) : Refuses (fun _ => True) (tcpListen port) c := by
  simp [Refuses, tcpListen, h]

theorem refuses_tcpSend {now : Nat} {buf : List UInt8} (h : c.sends = false) :
    Refuses (fun _ => True) (tcpSend now buf) c := by
  simp [Refuses, tcpSend, h]

theorem refuses_tcpRecv {len : Nat} {e : Int} (h : len = 0 ∨ c.rxCount = 0 ∨ c.rstReceived ∨ c.inUse = false) :
    Refuses (fun _ => True) (tcpRecv len e) c := by
  simp only [Refuses, tcpRecv, holds_steps]
  split
  · exact ⟨trivial, trivial⟩
  split
  · exact ⟨trivial, trivial⟩
  split
  · exact ⟨trivial, trivial⟩
  split
  · exact ⟨trivial, trivial⟩
  rename_i huse _ hrst hcount
  obtain rfl : len = 0 := by
    rcases h with h | h | h | h
    · exact h
    · exact absurd h hcount
    · exact absurd h hrst
    · simp [h] at huse
  -- nothing is taken, so the window does not grow
  split
  next hgrow => exact absurd hgrow.2.1 (BitVec.not_le.mpr hgrow.1)
  · exact ⟨trivial, rfl⟩

theorem refuses_tcpClose (now : Nat) (h : c.inUse = false) : Refuses (· = -EBADF) (tcpClose now) c := by
  simp [Refuses, tcpClose, h]

theorem refuses_tcpSetNonblock {nb : Bool} (h : c.inUse = false ∨ c.nonblock = nb) :
    Refuses (fun _ => True) (tcpSetNonblock nb) c := by
  simp only [Refuses, tcpSetNonblock, holds_steps]
  split
  · exact ⟨trivial, trivial⟩
  rename_i huse
  rcases h with h | rfl
  · simp [h] at huse
  · exact ⟨trivial, rfl⟩

theorem refuses_tcpAccept (h : ¬ ((s.conns i).listens ∧ (takeBacklog (s.conns i).backlog).isSome)) :
    ∃ e, s.tcpAccept i = (.error e, s) := by
  unfold tcpAccept
  split
  · exact ⟨_, rfl⟩
  rename_i hlis
  split
  · exact ⟨_, rfl⟩
  rename_i htake
  refine absurd ⟨?_, by rw [htake]; rfl⟩ h
  simpa [listens] using hlis

end

/-- The call is refused for the state of the connection `c` that it names, or it would leave that as it is. -/
def TcpCall.Harmless (c : TcpConn) : TcpCall → Prop
  | .socket => True
  | .connect .. => ¬ (c.inUse ∧ c.state = .closed)
  | .listen .. => c.inUse = false
  | .accept _ => ¬ (c.listens ∧ (takeBacklog c.backlog).isSome)
  | .send .. => c.sends = false
  | .recv _ len _ => len = 0 ∨ c.rxCount = 0 ∨ c.rstReceived = true ∨ c.inUse = false
  | .close _ => c.inUse = false
  | .setopt _ opt value => opt ≠ 1 ∨ c.inUse = false ∨ c.nonblock = decide (value.setWidth 32 ≠ 0)

instance (c : TcpConn) : DecidablePred (TcpCall.Harmless c) := fun _ => by
  unfold TcpCall.Harmless
  split <;> infer_instance

namespace TcpWorld
variable {w : TcpWorld} {n p : Nat}

theorem setTable_self (w : TcpWorld) : w.setTable w.net.table = w := rfl

theorem onConn_refused {m : Nat → TcpM TcpAnswer} (hn : argIdx a = some n)
    (h : Refuses (fun _ => True) (m n) (w.net.table.conns n)) : (w.onConn a m).2 = w := by
  unfold onConn
  rw [hn]
  change w.setTable (w.net.table.call n (m n)).2 = w
  rw [h.call.2, setTable_self]

theorem call_harmless {c : TcpCall} (hn : c.idx = some n) (h : c.Harmless (w.net.table.conns n)) :
    (w.call p c).2 = w := by
  cases c with
  | socket => cases hn
  | connect a ip port =>
    change argIdx a = some n at hn
    have hcall := (refuses_tcpConnect w.net.table.ticks (tcpGenIsn w.net.table.ticks n) ip port h).call
    change (w.sysTcpConnect p a ip port).2 = w
    unfold sysTcpConnect
    rw [hn]
    dsimp only
    rw [hcall.1, hcall.2, if_neg (fun hwait => absurd hwait.1 (by decide)), setTable_self]
  | listen a port => exact onConn_refused hn (refuses_tcpListen h).map
  | accept a =>
    change argIdx a = some n at hn
    obtain ⟨e, he⟩ := refuses_tcpAccept h
    change (w.sysTcpAccept p a).2 = w
    unfold sysTcpAccept
    rw [hn]
    dsimp only
    rw [he]
    rfl
  | send a buf => exact onConn_refused hn (refuses_tcpSend h).map
  | recv a len e => exact onConn_refused hn (refuses_tcpRecv h).map
  | close a =>
    change argIdx a = some n at hn
    have hcall := (refuses_tcpClose w.net.table.ticks h).call
    have hwaits : (w.net.table.conns n).closeWaits = false := by
      rw [closeWaits, h]
      rfl
    change (w.sysTcpClose p a).2 = w
    unfold sysTcpClose
    rw [hn]
    dsimp only
    rw [hcall.1, hcall.2, hwaits]
    rfl
  | setopt a opt value =>
    change (if opt = 1 then w.onConn a _ else _).2 = w
    split
    next hopt =>
      refine onConn_refused hn (Refuses.map ?_)
      rcases h with h | h
      · exact absurd hopt h
      · exact refuses_tcpSetNonblock h
    · rfl

end TcpWorld

section
variable {α : Type} {c : TcpConn} {s : TcpTable} {i : Nat}

theorem EndsOnly.map {β : Type} {f : α → β} {m : TcpM α} (h : EndsOnly c (m c)) : EndsOnly c ((f <$> m) c) :=
  holds_map.mpr h

theorem connect_stays {now : Nat} {isn ip : U32} (n : Nat) (h : (s.conns n).Done) :
    ((s.call i (tcpConnect now isn ip port)).2.conns n).Done := by
  obtain rfl | hn := eq_or_ne n i
  · rcases respected_ends.call_self (keeps_tcpConnect (c := s.conns n)) with hends | ⟨huse, hclosed, -⟩
    · exact hends.done h
    · cases (h huse).symm.trans hclosed
  · exact (respected_ends.call_other _ hn).done h

theorem done_tcpCloseEnd : Holds (fun _ _ => True) Ends (fun _ c' => c'.Done) (tcpCloseEnd c) := by
  simp only [tcpCloseEnd, holds_steps]
  split
  · intro huse
    cases huse
  next hst => exact fun _ => not_not.mp hst

theorem done_tcpClose {now : Nat} (h : ¬ (c.state = .established ∨ c.state = .closeWait)) :
    Holds (fun _ _ => True) Ends (fun _ c' => c'.Done) (tcpClose now c) := by
  simp only [tcpClose, holds_steps]
  by_cases huse : c.inUse
  · rw [if_neg (by simp [huse]), if_neg h]
    exact done_tcpCloseEnd
  · rw [if_pos (by simp [huse])]
    exact fun huse' => absurd huse' huse

end

/-! ### The marks of a process -/

def TcpProc.exitIdx (p : TcpProc) : Nat := p.exiting.getD 0

/-- `tcp_close` would leave the connection to the peer: it sends a FIN and returns. -/
def TcpConn.lingers (c : TcpConn) : Bool :=
  c.inUse && (c.state = .established || c.state = .closeWait) && c.nonblock

def TcpWait.Fits (exiting : Option Nat) : TcpWait → Prop
  | .connect _ | .accept _ => exiting = none
  | .close i a => exiting = none ∧ argIdx a = some i
  | .exit i => exiting = some i

def TcpWait.HasMark : TcpWait → Prop
  | .accept k => k < tcpMarks
  | _ => True

def TcpStep.proc : TcpStep → Option Nat
  | .call p _ | .wake p _ | .exit p => some p
  | _ => none

instance : DecidablePred TcpWait.HasMark := fun _ => by
  unfold TcpWait.HasMark
  split <;> infer_instance

namespace TcpWorld
variable {w : TcpWorld} {P p i n : Nat} {t : TcpTable}

/-- Connections that `P` obtained and that are not done have a mark that its exit is still to come to. -/
structure Marked (P : Nat) (skip : Option Nat) (w : TcpWorld) : Prop where
  marks : ∀ n, some n ≠ skip → P ∈ w.owners n → ¬ (w.net.table.conns n).Done →
    n < tcpMarks ∧ (w.procs P).marks n ∧ (w.procs P).exitIdx ≤ n
  exited : (w.procs P).exited → tcpMarks ≤ (w.procs P).exitIdx
  waiting : ∀ x, (w.procs P).waiting = some x → x.Fits (w.procs P).exiting

variable {skip : Option Nat} {op : TcpStep}

theorem Marked.weaken (h : Marked P none w) (skip : Option Nat) : Marked P skip w :=
  ⟨fun n _ => h.marks n (by simp), h.exited, h.waiting⟩

theorem Marked.setNet (h : Marked P skip w) {net : TcpNet}
    (ht : ∀ n, some n ≠ skip → P ∈ w.owners n → (w.net.table.conns n).Done → (net.table.conns n).Done) :
    Marked P skip { w with net } :=
  ⟨fun n hskip hn hopen => h.marks n hskip hn fun hdone => hopen (ht n hskip hn hdone), h.exited, h.waiting⟩

theorem Marked.setTable (h : Marked P skip w)
    (ht : ∀ n, some n ≠ skip → P ∈ w.owners n → (w.net.table.conns n).Done → (t.conns n).Done) :
    Marked P skip (w.setTable t) := h.setNet ht

theorem setProc_self (w : TcpWorld) (p : Nat) (x : TcpProc) : (w.setProc p x).procs p = x := update_self ..

theorem setProc_ne (w : TcpWorld) (x : TcpProc) (h : P ≠ p) : (w.setProc p x).procs P = w.procs P := update_of_ne h ..

theorem Marked.setProc_other (h : Marked P skip w) (hp : P ≠ p) (x : TcpProc) : Marked P skip (w.setProc p x) := by
  refine ⟨?_, ?_, ?_⟩
  · rw [setProc_ne _ _ hp]
    exact h.marks
  · rw [setProc_ne _ _ hp]
    exact h.exited
  · rw [setProc_ne _ _ hp]
    exact h.waiting

theorem Marked.disown (h : Marked P (some n) w) : Marked P none (w.disown n) := by
  refine ⟨fun k _ hk hopen => ?_, h.exited, h.waiting⟩
  obtain rfl | hkn := eq_or_ne k n
  · have hnil : (w.disown k).owners k = [] := update_self ..
    rw [hnil] at hk
    cases hk
  · have hsame : (w.disown n).owners k = w.owners k := update_of_ne hkn ..
    exact h.marks k (fun heq => hkn (some.inj heq)) (hsame ▸ hk) hopen

theorem Marked.setWaiting (h : Marked P skip w) {x : Option TcpWait}
    (hx : ∀ y, x = some y → y.Fits (w.procs P).exiting) :
    Marked P skip (w.setProc P { w.procs P with waiting := x }) := by
  refine ⟨?_, ?_, ?_⟩
  · rw [setProc_self]
    exact h.marks
  · rw [setProc_self]
    exact h.exited
  · rw [setProc_self]
    exact hx

theorem Marked.waits (h : Marked P skip w) {x : TcpWait} (hx : p = P → x.Fits (w.procs P).exiting) :
    Marked P skip (w.waits p x) := by
  obtain rfl | hp := eq_or_ne p P
  · refine h.setWaiting fun y hy => ?_
    cases hy
    exact hx rfl
  · exact h.setProc_other (Ne.symm hp) _

theorem Marked.gets (h : Marked P none w) (hown : p = P → n < tcpMarks ∧ (w.procs P).exiting = none) :
    Marked P none (w.gets p n) := by
  obtain rfl | hp := eq_or_ne p P
  · obtain ⟨hn, hexit⟩ := hown rfl
    have hmark : (w.procs p).mark n = { w.procs p with marks := update (w.procs p).marks n true } := if_pos hn
    have hproc : (w.gets p n).procs p = { w.procs p with marks := update (w.procs p).marks n true } :=
      (update_self ..).trans hmark
    refine ⟨fun k hskip hk hopen => ?_, ?_, ?_⟩
    · rw [hproc]
      obtain rfl | hkn := eq_or_ne k n
      · refine ⟨hn, update_self .., ?_⟩
        simp [exitIdx, hexit]
      · have hsame : (w.gets p n).owners k = w.owners k := update_of_ne hkn ..
        obtain ⟨hlt, hmarks, hidx⟩ := h.marks k hskip (hsame ▸ hk) hopen
        exact ⟨hlt, (update_of_ne hkn ..).trans hmarks, hidx⟩
    · rw [hproc]
      exact h.exited
    · rw [hproc]
      exact h.waiting
  · have hset := h.setProc_other (Ne.symm hp) ((w.procs p).mark n)
    refine ⟨fun k hskip hk hopen => hset.marks k hskip ?_ hopen, hset.exited, hset.waiting⟩
    obtain rfl | hkn := eq_or_ne k n
    · have hcons : (w.gets p k).owners k = p :: w.owners k := update_self ..
      rw [hcons] at hk
      exact (mem_cons.mp hk).resolve_left (Ne.symm hp)
    · have hsame : (w.gets p n).owners k = w.owners k := update_of_ne hkn ..
      exact hsame ▸ hk

theorem Marked.clear (h : Marked P none w) (hdone : P ∈ w.owners i → (w.net.table.conns i).Done) :
    Marked P none (w.setProc P { w.procs P with marks := update (w.procs P).marks i false }) := by
  refine ⟨fun n hn howner hopen => ?_, ?_, ?_⟩
  · rw [setProc_self]
    have hni : n ≠ i := by
      rintro rfl
      exact hopen (hdone howner)
    obtain ⟨hlt, hmarks, hidx⟩ := h.marks n hn howner hopen
    exact ⟨hlt, (update_of_ne hni ..).trans hmarks, hidx⟩
  · rw [setProc_self]
    exact h.exited
  · rw [setProc_self]
    exact h.waiting

theorem argIdx_of_lt (h : a.toNat < tcpMarks) : argIdx a = some a.toNat := by
  have hlt : a.toNat < 8 := h
  have hint : (a.setWidth 32).toInt = a.toNat := by
    rw [toInt_eq_toNat_of_lt, toNat_setWidth, Nat.mod_eq_of_lt (by omega)]
    rw [toNat_setWidth, Nat.mod_eq_of_lt (by omega)]
    omega
  rw [argIdx, hint, TcpNet.connIdx, if_neg]
  · simp
  · simp only [maxTcpConns]
    omega

theorem Marked.unmark (h : Marked P none w) (hidx : p = P → argIdx a = some i)
    (hdone : p = P → P ∈ w.owners i → (w.net.table.conns i).Done) :
    Marked P none (w.setProc p ((w.procs p).unmark a)) := by
  obtain rfl | hp := eq_or_ne p P
  · unfold unmark
    split
    next ha =>
      obtain rfl : a.toNat = i := some.inj ((argIdx_of_lt ha).symm.trans (hidx rfl))
      exact h.clear (hdone rfl)
    · exact h.setWaiting h.waiting
  · exact h.setProc_other (Ne.symm hp) _

theorem call_stays {α : Type} {m : TcpM α} (h : EndsOnly (w.net.table.conns i) (m (w.net.table.conns i))) (n : Nat) :
    (w.net.table.conns n).Done → ((w.net.table.call i m).2.conns n).Done :=
  (respected_ends.call h n).done

theorem Marked.onConn (h : Marked P none w) {m : Nat → TcpM TcpAnswer}
    (hm : ∀ n ∈ argIdx a, EndsOnly (w.net.table.conns n) (m n (w.net.table.conns n))) :
    Marked P none (w.onConn a m).2 := by
  unfold TcpWorld.onConn
  split
  · exact h
  next i hi => exact h.setTable fun n _ _ => call_stays (hm i hi) n

/-- What `P` itself may not do: get a number without a mark, listen on a connection of its own that is in
    `TCP_TIME_WAIT`, or close one that is then left to the peer. -/
def OwnCall (w : TcpWorld) (P : Nat) : TcpCall → Prop
  | .socket => ∀ k ∈ w.net.table.newSlot, k < tcpMarks
  | .listen a _ => ∀ n ∈ argIdx a, P ∈ w.owners n → ¬ ((w.net.table.conns n).inUse ∧ (w.net.table.conns n).Done)
  | .close a => ∀ n ∈ argIdx a, P ∈ w.owners n → (w.net.table.conns n).lingers = false
  | _ => True

def Spares (w : TcpWorld) (P : Nat) (c : TcpCall) : Prop :=
  ∀ n ∈ c.idx, P ∈ w.owners n → c.Harmless (w.net.table.conns n)

theorem tcpAccept_stays {s : TcpTable} (n : Nat) (hnew : ∀ k, (s.tcpAccept i).1 = .ok k → n ≠ k)
    (h : (s.conns n).Done) : ((s.tcpAccept i).2.conns n).Done := by
  unfold tcpAccept at hnew ⊢
  split
  · exact h
  rename_i hlis
  rw [if_neg hlis] at hnew
  cases htake : takeBacklog (s.conns i).backlog with
  | none => exact h
  | some r =>
    obtain ⟨e, backlog⟩ := r
    rw [htake] at hnew
    dsimp only at hnew ⊢
    have h' : ((s.set i { s.conns i with backlog }).conns n).Done := by
      obtain rfl | hn := eq_or_ne n i
      · rw [set_conns_self]
        exact h
      · rw [set_conns_ne _ _ hn]
        exact h
    cases hslot : (s.set i { s.conns i with backlog }).newSlot with
    | none => exact h'
    | some k =>
      rw [hslot] at hnew
      exact (respected_ends.call_other _ (hnew k rfl)).done h'

section
variable (h : Marked P none w)
include h

theorem Marked.socket (hok : p = P → w.OwnCall P .socket ∧ (w.procs P).exiting = none) :
    Marked P none (w.call p .socket).2 := by
  rw [TcpWorld.call]
  unfold TcpNet.tcpSocket
  cases hslot : w.net.table.newSlot with
  | none => exact h
  | some k =>
    refine Marked.gets (Marked.disown ((h.weaken (some k)).setNet fun n hn _ hdone => ?_)) fun hp => ?_
    · rw [set_conns_ne _ _ fun hnk => hn (congrArg some hnk)]
      exact hdone
    · exact ⟨(hok hp).1 k hslot, (hok hp).2⟩

theorem Marked.sysTcpConnect (hok : p = P → (w.procs P).exiting = none) (a : U64)
    (ip : U32) (port : U16) : Marked P none (w.sysTcpConnect p a ip port).2 := by
  unfold TcpWorld.sysTcpConnect
  split
  · exact h
  rename_i i _
  have ht : Marked P none (w.setTable (w.net.table.call i
      (tcpConnect w.net.table.ticks (tcpGenIsn w.net.table.ticks i) ip port)).2) :=
    h.setTable fun n _ _ => connect_stays n
  dsimp only
  split
  · exact ht.waits hok
  · exact ht

theorem Marked.sysTcpAccept (hok : p = P → (w.procs P).exiting = none) (a : U64) :
    Marked P none (w.sysTcpAccept p a).2 := by
  unfold TcpWorld.sysTcpAccept
  split
  · exact h
  rename_i i _
  cases hacc : w.net.table.tcpAccept i with
  | mk r t =>
    have ht (n : Nat) (hn : ∀ k, r = .ok k → n ≠ k) (hdone : (w.net.table.conns n).Done) : (t.conns n).Done := by
      have hstays := tcpAccept_stays (s := w.net.table) (i := i) n
      rw [hacc] at hstays
      exact hstays hn hdone
    cases r with
    | error e => exact h.setTable fun n _ _ hdone => ht n nofun hdone
    | ok k =>
      have htable : Marked P (some k) (w.setTable t) := by
        refine (h.weaken (some k)).setTable fun n hn _ hdone => ht n (fun k' hk' => ?_) hdone
        cases hk'
        exact fun hnk => hn (congrArg some hnk)
      exact htable.disown.waits hok

omit h in
theorem closed_of_not_waits {c : TcpConn} (hwaits : c.closeWaits = false) (hlingers : c.lingers = false)
    (huse : c.inUse) : ¬ (c.state = .established ∨ c.state = .closeWait) := by
  intro hst
  have hboth : (decide (c.state = .established) || decide (c.state = .closeWait)) := by simpa using hst
  rw [closeWaits, huse, hboth] at hwaits
  rw [lingers, huse, hboth] at hlingers
  simp at hwaits hlingers
  cases hwaits.symm.trans hlingers

omit h in
theorem done_call_tcpClose (hwaits : (w.net.table.conns i).closeWaits = false)
    (hlingers : (w.net.table.conns i).lingers = false) :
    ((w.net.table.call i (tcpClose w.net.table.ticks)).2.conns i).Done := by
  cases huse : (w.net.table.conns i).inUse with
  | true => exact respected_ends.call_self (done_tcpClose (closed_of_not_waits hwaits hlingers huse))
  | false =>
    rw [(refuses_tcpClose w.net.table.ticks huse).call.2]
    intro huse'
    cases huse.symm.trans huse'

theorem Marked.sysTcpClose
    (hok : p = P → w.OwnCall P (.close a) ∧ (w.procs P).exiting = none) : Marked P none (w.sysTcpClose p a).2 := by
  unfold TcpWorld.sysTcpClose
  split
  · exact h
  rename_i i hi
  have ht : Marked P none (w.setTable (w.net.table.call i (tcpClose w.net.table.ticks)).2) :=
    h.setTable fun n _ _ => call_stays (ends_tcpClose _) n
  split
  · exact ht.waits fun hp => ⟨(hok hp).2, hi⟩
  rename_i hwaits
  dsimp only
  split
  · refine ht.unmark (fun _ => hi) fun hp howner => ?_
    exact done_call_tcpClose (by simpa using hwaits) ((hok hp).1 i hi howner)
  · exact ht

theorem Marked.sysTcpListen
    (hown : p = P → w.OwnCall P (.listen a port)) (hother : p ≠ P → w.Spares P (.listen a port)) :
    Marked P none (w.call p (.listen a port)).2 := by
  change Marked P none (w.onConn a fun _ => .code <$> tcpListen port).2
  unfold TcpWorld.onConn
  split
  · exact h
  rename_i i hi
  refine h.setTable fun n _ howner hdone => ?_
  obtain rfl | hn := eq_or_ne n i
  · have huse : (w.net.table.conns n).inUse = false := by
      by_cases hp : p = P
      · have hno := hown hp n hi howner
        cases huse : (w.net.table.conns n).inUse with
        | false => rfl
        | true => exact absurd ⟨huse, hdone⟩ hno
      · exact hother hp n hi howner
    have hrefuses : Refuses (fun _ => True) (tcpListen port) (w.net.table.conns n) := refuses_tcpListen huse
    have hcall := (Refuses.map (f := TcpAnswer.code) hrefuses).call
    rw [hcall.2]
    exact hdone
  · exact (respected_ends.call_other _ hn).done hdone

theorem Marked.call {c : TcpCall} (hexit : p = P → (w.procs P).exiting = none)
    (hown : p = P → w.OwnCall P c) (hother : p ≠ P → w.Spares P c) : Marked P none (w.call p c).2 := by
  cases c with
  | socket => exact h.socket fun hp => ⟨hown hp, hexit hp⟩
  | connect a ip port => exact h.sysTcpConnect hexit a ip port
  | listen a port => exact h.sysTcpListen hown hother
  | accept a => exact h.sysTcpAccept hexit a
  | send a buf => exact h.onConn fun n _ => (ends_tcpSend _ _).map
  | recv a len e => exact h.onConn fun n _ => (ends_tcpRecv _ _).map
  | close a => exact h.sysTcpClose fun hp => ⟨hown hp, hexit hp⟩
  | setopt a opt value =>
    change Marked P none (if opt = 1 then w.onConn a _ else _).2
    split
    · exact h.onConn fun n _ => (ends_tcpSetNonblock _).map
    · exact h

omit h in
theorem setProc_setProc (w : TcpWorld) (p : Nat) (x y : TcpProc) : (w.setProc p x).setProc p y = w.setProc p y := by
  unfold setProc
  rw [update_idem]

omit h in
theorem Marked.settles (h : Marked P skip w) (p : Nat) :
    Marked P skip (w.setProc p { w.procs p with waiting := none }) := by
  obtain rfl | hp := eq_or_ne p P
  · exact h.setWaiting fun y hy => nomatch hy
  · exact h.setProc_other (Ne.symm hp) _

theorem Marked.exitNext (marks : Nat → Bool) (hexit : (w.procs P).exiting = some i)
    (hwait : (w.procs P).waiting = none) (hmarks : ∀ n ≠ i, marks n = (w.procs P).marks n)
    (hdone : (w.procs P).marks i → P ∈ w.owners i → (w.net.table.conns i).Done) :
    Marked P none (w.setProc P { w.procs P with marks, exiting := some (i + 1) }) := by
  have hidx : (w.procs P).exitIdx = i := by rw [exitIdx, hexit]; rfl
  refine ⟨fun n hn howner hopen => ?_, ?_, ?_⟩
  · obtain ⟨hlt, hmark, hle⟩ := h.marks n hn howner hopen
    have hni : n ≠ i := by
      rintro rfl
      exact hopen (hdone hmark howner)
    rw [setProc_self]
    refine ⟨hlt, (hmarks n hni).trans hmark, ?_⟩
    change i + 1 ≤ n
    omega
  · rw [setProc_self]
    intro hexited
    have hle := h.exited hexited
    change tcpMarks ≤ i + 1
    omega
  · rw [setProc_self]
    intro x hx
    cases hwait.symm.trans hx

theorem Marked.wake {e : WaitEnd}
    (hok : p = P → ∀ x ∈ (w.procs P).waiting, x.HasMark) : Marked P none (w.wake p e).2 := by
  unfold TcpWorld.wake
  cases hw : (w.procs p).waiting with
  | none => exact h
  | some x =>
    have hfits : p = P → x.Fits (w.procs P).exiting := by
      rintro rfl
      exact h.waiting x hw
    have hclose (i) : Marked P none (w.setTable (w.net.table.call i tcpCloseEnd).2) :=
      h.setTable fun n _ _ => call_stays ends_tcpCloseEnd n
    cases x with
    | connect i =>
      have ht : Marked P none (w.setTable (w.net.table.call i (tcpConnectEnd e)).2) :=
        h.setTable fun n _ _ => call_stays (ends_tcpConnectEnd e) n
      exact ht.settles p
    | accept k =>
      have ht : Marked P none (w.setTable (w.net.table.call k (tcpAcceptEnd e)).2) :=
        h.setTable fun n _ _ => call_stays (ends_tcpAcceptEnd e) n
      have hs := ht.settles p
      dsimp only
      split
      · refine hs.gets fun hp => ?_
        subst hp
        refine ⟨hok rfl (.accept k) hw, ?_⟩
        rw [setProc_self]
        exact hfits rfl
      · exact hs
    | close i a =>
      have hu := ((hclose i).settles p).unmark (fun hp => (hfits hp).2) fun _ _ => respected_ends.call_self done_tcpCloseEnd
      rw [setProc_self, setProc_setProc] at hu
      exact hu
    | exit i =>
      obtain rfl | hp := eq_or_ne p P
      · obtain ⟨x, hx⟩ : ∃ x, x = { w.procs p with waiting := none } := ⟨_, rfl⟩
        have hs : Marked p none ((w.setTable (w.net.table.call i tcpCloseEnd).2).setProc p x) := hx ▸ (hclose i).settles p
        have hself := setProc_self (w.setTable (w.net.table.call i tcpCloseEnd).2) p x
        have hexit : x.exiting = some i := by rw [hx]; exact hfits rfl
        have hwait : x.waiting = none := by rw [hx]
        have hnext := hs.exitNext (update x.marks i false) (by rw [hself]; exact hexit)
          (by rw [hself]; exact hwait) (fun n hn => by rw [hself]; exact update_of_ne hn ..)
          fun _ _ => respected_ends.call_self done_tcpCloseEnd
        rw [hself, setProc_setProc] at hnext
        subst hx
        exact hnext
      · exact (hclose i).setProc_other (Ne.symm hp) _

end

def OwnExit (w : TcpWorld) (P : Nat) : Prop :=
  ∀ i ∈ (w.procs P).exiting, (w.procs P).marks i → P ∈ w.owners i → (w.net.table.conns i).lingers = false

theorem Marked.exit (h : Marked P none w) (hruns : (w.procs p).runs) (hok : p = P → w.OwnExit P) :
    Marked P none (w.exit p) := by
  unfold TcpWorld.exit
  by_cases hp : p = P
  case neg =>
    -- only the connection of the mark is closed, and the record of `p` changes
    cases hexit : (w.procs p).exiting with
    | none => exact h.setProc_other (Ne.symm hp) _
    | some i =>
      have ht : Marked P none (w.setTable (w.net.table.call i (tcpClose w.net.table.ticks)).2) :=
        h.setTable fun n _ _ => call_stays (ends_tcpClose _) n
      dsimp only
      split
      · exact h.setProc_other (Ne.symm hp) _
      split
      · exact h.setProc_other (Ne.symm hp) _
      split
      · exact ht.setProc_other (Ne.symm hp) _
      · exact ht.setProc_other (Ne.symm hp) _
  subst hp
  have hwait : (w.procs p).waiting = none := by
    rw [runs, and_eq_true] at hruns
    exact isNone_iff_eq_none.mp hruns.1
  cases hexit : (w.procs p).exiting with
  | none =>
    refine ⟨fun n hn howner hopen => ?_, ?_, ?_⟩
    · rw [setProc_self]
      obtain ⟨hlt, hmark, -⟩ := h.marks n hn howner hopen
      exact ⟨hlt, hmark, Nat.zero_le n⟩
    · rw [setProc_self]
      intro hexited
      have hle := h.exited hexited
      rw [exitIdx, hexit] at hle
      exact hle
    · rw [setProc_self]
      intro x hx
      cases hwait.symm.trans hx
  | some i =>
    have hidx : (w.procs p).exitIdx = i := by rw [exitIdx, hexit]; rfl
    dsimp only
    split
    next hall =>
      refine ⟨?_, ?_, ?_⟩
      · rw [setProc_self]
        exact h.marks
      · rw [setProc_self]
        intro _
        change tcpMarks ≤ (w.procs p).exitIdx
        rwa [hidx]
      · rw [setProc_self]
        exact h.waiting
    split
    next hclear =>
      refine h.exitNext _ hexit hwait (fun _ _ => rfl) fun hmark => ?_
      rw [hmark] at hclear
      cases hclear
    next hset =>
      have ht : Marked p none (w.setTable (w.net.table.call i (tcpClose w.net.table.ticks)).2) :=
        h.setTable fun n _ _ => call_stays (ends_tcpClose _) n
      split
      · exact ht.waits fun _ => hexit
      rename_i hwaits
      refine ht.exitNext _ hexit hwait (fun n hn => update_of_ne hn ..) fun hmark howner => ?_
      exact done_call_tcpClose (by simpa using hwaits) (hok rfl i hexit hmark howner)

/-- No other process makes a call that can change a connection of `P`, and `P` gets only numbers that have a mark and
    closes no connection that is then left to the peer. -/
def Private (P : Nat) (w : TcpWorld) : TcpStep → Prop
  | .call p c => if p = P then w.OwnCall P c else w.Spares P c
  | .wake p _ => p = P → ∀ x ∈ (w.procs P).waiting, x.HasMark
  | .exit p => p = P → w.OwnExit P
  | _ => True

instance (w : TcpWorld) (P : Nat) : DecidablePred (w.OwnCall P) := fun _ => by
  unfold OwnCall
  split <;> infer_instance

instance (w : TcpWorld) (P : Nat) (c : TcpCall) : Decidable (w.Spares P c) :=
  inferInstanceAs (Decidable (∀ n ∈ (_ : Option Nat), _))

instance (w : TcpWorld) (P : Nat) : Decidable (w.OwnExit P) :=
  inferInstanceAs (Decidable (∀ n ∈ (_ : Option Nat), _))

instance (P : Nat) (w : TcpWorld) : DecidablePred (Private P w) := fun _ => by
  unfold Private
  split <;> infer_instance

theorem Marked.step (h : Marked P none w) (hok : Private P w op) : Marked P none (w.step op) := by
  unfold TcpWorld.step react
  cases op with
  | call p c =>
    dsimp only
    split
    next hruns =>
      rw [and_eq_true, isNone_iff_eq_none] at hruns
      refine h.call (fun hp => hp ▸ hruns.2) (fun hp => ?_) fun hp => ?_
      · exact (if_pos hp).mp hok
      · exact (if_neg hp).mp hok
    · exact h
  | wake p e => exact h.wake hok
  | exit p =>
    dsimp only
    split
    next hruns => exact h.exit hruns hok
    · exact h
  | timerCheck => exact h.setTable fun n _ _ => (respected_ends.tcpTimerCheck (fun now _ => ends_tcpTimer now) _ n).done
  | rx src seg => exact h.setTable fun n _ _ => (respected_ends.tcpRx _ src seg _ n).done
  | tick => exact h.setTable fun n _ _ hdone => hdone

theorem Marked.init (P : Nat) : Marked P none {} := by
  refine ⟨fun n _ howner => ?_, fun hexited => ?_, fun x hx => ?_⟩
  · cases howner
  · cases hexited
  · cases hx

/-- The step is a call of process `q` that names a number which `P` obtained. -/
def Names (P q : Nat) (w : TcpWorld) : TcpStep → Prop
  | .call p c => p = q ∧ ∃ n ∈ c.idx, P ∈ w.owners n
  | _ => False

/-- The second run is the first but for calls of `q` that name numbers which `P` obtained: one is dropped, or another
    such call is in its place. -/
inductive Edited (P q : Nat) : TcpWorld → List TcpStep → TcpWorld → List TcpStep → Prop
  | nil {w w' : TcpWorld} : Edited P q w [] w' []
  | same {w w' : TcpWorld} {op : TcpStep} {ops ops' : List TcpStep} (h : Edited P q (w.step op) ops (w'.step op) ops') :
      Edited P q w (op :: ops) w' (op :: ops')
  | drop {w w' : TcpWorld} {op : TcpStep} {ops ops' : List TcpStep} (hop : Names P q w op)
      (h : Edited P q (w.step op) ops w' ops') : Edited P q w (op :: ops) w' ops'
  | replace {w w' : TcpWorld} {op op' : TcpStep} {ops ops' : List TcpStep} (hop : Names P q w op)
      (hop' : Names P q w' op') (h : Edited P q (w.step op) ops (w'.step op') ops') :
      Edited P q w (op :: ops) w' (op' :: ops')

theorem Edited.refl {P q : Nat} (w w' : TcpWorld) {ops : List TcpStep} : Edited P q w ops w' ops := by
  induction ops generalizing w w' with
  | nil => exact .nil
  | cons op ops ih => exact .same (ih _ _)

/-- What process `p` is answered in a run: the codes, and the bytes that it receives. -/
def answers (p : Nat) : TcpWorld → List TcpStep → List TcpAnswer
  | _, [] => []
  | w, op :: ops =>
    let rest := answers p (w.step op) ops
    if op.proc = some p then (w.react op).1.toList ++ rest else rest

theorem step_names {q : Nat} (hq : q ≠ P) (hop : Names P q w op) (hok : Private P w op) :
    op.proc = some q ∧ w.step op = w := by
  cases op with
  | call p c =>
    obtain ⟨rfl, n, hn, howner⟩ := hop
    refine ⟨rfl, ?_⟩
    have hspares : w.Spares P c := (if_neg hq).mp hok
    unfold step react
    dsimp only
    split
    · exact call_harmless hn (hspares n hn howner)
    · rfl
  | wake p e | exit p | timerCheck | rx src seg | tick => exact hop.elim

theorem answers_cons_other {ops : List TcpStep} (h : op.proc ≠ some p) :
    answers p w (op :: ops) = answers p (w.step op) ops := if_neg h

theorem Edited.run_eq {q : Nat} (hq : q ≠ P) {w w' : TcpWorld} {ops ops' : List TcpStep} (h : Edited P q w ops w' ops')
    (hw : w' = w) (hops : Guarded step (Private P) w ops) (hops' : Guarded step (Private P) w' ops') :
    run step w' ops' = run step w ops ∧
      ∀ p ≠ q, answers p w' ops' = answers p w ops := by
  induction h with
  | nil =>
    subst hw
    exact ⟨rfl, fun _ _ => rfl⟩
  | same h ih =>
    subst hw
    obtain ⟨hrun, hanswers⟩ := ih rfl hops.2 hops'.2
    refine ⟨hrun, fun p hp => ?_⟩
    rw [answers, answers, hanswers p hp]
  | drop hop h ih =>
    subst hw
    obtain ⟨hproc, hsame⟩ := step_names hq hop hops.1
    obtain ⟨hrun, hanswers⟩ := ih hsame.symm hops.2 hops'
    refine ⟨hrun, fun p hp => ?_⟩
    rw [answers_cons_other fun heq => hp (some.inj (heq.symm.trans hproc))]
    exact hanswers p hp
  | replace hop hop' h ih =>
    subst hw
    obtain ⟨hproc, hsame⟩ := step_names hq hop hops.1
    obtain ⟨hproc', hsame'⟩ := step_names hq hop' hops'.1
    obtain ⟨hrun, hanswers⟩ := ih (hsame'.trans hsame.symm) hops.2 hops'.2
    refine ⟨hrun, fun p hp => ?_⟩
    rw [answers_cons_other fun heq => hp (some.inj (heq.symm.trans hproc)),
      answers_cons_other fun heq => hp (some.inj (heq.symm.trans hproc'))]
    exact hanswers p hp

end TcpWorld

open TcpWorld

/-- In every such run: if calls of `Q` that name a number which `P` obtained are dropped or replaced by others, all
    connections are in the same state, the same segments were sent and `P` had the same answers; and when `P` has
    exited, each connection it obtained is free or in `TCP_TIME_WAIT`. -/
theorem connections_private {P Q : Nat} (hne : Q ≠ P) (ops : List TcpStep) (h : Guarded step (Private P) {} ops) :
    (∀ ops', Edited P Q {} ops {} ops' → Guarded step (Private P) {} ops' →
      run step {} ops' = run step {} ops ∧
      answers P {} ops' = answers P {} ops) ∧
    ∀ pre, pre <+: ops → ∀ n,
      let w := run step {} pre
      (w.procs P).exited → P ∈ w.owners n → (w.net.table.conns n).inUse → (w.net.table.conns n).state = .timeWait := by
  refine ⟨fun ops' hedited h' => ?_, fun pre hpre n => ?_⟩
  · obtain ⟨hrun, hanswers⟩ := hedited.run_eq hne rfl h h'
    exact ⟨hrun, hanswers P (Ne.symm hne)⟩
  · intro w hexited howner
    obtain ⟨post, rfl⟩ := hpre
    have hw : Marked P none w :=
      Guarded.invariant (fun _ _ hs hop => hs.step hop) (Marked.init P) (guarded_append.mp h).1
    -- a connection that is not over would have a mark that the exit has not come to
    by_contra hopen
    obtain ⟨hlt, -, hle⟩ := hw.marks n (by simp) howner hopen
    exact absurd (hw.exited hexited) (by omega)

def exitSteps (p : Nat) : List TcpStep := List.replicate (tcpMarks + 2) (.exit p)

theorem connections_private_exit :
    let ops : List TcpStep := [.call 0 .socket, .call 0 (.listen 0 80), .call 1 (.recv 0 16 0)] ++ exitSteps 0
    let ops' : List TcpStep := [.call 0 .socket, .call 0 (.listen 0 80)] ++ exitSteps 0
    let w := run step {} ops
    answers 0 {} ops' = answers 0 {} ops ∧ (w.procs 0).exited ∧ 0 ∈ w.owners 0 ∧ (w.net.table.conns 0).inUse = false := by
  intro ops ops' w
  have hedited : Edited 0 1 {} ops {} ops' :=
    .same (.same (.drop ⟨rfl, 0, by decide +kernel, by decide +kernel⟩ (Edited.refl _ _)))
  have h := connections_private (P := 0) (Q := 1) (by decide) ops (by decide +kernel)
  refine ⟨(h.1 ops' hedited (by decide +kernel)).2, by decide +kernel, by decide +kernel, ?_⟩
  have hwait := h.2 ops (prefix_refl _) 0 (by decide +kernel) (by decide +kernel)
  have hstate : (w.net.table.conns 0).state ≠ .timeWait := by decide +kernel
  exact eq_false_iff.mpr fun huse => hstate (hwait huse)

/-- Process 1 closes the connection of process 0; and the ninth connection of process 0 stays in use when it has
    exited. -/
theorem other_process_closes : let ops : List TcpStep := [.call 0 .socket, .call 1 (.close 0)]
    let ops' : List TcpStep := [.call 0 .socket]
    (Edited 0 1 {} ops {} ops' ∧ ((run step {} ops).net.table.conns 0).inUse = false ∧
      ((run step {} ops').net.table.conns 0).inUse = true) ∧
    let w := run step {} (replicate 9 (.call 0 .socket) ++ exitSteps 0)
    (w.procs 0).exited ∧ 0 ∈ w.owners 8 ∧ (w.net.table.conns 8).inUse ∧ (w.net.table.conns 8).state = .closed := by
  refine ⟨⟨.same (.drop ⟨rfl, 0, by decide +kernel, by decide +kernel⟩ .nil), ?_⟩, ?_⟩
  · decide +kernel
  · decide +kernel

end Limnx
