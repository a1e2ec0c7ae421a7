import Limnx.Lib.GuardedRun
import Limnx.Theorems.TcpSendSide

/-! Two connections of one machine. -/

namespace Limnx

open TcpProg TcpM GuardedRun List TcpState TcpConn

namespace TcpTable
variable {α : Type} {tx : U32 → Segment → TcpTable → TcpTable} {i j n : Nat} {s t : TcpTable}
  {I : SndSide → Prop} {R : α → TcpConn → Prop}

@[simp] theorem set_conns_self (s : TcpTable) (i : Nat) (c : TcpConn) : (s.set i c).conns i = c := by simp [set]

@[simp] theorem set_conns_ne (s : TcpTable) (c : TcpConn) (h : j ≠ i) : (s.set i c).conns j = s.conns j := by
  simp [set, h]

theorem run_holds {env : TcpConn → TcpConn → Prop} {p : TcpProg α}
    (htx : ∀ dst seg s, env (s.conns i) ((tx dst seg s).conns i)) (hp : Holds (fun _ _ => True) env R p) :
    R (run tx i p s).1 ((run tx i p s).2.conns i) := by
  induction p generalizing s with
  | done a c =>
    simp only [run, set_conns_self]
    exact hp
  | send seg c k ih =>
    refine ih _ (hp.2 _ ?_)
    have h := htx c.remoteIp seg (s.set i c)
    rwa [set_conns_self] at h

/-- A relation between a connection before and after, which holds for what a segment does to the connection that it
    is for, if it holds for what runs inside the sends. -/
structure Respected (rel : TcpConn → TcpConn → Prop) : Prop where
  refl : ∀ c, rel c c
  trans : ∀ {c c' c''}, rel c c' → rel c' c'' → rel c c''
  rx : ∀ now src seg c, c.inUse → Holds (fun _ _ => True) rel (fun _ c' => rel c c') (tcpRxConn now src seg c)

section
variable {rel : TcpConn → TcpConn → Prop}

theorem Respected.run_other (h : Respected rel) {p : TcpProg α}
    (htx : ∀ dst seg s, rel (s.conns j) ((tx dst seg s).conns j)) (hij : j ≠ i) :
    rel (s.conns j) ((run tx i p s).2.conns j) := by
  induction p generalizing s with
  | done a c =>
    rw [run, set_conns_ne _ _ hij]
    exact h.refl _
  | send seg c k ih =>
    have hsend := htx c.remoteIp seg (s.set i c)
    rw [set_conns_ne _ _ hij] at hsend
    exact h.trans hsend (ih _)

theorem Respected.netTx (h : Respected rel) {rx : U32 → Segment → TcpTable → TcpTable}
    (hrx : ∀ src seg s, rel (s.conns j) ((rx src seg s).conns j)) (dst : U32) (seg : Segment) (s : TcpTable) :
    rel (s.conns j) ((netTx rx dst seg s).conns j) := by
  unfold TcpTable.netTx
  split
  · exact hrx _ _ _
  · exact h.refl _

theorem inUse_of_find {seg : Segment} {src : U32}
    (h : (s.findConn seg.dstPort src seg.srcPort).or (s.findListener seg.dstPort) = some i) : (s.conns i).inUse := by
  rw [Option.or_eq_some_iff] at h
  obtain h | ⟨-, h⟩ := h
  · have hmatch := find?_some h
    simp only [Bool.and_eq_true] at hmatch
    exact hmatch.1.1.1
  · have hmatch := find?_some h
    simp only [Bool.and_eq_true] at hmatch
    exact hmatch.1.1

section
variable (h : Respected rel)
include h

theorem Respected.tcpRx (n : Nat) (src : U32) (seg : Segment) (s : TcpTable) (j : Nat) :
    rel (s.conns j) ((tcpRx n src seg s).conns j) := by
  induction n generalizing src seg s with
  | zero => exact h.refl _
  | succ n ih =>
    have htx := h.netTx ih
    simp only [TcpTable.tcpRx, rxBody]
    split
    next i hfind =>
      obtain rfl | hij := eq_or_ne j i
      · exact run_holds htx (h.rx s.ticks src seg _ (inUse_of_find hfind))
      · exact h.run_other htx hij
    · split
      · exact h.refl _
      · exact htx _ _ _

theorem Respected.call_other (m : TcpM α) (hij : j ≠ i) : rel (s.conns j) ((s.call i m).2.conns j) :=
  h.run_other (h.netTx fun src seg s => h.tcpRx rxDepth src seg s j) hij

theorem Respected.call_self {m : TcpM α}
    (hm : Holds (fun _ _ => True) rel R (m (s.conns i))) : R (s.call i m).1 ((s.call i m).2.conns i) :=
  run_holds (h.netTx fun src seg s => h.tcpRx rxDepth src seg s i) hm

theorem Respected.call {m : TcpM α}
    (hm : Holds (fun _ _ => True) rel (fun _ c' => rel (s.conns i) c') (m (s.conns i))) (j : Nat) :
    rel (s.conns j) ((s.call i m).2.conns j) := by
  obtain rfl | hij := eq_or_ne j i
  · exact h.call_self hm
  · exact h.call_other m hij

theorem Respected.timerTurns
    (hm : ∀ now c, Holds (fun _ _ => True) rel (fun _ c' => rel c c') (tcpTimer now c)) (s : TcpTable) (n j : Nat) :
    rel (s.conns j) ((s.timerTurns n).conns j) := by
  induction n with
  | zero => exact h.refl _
  | succ n ih =>
    have hturn : s.timerTurns (n + 1) = ((s.timerTurns n).call n (tcpTimer (s.timerTurns n).ticks)).2 := by
      unfold TcpTable.timerTurns
      rw [range_succ, foldl_append]
      rfl
    rw [hturn]
    exact h.trans ih (h.call (hm _ _) j)

theorem Respected.tcpTimerCheck
    (hm : ∀ now c, Holds (fun _ _ => True) rel (fun _ c' => rel c c') (tcpTimer now c)) (s : TcpTable) (j : Nat) :
    rel (s.conns j) (s.tcpTimerCheck.conns j) := by
  unfold TcpTable.tcpTimerCheck
  exact h.timerTurns hm s _ j

end

end

theorem respected_snd (hI : ∀ v v', RxSnd v v' → I v → I v') : Respected fun c c' => I c.snd → I c'.snd := by
  refine ⟨fun _ => id, fun h h' => h' ∘ h, fun now src seg c _ => ?_⟩
  have h : KeepsRx (fun c' => I c.snd → I c'.snd) (fun c c' => I c.snd → I c'.snd) (tcpRxConn now src seg c) :=
    keepsRx_rxConn (fun _ _ hrx _ h hc => hI _ _ hrx (h hc)) (fun _ _ he h hc => he (h hc)) now src id
  exact h.imp (fun _ _ _ => trivial) fun _ _ hc => hc

theorem call_snd (hI : ∀ v v', RxSnd v v' → I v → I v') {m : TcpM α}
    (hm : Holds (fun c _ => I c.snd) (fun _ c' => I c'.snd) R (m (s.conns i))) :
    R (s.call i m).1 ((s.call i m).2.conns i) :=
  (respected_snd hI).call_self hm.rely

end TcpTable

section Pair
open TcpTable

/-- The connections `i` and `j` are established with each other: what one sends is received by the other,
    everything is acknowledged and nothing is saved for retransmission. -/
structure Connected (s : TcpTable) (i j : Nat) : Prop where
  ne : i ≠ j
  reach : ∀ e p, (e = i ∧ p = j) ∨ (e = j ∧ p = i) →
    (s.conns e).inUse = true ∧ (s.conns e).state = .established ∧ (s.conns e).rstReceived = false ∧
    isLoopback (s.conns e).remoteIp = true ∧
    s.findConn (s.conns e).remotePort ourIp (s.conns e).localPort = some p ∧
    (s.conns e).sndUna = (s.conns e).sndNxt ∧ (s.conns p).rcvNxt = (s.conns e).sndNxt ∧ (s.conns e).txBuf = []

inductive PairOp
  | send (b : Bool) (buf : List UInt8)
  | recv (b : Bool) (len : Nat) (e : Int)
  | close (b : Bool)
  | closeEnd (b : Bool)
  | timer
  | wait (d : Nat)

variable {i j : Nat} {s : TcpTable} {c : TcpConn}

def pick (i j : Nat) (b : Bool) : Nat := if b then j else i

def pairStep (i j : Nat) (s : TcpTable) : PairOp → TcpTable
  | .send b buf => (s.call (pick i j b) (tcpSend s.ticks buf)).2
  | .recv b len e => (s.call (pick i j b) (tcpRecv len e)).2
  | .close b => (s.call (pick i j b) (tcpClose s.ticks)).2
  | .closeEnd b => (s.call (pick i j b) tcpCloseEnd).2
  | .timer => s.tcpTimerCheck
  | .wait d => { s with ticks := s.ticks + d }

/-- The bytes that a step sends fit into the free receive space of the peer. -/
def Fits (i j : Nat) (s : TcpTable) : PairOp → Prop
  | .send b buf => (buf.take tcpMss).length + (s.conns (pick i j !b)).rxCount ≤ tcpRxBufSize
  | _ => True

/-- After a `tcp_send` that took its data the sender has everything acknowledged, and when `tcp_timer_check` comes to
    one of the ends it neither retransmits nor resets. -/
def Undisturbed (i j : Nat) (s : TcpTable) : PairOp → Prop
  | .send b buf => (s.conns (pick i j b)).sends = true →
      ((pairStep i j s (.send b buf)).conns (pick i j b)).sndUna =
        ((pairStep i j s (.send b buf)).conns (pick i j b)).sndNxt
  | .timer => ∀ b, ((s.timerTurns (pick i j b)).conns (pick i j b)).inUse = true →
      ((s.timerTurns (pick i j b)).conns (pick i j b)).overdue s.ticks = false
  | _ => True

/-- A `tcp_send` that is accepted has no data. -/
def NoData (i j : Nat) (s : TcpTable) : PairOp → Prop
  | .send b buf => (s.conns (pick i j b)).sends = true → buf = []
  | _ => True

structure Quiet (v : SndSide) : Prop where
  txBuf : v.txBuf = []
  una : v.state = .established → v.una = v.nxt
  state : v.state ∉ [listen, .synSent, .synReceived]

theorem Quiet.rx (v v' : SndSide) (hrx : RxSnd v v') (h : Quiet v) : Quiet v' := by
  cases hrx with
  | stay st b hb hst =>
    have hst' : st = v.state ∨ st ∈ [closed, .closeWait, .timeWait, .closing] := by
      simp only [mem_cons, not_mem_nil, or_false] at hst ⊢
      tauto
    rcases hst' with rfl | hst'
    · exact { h with }
    refine ⟨h.txBuf, fun he => ?_, fun hs => ?_⟩
    · simp only at he
      simp [he] at hst'
    · revert hst' hs
      cases st <;> simp
  | acked a n hst hlo hhi hn =>
    refine ⟨h.txBuf, fun he => ?_, h.state⟩
    rw [h.una he] at hlo
    rw [BitVec.lt_def] at hlo
    rw [BitVec.le_def] at hhi
    omega
  | caughtUp st n hst =>
    rcases hst with ⟨hs, -⟩ | ⟨-, hst⟩
    · exact absurd h.state (by simp [hs])
    · exact ⟨h.txBuf, fun _ => rfl, by revert hst; cases st <;> simp⟩
  | opened a hst => exact absurd h.state (by simp [hst])

structure InSend (x : U32) (data : List UInt8) (v : SndSide) : Prop where
  una : v.una = x
  nxt : v.nxt = x
  txBuf : v.txBuf = data
  state : v.state ∈ [established, .closeWait, .closed]

theorem InSend.rx {x : U32} {data : List UInt8} (v v' : SndSide) (hrx : RxSnd v v') (h : InSend x data v) :
    InSend x data v' := by
  have hv := h.state
  have hv' := hrx.state hv
  cases hrx with
  | stay => exact { h with state := hv' }
  | acked a n hst hlo hhi hn =>
    rw [h.una, BitVec.lt_def] at hlo
    rw [h.nxt, BitVec.le_def] at hhi
    omega
  | caughtUp st n hst =>
    rcases hst with ⟨hs, -⟩ | ⟨hs, -⟩ <;> simp [hs] at hv
  | opened a hst => simp [hst] at hv

theorem holds_tcpSend_loopback (now : Nat) (buf : List UInt8) (h : Quiet c.snd) (hs : c.sends) :
    Holds (fun c' _ => InSend c.sndNxt (buf.take tcpMss) c'.snd) (fun _ c' => InSend c.sndNxt (buf.take tcpMss) c'.snd)
      (fun _ c' => c'.sndUna = c.sndNxt ∧ c'.sndNxt = c.sndNxt + BitVec.ofNat 32 (buf.take tcpMss).length ∧
        c'.txBuf = buf.take tcpMss ∧ c'.state ∈ [established, .closeWait, .closed])
      (tcpSend now buf c) := by
  have hst : c.state = .established := by
    simp only [sends, Bool.and_eq_true, decide_eq_true_eq] at hs
    exact hs.1.2
  simp only [tcpSend, tcpSendSegment, holds_steps, holds_transmit]
  rw [if_neg (by simp [hs])]
  refine ⟨⟨h.una hst, rfl, rfl, by simp [snd, hst]⟩, fun c' hc' => ⟨hc'.una, trivial, hc'.txBuf, hc'.state⟩⟩

theorem call_tcpSend_refused {e : Nat} (buf : List UInt8) (hs : (s.conns e).sends = false) :
    ((s.call e (tcpSend s.ticks buf)).2.conns e).snd = (s.conns e).snd := by
  have he : tcpSend s.ticks buf (s.conns e) = .done (-ENOTCONN) (s.conns e) := by
    change (if (!(s.conns e).sends) = true then _ else _ : TcpM Int) (s.conns e) = _
    rw [if_pos (by simp [hs])]
    rfl
  simp [TcpTable.call, he, TcpTable.run]

theorem call_tcpSend {e : Nat} (buf : List UInt8) (h : Quiet (s.conns e).snd) (hs : (s.conns e).sends) :
    ((s.call e (tcpSend s.ticks buf)).2.conns e).sndUna = (s.conns e).sndNxt ∧
      ((s.call e (tcpSend s.ticks buf)).2.conns e).sndNxt =
        (s.conns e).sndNxt + BitVec.ofNat 32 (buf.take tcpMss).length ∧
      ((s.call e (tcpSend s.ticks buf)).2.conns e).txBuf = buf.take tcpMss ∧
      ((s.call e (tcpSend s.ticks buf)).2.conns e).state ∈ [established, .closeWait, .closed] :=
  call_snd InSend.rx (holds_tcpSend_loopback s.ticks buf h hs)

structure Gone (v : SndSide) : Prop where
  txBuf : v.txBuf = []
  state : v.state ∉ [established, .listen, .synSent, .synReceived]

theorem Gone.rx (v v' : SndSide) (hrx : RxSnd v v') (h : Gone v) : Gone v' := by
  have hv := h.state
  cases hrx with
  | stay st b hb hst =>
    refine ⟨h.txBuf, fun hs => ?_⟩
    rcases hst with hst | ⟨-, hst⟩
    · rcases mem_cons.mp hst with rfl | hst
      · exact hv hs
      · revert hst hs
        cases st <;> simp
    · revert hst hs
      cases st <;> simp
  | acked a n hst hlo hhi hn => exact ⟨h.txBuf, h.state⟩
  | caughtUp st n hst =>
    rcases hst with ⟨hs, -⟩ | ⟨-, hst⟩
    · exact absurd hv (by simp [hs])
    · exact ⟨h.txBuf, by revert hst; cases st <;> simp⟩
  | opened a hst => exact absurd hv (by simp [hst])

theorem Gone.quiet {v : SndSide} (h : Gone v) : Quiet v := by
  have hv := h.state
  simp only [mem_cons, not_or] at hv
  exact ⟨h.txBuf, fun he => absurd he hv.1, by simp [hv.2]⟩

theorem Quiet.closed {v : SndSide} (h : Quiet v) (b : Bool) : Quiet { v with state := .closed, inUse := b } :=
  ⟨h.txBuf, by simp, by simp⟩

theorem holds_tcpClose_loopback (now : Nat) (h : Quiet c.snd) :
    Holds (fun c' _ => Gone c'.snd) (fun _ c' => Gone c'.snd) (fun _ c' => Quiet c'.snd) (tcpClose now c) := by
  simp only [tcpClose, tcpCloseEnd, tcpSendFin, tcpSendSegment, holds_steps, holds_transmit]
  split
  · exact h
  split
  · refine ⟨⟨rfl, ?_⟩, fun c' hc' => ?_⟩
    · simp only [snd]
      split <;> simp
    · split
      · exact Gone.quiet ⟨hc'.txBuf, hc'.state⟩
      · exact Gone.quiet ⟨hc'.txBuf, hc'.state⟩
  · split
    · exact h.closed false
    · exact h

theorem holds_tcpRecv_loopback (len : Nat) (e : Int) (h : Quiet c.snd) :
    Holds (fun c' _ => Quiet c'.snd) (fun _ c' => Quiet c'.snd) (fun _ c' => Quiet c'.snd) (tcpRecv len e c) := by
  simp only [tcpRecv, tcpSendAck, tcpSendSegment, holds_steps, holds_transmit]
  split
  · exact h
  split
  · exact h
  split
  · exact h
  split
  · exact h
  have hpop : Quiet (c.rxPop (min len c.rxCount)).2.snd := by
    rw [rxPop_snd]
    exact h
  split
  · exact ⟨hpop, fun c' hc' => hc'⟩
  · exact hpop

theorem overdue_of_txBuf (h : c.txBuf = []) (now : Nat) : c.overdue now = false := by
  simp [overdue, h]

theorem holds_tcpTimer_loopback (now : Nat) (h : Quiet c.snd) :
    Holds (fun c' _ => Quiet c'.snd) (fun _ c' => Quiet c'.snd) (fun _ c' => Quiet c'.snd) (tcpTimer now c) := by
  have hdue : c.overdue now = false := overdue_of_txBuf h.txBuf now
  simp only [tcpTimer, tcpExpire, holds_steps, hdue, Bool.false_eq_true, if_false]
  split
  · split
    · exact h.closed false
    · exact h
  · exact h

theorem timerTurns_quiet {e : Nat} (h : Quiet (s.conns e).snd) (n : Nat) : Quiet ((s.timerTurns n).conns e).snd := by
  have hturn : ∀ (s : TcpTable) (k : Nat), Quiet (s.conns e).snd →
      Quiet ((s.call k (tcpTimer s.ticks)).2.conns e).snd := by
    intro s k hk
    obtain rfl | hek := eq_or_ne e k
    · exact call_snd Quiet.rx (holds_tcpTimer_loopback s.ticks hk)
    · exact (respected_snd Quiet.rx).call_other _ hek hk
  exact run_invariant hturn h

def BothQuiet (i j : Nat) (s : TcpTable) : Prop := ∀ b, Quiet (s.conns (pick i j b)).snd

theorem Connected.bothQuiet (h : Connected s i j) : BothQuiet i j s := by
  intro b
  have hend : ∃ p, (pick i j b = i ∧ p = j) ∨ (pick i j b = j ∧ p = i) := by
    cases b
    · exact ⟨j, .inl ⟨rfl, rfl⟩⟩
    · exact ⟨i, .inr ⟨rfl, rfl⟩⟩
  obtain ⟨p, hp⟩ := hend
  obtain ⟨-, hst, -, -, -, hu, -, htx⟩ := h.reach _ p hp
  exact ⟨htx, fun _ => hu, by simp [snd, hst]⟩

theorem BothQuiet.call {α : Type} (h : BothQuiet i j s) (b : Bool) (m : TcpM α)
    (hself : Quiet ((s.call (pick i j b) m).2.conns (pick i j b)).snd) : BothQuiet i j (s.call (pick i j b) m).2 := by
  intro b'
  by_cases hb : pick i j b' = pick i j b
  · rw [hb]
    exact hself
  · exact (respected_snd Quiet.rx).call_other m hb (h b')

theorem BothQuiet.step (h : BothQuiet i j s) {op : PairOp} (hop : NoData i j s op) :
    BothQuiet i j (pairStep i j s op) := by
  cases op with
  | send b buf =>
    refine h.call b _ ?_
    cases hs : (s.conns (pick i j b)).sends with
    | false => rw [call_tcpSend_refused buf hs]; exact h b
    | true =>
      obtain ⟨hu, hn, ht, hst⟩ := call_tcpSend buf (h b) hs
      have hbuf : buf = [] := hop hs
      subst hbuf
      refine ⟨ht, fun _ => ?_, ?_⟩
      · have hn' : (s.conns (pick i j b)).sndNxt =
            ((s.call (pick i j b) (tcpSend s.ticks [])).2.conns (pick i j b)).sndNxt := by simpa using hn.symm
        exact hu.trans hn'
      · have := hst
        simp only [snd]
        revert this
        generalize ((s.call (pick i j b) (tcpSend s.ticks [])).2.conns (pick i j b)).state = st
        cases st <;> simp
  | recv b len e => exact h.call b _ (call_snd Quiet.rx (holds_tcpRecv_loopback len e (h b)))
  | close b => exact h.call b _ (call_snd Gone.rx (holds_tcpClose_loopback s.ticks (h b)))
  | closeEnd b =>
    refine h.call b _ (call_snd (R := fun _ c' => Quiet c'.snd) Quiet.rx ?_)
    simp only [tcpCloseEnd, holds_steps]
    split
    · exact (h b).closed false
    · exact h b
  | timer =>
    intro b
    simp only [pairStep, tcpTimerCheck]
    exact timerTurns_quiet (h b) maxTcpConns
  | wait d => exact h

theorem BothQuiet.undisturbed_iff (h : BothQuiet i j s) (op : PairOp) : Undisturbed i j s op ↔ NoData i j s op := by
  cases op with
  | send b buf =>
    refine forall_congr' fun hs => ?_
    obtain ⟨hu, hn, -, -⟩ := call_tcpSend buf (h b) hs
    simp only [pairStep, hu, hn]
    constructor
    · intro he
      have hz := congrArg BitVec.toNat ((BitVec.add_right_inj _).mp ((BitVec.add_zero _).trans he))
      have hle : (buf.take tcpMss).length ≤ 1460 := length_take_le _ _
      rw [BitVec.toNat_ofNat (buf.take tcpMss).length, Nat.mod_eq_of_lt (by omega)] at hz
      have hnil : buf.take tcpMss = [] := eq_nil_of_length_eq_zero hz.symm
      rcases take_eq_nil_iff.mp hnil with hmss | hbuf
      · exact absurd hmss (by decide)
      · exact hbuf
    · rintro rfl
      simp
  | timer =>
    refine iff_of_true (fun b _ => ?_) trivial
    exact overdue_of_txBuf (timerTurns_quiet (h b) _).txBuf _
  | recv b len e | close b | closeEnd b | wait d => exact Iff.rfl

/-- A run on two connected ends leaves them undisturbed exactly when no data is sent in it. -/
theorem undisturbed_iff_no_data (h : Connected s i j) (ops : List PairOp) :
    Guarded (pairStep i j) (Undisturbed i j) s ops ↔ Guarded (pairStep i j) (NoData i j) s ops :=
  guarded_congr (fun _ op hq => BothQuiet.undisturbed_iff hq op) (fun _ _ hq hop => hq.step hop) h.bothQuiet

def twoEnds : TcpTable :=
  { conns := fun k =>
      match k with
      | 0 => { inUse := true, state := .established, localIp := ourIp, localPort := 1, remoteIp := ourIp,
               remotePort := 2, sndUna := 5, sndNxt := 5, rcvNxt := 9 }
      | 1 => { inUse := true, state := .established, localIp := ourIp, localPort := 2, remoteIp := ourIp,
               remotePort := 1, sndUna := 9, sndNxt := 9, rcvNxt := 5 }
      | _ => {} }

theorem twoEnds_connected : Connected twoEnds 0 1 := by
  refine ⟨by decide, ?_⟩
  rintro e p (⟨rfl, rfl⟩ | ⟨rfl, rfl⟩)
  · decide +kernel
  · decide +kernel

theorem undisturbed_iff_no_data_close :
    Guarded (pairStep 0 1) (Undisturbed 0 1) twoEnds [.send false [], .close false, .wait 40, .timer] :=
  (undisturbed_iff_no_data twoEnds_connected _).mpr ⟨fun _ => rfl, trivial, trivial, trivial, trivial⟩

/-- One byte that fits: it stays unacknowledged, and after five retransmissions the timer resets the
    connection. -/
theorem one_byte_resets :
    ∃ (s : TcpTable) (i j : Nat) (ops : List PairOp), Connected s i j ∧ Guarded (pairStep i j) (Fits i j) s ops ∧
      ¬ Guarded (pairStep i j) (Undisturbed i j) s ops ∧
      ((run (pairStep i j) s ops).conns i).rstReceived = true ∧ ((run (pairStep i j) s ops).conns i).inUse = false := by
  refine ⟨twoEnds, 0, 1, [.send false [7], .wait 600, .timer, .wait 600, .timer, .wait 600, .timer, .wait 600, .timer,
    .wait 600, .timer, .wait 600, .timer], twoEnds_connected, ?_, ?_, ?_, ?_⟩
  · exact ⟨by unfold Fits; decide, trivial, trivial, trivial, trivial, trivial, trivial, trivial, trivial, trivial, trivial,
      trivial, trivial, trivial⟩
  · intro h
    exact absurd (h.1 rfl) (by decide +kernel)
  · decide +kernel
  · decide +kernel

end Pair

end Limnx
