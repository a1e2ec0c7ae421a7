import Limnx.Lib.GuardedRun
import Limnx.Theorems.TcpSendSide

/-! What is not yet acknowledged is kept for retransmission. -/

namespace Limnx

open TcpProg TcpM GuardedRun List TcpConn Segment

/-- A connection with what is in flight: for each sequence number from `snd_una` on, what was first sent
    with it. -/
structure Outbound where
  conn : TcpConn
  flight : List SeqItem := []

def TcpConn.firstSent (c : TcpConn) (segs : List Segment) : List SeqItem :=
  segs.flatMap fun seg => seg.items.drop (c.sndNxt - seg.seq).toNat

def Outbound.after {α : Type} (x : Outbound) (r : α × TcpConn × List Segment) : Outbound :=
  { conn := r.2.1
    flight := (x.flight ++ x.conn.firstSent r.2.2).drop (r.2.1.sndUna - x.conn.sndUna).toNat }

def Outbound.start {α : Type} (x : Outbound) (r : α × TcpConn × List Segment) : Outbound :=
  { conn := r.2.1, flight := if r.2.2 = [] then x.flight else r.2.2.flatMap Segment.items }

inductive OutboundOp
  | connect (now : Nat) (isn ip : U32) (port : U16)
  | connectEnd (w : WaitEnd)
  | accept (now : Nat) (isn ip : U32) (port : U16) (e : BacklogEntry)
  | acceptEnd (w : WaitEnd)
  | send (now : Nat) (buf : List UInt8)
  | recv (len : Nat) (e : Int)
  | close (now : Nat)
  | closeEnd
  | timer (now : Nat)
  | arrive (now : Nat) (src : U32) (seg : Segment)

def outboundStep (x : Outbound) : OutboundOp → Outbound
  | .connect now isn ip port => x.start (tcpConnect now isn ip port x.conn).exec
  | .connectEnd w => x.after (tcpConnectEnd w x.conn).exec
  | .accept now isn ip port e => x.start (tcpAcceptConn now isn ip port e x.conn).exec
  | .acceptEnd w => x.after (tcpAcceptEnd w x.conn).exec
  | .send now buf => x.after (tcpSend now buf x.conn).exec
  | .recv len e => x.after (tcpRecv len e x.conn).exec
  | .close now => x.after (tcpClose now x.conn).exec
  | .closeEnd => x.after (tcpCloseEnd x.conn).exec
  | .timer now => x.after (tcpTimer now x.conn).exec
  | .arrive now src seg => if x.conn.inUse then x.after (tcpRxConn now src seg x.conn).exec else x

/-- For each sequence number from `snd_una` up to `snd_nxt`, a segment that the timer sends after a timeout carries what
    was first sent with that number. -/
def Retransmittable (x : Outbound) : Prop :=
  x.conn.inUse = true → ∀ k < (x.conn.sndNxt - x.conn.sndUna).toNat, ∃ item, x.flight[k]? = some item ∧
    ∀ now, x.conn.rtoTick ≤ now → ∃ seg ∈ (tcpTimer now x.conn).exec.2.2,
      seg.items[(x.conn.sndUna + BitVec.ofNat 32 k - seg.seq).toNat]? = some item

/-- No SYN and no FIN is sent, data is taken only when nothing is in flight and without a wrap of the sequence numbers,
    a handshake ends with nothing in flight, and the timer does not come to the limit of retransmissions. -/
def OneInFlight (x : Outbound) : OutboundOp → Prop
  | .connect .. => ¬ (x.conn.inUse = true ∧ x.conn.state = .closed)
  | .connectEnd w | .acceptEnd w => w = .settled → x.conn.sndUna = x.conn.sndNxt
  | .accept .. => False
  | .send _ buf => x.conn.sends = true →
      x.conn.sndUna = x.conn.sndNxt ∧ x.conn.sndNxt.toNat + (buf.take tcpMss).length < 2 ^ 32
  | .close _ => x.conn.inUse = true → x.conn.state ≠ .established ∧ x.conn.state ≠ .closeWait
  | .timer now => x.conn.inUse = true → x.conn.overdue now = true → x.conn.retransmitCount + 1 < 5
  | .recv .. | .closeEnd | .arrive .. => True

instance decidableOneInFlight (x : Outbound) (op : OutboundOp) : Decidable (OneInFlight x op) := by
  unfold OneInFlight
  split <;> infer_instance

/-- The retransmission buffer holds what is in flight. -/
structure Saved (v : SndSide) (flight : List SeqItem) : Prop where
  state : v.state ∈ [TcpState.established, .closeWait, .closed]
  lo : v.txBufSeq.toNat ≤ v.una.toNat
  hi : v.una.toNat < v.nxt.toNat
  len : v.txBufSeq.toNat + v.txBuf.length = v.nxt.toNat
  flight : flight = (v.txBuf.drop (v.una.toNat - v.txBufSeq.toNat)).map .byte
  count : v.retransmitCount < 5

/-- Nothing is in flight, or it is `Saved`. -/
def Covered (v : SndSide) (flight : List SeqItem) : Prop :=
  v.inUse = true → (v.una = v.nxt ∧ flight = []) ∨ Saved v flight

section
variable {c : TcpConn} {v v' : SndSide} {flight : List SeqItem} {x : Outbound} {F : List SeqItem}

theorem exec_tcpTimer_overdue {now : Nat} (hin : c.inUse) (hdue : c.overdue now)
    (hcount : c.retransmitCount < 5) : ∃ wnd, (tcpTimer now c).exec.2.2 =
      [{ srcPort := c.localPort, dstPort := c.remotePort, seq := c.txBufSeq, ackNum := c.rcvNxt,
         flags := { ack := true, psh := true }, window := wnd, payload := c.txBuf }] := by
  have he : tcpTimer now c = (do tcpRetransmit now; tcpExpire now : TcpM Unit) c := by
    change (if c.inUse = true then _ else _ : TcpM Unit) c = _
    rw [if_pos hin, if_pos hdue, if_neg (by omega)]
  rw [he]
  exact ⟨_, rfl⟩

theorem Covered.retransmittable (h : Covered x.conn.snd x.flight) : Retransmittable x := by
  intro hin k hk
  rcases h hin with ⟨hidle, -⟩ | hs
  · have : x.conn.sndUna = x.conn.sndNxt := hidle
    simp [this] at hk
  have hlo : x.conn.txBufSeq.toNat ≤ x.conn.sndUna.toNat := hs.lo
  have hhi : x.conn.sndUna.toNat < x.conn.sndNxt.toNat := hs.hi
  have hlen : x.conn.txBufSeq.toNat + x.conn.txBuf.length = x.conn.sndNxt.toNat := hs.len
  have hflight : x.flight = (x.conn.txBuf.drop (x.conn.sndUna.toNat - x.conn.txBufSeq.toNat)).map .byte := hs.flight
  rw [BitVec.toNat_sub_of_le (BitVec.le_def.mpr (by omega))] at hk
  have hidx : (x.conn.sndUna + BitVec.ofNat 32 k - x.conn.txBufSeq).toNat =
      x.conn.sndUna.toNat - x.conn.txBufSeq.toNat + k := by
    have hadd : (x.conn.sndUna + BitVec.ofNat 32 k).toNat = x.conn.sndUna.toNat + k := by
      rw [BitVec.toNat_add, BitVec.toNat_ofNat]
      omega
    rw [BitVec.toNat_sub_of_le (BitVec.le_def.mpr (by omega)), hadd]
    omega
  have hlt : x.conn.sndUna.toNat - x.conn.txBufSeq.toNat + k < x.conn.txBuf.length := by omega
  refine ⟨.byte x.conn.txBuf[x.conn.sndUna.toNat - x.conn.txBufSeq.toNat + k], ?_, fun now hnow => ?_⟩
  · simp [hflight, hlt]
  · have hdue : x.conn.overdue now := by
      have hpos : 0 < x.conn.txBuf.length := by omega
      simp [overdue, hpos, hnow, BitVec.lt_def, hhi]
    obtain ⟨wnd, he⟩ := exec_tcpTimer_overdue hin hdue hs.count
    rw [he]
    refine ⟨_, mem_singleton_self _, ?_⟩
    rw [hidx]
    simp [items, hlt]

def CoveredFrom (u : U32) (F : List SeqItem) (v : SndSide) : Prop :=
  v.inUse = true →
    (v.una = v.nxt ∧ F.drop (v.una - u).toNat = [] ∧
      (F = [] ∨ v.state ∈ [TcpState.established, .closeWait, .closed])) ∨
    (Saved v (F.drop (v.una - u).toNat) ∧ u.toNat ≤ v.una.toNat)

theorem Covered.from (h : Covered v flight) : CoveredFrom v.una flight v := by
  intro hin
  rcases h hin with ⟨hidle, hf⟩ | hs
  · exact .inl ⟨hidle, by simp [hf], .inl hf⟩
  · exact .inr ⟨by simpa using hs, Nat.le_refl _⟩

theorem Saved.acked {u a : U32} (h : Saved v (F.drop (v.una - u).toNat))
    (hu : u.toNat ≤ v.una.toNat) (hlo : v.una.toNat < a.toNat) :
    F.drop (a - u).toNat = (v.txBuf.drop (a.toNat - v.txBufSeq.toNat)).map .byte := by
  have hf := h.flight
  have htx := h.lo
  have hsplit : (a - u).toNat = (v.una - u).toNat + (a.toNat - v.una.toNat) := by
    rw [BitVec.toNat_sub_of_le hu, BitVec.toNat_sub_of_le (BitVec.le_def.mpr (by omega))]
    omega
  rw [hsplit, ← drop_drop, hf, ← map_drop, drop_drop]
  congr 2
  omega

theorem CoveredFrom.rx {u : U32} (hrx : RxSnd v v') (h : CoveredFrom u F v) : CoveredFrom u F v' := by
  intro hin
  have hkeep := hrx.state
  cases hrx with
  | stay st b hb hst =>
    rcases h (hb hin) with ⟨hidle, hf, hF⟩ | ⟨hs, hu⟩
    · exact .inl ⟨hidle, hf, hF.imp_right hkeep⟩
    · exact .inr ⟨{ hs with state := hkeep hs.state }, hu⟩
  | acked a n hst hlo hhi hn =>
    have hst' : v.state ∈ [TcpState.established, .closeWait, .closed] := by
      simp only [mem_cons, not_mem_nil, or_false] at hst ⊢
      tauto
    rw [BitVec.lt_def] at hlo
    rw [BitVec.le_def] at hhi
    rcases h hin with ⟨hidle, -⟩ | ⟨hs, hu⟩
    · rw [hidle] at hlo
      omega
    have hf := hs.acked hu hlo
    have hlen := hs.len
    have htx := hs.lo
    rcases Nat.lt_or_ge a.toNat v.nxt.toNat with hlt | hge
    · refine .inr ⟨⟨hst', ?_, hlt, hlen, hf, Nat.lt_of_le_of_lt hn hs.count⟩, ?_⟩
      · exact Nat.le_trans htx hlo.le
      · exact Nat.le_trans hu hlo.le
    · refine .inl ⟨BitVec.eq_of_toNat_eq (Nat.le_antisymm hhi hge), ?_, .inr hst'⟩
      rw [hf, drop_eq_nil_of_le (by omega), map_nil]
  | caughtUp st n hst =>
    rcases h hin with ⟨hidle, hf, hF⟩ | ⟨hs, -⟩
    · refine .inl ⟨rfl, by rw [← hidle]; exact hf, .inl ?_⟩
      refine hF.resolve_right fun hv => ?_
      rcases hst with ⟨hs, -⟩ | ⟨hs, -⟩ <;> simp [hs] at hv
    · have hv := hs.state
      rcases hst with ⟨hs, -⟩ | ⟨hs, -⟩ <;> simp [hs] at hv
  | opened a hst =>
    rcases h hin with ⟨-, -, hF⟩ | ⟨hs, -⟩
    · have hnil : F = [] := hF.resolve_right fun hv => by simp [hst] at hv
      exact .inl ⟨rfl, by simp [hnil], .inl hnil⟩
    · have hv := hs.state
      simp [hst] at hv

theorem CoveredFrom.covered {u : U32} (h : CoveredFrom u F v) : Covered v (F.drop (v.una - u).toNat) :=
  fun hin => (h hin).imp (fun hi => ⟨hi.1, hi.2.1⟩) (·.1)

theorem Covered.after {α : Type} {p : TcpProg α}
    (hp : Holds (fun _ seg => seg.items.drop (x.conn.sndNxt - seg.seq).toNat = []) Eq
      (fun _ c' => Covered c'.snd (x.flight.drop (c'.sndUna - x.conn.sndUna).toNat)) p) :
    Covered (x.after p.exec).conn.snd (x.after p.exec).flight := by
  obtain ⟨hR, hQ⟩ := hp.exec
  have hnil : x.conn.firstSent p.exec.2.2 = [] := flatMap_eq_nil_iff.mpr hQ
  simp only [Outbound.after, hnil, append_nil]
  exact hR

theorem Covered.same (h : Covered v x.flight) (hv : v.una = x.conn.sndUna) :
    Covered v (x.flight.drop (v.una - x.conn.sndUna).toNat) := by
  simpa [hv] using h

section
variable (h : Covered x.conn.snd x.flight)
include h

theorem Covered.arrive (now : Nat) (src : U32) (seg : Segment) :
    Covered (x.after (tcpRxConn now src seg x.conn).exec).conn.snd
      (x.after (tcpRxConn now src seg x.conn).exec).flight := by
  have hrx : Holds (SendsAck (CoveredFrom x.conn.sndUna x.flight)) Eq
      (fun _ c' => CoveredFrom x.conn.sndUna x.flight c'.snd) (tcpRxConn now src seg x.conn) :=
    keepsRx_rxConn (I := fun c => CoveredFrom x.conn.sndUna x.flight c.snd) (fun _ _ hrx _ => CoveredFrom.rx hrx)
      (fun c c' (he : c = c') hc => he ▸ hc) now src h.from
  refine Covered.after (hrx.imp (fun _ seg hseg => ?_) fun _ _ hc => hc.covered)
  rw [hseg.2, drop_nil]

omit h in
theorem exec_tcpSend (now : Nat) (buf : List UInt8) (hs : c.sends) :
    ∃ wnd, (tcpSend now buf c).exec.2 =
      ({ c with
          txBuf := buf.take tcpMss, txBufSeq := c.sndNxt, rcvWnd := wnd
          sndNxt := c.sndNxt + BitVec.ofNat 32 (buf.take tcpMss).length, rtoTick := now + 18, retransmitCount := 0 },
        [{ srcPort := c.localPort, dstPort := c.remotePort, seq := c.sndNxt, ackNum := c.rcvNxt,
           flags := { ack := true, psh := true }, window := wnd, payload := buf.take tcpMss }]) := by
  have he : tcpSend now buf c = (do
      set { c with txBuf := buf.take tcpMss, txBufSeq := c.sndNxt }
      tcpSendSegment { ack := true, psh := true } (buf.take tcpMss)
      modify fun c' => { c' with
        sndNxt := c.sndNxt + BitVec.ofNat 32 (buf.take tcpMss).length, rtoTick := now + 18, retransmitCount := 0 }
      return ((buf.take tcpMss).length : Int) : TcpM Int) c := by
    change (if (!c.sends) = true then _ else _ : TcpM Int) c = _
    rw [if_neg (by simp [hs])]
  rw [he]
  exact ⟨_, rfl⟩

theorem Covered.send (now : Nat) (buf : List UInt8) (hok : OneInFlight x (.send now buf)) :
    Covered (x.after (tcpSend now buf x.conn).exec).conn.snd (x.after (tcpSend now buf x.conn).exec).flight := by
  by_cases hs : x.conn.sends
  · obtain ⟨hidle, hwrap⟩ := hok hs
    obtain ⟨wnd, he⟩ := exec_tcpSend now buf hs
    have hinst : x.conn.inUse ∧ x.conn.state = .established := by
      simp only [sends, Bool.and_eq_true, decide_eq_true_eq] at hs
      exact hs.1
    have hnil : x.flight = [] := by
      rcases h hinst.1 with ⟨-, hf⟩ | hsv
      · exact hf
      · have := hsv.hi
        simp [snd, hidle] at this
    have hnxt : (x.conn.sndNxt + BitVec.ofNat 32 (buf.take tcpMss).length).toNat =
        x.conn.sndNxt.toNat + (buf.take tcpMss).length := by
      rw [BitVec.toNat_add, BitVec.toNat_ofNat]
      omega
    have hflight : (x.after (tcpSend now buf x.conn).exec).flight = (buf.take tcpMss).map .byte := by
      have hzero (a : U32) : (a - a).toNat = 0 := by rw [BitVec.sub_self]; rfl
      simp only [Outbound.after, he, hnil, firstSent, flatMap_cons, flatMap_nil, hzero, drop_zero]
      simp [items]
    rw [hflight]
    simp only [Outbound.after, he]
    intro _
    by_cases hd : buf.take tcpMss = []
    · exact .inl ⟨by simp [snd, hidle, hd], by simp [hd]⟩
    have hpos : 0 < (buf.take tcpMss).length := length_pos_iff.mpr hd
    refine .inr ⟨?_, ?_, ?_, hnxt.symm, ?_, by simp [snd]⟩
    · simp [snd, hinst.2]
    · simp [snd, hidle]
    · simp only [snd, hidle, hnxt]
      omega
    · simp [snd, hidle]
  · refine Covered.after ?_
    simp only [tcpSend, holds_steps]
    rw [if_pos (by simpa using hs)]
    exact h.same rfl

omit h in
theorem Covered.free (hv : v.inUse = false) : Covered v flight := by
  intro hin
  simp [hv] at hin

omit h in
theorem Covered.idle (h : Covered v flight) (hidle : v.una = v.nxt) (t : List UInt8) :
    Covered { v with txBuf := t } flight := by
  intro hin
  rcases h hin with hi | hs
  · exact .inl hi
  have := hs.hi
  rw [hidle] at this
  omega

theorem Covered.timer (now : Nat) (hok : OneInFlight x (.timer now)) :
    Covered (x.after (tcpTimer now x.conn).exec).conn.snd (x.after (tcpTimer now x.conn).exec).flight := by
  refine Covered.after ?_
  have hexp : ∀ c' : TcpConn, Covered c'.snd x.flight → c'.sndUna = x.conn.sndUna →
      Holds (fun _ seg => seg.items.drop (x.conn.sndNxt - seg.seq).toNat = []) Eq
        (fun _ c' => Covered c'.snd (x.flight.drop (c'.sndUna - x.conn.sndUna).toNat)) (tcpExpire now c') := by
    intro c' hc' hu
    simp only [tcpExpire, holds_steps]
    split
    · exact Covered.free rfl
    · exact hc'.same hu
  simp only [tcpTimer, tcpRetransmit, holds_steps, holds_tcpSendSegment]
  by_cases hin : x.conn.inUse
  · rw [if_pos hin]
    by_cases hdue : x.conn.overdue now
    · have hcount := hok hin hdue
      rw [if_pos hdue, if_neg (by omega)]
      rcases h hin with ⟨hidle, -⟩ | hs
      · have : x.conn.sndUna = x.conn.sndNxt := hidle
        simp [overdue, this] at hdue
      refine ⟨?_, hexp _ (fun _ => .inr { hs with count := hcount }) rfl⟩
      have hlen : x.conn.txBufSeq.toNat + x.conn.txBuf.length = x.conn.sndNxt.toNat := hs.len
      simp only [TcpConn.segment, items]
      simp
      omega
    · rw [if_neg hdue]
      exact hexp x.conn h rfl
  · rw [if_neg hin]
    exact h.same rfl

theorem Covered.recv (len : Nat) (e : Int) :
    Covered (x.after (tcpRecv len e x.conn).exec).conn.snd (x.after (tcpRecv len e x.conn).exec).flight := by
  refine Covered.after ?_
  simp only [tcpRecv, holds_steps, holds_tcpSendAck]
  have hsame := h.same rfl
  split
  · exact hsame
  split
  · exact hsame
  split
  · exact hsame
  split
  · exact hsame
  have hpop := rxPop_snd (min len x.conn.rxCount) x.conn
  generalize x.conn.rxPop (min len x.conn.rxCount) = p at *
  have hp : Covered p.2.snd (x.flight.drop (p.2.snd.una - x.conn.sndUna).toNat) := by
    rw [hpop]
    exact hsame
  split
  · exact ⟨by simp [items, TcpConn.segment], hp⟩
  · exact hp

theorem Covered.step {op : OutboundOp} (hok : OneInFlight x op) :
    Covered (outboundStep x op).conn.snd (outboundStep x op).flight := by
  cases op with
  | connect now isn ip port =>
    have he : (tcpConnect now isn ip port x.conn).exec = (-EINVAL, x.conn, []) := by
      have hc : (!x.conn.inUse || x.conn.state ≠ .closed) := by
        simp only [OneInFlight, not_and] at hok
        by_cases hin : x.conn.inUse
        · simp [hok hin]
        · simp [hin]
      have : tcpConnect now isn ip port x.conn = .done (-EINVAL) x.conn := by
        change (if (!x.conn.inUse || x.conn.state ≠ .closed) = true then _ else _ : TcpM Int) x.conn = _
        rw [if_pos hc]
        rfl
      rw [this]
      rfl
    simp only [outboundStep, Outbound.start, he, if_true]
    exact h
  | connectEnd w | acceptEnd w =>
    refine Covered.after ?_
    simp only [tcpConnectEnd, tcpAcceptEnd, holds_steps]
    cases w with
    | timeout => exact Covered.free rfl
    | signal => exact h.same rfl
    | settled =>
      split
      · exact Covered.free rfl
      · exact (h.idle (hok rfl) []).same rfl
  | accept now isn ip port e => exact hok.elim
  | send now buf => exact h.send now buf hok
  | recv len e => exact h.recv len e
  | close now =>
    refine Covered.after ?_
    simp only [tcpClose, tcpCloseEnd, holds_steps]
    by_cases hin : x.conn.inUse
    · have hst := hok hin
      rw [if_neg (by simp [hin]), if_neg (by simp [hst])]
      split
      · exact Covered.free rfl
      · exact h.same rfl
    · rw [if_pos (by simpa using hin)]
      exact h.same rfl
  | closeEnd =>
    refine Covered.after (p := tcpCloseEnd x.conn) ?_
    simp only [tcpCloseEnd, holds_steps]
    split
    · exact Covered.free rfl
    · exact h.same rfl
  | timer now => exact h.timer now hok
  | arrive now src seg =>
    simp only [outboundStep]
    split
    · exact h.arrive now src seg
    · exact h

end

end

/-- In every run that starts with nothing in flight and sends data only when nothing is in flight, each
    unacknowledged sequence number can be sent again. -/
theorem unacked_covered {c : TcpConn} {ops : List OutboundOp} (hc : c.sndUna = c.sndNxt)
    (hok : Guarded outboundStep OneInFlight { conn := c } ops) :
    Retransmittable (run outboundStep { conn := c } ops) := by
  have hstep : ∀ (x : Outbound) op, Covered x.conn.snd x.flight → OneInFlight x op →
      Covered (outboundStep x op).conn.snd (outboundStep x op).flight :=
    fun _ _ h hop => h.step hop
  have hstart : Covered c.snd [] := fun _ => .inl ⟨hc, rfl⟩
  exact (hok.invariant hstep hstart).retransmittable

theorem unacked_covered_partial_ack :
    Retransmittable (run outboundStep { conn := { inUse := true, state := .established } }
      [.send 0 [1, 2, 3], .arrive 5 0 { ackNum := 1, flags := { ack := true } }, .timer 20]) :=
  unacked_covered rfl ⟨by decide, trivial, by decide, trivial⟩

/-- Two sends before the first is acknowledged: the first byte cannot be sent again. -/
theorem second_send_uncovered :
    ∃ (c : TcpConn) (ops : List OutboundOp), c.sndUna = c.sndNxt ∧
      ¬ Retransmittable (run outboundStep { conn := c } ops) := by
  refine ⟨{ inUse := true, state := .established }, [.send 0 [1], .send 0 [2]], rfl, fun h => ?_⟩
  obtain ⟨item, hitem, hsent⟩ := h rfl 0 (by decide)
  obtain ⟨seg, hseg, hcovers⟩ := hsent 18 (by decide)
  have hone : seg ∈ [({ seq := 1, flags := { ack := true, psh := true }, window := 8192, payload := [2] } : Segment)] :=
    hseg
  rw [mem_singleton] at hone
  subst hone
  cases hcovers

end Limnx
