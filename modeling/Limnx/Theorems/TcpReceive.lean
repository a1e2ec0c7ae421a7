import Limnx.Lib.GuardedRun
import Limnx.Lib.RingBuffer
import Limnx.Theorems.TcpExec

/-! # What a TCP connection receives

It is a prefix of the stream of the peer as long as every FIN arrives when all bytes before it go into the buffer. -/

namespace Limnx

open TcpProg TcpM GuardedRun List TcpConn TcpState RingBuffer
variable (c : TcpConn)

def TcpConn.ring : List UInt8 := contents c.rxBuf tcpRxBufSize c.rxReadPos c.rxCount

structure RingPos (readPos writePos count : Nat) : Prop where
  read : readPos < tcpRxBufSize
  write : writePos = (readPos + count) % tcpRxBufSize
  count : count ≤ tcpRxBufSize

/-- A connection with the history of its receiving side: the bytes put into its buffer, those returned by `tcp_recv`,
    whether it reported the end of the stream, and the segments sent. -/
structure Inbound where
  conn : TcpConn
  put : List UInt8 := []
  got : List UInt8 := []
  eof : Bool := false
  sent : List Segment := []

inductive InboundOp
  | arrive (now : Nat) (src : U32) (seg : Segment) (off : Nat)
  | recv (len : Nat) (e : Int)
  | close (now : Nat)
  | closeEnd
  | send (now : Nat) (buf : List UInt8)
  | timer (now : Nat)

def Inbound.after {α : Type} (x : Inbound) (r : α × TcpConn × List Segment) : Inbound :=
  { x with conn := r.2.1, sent := x.sent ++ r.2.2 }

def inboundStep (x : Inbound) : InboundOp → Inbound
  | .arrive now src seg _ =>
    -- `tcp_find_conn` finds only connections in use
    if x.conn.inUse then
      let r := (tcpRxConn now src seg x.conn).exec
      { x.after r with put := x.put ++ r.2.1.ring.drop x.conn.rxCount }
    else x
  | .recv len e =>
    let r := (tcpRecv len e x.conn).exec
    match r.1 with
    | .ok bytes => { x.after r with got := x.got ++ bytes, eof := x.eof || (0 < len && bytes.isEmpty) }
    | .error _ => x.after r
  | .close now => x.after (tcpClose now x.conn).exec
  | .closeEnd => x.after (tcpCloseEnd x.conn).exec
  | .send now buf => x.after (tcpSend now buf x.conn).exec
  | .timer now => x.after (tcpTimer now x.conn).exec

/-- The segment belongs to the stream `S` that starts after sequence number `isn` and is `ended` by a FIN
    or not: its payload is what `S` has at `off`, and a FIN stands at the end. -/
structure OfStream (S : List UInt8) (isn : U32) (ended : Bool) (seg : Segment) (off : Nat) : Prop where
  syn : seg.flags.syn = true → seg.seq = isn
  seq : seg.payload ≠ [] ∨ seg.flags.fin = true → seg.seq = isn + 1 + BitVec.ofNat 32 off
  data : seg.payload ≠ [] ∨ seg.flags.fin = true → seg.payload <+: S.drop off ∧ off + seg.payload.length ≤ S.length
  fin : seg.flags.fin = true → ended = true ∧ off + seg.payload.length = S.length

/-- The acknowledgement number covers only bytes of `put`, or the FIN as well when all of `S` is put. -/
def AckCovers (S : List UInt8) (isn : U32) (ended : Bool) (put : List UInt8) (ack : U32) : Prop :=
  (∃ k ≤ put.length, ack = isn + 1 + BitVec.ofNat 32 k) ∨
    (ended = true ∧ put = S ∧ ack = isn + 1 + BitVec.ofNat 32 S.length + 1)

/-- What was delivered is in order: `tcp_recv` returned a prefix of `S`, it reported the end only after all of `S`, and
    each acknowledgement covers only what was put into the buffer. -/
structure Delivered (S : List UInt8) (isn : U32) (ended : Bool) (x : Inbound) : Prop where
  got : x.got <+: S
  eof : x.eof = true → x.got = S
  put : x.put <+: S
  acks : ∀ seg ∈ x.sent, seg.flags.ack = true → AckCovers S isn ended x.put seg.ackNum

/-- A connection in the handshake, or just after it, as `tcp_connect` and `tcp_accept` leave it. A slot
    that was reset before keeps its buffer, and its `rst_received`. -/
structure Opening (isn : U32) (c : TcpConn) : Prop where
  ring : RingPos c.rxReadPos c.rxWritePos c.rxCount
  empty : c.rstReceived = false → c.rxCount = 0
  fin : c.finReceived = false
  state : (c.state = .synSent ∧ c.txBuf = []) ∨
    ((c.state = .synReceived ∨ c.state = .established) ∧ c.rcvNxt = isn + 1)

structure RcvSide where
  state : TcpState
  rcvNxt : U32
  rxBuf : Buf
  rxReadPos : Nat
  rxWritePos : Nat
  rxCount : Nat
  txBuf : List UInt8
  finReceived : Bool
  rstReceived : Bool

def TcpConn.rcv : RcvSide :=
  { state := c.state, rcvNxt := c.rcvNxt, rxBuf := c.rxBuf, rxReadPos := c.rxReadPos,
    rxWritePos := c.rxWritePos, rxCount := c.rxCount, txBuf := c.txBuf, finReceived := c.finReceived,
    rstReceived := c.rstReceived }

@[simp] theorem rcv_state : c.rcv.state = c.state := rfl

def RcvSide.ring (c : RcvSide) : List UInt8 := contents c.rxBuf tcpRxBufSize c.rxReadPos c.rxCount

/-- The bytes `put` are a prefix of `S`, all of it at a FIN, and `rcv_nxt` is the number behind them. -/
structure Receiving (S : List UInt8) (isn : U32) (ended : Bool) (put : List UInt8) (c : RcvSide) : Prop where
  ring : RingPos c.rxReadPos c.rxWritePos c.rxCount
  pre : put <+: S
  fin : c.finReceived = true → put = S
  syn : c.state = .synSent → put = [] ∧ c.txBuf = []
  nxt : c.rcvNxt = isn + 1 + BitVec.ofNat 32 put.length ∨
    (ended = true ∧ put = S ∧ c.rcvNxt = isn + 1 + BitVec.ofNat 32 S.length + 1 ∧
      c.state ∈ [closeWait, .lastAck, .timeWait, .closing, .closed]) ∨
    (c.txBuf = [] ∧ c.state ∈ [synSent, .closed])

section Ring
variable {c : TcpConn}

theorem foldl_rxPush (bytes : List UInt8) {r n : Nat} (hw : c.rxWritePos = (r + n) % tcpRxBufSize)
    (hn : n + bytes.length ≤ tcpRxBufSize) :
    ∃ buf, bytes.foldl rxPush c =
        { c with rxBuf := buf, rxWritePos := (r + (n + bytes.length)) % tcpRxBufSize } ∧
      contents buf tcpRxBufSize r (n + bytes.length) =
        contents c.rxBuf tcpRxBufSize r n ++ bytes := by
  induction bytes generalizing c n with
  | nil => exact ⟨c.rxBuf, by simp [← hw], by simp⟩
  | cons b bytes ih =>
    rw [length_cons] at hn ⊢
    have hw' : (c.rxPush b).rxWritePos = (r + (n + 1)) % tcpRxBufSize := by
      simp [rxPush, hw, Nat.add_assoc]
    obtain ⟨buf, he, hc⟩ := ih hw' (by omega)
    have hlen : n + 1 + bytes.length = n + (bytes.length + 1) := by omega
    rw [hlen] at he hc
    refine ⟨buf, he, hc.trans ?_⟩
    rw [rxPush, hw, contents_push _ _ (by omega), append_assoc, singleton_append]

theorem rxData_eq (payload : List UInt8) {got : List UInt8} (h : RingPos c.rxReadPos c.rxWritePos c.rxCount)
    (hgot : payload.take (tcpRxBufSize - c.rxCount) = got) :
    ∃ buf, c.rxData payload = { c with
        rxBuf := buf
        rxWritePos := (c.rxReadPos + (c.rxCount + got.length)) % tcpRxBufSize
        rxCount := c.rxCount + got.length
        rcvNxt := c.rcvNxt + BitVec.ofNat 32 got.length } ∧
      contents buf tcpRxBufSize c.rxReadPos (c.rxCount + got.length) = c.ring ++ got := by
  have hlen : c.rxCount + got.length ≤ tcpRxBufSize := by
    have := h.count
    rw [← hgot, length_take]
    omega
  obtain ⟨buf, he, hc⟩ := foldl_rxPush got h.write hlen
  exact ⟨buf, by rw [rxData, hgot, he], hc⟩

theorem rxPop_eq (h : RingPos c.rxReadPos c.rxWritePos c.rxCount) {n : Nat} (hn : n ≤ c.rxCount) :
    ∃ r, (c.rxPop n).2 = { c with rxReadPos := r, rxCount := c.rxCount - n } ∧
      RingPos r c.rxWritePos (c.rxCount - n) ∧
      (c.rxPop n).1 ++ (c.rxPop n).2.ring = c.ring ∧ (c.rxPop n).1.length = n := by
  induction n generalizing c with
  | zero => exact ⟨c.rxReadPos, rfl, h, rfl, rfl⟩
  | succ n ih =>
    have hsize : 0 < tcpRxBufSize := by decide
    let d : TcpConn := { c with rxReadPos := (c.rxReadPos + 1) % tcpRxBufSize, rxCount := c.rxCount - 1 }
    have hd : RingPos d.rxReadPos d.rxWritePos d.rxCount := by
      refine ⟨Nat.mod_lt _ hsize, ?_, Nat.le_trans (Nat.sub_le _ _) h.count⟩
      have : c.rxReadPos + c.rxCount = c.rxReadPos + 1 + (c.rxCount - 1) := by omega
      simp only [d, h.write, Nat.mod_add_mod, this]
    obtain ⟨r, he, hr, hring, hl⟩ := ih hd (by simp only [d]; omega)
    have hcount : c.rxCount = c.rxCount - 1 + 1 := by omega
    have hsub : d.rxCount - n = c.rxCount - (n + 1) := by simp only [d]; omega
    refine ⟨r, ?_, hsub ▸ hr, ?_, by rw [rxPop]; exact congrArg (· + 1) hl⟩
    · rw [rxPop, he, hsub]
    · rw [rxPop, cons_append, hring]
      have hpop := contents_pop (n := c.rxCount - 1) c.rxBuf h.read
      rw [← hcount] at hpop
      exact hpop.symm

end Ring

section
variable {S put put' : List UInt8} {isn a : U32} {ended : Bool} {c : TcpConn} {seg : Segment} {off : Nat}
  {r : RcvSide}

theorem AckCovers.mono (h : AckCovers S isn ended put a) (hp : put <+: put') (hS : put' <+: S) :
    AckCovers S isn ended put' a := by
  obtain ⟨k, hk, ha⟩ | ⟨he, rfl, ha⟩ := h
  · exact .inl ⟨k, hk.trans hp.length_le, ha⟩
  · exact .inr ⟨he, hS.eq_of_length_le hp.length_le, ha⟩

theorem Receiving.ackCovers {c : RcvSide} (h : Receiving S isn ended put c)
    (hc : c.txBuf ≠ [] ∨ c.state ∉ [synSent, .closed]) : AckCovers S isn ended put c.rcvNxt := by
  rcases h.nxt with hn | ⟨he, hput, hn, -⟩ | ⟨htx, hst⟩
  · exact .inl ⟨put.length, Nat.le_refl _, hn⟩
  · exact .inr ⟨he, hput, hn⟩
  · exact absurd hst (hc.resolve_left (not_not_intro htx))

theorem Receiving.nxt_open {c : RcvSide} (h : Receiving S isn ended put c)
    (hc : c.state ∈ [synReceived, .established, .finWait1, .finWait2]) :
    c.rcvNxt = isn + 1 + BitVec.ofNat 32 put.length := by
  rcases h.nxt with hn | ⟨-, -, -, hst⟩ | ⟨-, hst⟩
  · exact hn
  all_goals
    generalize c.state = st at hc hst
    cases st <;> simp at hc hst

def TcpConn.accepts (c : TcpConn) (seg : Segment) : List UInt8 :=
  if seg.seq = c.rcvNxt then seg.payload.take (tcpRxBufSize - c.rxCount) else []

/-- The segment lies less than a full turn of the sequence numbers from the end of what was put. -/
def Near (put : List UInt8) (off : Nat) : Prop := off < put.length + 2 ^ 32 ∧ put.length < off + 2 ^ 32

theorem off_eq (hn : Near put off) (h : isn + 1 + BitVec.ofNat 32 off = isn + 1 + BitVec.ofNat 32 put.length) :
    off = put.length := by
  have h' := congrArg BitVec.toNat ((BitVec.add_right_inj _).mp h)
  simp only [BitVec.toNat_ofNat] at h'
  unfold Near at hn
  omega

/-- All bytes before the FIN have been put, or are in the segment and go into the buffer; after `tcp_close`, when the
    connection puts no more data, the segment must not carry any. -/
def FinInOrder (c : TcpConn) (seg : Segment) : Prop :=
  match c.state with
  | .synReceived | .established => seg.seq = c.rcvNxt ∧ seg.payload.length ≤ tcpRxBufSize - c.rxCount
  | .finWait1 | .finWait2 => seg.seq = c.rcvNxt ∧ seg.payload = []
  | _ => True

structure Arrives (S : List UInt8) (isn : U32) (ended : Bool) (put : List UInt8) (c : TcpConn)
    (seg : Segment) (off : Nat) : Prop where
  ofStream : OfStream S isn ended seg off
  near : seg.payload ≠ [] ∨ seg.flags.fin = true → Near put off
  fin : seg.flags.fin = true → FinInOrder c seg

theorem Arrives.off_eq (h : Arrives S isn ended put c seg off) (hp : seg.payload ≠ [] ∨ seg.flags.fin)
    (hn : c.rcvNxt = isn + 1 + BitVec.ofNat 32 put.length) (hseq : seg.seq = c.rcvNxt) : off = put.length :=
  Limnx.off_eq (h.near hp) (((h.ofStream.seq hp).symm.trans hseq).trans hn)

section
variable (h : Arrives S isn ended put c seg off) (hput : put <+: S) (hn : c.rcvNxt = isn + 1 + BitVec.ofNat 32 put.length)
include h hput hn

theorem Arrives.accepts_prefix : put ++ c.accepts seg <+: S := by
  unfold accepts
  split
  next hseq =>
    by_cases hp : seg.payload = []
    · simpa [hp] using hput
    have hoff := h.off_eq (.inl hp) hn hseq
    have hpre := (h.ofStream.data (.inl hp)).1
    rw [hoff] at hpre
    obtain ⟨t, rfl⟩ := hput
    rw [drop_left] at hpre
    exact (prefix_append_right_inj _).mpr ((List.take_prefix _ _).trans hpre)
  · simpa using hput

theorem Arrives.put_eq (hfin : seg.flags.fin)
    (hseq : seg.seq = c.rcvNxt) (hfit : seg.payload.length ≤ tcpRxBufSize - c.rxCount) :
    put ++ c.accepts seg = S ∧ seg.finNxt = isn + 1 + BitVec.ofNat 32 S.length + 1 := by
  have hoff := h.off_eq (.inr hfin) hn hseq
  have hend := (h.ofStream.fin hfin).2
  constructor
  · refine (h.accepts_prefix hput hn).eq_of_length ?_
    rw [accepts, if_pos hseq, take_of_length_le hfit, length_append, ← hoff, hend]
  · rw [Segment.finNxt, hseq, hn, ← hend, hoff, BitVec.ofNat_add, BitVec.add_assoc (isn + 1)]

end

def AcksOk (S : List UInt8) (isn : U32) (ended : Bool) (put : List UInt8) (_ : TcpConn) (seg : Segment) : Prop :=
  seg.flags.ack = true → AckCovers S isn ended put seg.ackNum

structure Took (S : List UInt8) (isn : U32) (ended : Bool) (put acc : List UInt8) (c c' : RcvSide) : Prop where
  recv : Receiving S isn ended (put ++ acc) c'
  ring : c'.ring = c.ring ++ acc
  rst : c'.rstReceived = false → c.rstReceived = false

theorem Receiving.accept (h : Receiving S isn ended put c.rcv) (ha : Arrives S isn ended put c seg off)
    (hst : c.state = .established) :
    Took S isn ended put (c.accepts seg) c.rcv (if seg.seq = c.rcvNxt then c.rxData seg.payload else c).rcv := by
  have hn := h.nxt_open (by simp [hst])
  have hpre := ha.accepts_prefix h.pre hn
  unfold accepts at hpre ⊢
  split
  · obtain ⟨buf, he, hc⟩ := rxData_eq seg.payload h.ring rfl
    rw [if_pos ‹_›] at hpre
    have hcount : c.rxCount + (seg.payload.take (tcpRxBufSize - c.rxCount)).length ≤ tcpRxBufSize := by
      have : c.rxCount ≤ tcpRxBufSize := h.ring.count
      rw [length_take]
      omega
    have hfin : c.finReceived → put ++ seg.payload.take (tcpRxBufSize - c.rxCount) = S := by
      intro hf
      have hput : put = S := h.fin hf
      subst hput
      exact hpre.eq_of_length_le (by simp)
    have hnxt : c.rcvNxt + BitVec.ofNat 32 (seg.payload.take (tcpRxBufSize - c.rxCount)).length =
        isn + 1 + BitVec.ofNat 32 (put ++ seg.payload.take (tcpRxBufSize - c.rxCount)).length := by
      rw [length_append, BitVec.ofNat_add, ← BitVec.add_assoc, ← hn]
      rfl
    rw [he]
    exact ⟨⟨⟨h.ring.read, rfl, hcount⟩, hpre, hfin, by simp [hst], .inl hnxt⟩, hc, id⟩
  · exact ⟨by simpa using h, by simp, id⟩

theorem Receiving.acksOk (h : Receiving S isn ended put r) {seg : Segment} {c' : TcpConn}
    (ha : seg.ackNum = r.rcvNxt) (hc : r.txBuf ≠ [] ∨ r.state ∉ [synSent, .closed]) :
    AcksOk S isn ended put c' seg := by
  intro _
  rw [ha]
  exact h.ackCovers hc

theorem Took.refl (h : Receiving S isn ended put c.rcv) : Took S isn ended put [] c.rcv c.rcv := by
  refine ⟨?_, by simp, id⟩
  simpa using h

section
variable (S isn ended put c)

abbrev TakesNone {α : Type} (p : TcpProg α) : Prop :=
  Holds (AcksOk S isn ended put) Eq (fun _ c' => Took S isn ended put [] c.rcv c'.rcv) p

abbrev Takes (p : TcpProg Unit) : Prop :=
  ∃ acc, Holds (AcksOk S isn ended (put ++ acc)) Eq (fun _ c' => Took S isn ended put acc c.rcv c'.rcv) p

end

theorem holds_establishedData (h : Receiving S isn ended put c.rcv) (ha : Arrives S isn ended put c seg off)
    (hst : c.state = .established) :
    Holds (AcksOk S isn ended (put ++ c.accepts seg)) Eq
      (fun _ c' => Took S isn ended put (c.accepts seg) c.rcv c'.rcv) (tcpEstablishedData seg c) := by
  have hfin : seg.flags.fin → ended ∧ put ++ c.accepts seg = S ∧
      seg.finNxt = isn + 1 + BitVec.ofNat 32 S.length + 1 := by
    intro hf
    have hio := ha.fin hf
    simp only [FinInOrder, hst] at hio
    exact ⟨(ha.ofStream.fin hf).1, ha.put_eq h.pre (h.nxt_open (by simp [hst])) hf hio.1 hio.2⟩
  have hclose : ∀ d : TcpConn, Took S isn ended put (c.accepts seg) c.rcv d.rcv → seg.flags.fin →
      Took S isn ended put (c.accepts seg) c.rcv
        { d.rcv with rcvNxt := seg.finNxt, finReceived := true, state := .closeWait } := by
    intro d hd hf
    obtain ⟨he, hput, hnxt⟩ := hfin hf
    exact ⟨⟨hd.recv.ring, hd.recv.pre, fun _ => hput, by simp, .inr (.inl ⟨he, hput, hnxt, by simp⟩)⟩, hd.ring, hd.rst⟩
  have hD := h.accept ha hst
  have hDst : (if seg.seq = c.rcvNxt then c.rxData seg.payload else c).state = .established := by
    split
    · obtain ⟨buf, he, -⟩ := rxData_eq seg.payload h.ring rfl
      rw [he]; exact hst
    · exact hst
  simp only [tcpEstablishedData, holds_steps, holds_tcpSendAck]
  split
  · generalize (if seg.seq = c.rcvNxt then c.rxData seg.payload else c) = d at hD hDst ⊢
    refine ⟨hD.recv.acksOk rfl (.inr (by simp [hDst])), ?_⟩
    split
    · exact ⟨(hclose d hD ‹_›).recv.acksOk rfl (.inr (by simp)), hclose d hD ‹_›⟩
    · exact hD
  · have hnil : seg.payload = [] := by simpa using ‹¬0 < seg.payload.length›
    have hc : Took S isn ended put (c.accepts seg) c.rcv c.rcv := by
      have : c.accepts seg = [] := by simp [accepts, hnil]
      rw [this]
      exact Took.refl h
    split
    · exact ⟨(hclose c hc ‹_›).recv.acksOk rfl (.inr (by simp)), hclose c hc ‹_›⟩
    · exact hc

theorem Receiving.goes (h : Receiving S isn ended put r) {st : TcpState} {tx : List UInt8} {b : Bool}
    (hnew : st ≠ .synSent) (hfin : r.state ∈ [closeWait, .lastAck, .timeWait, .closing, .closed] →
      st ∈ [closeWait, .lastAck, .timeWait, .closing, .closed])
    (hidle : r.txBuf = [] → r.state ∈ [synSent, .closed] → tx = [] ∧ st ∈ [synSent, .closed]) :
    Receiving S isn ended put { r with state := st, txBuf := tx, rstReceived := b } := by
  refine ⟨h.ring, h.pre, h.fin, fun hst => absurd hst hnew, ?_⟩
  rcases h.nxt with hn | ⟨he, hput, hn, hst⟩ | ⟨htx, hst⟩
  · exact .inl hn
  · exact .inr (.inl ⟨he, hput, hn, hfin hst⟩)
  · exact .inr (.inr (hidle htx hst))

theorem Receiving.closed (h : Receiving S isn ended put r) (b : Bool) :
    Receiving S isn ended put { r with state := .closed, rstReceived := b } :=
  h.goes (by simp) (fun _ => by simp) fun htx _ => ⟨htx, by simp⟩

theorem Receiving.setState (h : Receiving S isn ended put r) (st : TcpState)
    (hold : r.state ∉ [synSent, .closed]) (hnew : st ≠ .synSent)
    (hfin : r.state ∈ [closeWait, .lastAck, .timeWait, .closing, .closed] →
      st ∈ [closeWait, .lastAck, .timeWait, .closing, .closed]) : Receiving S isn ended put { r with state := st } :=
  h.goes hnew hfin fun _ hst => absurd hst hold

theorem Receiving.finish (h : Receiving S isn ended put c.rcv) (ha : Arrives S isn ended put c seg off)
    (hst : c.state = .finWait1 ∨ c.state = .finWait2) (hf : seg.flags.fin) (st : TcpState)
    (hnew : st ∈ [timeWait, .closing]) :
    Receiving S isn ended put { c.rcv with rcvNxt := seg.finNxt, state := st } := by
  have hio : seg.seq = c.rcvNxt ∧ seg.payload = [] := by
    have := ha.fin hf
    rcases hst with hst | hst <;> simpa [FinInOrder, hst] using this
  have hopen := h.nxt_open (by rcases hst with hst | hst <;> simp [hst])
  obtain ⟨hput, hnxt⟩ := ha.put_eq h.pre hopen hf hio.1 (by simp [hio.2])
  have hacc : c.accepts seg = [] := by simp [accepts, hio.2]
  rw [hacc, append_nil] at hput
  refine ⟨h.ring, h.pre, h.fin, ?_, .inr (.inl ⟨(ha.ofStream.fin hf).1, hput, hnxt, ?_⟩)⟩
  · rintro rfl
    simp at hnew
  · simp only [mem_cons, not_mem_nil, or_false] at hnew ⊢
    tauto

theorem Took.nil {r r' : RcvSide} (h : Receiving S isn ended put r') (hring : r'.ring = r.ring)
    (hrst : r'.rstReceived = false → r.rstReceived = false) : Took S isn ended put [] r r' := by
  refine ⟨?_, by simpa using hring, hrst⟩
  simpa using h

theorem Receiving.took_reset (h : Receiving S isn ended put c.rcv) : Took S isn ended put [] c.rcv c.reset.rcv :=
  Took.nil (h.closed true) rfl (by simp [rcv, reset])

section
variable (h : Receiving S isn ended put c.rcv) (ha : Arrives S isn ended put c seg off)
include h

theorem holds_rxCloseWait (hst : c.state = .closeWait) : TakesNone S put isn ended c (tcpRxCloseWait seg c) := by
  simp only [tcpRxCloseWait, rxAck, holds_steps, holds_tcpSendAck]
  have hack : ∀ {d : TcpConn} {seg : Segment}, d.rcv = c.rcv → seg.ackNum = d.rcvNxt →
      AcksOk S isn ended put d seg := by
    intro d seg hd hseg
    have : seg.ackNum = c.rcv.rcvNxt := hseg.trans (congrArg RcvSide.rcvNxt hd)
    exact h.acksOk this (.inr (by simp [hst]))
  split
  · exact h.took_reset
  split
  · split
    · split <;> exact ⟨hack rfl rfl, Took.refl h⟩
    · split <;> exact Took.refl h
  · split
    · exact ⟨hack rfl rfl, Took.refl h⟩
    · exact Took.refl h

include ha

theorem holds_rxSynSent (hst : c.state = .synSent) : TakesNone S put isn ended c (tcpRxSynSent seg c) := by
  have hput := (h.syn hst).1
  simp only [tcpRxSynSent, holds_steps, holds_tcpSendAck]
  split
  next hflags =>
    have hsyn : seg.seq = isn := ha.ofStream.syn (Bool.and_eq_true_iff.mp hflags).1
    split
    · have hr : Receiving S isn ended put { c.rcv with rcvNxt := seg.seq + 1, state := .established } :=
        ⟨h.ring, h.pre, h.fin, by simp, .inl (by simp [hsyn, hput])⟩
      exact ⟨hr.acksOk rfl (.inr (by simp)), Took.nil hr rfl id⟩
    · exact Took.refl h
  · split
    · exact h.took_reset
    · exact Took.refl h

theorem holds_rxSynReceived (hst : c.state = .synReceived) : Takes S put isn ended c (tcpRxSynReceived seg c) := by
  simp only [Takes, tcpRxSynReceived, holds_steps]
  split
  · split
    · let d : TcpConn := { c with
        sndUna := seg.ackNum, sndNxt := c.sndIss + 1, state := .established, retransmitCount := 0 }
      have hd : Receiving S isn ended put d.rcv := h.setState .established (by simp [hst]) (by simp) (by simp [hst])
      split
      · have had : Arrives S isn ended put d seg off :=
          ⟨ha.ofStream, ha.near, fun hf => by simpa [FinInOrder, hst, d] using ha.fin hf⟩
        exact ⟨d.accepts seg, (holds_establishedData hd had rfl).mono fun _ _ ht => { ht with }⟩
      · exact ⟨[], Took.nil hd rfl id⟩
    · exact ⟨[], Took.refl h⟩
  · split
    · exact ⟨[], h.took_reset⟩
    · exact ⟨[], Took.refl h⟩

theorem holds_rxEstablished (hst : c.state = .established) : Takes S put isn ended c (tcpRxEstablished seg c) := by
  simp only [Takes, tcpRxEstablished, holds_steps]
  split
  · exact ⟨[], h.took_reset⟩
  refine ⟨c.accepts seg, ?_⟩
  split
  · split
    · exact holds_establishedData (c := { c with sndUna := seg.ackNum, retransmitCount := 0, sndWnd := seg.window })
        h { ha with } hst
    · exact holds_establishedData (c := { c with sndWnd := seg.window })
        h { ha with } hst
  · exact holds_establishedData h ha hst

theorem holds_rxFinWait1 (now : Nat) (hst : c.state = .finWait1) :
    TakesNone S put isn ended c (tcpRxFinWait1 now seg c) := by
  simp only [tcpRxFinWait1, holds_steps, holds_tcpSendAck]
  split
  · exact h.took_reset
  split
  · split <;> simp only [reduceCtorEq, and_false, if_false]
    · have hr := h.finish ha (.inl hst) ‹_› .timeWait (by simp)
      exact ⟨hr.acksOk rfl (.inr (by simp)), Took.nil hr rfl id⟩
    · exact Took.nil (h.setState .finWait2 (by simp [hst]) (by simp) (by simp [hst])) rfl id
  · split
    next hf =>
      have hr := h.finish ha (.inl hst) hf.1 .closing (by simp)
      exact ⟨hr.acksOk rfl (.inr (by simp)), Took.nil hr rfl id⟩
    · exact Took.refl h

theorem holds_rxFinWait2 (now : Nat) (hst : c.state = .finWait2) :
    TakesNone S put isn ended c (tcpRxFinWait2 now seg c) := by
  simp only [tcpRxFinWait2, holds_steps, holds_tcpSendAck]
  split
  · have hr := h.finish ha (.inr hst) ‹_› .timeWait (by simp)
    exact ⟨hr.acksOk rfl (.inr (by simp)), Took.nil hr rfl id⟩
  · exact Took.refl h

theorem holds_rxConn (now : Nat) (src : U32) : Takes S put isn ended c (tcpRxConn now src seg c) := by
  have hnil {m : TcpM Unit} (hm : TakesNone S put isn ended c (m c)) : Takes S put isn ended c (m c) :=
    ⟨[], by simpa using hm⟩
  simp only [Takes, tcpRxConn, holds_steps]
  cases hst : c.state with
  | closed => exact hnil (m := pure ()) (Took.refl h)
  | listen =>
    refine hnil ?_
    split
    · exact Took.nil (h.setState .listen (by simp [hst]) (by simp) (by simp [hst])) rfl id
    · exact Took.refl h
  | synSent => exact hnil (holds_rxSynSent h ha hst)
  | synReceived => exact holds_rxSynReceived h ha hst
  | established => exact holds_rxEstablished h ha hst
  | finWait1 => exact hnil (holds_rxFinWait1 h ha now hst)
  | finWait2 => exact hnil (holds_rxFinWait2 h ha now hst)
  | closeWait => exact hnil (holds_rxCloseWait h hst)
  | lastAck =>
    refine hnil ?_
    simp only [tcpRxLastAck, holds_steps]
    split
    · exact Took.nil (h.closed c.rstReceived) rfl id
    · exact Took.refl h
  | timeWait =>
    refine hnil ?_
    simp only [tcpRxTimeWait, holds_steps, holds_tcpSendAck]
    split
    · exact ⟨h.acksOk rfl (.inr (by simp [hst])), Took.refl h⟩
    · exact Took.refl h
  | closing =>
    refine hnil ?_
    simp only [tcpRxClosing, holds_steps]
    split
    · exact Took.nil (h.setState .timeWait (by simp [hst]) (by simp) (by simp)) rfl id
    · exact Took.refl h

end

section
variable (h : Receiving S isn ended put c.rcv)
include h

theorem holds_tcpSendFin (now : Nat) (st : TcpState)
    (hst : c.state = .established ∧ st = .finWait1 ∨ c.state = .closeWait ∧ st = .lastAck) :
    TakesNone S put isn ended c (tcpSendFin now st c) := by
  have htx : Receiving S isn ended put { c.rcv with txBuf := [], state := st } := by
    refine h.goes ?_ ?_ ?_ <;> rcases hst with ⟨hs, rfl⟩ | ⟨hs, rfl⟩ <;> simp [hs]
  simp only [tcpSendFin, holds_steps, holds_tcpSendSegment]
  refine ⟨htx.acksOk rfl (.inr ?_), Took.nil htx rfl id⟩
  rcases hst with ⟨-, rfl⟩ | ⟨-, rfl⟩ <;> simp

theorem holds_tcpClose (now : Nat) : TakesNone S put isn ended c (tcpClose now c) := by
  simp only [tcpClose, tcpCloseEnd, holds_steps]
  split
  · exact Took.refl h
  split
  next hst =>
    refine (holds_tcpSendFin h now _ ?_).mono fun _ c' hc' => ?_
    · rcases hst with hst | hst <;> simp [hst]
    · split <;> exact hc'
  split
  · exact Took.nil (h.closed c.rstReceived) rfl id
  · exact Took.refl h

theorem holds_tcpSend (now : Nat) (buf : List UInt8) : TakesNone S put isn ended c (tcpSend now buf c) := by
  simp only [tcpSend, holds_steps, holds_tcpSendSegment]
  split
  · exact Took.refl h
  rename_i hs
  have hst : c.state = .established := by
    simp only [sends, Bool.not_eq_true', Bool.not_eq_false, Bool.and_eq_true, decide_eq_true_eq] at hs
    exact hs.1.2
  have hr : Receiving S isn ended put { c.rcv with txBuf := buf.take tcpMss } :=
    ⟨h.ring, h.pre, h.fin, by simp [hst], .inl (h.nxt_open (by simp [hst]))⟩
  exact ⟨hr.acksOk rfl (.inr (by simp [hst])), Took.nil hr rfl id⟩

theorem holds_tcpTimer (now : Nat) : TakesNone S put isn ended c (tcpTimer now c) := by
  have hexp : TakesNone S put isn ended c (tcpExpire now c) := by
    simp only [tcpExpire, holds_steps]
    split
    · exact Took.nil (h.closed c.rstReceived) rfl id
    · exact Took.refl h
  simp only [tcpTimer, tcpGiveUp, tcpRetransmit, holds_steps, holds_tcpSendSegment]
  split
  · split
    · split
      · exact ⟨fun hack => by simp [TcpConn.segment] at hack, h.took_reset⟩
      rename_i hdue _
      have htx : c.txBuf ≠ [] := by
        rintro he
        simp [overdue, he] at hdue
      refine ⟨h.acksOk rfl (.inl htx), ?_⟩
      simp only [tcpExpire, holds_steps]
      split
      · exact Took.nil (h.closed c.rstReceived) rfl id
      · exact Took.refl h
    · exact hexp
  · exact Took.refl h

end

/-- What `tcp_recv` returns: bytes from the front of the buffer, none after a reset, and the end of the stream only when
    the buffer is empty and the FIN has come. -/
inductive Returned (S : List UInt8) (isn : U32) (ended : Bool) (put : List UInt8) (len : Nat) (c : RcvSide) :
    Except Int (List UInt8) → RcvSide → Prop
  | error (e : Int) (h : Receiving S isn ended put c) : Returned S isn ended put len c (.error e) c
  | ok (bytes : List UInt8) (c' : RcvSide) (h : Receiving S isn ended put c') (hrst : c.rstReceived = false)
    (hring : bytes ++ c'.ring = c.ring) (heof : 0 < len → bytes = [] → c.ring = [] ∧ c.finReceived = true) :
    Returned S isn ended put len c (.ok bytes) c'

theorem holds_tcpRecv (len : Nat) (e : Int) (h : Receiving S isn ended put c.rcv) :
    Holds (AcksOk S isn ended put) Eq (fun r c' => Returned S isn ended put len c.rcv r c'.rcv)
      (tcpRecv len e c) := by
  simp only [tcpRecv, holds_steps, holds_tcpSendAck]
  split
  · exact .error _ h
  split
  · exact .error _ h
  split
  · exact .error _ h
  rename_i hwait hrst
  have hrst : c.rstReceived = false := by simpa using hrst
  split
  next hzero =>
    have hring : c.ring = [] := by simp [ring, hzero]
    have hfin : c.finReceived := by simpa [hzero, hrst] using hwait
    exact .ok _ _ h hrst rfl fun _ _ => ⟨hring, hfin⟩
  · obtain ⟨r, he, hpos, hring, hlen⟩ := rxPop_eq h.ring (Nat.min_le_right len c.rxCount)
    have hr : Receiving S isn ended put (c.rxPop (min len c.rxCount)).2.rcv := by
      rw [he]
      exact { h with ring := hpos }
    have hnil : 0 < len → (c.rxPop (min len c.rxCount)).1 = [] → c.ring = [] ∧ c.finReceived := by
      intro hl hb
      rw [hb, length_nil] at hlen
      omega
    split
    next hst => exact ⟨hr.acksOk rfl (.inr (by simp [hst.2.2])), .ok _ _ hr hrst hring hnil⟩
    · exact .ok _ _ hr hrst hring hnil

end

section Runs
variable {S : List UInt8} {isn : U32} {ended : Bool} {x : Inbound}

/-- What was put and not yet returned is in the buffer. -/
structure Held (S : List UInt8) (isn : U32) (ended : Bool) (x : Inbound) : Prop extends Delivered S isn ended x where
  recv : Receiving S isn ended x.put x.conn.rcv
  held : x.conn.rstReceived = false → x.got ++ x.conn.ring = x.put

/-- A segment comes near what was put so far, and a FIN only in order. -/
def InOrder (x : Inbound) : InboundOp → Prop
  | .arrive _ _ seg off =>
    (seg.payload ≠ [] ∨ seg.flags.fin = true → Near x.put off) ∧ (seg.flags.fin = true → FinInOrder x.conn seg)
  | _ => True

/-- A segment that arrives is one of the stream. -/
def InboundOp.OfStream (S : List UInt8) (isn : U32) (ended : Bool) : InboundOp → Prop
  | .arrive _ _ seg off => Limnx.OfStream S isn ended seg off
  | _ => True

section
variable (h : Held S isn ended x)
include h

theorem Held.after {α : Type} {p : TcpProg α} (hp : TakesNone S x.put isn ended x.conn p) :
    Held S isn ended (x.after p.exec) := by
  obtain ⟨ht, hacks⟩ := hp.exec
  refine ⟨⟨h.got, h.eof, h.put, fun seg hs => ?_⟩, by simpa [Inbound.after] using ht.recv, fun hr => ?_⟩
  · rcases mem_append.mp hs with hs | hs
    · exact h.acks seg hs
    · exact hacks seg hs
  · have hring : p.exec.2.1.ring = x.conn.ring := ht.ring.trans (append_nil _)
    have := h.held (ht.rst hr)
    rwa [← hring] at this

theorem Held.arrive (now : Nat) (src : U32) {seg : Segment} {off : Nat}
    (ha : Arrives S isn ended x.put x.conn seg off) : Held S isn ended (inboundStep x (.arrive now src seg off)) := by
  simp only [inboundStep]
  split
  · obtain ⟨acc, hacc⟩ := holds_rxConn h.recv ha now src
    obtain ⟨ht, hacks⟩ := hacc.exec
    have hring : (tcpRxConn now src seg x.conn).exec.2.1.ring = x.conn.ring ++ acc := ht.ring
    have hdrop : (tcpRxConn now src seg x.conn).exec.2.1.ring.drop x.conn.rxCount = acc := by
      rw [hring]
      exact drop_left' (length_contents _)
    simp only [hdrop]
    refine ⟨⟨h.got, h.eof, ht.recv.pre, fun s hs hack => ?_⟩, ht.recv, fun hr => ?_⟩
    · rcases mem_append.mp hs with hs | hs
      · exact (h.acks s hs hack).mono (prefix_append _ _) ht.recv.pre
      · exact hacks s hs hack
    · have hheld := h.held (ht.rst hr)
      simp only [Inbound.after]
      rw [hring, ← append_assoc, hheld]
  · exact h

theorem Held.recvStep (len : Nat) (e : Int) : Held S isn ended (inboundStep x (.recv len e)) := by
  obtain ⟨hret, hacks⟩ := (holds_tcpRecv len e h.recv).exec
  have hsent : ∀ seg ∈ x.sent ++ (tcpRecv len e x.conn).exec.2.2, seg.flags.ack →
      AckCovers S isn ended x.put seg.ackNum := by
    intro seg hs
    rcases mem_append.mp hs with hs | hs
    · exact h.acks seg hs
    · exact hacks seg hs
  simp only [inboundStep, Inbound.after]
  generalize (tcpRecv len e x.conn).exec = r at hret hsent ⊢
  obtain ⟨res, c', segs⟩ := r
  generalize hc' : c'.rcv = rc' at hret
  cases hret with
  | error e hr =>
    have hring : c'.ring = x.conn.ring := congrArg RcvSide.ring hc'
    refine ⟨⟨h.got, h.eof, h.put, hsent⟩, hc' ▸ hr, fun hrst => ?_⟩
    have hrst' : x.conn.rstReceived = false := (congrArg RcvSide.rstReceived hc').symm.trans hrst
    have := h.held hrst'
    rwa [← hring] at this
  | ok bytes c'' hr hrst hring heof =>
    subst hc'
    have hput := h.held hrst
    have hput' : x.got ++ bytes ++ c'.ring = x.put := by
      rw [append_assoc, ← hput]
      exact congrArg _ hring
    have hgot : x.got ++ bytes <+: S := (prefix_append _ _).trans (hput' ▸ h.put)
    refine ⟨⟨hgot, fun he => ?_, h.put, hsent⟩, hr, fun _ => hput'⟩
    rcases Bool.or_eq_true_iff.mp he with he | he
    · have := h.eof he
      exact hgot.eq_of_length_le (by simp [this])
    simp only [Bool.and_eq_true, decide_eq_true_eq, List.isEmpty_iff] at he
    obtain ⟨hnil, hfin⟩ := heof he.1 he.2
    have hempty : x.conn.ring = [] := hnil
    have hall : x.put = S := h.recv.fin hfin
    calc x.got ++ bytes
      _ = x.got ++ x.conn.ring := by rw [he.2, hempty]
      _ = S := hput.trans hall

theorem Held.step {op : InboundOp} (hc : op.OfStream S isn ended) (hok : InOrder x op) :
    Held S isn ended (inboundStep x op) := by
  cases op with
  | arrive now src seg off => exact h.arrive now src ⟨hc, hok.1, hok.2⟩
  | recv len e => exact h.recvStep len e
  | close now => exact h.after (holds_tcpClose h.recv now)
  | closeEnd =>
    refine h.after (p := tcpCloseEnd x.conn) ?_
    simp only [tcpCloseEnd, holds_steps]
    split
    · exact Took.nil (h.recv.closed x.conn.rstReceived) rfl id
    · exact Took.refl h.recv
  | send now buf => exact h.after (holds_tcpSend h.recv now buf)
  | timer now => exact h.after (holds_tcpTimer h.recv now)

end

theorem Opening.held {c : TcpConn} (h : Opening isn c) : Held S isn ended { conn := c } := by
  refine ⟨⟨List.nil_prefix, by simp, nil_prefix, by simp⟩, ⟨h.ring, nil_prefix, ?_, ?_, ?_⟩, fun hr => ?_⟩
  · intro hf
    exact absurd (hf.symm.trans h.fin) (by simp)
  · intro hst
    rcases h.state with hs | hs
    · exact ⟨rfl, hs.2⟩
    · rcases hs.1 with hs | hs <;> exact absurd (hst.symm.trans hs) (by simp)
  · rcases h.state with hs | hs
    · exact .inr (.inr ⟨hs.2, by simp [hs.1]⟩)
    · have hn : c.rcvNxt = isn + 1 + BitVec.ofNat 32 0 := by simpa using hs.2
      exact .inl hn
  · simp [TcpConn.ring, h.empty hr]

/-- Whatever segments of the stream come, and whenever the calls are made: as long as every FIN comes in order, the
    stream is delivered in order. -/
theorem delivery_in_order {c : TcpConn} {ops : List InboundOp} (hc : Opening isn c)
    (hS : ∀ op ∈ ops, op.OfStream S isn ended) (hok : Guarded inboundStep InOrder { conn := c } ops) :
    Delivered S isn ended (run inboundStep { conn := c } ops) := by
  have hstep : ∀ x op, Held S isn ended x → op.OfStream S isn ended ∧ InOrder x op →
      Held S isn ended (inboundStep x op) :=
    fun _ _ h hop => h.step hop.1 hop.2
  exact ((hok.and_forall hS).invariant hstep hc.held).toDelivered

theorem delivery_in_order_two_bytes :
    Delivered [1, 2] 0 true (run inboundStep { conn := { inUse := true, state := .established, rcvNxt := 1 } }
      [.arrive 0 0 { seq := 1, flags := { ack := true }, payload := [1, 2] } 0,
       .arrive 0 0 { seq := 3, flags := { ack := true, fin := true } } 2, .recv 1 4, .recv 9 4, .recv 9 4]) := by
  refine delivery_in_order ⟨⟨by decide, rfl, by decide⟩, fun _ => rfl, rfl, .inr ⟨.inr rfl, rfl⟩⟩ ?_ ?_
  · simp only [forall_mem_cons, not_mem_nil, IsEmpty.forall_iff, implies_true, and_true]
    exact ⟨⟨by simp, fun _ => rfl, fun _ => ⟨⟨[], rfl⟩, by decide⟩, by simp⟩,
      ⟨by simp, fun _ => rfl, fun _ => ⟨⟨[], rfl⟩, by decide⟩, fun _ => ⟨rfl, rfl⟩⟩, trivial, trivial, trivial⟩
  · refine ⟨⟨fun _ => ⟨by decide, by decide⟩, by simp⟩, ⟨fun _ => ?_, fun _ => ?_⟩, trivial, trivial, trivial, trivial⟩
    · exact ⟨by decide, by decide⟩
    · exact ⟨by decide, by decide⟩

/-- The FIN of a three byte stream overtakes the data: it is acknowledged at once, and `tcp_recv` reports
    the end of the stream without having returned a byte. -/
theorem early_fin_skips :
    ∃ (S : List UInt8) (c : TcpConn) (ops : List InboundOp), Opening 0 c ∧
      (∀ op ∈ ops, op.OfStream S 0 true) ∧ ¬ Delivered S 0 true (run inboundStep { conn := c } ops) := by
  refine ⟨[1, 2, 3], { inUse := true, state := .established, rcvNxt := 1 },
    [.arrive 0 0 { seq := 4, flags := { ack := true, fin := true } } 3, .recv 9 4],
    ⟨⟨by decide, rfl, by decide⟩, fun _ => rfl, rfl, .inr ⟨.inr rfl, rfl⟩⟩, ?_, fun h => ?_⟩
  · simp only [forall_mem_cons, not_mem_nil, IsEmpty.forall_iff, implies_true, and_true]
    exact ⟨⟨by simp, fun _ => rfl, fun _ => ⟨⟨[], rfl⟩, by decide⟩, fun _ => ⟨rfl, rfl⟩⟩, trivial⟩
  · exact absurd (h.eof rfl) (by decide)

end Runs

end Limnx
