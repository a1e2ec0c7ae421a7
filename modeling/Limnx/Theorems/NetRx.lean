import Limnx.Net

/-! # What is read of a frame

The length that `handle_ipv4` gives is a difference of two fields, right just if it does not wrap. -/

namespace Limnx

open StateProg List Rx FrameMem

namespace Rx

/-- What was read and what was handed on lies below `hi`. -/
def Inside (hi : Nat) (s : Rx) : Prop :=
  (∀ p ∈ s.reads, p < hi) ∧ ∀ h ∈ s.handed, h.1 + h.2.toNat ≤ hi

instance (hi : Nat) (s : Rx) : Decidable (s.Inside hi) := inferInstanceAs (Decidable (_ ∧ _))

def read (s : Rx) (off n : Nat) : Rx := { s with reads := s.reads ++ List.range' off n }

def hand (s : Rx) (off : Nat) (len : U32) : Rx := { s with handed := s.handed ++ [(off, len)] }

variable {hi off n : Nat} {len : U32} {s : Rx} {srcIp : U32}

@[simp] theorem read_mem : (s.read off n).mem = s.mem := rfl
@[simp] theorem hand_handed : (s.hand off len).handed = s.handed ++ [(off, len)] := rfl

theorem Inside.hand (h : s.Inside hi) (hn : off + len.toNat ≤ hi) : (s.hand off len).Inside hi := by
  refine ⟨h.1, fun p hp => ?_⟩
  rcases mem_append.1 hp with hp | hp
  · exact h.2 p hp
  · rw [mem_singleton.1 hp]
    exact hn

@[simp] theorem ends_u16 {Q : Nat → Rx → Prop} : Ends (u16 off) s Q ↔ Q (s.mem.be16 off) (s.read off 2) := Iff.rfl

@[simp] theorem ends_u32 {Q : U32 → Rx → Prop} :
    Ends (u32 off) s Q ↔ Q (BitVec.ofNat 32 (s.mem.be32 off)) (s.read off 4) := Iff.rfl

@[simp] theorem ends_readIhl {Q : Nat → Rx → Prop} :
    Ends (readIhl off) s Q ↔ Q (s.mem.ihl off) (s.read off 1) := Iff.rfl

@[simp] theorem ends_ipChecksum {Q : U16 → Rx → Prop} :
    Ends (ipChecksum off n) s Q ↔ Q (s.mem.ipChecksum off n) (s.read off n) := Iff.rfl

section
variable {α β : Type}

structure StaysIn (hi : Nat) (m : RxM α) : Prop where
  reads (s : Rx) : (∀ p ∈ s.reads, p < hi) → ∀ p ∈ (m s).2.reads, p < hi
  handed (s : Rx) : (m s).2.handed = s.handed

theorem StaysIn.inside {m : RxM α} (hm : StaysIn hi m) (hs : s.Inside hi) : (m s).2.Inside hi :=
  ⟨hm.reads s hs.1, fun h hh => hs.2 h (hm.handed s ▸ hh)⟩

theorem StaysIn.pure {a : α} : StaysIn hi (pure a) := ⟨fun _ h => h, fun _ => rfl⟩

theorem StaysIn.bind {m : RxM α} {f : α → RxM β} (hm : StaysIn hi m) (hf : ∀ a, StaysIn hi (f a)) :
    StaysIn hi (m >>= f) :=
  ⟨fun s h => (hf _).reads _ (hm.reads s h), fun s => ((hf _).handed _).trans (hm.handed s)⟩

theorem StaysIn.gets {f : Rx → α} : StaysIn hi (gets f) := ⟨fun _ h => h, fun _ => rfl⟩

theorem StaysIn.ite {c : Prop} [Decidable c] {m m' : RxM α} (h : c → StaysIn hi m) (h' : ¬ c → StaysIn hi m') :
    StaysIn hi (if c then m else m') := by
  split
  · exact h ‹_›
  · exact h' ‹_›

theorem StaysIn.modifyNet {f : NetState → NetState} : StaysIn hi (modifyNet f) := ⟨fun _ h => h, fun _ => rfl⟩

theorem StaysIn.touch (h : off + n ≤ hi) : StaysIn hi (touch off n) := by
  refine ⟨fun s hs p hp => ?_, fun _ => rfl⟩
  rcases mem_append.1 hp with hp | hp
  · exact hs p hp
  · exact ((mem_range'_1).1 hp).2.trans_le h

theorem StaysIn.u8 (h : off + 1 ≤ hi) : StaysIn hi (u8 off) := .bind (.touch h) fun _ => .gets

theorem StaysIn.u16 (h : off + 2 ≤ hi) : StaysIn hi (u16 off) := .bind (.touch h) fun _ => .gets

theorem StaysIn.u32 (h : off + 4 ≤ hi) : StaysIn hi (u32 off) := .bind (.touch h) fun _ => .gets

theorem StaysIn.copy (h : off + n ≤ hi) : StaysIn hi (copy off n) := .bind (.touch h) fun _ => .gets

end

theorem Inside.read (h : s.Inside hi) (hn : off + n ≤ hi) : (s.read off n).Inside hi := StaysIn.inside (.touch hn) h

theorem handleArp_staysIn (h : off + len.toNat ≤ hi) : StaysIn hi (handleArp off len) := by
  refine .ite (fun _ => .pure) fun hlen => ?_
  refine .bind (.u16 (by omega)) fun op => .bind (.u32 (by omega)) fun senderIp => ?_
  refine .bind (.u32 (by omega)) fun targetIp => .bind (.copy (by omega)) fun mac => ?_
  exact .bind .modifyNet fun _ => .ite (fun _ => .modifyNet) fun _ => .pure

theorem handleIcmp_staysIn (h : off + len.toNat ≤ hi) : StaysIn hi (handleIcmp srcIp off len) := by
  refine .ite (fun _ => .pure) fun hlen => .bind (.u8 (by omega)) fun type => ?_
  refine .ite (fun _ => ?_) fun _ => .ite (fun _ => .modifyNet) fun _ => .pure
  exact .ite (fun _ => .pure) fun _ => .bind (.copy h) fun _ => .modifyNet

theorem handleUdp_staysIn (h : off + len.toNat ≤ hi) : StaysIn hi (handleUdp srcIp off len) := by
  refine .ite (fun _ => .pure) fun hlen => .bind (.u16 (by omega)) fun dstPort => ?_
  refine .bind (.u16 (by omega)) fun srcPort => .bind (.u16 (by omega)) fun udpLen => ?_
  refine .ite (fun _ => .pure) fun hudp => .bind .gets fun sockets => ?_
  -- the datagram ends inside the packet, and the copy inside the datagram
  have hcopy : off + 8 + min (udpLen - 8) socketBufSize ≤ hi := by
    omega
  split
  · exact .pure
  · exact .ite (fun _ => .pure) fun _ => .bind (.copy hcopy) fun _ => .modifyNet

theorem copies_le (c : TcpConn) (seg : Segment) : c.copies seg ≤ seg.payload.length := by
  unfold TcpConn.copies
  split
  · exact min_le_left _ _
  · exact Nat.zero_le _

theorem tcpRead_staysIn {hdrLen : Nat} {seg : Segment} {c : TcpConn} (hwin : off + 16 ≤ hi)
    (hpay : off + hdrLen + seg.payload.length ≤ hi) : StaysIn hi (tcpRead off hdrLen seg c) := by
  have hcopy : off + hdrLen + c.copies seg ≤ hi := (Nat.add_le_add_left (copies_le c seg) _).trans hpay
  have hwindow : off + 14 + (if c.readsWindow seg then 2 else 0) ≤ hi := by
    split <;> omega
  exact .bind (.touch hwindow) fun _ => .touch hcopy

theorem tcpRx_staysIn (h : off + len.toNat ≤ hi) : StaysIn hi (tcpRx srcIp off len) := by
  refine .ite (fun _ => .pure) fun hlen => .bind (.u16 (by omega)) fun srcPort => ?_
  refine .bind (.u16 (by omega)) fun dstPort => .bind (.u32 (by omega)) fun seq => ?_
  refine .bind (.u32 (by omega)) fun ackNum => .bind (.u8 (by omega)) fun flags => ?_
  refine .bind (.u8 (by omega)) fun dataOffset => .ite (fun _ => .pure) fun hhdr => ?_
  refine .bind .gets fun m => .bind (.bind .gets fun tcp => ?_) fun _ => .modifyNet
  split
  · refine tcpRead_staysIn (by omega) ?_
    simp only [bytes, length_map, length_range]
    omega
  · exact .pure

theorem transport_handler {protocol : UInt8}
    (h : protocol = ipProtoIcmp ∨ protocol = ipProtoTcp ∨ protocol = ipProtoUdp) :
    ∃ m : RxM Unit, (∀ hi, off + len.toNat ≤ hi → StaysIn hi m) ∧
      ∀ s, transport protocol srcIp off len s = m (s.hand off len) := by
  rcases h with rfl | rfl | rfl
  · exact ⟨handleIcmp srcIp off len, fun _ => handleIcmp_staysIn, fun _ => rfl⟩
  · exact ⟨tcpRx srcIp off len, fun _ => tcpRx_staysIn, fun _ => rfl⟩
  · exact ⟨handleUdp srcIp off len, fun _ => handleUdp_staysIn, fun _ => rfl⟩

theorem transport_other {protocol : UInt8} (h1 : protocol ≠ ipProtoIcmp)
    (h6 : protocol ≠ ipProtoTcp) (h17 : protocol ≠ ipProtoUdp) : transport protocol srcIp off len = pure () := by
  unfold transport
  rw [if_neg h1, if_neg h6, if_neg h17]

end Rx

namespace FrameMem

def totalLen (m : FrameMem) (off : Nat) : Nat := m.be16 (off + 2)

def payloadLen (m : FrameMem) (off : Nat) : U32 := BitVec.ofNat 32 (m.totalLen off) - BitVec.ofNat 32 (m.ihl off)

/-- `handle_ipv4` accepts the `len` bytes from `off` on, and they are for one of the transport handlers. -/
structure Accepted (m : FrameMem) (off len : Nat) : Prop where
  size : 20 ≤ len
  header : 20 ≤ m.ihl off ∧ m.ihl off ≤ len
  checksum : m.ipChecksum off (m.ihl off) = 0
  total : m.totalLen off ≤ len
  dst : forUs (BitVec.ofNat 32 (m.be32 (off + 16)))
  protocol : m (off + 9) = ipProtoIcmp ∨ m (off + 9) = ipProtoTcp ∨ m (off + 9) = ipProtoUdp

/-- A frame with an IPv4 packet that is accepted. -/
structure AcceptedFrame (m : FrameMem) (len : Nat) : Prop where
  size : ethHlen ≤ len
  ethertype : m.be16 12 = ethTypeIpv4
  packet : m.Accepted ethHlen (len - ethHlen)

end FrameMem

namespace Rx
variable {hi off : Nat} {len : U32} {s : Rx}

def deliver (off : Nat) (m : FrameMem) : RxM Unit :=
  transport (m (off + 9)) (BitVec.ofNat 32 (m.be32 (off + 12))) (off + m.ihl off) (m.payloadLen off)

section
variable (hs : s.Inside hi) (hlen : off + len.toNat ≤ hi)
include hs hlen

/-- `handle_ipv4` reads inside the packet up to a state from which an accepted packet is delivered, and any
    other one is dropped. -/
theorem handleIpv4_cases :
    Ends (handleIpv4 off len) s fun _ t => ∃ u : Rx, u.Inside hi ∧
      (¬ s.mem.Accepted off len.toNat → t = u) ∧ (s.mem.Accepted off len.toNat → t = (deliver off s.mem u).2) := by
  unfold handleIpv4
  split
  · exact ⟨s, hs, fun _ => rfl, fun h => absurd h.size (by omega)⟩
  rename_i hsize
  rw [ends_bind, ends_readIhl]
  have hs1 : (s.read off 1).Inside hi := hs.read (by omega)
  split
  · exact ⟨_, hs1, fun _ => rfl, fun h => absurd h.header (by omega)⟩
  rw [ends_bind, ends_ipChecksum]
  have hs2 : ((s.read off 1).read off (s.mem.ihl off)).Inside hi := hs1.read (by omega)
  split
  · exact ⟨_, hs2, fun _ => rfl, fun h => absurd h.checksum ‹_›⟩
  rename_i hsum
  rw [ends_bind, ends_u16]
  have hs3 : (read _ (off + 2) 2).Inside hi := hs2.read (by omega)
  split
  · exact ⟨_, hs3, fun _ => rfl, fun h => absurd h.total (Nat.not_le_of_gt ‹_›)⟩
  rename_i htotal
  rw [ends_bind, ends_u32, ends_bind, ends_u32]
  have hs4 : (read _ (off + 12) 4).Inside hi := hs3.read (by omega)
  have hs5 : (read _ (off + 16) 4).Inside hi := hs4.read (by omega)
  split
  next hdst => exact ⟨_, hs5, fun _ => rfl, fun h => absurd h.dst (by simpa using hdst)⟩
  rename_i hdst
  have hs6 : (read _ (off + 9) 1).Inside hi := hs5.read (by omega)
  refine ⟨_, hs6, fun h => ?_, fun _ => rfl⟩
  -- what passed all checks and is not accepted has another protocol
  have hother : ¬ (s.mem (off + 9) = ipProtoIcmp ∨ s.mem (off + 9) = ipProtoTcp ∨ s.mem (off + 9) = ipProtoUdp) :=
    fun hp => h
      { size := Nat.le_of_not_gt hsize, header := by omega, checksum := not_not.1 hsum
        total := Nat.le_of_not_gt htotal, dst := by simpa using hdst, protocol := hp }
  rw [not_or, not_or] at hother
  exact congrArg Prod.snd (congrFun (transport_other hother.1 hother.2.1 hother.2.2) _)

theorem handleIpv4_inside (h : s.mem.Accepted off len.toNat → s.mem.ihl off ≤ s.mem.totalLen off) :
    (handleIpv4 off len s).2.Inside hi := by
  obtain ⟨u, hu, hdrop, hdeliver⟩ := handleIpv4_cases hs hlen
  by_cases hacc : s.mem.Accepted off len.toNat
  · obtain ⟨m, hm, hrun⟩ := transport_handler hacc.protocol
    rw [hdeliver hacc, deliver, hrun]
    have htotal := hacc.total
    have hle := h hacc
    have hin : off + s.mem.ihl off + (s.mem.payloadLen off).toNat ≤ hi := by
      have := len.isLt
      rw [payloadLen, BitVec.toNat_sub, BitVec.toNat_ofNat, BitVec.toNat_ofNat]
      omega
    exact (hm hi hin).inside (hu.hand hin)
  · rw [hdrop hacc]
    exact hu

theorem handleIpv4_not_inside (hhi : hi < 2 ^ 32)
    (hacc : s.mem.Accepted off len.toNat) (h : s.mem.totalLen off < s.mem.ihl off) :
    ¬ (handleIpv4 off len s).2.Inside hi := by
  obtain ⟨u, hu, -, hdeliver⟩ := handleIpv4_cases hs hlen
  obtain ⟨m, hm, hrun⟩ := transport_handler hacc.protocol
  rw [hdeliver hacc, deliver, hrun]
  intro hin
  have hend := hin.2 (off + s.mem.ihl off, s.mem.payloadLen off) (by rw [(hm _ le_rfl).handed, hand_handed]; simp)
  -- the length wraps: the header is shorter than 64 bytes
  have hihl : s.mem.ihl off < 64 := by unfold ihl; omega
  rw [payloadLen, BitVec.toNat_sub, BitVec.toNat_ofNat, BitVec.toNat_ofNat] at hend
  omega

end

theorem toNat_sub_ethHlen (h : ethHlen ≤ len.toNat) : (len - BitVec.ofNat 32 ethHlen).toNat = len.toNat - ethHlen := by
  rw [BitVec.toNat_sub, BitVec.toNat_ofNat]
  omega

end Rx

def FrameMem.netRx (m : FrameMem) (net : NetState) (len : U32) : Rx := (Rx.netRx len { mem := m, net }).2

/-- Whatever a frame says and whatever lies behind it: all bytes read lie in it, and so do the payloads handed to the
    transport handlers, unless it is an accepted packet whose total length is smaller than its header length. -/
theorem net_rx_inside_iff (m : FrameMem) (net : NetState) (len : U32) :
    (m.netRx net len).Inside len.toNat ↔
      ¬ (m.AcceptedFrame len.toNat ∧ m.totalLen ethHlen < m.ihl ethHlen) := by
  have hnone : Rx.Inside len.toNat { mem := m, net } :=
    ⟨fun p hp => absurd hp not_mem_nil, fun p hp => absurd hp not_mem_nil⟩
  change Ends (Rx.netRx len) _ (fun _ t => t.Inside len.toNat) ↔ _
  unfold Rx.netRx
  split
  next hsize => exact iff_of_true hnone fun h => Nat.not_le_of_gt hsize h.1.size
  rename_i hsize
  have hlen : ethHlen + (len - BitVec.ofNat 32 ethHlen).toNat ≤ len.toNat := by
    rw [toNat_sub_ethHlen (Nat.le_of_not_gt hsize)]
    omega
  rw [ends_bind, ends_u16]
  have htype : (read { mem := m, net } 12 2).Inside len.toNat := hnone.read (Nat.le_of_not_gt hsize)
  split
  next harp =>
    refine iff_of_true ((handleArp_staysIn hlen).inside htype) fun h => ?_
    exact absurd (harp.symm.trans h.1.ethertype) (by decide)
  split
  next hip =>
    have hpacket : m.AcceptedFrame len.toNat ↔ m.Accepted ethHlen (len - BitVec.ofNat 32 ethHlen).toNat := by
      rw [toNat_sub_ethHlen (Nat.le_of_not_gt hsize)]
      exact ⟨fun h => h.packet, fun h => ⟨Nat.le_of_not_gt hsize, hip, h⟩⟩
    rw [hpacket]
    constructor
    · rintro hin ⟨hacc, hlt⟩
      exact handleIpv4_not_inside htype hlen len.isLt hacc hlt hin
    · intro h
      exact handleIpv4_inside htype hlen fun hacc => Nat.le_of_not_gt fun hlt => h ⟨hacc, hlt⟩
  next hip => exact iff_of_true htype fun h => hip h.1.ethertype

def shortTotalFrame : List UInt8 :=
  [0, 0, 0, 0, 0, 0, 0, 0, 0, 0, 0, 0, 0x08, 0x00,
    0x45, 0, 0, 0, 0, 0, 0, 0, 64, 17, 0x62, 0xdd, 10, 0, 2, 2, 10, 0, 2, 15,
    0, 7, 0, 9, 0, 100, 0, 0]

def boundSocket : NetState := { sockets := { inUse := true, localPort := 9 } :: List.replicate 7 {} }

/-- The frame has 42 bytes, and the byte at position 100 is read. -/
theorem short_total_reads_past_end : let r := netRx (fun i => shortTotalFrame.getD i 0) boundSocket 42
    shortTotalFrame.length = 42 ∧ 100 ∈ r.reads ∧ ¬ r.Inside 42 := by
  decide +kernel

end Limnx
