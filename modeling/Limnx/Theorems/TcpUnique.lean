import Limnx.TcpCalls
import Limnx.Theorems.TcpLoopback

/-! # One connection for each pair of endpoints

`tcp_socket`, `tcp_connect`, `tcp_listen` and `tcp_accept` do not look whether the endpoints are in use. -/

namespace Limnx

open TcpProg TcpM GuardedRun TcpConn List
variable (c : TcpConn)

def TcpConn.live : Bool := c.inUse && c.state ≠ .closed && c.state ≠ .listen

def TcpConn.listens : Bool := c.inUse && c.state = .listen

theorem TcpConn.live.inUse {c : TcpConn} (h : c.live) : c.inUse :=
  (Bool.and_eq_true_iff.mp (Bool.and_eq_true_iff.mp h).1).1

structure Fades (c c' : TcpConn) : Prop where
  endpoint : c'.endpoint = c.endpoint
  inUse : c'.inUse → c.inUse
  live : c'.live → c.live
  listens : c'.listens → c.listens

theorem Fades.refl : Fades c c := ⟨rfl, id, id, id⟩

theorem Fades.trans {c c' c'' : TcpConn} (h : Fades c c') (h' : Fades c' c'') : Fades c c'' :=
  ⟨h'.endpoint.trans h.endpoint, h.inUse ∘ h'.inUse, h.live ∘ h'.live, h.listens ∘ h'.listens⟩

theorem Fades.of_same {c c' : TcpConn}
    (h : (c'.endpoint, c'.inUse, c'.state) = (c.endpoint, c.inUse, c.state)) : Fades c c' := by
  obtain ⟨hend, huse, hstate⟩ := by simpa only [Prod.mk.injEq] using h
  refine ⟨hend, by rw [huse]; exact id, ?_, ?_⟩
  · unfold TcpConn.live
    rw [huse, hstate]
    exact id
  · unfold TcpConn.listens
    rw [huse, hstate]
    exact id

theorem Fades.of_free {c c' : TcpConn} (hend : c'.endpoint = c.endpoint) (huse : c'.inUse = false) : Fades c c' := by
  refine ⟨hend, fun h => ?_, fun h => ?_, fun h => ?_⟩
  · cases huse.symm.trans h
  · rw [TcpConn.live, huse] at h
    cases h
  · rw [TcpConn.listens, huse] at h
    cases h

def TcpConn.Done : Prop := c.inUse → c.state = .timeWait

instance (c : TcpConn) : Decidable c.Done := inferInstanceAs (Decidable (_ → _))

structure Ends (c c' : TcpConn) : Prop extends Fades c c' where
  done : c.Done → c'.Done

theorem Ends.refl : Ends c c := ⟨.refl c, id⟩

theorem Ends.trans {c c' c'' : TcpConn} (h : Ends c c') (h' : Ends c' c'') : Ends c c'' :=
  ⟨h.toFades.trans h'.toFades, h'.done ∘ h.done⟩

theorem Ends.of_same {c c' : TcpConn}
    (h : (c'.endpoint, c'.inUse, c'.state) = (c.endpoint, c.inUse, c.state)) : Ends c c' := by
  refine ⟨.of_same h, fun hdone => ?_⟩
  unfold TcpConn.Done
  obtain ⟨-, huse, hstate⟩ := by simpa only [Prod.mk.injEq] using h
  rw [huse, hstate]
  exact hdone

theorem Ends.of_free {c c' : TcpConn} (hend : c'.endpoint = c.endpoint) (huse : c'.inUse = false) : Ends c c' :=
  ⟨.of_free hend huse, fun _ huse' => by cases huse.symm.trans huse'⟩

structure KeptEnds (c0 c : TcpConn) : Prop where
  endpoint : c.endpoint = c0.endpoint
  inUse : c.inUse → c0.inUse
  quiet : ¬ c.listens

section
variable {c0 c c' : TcpConn} {seg : Segment} {R : Unit → TcpConn → Prop}

theorem KeptEnds.start (hstate : c.state ≠ .listen) : KeptEnds c c := by
  refine ⟨rfl, id, fun h => hstate ?_⟩
  simpa using (Bool.and_eq_true_iff.mp h).2

theorem KeptEnds.env (h : KeptEnds c0 c) (he : Fades c c') : KeptEnds c0 c' :=
  ⟨he.endpoint.trans h.endpoint, h.inUse ∘ he.inUse, fun hl => h.quiet (he.listens hl)⟩

theorem KeptEnds.setState (h : KeptEnds c0 c) (hend : c'.endpoint = c.endpoint) (huse : c'.inUse = c.inUse)
    (hstate : c'.state ≠ .listen) : KeptEnds c0 c' := by
  refine ⟨hend.trans h.endpoint, by rw [huse]; exact h.inUse, fun hl => hstate ?_⟩
  simpa using (Bool.and_eq_true_iff.mp hl).2

theorem KeptEnds.fades (h : KeptEnds c0 c) (hclosed : c0.state ≠ .closed) (hlisten : c0.state ≠ .listen) : Fades c0 c := by
  refine ⟨h.endpoint, h.inUse, fun hl => ?_, fun hl => absurd hl h.quiet⟩
  simp [live, h.inUse (live.inUse hl), hclosed, hlisten]

theorem RxSnd.inUse {v v' : SndSide} (h : RxSnd v v') : v'.inUse → v.inUse := by
  cases h with
  | stay st b hb hst => exact hb
  | acked | caughtUp | opened => exact id

theorem RxSnd.listen {v v' : SndSide} (h : RxSnd v v') (hl : v'.state = .listen) : v.state = .listen := by
  cases h with
  | stay st b hb hst =>
    subst hl
    simpa [eq_comm] using hst
  | acked => exact hl
  | caughtUp st n hst =>
    subst hl
    simp at hst
  | opened a hst => cases hl

theorem KeptEnds.rx (h : KeptEnds c0 c) (hrx : RxSnd c.snd c'.snd) (hend : c'.endpoint = c.endpoint) :
    KeptEnds c0 c' := by
  refine ⟨hend.trans h.endpoint, h.inUse ∘ hrx.inUse, fun hl => h.quiet ?_⟩
  obtain ⟨huse, hstate⟩ := Bool.and_eq_true_iff.mp hl
  have hstate' : c.state = .listen := hrx.listen (of_decide_eq_true hstate)
  exact Bool.and_eq_true_iff.mpr ⟨hrx.inUse huse, decide_eq_true hstate'⟩

theorem holds_sendSegment_kept {flags : TcpFlags} {data : List UInt8} (h : KeptEnds c0 c)
    (hR : ∀ c', KeptEnds c0 c' → R () c') : Holds (fun _ _ => True) Ends R (tcpSendSegment flags data c) := by
  refine ⟨trivial, fun c' he => hR c' ?_⟩
  have hwnd : KeptEnds c0 { c with rcvWnd := tcpCalcRcvWnd c } := { h with }
  exact hwnd.env he.toFades

theorem holds_sendSegment_ends {flags : TcpFlags} {data : List UInt8} (c0 : TcpConn)
    (h : Ends c0 c) (hR : ∀ c', Ends c0 c' → R () c') : Holds (fun _ _ => True) Ends R (tcpSendSegment flags data c) := by
  refine ⟨trivial, fun c' he => hR c' ?_⟩
  have hwnd : Ends c { c with rcvWnd := tcpCalcRcvWnd c } := .of_same rfl
  exact h.trans (hwnd.trans he)

def EndsOnly {α : Type} (c : TcpConn) (p : TcpProg α) : Prop := Holds (fun _ _ => True) Ends (fun _ c' => Ends c c') p

theorem ends_rxConn (now : Nat) (src : U32) (huse : c.inUse) : EndsOnly c (tcpRxConn now src seg c) := by
  by_cases hlisten : c.state = .listen
  · simp only [EndsOnly, tcpRxConn, holds_steps, hlisten]
    split
    · exact .of_same (by rw [hlisten]; rfl)
    · exact .refl c
  by_cases hclosed : c.state = .closed
  · simp only [EndsOnly, tcpRxConn, holds_steps, hclosed]
    exact .refl c
  by_cases hwait : c.state = .timeWait
  · simp only [EndsOnly, tcpRxConn, holds_steps, hwait, tcpRxTimeWait]
    split
    · exact holds_sendSegment_ends c (.refl c) fun c' hc' => hc'.trans (.of_same rfl)
    · exact .refl c
  · have h : KeepsRx (KeptEnds c) Ends (tcpRxConn now src seg c) :=
      keepsRx_rxConn (fun _ _ hrx hend hc => hc.rx hrx hend) (fun _ _ he hc => hc.env he.toFades) now src (.start hlisten)
    exact h.imp (fun _ _ _ => trivial) fun _ _ hc => ⟨hc.fades hclosed hlisten, fun hdone => absurd (hdone huse) hwait⟩

end

namespace TcpTable

theorem respected_ends : Respected Ends := ⟨.refl, .trans, fun now src _ _ huse => ends_rxConn now src huse⟩

end TcpTable

variable {port : U16}

section
variable {c : TcpConn}

theorem ends_tcpSend (now : Nat) (buf : List UInt8) : EndsOnly c (tcpSend now buf c) := by
  simp only [EndsOnly, tcpSend, holds_steps]
  split
  · exact .refl c
  · exact holds_sendSegment_ends c (.of_same rfl) fun c' hc' => hc'.trans (.of_same rfl)

theorem ends_rxPop (n : Nat) (c : TcpConn) : Ends c (c.rxPop n).2 := by
  induction n generalizing c with
  | zero => exact .refl c
  | succ n ih => exact (Ends.of_same rfl : Ends c { c with
      rxReadPos := (c.rxReadPos + 1) % tcpRxBufSize, rxCount := c.rxCount - 1 }).trans (ih _)

theorem ends_tcpRecv (len : Nat) (e : Int) : EndsOnly c (tcpRecv len e c) := by
  simp only [EndsOnly, tcpRecv, holds_steps]
  split
  · exact .refl c
  split
  · exact .refl c
  split
  · exact .refl c
  split
  · exact .refl c
  split
  · exact holds_sendSegment_ends c (ends_rxPop _ c) fun c' hc' => hc'
  · exact ends_rxPop _ c

theorem ends_tcpCloseEnd : EndsOnly c (tcpCloseEnd c) := by
  simp only [EndsOnly, tcpCloseEnd, holds_steps]
  split
  · exact .of_free rfl rfl
  · exact .refl c

theorem Ends.setState {c' : TcpConn} (hold : c.state = .established ∨ c.state = .closeWait)
    (hend : c'.endpoint = c.endpoint) (huse : c'.inUse = c.inUse) (hstate : c'.state ≠ .listen) : Ends c c' := by
  have hlisten : c.state ≠ .listen := by rcases hold with h | h <;> rw [h] <;> decide
  have hclosed : c.state ≠ .closed := by rcases hold with h | h <;> rw [h] <;> decide
  refine ⟨((KeptEnds.start hlisten).setState hend huse hstate).fades hclosed hlisten, fun hdone huse' => ?_⟩
  have hwait := hdone (huse ▸ huse')
  rcases hold with h | h <;> cases h.symm.trans hwait

theorem ends_tcpClose (now : Nat) : EndsOnly c (tcpClose now c) := by
  simp only [EndsOnly, tcpClose, holds_steps]
  split
  · exact .refl c
  split
  next hst =>
    simp only [tcpSendFin, holds_steps]
    refine holds_sendSegment_ends c (.setState hst rfl rfl ?_) fun c' hc' => ?_
    · dsimp only
      split <;> decide
    · split
      · exact hc'.trans (.of_free rfl rfl)
      · exact hc'.trans (.of_same rfl)
  · exact ends_tcpCloseEnd

theorem ends_tcpExpire (now : Nat) : EndsOnly c (tcpExpire now c) := by
  simp only [EndsOnly, tcpExpire, holds_steps]
  split
  · exact .of_free rfl rfl
  · exact .refl c

theorem ends_tcpTimer (now : Nat) : EndsOnly c (tcpTimer now c) := by
  simp only [EndsOnly, tcpTimer, holds_steps]
  split
  · split
    · split
      · simp only [tcpGiveUp, holds_steps]
        exact holds_sendSegment_ends c (.refl c) fun c' hc' => hc'.trans (.of_free rfl rfl)
      simp only [tcpRetransmit, holds_steps]
      refine holds_sendSegment_ends c (.of_same rfl) fun c' hc' => ?_
      refine (ends_tcpExpire now).mono fun _ c'' hc'' => ?_
      refine Ends.trans ?_ hc''
      exact hc'.trans (.of_same rfl)
    · exact ends_tcpExpire now
  · exact .refl c

theorem ends_tcpSetNonblock (nb : Bool) : EndsOnly c (tcpSetNonblock nb c) := by
  simp only [EndsOnly, tcpSetNonblock, holds_steps]
  split
  · exact .refl c
  · exact .of_same rfl

theorem ends_tcpConnectEnd (w : WaitEnd) : EndsOnly c (tcpConnectEnd w c) := by
  simp only [EndsOnly, tcpConnectEnd, holds_steps]
  cases w with
  | timeout => exact .of_free rfl rfl
  | signal => exact .refl c
  | settled =>
    split
    · exact .of_free rfl rfl
    · exact .of_same rfl

theorem ends_tcpAcceptEnd (w : WaitEnd) : EndsOnly c (tcpAcceptEnd w c) := by
  simp only [EndsOnly, tcpAcceptEnd, holds_steps]
  cases w with
  | timeout => exact .of_free rfl rfl
  | signal => exact .refl c
  | settled =>
    split
    · exact .of_free rfl rfl
    · exact .of_same rfl

theorem keeps_tcpAcceptConn {now : Nat} {isn localIp : U32} {localPort : U16} {e : BacklogEntry} :
    Holds (fun _ _ => True) Ends (fun _ c' => c'.endpoint = (localPort, e.remoteIp, e.remotePort) ∧ ¬ c'.listens)
      (tcpAcceptConn now isn localIp localPort e c) := by
  simp only [tcpAcceptConn, holds_steps]
  refine holds_sendSegment_kept (KeptEnds.start (by simp)) fun c' hc' => ?_
  have hend := hc'.env (.of_same rfl : Fades c' { c' with sndNxt := c'.sndIss + 1, rtoTick := now + 18 })
  exact ⟨hend.endpoint, hend.quiet⟩

theorem keeps_tcpConnect {now : Nat} {isn ip : U32} :
    Holds (fun _ _ => True) Ends
      (fun _ c' => Ends c c' ∨ c.inUse ∧ c.state = .closed ∧ c'.endpoint = (c.localPort, ip, port) ∧ ¬ c'.listens)
      (tcpConnect now isn ip port c) := by
  simp only [tcpConnect, holds_steps]
  split
  · exact .inl (.refl c)
  rename_i hok
  simp only [Bool.or_eq_true, Bool.not_eq_true', decide_eq_true_iff, not_or, Bool.not_eq_false, not_not] at hok
  refine holds_sendSegment_kept (KeptEnds.start (by simp)) fun c' hc' => .inr ⟨hok.1, hok.2, ?_⟩
  exact ⟨hc'.endpoint, hc'.quiet⟩

end

namespace TcpTable
variable {s t : TcpTable} {i j k : Nat}

/-- No two connections have the same endpoints, and no two listen on one port. -/
structure Distinct (s : TcpTable) : Prop where
  apart : ∀ i < maxTcpConns, ∀ j < maxTcpConns, i ≠ j → (s.conns i).inUse → (s.conns j).live →
    (s.conns i).endpoint ≠ (s.conns j).endpoint
  ports : ∀ i < maxTcpConns, ∀ j < maxTcpConns, i ≠ j → (s.conns i).listens → (s.conns j).listens →
    (s.conns i).localPort ≠ (s.conns j).localPort

theorem Fades.localPort {c c' : TcpConn} (h : Fades c c') : c'.localPort = c.localPort := congrArg Prod.fst h.endpoint

theorem Distinct.fades (hs : s.Distinct) (h : ∀ j, Fades (s.conns j) (t.conns j)) : t.Distinct := by
  constructor
  · intro i hi j hj hij huse hlive
    rw [(h i).endpoint, (h j).endpoint]
    exact hs.apart i hi j hj hij ((h i).inUse huse) ((h j).live hlive)
  · intro i hi j hj hij hli hlj
    rw [Fades.localPort (h i), Fades.localPort (h j)]
    exact hs.ports i hi j hj hij ((h i).listens hli) ((h j).listens hlj)

structure Fresh (s : TcpTable) (k : Nat) (c : TcpConn) : Prop where
  inUse : c.inUse → ∀ j < maxTcpConns, j ≠ k → (s.conns j).live → (s.conns j).endpoint ≠ c.endpoint
  live : c.live → ∀ j < maxTcpConns, j ≠ k → (s.conns j).inUse → (s.conns j).endpoint ≠ c.endpoint
  listens : c.listens → ∀ j < maxTcpConns, j ≠ k → (s.conns j).listens → (s.conns j).localPort ≠ c.localPort

theorem Distinct.renew (hs : s.Distinct) (hother : ∀ j ≠ k, Fades (s.conns j) (t.conns j))
    (hnew : s.Fresh k (t.conns k)) : t.Distinct := by
  constructor
  · intro i hi j hj hij hi' hj'
    obtain rfl | hik := eq_or_ne i k
    · rw [(hother j hij.symm).endpoint]
      exact (hnew.inUse hi' j hj hij.symm ((hother j hij.symm).live hj')).symm
    obtain rfl | hjk := eq_or_ne j k
    · rw [(hother i hik).endpoint]
      exact hnew.live hj' i hi hik ((hother i hik).inUse hi')
    · rw [(hother i hik).endpoint, (hother j hjk).endpoint]
      exact hs.apart i hi j hj hij ((hother i hik).inUse hi') ((hother j hjk).live hj')
  · intro i hi j hj hij hi' hj'
    obtain rfl | hik := eq_or_ne i k
    · rw [Fades.localPort (hother j hij.symm)]
      exact (hnew.listens hi' j hj hij.symm ((hother j hij.symm).listens hj')).symm
    obtain rfl | hjk := eq_or_ne j k
    · rw [Fades.localPort (hother i hik)]
      exact hnew.listens hj' i hi hik ((hother i hik).listens hi')
    · rw [Fades.localPort (hother i hik), Fades.localPort (hother j hjk)]
      exact hs.ports i hi j hj hij ((hother i hik).listens hi') ((hother j hjk).listens hj')

theorem Distinct.call {α : Type} {m : TcpM α} (hs : s.Distinct)
    (hm : Holds (fun _ _ => True) Ends (fun _ c' => Ends (s.conns k) c' ∨ s.Fresh k c') (m (s.conns k))) :
    (s.call k m).2.Distinct := by
  have hother (j : Nat) (hj : j ≠ k) : Fades (s.conns j) ((s.call k m).2.conns j) :=
    (respected_ends.call_other m hj).toFades
  rcases respected_ends.call_self hm with hself | hself
  · refine hs.fades fun j => ?_
    obtain rfl | hj := eq_or_ne j k
    · exact hself.toFades
    · exact hother j hj
  · exact hs.renew hother hself

theorem find?_of_unique {n : Nat} {p : Nat → Bool} (hj : j < n) (hp : p j) (h : ∀ i < n, p i → i = j) :
    (range n).find? p = some j := by
  cases hfind : (range n).find? p with
  | none => exact absurd hp (find?_eq_none.mp hfind j (mem_range.mpr hj))
  | some i => rw [h i (mem_range.mp (mem_of_find?_eq_some hfind)) (find?_some hfind)]

theorem Distinct.findConn (hs : s.Distinct) (hj : j < maxTcpConns) (hlive : (s.conns j).live) :
    s.findConn (s.conns j).localPort (s.conns j).remoteIp (s.conns j).remotePort = some j := by
  have huse : (s.conns j).inUse := live.inUse hlive
  refine find?_of_unique hj (by simp [huse]) fun i hi hmatch => ?_
  simp only [Bool.and_eq_true, decide_eq_true_iff] at hmatch
  by_contra hne
  have hend : (s.conns i).endpoint = (s.conns j).endpoint := by
    simp only [endpoint, hmatch]
  exact hs.apart i hi j hj hne hmatch.1.1.1 hlive hend

theorem Distinct.findListener (hs : s.Distinct) (hj : j < maxTcpConns) (hlis : (s.conns j).listens) :
    s.findListener (s.conns j).localPort = some j := by
  obtain ⟨huse, hstate⟩ := Bool.and_eq_true_iff.mp hlis
  refine find?_of_unique hj (by simp [huse, hstate]) fun i hi hmatch => ?_
  rw [Bool.and_eq_true, decide_eq_true_iff] at hmatch
  by_contra hne
  exact hs.ports i hi j hj hne hmatch.1 hlis hmatch.2

def EndsFree (s : TcpTable) (k : Nat) (kind : TcpConn → Bool) (e : U16 × U32 × U16) : Prop :=
  ∀ j < maxTcpConns, j ≠ k → kind (s.conns j) → (s.conns j).endpoint ≠ e

theorem Fresh.of_free {c : TcpConn} {e : U16 × U32 × U16} (hfree : s.EndsFree k TcpConn.inUse e)
    (hend : c.endpoint = e) (hquiet : ¬ c.listens) : s.Fresh k c := by
  refine ⟨fun _ j hj hjk hlive => ?_, fun _ j hj hjk huse => ?_, fun hlis => absurd hlis hquiet⟩
  · rw [hend]
    exact hfree j hj hjk (live.inUse hlive)
  · rw [hend]
    exact hfree j hj hjk huse

def PortFree (s : TcpTable) (k : Nat) (port : U16) : Prop :=
  ∀ j < maxTcpConns, j ≠ k → (s.conns j).listens → (s.conns j).localPort ≠ port

instance (s : TcpTable) (k : Nat) (kind : TcpConn → Bool) (e : U16 × U32 × U16) : Decidable (s.EndsFree k kind e) := by
  unfold EndsFree
  infer_instance

instance (s : TcpTable) (k : Nat) (port : U16) : Decidable (s.PortFree k port) := by
  unfold PortFree
  infer_instance

end TcpTable

namespace TcpNet
variable {s : TcpNet} {i : Int}

open TcpTable

/-- The endpoints that a call gives to a slot are free. -/
def EndpointsFree (s : TcpNet) : TcpOp → Prop
  | .socket => ∀ k ∈ s.table.newSlot, s.table.EndsFree k live (s.ephemeral, 0, 0)
  | .connect i ip port => ∀ n ∈ connIdx i, (s.table.conns n).inUse → (s.table.conns n).state = .closed →
    s.table.EndsFree n inUse ((s.table.conns n).localPort, ip, port)
  | .listen i port => ∀ n ∈ connIdx i, (s.table.conns n).inUse → s.table.PortFree n port ∧
    s.table.EndsFree n live (port, (s.table.conns n).remoteIp, (s.table.conns n).remotePort)
  | .accept i => ∀ n ∈ connIdx i, (s.table.conns n).listens → ∀ r ∈ takeBacklog (s.table.conns n).backlog,
    ∀ k ∈ s.table.newSlot,
      s.table.EndsFree k inUse ((s.table.conns n).localPort, r.1.remoteIp, r.1.remotePort)
  | _ => True

instance (s : TcpNet) (op : TcpOp) : Decidable (s.EndpointsFree op) := by
  unfold EndpointsFree
  split <;> infer_instance

theorem onConn_fades {α : Type} {m : Nat → TcpM α}
    (hm : ∀ n, EndsOnly (s.table.conns n) (m n (s.table.conns n))) (j : Nat) :
    Fades (s.table.conns j) ((s.onConn i m).2.table.conns j) := by
  unfold onConn
  split
  · exact .refl _
  · exact (respected_ends.call (hm _) j).toFades

section
variable (h : s.table.Distinct)
include h

theorem distinct_socket (hfree : s.EndpointsFree .socket) : s.tcpSocket.2.table.Distinct := by
  unfold tcpSocket
  split
  next k hk =>
    have hother (j : Nat) (hj : j ≠ k) :
        Fades (s.table.conns j) ((s.table.set k (tcpSocketConn s.ephemeral)).conns j) := by
      rw [set_conns_ne _ _ hj]
      exact .refl _
    refine h.renew hother ?_
    rw [set_conns_self]
    refine ⟨fun _ => hfree k hk, fun hlive => ?_, fun hlis => ?_⟩
    · cases hlive
    · cases hlis
  · exact h

theorem distinct_onConn {α : Type} {m : Nat → TcpM α} (hm : ∀ n ∈ connIdx i, Holds (fun _ _ => True) Ends
      (fun _ c' => Ends (s.table.conns n) c' ∨ s.table.Fresh n c') (m n (s.table.conns n))) :
    (s.onConn i m).2.table.Distinct := by
  unfold onConn
  split
  · exact h
  next n hn => exact h.call (hm n hn)

theorem distinct_connect {ip : U32}
    (hfree : s.EndpointsFree (.connect i ip port)) : (s.step (.connect i ip port)).table.Distinct := by
  refine distinct_onConn h fun n hn => keeps_tcpConnect.mono fun _ c' hc' => ?_
  rcases hc' with hfade | ⟨huse, hclosed, hend, hquiet⟩
  · exact .inl hfade
  exact .inr (.of_free (hfree n hn huse hclosed) hend hquiet)

theorem distinct_listen (hfree : s.EndpointsFree (.listen i port)) : (s.step (.listen i port)).table.Distinct := by
  refine distinct_onConn h fun n hn => ?_
  simp only [tcpListen, holds_steps]
  split
  · exact .inl (.refl _)
  next huse =>
    obtain ⟨hlisteners, hends⟩ := hfree n hn (by simpa using huse)
    exact .inr ⟨fun _ => hends, fun hlive => absurd hlive (by simp [live]), fun _ => hlisteners⟩

omit h in
theorem newSlot_backlog (t : TcpTable) (i : Nat) (backlog : List (Option BacklogEntry)) :
    (t.set i { t.conns i with backlog }).newSlot = t.newSlot := by
  have hsame (j : Nat) : ((t.set i { t.conns i with backlog }).conns j).inUse = (t.conns j).inUse ∧
      ((t.set i { t.conns i with backlog }).conns j).state = (t.conns j).state := by
    obtain rfl | hj := eq_or_ne j i
    · rw [set_conns_self]
      exact ⟨rfl, rfl⟩
    · rw [set_conns_ne _ _ hj]
      exact ⟨rfl, rfl⟩
  simp only [newSlot, hsame]

theorem distinct_accept (hfree : s.EndpointsFree (.accept i)) : (s.step (.accept i)).table.Distinct := by
  rw [step]
  split
  · exact h
  rename_i n hn
  unfold tcpAccept
  split
  · exact h
  rename_i hlis
  split
  · exact h
  rename_i e backlog htake
  have hfades (j : Nat) : Fades (s.table.conns j) ((s.table.set n { s.table.conns n with backlog }).conns j) := by
    obtain rfl | hj := eq_or_ne j n
    · rw [set_conns_self]
      exact .of_same rfl
    · rw [set_conns_ne _ _ hj]
      exact .refl _
  have h' := h.fades hfades
  dsimp only
  split
  · exact h'
  rename_i k hk
  rw [newSlot_backlog] at hk
  have hlistens : (s.table.conns n).listens := by simpa [listens] using hlis
  have hfree' := hfree n hn hlistens (e, backlog) htake k hk
  refine h'.call (keeps_tcpAcceptConn.mono fun _ c' hc' => .inr (.of_free (fun j hj hjk huse => ?_) hc'.1 hc'.2))
  rw [(hfades j).endpoint]
  exact hfree' j hj hjk ((hfades j).inUse huse)

theorem distinct_step {op : TcpOp} (hfree : s.EndpointsFree op) : (s.step op).table.Distinct := by
  cases op with
  | socket => exact distinct_socket h hfree
  | connect i ip port => exact distinct_connect h hfree
  | connectEnd i w => exact h.fades (onConn_fades fun _ => ends_tcpConnectEnd w)
  | listen i port => exact distinct_listen h hfree
  | accept i => exact distinct_accept h hfree
  | acceptEnd i w => exact h.fades (onConn_fades fun _ => ends_tcpAcceptEnd w)
  | send i buf => exact h.fades (onConn_fades fun _ => ends_tcpSend _ buf)
  | recv i len e => exact h.fades (onConn_fades fun _ => ends_tcpRecv len e)
  | close i => exact h.fades (onConn_fades fun _ => ends_tcpClose _)
  | closeEnd i => exact h.fades (onConn_fades fun _ => ends_tcpCloseEnd)
  | setNonblock i nb => exact h.fades (onConn_fades fun _ => ends_tcpSetNonblock nb)
  | timerCheck =>
    rw [step]
    dsimp only
    exact h.fades fun j => (respected_ends.tcpTimerCheck (fun now _ => ends_tcpTimer now) s.table j).toFades
  | rx src seg => exact h.fades fun j => (respected_ends.tcpRx rxDepth src seg s.table j).toFades
  | tick => exact h.fades fun _ => .refl _

end

theorem distinct_empty : ({} : TcpNet).table.Distinct :=
  ⟨fun _ _ _ _ _ huse => (nomatch huse), fun _ _ _ _ _ hlis => (nomatch hlis)⟩

end TcpNet

open TcpNet TcpTable

/-- In every run in which these calls find free the endpoints they give to a slot, with any segments from the network:
    no two connections neither closed nor listening have the same endpoints, no two listen on one port, and the lookup
    of a connection or a listener finds it. -/
theorem endpoints_unique (ops : List TcpOp) (h : Guarded step EndpointsFree {} ops) (pre : List TcpOp)
    (hpre : pre <+: ops) : let s := (run step {} pre).table
    (∀ i < maxTcpConns, ∀ j < maxTcpConns, i ≠ j → (s.conns i).live → (s.conns j).live →
      (s.conns i).endpoint ≠ (s.conns j).endpoint) ∧
    (∀ i < maxTcpConns, ∀ j < maxTcpConns, i ≠ j → (s.conns i).listens → (s.conns j).listens →
      (s.conns i).localPort ≠ (s.conns j).localPort) ∧
    (∀ j < maxTcpConns, (s.conns j).live →
      s.findConn (s.conns j).localPort (s.conns j).remoteIp (s.conns j).remotePort = some j) ∧
    ∀ j < maxTcpConns, (s.conns j).listens → s.findListener (s.conns j).localPort = some j := by
  obtain ⟨post, rfl⟩ := hpre
  intro s
  have hstep (s : TcpNet) (op : TcpOp) (hs : s.table.Distinct) (hop : s.EndpointsFree op) :
      (s.step op).table.Distinct := distinct_step hs hop
  have hs : s.Distinct := Guarded.invariant hstep distinct_empty (guarded_append.mp h).1
  refine ⟨fun i hi j hj hij hlive hlive' => ?_, hs.ports, fun j hj => hs.findConn hj, fun j hj => hs.findListener hj⟩
  exact hs.apart i hi j hj hij (live.inUse hlive) hlive'

def clientSyn : Segment := { srcPort := 5000, dstPort := 80, seq := 1000, flags := { syn := true } }

theorem endpoints_unique_accept : let ops : List TcpOp := [.socket, .listen 0 80, .rx 0x0A000202 clientSyn, .accept 0]
    let s := (run step {} ops).table
    ((s.conns 0).listens ∧ (s.conns 1).live) ∧ s.findConn 80 0x0A000202 5000 = some 1 := by
  intro ops s
  have h := endpoints_unique ops (by decide +kernel) ops (prefix_refl _)
  exact ⟨by decide +kernel, h.2.2.1 1 (by decide) (by decide +kernel)⟩

/-- The SYN comes twice, and both backlog entries are accepted. -/
theorem duplicate_syn_accepted : let ops : List TcpOp :=
      [.socket, .listen 0 80, .rx 0x0A000202 clientSyn, .rx 0x0A000202 clientSyn, .accept 0, .accept 0]
    let s := (run step {} ops).table
    ((s.conns 1).live ∧ (s.conns 2).live) ∧ (s.conns 1).endpoint = (s.conns 2).endpoint := by
  decide +kernel

end Limnx
