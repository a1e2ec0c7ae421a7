import Limnx.Theorems.TcpExec

/-! # The sending side of a TCP connection -/

namespace Limnx

open TcpProg TcpM TcpState TcpConn

/-- A unit of the sequence numbers: a byte, or one of the flags that take a number. -/
inductive SeqItem
  | byte (b : UInt8) | syn | fin
deriving DecidableEq

def Segment.items (seg : Segment) : List SeqItem :=
  (if seg.flags.syn then [.syn] else []) ++ seg.payload.map .byte ++ (if seg.flags.fin then [.fin] else [])

structure SndSide where
  inUse : Bool
  state : TcpState
  una : U32
  nxt : U32
  txBuf : List UInt8
  txBufSeq : U32
  retransmitCount : Nat

variable (c : TcpConn)

def TcpConn.snd : SndSide :=
  { inUse := c.inUse, state := c.state, una := c.sndUna, nxt := c.sndNxt, txBuf := c.txBuf,
    txBufSeq := c.txBufSeq, retransmitCount := c.retransmitCount }

inductive RxSnd (v : SndSide) : SndSide → Prop
  | stay (st : TcpState) (b : Bool) (hb : b = true → v.inUse = true)
    (hst : st ∈ [v.state, closed, .closeWait] ∨
      (v.state ∈ [finWait1, .finWait2, .closing] ∧ st ∈ [timeWait, .closing])) :
    RxSnd v { v with state := st, inUse := b }
  | acked (a : U32) (n : Nat) (hst : v.state ∈ [established, .closeWait]) (hlo : v.una < a)
    (hhi : a ≤ v.nxt) (hn : n ≤ v.retransmitCount) : RxSnd v { v with una := a, retransmitCount := n }
  /-- The SYN, or the FIN and all before it, is acknowledged. -/
  | caughtUp (st : TcpState) (n : Nat)
    (hst : (v.state = .synSent ∧ st = .established) ∨ (v.state = .finWait1 ∧ st ∈ [timeWait, .finWait2])) :
    RxSnd v { v with una := v.nxt, state := st, retransmitCount := n }
  | opened (a : U32) (hst : v.state = .synReceived) :
    RxSnd v { v with una := a, nxt := a, state := .established, retransmitCount := 0 }

def TcpConn.endpoint : U16 × U32 × U16 := (c.localPort, c.remoteIp, c.remotePort)

theorem RxSnd.refl (v : SndSide) : RxSnd v v := .stay v.state v.inUse id (by simp)

theorem RxSnd.state {v v' : SndSide} (h : RxSnd v v') (hv : v.state ∈ [established, .closeWait, .closed]) :
    v'.state ∈ [established, .closeWait, .closed] := by
  cases h with
  | stay st b hb hst =>
    rcases hst with hst | ⟨hold, -⟩
    · rcases List.mem_cons.mp hst with rfl | hst
      · exact hv
      · exact List.mem_cons_of_mem _ (by simpa [or_comm] using hst)
    · revert hv hold
      cases v.state <;> simp
  | acked => exact hv
  | caughtUp st n hst => rcases hst with ⟨hs, -⟩ | ⟨hs, -⟩ <;> simp [hs] at hv
  | opened a hst => simp [hst] at hv

theorem rxData_snd (payload : List UInt8) :
    (c.rxData payload).snd = c.snd ∧ (c.rxData payload).endpoint = c.endpoint := by
  have hfold : ∀ (bytes : List UInt8) (c : TcpConn), (bytes.foldl rxPush c).snd = c.snd ∧
      (bytes.foldl rxPush c).endpoint = c.endpoint := by
    intro bytes
    induction bytes with
    | nil => intro c; exact ⟨rfl, rfl⟩
    | cons b bytes ih => intro c; exact ih _
  exact hfold _ c

theorem rxPop_snd (n : Nat) (c : TcpConn) : (c.rxPop n).2.snd = c.snd := by
  induction n generalizing c with
  | zero => rfl
  | succ n ih => exact ih _

section Rx
variable {I : TcpConn → Prop} {env : TcpConn → TcpConn → Prop} {c c' : TcpConn} {seg : Segment}
  {R : Unit → TcpConn → Prop}

def KeepsRx (I : TcpConn → Prop) (env : TcpConn → TcpConn → Prop) (p : TcpProg Unit) : Prop :=
  Holds (fun c seg => I c ∧ seg.items = []) env (fun _ c' => I c') p

variable (hI : ∀ c c' : TcpConn, RxSnd c.snd c'.snd → c'.endpoint = c.endpoint → I c → I c')
include hI

theorem RxSnd.same (h : I c) (hsnd : c'.snd = c.snd) (hend : c'.endpoint = c.endpoint) : I c' :=
  hI c c' (hsnd ▸ .refl _) hend h

theorem RxSnd.setState (st : TcpState) (h : I c) (hst : st ∈ [c.state, closed, .closeWait] ∨
      (c.state ∈ [finWait1, .finWait2, .closing] ∧ st ∈ [timeWait, .closing]))
    (hsnd : c'.snd = { c.snd with state := st }) (hend : c'.endpoint = c.endpoint) : I c' :=
  hI c c' (hsnd ▸ .stay st c.inUse id hst) hend h

theorem RxSnd.free (h : I c) (hsnd : c'.snd = { c.snd with state := .closed, inUse := false })
    (hend : c'.endpoint = c.endpoint) : I c' :=
  hI c c' (hsnd ▸ .stay .closed false (by simp) (by simp)) hend h

variable (henv : ∀ c c', env c c' → I c → I c')
include henv

theorem holds_sendAck_kept (h : I c) (hR : ∀ c', I c' → R () c') :
    Holds (fun c seg => I c ∧ seg.items = []) env R (tcpSendAck c) := by
  have hwnd : I { c with rcvWnd := tcpCalcRcvWnd c } := RxSnd.same hI h rfl rfl
  exact ⟨⟨hwnd, rfl⟩, fun c' hc' => hR c' (henv _ c' hc' hwnd)⟩

theorem keepsRx_establishedData (h : I c) : KeepsRx I env (tcpEstablishedData seg c) := by
  have hfin : ∀ c' : TcpConn, I c' →
      if seg.flags.fin = true then
        KeepsRx I env (tcpSendAck { c' with rcvNxt := seg.finNxt, finReceived := true, state := .closeWait })
      else I c' := by
    intro c' hc'
    split
    · exact holds_sendAck_kept hI henv (RxSnd.setState hI .closeWait hc' (by simp) rfl rfl) fun _ => id
    · exact hc'
  simp only [KeepsRx, tcpEstablishedData, holds_steps]
  split
  · refine holds_sendAck_kept hI henv ?_ hfin
    split
    · exact RxSnd.same hI h (rxData_snd c _).1 (rxData_snd c _).2
    · exact h
  · exact hfin c h

theorem keepsRx_synSent (hst : c.state = .synSent) (h : I c) : KeepsRx I env (tcpRxSynSent seg c) := by
  simp only [KeepsRx, tcpRxSynSent, holds_steps]
  split
  · split
    next hack =>
      rw [hack]
      exact holds_sendAck_kept hI henv (hI c _ (.caughtUp .established 0 (.inl ⟨hst, rfl⟩)) rfl h) fun _ => id
    · exact h
  · split
    · exact RxSnd.setState hI .closed h (by simp) rfl rfl
    · exact h

theorem keepsRx_synReceived (hst : c.state = .synReceived) (h : I c) : KeepsRx I env (tcpRxSynReceived seg c) := by
  simp only [KeepsRx, tcpRxSynReceived, holds_steps]
  split
  · split
    next hack =>
      rw [hack]
      have hopen : I { c with
          sndUna := c.sndIss + 1, sndNxt := c.sndIss + 1, state := .established, retransmitCount := 0 } :=
        hI c _ (.opened (c.sndIss + 1) hst) rfl h
      split
      · exact keepsRx_establishedData hI henv hopen
      · exact hopen
    · exact h
  · split
    · exact RxSnd.setState hI .closed h (by simp) rfl rfl
    · exact h

theorem keepsRx_established (hst : c.state = .established) (h : I c) : KeepsRx I env (tcpRxEstablished seg c) := by
  simp only [KeepsRx, tcpRxEstablished, holds_steps]
  split
  · exact RxSnd.setState hI .closed h (by simp) rfl rfl
  split
  · split
    next hack =>
      refine keepsRx_establishedData hI henv (hI c _ (.acked seg.ackNum 0 ?_ hack.1 hack.2 (Nat.zero_le _)) rfl h)
      simp [snd, hst]
    · exact keepsRx_establishedData hI henv (RxSnd.same hI h rfl rfl)
  · exact keepsRx_establishedData hI henv h

theorem keepsRx_finWait1 (now : Nat) (hst : c.state = .finWait1) (h : I c) :
    KeepsRx I env (tcpRxFinWait1 now seg c) := by
  have hclosing : ∀ c' : TcpConn, I c' →
      if seg.flags.fin ∧ c'.state = .finWait1 then
        KeepsRx I env (tcpSendAck { c' with rcvNxt := seg.finNxt, state := .closing })
      else I c' := by
    intro c' hc'
    split
    next hc =>
      have hset : I { c' with rcvNxt := seg.finNxt, state := .closing } :=
        RxSnd.setState hI .closing hc' (.inr (by simp [hc.2])) rfl rfl
      exact holds_sendAck_kept hI henv hset fun _ => id
    · exact hc'
  have hacked : ∀ st ∈ [timeWait, .finWait2], ∀ c' : TcpConn,
      c'.snd = { c.snd with una := c.sndNxt, state := st } → c'.endpoint = c.endpoint → I c' := by
    intro st hmem c' hsnd hend
    exact hI c c' (hsnd ▸ .caughtUp st c.retransmitCount (.inr ⟨hst, hmem⟩)) hend h
  simp only [KeepsRx, tcpRxFinWait1, holds_steps]
  split
  · exact RxSnd.free hI h rfl rfl
  split
  next hack =>
    rw [hack.2]
    split
    · exact holds_sendAck_kept hI henv (hacked .timeWait (by simp) _ rfl rfl) hclosing
    · exact hclosing { c with sndUna := c.sndNxt, state := .finWait2 } (hacked .finWait2 (by simp) _ rfl rfl)
  · exact hclosing c h

theorem keepsRx_closeWait (hst : c.state = .closeWait) (h : I c) : KeepsRx I env (tcpRxCloseWait seg c) := by
  have hack : I { c.rxAck seg.ackNum with sndWnd := seg.window } := by
    unfold rxAck
    split
    next hack =>
      refine hI c _ (.acked seg.ackNum c.retransmitCount ?_ hack.1 hack.2 (Nat.le_refl _)) rfl h
      simp [snd, hst]
    · exact RxSnd.same hI h rfl rfl
  have hfin : ∀ c' : TcpConn, I c' → if seg.flags.fin = true then KeepsRx I env (tcpSendAck c') else I c' := by
    intro c' hc'
    split
    · exact holds_sendAck_kept hI henv hc' fun _ => id
    · exact hc'
  simp only [KeepsRx, tcpRxCloseWait, holds_steps]
  split
  · exact RxSnd.free hI h rfl rfl
  split
  · exact hfin _ hack
  · exact hfin c h

theorem keepsRx_rxConn (now : Nat) (src : U32) (h : I c) : KeepsRx I env (tcpRxConn now src seg c) := by
  simp only [KeepsRx, tcpRxConn, holds_steps]
  cases hst : c.state with
  | closed => exact h
  | listen =>
    split
    · exact RxSnd.setState hI .listen h (by simp [hst]) rfl rfl
    · exact h
  | synSent => exact keepsRx_synSent hI henv hst h
  | synReceived => exact keepsRx_synReceived hI henv hst h
  | established => exact keepsRx_established hI henv hst h
  | finWait1 => exact keepsRx_finWait1 hI henv now hst h
  | finWait2 =>
    simp only [tcpRxFinWait2, holds_steps]
    split
    · exact holds_sendAck_kept hI henv (RxSnd.setState hI .timeWait h (.inr (by simp [hst])) rfl rfl) fun _ => id
    · exact h
  | closeWait => exact keepsRx_closeWait hI henv hst h
  | lastAck =>
    simp only [tcpRxLastAck, holds_steps]
    split
    · exact RxSnd.free hI h rfl rfl
    · exact h
  | timeWait =>
    simp only [tcpRxTimeWait, holds_steps]
    split
    · exact holds_sendAck_kept hI henv h fun c' hc' => RxSnd.same hI hc' rfl rfl
    · exact h
  | closing =>
    simp only [tcpRxClosing, holds_steps]
    split
    · exact RxSnd.setState hI .timeWait h (.inr (by simp [hst])) rfl rfl
    · exact h

end Rx

def SendsAck (I : SndSide → Prop) (c : TcpConn) (seg : Segment) : Prop := I c.snd ∧ seg.items = []

end Limnx
