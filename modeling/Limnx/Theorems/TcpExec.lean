import Limnx.Tcp

/-! # Reasoning about functions of a connection

`TcpProg.Holds Q env R p`: the program meets `Q` at every segment it sends and ends in `R`, when the connection changes
during a send only as `env` allows. -/

namespace Limnx

namespace TcpProg
variable {α β : Type} {Q Q' : TcpConn → Segment → Prop} {env : TcpConn → TcpConn → Prop}
  {R R' : α → TcpConn → Prop} {p : TcpProg α}

def Holds (Q : TcpConn → Segment → Prop) (env : TcpConn → TcpConn → Prop) (R : α → TcpConn → Prop) : TcpProg α → Prop
  | done a c => R a c
  | send seg c k => Q c seg ∧ ∀ c', env c c' → Holds Q env R (k c')

theorem bind_holds {R : β → TcpConn → Prop} (p : TcpProg α) (f : α → TcpConn → TcpProg β) :
    Holds Q env R (p.bind f) ↔ Holds Q env (fun a c => Holds Q env R (f a c)) p := by
  induction p with
  | done a c => exact Iff.rfl
  | send seg c k ih => simp only [bind, Holds, ih]

theorem Holds.imp (hQ : ∀ c seg, Q c seg → Q' c seg) (hR : ∀ a c, R a c → R' a c)
    (h : Holds Q env R p) : Holds Q' env R' p := by
  induction p with
  | done a c => exact hR a c h
  | send seg c k ih => exact ⟨hQ c seg h.1, fun c' hc' => ih c' (h.2 c' hc')⟩

theorem Holds.mono (hR : ∀ a c, R a c → R' a c) (h : Holds Q env R p) : Holds Q env R' p := h.imp (fun _ _ => id) hR

theorem Holds.rely {I J : TcpConn → Prop} (h : Holds (fun c _ => I c) (fun _ c' => J c') R p) :
    Holds (fun _ _ => True) (fun c c' => I c → J c') R p := by
  induction p with
  | done a c => exact h
  | send seg c k ih => exact ⟨trivial, fun c' hc' => ih c' (h.2 c' (hc' h.1))⟩

theorem Holds.exec {Q : Segment → Prop} (h : Holds (fun _ => Q) Eq R p) :
    R p.exec.1 p.exec.2.1 ∧ ∀ seg ∈ p.exec.2.2, Q seg := by
  induction p with
  | done a c => exact ⟨h, by simp [TcpProg.exec]⟩
  | send seg c k ih =>
    obtain ⟨hR, hQ⟩ := ih c (h.2 c rfl)
    refine ⟨hR, fun s hs => ?_⟩
    rcases List.mem_cons.mp hs with rfl | hs
    · exact h.1
    · exact hQ s hs

end TcpProg

namespace TcpM
variable {Q : TcpConn → Segment → Prop} {env : TcpConn → TcpConn → Prop} {c : TcpConn}

open TcpProg

@[simp] theorem holds_transmit {R : Unit → TcpConn → Prop} {seg : Segment} :
    Holds Q env R (transmit seg c) ↔ Q c seg ∧ ∀ c', env c c' → R () c' := Iff.rfl

/-- How the steps of a function come into `Holds`. -/
@[simp] theorem holds_steps :
    (∀ {α : Type} {R : α → TcpConn → Prop} {a : α}, Holds Q env R ((pure a : TcpM α) c) ↔ R a c) ∧
    (∀ {α β : Type} {R : β → TcpConn → Prop} {m : TcpM α} {f : α → TcpM β},
      Holds Q env R ((m >>= f) c) ↔ Holds Q env (fun a c => Holds Q env R (f a c)) (m c)) ∧
    (∀ {R : TcpConn → TcpConn → Prop}, Holds Q env R ((get : TcpM TcpConn) c) ↔ R c c) ∧
    (∀ {R : PUnit → TcpConn → Prop} {c' : TcpConn}, Holds Q env R ((set c' : TcpM PUnit) c) ↔ R ⟨⟩ c') ∧
    (∀ {R : PUnit → TcpConn → Prop} {f : TcpConn → TcpConn},
      Holds Q env R ((modify f : TcpM PUnit) c) ↔ R ⟨⟩ (f c)) ∧
    ∀ {α : Type} {R : α → TcpConn → Prop} {p : Prop} [Decidable p] {m m' : TcpM α},
      Holds Q env R ((if p then m else m') c) ↔ if p then Holds Q env R (m c) else Holds Q env R (m' c) := by
  refine ⟨Iff.rfl, bind_holds _ _, Iff.rfl, Iff.rfl, Iff.rfl, ?_⟩
  intros
  split <;> rfl

end TcpM

section Network
variable {Q : TcpConn → Segment → Prop} {R : Unit → TcpConn → Prop} {c : TcpConn}

open TcpProg

@[simp] theorem holds_tcpSendSegment {flags : TcpFlags} {data : List UInt8} :
    Holds Q Eq R (tcpSendSegment flags data c) ↔
      Q { c with rcvWnd := tcpCalcRcvWnd c } (TcpConn.segment { c with rcvWnd := tcpCalcRcvWnd c } flags data) ∧
        R () { c with rcvWnd := tcpCalcRcvWnd c } := by
  simp [tcpSendSegment]

@[simp] theorem holds_tcpSendAck :
    Holds Q Eq R (tcpSendAck c) ↔
      Q { c with rcvWnd := tcpCalcRcvWnd c } (TcpConn.segment { c with rcvWnd := tcpCalcRcvWnd c } { ack := true } []) ∧
        R () { c with rcvWnd := tcpCalcRcvWnd c } :=
  holds_tcpSendSegment

end Network

end Limnx
