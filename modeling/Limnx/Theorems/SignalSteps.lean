import Limnx.Signals

/-! The cases of a step, of a signal check and of `sys_sigreturn`. -/

namespace Limnx.Signals

open BitVec Bool List

/-- A handler that `sys_sigaction` accepts. -/
def SigAction.Accepted (a : SigAction) : Prop := a.handler ≤ sigIgn ∨ a.handler.toNat < userAddrMax

namespace SigState

variable {s t : SigState} {sig x : Nat} {alloc : Option Nat} {call : Call} {result : U64}
  {rest : List Activation}

inductive StepCase (s : SigState) : SigOp → SigState → Prop
  | same (op : SigOp) : StepCase s op s
  | deliver (sig : Nat) : StepCase s (.deliver sig) (s.processDeliverSignal sig)
  | user (ctx : UserCtx) (pages : Nat → Option UserPage) (mem : Nat → U64) :
      s.active = [] → ctx.userMode s.arch → StepCase s (.user ctx pages mem) { s with ctx, pages, mem }
  | syscall (call : Call) : s.active = [] → StepCase s (.syscall call) { s with active := [{ call }] }
  | refuse (call : Call) (rest : List Activation) :
      s.active = { call } :: rest → call.num ≠ s.arch.sysRtSigreturn →
        StepCase s .refuse (s.finish (s.refusal call) rest)
  | body (o : Outcome) (call : Call) (rest : List Activation) :
      s.active = { call } :: rest → s.arch.hasHandler call.num → StepCase s (.body o) (s.body call o)
  | check (alloc : Option Nat) (call : Call) (result : U64) (rest : List Activation) :
      s.active = { call, result := some result } :: rest →
        StepCase s (.check alloc) ((s.signalCheck alloc call result).finish result rest)
  | killed (alloc : Option Nat) (call : Call) (result : U64) (rest : List Activation) :
      s.active = { call, result := some result } :: rest → (s.signalCheck alloc call result).exited →
        StepCase s (.check alloc) (s.signalCheck alloc call result)

theorem step_cases (s : SigState) (op : SigOp) : StepCase s op (s.step op) := by
  unfold step
  split
  · exact .same op
  split
  · exact .deliver _
  · split
    · exact .user _ _ _ ‹_› ‹_›
    · exact .same _
  · exact .syscall _ ‹_›
  · split
    · exact .same _
    · exact .refuse _ _ ‹_› ‹_›
  · split
    · exact .body _ _ _ ‹_› ‹_›
    · exact .same _
  · dsimp only
    split
    · exact .killed _ _ _ _ ‹_› ‹_›
    · exact .check _ _ _ _ ‹_›
  · exact .same _

theorem getLsbD_sigBit (h : sig < maxSignals) : (sigBit sig).getLsbD x = decide (sig = x) := by
  have h32 : sig < 32 := h
  change (twoPow 32 sig).getLsbD x = _
  simp [getLsbD_twoPow, h32]

theorem getLsbD_setBit {p : U32} (h : sig < maxSignals) :
    (p ||| sigBit sig).getLsbD x = (p.getLsbD x || decide (sig = x)) := by
  rw [getLsbD_or, getLsbD_sigBit h]

theorem getLsbD_clearBit {p : U32} (h : sig < maxSignals) :
    (p &&& ~~~sigBit sig).getLsbD x = (p.getLsbD x && !decide (sig = x)) := by
  rw [getLsbD_and, getLsbD_not, getLsbD_sigBit h]
  cases hx : p.getLsbD x with
  | false => rfl
  | true => simp [lt_of_getLsbD hx]

def withPending (s : SigState) (pending : U32) (queue : SignalQueue) : SigState := { s with pending, queue }

theorem deliver_eq (s : SigState) (sig : Nat) :
    ∃ pending queue exited deliveries,
      s.processDeliverSignal sig = { s.withPending pending queue with exited, deliveries } := by
  refine ⟨(s.processDeliverSignal sig).pending, (s.processDeliverSignal sig).queue,
    (s.processDeliverSignal sig).exited, (s.processDeliverSignal sig).deliveries, ?_⟩
  unfold processDeliverSignal
  dsimp only
  repeat' split
  all_goals rfl

theorem getLsbD_takeSignal (hsig : sig < maxSignals) (hpend : s.pending.getLsbD sig)
    (h : (s.takeSignal sig).pending.getLsbD x) : s.pending.getLsbD x := by
  unfold takeSignal at h
  split at h
  · simp only [getLsbD_setBit hsig, getLsbD_clearBit hsig, or_eq_true, and_eq_true, decide_eq_true_iff] at h
    rcases h with h | rfl
    · exact h.1
    · exact hpend
  · simp only [getLsbD_clearBit hsig, and_eq_true] at h
    exact h.1

def withMemory (s : SigState) (pages : Nat → Option UserPage) (mem : Nat → U64) : SigState :=
  { s with pages, mem }

theorem takeSignal_eq (s : SigState) (sig : Nat) :
    s.takeSignal sig = s.withPending (s.takeSignal sig).pending (s.takeSignal sig).queue := by
  unfold takeSignal
  split <;> rfl

theorem breakCow_eq_some {page : Nat} (h : s.breakCow alloc page = some t) :
    t = s.withMemory t.pages t.mem ∧ (t.pages page).isSome := by
  unfold breakCow at h
  split at h
  · cases h
  rename_i p hp
  split at h
  · cases h
    exact ⟨rfl, by rw [hp]; rfl⟩
  split at h
  · cases h
    exact ⟨rfl, by simp⟩
  · obtain ⟨new, -, rfl⟩ := Option.map_eq_some_iff.mp h
    exact ⟨rfl, by simp⟩

theorem breakCow_withPending {page : Nat} (pending : U32) (queue : SignalQueue) :
    (s.withPending pending queue).breakCow alloc page =
      (s.breakCow alloc page).map fun u => u.withPending pending queue := by
  unfold breakCow withPending
  cases s.pages page with
  | none => rfl
  | some p =>
    simp only
    split
    · rfl
    split
    · rfl
    · cases alloc <;> rfl

@[mk_iff]
structure Catches (s : SigState) (sig : Nat) : Prop where
  lt : sig < maxSignals
  deliverable : s.deliverable sig
  ign : (s.handlers sig).handler ≠ sigIgn
  dfl : (s.handlers sig).handler ≠ sigDfl

instance (s : SigState) (sig : Nat) : Decidable (s.Catches sig) := decidable_of_iff' _ (catches_iff s sig)

/-- The ends of a signal check. Either no handler is entered: signals may have been dropped, and memory has changed only
    if a signal has a handler while the depth is exhausted. Or a frame is pushed for an unmasked signal that has a
    handler. -/
inductive CheckCase (s : SigState) (alloc : Option Nat) (call : Call) (result : U64) : SigState → Prop
  | quiet (pending : U32) (queue : SignalQueue) (exited : Bool) (pages : Nat → Option UserPage)
      (mem : Nat → U64) :
      ((∀ sig, s.Catches sig → s.frames.length < maxSignalDepth) → pages = s.pages ∧ mem = s.mem) →
        CheckCase s alloc call result { (s.withPending pending queue).withMemory pages mem with exited }
  | entered (pending : U32) (queue : SignalQueue) (sig : Nat) (u : SigState) (n : Nat) :
      s.frames.length < maxSignalDepth → sig < maxSignals → s.deliverable sig →
        (s.handlers sig).handler ≠ sigIgn → (s.handlers sig).handler ≠ sigDfl →
        s.breakCow alloc (pageOf (frameAddr s.arch s.ctx.sp).toNat) = some u →
        u.wordAddr (frameAddr s.arch s.ctx.sp) = some n →
        CheckCase s alloc call result
          { s.withPending pending queue with
            pages := u.pages
            mem := writeWords u.mem n s.arch.frameLen (frameWords s.arch s.ctx result)
            frames := frameAddr s.arch s.ctx.sp :: s.frames
            restart := if result = BitVec.ofInt 64 (-EINTR) ∧ (s.handlers sig).restart then some call else none
            slot := some
              { handler := (s.handlers sig).handler, frame := frameAddr s.arch s.ctx.sp, sig } }

theorem CheckCase.idle (pending : U32) (queue : SignalQueue) (exited : Bool) :
    CheckCase s alloc call result { s.withPending pending queue with exited } :=
  .quiet pending queue exited s.pages s.mem fun _ => ⟨rfl, rfl⟩

theorem pushFrame_cases (pending : U32) (queue : SignalQueue) (hlt : sig < maxSignals) (hdel : s.deliverable sig)
    (hign : (s.handlers sig).handler ≠ sigIgn) (hdfl : (s.handlers sig).handler ≠ sigDfl) :
    CheckCase s alloc call result ((s.withPending pending queue).pushFrame alloc call result sig) := by
  have haddr : frameAddr (s.withPending pending queue).arch (s.withPending pending queue).ctx.sp =
      frameAddr s.arch s.ctx.sp := rfl
  rw [pushFrame, haddr, breakCow_withPending]
  cases hcow : s.breakCow alloc (pageOf (frameAddr s.arch s.ctx.sp).toNat) with
  | none => exact .idle pending queue s.exited
  | some u =>
    obtain ⟨hu, hpage⟩ := breakCow_eq_some hcow
    obtain ⟨p, hp⟩ := Option.isSome_iff_exists.mp hpage
    -- the page is there, so the frame is written
    have hword : u.wordAddr (frameAddr s.arch s.ctx.sp) =
        some ((p.phys + (frameAddr s.arch s.ctx.sp).toNat % pageSize) / 8) := by
      rw [wordAddr, hp]
      rfl
    have hword' : (u.withPending pending queue).wordAddr (frameAddr s.arch s.ctx.sp) = _ := hword
    rw [Option.map_some]
    dsimp only
    rw [hword']
    change CheckCase s alloc call result ((u.withPending pending queue).enterFrame sig call result _ _)
    have hframes : (u.withPending pending queue).frames = s.frames := by
      rw [hu]
      rfl
    by_cases hdepth : s.frames.length < maxSignalDepth
    · rw [enterFrame, if_pos (hframes ▸ hdepth)]
      have h : CheckCase s alloc call result _ := .entered pending queue sig u _ hdepth hlt hdel hign hdfl hcow hword
      rw [hu] at h ⊢
      exact h
    · rw [enterFrame, if_neg (hframes ▸ hdepth), hu]
      exact .quiet pending queue s.exited u.pages (writeWords u.mem _ _ _) fun h => absurd (h sig ⟨hlt, hdel, hign, hdfl⟩) hdepth

theorem actOn_cases (s : SigState) (alloc : Option Nat) (call : Call) (result : U64) (sig : Nat) :
    s.actOn alloc call result sig = (s, true) ∨
      (∃ exited, s.actOn alloc call result sig = ({ s with exited }, false)) ∨
      ((s.handlers sig).handler ≠ sigIgn ∧ (s.handlers sig).handler ≠ sigDfl ∧
        s.actOn alloc call result sig = (s.pushFrame alloc call result sig, false)) := by
  unfold actOn
  split
  · exact .inl rfl
  split
  · split
    · exact .inl rfl
    split
    · exact .inr (.inl ⟨s.exited, rfl⟩)
    · exact .inr (.inl ⟨true, rfl⟩)
  · exact .inr (.inr ⟨‹_›, ‹_›, rfl⟩)

theorem checkLoop_cases {sigs : List Nat} (hlt : ∀ sig ∈ sigs, sig < maxSignals) {pending : U32}
    (queue : SignalQueue) (hsub : ∀ x, pending.getLsbD x → s.pending.getLsbD x) :
    CheckCase s alloc call result (checkLoop alloc call result sigs (s.withPending pending queue)) := by
  -- on the numbers that are left: what was taken so far shows in the pending bits and the queue only
  induction sigs generalizing pending queue with
  | nil => exact .idle pending queue s.exited
  | cons sig sigs ih =>
    have hlt' : ∀ x ∈ sigs, x < maxSignals := fun x hx => hlt x (mem_cons_of_mem _ hx)
    unfold checkLoop
    split
    next hdel =>
      obtain ⟨hpend, hunmasked⟩ := and_eq_true_iff.mp hdel
      have hdel' : s.deliverable sig := and_eq_true_iff.mpr ⟨hsub sig hpend, hunmasked⟩
      have hsub' (x : Nat) (hx : ((s.withPending pending queue).takeSignal sig).pending.getLsbD x) :
          s.pending.getLsbD x := hsub x (getLsbD_takeSignal (hlt sig mem_cons_self) hpend hx)
      rw [takeSignal_eq]
      generalize ((s.withPending pending queue).takeSignal sig).pending = pending' at hsub'
      generalize ((s.withPending pending queue).takeSignal sig).queue = queue'
      change CheckCase s alloc call result
        (if ((s.withPending pending' queue').actOn alloc call result sig).2 then
          checkLoop alloc call result sigs ((s.withPending pending' queue').actOn alloc call result sig).1
        else ((s.withPending pending' queue').actOn alloc call result sig).1)
      obtain h | ⟨exited, h⟩ | ⟨hign, hdfl, h⟩ := actOn_cases (s.withPending pending' queue') alloc call result sig
      · rw [h]
        exact ih hlt' queue' hsub'
      · rw [h]
        exact .idle pending' queue' exited
      · rw [h]
        exact pushFrame_cases pending' queue' (hlt sig mem_cons_self) hdel' hign hdfl
    · exact ih hlt' queue hsub

theorem signalCheck_cases (s : SigState) (alloc : Option Nat) (call : Call) (result : U64) :
    CheckCase s alloc call result (s.signalCheck alloc call result) := by
  refine checkLoop_cases (fun sig hsig => ?_) s.queue fun _ h => h
  have hrange := (mem_range'_1.mp hsig).2
  exact hrange

inductive SigreturnCase (s : SigState) : SigState → Prop
  | failed : (∀ f fs, s.frames = f :: fs → f = 0 ∨ s.readFrame f = none) →
      SigreturnCase s ({ s with frames := s.frames.tail }.answer (-1))
  | restored (f : U64) (fs : List U64) (w : Nat → U64) :
      s.frames = f :: fs → f ≠ 0 → s.readFrame f = some w → (∀ c, s.restart = some c → sysNr ≤ c.num) →
        SigreturnCase s
          ({ s with frames := fs, restart := none, ctx := frameCtx s.arch s.ctx w }.answer (frameResult s.arch w))
  | rerun (f : U64) (fs : List U64) (w : Nat → U64) (c : Call) :
      s.frames = f :: fs → f ≠ 0 → s.readFrame f = some w → s.restart = some c → c.num < sysNr →
        SigreturnCase s
          { s with
            frames := fs, restart := none, ctx := frameCtx s.arch s.ctx w, active := { call := c } :: s.active }

theorem sigreturn_cases (s : SigState) : SigreturnCase s s.sysSigreturn := by
  unfold sysSigreturn
  split
  next hf =>
    have hs : ({ s with frames := s.frames.tail } : SigState) = s := by
      cases s
      cases hf
      rfl
    have h : SigreturnCase s ({ s with frames := s.frames.tail }.answer (-1)) :=
      .failed fun f fs h => by rw [hf] at h; cases h
    rwa [hs] at h
  rename_i f fs hf
  have hfail (hno : f = 0 ∨ s.readFrame f = none) : SigreturnCase s ({ s with frames := fs }.answer (-1)) := by
    have h : SigreturnCase s ({ s with frames := s.frames.tail }.answer (-1)) :=
      .failed fun f' fs' h => by
        obtain ⟨rfl, rfl⟩ := List.cons.inj (hf.symm.trans h)
        exact hno
    rwa [hf] at h
  dsimp only
  split
  · exact hfail (.inl ‹_›)
  rename_i hf0
  split
  · exact hfail (.inr ‹_›)
  rename_i w hw
  split
  next c hc =>
    split
    · exact .rerun f fs w c hf hf0 hw hc ‹_›
    refine .restored f fs w hf hf0 hw fun c' hc' => ?_
    cases hc.symm.trans hc'
    exact Nat.le_of_not_gt ‹_›
  next hnone =>
    have h : SigreturnCase s ({ s with frames := fs, restart := none, ctx := frameCtx s.arch s.ctx w }.answer
        (frameResult s.arch w)) :=
      .restored f fs w hf hf0 hw fun c hc => by rw [hnone] at hc; cases hc
    rwa [← hnone] at h

def Answers (s t : SigState) : Prop :=
  ∃ handlers mask r, t = { s with handlers, mask }.answer r ∧
    ∀ sig, handlers sig = s.handlers sig ∨ (handlers sig).Accepted

theorem Answers.of_mask (mask : U32) (r : U64) : Answers s ({ s with mask }.answer r) :=
  ⟨s.handlers, mask, r, rfl, fun _ => .inl rfl⟩

theorem Answers.of_answer (r : U64) : Answers s (s.answer r) := .of_mask s.mask r

theorem Answers.handlers (h : Answers s t) (hs : ∀ sig, (s.handlers sig).Accepted) (sig : Nat) :
    (t.handlers sig).Accepted := by
  obtain ⟨handlers, mask, r, rfl, hacc⟩ := h
  rcases hacc sig with heq | hacc
  · change (handlers sig).Accepted
    rw [heq]
    exact hs sig
  · exact hacc

theorem answer_active (h : s.active = { call } :: rest) :
    (s.answer result).active = { call, result := some result } :: rest := by
  rw [answer, h]
  rfl

theorem Answers.active (h : Answers s t) (hs : s.active = { call } :: rest) :
    ∃ result, t.active = { call, result := some result } :: rest := by
  obtain ⟨handlers, mask, r, rfl, -⟩ := h
  exact ⟨r, answer_active hs⟩

theorem sysSigaction_answers (s : SigState) (c : Call) : Answers s (s.sysSigaction c) := by
  unfold sysSigaction
  dsimp only
  split
  · exact .of_answer _
  split
  · exact .of_answer _
  rename_i hok
  refine ⟨_, s.mask, _, rfl, fun sig => ?_⟩
  by_cases hsig : sig = (c.arg 0).toNat
  · right
    rw [hsig, Function.update_self]
    have hle : c.arg 1 ≤ sigIgn ∨ (c.arg 1).toNat < userAddrMax := by
      by_cases hign : c.arg 1 ≤ sigIgn
      · exact .inl hign
      · exact .inr (Nat.lt_of_not_ge fun hmax => hok ⟨BitVec.not_le.mp hign, hmax⟩)
    exact hle
  · exact .inl (Function.update_of_ne hsig ..)

theorem sysSigprocmask_answers (s : SigState) (c : Call) : Answers s (s.sysSigprocmask c) := by
  unfold sysSigprocmask
  dsimp only
  split
  · exact .of_answer _
  split
  · exact .of_mask _ _
  split
  · exact .of_mask _ _
  split
  · exact .of_mask _ _
  · exact .of_answer _

theorem body_answers (o : Outcome) (h : call.num ≠ s.arch.sysRtSigreturn) :
    Answers (s.withMemory o.pages o.mem) (s.body call o) := by
  unfold body
  rw [if_neg h]
  change Answers _ (if call.num = s.arch.sysRtSigaction then (s.withMemory o.pages o.mem).sysSigaction call
    else if call.num = s.arch.sysRtSigprocmask then (s.withMemory o.pages o.mem).sysSigprocmask call
    else (s.withMemory o.pages o.mem).answer o.result)
  split
  · exact sysSigaction_answers _ _
  split
  · exact sysSigprocmask_answers _ _
  · exact .of_answer _

theorem body_sigreturn (o : Outcome) (h : call.num = s.arch.sysRtSigreturn) : s.body call o = s.sysSigreturn := if_pos h

theorem finish_arch : (s.finish result rest).arch = s.arch := by
  cases rest with
  | cons => rfl
  | nil =>
    change (s.returnToUser result).arch = s.arch
    unfold returnToUser
    split <;> rfl

theorem signalCheck_arch : (s.signalCheck alloc call result).arch = s.arch := by
  have hcase := signalCheck_cases s alloc call result
  generalize s.signalCheck alloc call result = t at hcase
  cases hcase with
  | quiet => rfl
  | entered => rfl

theorem body_arch (o : Outcome) : (s.body call o).arch = s.arch := by
  by_cases hnum : call.num = s.arch.sysRtSigreturn
  · rw [body_sigreturn o hnum]
    have hret := sigreturn_cases s
    generalize s.sysSigreturn = t at hret
    cases hret with
    | failed | restored | rerun => rfl
  · obtain ⟨handlers, mask, r, hbody, -⟩ := body_answers o hnum
    rw [hbody]
    rfl

theorem step_arch (s : SigState) (op : SigOp) : (s.step op).arch = s.arch := by
  have hcase := step_cases s op
  generalize s.step op = t at hcase
  cases hcase with
  | same => rfl
  | deliver sig =>
    obtain ⟨pending, queue, exited, deliveries, heq⟩ := deliver_eq s sig
    rw [heq]
    rfl
  | user => rfl
  | syscall => rfl
  | refuse => exact finish_arch
  | body o => exact body_arch o
  | check => exact finish_arch.trans signalCheck_arch
  | killed => exact signalCheck_arch

theorem step_of_sigreturn (hactive : s.active = { call } :: rest)
    (hnum : call.num = s.arch.sysRtSigreturn) (op : SigOp) :
    (∃ pending queue exited deliveries, s.step op = { s.withPending pending queue with exited, deliveries }) ∨
      s.step op = s.sysSigreturn := by
  have hcase := step_cases s op
  generalize s.step op = t at hcase
  cases hcase with
  | same => exact .inl ⟨s.pending, s.queue, s.exited, s.deliveries, rfl⟩
  | deliver sig => exact .inl (deliver_eq s sig)
  | user _ _ _ h | syscall _ h => cases hactive.symm.trans h
  | refuse call' _ h hother =>
    cases hactive.symm.trans h
    exact absurd hnum hother
  | body o call' _ h =>
    cases hactive.symm.trans h
    exact .inr (body_sigreturn o hnum)
  | check _ _ _ _ h | killed _ _ _ _ h => cases hactive.symm.trans h

end SigState

end Limnx.Signals
