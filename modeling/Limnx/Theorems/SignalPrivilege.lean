import Limnx.Theorems.SignalSteps

/-! # The context that is resumed after `sys_sigreturn`

`sys_sigreturn` takes the program counter and the flags from the user stack, where the process can write any words. -/

namespace Limnx.Signals

theorem sysRtSigreturn_lt (arch : Arch) : arch.sysRtSigreturn < sysNr := by
  cases arch <;> decide

variable {arch : Arch}

namespace SigState
variable {s t : SigState} {alloc : Option Nat} {call : Call} {result : U64} {rest : List Activation}
  {w : Nat → U64}
  {call' : Call}

inductive KernelRun : SigState → SigState → Prop
  | refl (s : SigState) : KernelRun s s
  | step {s t : SigState} (op : SigOp) : s.active ≠ [] → KernelRun (s.step op) t → KernelRun s t

/-- The process calls `sys_sigreturn` in `s`, and `t` is the next state in user mode. -/
def Sigreturns (s t : SigState) : Prop :=
  ∃ args, KernelRun (s.step (.syscall { num := s.arch.sysRtSigreturn, args })) t ∧ t.active = []

def topFrame (s : SigState) : List U64 → Option (Nat → U64)
  | [] => none
  | f :: _ => if f = 0 then none else s.readFrame f

def RestartsSigreturn (s : SigState) : Prop := ∃ c, s.restart = some c ∧ c.num = s.arch.sysRtSigreturn

/-- The words that `sys_sigreturn` restores last: those of the top frame, or those of the one below it if the
    saved system call is a `sys_sigreturn` as well. -/
def Restores (s : SigState) (w : Nat → U64) : Prop :=
  ∃ w0, s.topFrame s.frames = some w0 ∧
    (¬ s.RestartsSigreturn ∧ w = w0 ∨ s.RestartsSigreturn ∧ w = (s.topFrame s.frames.tail).getD w0)

theorem userMode_frameCtx {c c' : UserCtx} :
    (frameCtx arch c w).userMode arch = (frameCtx arch c' w).userMode arch := by
  cases arch <;> rfl

structure Sealed (s : SigState) : Prop where
  ctx : s.ctx.userMode s.arch
  slot : ∀ d, s.slot = some d → d.handler.toNat < userAddrMax
  handlers : ∀ sig, (s.handlers sig).Accepted
  last : ∀ call rest, s.active = { call } :: rest → call.num ≠ s.arch.sysRtSigreturn

theorem Sealed.finish (hctx : s.ctx.userMode s.arch) (hslot : ∀ d, s.slot = some d → d.handler.toNat < userAddrMax)
    (hhandlers : ∀ sig, (s.handlers sig).Accepted) (rest : List Activation) : (s.finish result rest).Sealed := by
  cases rest with
  | cons a rest =>
    exact ⟨hctx, hslot, hhandlers, fun call rest' h => nomatch h⟩
  | nil =>
    change (s.returnToUser result).Sealed
    unfold returnToUser
    split
    · exact ⟨hctx, hslot, hhandlers, nofun⟩
    rename_i d hd
    refine ⟨?_, fun d' h => ?_, hhandlers, fun call rest' h => ?_⟩
    · unfold UserCtx.userMode at hctx ⊢
      rw [Bool.and_eq_true, decide_eq_true_iff] at hctx ⊢
      exact ⟨hctx.1, hslot d hd⟩
    · cases h
    · cases h

theorem handler_lt_of_accepted {a : SigAction} (h : a.Accepted) (hign : a.handler ≠ sigIgn)
    (hdfl : a.handler ≠ sigDfl) : a.handler.toNat < userAddrMax := by
  rcases h with h | h
  · have hle : a.handler.toNat ≤ 1 := h
    have h0 : a.handler.toNat ≠ 0 := fun h0 => hdfl (BitVec.eq_of_toNat_eq h0)
    have h1 : a.handler.toNat ≠ 1 := fun h1 => hign (BitVec.eq_of_toNat_eq h1)
    omega
  · exact h

theorem Sealed.check (h : s.Sealed) : (s.signalCheck alloc call result).Sealed := by
  have hcase := signalCheck_cases s alloc call result
  generalize s.signalCheck alloc call result = t at hcase ⊢
  cases hcase with
  | quiet => exact { h with }
  | entered pending queue sig u n hdepth hlt hdel hign hdfl =>
    refine ⟨h.ctx, fun d hd => ?_, h.handlers, h.last⟩
    cases hd
    exact handler_lt_of_accepted (h.handlers sig) hign hdfl

theorem Sealed.step (h : s.Sealed) (hkernel : s.active ≠ []) (op : SigOp) : (s.step op).Sealed := by
  have hcase := step_cases s op
  generalize s.step op = t at hcase
  cases hcase with
  | same => exact h
  | deliver sig =>
    obtain ⟨pending, queue, exited, deliveries, heq⟩ := deliver_eq s sig
    rw [heq]
    exact { h with }
  | user _ _ _ hactive | syscall _ hactive => exact absurd hactive hkernel
  | refuse call rest => exact .finish h.ctx h.slot h.handlers rest
  | body o call rest hactive =>
    have hans := body_answers o (h.last call rest hactive)
    have hacc := hans.handlers h.handlers
    obtain ⟨r, hdone⟩ := hans.active hactive
    obtain ⟨handlers, mask, r', hbody, -⟩ := hans
    rw [hbody] at hacc hdone ⊢
    exact ⟨h.ctx, h.slot, hacc, fun call' rest' hactive' => nomatch hdone.symm.trans hactive'⟩
  | check alloc call result rest => exact .finish h.check.ctx h.check.slot h.check.handlers rest
  | killed => exact h.check

/-! ### Up to the restored context -/

structure Untouched (s t : SigState) : Prop where
  arch : t.arch = s.arch
  mem : t.mem = s.mem
  pages : t.pages = s.pages
  slot : t.slot = none
  handlers : t.handlers = s.handlers

inductive Phase (s : SigState) : SigState → Prop
  | called (t : SigState) (call : Call) : Untouched s t → call.num = s.arch.sysRtSigreturn →
      t.active = [{ call }] → t.frames = s.frames → t.restart = s.restart → t.ctx = s.ctx → Phase s t
  | again (t : SigState) (call : Call) (rest : List Activation) (w0 : Nat → U64) : Untouched s t →
      call.num = s.arch.sysRtSigreturn → t.active = { call } :: rest → t.frames = s.frames.tail →
      t.restart = none → t.ctx = frameCtx s.arch s.ctx w0 → s.RestartsSigreturn → s.topFrame s.frames = some w0 →
      Phase s t
  | done (t : SigState) : t.Sealed → t.arch = s.arch → Phase s t

theorem Untouched.topFrame (h : Untouched s t) (fs : List U64) : s.topFrame fs = t.topFrame fs := by
  cases fs with
  | nil => rfl
  | cons f fs =>
    unfold SigState.topFrame readFrame wordAddr
    rw [h.mem, h.pages]

theorem topFrame_of_read {f : U64} {fs : List U64} (hf : f ≠ 0)
    (hw : s.readFrame f = some w) : s.topFrame (f :: fs) = some w := (if_neg hf).trans hw

theorem topFrame_of_failed {fs : List U64}
    (h : ∀ f fs', fs = f :: fs' → f = 0 ∨ s.readFrame f = none) : s.topFrame fs = none := by
  cases fs with
  | nil => rfl
  | cons f fs =>
    rcases h f fs rfl with hf | hnone
    · exact if_pos hf
    · rw [topFrame, hnone, ite_self]

theorem Untouched.sealed {ctx : UserCtx} {frames : List U64} {restart : Option Call}
    (h : Untouched s t) (hacc : ∀ sig, (s.handlers sig).Accepted)
    (hactive : t.active = { call } :: rest) (hctx : ctx.userMode s.arch) :
    ({ t with ctx, frames, restart }.answer result).Sealed := by
  have hdone : ({ t with ctx, frames, restart }.answer result).active = { call, result := some result } :: rest :=
    answer_active hactive
  refine ⟨?_, fun d hd => ?_, fun sig => ?_, fun call' rest' hactive' => nomatch hdone.symm.trans hactive'⟩
  · rw [h.arch]
    exact hctx
  · cases h.slot.symm.trans hd
  · rw [h.handlers]
    exact hacc sig

section
variable (hctx : s.ctx.userMode s.arch) (hacc : ∀ sig, (s.handlers sig).Accepted)
  (hgood : ∀ w, s.Restores w → (frameCtx s.arch s.ctx w).userMode s.arch)
include hctx hacc hgood

theorem phase_of_called (hunt : Untouched s t) (hactive : t.active = [{ call }]) (hframes : t.frames = s.frames)
    (hrestart : t.restart = s.restart) (htctx : t.ctx = s.ctx) : Phase s t.sysSigreturn := by
  have hret := sigreturn_cases t
  generalize t.sysSigreturn = u at hret
  cases hret with
  | failed =>
    refine .done _ (hunt.sealed hacc hactive ?_) hunt.arch
    rw [htctx]
    exact hctx
  | restored f fs w hf hf0 hw hlast =>
    have htop : s.topFrame s.frames = some w := by
      rw [hunt.topFrame, ← hframes, hf]
      exact topFrame_of_read hf0 hw
    have hplain : ¬ s.RestartsSigreturn := by
      rintro ⟨c, hc, hcnum⟩
      have hle := hlast c (hrestart.trans hc)
      rw [hcnum] at hle
      exact absurd (sysRtSigreturn_lt s.arch) (Nat.not_lt_of_ge hle)
    refine .done _ (hunt.sealed hacc hactive ?_) hunt.arch
    rw [hunt.arch, htctx]
    exact hgood w ⟨w, htop, .inl ⟨hplain, rfl⟩⟩
  | rerun f fs w c hf hf0 hw hc hlt =>
    have htop : s.topFrame s.frames = some w := by
      rw [hunt.topFrame, ← hframes, hf]
      exact topFrame_of_read hf0 hw
    have hctx' : frameCtx t.arch t.ctx w = frameCtx s.arch s.ctx w := by rw [hunt.arch, htctx]
    by_cases hcnum : c.num = s.arch.sysRtSigreturn
    · exact .again _ c t.active w { hunt with } hcnum rfl
        (by rw [← hframes, hf]; rfl) rfl hctx' ⟨c, hrestart.symm.trans hc, hcnum⟩ htop
    have hplain : ¬ s.RestartsSigreturn := by
      rintro ⟨c', hc', hnum'⟩
      cases hc.symm.trans (hrestart.trans hc')
      exact hcnum hnum'
    refine .done _ ⟨?_, fun d hd => ?_, fun sig => ?_, fun call' rest' hactive' => ?_⟩ hunt.arch
    · rw [hctx', hunt.arch]
      exact hgood w ⟨w, htop, .inl ⟨hplain, rfl⟩⟩
    · cases hunt.slot.symm.trans hd
    · rw [hunt.handlers]
      exact hacc sig
    · cases hactive'
      rw [hunt.arch]
      exact hcnum

omit hctx in
theorem phase_of_again {w0 : Nat → U64} (hunt : Untouched s t)
    (hactive : t.active = { call } :: rest) (hframes : t.frames = s.frames.tail) (hrestart : t.restart = none)
    (htctx : t.ctx = frameCtx s.arch s.ctx w0) (hagain : s.RestartsSigreturn)
    (htop : s.topFrame s.frames = some w0) : Phase s t.sysSigreturn := by
  have hret := sigreturn_cases t
  generalize t.sysSigreturn = u at hret
  cases hret with
  | failed hnone =>
    refine .done _ (hunt.sealed hacc hactive ?_) hunt.arch
    have hbelow : s.topFrame s.frames.tail = none := by
      rw [hunt.topFrame, ← hframes]
      exact topFrame_of_failed hnone
    rw [htctx]
    exact hgood w0 ⟨w0, htop, .inr ⟨hagain, by rw [hbelow]; rfl⟩⟩
  | restored f fs w hf hf0 hw =>
    have hbelow : s.topFrame s.frames.tail = some w := by
      rw [hunt.topFrame, ← hframes, hf]
      exact topFrame_of_read hf0 hw
    refine .done _ (hunt.sealed hacc hactive ?_) hunt.arch
    rw [hunt.arch, userMode_frameCtx]
    exact hgood w ⟨w0, htop, .inr ⟨hagain, by rw [hbelow]; rfl⟩⟩
  | rerun f fs w c hf hf0 hw hc => cases hrestart.symm.trans hc

theorem Phase.step (h : Phase s t) (hkernel : t.active ≠ []) (op : SigOp) : Phase s (t.step op) := by
  cases h with
  | done hsealed harch => exact .done _ (hsealed.step hkernel op) ((step_arch t op).trans harch)
  | called call hunt hnum hactive hframes hrestart htctx =>
    obtain ⟨pending, queue, exited, deliveries, heq⟩ | heq := step_of_sigreturn hactive (hunt.arch ▸ hnum) op
    · rw [heq]
      exact .called _ call { hunt with } hnum hactive hframes hrestart
        htctx
    · rw [heq]
      exact phase_of_called hctx hacc hgood hunt hactive hframes hrestart htctx
  | again call rest w0 hunt hnum hactive hframes hrestart htctx hagain htop =>
    obtain ⟨pending, queue, exited, deliveries, heq⟩ | heq := step_of_sigreturn hactive (hunt.arch ▸ hnum) op
    · rw [heq]
      exact .again _ call rest w0 { hunt with } hnum hactive hframes
        hrestart htctx hagain htop
    · rw [heq]
      exact phase_of_again hacc hgood hunt hactive hframes hrestart htctx hagain htop

theorem Phase.run {u : SigState} (h : Phase s t) (hrun : KernelRun t u) : Phase s u := by
  induction hrun with
  | refl => exact h
  | step op hkernel _ ih => exact ih (h.step hctx hacc hgood hkernel op)

omit hctx hacc hgood in
theorem Phase.sealed (h : Phase s t) (huser : t.active = []) : t.Sealed ∧ t.arch = s.arch := by
  cases h with
  | done hsealed harch => exact ⟨hsealed, harch⟩
  | called _ _ _ hactive | again _ _ _ _ _ hactive => cases hactive.symm.trans huser

end

/-! ### A run in which no signal comes -/

structure Calm (s : SigState) : Prop where
  live : s.exited = false
  pending : s.pending = 0
  slot : s.slot = none

def Resumes (s : SigState) : Prop :=
  ∃ t, KernelRun s t ∧ t.active = [] ∧ t.ctx.userMode t.arch = s.ctx.userMode s.arch

theorem checkLoop_calm {sigs : List Nat} (h : s.pending = 0) : checkLoop alloc call result sigs s = s := by
  induction sigs with
  | nil => rfl
  | cons sig sigs ih =>
    have hnot : ¬ s.deliverable sig := by simp [deliverable, h]
    rw [checkLoop, if_neg hnot]
    exact ih

section
variable (h : s.Calm)
include h

theorem Calm.step_check
    (hactive : s.active = { call, result := some result } :: rest) : s.step (.check none) = s.finish result rest := by
  have hcheck : s.signalCheck none call result = s := checkLoop_calm h.pending
  unfold step
  rw [hactive, if_neg (by simp [h.live])]
  dsimp only
  rw [hcheck, if_neg (by simp [h.live])]

theorem Calm.step_body (hactive : s.active = { call } :: rest)
    (hhandler : s.arch.hasHandler call.num) (o : Outcome) : s.step (.body o) = s.body call o := by
  unfold step
  rw [hactive, if_neg (by simp [h.live])]
  exact if_pos hhandler

omit h in
theorem hasHandler_sigreturn (arch : Arch) : arch.hasHandler arch.sysRtSigreturn := by
  cases arch <;> decide

theorem Calm.step_sigreturn (hactive : s.active = { call } :: rest)
    (hnum : call.num = s.arch.sysRtSigreturn) (o : Outcome) : s.step (.body o) = s.sysSigreturn := by
  rw [h.step_body hactive (hnum ▸ hasHandler_sigreturn s.arch), body_sigreturn o hnum]

theorem Calm.resumes (hactive : s.active = [{ call, result := some result }]) : s.Resumes := by
  have hret : s.finish result [] =
      { s with active := [], ctx := { s.ctx with regs := Function.update s.ctx.regs 0 result } } := by
    change s.returnToUser result = _
    rw [returnToUser, h.slot]
  refine ⟨_, .step (.check none) (by simp [hactive]) (.refl _), ?_⟩
  rw [h.step_check hactive, hret]
  exact ⟨rfl, rfl⟩

theorem Calm.resumes_inner (hactive : s.active = [{ call, result := some result }, { call := call' }]) : s.Resumes := by
  have hcalm : (s.finish result [{ call := call' }]).Calm := { h with }
  obtain ⟨t, hrun, huser, hmode⟩ := hcalm.resumes rfl
  refine ⟨t, .step (.check none) (by simp [hactive]) ?_, huser, hmode⟩
  rw [h.step_check hactive]
  exact hrun

theorem Calm.resumes_saved (hactive : s.active = [{ call }, { call := call' }])
    (hnum : call.num ≠ s.arch.sysRtSigreturn) : s.Resumes := by
  by_cases hhandler : s.arch.hasHandler call.num
  · have hans := body_answers ⟨0, s.pages, s.mem⟩ hnum
    obtain ⟨r, hdone⟩ := hans.active hactive
    obtain ⟨handlers, mask, r', hbody, -⟩ := hans
    have hcalm : (s.body call ⟨0, s.pages, s.mem⟩).Calm := by
      rw [hbody]
      exact { h with }
    obtain ⟨t, hrun, huser, hmode⟩ := hcalm.resumes_inner hdone
    refine ⟨t, .step (.body ⟨0, s.pages, s.mem⟩) (by simp [hactive]) ?_, huser, ?_⟩
    · rw [h.step_body hactive hhandler]
      exact hrun
    · rw [hmode, hbody]
      rfl
  · have hcalm : (s.finish (s.refusal call) [{ call := call' }]).Calm := { h with }
    obtain ⟨t, hrun, huser, hmode⟩ := hcalm.resumes rfl
    refine ⟨t, .step .refuse (by simp [hactive]) ?_, huser, hmode⟩
    unfold step
    rw [hactive, if_neg (by simp [h.live])]
    dsimp only
    rw [if_neg hnum]
    exact hrun

theorem Calm.resumes_again
    (hactive : s.active = [{ call }, { call := call' }]) (hnum : call.num = s.arch.sysRtSigreturn)
    (hrestart : s.restart = none) (hctx : s.ctx.userMode s.arch = (frameCtx s.arch s.ctx w).userMode s.arch) :
    ∃ u, KernelRun s u ∧ u.active = [] ∧
      u.ctx.userMode u.arch = (frameCtx s.arch s.ctx ((s.topFrame s.frames).getD w)).userMode s.arch := by
  suffices hgoal : ∃ u, KernelRun s.sysSigreturn u ∧ u.active = [] ∧
      u.ctx.userMode u.arch = (frameCtx s.arch s.ctx ((s.topFrame s.frames).getD w)).userMode s.arch by
    obtain ⟨u, hrun, hrest⟩ := hgoal
    exact ⟨u, .step (.body ⟨0, s.pages, s.mem⟩) (by simp [hactive]) (h.step_sigreturn hactive hnum _ ▸ hrun), hrest⟩
  have hret := sigreturn_cases s
  generalize s.sysSigreturn = t at hret
  cases hret with
  | failed hnone =>
    rw [topFrame_of_failed hnone]
    obtain ⟨u, hrun, huser, hmode⟩ :=
      Calm.resumes_inner (s := { s with frames := s.frames.tail }.answer (-1)) { h with }
        (answer_active hactive)
    exact ⟨u, hrun, huser, hmode.trans hctx⟩
  | restored f fs w' hf hf0 hread =>
    rw [hf, topFrame_of_read hf0 hread]
    obtain ⟨u, hrun, huser, hmode⟩ :=
      Calm.resumes_inner (s := { s with frames := fs, restart := none, ctx := frameCtx s.arch s.ctx w' }.answer _)
        { h with } (answer_active hactive)
    exact ⟨u, hrun, huser, hmode⟩
  | rerun f fs w' c hf hf0 hread hc => cases hrestart.symm.trans hc

omit h in
theorem Resumes.of_ctx {c : UserCtx} (h : t.Resumes) (harch : t.arch = s.arch) (hctx : t.ctx = frameCtx s.arch c w) :
    ∃ u, KernelRun t u ∧ u.active = [] ∧ u.ctx.userMode u.arch = (frameCtx s.arch s.ctx w).userMode s.arch := by
  obtain ⟨u, hrun, huser, hmode⟩ := h
  refine ⟨u, hrun, huser, ?_⟩
  rw [hmode, harch, hctx]
  exact userMode_frameCtx

theorem Calm.sigreturn (hactive : s.active = [{ call }]) (hnum : call.num = s.arch.sysRtSigreturn) (hw : s.Restores w) :
    ∃ u, KernelRun s u ∧ u.active = [] ∧ u.ctx.userMode u.arch = (frameCtx s.arch s.ctx w).userMode s.arch := by
  obtain ⟨w0, htop, hw⟩ := hw
  have hkernel : s.active ≠ [] := by simp [hactive]
  have hbody (o : Outcome) := h.step_sigreturn hactive hnum o
  -- it is enough to go on from the state after the body
  suffices hgoal : ∃ u, KernelRun s.sysSigreturn u ∧ u.active = [] ∧
      u.ctx.userMode u.arch = (frameCtx s.arch s.ctx w).userMode s.arch by
    obtain ⟨u, hrun, hrest⟩ := hgoal
    exact ⟨u, .step (.body ⟨0, s.pages, s.mem⟩) hkernel (hbody _ ▸ hrun), hrest⟩
  have hret := sigreturn_cases s
  generalize s.sysSigreturn = t at hret
  cases hret with
  | failed hnone => cases (topFrame_of_failed hnone).symm.trans htop
  | restored f fs w' hf hf0 hread hlast =>
    obtain rfl : w' = w0 := by
      rw [hf, topFrame_of_read hf0 hread] at htop
      exact Option.some.inj htop
    have hplain : ¬ s.RestartsSigreturn := by
      rintro ⟨c, hc, hcnum⟩
      exact absurd (hcnum ▸ hlast c hc) (Nat.not_le_of_gt (sysRtSigreturn_lt s.arch))
    obtain ⟨-, rfl⟩ | ⟨hagain, -⟩ := hw
    · refine Resumes.of_ctx (Calm.resumes { h with } (answer_active hactive)) rfl rfl
    · exact absurd hagain hplain
  | rerun f fs w' c hf hf0 hread hc hlt =>
    obtain rfl : w' = w0 := by
      rw [hf, topFrame_of_read hf0 hread] at htop
      exact Option.some.inj htop
    have hboth : { call := c } :: s.active = [{ call := c }, { call }] := by rw [hactive]
    by_cases hcnum : c.num = s.arch.sysRtSigreturn
    · obtain ⟨hplain, -⟩ | ⟨-, rfl⟩ := hw
      · exact absurd ⟨c, hc, hcnum⟩ hplain
      obtain ⟨u, hrun, huser, hmode⟩ := Calm.resumes_again (w := w')
        (s := { s with
          frames := fs, restart := none, ctx := frameCtx s.arch s.ctx w', active := { call := c } :: s.active })
        { h with } hboth hcnum rfl userMode_frameCtx
      refine ⟨u, hrun, huser, hmode.trans ?_⟩
      rw [hf]
      exact userMode_frameCtx
    · obtain ⟨-, rfl⟩ | ⟨⟨c', hc', hnum'⟩, -⟩ := hw
      · exact Resumes.of_ctx (Calm.resumes_saved { h with } hboth hcnum) rfl rfl
      · cases hc.symm.trans hc'
        exact absurd hnum' hcnum

end

end SigState

open SigState

/-- On both architectures, with or without a saved system call and for all accepted handlers: the context after
    `sys_sigreturn` is one of user mode, whatever signals are pending or come, just if the restored words make one. -/
theorem sigreturn_user_iff (s : SigState) (hlive : s.exited = false) (huser : s.active = []) (hslot : s.slot = none)
    (hctx : s.ctx.userMode s.arch) (hacc : ∀ sig, (s.handlers sig).Accepted) :
    (∀ pending t, Sigreturns { s with pending } t → t.ctx.userMode t.arch) ↔
      ∀ w, s.Restores w → (frameCtx s.arch s.ctx w).userMode s.arch := by
  have hentry (pending : U32) (args : List U64) :
      ({ s with pending } : SigState).step (.syscall { num := s.arch.sysRtSigreturn, args }) =
        { s with pending, active := [{ call := { num := s.arch.sysRtSigreturn, args } }] } := by
    unfold step
    rw [huser, if_neg (by simp [hlive])]
  constructor
  · intro h w hw
    have hcalm : Calm { s with pending := 0, active := [{ call := { num := s.arch.sysRtSigreturn } }] } :=
      ⟨hlive, rfl, hslot⟩
    obtain ⟨u, hrun, hback, hmode⟩ := hcalm.sigreturn rfl rfl hw
    exact hmode.symm.trans (h 0 u ⟨[], hentry 0 [] ▸ hrun, hback⟩)
  · rintro h pending t ⟨args, hrun, hback⟩
    rw [hentry] at hrun
    have hstart : Phase s { s with pending, active := [{ call := { num := s.arch.sysRtSigreturn, args } }] } :=
      .called _ _ ⟨rfl, rfl, rfl, hslot, rfl⟩ rfl rfl rfl rfl rfl
    exact ((hstart.run hctx hacc h hrun).sealed hback).1.ctx

def inHandler (arch : Arch) (v : U64) : SigState :=
  { arch, ctx := { pc := 0x401000, sp := 0x10600 }, frames := [0x10600]
    pages := fun n => if n = 16 then some { phys := 0x5000 } else none
    mem := fun _ => v }

theorem restores_inHandler {v : U64} {w : Nat → U64} (h : (inHandler arch v).Restores w) : w = fun _ => v := by
  obtain ⟨w0, htop, ⟨-, rfl⟩ | ⟨⟨c, hc, -⟩, -⟩⟩ := h
  · have htop' : some (fun _ => v) = some w := htop
    exact (Option.some.inj htop').symm
  · cases hc

theorem accepted_inHandler {v : U64} (sig : Nat) : ((inHandler arch v).handlers sig).Accepted :=
  .inl (by decide : sigDfl ≤ sigIgn)

theorem sigreturn_user_zeros :
    (∀ pending t, Sigreturns { inHandler .x86_64 0 with pending } t → t.ctx.userMode t.arch) ∧
      ∀ pending t, Sigreturns { inHandler .arm64 0 with pending } t → t.ctx.userMode t.arch := by
  constructor
  · refine (sigreturn_user_iff (inHandler .x86_64 0) rfl rfl rfl (by decide) accepted_inHandler).mpr fun w hw => ?_
    rw [restores_inHandler hw]
    decide
  · refine (sigreturn_user_iff (inHandler .arm64 0) rfl rfl rfl (by decide) accepted_inHandler).mpr fun w hw => ?_
    rw [restores_inHandler hw]
    decide

/-- A process handles a signal, fills its memory with a word that is a kernel address with privileged bits set
    in its low part, and returns from the handler. -/
def forgingRun (arch : Arch) : List SigOp :=
  let pages : Nat → Option UserPage := fun n => if n = 16 then some { phys := 0x5000 } else none
  [.syscall { num := arch.sysRtSigaction, args := [2, 0x401000] }, .body ⟨0, pages, fun _ => 0⟩, .check none,
    .deliver 2, .syscall { num := 39 }, .body ⟨0, pages, fun _ => 0⟩, .check none,
    .user { pc := 0x401000, sp := 0x10600 } pages fun _ => 0xFFFF80000000300F,
    .syscall { num := arch.sysRtSigreturn }, .body ⟨0, pages, fun _ => 0⟩, .check none]

def afterForgery (arch : Arch) : SigState :=
  GuardedRun.run step { arch, ctx := { pc := 0x400000, sp := 0x10800 } } (forgingRun arch)

/-- The kernel resumes at a kernel address, with I/O privilege on x86_64 and not at EL0 on ARM64. -/
theorem forged_frame_resumed :
    ((afterForgery .x86_64).active = [] ∧ (afterForgery .x86_64).ctx.pc = 0xFFFF80000000300F ∧
      userFlags .x86_64 (afterForgery .x86_64).ctx.flags = false) ∧
    (afterForgery .arm64).active = [] ∧ (afterForgery .arm64).ctx.pc = 0xFFFF80000000300F ∧
      userFlags .arm64 (afterForgery .arm64).ctx.flags = false := by
  decide +kernel

end Limnx.Signals
