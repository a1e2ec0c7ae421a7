import Limnx.Theorems.SignalSteps

/-! Deliveries and handler invocations balance. -/

namespace Limnx.Signals

open Option Function GuardedRun List RingBuffer SignalQueue

namespace SignalQueue
variable {q : SignalQueue} {sig x : Nat}

def contents (q : SignalQueue) : List Nat := RingBuffer.contents q.signum sigQueueSize q.head q.count

def free (q : SignalQueue) : Nat := (q.head + q.count) % sigQueueSize

def TailInUse (q : SignalQueue) : Prop := ∃ k < q.count, (q.head + k) % sigQueueSize = q.tail

instance (q : SignalQueue) : Decidable q.TailInUse := inferInstanceAs (Decidable (∃ k < q.count, _))

/-- The tail is the position behind the last entry; or that position holds an old value that makes up for what is stored
    elsewhere: the signal itself, or the entry it overwrites. -/
def TakesAtEnd (q : SignalQueue) (sig : Nat) : Prop :=
  q.tail = q.free ∨ q.signum q.free = if q.TailInUse then q.signum q.tail else sig

instance (q : SignalQueue) : Decidable (q.TakesAtEnd sig) := inferInstanceAs (Decidable (_ ∨ _))

theorem contents_push_perm (hroom : q.count < sigQueueSize) (h : q.TakesAtEnd sig) :
    (q.push sig).contents.Perm (sig :: q.contents) := by
  by_cases htail : q.tail = q.free
  · have hpush : (q.push sig).contents = q.contents ++ [sig] := by
      unfold contents push
      rw [htail]
      exact contents_push _ _ hroom
    rw [hpush]
    exact perm_append_comm
  have hfree := h.resolve_left htail
  have hend : update q.signum q.tail sig q.free = q.signum q.free := update_of_ne (Ne.symm htail) ..
  have hlast : (q.push sig).contents =
      RingBuffer.contents (update q.signum q.tail sig) sigQueueSize q.head q.count ++ [q.signum q.free] := by
    rw [← hend]
    exact contents_succ _
  rw [hlast]
  split at hfree
  · -- an entry is overwritten, and its value comes back at the end
    rename_i huse
    obtain ⟨k, hk, hpos⟩ := huse
    rw [hfree, ← hpos, contents_update _ _ hk hroom.le]
    exact set_append_perm (getElem?_contents _ hk)
  next hout =>
    rw [contents_update_of_ne _ _ fun k hk hpos => hout ⟨k, hk, hpos⟩, hfree]
    exact perm_append_comm

theorem contents_removeAt_perm (hroom : q.count ≤ sigQueueSize) {qi : Nat} (h : q.find sig = some qi) :
    (sig :: (q.removeAt qi).contents).Perm q.contents := by
  obtain ⟨hsig, hqi⟩ : q.signum ((q.head + qi) % sigQueueSize) = sig ∧ qi < q.count := by
    have hfound := find?_some h
    have hmem := mem_of_find?_eq_some h
    exact ⟨by simpa using hfound, mem_range.mp hmem⟩
  have hrest : (q.removeAt qi).contents = q.contents.eraseIdx qi := contents_closeGap _ hqi hroom
  have hentry : q.contents[qi]? = some sig := by
    rw [contents, getElem?_contents _ hqi, hsig]
  obtain ⟨hlen, hget⟩ := List.getElem?_eq_some_iff.mp hentry
  rw [hrest, ← hget]
  exact getElem_cons_eraseIdx_perm hlen

end SignalQueue

namespace SigState
variable {s t : SigState} {sig x : Nat}

def Catchable (sig : Nat) : Prop := 1 ≤ sig ∧ sig < maxSignals ∧ sig ≠ sigKill ∧ sig ≠ sigStop ∧ sig ≠ sigCont

instance (sig : Nat) : Decidable (Catchable sig) := inferInstanceAs (Decidable (_ ∧ _))

def instances (s : SigState) (sig : Nat) : Nat := (s.pending.getLsbD sig).toNat + s.queue.contents.count sig

def inSlot (s : SigState) (sig : Nat) : Nat :=
  match s.slot with
  | some d => if d.sig = sig then 1 else 0
  | none => 0

theorem inSlot_of_some {d : Slot} (h : s.slot = some d) : s.inSlot x = if d.sig = x then 1 else 0 := by
  rw [inSlot, h]

theorem inSlot_of_none (h : s.slot = none) : s.inSlot x = 0 := by
  rw [inSlot, h]

theorem deliver_of_catchable (hsig : Catchable sig) :
    s.processDeliverSignal sig =
      { s with
        deliveries := update s.deliveries sig (s.deliveries sig + 1)
        queue := if s.pending.getLsbD sig ∧ s.queue.count < sigQueueSize then s.queue.push sig else s.queue
        pending := if s.pending.getLsbD sig then s.pending else s.pending ||| sigBit sig } := by
  obtain ⟨hpos, hlt, hkill, hstop, hcont⟩ := hsig
  unfold processDeliverSignal
  rw [if_neg (by omega), if_neg hkill, if_neg (by tauto)]
  by_cases hpend : s.pending.getLsbD sig
  · by_cases hroom : s.queue.count < sigQueueSize
    · simp [hpend, hroom]
    · simp [hpend, hroom]
  · simp [hpend]

theorem instances_deliver (hsig : Catchable sig) (hroom : s.pending.getLsbD sig → s.queue.count < sigQueueSize)
    (hend : s.pending.getLsbD sig → s.queue.TakesAtEnd sig) :
    (s.processDeliverSignal sig).instances x = s.instances x + if sig = x then 1 else 0 := by
  rw [deliver_of_catchable hsig]
  unfold instances
  by_cases hpend : s.pending.getLsbD sig
  · simp only [hpend, hroom hpend, and_self, if_true]
    rw [(contents_push_perm (hroom hpend) (hend hpend)).count_eq, count_cons]
    simp only [beq_iff_eq]
    omega
  · simp only [hpend, false_and, if_false, Bool.false_eq_true]
    rw [getLsbD_setBit hsig.2.1]
    obtain rfl | hx := eq_or_ne sig x
    · simp [hpend]
      omega
    · simp [hx]

theorem instances_takeSignal (hsig : sig < maxSignals) (hroom : s.queue.count ≤ sigQueueSize)
    (hpend : s.pending.getLsbD sig) : (s.takeSignal sig).instances x + (if sig = x then 1 else 0) = s.instances x := by
  unfold takeSignal
  cases hfind : s.queue.find sig with
  | some qi =>
    have hcount := (contents_removeAt_perm hroom hfind).count_eq x
    simp only [instances, getLsbD_setBit hsig, getLsbD_clearBit hsig]
    obtain rfl | hx := eq_or_ne sig x
    · simp [hpend] at hcount ⊢
      omega
    · simp [hx] at hcount ⊢
      omega
  | none =>
    simp only [instances, getLsbD_clearBit hsig]
    obtain rfl | hx := eq_or_ne sig x
    · simp [hpend]
      omega
    · simp [hx]

theorem count_takeSignal_le : (s.takeSignal sig).queue.count ≤ s.queue.count := by
  unfold takeSignal
  split
  · exact Nat.sub_le _ 1
  · exact le_rfl

variable {alloc : Option Nat} {call : Call} {result : U64}

def Installed (s : SigState) (sig : Nat) : Prop :=
  (s.handlers sig).handler ≠ sigIgn ∧ (s.handlers sig).handler ≠ sigDfl

instance (s : SigState) (sig : Nat) : Decidable (s.Installed sig) := inferInstanceAs (Decidable (_ ∧ _))

/-- The stack is mapped where the next signal frame goes, and memory for a copy of a shared page is there. -/
def StackReady (s : SigState) (alloc : Option Nat) : Bool :=
  match s.pages (pageOf (frameAddr s.arch s.ctx.sp).toNat) with
  | none => false
  | some p => !(p.cow && p.shared) || alloc.isSome

theorem checkLoop_installed {sigs : List Nat} (h : ∀ sig ∈ sigs, s.deliverable sig → s.Installed sig) :
    checkLoop alloc call result sigs s =
      match sigs.find? s.deliverable with
      | none => s
      | some sig => (s.takeSignal sig).pushFrame alloc call result sig := by
  induction sigs with
  | nil => rfl
  | cons sig sigs ih =>
    unfold checkLoop
    by_cases hdel : s.deliverable sig
    · have hinst : (s.takeSignal sig).Installed sig := by
        rw [takeSignal_eq]
        exact h sig mem_cons_self hdel
      rw [if_pos hdel, find?_cons_of_pos hdel]
      simp [actOn, hinst.1, hinst.2]
    · rw [if_neg hdel, find?_cons_of_neg hdel]
      exact ih fun sig' hmem => h sig' (mem_cons_of_mem _ hmem)

theorem breakCow_isSome (h : s.StackReady alloc) :
    (s.breakCow alloc (pageOf (frameAddr s.arch s.ctx.sp).toNat)).isSome := by
  unfold StackReady at h
  unfold breakCow
  cases hp : s.pages (pageOf (frameAddr s.arch s.ctx.sp).toNat) with
  | none =>
    rw [hp] at h
    cases h
  | some p =>
    rw [hp] at h
    dsimp only
    split
    · rfl
    split
    · rfl
    next hcow hshared => simpa [hcow, hshared] using h

theorem pushFrame_enters (hready : s.StackReady alloc) (hdepth : s.frames.length < maxSignalDepth) :
    ∃ pages mem frames restart d, d.sig = sig ∧
      s.pushFrame alloc call result sig = { s with pages, mem, frames, restart, slot := some d } := by
  obtain ⟨u, hcow⟩ := isSome_iff_exists.mp (breakCow_isSome hready)
  obtain ⟨hu, hpage⟩ := breakCow_eq_some hcow
  obtain ⟨p, hp⟩ := isSome_iff_exists.mp hpage
  have hpush : s.pushFrame alloc call result sig =
      u.enterFrame sig call result (frameAddr s.arch s.ctx.sp)
        ((p.phys + (frameAddr s.arch s.ctx.sp).toNat % pageSize) / 8) := by
    unfold pushFrame
    simp only [hcow, wordAddr, hp, map_some]
  rw [hpush, hu]
  exact ⟨_, _, _, _, _, rfl, if_pos hdepth⟩

/-! ### The balance -/

/-- The queue is within its bounds, and deliveries are counted right. -/
structure Balance (s : SigState) : Prop where
  room : s.queue.count ≤ sigQueueSize
  catchable : ∀ sig, s.pending.getLsbD sig → Catchable sig
  balance : ∀ sig, s.invocations sig + s.inSlot sig + s.instances sig = s.deliveries sig
  unmasked : ∀ d, s.slot = some d → s.mask.getLsbD d.sig = false

def SlotEnds (s : SigState) : Prop :=
  s.slot.isSome → ∃ call result rest, s.active = { call, result := some result } :: rest

theorem SlotEnds.slot_of_user (h : s.SlotEnds) (hactive : s.active = []) : s.slot = none := by
  rw [← not_isSome_iff_eq_none]
  intro hslot
  obtain ⟨c, r, rest, heq⟩ := h hslot
  cases heq.symm.trans hactive

theorem SlotEnds.slot_of_body (h : s.SlotEnds) {rest : List Activation} (hactive : s.active = { call } :: rest) :
    s.slot = none := by
  rw [← not_isSome_iff_eq_none]
  intro hslot
  obtain ⟨c, r, rest, heq⟩ := h hslot
  cases heq.symm.trans hactive

theorem SlotEnds.of_none (h : s.slot = none) : s.SlotEnds := by
  intro hslot
  rw [h] at hslot
  cases hslot

theorem Balance.idle (h : s.Balance) (hnone : s.slot = none) (hqueue : t.queue = s.queue)
    (hpending : t.pending = s.pending) (hinv : t.invocations = s.invocations) (hdel : t.deliveries = s.deliveries)
    (hslot : t.slot = s.slot) : t.Balance ∧ t.SlotEnds := by
  have hfree : t.slot = none := hslot.trans hnone
  refine ⟨⟨?_, fun x hx => ?_, fun x => ?_, fun d hd => ?_⟩, .of_none hfree⟩
  · rw [hqueue]
    exact h.room
  · rw [hpending] at hx
    exact h.catchable x hx
  · have hbal := h.balance x
    rw [inSlot_of_none hnone] at hbal
    rw [inSlot_of_none hfree, hinv, hdel, instances, hpending, hqueue]
    exact hbal
  · cases hfree.symm.trans hd

theorem Balance.deliver (h : s.Balance) (hsig : Catchable sig)
    (hroom : s.pending.getLsbD sig → s.queue.count < sigQueueSize)
    (hend : s.pending.getLsbD sig → s.queue.TakesAtEnd sig) : (s.processDeliverSignal sig).Balance := by
  have hinst (x : Nat) := instances_deliver (x := x) hsig hroom hend
  rw [deliver_of_catchable hsig] at hinst ⊢
  refine ⟨?_, fun x hx => ?_, fun x => ?_, h.unmasked⟩
  · change SignalQueue.count (if _ then _ else _) ≤ _
    split
    · exact Nat.succ_le_of_lt ‹_ ∧ _›.2
    · exact h.room
  · by_cases hpend : s.pending.getLsbD sig
    · exact h.catchable x (by simpa [hpend] using hx)
    have hbit : (s.pending ||| sigBit sig).getLsbD x := by simpa [hpend] using hx
    rw [getLsbD_setBit hsig.2.1, Bool.or_eq_true, decide_eq_true_iff] at hbit
    rcases hbit with hbit | rfl
    · exact h.catchable x hbit
    · exact hsig
  · have hbal := h.balance x
    rw [hinst x]
    change s.invocations x + s.inSlot x + _ = update s.deliveries sig _ x
    rw [update_apply]
    split
    · subst x
      rw [if_pos rfl]
      omega
    · rw [if_neg (Ne.symm ‹_›)]
      omega

theorem Balance.finish (h : s.Balance) (result : U64) (rest : List Activation) :
    (s.finish result rest).Balance ∧ (s.finish result rest).SlotEnds := by
  cases rest with
  | cons a rest => exact ⟨{ h with }, fun _ => ⟨a.call, result, rest, rfl⟩⟩
  | nil =>
    change (s.returnToUser result).Balance ∧ (s.returnToUser result).SlotEnds
    unfold returnToUser
    split
    next hslot => exact ⟨{ h with }, .of_none hslot⟩
    rename_i d hslot
    refine ⟨⟨h.room, h.catchable, fun x => ?_, fun d' hd' => ?_⟩, .of_none rfl⟩
    · have hbal := h.balance x
      rw [inSlot_of_some hslot] at hbal
      change update s.invocations d.sig _ x + 0 + s.instances x = s.deliveries x
      rw [update_apply]
      split
      · subst x
        rw [if_pos rfl] at hbal
        omega
      · rw [if_neg (Ne.symm ‹_›)] at hbal
        omega
    · cases hd'

theorem Balance.check (h : s.Balance) (hready : s.StackReady alloc) (hdepth : s.frames.length < maxSignalDepth)
    (hinst : ∀ sig < maxSignals, Catchable sig → s.Installed sig)
    (hslot : s.slot.isSome → ∀ sig < maxSignals, ¬ s.deliverable sig) : (s.signalCheck alloc call result).Balance := by
  have hpending {sig : Nat} (hdel : s.deliverable sig) : s.pending.getLsbD sig := (Bool.and_eq_true_iff.mp hdel).1
  unfold signalCheck
  have hlt {sig : Nat} (hdel : s.deliverable sig) : sig < maxSignals := (h.catchable sig (hpending hdel)).2.1
  rw [checkLoop_installed fun sig _ hdel => hinst sig (hlt hdel) (h.catchable sig (hpending hdel))]
  split
  · exact h
  rename_i sig hfind
  have hdel : s.deliverable sig := find?_some hfind
  have hnone : s.slot = none := not_isSome_iff_eq_none.mp fun hsome => hslot hsome sig (hlt hdel) hdel
  have htaken (x : Nat) := instances_takeSignal (x := x) (hlt hdel) h.room (hpending hdel)
  have hcatch (x : Nat) (hx : (s.takeSignal sig).pending.getLsbD x) : Catchable x :=
    h.catchable x (getLsbD_takeSignal (hlt hdel) (hpending hdel) hx)
  have hroom : (s.takeSignal sig).queue.count ≤ sigQueueSize := count_takeSignal_le.trans h.room
  have hmask : s.mask.getLsbD sig = false := by
    simpa using (Bool.and_eq_true_iff.mp hdel).2
  rw [takeSignal_eq] at htaken hcatch hroom ⊢
  generalize (s.takeSignal sig).pending = pending at htaken hcatch ⊢
  generalize (s.takeSignal sig).queue = queue at htaken hroom ⊢
  have hready' : (s.withPending pending queue).StackReady alloc := hready
  obtain ⟨pages, mem, frames, restart, d, hd, hpush⟩ := pushFrame_enters hready' hdepth
  rw [hpush]
  refine ⟨hroom, hcatch, fun x => ?_, fun d' hd' => ?_⟩
  · have hbal := h.balance x
    rw [inSlot_of_none hnone, ← htaken x] at hbal
    rw [inSlot_of_some rfl, hd]
    change s.invocations x + _ + (s.withPending pending queue).instances x = s.deliveries x
    omega
  · cases hd'
    rw [hd]
    exact hmask

theorem signalCheck_frame : (s.signalCheck alloc call result).invocations = s.invocations ∧
    (s.signalCheck alloc call result).active = s.active := by
  have hcase := signalCheck_cases s alloc call result
  generalize s.signalCheck alloc call result = t at hcase
  cases hcase with
  | quiet | entered => exact ⟨rfl, rfl⟩

/-- Catchable signals arrive, no more duplicates than the queue has room for; handlers are installed, the stack is
    mapped, and handlers are nested less deep than the limit. -/
def Supposed (s : SigState) : SigOp → Prop
  | .deliver sig => Catchable sig ∧ (s.pending.getLsbD sig → s.queue.count < sigQueueSize)
  | .check alloc =>
    s.StackReady alloc ∧ s.frames.length < maxSignalDepth ∧ ∀ sig < maxSignals, Catchable sig → s.Installed sig
  | _ => True

/-- The condition: a duplicate finds the tail of the queue at its end, and no signal is deliverable in a check
    that finds the slot in use. -/
def CountsRight (s : SigState) : SigOp → Prop
  | .deliver sig => s.pending.getLsbD sig → s.queue.TakesAtEnd sig
  | .check _ => s.slot.isSome → ∀ sig < maxSignals, ¬ s.deliverable sig
  | _ => True

instance (s : SigState) (op : SigOp) : Decidable (s.Supposed op) := by
  unfold Supposed
  split <;> infer_instance

instance (s : SigState) (op : SigOp) : Decidable (s.CountsRight op) := by
  unfold CountsRight
  split <;> infer_instance

theorem Balance.step {op : SigOp} (h : s.Balance) (hslot : s.SlotEnds) (hsup : s.Supposed op)
    (hright : s.CountsRight op) : (s.step op).Balance ∧ (s.step op).SlotEnds := by
  have hcase := step_cases s op
  generalize s.step op = t at hcase
  cases hcase with
  | same => exact ⟨h, hslot⟩
  | deliver sig =>
    refine ⟨h.deliver hsup.1 hsup.2 hright, ?_⟩
    rw [deliver_of_catchable hsup.1]
    exact hslot
  | user => exact ⟨{ h with }, hslot⟩
  | syscall call hactive =>
    exact h.idle (hslot.slot_of_user hactive) rfl rfl rfl rfl rfl
  | refuse call rest hactive hnum => exact h.finish _ rest
  | body o call rest hactive =>
    have hnone := hslot.slot_of_body hactive
    by_cases hnum : call.num = s.arch.sysRtSigreturn
    · rw [body_sigreturn o hnum]
      have hret := sigreturn_cases s
      generalize s.sysSigreturn = t at hret
      cases hret with
      | failed | restored | rerun => exact h.idle hnone rfl rfl rfl rfl rfl
    · obtain ⟨handlers, mask, r, hbody, -⟩ := body_answers o hnum
      rw [hbody]
      exact h.idle hnone rfl rfl rfl rfl rfl
  | check alloc call result rest hactive =>
    exact (h.check hsup.1 hsup.2.1 hsup.2.2 hright).finish result rest
  | killed alloc call result rest hactive hexit =>
    refine ⟨h.check hsup.1 hsup.2.1 hsup.2.2 hright, fun _ => ?_⟩
    rw [signalCheck_frame.2]
    exact ⟨call, result, rest, hactive⟩

/-! ### Invocations -/

theorem Balance.mask_of_finish (h : s.Balance) {rest : List Activation}
    (hx : s.invocations x < (s.finish result rest).invocations x) : (s.finish result rest).mask.getLsbD x = false := by
  cases rest with
  | cons a rest => exact absurd hx (lt_irrefl _)
  | nil =>
    change s.invocations x < (s.returnToUser result).invocations x at hx
    change (s.returnToUser result).mask.getLsbD x = false
    unfold returnToUser at hx ⊢
    split
    next hnone =>
      rw [hnone] at hx
      exact absurd hx (lt_irrefl _)
    next d hslot =>
      rw [hslot] at hx
      change s.invocations x < update s.invocations d.sig _ x at hx
      rw [update_apply] at hx
      split at hx
      · subst x
        exact h.unmasked d hslot
      · exact absurd hx (lt_irrefl _)

theorem Balance.mask_of_step {op : SigOp} (h : s.Balance) (hsup : s.Supposed op)
    (hright : s.CountsRight op) (hx : s.invocations x < (s.step op).invocations x) :
    (s.step op).mask.getLsbD x = false := by
  have hcase := step_cases s op
  generalize s.step op = t at hcase hx ⊢
  cases hcase with
  | deliver sig =>
    rw [deliver_of_catchable hsup.1] at hx
    exact absurd hx (lt_irrefl _)
  | same | user | syscall => exact absurd hx (lt_irrefl _)
  | refuse => exact h.mask_of_finish hx
  | body o call rest hactive =>
    exfalso
    by_cases hnum : call.num = s.arch.sysRtSigreturn
    · rw [body_sigreturn o hnum] at hx
      have hret := sigreturn_cases s
      generalize s.sysSigreturn = t at hret hx
      cases hret with
      | failed | restored | rerun => exact lt_irrefl _ hx
    · obtain ⟨handlers, mask, r, hbody, -⟩ := body_answers o hnum
      rw [hbody] at hx
      exact lt_irrefl _ hx
  | check alloc call result rest =>
    refine (h.check hsup.1 hsup.2.1 hsup.2.2 hright).mask_of_finish ?_
    rw [signalCheck_frame.1]
    exact hx
  | killed alloc call result rest =>
    rw [signalCheck_frame.1] at hx
    exact absurd hx (lt_irrefl _)

def fresh (arch : Arch) (ctx : UserCtx) (pages : Nat → Option UserPage) (mem : Nat → U64)
    (handlers : Nat → SigAction) : SigState :=
  { arch, ctx, pages, mem, handlers }

theorem balance_fresh {arch : Arch} {ctx : UserCtx} {pages : Nat → Option UserPage} {mem : Nat → U64}
    {handlers : Nat → SigAction} : (fresh arch ctx pages mem handlers).Balance := by
  refine ⟨Nat.zero_le _, fun x hx => ?_, fun x => ?_, fun d hd => ?_⟩
  · simp [fresh] at hx
  · simp [fresh, inSlot, instances, SignalQueue.contents]
  · cases hd

theorem balanced_run (hs : s.Balance) (hslot : s.SlotEnds) {ops : List SigOp}
    (h : Guarded step (fun s op => s.Supposed op ∧ s.CountsRight op) s ops) :
    (run step s ops).Balance ∧ (run step s ops).SlotEnds := by
  have hstep (s : SigState) (op : SigOp) (hinv : s.Balance ∧ s.SlotEnds) (hok : s.Supposed op ∧ s.CountsRight op) :
      (s.step op).Balance ∧ (s.step op).SlotEnds := hinv.1.step hinv.2 hok.1 hok.2
  exact Guarded.invariant hstep ⟨hs, hslot⟩ h

end SigState

open SigState

/-- In every such run in which duplicates find the tail of the queue at its end and no check finds a deliverable signal
    with the slot in use: in user mode, each signal has as many handler invocations and remaining instances as
    deliveries, and no step invokes the handler of a masked signal. -/
theorem signals_acted_on_once (arch : Arch) (ctx : UserCtx) (pages : Nat → Option UserPage) (mem : Nat → U64)
    (handlers : Nat → SigAction) (ops : List SigOp)
    (h : Guarded step (fun s op => s.Supposed op ∧ s.CountsRight op) (fresh arch ctx pages mem handlers) ops) :
    (∀ pre, pre <+: ops →
      let s := run step (fresh arch ctx pages mem handlers) pre
      s.active = [] → ∀ sig, s.invocations sig + s.instances sig = s.deliveries sig) ∧
    ∀ pre op, pre ++ [op] <+: ops →
      let s := run step (fresh arch ctx pages mem handlers) pre
      ∀ sig, s.invocations sig < (s.step op).invocations sig → (s.step op).mask.getLsbD sig = false := by
  constructor
  · rintro pre ⟨post, rfl⟩ s hactive sig
    obtain ⟨hbal, hslot⟩ := balanced_run balance_fresh (.of_none rfl) (guarded_append.mp h).1
    have hsig := hbal.balance sig
    rwa [inSlot_of_none (hslot.slot_of_user hactive)] at hsig
  · rintro pre op ⟨post, rfl⟩ s sig hx
    rw [append_assoc] at h
    obtain ⟨hpre, hop⟩ := guarded_append.mp h
    obtain ⟨hbal, -⟩ := balanced_run balance_fresh (.of_none rfl) hpre
    exact hbal.mask_of_step hop.1.1 hop.1.2 hx

def handlingProcess : SigState :=
  fresh .x86_64 { pc := 0x400000, sp := 0x10800 } (fun n => if n = 16 then some { phys := 0x5000 } else none)
    (fun _ => 0) fun _ => { handler := 0x401000 }

def idleCall : List SigOp :=
  [.syscall { num := 24 }, .body ⟨0, handlingProcess.pages, fun _ => 0⟩, .check none]

theorem signals_acted_on_once_two : let s := run step handlingProcess ([.deliver 2, .deliver 2] ++ idleCall)
    s.invocations 2 = 1 ∧ s.invocations 2 + s.instances 2 = s.deliveries 2 :=
  ⟨by decide +kernel, (signals_acted_on_once _ _ _ _ _ _ (by decide +kernel)).1 _ (prefix_refl _)
    (by decide +kernel) 2⟩

/-- A duplicate of signal 2 has left the queue, and that of signal 10 is stored behind the end. -/
theorem duplicate_lost : let ops := [.deliver 2, .deliver 2] ++ idleCall ++ [.deliver 10, .deliver 10]
    let s := run step handlingProcess ops
    Guarded step Supposed handlingProcess ops ∧ s.active = [] ∧ s.invocations 10 + s.instances 10 ≠ s.deliveries 10 := by
  decide +kernel

end Limnx.Signals
