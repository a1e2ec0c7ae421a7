import Limnx.Theorems.SignalCount
import Limnx.Theorems.SignalFrames
import Limnx.Lib.Interrupts

/-! # Handlers and the code that they interrupt

The kernel keeps the stack of `Interrupts.Machine` as frames in user memory, one saved system call, and one slot for the
handler to enter (`Matches`). -/

namespace Limnx.Signals

open Bool Interrupts Function GuardedRun List

structure Place where
  pc : U64
  sp : U64
deriving DecidableEq

abbrev Nest := Interrupts.Machine Place U64 Call
abbrev NestStack := List (Interrupts.Suspended Place U64 Call)
abbrev NestEvent := Interrupts.Event Place U64 Call

def UserCtx.place (c : UserCtx) : Place := ⟨c.pc, c.sp⟩

def minusEintr : U64 := BitVec.ofInt 64 (-EINTR)

namespace SigState
variable {s t : SigState} {alloc : Option Nat} {call : Call} {result : U64}
  {rest : List Activation} {stack : NestStack} {frames : List U64} {arch : Arch} {w : Nat → U64}
  {pages : Nat → Option UserPage} {f : U64} {m : Nest}

def returnEvent (s : SigState) (result : U64) : NestEvent :=
  match s.slot with
  | some d => .interrupt ⟨d.handler, d.frame⟩ (result = minusEintr && (s.handlers d.sig).restart)
  | none => .resume

def answered (s : SigState) : U64 :=
  match s.active with
  | { result := some r, .. } :: _ => r
  | _ => 0

/-- The events of a step. A call counts when it is made and when it is over, a `sys_sigreturn` when its body
    runs, and a handler when it is invoked. -/
def events (s : SigState) (op : SigOp) : List NestEvent :=
  if s.exited then []
  else
    match op, s.active with
    | .user ctx _ _, [] => if ctx.userMode s.arch then [.move ctx.place] else []
    | .syscall call, [] => if call.num = s.arch.sysRtSigreturn then [] else [.call call]
    | .refuse, { call, result := none } :: rest =>
      if call.num = s.arch.sysRtSigreturn then []
      else if rest = [] then [.done (s.refusal call), s.returnEvent (s.refusal call)]
      else [.done (s.refusal call)]
    | .body o, { call, result := none } :: _ =>
      if !s.arch.hasHandler call.num then []
      else if call.num = s.arch.sysRtSigreturn then [.leave]
      else [.done (s.body call o).answered]
    | .check alloc, { call, result := some result } :: rest =>
      let t := s.signalCheck alloc call result
      if t.exited ∨ rest ≠ [] then [] else [t.returnEvent result]
    | _, _ => []

inductive EventCase (s : SigState) : SigOp → SigState → List NestEvent → Prop
  | same (op : SigOp) : EventCase s op s []
  | deliver (sig : Nat) : EventCase s (.deliver sig) (s.processDeliverSignal sig) []
  | user (ctx : UserCtx) (pages : Nat → Option UserPage) (mem : Nat → U64) : s.active = [] →
      EventCase s (.user ctx pages mem) { s with ctx, pages, mem, active := [] } [.move ctx.place]
  | sigreturn (call : Call) : s.active = [] → call.num = s.arch.sysRtSigreturn →
      EventCase s (.syscall call) { s with active := [{ call }] } []
  | syscall (call : Call) : s.active = [] → call.num ≠ s.arch.sysRtSigreturn →
      EventCase s (.syscall call) { s with active := [{ call }] } [.call call]
  | refuse (call : Call) : s.active = [{ call }] → call.num ≠ s.arch.sysRtSigreturn →
      EventCase s .refuse (s.returnToUser (s.refusal call)) [.done (s.refusal call), s.returnEvent (s.refusal call)]
  | refuseInner (call : Call) (a : Activation) (rest : List Activation) : s.active = { call } :: a :: rest →
      call.num ≠ s.arch.sysRtSigreturn →
      EventCase s .refuse { s with active := { a with result := some (s.refusal call) } :: rest }
        [.done (s.refusal call)]
  | leave (o : Outcome) (call : Call) (rest : List Activation) : s.active = { call } :: rest →
      call.num = s.arch.sysRtSigreturn → EventCase s (.body o) s.sysSigreturn [.leave]
  | body (o : Outcome) (call : Call) (rest : List Activation) : s.active = { call } :: rest →
      s.arch.hasHandler call.num → call.num ≠ s.arch.sysRtSigreturn →
      EventCase s (.body o) (s.body call o) [.done (s.body call o).answered]
  | check (alloc : Option Nat) (call : Call) (result : U64) :
      s.active = [{ call, result := some result }] →
      EventCase s (.check alloc) ((s.signalCheck alloc call result).returnToUser result)
        [(s.signalCheck alloc call result).returnEvent result]
  | checkInner (alloc : Option Nat) (call : Call) (result : U64) (a : Activation) (rest : List Activation) :
      s.active = { call, result := some result } :: a :: rest →
      EventCase s (.check alloc)
        { s.signalCheck alloc call result with active := { a with result := some result } :: rest } []
  | killed (alloc : Option Nat) (call : Call) (result : U64) (rest : List Activation) :
      s.active = { call, result := some result } :: rest → s.exited = false →
      (s.signalCheck alloc call result).exited → EventCase s (.check alloc) (s.signalCheck alloc call result) []

theorem event_cases (s : SigState) (op : SigOp) : EventCase s op (s.step op) (s.events op) := by
  unfold step events
  split
  · exact .same op
  rename_i hlive
  rw [not_eq_true] at hlive
  split
  · exact .deliver _
  next hactive =>
    rw [hactive]
    dsimp only
    split
    · exact .user _ _ _ hactive
    · exact .same _
  next hactive =>
    rw [hactive]
    dsimp only
    split
    · exact .sigreturn _ hactive ‹_›
    · exact .syscall _ hactive ‹_›
  next rest hactive =>
    rw [hactive]
    dsimp only
    split
    · exact .same _
    cases rest with
    | nil => exact .refuse _ hactive ‹_›
    | cons a rest => exact .refuseInner _ a rest hactive ‹_›
  next hactive =>
    rw [hactive]
    dsimp only
    split
    next hhandler =>
      rw [if_neg (by simp [hhandler])]
      split
      next hnum =>
        rw [body_sigreturn _ hnum]
        exact .leave _ _ _ hactive hnum
      · exact .body _ _ _ hactive hhandler ‹_›
    next hnone =>
      rw [if_pos (by simpa using hnone)]
      exact .same _
  next rest hactive =>
    rw [hactive]
    dsimp only
    split
    next hexit =>
      rw [if_pos (.inl hexit)]
      exact .killed _ _ _ _ hactive hlive hexit
    next hlive =>
      cases rest with
      | nil =>
        rw [if_neg (by simp [hlive])]
        exact .check _ _ _ hactive
      | cons a rest =>
        rw [if_pos (by simp)]
        exact .checkInner _ _ _ a rest hactive
  next h1 h2 h3 h4 h5 h6 =>
    split
    · exact (h2 _ _ _ rfl ‹_›).elim
    · exact (h3 _ rfl ‹_›).elim
    · exact (h4 _ _ rfl ‹_›).elim
    · exact (h5 _ _ _ rfl ‹_›).elim
    · exact (h6 _ _ _ _ rfl ‹_›).elim
    · exact .same _

def trace (s : SigState) : List SigOp → List NestEvent
  | [] => []
  | op :: ops => s.events op ++ (s.step op).trace ops

theorem trace_append (s : SigState) (ops ops' : List SigOp) :
    s.trace (ops ++ ops') = s.trace ops ++ (run step s ops).trace ops' := by
  induction ops generalizing s with
  | nil => rfl
  | cons op ops ih =>
    change s.events op ++ (s.step op).trace (ops ++ ops') = (s.events op ++ (s.step op).trace ops) ++ _
    rw [ih, append_assoc]
    rfl

structure Holds (s : SigState) (f : U64) (i : Interrupts.Suspended Place U64 Call) : Prop where
  ne_zero : f ≠ 0
  fits : Fits s.arch f
  words : ∃ w, s.readFrame f = some w ∧ (frameCtx s.arch {} w).place = i.place ∧ frameResult s.arch w = i.result

def Saved (s : SigState) (frames : List U64) (stack : NestStack) : Prop :=
  List.Forall₂ s.Holds frames stack

theorem place_frameCtx {c : UserCtx} : (frameCtx arch c w).place = (frameCtx arch {} w).place := by
  cases arch <;> rfl

theorem frame_congr {w w' : Nat → U64} (h : ∀ i < arch.frameLen, w' i = w i) :
    (frameCtx arch {} w').place = (frameCtx arch {} w).place ∧ frameResult arch w' = frameResult arch w := by
  cases arch with
  | x86_64 =>
    have h0 := h 0 (by decide)
    have h1 := h 1 (by decide)
    have h3 := h 3 (by decide)
    simp [frameCtx, frameResult, UserCtx.place, h0, h1, h3]
  | arm64 =>
    have h0 := h 0 (by decide)
    have h31 := h 31 (by decide)
    have h33 := h 33 (by decide)
    simp [frameCtx, frameResult, UserCtx.place, h0, h31, h33]

theorem frame_roundtrip {c : UserCtx} (h : ∀ i < arch.frameLen, w i = frameWords arch c result i) :
    (frameCtx arch {} w).place = c.place ∧ frameResult arch w = result := by
  obtain ⟨hplace, hresult⟩ := frame_congr h
  rw [hplace, hresult]
  cases arch <;> exact ⟨rfl, rfl⟩

theorem Holds.kept {i : Suspended Place U64 Call} (h : s.Holds f i)
    (harch : t.arch = s.arch) (hkeep : KeepsFrame s t f) : t.Holds f i := by
  obtain ⟨w, hw, hplace, hresult⟩ := h.words
  obtain ⟨w', hw', heq⟩ := hkeep w hw
  obtain ⟨hplace', hresult'⟩ := frame_congr heq
  refine ⟨h.ne_zero, harch ▸ h.fits, w', hw', ?_, ?_⟩
  · rw [harch, hplace', hplace]
  · rw [harch, hresult', hresult]

theorem Saved.kept (h : s.Saved frames stack) (harch : t.arch = s.arch) (hkeep : ∀ f ∈ frames, KeepsFrame s t f) :
    t.Saved frames stack := by
  induction h with
  | nil => exact .nil
  | cons hhead _ ih =>
    exact .cons (hhead.kept harch (hkeep _ mem_cons_self)) (ih fun f hf => hkeep f (mem_cons_of_mem _ hf))

theorem Saved.fits (h : s.Saved frames stack) (hf : f ∈ frames) : Fits s.arch f := by
  induction h with
  | nil => cases hf
  | cons hhead _ ih =>
    rcases mem_cons.mp hf with rfl | hf
    · exact hhead.fits
    · exact ih hf

theorem Saved.same (h : s.Saved frames stack) (hsame : (t.arch, t.pages, t.mem) = (s.arch, s.pages, s.mem)) :
    t.Saved frames stack := by
  obtain ⟨harch, hpages, hmem⟩ := by simpa only [Prod.mk.injEq] using hsame
  refine h.kept harch fun f _ w hw => ⟨w, ?_, fun _ _ => rfl⟩
  unfold readFrame wordAddr at hw ⊢
  rw [hpages, hmem]
  exact hw

def topRerun (stack : NestStack) : Option Call := stack.head?.bind (·.rerun)

def Outermost (s : SigState) (rest : List Activation) : Prop :=
  rest = [] ∨ ∃ call, call.num = s.arch.sysRtSigreturn ∧ rest = [{ call }]

def Again (arch : Arch) (c : Call) : Prop := c.num < sysNr ∧ c.num ≠ arch.sysRtSigreturn

/-- The saved frames and the saved call are those of the stack. -/
structure Stacked (s : SigState) (stack : NestStack) : Prop where
  slot : s.slot = none
  saved : s.Saved s.frames stack
  restart : s.restart = topRerun stack

inductive Point (s : SigState) (m : Nest) : Prop
  | user : s.active = [] → s.Stacked m.stack → m.phase = .running → (∀ r, m.seen = some r → s.ctx.regs 0 = r) → Point s m
  | leaving (call : Call) : s.active = [{ call }] → s.Stacked m.stack → call.num = s.arch.sysRtSigreturn →
      m.phase = .running → Point s m
  | calling (call : Call) (rest : List Activation) : s.active = { call } :: rest → s.Stacked m.stack →
      s.Outermost rest → call.num ≠ s.arch.sysRtSigreturn → m.phase = .calling call → Point s m
  | ended (call : Call) (result : U64) (rest : List Activation) (c : Option Call) :
      s.active = { call, result := some result } :: rest → s.Stacked m.stack → s.Outermost rest →
      m.phase = .ended c result → (call.num ≠ s.arch.sysRtSigreturn → c = some call) →
      (result = minusEintr → ∀ c', c = some c' → Again s.arch c') → Point s m
  | entering (call : Call) (result : U64) (c : Option Call) (d : Slot) (fs : List U64) :
      s.active = [{ call, result := some result }] → s.slot = some d → m.phase = .ended c result →
      s.frames = d.frame :: fs → s.Saved fs m.stack → (∀ rerun, s.Holds d.frame ⟨m.place, result, rerun⟩) →
      (s.restart = if result = minusEintr ∧ (s.handlers d.sig).restart then c else none) → topRerun m.stack = none →
      (call.num ≠ s.arch.sysRtSigreturn → c = some call) →
      (result = minusEintr → ∀ c', c = some c' → Again s.arch c') → Point s m

/-- The process is where the machine is. Only the newest interrupted code can be making its call again. -/
structure Matches (s : SigState) (m : Nest) : Prop where
  place : m.place = s.ctx.place
  lower : ∀ i ∈ m.stack.tail, i.rerun = none
  again : ∀ c, topRerun m.stack = some c → Again s.arch c
  point : s.Point m

theorem Stacked.same (h : s.Stacked stack) (hsame : (t.arch, t.pages, t.mem) = (s.arch, s.pages, s.mem))
    (hrest : (t.slot, t.frames, t.restart) = (s.slot, s.frames, s.restart)) : t.Stacked stack := by
  obtain ⟨hslot, hframes, hrestart⟩ := by simpa only [Prod.mk.injEq] using hrest
  exact ⟨hslot.trans h.slot, hframes ▸ h.saved.same hsame, hrestart.trans h.restart⟩

theorem Stacked.kept (h : s.Stacked stack) (harch : t.arch = s.arch) (hslot : t.slot = s.slot)
    (hframes : t.frames = s.frames) (hrestart : t.restart = s.restart) (hkeep : ∀ f ∈ s.frames, KeepsFrame s t f) :
    t.Stacked stack :=
  ⟨hslot.trans h.slot, hframes ▸ h.saved.kept harch hkeep, hrestart.trans h.restart⟩

theorem Matches.withPending (h : s.Matches m) (pending : U32) (queue : SignalQueue) (exited : Bool)
    (deliveries : Nat → Nat) : Matches { s.withPending pending queue with exited, deliveries } m := by
  refine { h with point := ?_ }
  cases h.point with
  | user hactive hst hphase hseen => exact .user hactive (hst.same rfl rfl) hphase hseen
  | leaving call hactive hst hnum hphase =>
    exact .leaving call hactive (hst.same rfl rfl) hnum hphase
  | calling call rest hactive hst hout hnum hphase =>
    exact .calling call rest hactive (hst.same rfl rfl) hout hnum hphase
  | ended call result rest c hactive hst hout hphase hcall hagain =>
    exact .ended call result rest c hactive (hst.same rfl rfl) hout hphase hcall hagain
  | entering call result c d fs hactive hslot hphase hframes hsaved hholds hrestart htop hcall hagain =>
    exact .entering call result c d fs hactive hslot hphase hframes (hsaved.same rfl)
      (fun rerun => (hholds rerun).kept rfl (.refl s _)) hrestart htop hcall hagain

section
variable {call' : Call}

section
variable (h : s.Matches m) (hactive : s.active = [])
include h hactive

theorem Matches.stacked_of_user : s.Stacked m.stack ∧ m.phase = .running := by
  cases h.point with
  | user _ hst hphase => exact ⟨hst, hphase⟩
  | leaving _ hactive' | calling _ _ hactive' | ended _ _ _ _ hactive' | entering _ _ _ _ _ hactive' =>
    cases hactive.symm.trans hactive'

theorem Matches.user {ctx : UserCtx}
    {mem : Nat → U64} (hkeep : ∀ f ∈ s.frames, KeepsFrame s (s.withMemory pages mem) f) :
    Matches { s with ctx, pages, mem, active := [] } { m with place := ctx.place, seen := none } := by
  obtain ⟨hst, hphase⟩ := h.stacked_of_user hactive
  refine ⟨rfl, h.lower, h.again, .user rfl (hst.kept rfl rfl rfl rfl hkeep) hphase fun r hr => ?_⟩
  cases hr

theorem Matches.callSigreturn (hnum : call.num = s.arch.sysRtSigreturn) :
    Matches { s with active := [{ call }] } m := by
  obtain ⟨hst, hphase⟩ := h.stacked_of_user hactive
  exact { h with point := .leaving call rfl (hst.same rfl rfl) hnum hphase }

theorem Matches.callOther (hnum : call.num ≠ s.arch.sysRtSigreturn) :
    Matches { s with active := [{ call }] } { m with phase := .calling call, seen := none } := by
  obtain ⟨hst, -⟩ := h.stacked_of_user hactive
  exact { h with point := .calling call [] rfl (hst.same rfl rfl) (.inl rfl) hnum rfl }

end

theorem Matches.returns (h : s.Matches m) (hactive : s.active = [{ call, result := some result }]) :
    Matches (s.returnToUser result) (m.step (-1) (s.returnEvent result)) := by
  cases h.point with
  | user hactive' | leaving _ hactive' | calling _ _ hactive' => cases hactive.symm.trans hactive'
  | ended _ _ _ c hactive' hst hout hphase =>
    cases hactive.symm.trans hactive'
    have hstate : s.returnToUser result =
        { s with active := [], ctx := { s.ctx with regs := update s.ctx.regs 0 result } } := by
      rw [returnToUser, hst.slot]
    have hevent : s.returnEvent result = .resume := by rw [returnEvent, hst.slot]
    rw [hstate, hevent]
    change Matches _ m.resume
    rw [Machine.resume, hphase]
    refine { h with point := .user rfl (hst.same rfl rfl) rfl fun r hr => ?_ }
    obtain rfl : result = r := Option.some.inj hr
    change update s.ctx.regs 0 result 0 = result
    exact update_self ..
  | entering _ _ c d fs hactive' hslot hphase hframes hsaved hholds hrestart htop hcall hagain =>
    cases hactive.symm.trans hactive'
    rw [returnToUser, returnEvent, hslot]
    change Matches _ (m.interrupt ⟨d.handler, d.frame⟩ _)
    rw [Machine.interrupt, hphase]
    have hrerun : s.restart = if result = minusEintr && (s.handlers d.sig).restart then c else none := by
      rw [hrestart]
      congr 1
      simp
    refine ⟨rfl, ?_, fun c' hc' => ?_, .user rfl ⟨rfl, ?_, hrerun⟩ rfl fun r hr => ?_⟩
    · intro i hi
      cases hstack : m.stack with
      | nil =>
        rw [hstack] at hi
        cases hi
      | cons j stack =>
        rw [hstack] at hi htop
        rcases mem_cons.mp hi with rfl | hi
        · exact htop
        · exact h.lower i (by rw [hstack]; exact hi)
    · change (if result = minusEintr && (s.handlers d.sig).restart then c else none) = some c' at hc'
      split at hc'
      next hboth => exact hagain (by simpa using (and_eq_true_iff.mp hboth).1) c' hc'
      · cases hc'
    · rw [hframes]
      exact .cons ((hholds _).kept rfl (.refl s _)) (hsaved.same rfl)
    · cases hr

theorem Matches.calling (h : s.Matches m) (hactive : s.active = { call } :: rest)
    (hnum : call.num ≠ s.arch.sysRtSigreturn) : s.Stacked m.stack ∧ s.Outermost rest ∧ m.phase = .calling call := by
  cases h.point with
  | leaving _ hactive' _ hnum' =>
    cases hactive.symm.trans hactive'
    exact absurd hnum' hnum
  | calling _ _ hactive' hst hout _ hphase =>
    cases hactive.symm.trans hactive'
    exact ⟨hst, hout, hphase⟩
  | user hactive' | ended _ _ _ _ hactive' | entering _ _ _ _ _ hactive' => cases hactive.symm.trans hactive'

theorem Matches.leaving (h : s.Matches m) (hactive : s.active = { call } :: rest)
    (hnum : call.num = s.arch.sysRtSigreturn) : s.Stacked m.stack ∧ rest = [] := by
  cases h.point with
  | leaving _ hactive' hst =>
    cases hactive.symm.trans hactive'
    exact ⟨hst, rfl⟩
  | calling _ _ hactive' _ _ hother =>
    cases hactive.symm.trans hactive'
    exact absurd hnum hother
  | user hactive' | ended _ _ _ _ hactive' | entering _ _ _ _ _ hactive' => cases hactive.symm.trans hactive'

theorem done_of_calling (hphase : m.phase = .calling call) (result : U64) :
    m.done result = { m with phase := .ended (some call) result } := by
  rw [Machine.done, hphase]

theorem refusal_ne_minusEintr : s.refusal call ≠ minusEintr := by
  unfold refusal
  split <;> decide

theorem hasHandler_lt {num : Nat} (h : arch.hasHandler num) : num < sysNr := by
  have hlinux : ∀ n ∈ arch.linuxNumbers, n < sysNr := by cases arch <;> decide
  simp only [Arch.hasHandler, or_eq_true, and_eq_true, contains_iff_mem, decide_eq_true_iff] at h
  obtain (h | ⟨-, h⟩) | ⟨-, h⟩ := h
  · exact hlinux num h
  · exact lt_of_le_of_lt h (by decide)
  · exact lt_of_le_of_lt h (by decide)

theorem Matches.refuseInner (h : s.Matches m) {a : Activation}
    (hactive : s.active = { call } :: a :: rest) (hnum : call.num ≠ s.arch.sysRtSigreturn) :
    Matches { s with active := { a with result := some (s.refusal call) } :: rest } (m.done (s.refusal call)) := by
  obtain ⟨hst, hout, hphase⟩ := h.calling hactive hnum
  obtain hnil | ⟨call', hnum', hone⟩ := hout
  · cases hnil
  cases hone
  rw [done_of_calling hphase]
  refine { h with point := .ended call' _ [] (some call) rfl (hst.same rfl rfl) (.inl rfl) rfl ?_ ?_ }
  · exact fun hother => absurd hnum' hother
  · exact fun heintr => absurd heintr refusal_ne_minusEintr

theorem Matches.refuse (h : s.Matches m) (hactive : s.active = [{ call }]) (hnum : call.num ≠ s.arch.sysRtSigreturn) :
    Matches (s.returnToUser (s.refusal call)) (m.run (-1) [.done (s.refusal call), s.returnEvent (s.refusal call)]) := by
  obtain ⟨hst, -, hphase⟩ := h.calling hactive hnum
  have hended : Matches { s with active := [{ call, result := some (s.refusal call) }] } (m.done (s.refusal call)) := by
    rw [done_of_calling hphase]
    exact ⟨h.place, h.lower, h.again, .ended call _ [] (some call) rfl (hst.same rfl rfl) (.inl rfl) rfl
      (fun _ => rfl) fun heintr => absurd heintr refusal_ne_minusEintr⟩
  exact hended.returns rfl

theorem Matches.body (h : s.Matches m) (hactive : s.active = { call } :: rest)
    (hhandler : s.arch.hasHandler call.num) (hnum : call.num ≠ s.arch.sysRtSigreturn) {o : Outcome}
    (hkeep : ∀ f ∈ s.frames, KeepsFrame s (s.withMemory o.pages o.mem) f) :
    Matches (s.body call o) (m.done (s.body call o).answered) := by
  obtain ⟨hst, hout, hphase⟩ := h.calling hactive hnum
  obtain ⟨handlers, mask, r, hbody, -⟩ := body_answers o hnum
  rw [hbody]
  have hdone : ({ s.withMemory o.pages o.mem with handlers, mask }.answer r).active =
      { call, result := some r } :: rest := answer_active hactive
  have hanswered : ({ s.withMemory o.pages o.mem with handlers, mask }.answer r).answered = r := by
    rw [answered, hdone]
  rw [hanswered, done_of_calling hphase]
  exact ⟨h.place, h.lower, h.again, .ended call r rest (some call) hdone (hst.kept rfl rfl rfl rfl hkeep) hout rfl
    (fun _ => rfl) fun _ c hc => by cases hc; exact ⟨hasHandler_lt hhandler, hnum⟩⟩

theorem topRerun_of_none (h : ∀ i ∈ stack, i.rerun = none) : topRerun stack = none := by
  cases stack with
  | nil => rfl
  | cons i stack => exact h i mem_cons_self

theorem Matches.top (h : s.Matches m) (hst : s.Stacked m.stack) {fs : List U64}
    (hf : s.frames = f :: fs) (hw : s.readFrame f = some w) :
    ∃ stack, m.stack = ⟨(frameCtx s.arch s.ctx w).place, frameResult s.arch w, s.restart⟩ :: stack ∧
      s.Saved fs stack ∧ ∀ i ∈ stack, i.rerun = none := by
  have hsaved : s.Saved (f :: fs) m.stack := hf ▸ hst.saved
  have hrestart := hst.restart
  have hlower := h.lower
  cases hstack : m.stack with
  | nil =>
    rw [hstack] at hsaved
    cases hsaved
  | cons i stack =>
    rw [hstack] at hsaved hrestart hlower
    obtain ⟨place, result, rerun⟩ := i
    cases hsaved with
    | cons hholds hrest =>
      obtain ⟨w', hw', hplace, hresult⟩ := hholds.words
      obtain rfl : w = w' := Option.some.inj (hw.symm.trans hw')
      obtain rfl : s.restart = rerun := hrestart
      obtain rfl : (frameCtx s.arch s.ctx w).place = place := place_frameCtx.trans hplace
      obtain rfl : frameResult s.arch w = result := hresult
      exact ⟨stack, rfl, hrest, hlower⟩

theorem Stacked.frames_of_failed (h : s.Stacked stack)
    (hnone : ∀ f fs, s.frames = f :: fs → f = 0 ∨ s.readFrame f = none) : s.frames = [] ∧ stack = [] := by
  have hsaved := h.saved
  cases hframes : s.frames with
  | nil =>
    rw [hframes] at hsaved
    exact ⟨rfl, forall₂_nil_left_iff.mp hsaved⟩
  | cons f fs =>
    rw [hframes] at hsaved
    cases hsaved with
    | cons hholds =>
      obtain ⟨w, hw, -⟩ := hholds.words
      rcases hnone f fs hframes with hzero | hread
      · exact absurd hzero hholds.ne_zero
      · cases hread.symm.trans hw

theorem Matches.leave (h : s.Matches m) (hactive : s.active = { call } :: rest)
    (hnum : call.num = s.arch.sysRtSigreturn) : Matches s.sysSigreturn (m.leave (-1)) := by
  obtain ⟨hst, rfl⟩ := h.leaving hactive hnum
  have hret := sigreturn_cases s
  generalize s.sysSigreturn = t at hret
  cases hret with
  | failed hnone =>
    obtain ⟨hframes, hstack⟩ := hst.frames_of_failed hnone
    have htail : s.frames.tail = s.frames := by rw [hframes]; rfl
    have hleave : m.leave (-1) = { m with phase := .ended none (-1), seen := none } := by
      rw [Machine.leave, hstack]
    rw [hleave, htail]
    refine { h with point := ?_ }
    exact .ended call (-1) [] none (answer_active hactive) (hst.same rfl rfl) (.inl rfl) rfl
      (fun hother => absurd hnum hother) fun _ c hc => nomatch hc
  | restored f fs w hf hf0 hw hlast =>
    obtain ⟨stack, hstack, hsaved, hlower⟩ := h.top hst hf hw
    have hrestart : s.restart = none := by
      cases hc : s.restart with
      | none => rfl
      | some c =>
        have hagain := h.again c (by rw [hstack, ← hc]; rfl)
        exact absurd hagain.1 (Nat.not_lt_of_ge (hlast c hc))
    simp only [Machine.leave, hstack, hrestart]
    have htop := topRerun_of_none hlower
    refine ⟨rfl, fun i hi => hlower i (mem_of_mem_tail hi), fun c hc => ?_, ?_⟩
    · cases htop.symm.trans hc
    · exact .ended call _ [] none (answer_active hactive) ⟨hst.slot, hsaved.same rfl, htop.symm⟩ (.inl rfl) rfl
        (fun hother => absurd hnum hother) fun _ c hc => nomatch hc
  | rerun f fs w c hf hf0 hw hc hlt =>
    obtain ⟨stack, hstack, hsaved, hlower⟩ := h.top hst hf hw
    have hagain := h.again c (by rw [hstack, ← hc]; rfl)
    simp only [Machine.leave, hstack, hc]
    have htop := topRerun_of_none hlower
    refine ⟨rfl, fun i hi => hlower i (mem_of_mem_tail hi), fun c' hc' => ?_, ?_⟩
    · cases htop.symm.trans hc'
    · exact .calling c s.active rfl ⟨hst.slot, hsaved.same rfl, htop.symm⟩ (.inr ⟨call, hnum, hactive⟩)
        hagain.2 rfl

/-! ### Signal checks -/

/-- The depth is not exhausted, the stack pointer is below the saved frames, and the pages of the stack are different
    frames of memory. -/
@[mk_iff]
structure StackBelow (s : SigState) (alloc : Option Nat) : Prop where
  depth : s.frames.length < maxSignalDepth
  below : ∀ f ∈ s.frames, s.ctx.sp.toNat ≤ f.toNat
  apart : s.PagesApart alloc

instance (s : SigState) (alloc : Option Nat) : Decidable (s.StackBelow alloc) :=
  decidable_of_iff' _ (stackBelow_iff s alloc)

/-- The kernel's records have room for the handler of a signal: no other handler is to be entered, no system call is
    saved, the call that ends is not a `sys_sigreturn` that would be saved, and the frame lies inside one page of user
    space. -/
@[mk_iff]
structure RoomFor (s : SigState) (sig : Nat) : Prop where
  slot : s.slot = none
  restart : s.restart = none
  own : ∀ a ∈ s.active.head?, a.call.num = s.arch.sysRtSigreturn → a.result = some minusEintr →
    (s.handlers sig).restart = false
  space : 8 * s.arch.frameLen ≤ s.ctx.sp.toNat
  ne_zero : frameAddr s.arch s.ctx.sp ≠ 0
  fits : Fits s.arch (frameAddr s.arch s.ctx.sp)

instance (s : SigState) (sig : Nat) : Decidable (s.RoomFor sig) := decidable_of_iff' _ (roomFor_iff s sig)

theorem Outermost.hands {c : Option Call} (h : s.Outermost rest)
    (hrest : rest = [] ∧ call' = call ∨ rest = [{ call := call' }])
    (hcall : call.num ≠ s.arch.sysRtSigreturn → c = some call) (hnum : call'.num ≠ s.arch.sysRtSigreturn) :
    c = some call' := by
  obtain ⟨-, rfl⟩ | hone := hrest
  · exact hcall hnum
  obtain hnil | ⟨call'', hnum'', hone'⟩ := h
  · cases hone.symm.trans hnil
  · cases hone.symm.trans hone'
    exact absurd hnum'' hnum

section
variable (h : s.Matches m) (hactive : s.active = { call, result := some result } :: rest)
  (hrest : rest = [] ∧ call' = call ∨ rest = [{ call := call' }])
include h hactive hrest

theorem Matches.entered {sig n : Nat} {u : SigState} {pending : U32} {queue : SignalQueue}
    (hbelow : s.StackBelow alloc) (hroom : s.RoomFor sig)
    (hcow : s.breakCow alloc (pageOf (frameAddr s.arch s.ctx.sp).toNat) = some u)
    (hword : u.wordAddr (frameAddr s.arch s.ctx.sp) = some n) :
    Matches { s.withPending pending queue with
      pages := u.pages
      mem := writeWords u.mem n s.arch.frameLen (frameWords s.arch s.ctx result)
      frames := frameAddr s.arch s.ctx.sp :: s.frames
      restart := if result = BitVec.ofInt 64 (-EINTR) ∧ (s.handlers sig).restart then some call else none
      slot := some { handler := (s.handlers sig).handler, frame := frameAddr s.arch s.ctx.sp, sig }
      active := [{ call := call', result := some result }] } m := by
  refine { h with point := ?_ }
  cases h.point with
  | user hactive' | leaving _ hactive' | calling _ _ hactive' => cases hactive.symm.trans hactive'
  | entering _ _ _ _ _ _ hslot => cases hroom.slot.symm.trans hslot
  | ended _ _ _ c hactive' hst hout hphase hcall hagain =>
    cases hactive.symm.trans hactive'
    refine .entering call' result c _ s.frames rfl rfl hphase rfl (hst.saved.kept rfl fun f hf => ?_) (fun rerun => ?_)
      ?_ (hst.restart.symm.trans hroom.restart) (hout.hands hrest hcall) hagain
    · exact push_keeps hbelow.apart hf (hst.saved.fits hf) hroom.fits
        ((toNat_frameAddr_le hroom.space).trans (hbelow.below f hf)) hcow hword
    · obtain ⟨w, hw, hwords⟩ := push_reads s (frameWords s.arch s.ctx result) hword
      obtain ⟨hplace, hresult⟩ := frame_roundtrip hwords
      exact ⟨hroom.ne_zero, hroom.fits, w, hw, hplace.trans h.place.symm, hresult⟩
    · -- a `sys_sigreturn` is never saved, and any other call is the one that ends
      change (if result = minusEintr ∧ (s.handlers sig).restart then some call else none) =
        if result = minusEintr ∧ (s.handlers sig).restart then c else none
      by_cases hsaves : result = minusEintr ∧ (s.handlers sig).restart
      · rw [if_pos hsaves, if_pos hsaves]
        refine (hcall fun hnum => ?_).symm
        have hown := hroom.own { call, result := some result } (by rw [hactive]; rfl) hnum (by rw [hsaves.1])
        rw [hown] at hsaves
        cases hsaves.2
      · rw [if_neg hsaves, if_neg hsaves]

theorem Matches.checked (hbelow : ∀ sig < maxSignals, s.Catches sig → s.StackBelow alloc)
    (hroom : ∀ sig < maxSignals, s.Catches sig → s.RoomFor sig) :
    Matches { s.signalCheck alloc call result with active := [{ call := call', result := some result }] } m := by
  have hcase := signalCheck_cases s alloc call result
  generalize s.signalCheck alloc call result = t at hcase
  cases hcase with
  | entered pending queue sig u n hdepth hlt hdel hign hdfl hcow hword =>
    have hcatch : s.Catches sig := ⟨hlt, hdel, hign, hdfl⟩
    exact h.entered hactive hrest (hbelow sig hlt hcatch) (hroom sig hlt hcatch) hcow hword
  | quiet pending queue exited pages mem hsame =>
    obtain ⟨rfl, rfl⟩ := hsame fun sig hsig => (hbelow sig hsig.lt hsig).depth
    have hquiet := h.withPending pending queue exited s.deliveries
    refine { h with point := ?_ }
    cases hquiet.point with
    | user hactive' | leaving _ hactive' | calling _ _ hactive' => cases hactive.symm.trans hactive'
    | ended _ _ _ c hactive' hst hout hphase hcall hagain =>
      cases hactive.symm.trans hactive'
      exact .ended call' result [] c rfl (hst.same rfl rfl) (.inl rfl) hphase (hout.hands hrest hcall) hagain
    | entering _ _ c d fs hactive' hslot hphase hframes hsaved hholds hrestart htop hcall hagain =>
      cases hactive.symm.trans hactive'
      exact .entering call' result c d fs rfl hslot hphase hframes (hsaved.same rfl)
        (fun rerun => (hholds rerun).kept rfl (.refl _ _)) hrestart htop (Outermost.hands (.inl rfl) hrest hcall) hagain

end

theorem Matches.inner (h : s.Matches m) {a : Activation}
    (hactive : s.active = { call, result := some result } :: a :: rest) :
    ∃ call', a = { call := call' } ∧ rest = [] := by
  cases h.point with
  | user hactive' | leaving _ hactive' | calling _ _ hactive' | entering _ _ _ _ _ hactive' =>
    cases hactive.symm.trans hactive'
  | ended _ _ _ _ hactive' _ hout =>
    cases hactive.symm.trans hactive'
    obtain hnil | ⟨call', -, hone⟩ := hout
    · cases hnil
    · cases hone
      exact ⟨call', rfl, rfl⟩

theorem Matches.killed (h : s.Matches m) (hlive : s.exited = false)
    (hexit : (s.signalCheck alloc call result).exited) (hbelow : ∀ sig < maxSignals, s.Catches sig → s.StackBelow alloc) :
    Matches (s.signalCheck alloc call result) m := by
  have hcase := signalCheck_cases s alloc call result
  generalize s.signalCheck alloc call result = t at hcase hexit
  cases hcase with
  | entered => cases hlive.symm.trans hexit
  | quiet pending queue exited pages mem hsame =>
    obtain ⟨rfl, rfl⟩ := hsame fun sig hsig => (hbelow sig hsig.lt hsig).depth
    exact h.withPending pending queue exited s.deliveries

end

/-- User code and the bodies of system calls leave saved frames as they are; when a handler is to be entered, the stack
    pointer is below them, and the depth is not exhausted. -/
def LeavesFrames (s : SigState) : SigOp → Prop
  | .user _ pages mem => ∀ f ∈ s.frames, KeepsFrame s (s.withMemory pages mem) f
  | .body o => ∀ a ∈ s.active.head?, a.call.num ≠ s.arch.sysRtSigreturn →
    ∀ f ∈ s.frames, KeepsFrame s (s.withMemory o.pages o.mem) f
  | .check alloc => ∀ sig < maxSignals, s.Catches sig → s.StackBelow alloc
  | _ => True

/-- The condition: a check that finds a signal with a handler has room for it. -/
def TakesAlone (s : SigState) : SigOp → Prop
  | .check _ => ∀ sig < maxSignals, s.Catches sig → s.RoomFor sig
  | _ => True

instance (s : SigState) (op : SigOp) : Decidable (s.LeavesFrames op) := by
  match op with
  | .user .. | .body _ | .check _ | .deliver _ | .syscall _ | .refuse =>
    unfold LeavesFrames
    infer_instance

instance (s : SigState) (op : SigOp) : Decidable (s.TakesAlone op) := by
  match op with
  | .check _ | .deliver _ | .user .. | .syscall _ | .refuse | .body _ =>
    unfold TakesAlone
    infer_instance

theorem Matches.step {op : SigOp} (h : s.Matches m) (hleaves : s.LeavesFrames op) (halone : s.TakesAlone op) :
    Matches (s.step op) (m.run (-1) (s.events op)) := by
  have hcase := event_cases s op
  generalize s.step op = t at hcase
  generalize s.events op = evs at hcase
  cases hcase with
  | same => exact h
  | deliver sig =>
    obtain ⟨pending, queue, exited, deliveries, heq⟩ := deliver_eq s sig
    rw [heq]
    exact h.withPending pending queue exited deliveries
  | user ctx pages mem hactive => exact h.user hactive hleaves
  | sigreturn call hactive hnum => exact h.callSigreturn hactive hnum
  | syscall call hactive hnum => exact h.callOther hactive hnum
  | refuse call hactive hnum => exact h.refuse hactive hnum
  | refuseInner call a rest hactive hnum => exact h.refuseInner hactive hnum
  | leave o call rest hactive hnum => exact h.leave hactive hnum
  | body o call rest hactive hhandler hnum =>
    exact h.body hactive hhandler hnum (hleaves { call } (by rw [hactive]; rfl) hnum)
  | check alloc call result hactive =>
    exact (h.checked hactive (.inl ⟨rfl, rfl⟩) hleaves halone).returns rfl
  | checkInner alloc call result a rest hactive =>
    obtain ⟨call', rfl, rfl⟩ := h.inner hactive
    exact h.checked hactive (.inr rfl) hleaves halone
  | killed alloc call result rest hactive hlive hexit => exact h.killed hlive hexit hleaves

theorem Matches.run {ops : List SigOp} (h : s.Matches m)
    (hops : Guarded SigState.step (fun s op => s.LeavesFrames op ∧ s.TakesAlone op) s ops) :
    Matches (run SigState.step s ops) (m.run (-1) (s.trace ops)) := by
  induction ops generalizing s m with
  | nil => exact h
  | cons op ops ih =>
    rw [trace, Machine.run_append]
    exact ih (h.step hops.1.1 hops.1.2) hops.2

theorem matches_fresh {ctx : UserCtx} {mem : Nat → U64}
    {handlers : Nat → SigAction} : (fresh arch ctx pages mem handlers).Matches { place := ctx.place } := by
  refine ⟨rfl, fun i hi => ?_, fun c hc => ?_, .user rfl ⟨rfl, .nil, rfl⟩ rfl fun r hr => ?_⟩
  · cases hi
  · cases hc
  · cases hr

theorem Matches.active_of_calling (h : s.Matches m) (hphase : m.phase = .calling call) :
    ∃ rest, s.active = { call } :: rest := by
  cases h.point with
  | calling _ rest hactive _ _ _ hphase' =>
    cases hphase.symm.trans hphase'
    exact ⟨rest, hactive⟩
  | user _ _ hphase' | leaving _ _ _ _ hphase' | ended _ _ _ _ _ _ _ hphase' | entering _ _ _ _ _ _ _ hphase' =>
    cases hphase.symm.trans hphase'

theorem Matches.active_of_ended {c : Option Call} (h : s.Matches m) (hphase : m.phase = .ended c result) :
    ∃ call rest, s.active = { call, result := some result } :: rest := by
  cases h.point with
  | user _ _ hphase' | leaving _ _ _ _ hphase' | calling _ _ _ _ _ _ hphase' => cases hphase.symm.trans hphase'
  | ended call _ rest _ hactive _ _ hphase' =>
    cases hphase.symm.trans hphase'
    exact ⟨call, rest, hactive⟩
  | entering call _ _ _ _ hactive _ hphase' =>
    cases hphase.symm.trans hphase'
    exact ⟨call, [], hactive⟩

theorem Matches.ended_of_active (h : s.Matches m) (hactive : s.active = { call, result := some result } :: rest) :
    ∃ c, m.phase = .ended c result ∧ (call.num ≠ s.arch.sysRtSigreturn → c = some call) := by
  cases h.point with
  | user hactive' | leaving _ hactive' | calling _ _ hactive' => cases hactive.symm.trans hactive'
  | ended _ _ _ c hactive' _ _ hphase hcall | entering _ _ c _ _ hactive' _ hphase _ _ _ _ _ hcall =>
    cases hactive.symm.trans hactive'
    exact ⟨c, hphase, hcall⟩

theorem active_of_interrupt {op : SigOp} {place : Place} {again : Bool} (h : s.events op = [.interrupt place again]) :
    ∃ call result, s.active = [{ call, result := some result }] := by
  have hcase := event_cases s op
  generalize s.step op = t at hcase
  generalize s.events op = evs at hcase h
  cases hcase
  case check call result hactive => exact ⟨call, result, hactive⟩
  all_goals cases h

end SigState

open SigState

/-- In every run that leaves saved frames alone and in which the kernel's records have room for each handler: the frames
    are the stack of interrupted code, the newest first; and when a handler that interrupted a call returns, the code is
    at the end of the call with its result, or makes it again if that was due. -/
theorem handlers_transparent (arch : Arch) (ctx : UserCtx) (pages : Nat → Option UserPage) (mem : Nat → U64)
    (handlers : Nat → SigAction) (ops : List SigOp)
    (h : Guarded step (fun s op => s.LeavesFrames op ∧ s.TakesAlone op) (fresh arch ctx pages mem handlers) ops) :
    let start := fresh arch ctx pages mem handlers
    let nest (ops : List SigOp) : Nest := Machine.run { place := ctx.place } (-1) (start.trace ops)
    (∀ pre, pre <+: ops → (run step start pre).Matches (nest pre)) ∧
    ∀ pre op mid last, pre ++ op :: (mid ++ [last]) <+: ops →
      let s := run step start pre
      let t := run step (s.step op) mid
      ∀ place again, s.events op = [.interrupt place again] →
        (∀ evs, evs <+: (s.step op).trace mid →
          (nest pre).stack.length < (((nest pre).interrupt place again).run (-1) evs).stack.length) →
        (nest (pre ++ op :: mid)).stack.length = (nest pre).stack.length + 1 → t.events last = [.leave] →
        (t.step last).ctx.place = s.ctx.place ∧ ∃ call result c,
          s.active = [{ call, result := some result }] ∧ (nest pre).phase = .ended c result ∧
          (call.num ≠ s.arch.sysRtSigreturn → c = some call) ∧
          match if again then c else none with
          | some call => ∃ rest, (t.step last).active = { call } :: rest
          | none => ∃ call rest, (t.step last).active = { call, result := some result } :: rest := by
  intro start nest
  have hmatch (pre : List SigOp) (hpre : pre <+: ops) : (run step start pre).Matches (nest pre) := by
    obtain ⟨post, rfl⟩ := hpre
    exact matches_fresh.run (guarded_append.mp h).1
  refine ⟨hmatch, ?_⟩
  intro pre op mid last hpre s t place again hint habove hlast hleave
  have hs : s.Matches (nest pre) := hmatch pre ((prefix_append ..).trans hpre)
  obtain ⟨call, result, hactive⟩ := active_of_interrupt hint
  obtain ⟨c, hphase, hcall⟩ := hs.ended_of_active hactive
  -- the machine after the handler's return
  have htrace (ops' : List SigOp) : nest (pre ++ op :: ops') =
      ((nest pre).interrupt place again).run (-1) ((s.step op).trace ops') := by
    change Machine.run _ (-1) (start.trace (pre ++ op :: ops')) = _
    rw [trace_append, Machine.run_append, trace, hint]
    rfl
  have hend : nest (pre ++ op :: (mid ++ [last])) =
      (((nest pre).interrupt place again).run (-1) ((s.step op).trace mid)).leave (-1) := by
    rw [htrace, trace_append, Machine.run_append, trace, hleave]
    rfl
  have ht : (t.step last).Matches (nest (pre ++ op :: (mid ++ [last]))) := by
    have hlast := hmatch _ hpre
    rw [run_append, run_cons, run_append] at hlast
    exact hlast
  rw [htrace mid] at hlast
  obtain ⟨hplace, -, hback⟩ := Machine.leave_resumes hphase place again habove hlast
  rw [hend] at ht
  refine ⟨?_, call, result, c, hactive, hphase, hcall, ?_⟩
  · exact ht.place.symm.trans (hplace.trans hs.place)
  · cases hrerun : (if again then c else none) with
    | some call' =>
      rw [hrerun] at hback
      exact ht.active_of_calling hback
    | none =>
      rw [hrerun] at hback
      exact ht.active_of_ended hback

def handledCall (s : SigState) (sig : Nat) (result : Int) : List SigOp :=
  [.deliver sig, .syscall { num := 24 }, .body ⟨result, s.pages, s.mem⟩, .check none]

def handlerReturn : List SigOp :=
  [.syscall { num := Arch.x86_64.sysRtSigreturn }, .body ⟨0, fun _ => none, fun _ => 0⟩, .check none]

/-- A handler in which a call is interrupted by another handler. -/
def nestedCalls : List SigOp :=
  let ops := handledCall handlingProcess 2 7
  ops ++ handledCall (run step handlingProcess ops) 10 9 ++ handlerReturn ++ handlerReturn

theorem handlers_transparent_nested : let s := run step handlingProcess nestedCalls
    s.invocations 2 = 1 ∧ s.invocations 10 = 1 ∧ s.frames = [] ∧ s.ctx.place = handlingProcess.ctx.place ∧
      s.ctx.regs 0 = 7 ∧ s.Matches (Machine.run { place := handlingProcess.ctx.place } (-1) (handlingProcess.trace nestedCalls)) := by
  refine ⟨by decide +kernel, by decide +kernel, by decide +kernel, by decide +kernel, by decide +kernel, ?_⟩
  exact (handlers_transparent _ _ _ _ _ _ (by decide +kernel)).1 _ (prefix_refl _)

def restartingProcess : SigState :=
  { handlingProcess with handlers := fun _ => { handler := 0x401000, restart := true } }

def readCall : Call := { num := 0, args := [3, 0x20000, 64] }

def interruptedRead : List SigOp :=
  [.deliver 2, .syscall readCall, .body ⟨minusEintr, handlingProcess.pages, fun _ => 0⟩, .check none]

def nestedHandler : List SigOp :=
  handledCall (run step restartingProcess interruptedRead) 10 0 ++ handlerReturn ++ handlerReturn.take 2

/-- The read is to be made again, but `sys_sigreturn` answers with its `-EINTR`. -/
theorem restart_forgotten : let ops := interruptedRead ++ nestedHandler
    let s := run step restartingProcess ops
    Guarded step LeavesFrames restartingProcess ops ∧
      s.active = [{ call := { num := Arch.x86_64.sysRtSigreturn }, result := some minusEintr }] ∧
      (Machine.run { place := restartingProcess.ctx.place } (-1) (restartingProcess.trace ops)).phase =
        .calling readCall := by
  decide +kernel

end Limnx.Signals
