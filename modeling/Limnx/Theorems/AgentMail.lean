import Limnx.Lib.GuardedRun
import Limnx.Lib.RingBuffer
import Limnx.AgentReg

/-! # The mailboxes of agents

A call of `agent_send` that delegates a token comes back to a slot found before. -/

namespace Limnx

open Function GuardedRun RingBuffer List Nat

/-- The message that a step returns from registration `r`. -/
def AgentOut.receivedFrom (out : AgentOut) (r : Nat) : List AgentMsg :=
  match out.received with
  | some (q, x) => if q = r then [x] else []
  | none => []

def AgentStep.maxLen : AgentStep → Nat
  | .recv _ maxLen => maxLen
  | _ => 0

namespace AgentWorld
variable {w : AgentWorld} {i j r p : Nat} {e : AgentEntry} {m : AgentMsg}

/-- A mailbox holds what was sent to its registration and not yet taken, and no process has two. -/
structure Mail (w : AgentWorld) : Prop where
  holds : ∀ i, (w.table i).used → Holds (w.table i).msgs agentMboxSlots (w.table i).head (w.table i).tail
    (w.table i).count ((w.sent (w.table i).reg).drop (w.taken (w.table i).reg))
  taken : ∀ r, w.taken r ≤ (w.sent r).length
  fresh : ∀ r, w.nextReg ≤ r → w.sent r = []
  regs : ∀ i, (w.table i).used → (w.table i).reg < w.nextReg
  apart : ∀ i j, (w.table i).used → (w.table j).used → (w.table i).reg = (w.table j).reg → i = j
  count : ∀ i, (w.table i).count ≤ agentMboxSlots
  one : ∀ i < maxAgents, ∀ j < maxAgents, (w.table i).used → (w.table j).used →
    (w.table i).pid = (w.table j).pid → i = j

theorem Mail.init : Mail {} where
  holds _ hu := nomatch hu
  taken _ := Nat.le_refl 0
  fresh _ _ := rfl
  regs _ hu := nomatch hu
  apart _ _ hu := nomatch hu
  count _ := Nat.zero_le _
  one _ _ _ _ hu := nomatch hu

section
variable (h : Mail w)
include h

theorem Mail.goto (p : Nat) (pc : AgentPc) : Mail (w.goto p pc) := { h with }

theorem Mail.newReg (hempty : e.head = 0 ∧ e.tail = 0 ∧ e.count = 0)
    (hone : ∀ j < maxAgents, j ≠ i → (w.table j).used → (w.table j).pid ≠ e.pid) : Mail (w.newReg i e) := by
  have hself : (w.newReg i e).table i = { e with reg := w.nextReg } := update_self ..
  have hother (j : Nat) (hj : j ≠ i) : (w.newReg i e).table j = w.table j := update_of_ne hj ..
  have hnext : (w.newReg i e).nextReg = w.nextReg + 1 := rfl
  obtain ⟨hhead, htail, hcount⟩ := hempty
  refine ⟨fun j hu => ?_, h.taken, fun r hr => h.fresh r (le_of_succ_le hr), fun j hu => ?_, fun j k hj hk heq => ?_,
    fun j => ?_, fun j hj k hk huj huk heq => ?_⟩
  · by_cases hj : j = i
    · rw [hj, hself]
      change Holds e.msgs agentMboxSlots e.head e.tail e.count ((w.sent w.nextReg).drop (w.taken w.nextReg))
      rw [hhead, htail, hcount, h.fresh _ (Nat.le_refl _), drop_nil]
      exact Holds.empty _ (by decide)
    · rw [hother j hj] at hu ⊢
      exact h.holds j hu
  · rw [hnext]
    by_cases hj : j = i
    · rw [hj, hself]
      exact lt_succ_self _
    · rw [hother j hj] at hu ⊢
      exact lt_succ_of_lt (h.regs j hu)
  · by_cases hji : j = i <;> by_cases hki : k = i
    · rw [hji, hki]
    · rw [hji, hself, hother k hki] at heq
      rw [hother k hki] at hk
      exact absurd heq (Nat.ne_of_gt (h.regs k hk))
    · rw [hki, hself, hother j hji] at heq
      rw [hother j hji] at hj
      exact absurd heq (Nat.ne_of_lt (h.regs j hj))
    · rw [hother j hji] at hj heq
      rw [hother k hki] at hk heq
      exact h.apart j k hj hk heq
  · by_cases hj : j = i
    · rw [hj, hself]
      rw [hcount]
      exact Nat.zero_le _
    · rw [hother j hj]
      exact h.count j
  · by_cases hji : j = i <;> by_cases hki : k = i
    · rw [hji, hki]
    · rw [hji, hself, hother k hki] at heq
      rw [hother k hki] at huk
      exact absurd heq.symm (hone k hk hki huk)
    · rw [hki, hself, hother j hji] at heq
      rw [hother j hji] at huj
      exact absurd heq (hone j hj hji huj)
    · rw [hother j hji] at huj heq
      rw [hother k hki] at huk heq
      exact h.one j hj k hk huj huk heq

theorem Mail.unregister (f : AgentEntry → Bool) : Mail (w.unregister f) := by
  have hat (i : Nat) : (w.unregister f).table i =
      if (w.table i).used && f (w.table i) then { w.table i with used := false } else w.table i := rfl
  have htable (i : Nat) : ((w.unregister f).table i).used → (w.unregister f).table i = w.table i := by
    rw [hat]
    split
    · exact nofun
    · exact fun _ => rfl
  refine ⟨fun i hu => ?_, h.taken, h.fresh, fun i hu => ?_, fun i j hi hj heq => ?_, fun i => ?_,
    fun i hi j hj hui huj heq => ?_⟩
  · have hi := htable i hu
    rw [hi] at hu ⊢
    exact h.holds i hu
  · have hi := htable i hu
    rw [hi] at hu ⊢
    exact h.regs i hu
  · have hi' := htable i hi
    have hj' := htable j hj
    rw [hi'] at hi heq
    rw [hj'] at hj heq
    exact h.apart i j hi hj heq
  · rw [hat]
    split
    · exact h.count i
    · exact h.count i
  · have hi' := htable i hui
    have hj' := htable j huj
    rw [hi'] at hui heq
    rw [hj'] at huj heq
    exact h.one i hi j hj hui huj heq

theorem Mail.setMailbox {w' : AgentWorld} (hu : (w.table i).used) (hr : (w.table i).reg = r)
    (htable : w'.table = update w.table i e) (hnext : w'.nextReg = w.nextReg)
    (hlogs : ∀ q ≠ r, w'.sent q = w.sent q ∧ w'.taken q = w.taken q) (he : e.used ∧ e.reg = r ∧ e.pid = (w.table i).pid)
    (hholds : Holds e.msgs agentMboxSlots e.head e.tail e.count ((w'.sent r).drop (w'.taken r)))
    (htaken : w'.taken r ≤ (w'.sent r).length) : Mail w' := by
  have hself : w'.table i = e := by rw [htable]; exact update_self ..
  have hother (j : Nat) (hj : j ≠ i) : w'.table j = w.table j := by rw [htable]; exact update_of_ne hj ..
  have hlt : r < w.nextReg := hr ▸ h.regs i hu
  have hsame (j : Nat) : (w'.table j).used = (w.table j).used ∧ (w'.table j).reg = (w.table j).reg ∧
      (w'.table j).pid = (w.table j).pid := by
    by_cases hj : j = i
    · rw [hj, hself, hr]
      exact ⟨he.1.trans hu.symm, he.2⟩
    · rw [hother j hj]
      exact ⟨rfl, rfl, rfl⟩
  refine ⟨fun j huj => ?_, fun q => ?_, fun q hq => ?_, fun j huj => ?_, fun j k hj hk heq => ?_, fun j => ?_,
    fun j hj k hk huj huk heq => ?_⟩
  · by_cases hj : j = i
    · rw [hj, hself, he.2.1]
      exact hholds
    rw [hother j hj] at huj ⊢
    have hne : (w.table j).reg ≠ r := fun heq => hj (h.apart j i huj hu (heq.trans hr.symm))
    rw [(hlogs _ hne).1, (hlogs _ hne).2]
    exact h.holds j huj
  · by_cases hq : q = r
    · rw [hq]
      exact htaken
    · rw [(hlogs q hq).1, (hlogs q hq).2]
      exact h.taken q
  · rw [hnext] at hq
    rw [(hlogs q (Nat.ne_of_gt (Nat.lt_of_lt_of_le hlt hq))).1]
    exact h.fresh q hq
  · rw [hnext, (hsame j).2.1]
    exact h.regs j ((hsame j).1.symm.trans huj)
  · rw [(hsame j).1] at hj
    rw [(hsame k).1] at hk
    rw [(hsame j).2.1, (hsame k).2.1] at heq
    exact h.apart j k hj hk heq
  · by_cases hj : j = i
    · rw [hj, hself, hholds.count_eq]
      exact hholds.room
    · rw [hother j hj]
      exact h.count j
  · rw [(hsame j).1] at huj
    rw [(hsame k).1] at huk
    rw [(hsame j).2.2, (hsame k).2.2] at heq
    exact h.one j hj k hk huj huk heq

theorem Mail.enqueue (hu : (w.table i).used) (hr : (w.table i).reg = r)
    (hroom : (w.table i).count < agentMboxSlots) : Mail (w.enqueue i r m) := by
  have hbox := h.holds i hu
  rw [hr] at hbox
  have hlen : ((w.sent r).drop (w.taken r)).length < agentMboxSlots := by rw [← hbox.count_eq]; exact hroom
  have hsent : (w.enqueue i r m).sent r = w.sent r ++ [m] := update_self ..
  refine h.setMailbox hu hr rfl rfl (fun q hq => ⟨update_of_ne hq .., rfl⟩) ⟨hu, hr, rfl⟩ ?_ ?_
  · rw [hsent]
    change Holds _ agentMboxSlots _ _ _ ((w.sent r ++ [m]).drop (w.taken r))
    rw [drop_append_of_le_length (h.taken r)]
    exact hbox.push hlen m
  · rw [hsent, length_append]
    exact le_add_right_of_le (h.taken r)

theorem Mail.dequeue (hu : (w.table i).used) (hcount : (w.table i).count ≠ 0) :
    (w.sent (w.table i).reg)[w.taken (w.table i).reg]? = some ((w.table i).msgs (w.table i).head) ∧
      Mail { w.setEntry i (w.table i).dequeue with
        taken := update w.taken (w.table i).reg (w.taken (w.table i).reg + 1) } := by
  obtain ⟨r, hr⟩ : ∃ r, (w.table i).reg = r := ⟨_, rfl⟩
  have hbox := h.holds i hu
  rw [hr] at hbox ⊢
  have hlen : w.taken r < (w.sent r).length := by
    have hc := hbox.count_eq
    rw [length_drop] at hc
    omega
  rw [drop_eq_getElem_cons hlen] at hbox
  obtain ⟨hm, hpop⟩ := hbox.pop
  refine ⟨by rw [hm, getElem?_eq_getElem hlen], ?_⟩
  refine h.setMailbox hu hr rfl rfl (fun q hq => ⟨rfl, update_of_ne hq ..⟩) ⟨hu, hr, rfl⟩ ?_ ?_
  · dsimp only
    rw [update_self]
    exact hpop
  · dsimp only
    rw [update_self]
    exact hlen

end

/-- The slot that the thread comes back to still holds the registration that it has found, with room for the message;
    or it is free. -/
def SlotKept (w : AgentWorld) : AgentPc → Prop
  | .enqueuing i r _ => (w.table i).used → (w.table i).reg = r ∧ (w.table i).count < agentMboxSlots
  | _ => True

instance (w : AgentWorld) : DecidablePred w.SlotKept
  | .enqueuing .. => inferInstanceAs (Decidable (_ → _))
  | .idle | .delegating .. => isTrue trivial

/-- A process that registers has no other registration than the one replaced, and a call of `agent_send` comes back to
    the slot as it left it. -/
def Tidy (w : AgentWorld) : AgentStep → Prop
  | .register p name ns => ∀ j < maxAgents, (w.table j).used → (w.table j).pid = p → w.findName name ns = some j
  | .resume p => w.SlotKept (w.pcs p)
  | _ => True

instance (w : AgentWorld) : DecidablePred w.Tidy := fun _ => by
  unfold Tidy
  split <;> infer_instance

theorem Mail.register (h : Mail w) {name : CStr} {ns : U32}
    (hop : ∀ j < maxAgents, (w.table j).used → (w.table j).pid = p → w.findName name ns = some j) :
    Mail (w.agentRegisterNs name p ns).2 := by
  unfold agentRegisterNs
  cases hfind : w.findName name ns with
  | some i =>
    refine h.newReg ⟨rfl, rfl, rfl⟩ fun j hlt hj hu hpid => hj ?_
    exact Option.some.inj ((hop j hlt hu hpid).symm.trans hfind)
  | none =>
    have hnone (j : Nat) (hlt : j < maxAgents) (hu : (w.table j).used) : (w.table j).pid ≠ p := by
      intro hpid
      cases hfind.symm.trans (hop j hlt hu hpid)
    dsimp only
    split
    · exact h.newReg ⟨rfl, rfl, rfl⟩ fun j hlt _ hu => hnone j hlt hu
    · exact h

theorem findPid_some (h : w.findPid p = some i) : i < maxAgents ∧ (w.table i).used ∧ (w.table i).pid = p := by
  have hmatch := find?_some h
  rw [Bool.and_eq_true, beq_iff_eq] at hmatch
  exact ⟨mem_range.mp (mem_of_find?_eq_some h), hmatch⟩

theorem Mail.step (h : Mail w) {op : AgentStep} (hop : w.Tidy op) : Mail (w.step op) := by
  unfold AgentWorld.step react
  cases op with
  | register p name ns =>
    dsimp only
    split
    · exact h.register hop
    · exact h
  | unregisterPid p => exact h.unregister (·.pid == p)
  | unregisterNs ns => exact h.unregister (·.nsId == ns)
  | send p name ns data tokenId =>
    dsimp only
    split
    · unfold agentSend
      split
      · exact h
      rename_i i hfind
      split
      · exact h
      rename_i hroom
      split
      · exact h.goto _ _
      · have hmatch := find?_some hfind
        simp only [Bool.and_eq_true] at hmatch
        exact h.enqueue hmatch.1.1 rfl (Nat.not_le.mp hroom)
    · exact h
  | delegate p newTok =>
    dsimp only [delegate]
    split
    · exact h.goto _ _
    · exact h
  | resume p =>
    change w.SlotKept (w.pcs p) at hop
    dsimp only [resume]
    split
    next i r m hpc =>
      rw [hpc] at hop
      split
      · exact h.goto _ _
      rename_i hused
      have hu : (w.table i).used := by simpa using hused
      obtain ⟨hr, hroom⟩ := hop hu
      exact (h.enqueue hu hr hroom).goto _ _
    · exact h
  | recv p maxLen =>
    dsimp only
    split
    · unfold agentRecv
      split
      · exact h
      rename_i i hfind
      dsimp only
      split
      · exact h
      next hcount => exact (h.dequeue (findPid_some hfind).2.1 hcount).2
    · exact h

/-- What is returned from a registration in a step, and what the step makes of its history. -/
inductive MailCase (maxLen : Nat) (sent : List AgentMsg) (taken : Nat) : List AgentMsg → List AgentMsg → Nat → Prop
  | sent {l : List AgentMsg} (h : sent <+: l) : MailCase maxLen sent taken [] l taken
  | taken {m : AgentMsg} (h : sent[taken]? = some m) : MailCase maxLen sent taken [m.cut maxLen] sent (taken + 1)

theorem mailCase (h : Mail w) (op : AgentStep) (r : Nat) : MailCase op.maxLen (w.sent r) (w.taken r)
    ((w.react op).1.receivedFrom r) ((w.step op).sent r) ((w.step op).taken r) := by
  have hself {maxLen : Nat} : MailCase maxLen (w.sent r) (w.taken r) [] (w.sent r) (w.taken r) := .sent prefix_rfl
  have henqueue {q maxLen : Nat} {m : AgentMsg} :
      MailCase maxLen (w.sent r) (w.taken r) [] (update w.sent q (w.sent q ++ [m]) r) (w.taken r) := by
    by_cases hr : r = q
    · rw [hr, update_self]
      exact .sent (prefix_append ..)
    · rw [update_of_ne hr]
      exact hself
  unfold step react
  cases op with
  | recv p maxLen =>
    dsimp only [agentRecv]
    split
    · split
      · exact hself
      next i hfind =>
        split
        · exact hself
        next hcount =>
          dsimp only [AgentOut.receivedFrom]
          obtain rfl | hr := eq_or_ne (w.table i).reg r
          · rw [if_pos rfl, update_self]
            exact .taken (h.dequeue (findPid_some hfind).2.1 hcount).1
          · rw [if_neg hr, update_of_ne hr.symm]
            exact hself
    · exact hself
  | _ =>
    -- no other call receives, and only `enqueue` sends
    dsimp only [agentRegisterNs, delegate, agentSend, resume]
    repeat' split
    all_goals first | exact hself | exact henqueue

theorem Mail.received (h : Mail w) {maxLen : Nat} {x : AgentMsg}
    (hx : (w.react (.recv p maxLen)).1.received = some (r, x)) :
    ∃ m, (w.sent r)[w.taken r]? = some m ∧ x = m.cut maxLen ∧
      (w.step (.recv p maxLen)).taken r = w.taken r + 1 := by
  have hcase := mailCase h (.recv p maxLen) r
  have hout : (w.react (.recv p maxLen)).1.receivedFrom r = [x] := by simp [AgentOut.receivedFrom, hx]
  rw [hout] at hcase
  generalize (w.step (.recv p maxLen)).sent r = sent, (w.step (.recv p maxLen)).taken r = taken at hcase ⊢
  cases hcase with
  | taken hm => exact ⟨_, hm, rfl, rfl⟩

def receivedFrom (r : Nat) : AgentWorld → List AgentStep → List AgentMsg
  | _, [] => []
  | w, op :: ops => (w.react op).1.receivedFrom r ++ receivedFrom r (w.step op) ops

theorem Mail.receives (h : Mail w) {ops : List AgentStep} (hops : Guarded AgentWorld.step Tidy w ops) (r : Nat) :
    w.sent r <+: (run AgentWorld.step w ops).sent r ∧ ∃ l, l <+: ((run AgentWorld.step w ops).sent r).drop (w.taken r) ∧
      Forall₂ (fun x m => ∃ n, x = m.cut n) (w.receivedFrom r ops) l := by
  induction ops generalizing w with
  | nil => exact ⟨prefix_rfl, [], nil_prefix, .nil⟩
  | cons op ops ih =>
    obtain ⟨hsent, l, hl, hall⟩ := ih (h.step hops.1) hops.2
    have hcase := mailCase h op r
    rw [run_cons, receivedFrom]
    generalize (w.react op).1.receivedFrom r = out, (w.step op).sent r = sent, (w.step op).taken r = taken at *
    cases hcase with
    | sent hz => exact ⟨hz.trans hsent, l, hl, hall⟩
    | taken hm =>
      obtain ⟨hlt, rfl⟩ := List.getElem?_eq_some_iff.mp hm
      rw [drop_eq_getElem_cons (hlt.trans_le hsent.length_le), ← hsent.getElem hlt]
      exact ⟨hsent, _ :: l, cons_prefix_cons.mpr ⟨rfl, hl⟩, .cons ⟨_, rfl⟩ hall⟩

theorem Mail.again (h : Mail w) {maxLen : Nat} (hx : (w.react (.recv p maxLen)).1.returns = some (-EAGAIN))
    (hlt : i < maxAgents) (hu : (w.table i).used) (hpid : (w.table i).pid = p) : (w.table i).count = 0 := by
  unfold react at hx
  dsimp only at hx
  split at hx
  · unfold agentRecv at hx
    cases hfind : w.findPid p with
    | none =>
      rw [hfind] at hx
      cases hx
    | some k =>
      obtain ⟨hk, hku, hkpid⟩ := findPid_some hfind
      obtain rfl := h.one i hlt k hk hu hku (hpid.trans hkpid.symm)
      rw [hfind] at hx
      dsimp only at hx
      split at hx
      · assumption
      have hlen := Option.some.inj hx
      have hneg : -EAGAIN < 0 := by decide
      omega
  · cases hx

end AgentWorld

open AgentWorld

/-- In every run in which no process has two registrations and a delegating `agent_send` finds the slot as it left it: a
    mailbox holds what was sent to its registration and not yet received, at most `AGENT_MBOX_SLOTS` messages;
    `agent_recv` returns the next one, and `-EAGAIN` only if there is none. -/
theorem mailboxes_exact (ops : List AgentStep) (h : Guarded step Tidy {} ops) : let w := run step {} ops
    (∀ i, (w.table i).count ≤ agentMboxSlots) ∧
    (∀ i, (w.table i).used →
      contents (w.table i).msgs agentMboxSlots (w.table i).head (w.table i).count =
        (w.sent (w.table i).reg).drop (w.taken (w.table i).reg)) ∧
    (∀ r, w.taken r ≤ (w.sent r).length) ∧
    (∀ p maxLen r x, (w.react (.recv p maxLen)).1.received = some (r, x) →
      ∃ m, (w.sent r)[w.taken r]? = some m ∧ x = m.cut maxLen ∧ (w.step (.recv p maxLen)).taken r = w.taken r + 1) ∧
    ∀ p maxLen, (w.react (.recv p maxLen)).1.returns = some (-EAGAIN) →
      ∀ i < maxAgents, (w.table i).used → (w.table i).pid = p → (w.table i).count = 0 := by
  intro w
  have hw : Mail w := Guarded.invariant (fun _ _ hs hop => hs.step hop) Mail.init h
  refine ⟨hw.count, fun i hu => ?_, hw.taken, fun p maxLen r x => hw.received, fun p maxLen hx i => hw.again hx⟩
  rw [(hw.holds i hu).count_eq]
  exact (hw.holds i hu).contents_eq

/-- What is received from a registration in such a run begins what is sent to it, each message cut to its buffer. -/
theorem received_in_order (ops : List AgentStep) (h : Guarded step Tidy {} ops) (r : Nat) :
    ∃ l, l <+: (run step {} ops).sent r ∧ Forall₂ (fun x m => ∃ n, x = m.cut n) (receivedFrom r {} ops) l :=
  (Mail.init.receives h r).2

def mailRun : List AgentStep :=
  [.register 1 [97] 0, .send 2 [97] 0 [1, 2] 7, .delegate 2 9, .resume 2]

theorem mailboxes_exact_token : let w := run step {} mailRun
    (w.react (.recv 1 1)).1.received = some (0, { senderPid := 2, tokenId := 9, data := [1] }) ∧
    ∃ m, (w.sent 0)[w.taken 0]? = some m ∧ { senderPid := 2, tokenId := 9, data := [1] } = m.cut 1 ∧
      (w.step (.recv 1 1)).taken 0 = w.taken 0 + 1 := by
  have hx : ((run step {} mailRun).react (.recv 1 1)).1.received =
      some (0, { senderPid := 2, tokenId := 9, data := [1] }) := by decide +kernel
  exact ⟨hx, (mailboxes_exact mailRun (by decide +kernel)).2.2.2.1 1 1 0 _ hx⟩

/-- While process 2 delegates its token, process 1 exits and process 3 registers the name: it gets the message and the
    token, or the full mailbox gets a fifth message. Process 1, with a second registration, is answered `-EAGAIN` while
    a message waits. -/
theorem message_misdelivered :
    let sending : List AgentStep := [.register 1 [97] 0, .send 2 [97] 0 [1, 2] 7, .delegate 2 9]
    let fill : List AgentStep := replicate 4 (.send 4 [97] 0 [5] 0)
    let w := run step {} (sending ++ [.unregisterPid 1, .register 3 [97] 0, .resume 2])
    let w' := run step {} (sending ++ fill ++ [.resume 2])
    let w'' := run step {} [.register 1 [97] 0, .register 1 [98] 0, .send 2 [98] 0 [5] 0]
    ((w.react (.recv 3 8)).1.received = some (1, { senderPid := 2, tokenId := 9, data := [1, 2] }) ∧ w.sent 1 = []) ∧
      (w'.table 0).count = 5 ∧
      (w''.react (.recv 1 8)).1.returns = some (-EAGAIN) ∧ (w''.table 1).pid = 1 ∧ (w''.table 1).count = 1 := by
  decide +kernel

end Limnx
