import Limnx.Lib.GuardedRun
import Limnx.Lib.RingBuffer
import Limnx.PubSub

/-! # The queues of subscribers

The queue of a subscription is the end of the log of published messages that has neither been received nor been dropped.
-/

namespace Limnx

open GuardedRun RingBuffer List Function Bool

namespace TopicSub
variable {sub : TopicSub} {q : List TopicMsg} {m : TopicMsg}

def Ring (sub : TopicSub) (q : List TopicMsg) : Prop :=
  Holds sub.msgs topicQueueSlots sub.head sub.tail sub.count q

theorem Ring.push (h : Ring sub q) (hroom : q.length < topicQueueSlots) : Ring (sub.deliver m) (q ++ [m]) := by
  have hcount : ¬ topicQueueSlots ≤ sub.count := by
    rw [h.count_eq]
    omega
  unfold deliver
  rw [if_neg hcount]
  exact Holds.push h hroom m

theorem Ring.take (h : Ring sub (m :: q)) : sub.msgs sub.head = m ∧ Ring sub.take q := Holds.pop h

theorem Ring.deliver (h : Ring sub q) : Ring (sub.deliver m) ((q ++ [m]).drop (q.length + 1 - topicQueueSlots)) := by
  by_cases hroom : q.length < topicQueueSlots
  · rw [Nat.sub_eq_zero_of_le hroom, drop_zero]
    exact h.push hroom
  have hfull : q.length = topicQueueSlots := Nat.le_antisymm h.room (Nat.not_lt.mp hroom)
  cases q with
  | nil => cases hfull
  | cons x q =>
    obtain ⟨-, htake⟩ := h.take
    have hroom' : q.length < topicQueueSlots := Nat.lt_of_succ_le h.room
    have hcount : topicQueueSlots ≤ sub.count := by rw [h.count_eq, hfull]
    have hsame : sub.deliver m = sub.take.deliver m := by
      have hless : ¬ topicQueueSlots ≤ sub.take.count := by
        rw [htake.count_eq]
        omega
      unfold TopicSub.deliver
      rw [if_pos hcount, if_neg hless]
      rfl
    rw [hsame, hfull, Nat.add_sub_cancel_left]
    exact htake.push hroom'

end TopicSub

/-- What happens on a topic, seen from one subscription: a message is published to the topic, or `pubsub_recv` of
    the subscriber returns a message or `-EAGAIN`. -/
inductive SubEvent
  | published (m : TopicMsg)
  | got (maxLen : Nat) (m : TopicMsg)
  | empty
deriving DecidableEq

/-- What a subscription may see after the messages `log` were published to it and those at the positions `idx` received:
    a message of the log, behind those received, cut to the length of the buffer; one passed over has
    `TOPIC_QUEUE_SLOTS` messages after it; and `-EAGAIN` only if all others are passed over. -/
def Exact (log : List TopicMsg) (idx : List Nat) : List SubEvent → Prop
  | [] => True
  | .published m :: evs => Exact (log ++ [m]) idx evs
  | .empty :: evs => (∀ j < log.length, j ∈ idx ∨ j + topicQueueSlots < log.length) ∧ Exact log idx evs
  | .got maxLen m :: evs => ∃ i x, log[i]? = some x ∧ m = x.cut maxLen ∧ (∀ j ∈ idx, j < i) ∧
      (∀ j < i, j ∈ idx ∨ j + topicQueueSlots < log.length) ∧ Exact log (idx ++ [i]) evs

def PubStep.maxLen : PubStep → Nat
  | .recv _ _ maxLen => maxLen
  | _ => 0

def PubOut.events (out : PubOut) (t pid maxLen : Nat) : List SubEvent :=
  match out.published, out.received with
  | some (t', m), _ => if t' = t then [.published m] else []
  | none, some (t', p, r) =>
    if t' = t ∧ p = pid then
      match r with
      | none => [.empty]
      | some m => [.got maxLen m]
    else []
  | none, none => []

namespace PubWorld

/-- The process is a subscriber of the topic. -/
def Subscribed (w : PubWorld) (t pid : Nat) : Prop := (w.topics t).used ∧ ((w.topics t).findSub pid).isSome

instance (w : PubWorld) (t pid : Nat) : Decidable (w.Subscribed t pid) := inferInstanceAs (Decidable (_ ∧ _))

def events (w : PubWorld) (t pid : Nat) (op : PubStep) : List SubEvent := (w.react op).1.events t pid op.maxLen

def subTrace (t pid : Nat) : PubWorld → List PubStep → List SubEvent
  | _, [] => []
  | w, op :: ops =>
    if (w.step op).Subscribed t pid then w.events t pid op ++ subTrace t pid (w.step op) ops else []

section
variable {w : PubWorld} {t pid : Nat}

inductive TopicCase (pid : Nat) (tp tp' : Topic) : List SubEvent → Prop
  | same (h : tp' = tp) : TopicCase pid tp tp' []
  | create (h : tp.used = false) (h' : ∀ i, (tp'.subs i).used = false) : TopicCase pid tp tp' []
  | install (p i : Nat) (ns : U32) (hp : tp.findSub p = none) (hi : tp.freeSub = some i)
      (h : tp' = tp.setSub i { tp.subs i with used := true, pid := p, nsId := ns, head := 0, tail := 0, count := 0 }) :
      TopicCase pid tp tp' []
  | publish (m : TopicMsg) (h : tp' = tp.deliver m) : TopicCase pid tp tp' [.published m]
  | empty (i : Nat) (hi : tp.findSub pid = some i) (hcount : (tp.subs i).count = 0) (h : tp' = tp) :
      TopicCase pid tp tp' [.empty]
  | recv (i maxLen : Nat) (hi : tp.findSub pid = some i) (hcount : (tp.subs i).count ≠ 0)
      (h : tp' = tp.setSub i (tp.subs i).take) :
      TopicCase pid tp tp' [.got maxLen (((tp.subs i).msgs (tp.subs i).head).cut maxLen)]
  | recvOther (p i : Nat) (hp : p ≠ pid) (hi : tp.findSub p = some i) (h : tp' = tp.setSub i (tp.subs i).take) :
      TopicCase pid tp tp' []
  | cleanup (p : Nat) (hused : tp.used) (h : ∀ i, tp'.subs i =
        if (tp.subs i).used && (tp.subs i).pid == p then { tp.subs i with used := false } else tp.subs i)
      (hused' : tp'.used = (tp.ownerPid != p)) : TopicCase pid tp tp' []

theorem setTopic_self (w : PubWorld) (t : Nat) (tp : Topic) : (w.setTopic t tp).topics t = tp := update_self ..

theorem setTopic_ne (w : PubWorld) (tp : Topic) {t t' : Nat} (h : t ≠ t') :
    (w.setTopic t' tp).topics t = w.topics t := update_of_ne h ..

theorem commit_case (p : Nat) (c : PubCall) (token : Option U32) (maxLen : Nat) :
    TopicCase pid (w.topics t) ((w.commit p c token).2.topics t) ((w.commit p c token).1.events t pid maxLen) := by
  unfold commit
  cases c with
  | subscribe t' ns caps =>
    dsimp only [PubCall.topic]
    split
    · exact .same rfl
    rename_i hfind
    cases hfree : (w.topics t').freeSub with
    | none => exact .same rfl
    | some i =>
      obtain rfl | ht := eq_or_ne t t'
      · exact .install p i ns (by simpa using hfind) hfree (setTopic_self ..)
      · exact .same (setTopic_ne _ _ ht)
  | publish t' ns caps data =>
    dsimp only [PubOut.events, PubCall.topic]
    obtain rfl | ht := eq_or_ne t t'
    · rw [if_pos rfl]
      exact .publish _ (setTopic_self ..)
    · rw [if_neg (Ne.symm ht)]
      exact .same (setTopic_ne _ _ ht)

theorem call_case (p : Nat) (c : PubCall) (maxLen : Nat) :
    TopicCase pid (w.topics t) ((w.call p c).2.topics t) ((w.call p c).1.events t pid maxLen) := by
  unfold call
  split
  · exact .same rfl
  split
  · exact .same rfl
  dsimp only
  split
  · exact .same rfl
  split
  · exact .same rfl
  · exact commit_case p c none maxLen

theorem resume_case (p maxLen : Nat) :
    TopicCase pid (w.topics t) ((w.resume p).2.topics t) ((w.resume p).1.events t pid maxLen) := by
  unfold resume
  split
  · split
    · exact .same rfl
    · exact commit_case p _ _ maxLen
  · exact .same rfl

theorem recv_case (p t' maxLen : Nat) :
    TopicCase pid (w.topics t) ((w.pubsubRecv t' p maxLen).2.topics t)
      ((w.pubsubRecv t' p maxLen).1.events t pid maxLen) := by
  unfold pubsubRecv
  split
  · exact .same rfl
  dsimp only
  split
  · exact .same rfl
  cases hfind : (w.topics t').findSub p with
  | none => exact .same rfl
  | some i =>
    dsimp only
    split
    next hcount =>
      dsimp only [PubOut.events]
      split
      next hboth =>
        obtain ⟨rfl, rfl⟩ := hboth
        exact .empty i hfind hcount rfl
      · exact .same rfl
    next hcount =>
      dsimp only [PubOut.events]
      obtain rfl | ht := eq_or_ne t' t
      · rw [setTopic_self]
        split
        next hboth =>
          obtain ⟨-, rfl⟩ := hboth
          exact .recv i maxLen hfind hcount rfl
        next hne => exact .recvOther p i (fun hp => hne ⟨rfl, hp⟩) hfind rfl
      · rw [if_neg fun hboth => ht hboth.1]
        exact .same (setTopic_ne _ _ (Ne.symm ht))

theorem create_case (name : CStr) (ns : U32) (p : Nat) :
    TopicCase pid (w.topics t) ((w.pubsubTopicCreate name ns p).2.topics t) [] := by
  unfold pubsubTopicCreate
  split
  · exact .same rfl
  split
  · exact .same rfl
  rename_i i hfree
  obtain rfl | ht := eq_or_ne t i
  · rw [setTopic_self]
    exact .create (by simpa using find?_some hfree) fun _ => rfl
  · exact .same (setTopic_ne _ _ ht)

theorem step_case (w : PubWorld) (op : PubStep) (t pid : Nat) :
    TopicCase pid (w.topics t) ((w.step op).topics t) (w.events t pid op) := by
  unfold step events react
  cases op with
  | create p name ns =>
    dsimp only
    split
    · exact create_case name ns p
    · exact .same rfl
  | call p c =>
    dsimp only
    split
    · exact call_case p c _
    · exact .same rfl
  | check p token =>
    dsimp only [check]
    split
    · split
      · exact .same rfl
      split
      · exact .same rfl
      · exact .same rfl
    · exact .same rfl
  | resume p => exact resume_case p _
  | recv p t' maxLen =>
    dsimp only
    split
    · exact recv_case p t' maxLen
    · exact .same rfl
  | cleanup p =>
    unfold pubsubCleanupPid
    dsimp only
    split
    next hused => exact .cleanup p hused (fun _ => rfl) rfl
    · exact .same rfl

end

section
variable {tp tp' : Topic} {pid s next : Nat} {log : List TopicMsg} {idx : List Nat}

/-- The subscription in slot `s` holds what was published from position `next` on. -/
structure Sees (tp : Topic) (pid s next : Nat) (log : List TopicMsg) (idx : List Nat) : Prop where
  slot : s < maxSubscribers ∧ (tp.subs s).used ∧ (tp.subs s).pid = pid
  only : ∀ i < maxSubscribers, (tp.subs i).used → (tp.subs i).pid = pid → i = s
  ring : (tp.subs s).Ring (log.drop next)
  within : next ≤ log.length
  received : ∀ j ∈ idx, j < next
  passed : ∀ j < next, j ∈ idx ∨ j + topicQueueSlots < log.length

theorem setSub_self (tp : Topic) (i : Nat) (sub : TopicSub) : (tp.setSub i sub).subs i = sub := update_self ..

theorem setSub_ne (tp : Topic) {i j : Nat} (sub : TopicSub) (h : j ≠ i) : (tp.setSub i sub).subs j = tp.subs j :=
  update_of_ne h ..

theorem findSub_some {i p : Nat} (h : tp.findSub p = some i) :
    i < maxSubscribers ∧ (tp.subs i).used ∧ (tp.subs i).pid = p := by
  have hmatch := find?_some h
  rw [and_eq_true, beq_iff_eq] at hmatch
  exact ⟨mem_range.mp (mem_of_find?_eq_some h), hmatch⟩

theorem findSub_none {i p : Nat} (h : tp.findSub p = none) (hi : i < maxSubscribers) (hused : (tp.subs i).used) :
    (tp.subs i).pid ≠ p := by
  intro hp
  have hno := find?_eq_none.mp h i (mem_range.mpr hi)
  rw [and_eq_true, beq_iff_eq] at hno
  exact hno ⟨hused, hp⟩

section
variable (h : Sees tp pid s next log idx)
include h

theorem Sees.findSub : tp.findSub pid = some s := by
  cases hfind : tp.findSub pid with
  | none => exact absurd h.slot.2.2 (findSub_none hfind h.slot.1 h.slot.2.1)
  | some i =>
    obtain ⟨hlt, hused, hpid⟩ := findSub_some hfind
    rw [h.only i hlt hused hpid]

theorem Sees.other (hs : tp'.subs s = tp.subs s)
    (honly : ∀ i < maxSubscribers, i ≠ s → (tp'.subs i).used → (tp'.subs i).pid ≠ pid) :
    Sees tp' pid s next log idx := by
  refine ⟨by rw [hs]; exact h.slot, fun i hlt hused hpid => ?_, by rw [hs]; exact h.ring, h.within, h.received, h.passed⟩
  by_contra hi
  exact honly i hlt hi hused hpid

theorem Sees.not_other {i : Nat} (hlt : i < maxSubscribers) (hi : i ≠ s)
    (hused : (tp.subs i).used) : (tp.subs i).pid ≠ pid := fun hpid => hi (h.only i hlt hused hpid)

end

theorem owner_deliver (tp : Topic) (m : TopicMsg) (i : Nat) :
    ((tp.deliver m).subs i).used = (tp.subs i).used ∧ ((tp.deliver m).subs i).pid = (tp.subs i).pid := by
  unfold Topic.deliver TopicSub.deliver
  dsimp only
  split
  · split <;> exact ⟨rfl, rfl⟩
  · exact ⟨rfl, rfl⟩

theorem cleanup_subs {p i : Nat} (hsubs : ∀ i, tp'.subs i =
      if (tp.subs i).used && (tp.subs i).pid == p then { tp.subs i with used := false } else tp.subs i)
    (hu : (tp'.subs i).used) : tp'.subs i = tp.subs i ∧ (tp.subs i).pid ≠ p := by
  rw [hsubs i] at hu ⊢
  by_cases hcond : ((tp.subs i).used && (tp.subs i).pid == p)
  · rw [if_pos hcond] at hu
    cases hu
  rw [if_neg hcond] at hu ⊢
  rw [and_eq_true, beq_iff_eq] at hcond
  exact ⟨rfl, fun hpid => hcond ⟨hu, hpid⟩⟩

section
variable (h : Sees tp pid s next log idx)
include h

theorem Sees.setSub_other {i : Nat} (hi : i ≠ s) (sub : TopicSub)
    (hsub : sub.pid ≠ pid) : Sees (tp.setSub i sub) pid s next log idx := by
  refine h.other (setSub_ne _ _ (Ne.symm hi)) fun j hlt hj hu => ?_
  by_cases hji : j = i
  · rw [hji, setSub_self]
    exact hsub
  · rw [setSub_ne _ _ hji] at hu ⊢
    exact h.not_other hlt hj hu

theorem Sees.publish (m : TopicMsg) :
    Sees (tp.deliver m) pid s (max next (log.length + 1 - topicQueueSlots)) (log ++ [m]) idx := by
  have hown := owner_deliver tp m
  have hsub : (tp.deliver m).subs s = (tp.subs s).deliver m := if_pos h.slot.2.1
  refine ⟨⟨h.slot.1, (hown s).1.trans h.slot.2.1, (hown s).2.trans h.slot.2.2⟩, fun i hlt hu hp => ?_, ?_, ?_, fun j hj => ?_,
    fun j hj => ?_⟩
  · exact h.only i hlt ((hown i).1.symm.trans hu) ((hown i).2.symm.trans hp)
  · have hring := h.ring.deliver (m := m)
    have hdrop : (log.drop next ++ [m]).drop ((log.drop next).length + 1 - topicQueueSlots) =
        (log ++ [m]).drop (max next (log.length + 1 - topicQueueSlots)) := by
      rw [← drop_append_of_le_length h.within, drop_drop, length_drop]
      congr 1
      have := h.within
      omega
    rw [hsub, ← hdrop]
    exact hring
  · rw [length_append, length_singleton]
    have := h.within
    omega
  · have := h.received j hj
    omega
  · rw [length_append, length_singleton]
    by_cases hlt : j < next
    · rcases h.passed j hlt with hin | hlen
      · exact .inl hin
      · exact .inr (by omega)
    · exact .inr (by omega)

theorem Sees.recv (hcount : (tp.subs s).count ≠ 0) :
    log[next]? = some ((tp.subs s).msgs (tp.subs s).head) ∧
      Sees (tp.setSub s (tp.subs s).take) pid s (next + 1) log (idx ++ [next]) := by
  have hlen : next < log.length := by
    have := h.ring.count_eq
    rw [length_drop] at this
    omega
  have hring := h.ring
  rw [drop_eq_getElem_cons hlen] at hring
  obtain ⟨hm, htake⟩ := hring.take
  refine ⟨by rw [hm, getElem?_eq_getElem hlen], ⟨h.slot.1, by rw [setSub_self]; exact h.slot.2⟩,
    fun i hlt hu hp => ?_, by rw [setSub_self]; exact htake, hlen, fun j hj => ?_, fun j hj => ?_⟩
  · by_contra hi
    rw [setSub_ne _ _ hi] at hu hp
    exact hi (h.only i hlt hu hp)
  · rcases mem_append.mp hj with hj | hj
    · exact Nat.lt_succ_of_lt (h.received j hj)
    · rw [mem_singleton.mp hj]
      exact Nat.lt_succ_self _
  · rcases Nat.lt_succ_iff_lt_or_eq.mp hj with hlt | rfl
    · exact (h.passed j hlt).imp (mem_append_left _) id
    · exact .inl (mem_append_right _ (mem_singleton_self _))

theorem Sees.exact_append {evs rest : List SubEvent} (hcase : TopicCase pid tp tp' evs)
    (hused : tp.used) (hstays : tp'.used ∧ (tp'.findSub pid).isSome)
    (hrest : ∀ next log idx, Sees tp' pid s next log idx → Exact log idx rest) : Exact log idx (evs ++ rest) := by
  cases hcase with
  | same heq =>
    subst heq
    exact hrest next log idx h
  | create hunused _ => cases hused.symm.trans hunused
  | install p i ns hp hi heq =>
    have hfree := find?_some hi
    have his : i ≠ s := by
      rintro rfl
      rw [h.slot.2.1] at hfree
      cases hfree
    have hne : p ≠ pid := by
      rintro rfl
      rw [h.findSub] at hp
      cases hp
    exact hrest next log idx (heq ▸ h.setSub_other his _ hne)
  | publish m heq =>
    subst heq
    exact hrest _ _ _ (h.publish m)
  | empty i hi hcount heq =>
    subst heq
    obtain rfl : s = i := Option.some.inj (h.findSub.symm.trans hi)
    refine ⟨fun j hj => h.passed j ?_, hrest next log idx h⟩
    have hlen := h.ring.count_eq
    rw [hcount, length_drop] at hlen
    omega
  | recv i maxLen hi hcount heq =>
    subst heq
    obtain rfl : s = i := Option.some.inj (h.findSub.symm.trans hi)
    obtain ⟨hget, hnext⟩ := h.recv hcount
    exact ⟨next, _, hget, rfl, h.received, h.passed, hrest _ _ _ hnext⟩
  | recvOther p i hp hi heq =>
    obtain ⟨-, hiused, hipid⟩ := findSub_some hi
    have his : i ≠ s := by
      rintro rfl
      exact hp (hipid.symm.trans h.slot.2.2)
    have hne : (tp.subs i).take.pid ≠ pid := fun hpid => hp (hipid.symm.trans hpid)
    exact hrest next log idx (heq ▸ h.setSub_other his _ hne)
  | cleanup p _ hsubs _ =>
    -- the subscription is still there, so it is not one of `p`
    obtain ⟨i, hi⟩ := Option.isSome_iff_exists.mp hstays.2
    obtain ⟨hlt, hiused, hipid⟩ := findSub_some hi
    obtain ⟨hsame, hne⟩ := cleanup_subs hsubs hiused
    rw [hsame] at hiused hipid
    obtain rfl := h.only i hlt hiused hipid
    refine hrest next log idx (h.other hsame fun j hjlt hj hu => ?_)
    obtain ⟨hsame', -⟩ := cleanup_subs hsubs hu
    rw [hsame'] at hu ⊢
    exact h.not_other hjlt hj hu

end

theorem findSub_isSome {i p : Nat} (hlt : i < maxSubscribers) (hused : (tp.subs i).used) (hpid : (tp.subs i).pid = p) :
    (tp.findSub p).isSome := by
  cases hfind : tp.findSub p with
  | none => exact absurd hpid (findSub_none hfind hlt hused)
  | some j => rfl

theorem sees_of_installed {evs : List SubEvent} (hcase : TopicCase pid tp tp' evs)
    (hbefore : ¬ (tp.used ∧ (tp.findSub pid).isSome)) (hafter : tp'.used ∧ (tp'.findSub pid).isSome) :
    ∃ s, Sees tp' pid s 0 [] [] := by
  obtain ⟨hused', hsome⟩ := hafter
  obtain ⟨s, hs⟩ := Option.isSome_iff_exists.mp hsome
  obtain ⟨hlt, hused, hpid⟩ := findSub_some hs
  cases hcase with
  | create _ hnone => cases (hnone s).symm.trans hused
  | install p i ns hp hi heq =>
    subst heq
    have hnone : tp.findSub pid = none := by
      cases hfind : tp.findSub pid with
      | none => rfl
      | some j => exact absurd ⟨hused', by rw [hfind]; rfl⟩ hbefore
    have hold (sub : TopicSub) (j : Nat) (hj : j < maxSubscribers) (hu : ((tp.setSub i sub).subs j).used)
        (hp : ((tp.setSub i sub).subs j).pid = pid) : j = i := by
      by_contra hji
      rw [setSub_ne _ _ hji] at hu hp
      exact findSub_none hnone hj hu hp
    obtain rfl := hold _ s hlt hused hpid
    refine ⟨s, ⟨hlt, hused, hpid⟩, fun j hj hu hp' => hold _ j hj hu hp', ?_, Nat.le_refl 0, nofun, nofun⟩
    · rw [setSub_self]
      exact Holds.empty _ (by decide)
  | publish m heq =>
    subst heq
    refine absurd ⟨hused', findSub_isSome hlt ?_ ?_⟩ hbefore
    · exact (owner_deliver tp m s).1.symm.trans hused
    · exact (owner_deliver tp m s).2.symm.trans hpid
  | same heq | empty _ _ _ heq => exact absurd (heq ▸ ⟨hused', hsome⟩) hbefore
  | recv i maxLen hi hcount heq =>
    subst heq
    exact absurd ⟨hused', by rw [hi]; rfl⟩ hbefore
  | recvOther p i hp hi heq =>
    subst heq
    have hsi : s ≠ i := by
      rintro rfl
      rw [setSub_self] at hpid
      exact hp ((findSub_some hi).2.2.symm.trans hpid)
    rw [setSub_ne _ _ hsi] at hused hpid
    exact absurd ⟨hused', findSub_isSome hlt hused hpid⟩ hbefore
  | cleanup p htp hsubs hused'' =>
    have hsame : tp'.subs s = tp.subs s := (cleanup_subs hsubs hused).1
    rw [hsame] at hused hpid
    exact absurd ⟨htp, findSub_isSome hlt hused hpid⟩ hbefore

theorem exact_subTrace {w : PubWorld} {t : Nat} (ops : List PubStep) (hused : (w.topics t).used)
    (h : Sees (w.topics t) pid s next log idx) : Exact log idx (w.subTrace t pid ops) := by
  induction ops generalizing w next log idx with
  | nil => trivial
  | cons op ops ih =>
    unfold subTrace
    split
    next hsub => exact h.exact_append (step_case w op t pid) hused hsub fun next log idx h' => ih hsub.1 h'
    · trivial

end

end PubWorld

open PubWorld

/-- A step of a `pubsub_publish` that returns has published `m` exactly if the value is not negative. -/
def PubOut.TellsPublished (out : PubOut) (t : Nat) (m : TopicMsg) : Prop :=
  ∀ r, out.returns = some r → out.published = if 0 ≤ r then some (t, m) else none

/-- The call that a step belongs to. -/
def PubWorld.ofCall (w : PubWorld) : PubStep → Option (Nat × PubCall)
  | .call p c => some (p, c)
  | .check p _ | .resume p =>
    match w.pcs p with
    | .idle => none
    | .checking c _ | .cleared c _ _ => some (p, c)
  | _ => none

theorem tellsPublished {w : PubWorld} {op : PubStep} {p t : Nat} {ns caps : U32} {data : List UInt8}
    (hop : w.ofCall op = some (p, .publish t ns caps data)) :
    (w.react op).1.TellsPublished t { publisherPid := p, data } := by
  have hnone : PubOut.TellsPublished {} t { publisherPid := p, data } := by
    rintro r ⟨⟩
  have hfail {e : Int} (he : 0 < e) : PubOut.TellsPublished { returns := some (-e) } t { publisherPid := p, data } := by
    rintro r ⟨⟩
    exact (if_neg (by omega)).symm
  have hcommit (token : Option U32) :
      (w.commit p (.publish t ns caps data) token).1.TellsPublished t { publisherPid := p, data } := by
    rintro r ⟨⟩
    rfl
  cases op with
  | create | recv | cleanup => cases hop
  | call q c =>
    cases hop
    dsimp only [react, call]
    split_ifs
    all_goals first | exact hnone | exact hcommit none | exact hfail (by decide)
  | check q token =>
    dsimp only [react, check]
    repeat' split
    all_goals first | exact hnone | exact hfail (by decide)
  | resume q =>
    dsimp only [react, resume]
    split
    next c ns' token hpc =>
      rw [ofCall, hpc] at hop
      cases hop
      split
      · exact hfail (by decide)
      · exact hcommit _
    · exact hnone

def topicRun : List PubStep := [.create 1 [110] 0]

def sixMessages : List PubStep :=
  [1, 2, 3, 4, 5, 6].map (fun b => .call 1 (.publish 0 0 0 [b, b])) ++ [.recv 2 0 1, .recv 2 0 8]

end Limnx
