import Limnx.Lib.GuardedRun
import Limnx.PubSub

/-! # Namespaces of topics

Between the check and the section that enters a topic the slot can be given to a topic of another namespace. -/

namespace Limnx

open GuardedRun Function

/-- The process may enter the topic: it is one of its namespace, the topic is global, the process has the capability
    for all namespaces, or a token was found for the namespace of the topic. -/
def PubEntry.Allowed (e : PubEntry) : Prop :=
  e.callerNs = e.topicNs ∨ e.topicNs = 0 ∨ e.caps &&& capXnsPubsub ≠ 0 ∨ e.token = some e.topicNs

instance (e : PubEntry) : Decidable e.Allowed := inferInstanceAs (Decidable (_ ∨ _))

namespace PubWorld
variable {w : PubWorld} {p : Nat}

/-- The condition on a section after the check, for a thread at `pc`: the topic is gone, is still one of the namespace
    that was checked, or is one that the process may enter without a check. -/
def Unmoved (w : PubWorld) : PubPc → Prop
  | .cleared c ns _ => (w.topics c.topic).used → (w.topics c.topic).nsId = ns ∨ c.ns = (w.topics c.topic).nsId ∨
    (w.topics c.topic).nsId = 0 ∨ c.caps &&& capXnsPubsub ≠ 0
  | _ => True

instance (w : PubWorld) : DecidablePred w.Unmoved
  | .cleared .. => inferInstanceAs (Decidable (_ → _))
  | .idle | .checking .. => isTrue trivial

/-- A call that goes on after its check finds the topic `Unmoved`. -/
def Rechecked (w : PubWorld) : PubStep → Prop
  | .resume p => w.Unmoved (w.pcs p)
  | _ => True

instance (w : PubWorld) : DecidablePred w.Rechecked := fun _ => by
  unfold Rechecked
  split <;> infer_instance

def Earned : PubPc → Prop
  | .cleared c _ token => token ∨ c.caps &&& capXnsPubsub ≠ 0
  | _ => True

def AllEarned (w : PubWorld) : Prop := ∀ q, Earned (w.pcs q)

theorem earned_goto (h : w.AllEarned) {pc : PubPc} (hpc : Earned pc) : (w.goto p pc).AllEarned := by
  intro q
  obtain rfl | hq := eq_or_ne q p
  · have hself : (w.goto q pc).pcs q = pc := update_self ..
    rw [hself]
    exact hpc
  · have hother : (w.goto p pc).pcs q = w.pcs q := update_of_ne hq ..
    rw [hother]
    exact h q

theorem earned_commit (h : w.AllEarned) (c : PubCall) (token : Option U32) : (w.commit p c token).2.AllEarned := by
  cases c with
  | subscribe t ns caps =>
    dsimp only [commit]
    split
    · exact h
    split
    · exact h
    · exact h
  | publish t ns caps data => exact h

theorem earned_step (h : w.AllEarned) (op : PubStep) : (w.step op).AllEarned := by
  unfold step react
  cases op with
  | create p name ns =>
    dsimp only [pubsubTopicCreate]
    repeat' split
    all_goals exact h
  | call p c =>
    dsimp only [call]
    split_ifs
    · exact h
    · exact h
    · exact h
    · exact earned_goto h trivial
    · exact earned_commit h c none
    · exact h
  | check p token =>
    dsimp only [check]
    split
    · split_ifs with hcaps htoken
      · exact earned_goto h (.inr hcaps)
      · exact earned_goto h (.inl rfl)
      · exact earned_goto h trivial
    · exact h
  | resume p =>
    dsimp only [resume]
    split
    · split
      · exact earned_goto h trivial
      · exact earned_goto (earned_commit h _ _) trivial
    · exact h
  | recv p t maxLen =>
    dsimp only [pubsubRecv]
    repeat' split
    all_goals exact h
  | cleanup p => exact h

def entry (w : PubWorld) (p : Nat) (c : PubCall) (token : Option U32) : PubEntry :=
  { pid := p, topicNs := (w.topics c.topic).nsId, callerNs := c.ns, caps := c.caps, token }

theorem enters_commit {c : PubCall} {token : Option U32} {e : PubEntry}
    (h : (w.commit p c token).1.enters = some e) : e = w.entry p c token := by
  cases c with
  | subscribe t ns caps =>
    dsimp only [commit] at h
    split at h
    · cases h
    split at h
    · cases h
    · exact (Option.some.inj h).symm
  | publish t ns caps data =>
    dsimp only [commit] at h
    split at h
    · cases h
    · exact (Option.some.inj h).symm

/-- The steps that enter a topic: a call that needs no check, and one that goes on after it. -/
inductive Enters (w : PubWorld) : PubStep → PubEntry → Prop
  | direct {p : Nat} {c : PubCall} (hns : c.ns = (w.topics c.topic).nsId ∨ (w.topics c.topic).nsId = 0) :
      Enters w (.call p c) (w.entry p c none)
  | cleared {p : Nat} {c : PubCall} {ns : U32} {token : Bool} (hpc : w.pcs p = .cleared c ns token)
      (hused : (w.topics c.topic).used) : Enters w (.resume p) (w.entry p c (if token then some ns else none))

theorem enters_step {op : PubStep} {e : PubEntry} (h : (w.react op).1.enters = some e) : w.Enters op e := by
  unfold react at h
  cases op with
  | create p name ns =>
    dsimp only at h
    split at h <;> cases h
  | call p c =>
    dsimp only [call] at h
    split_ifs at h with _ _ _ _ hns
    rw [enters_commit h]
    exact .direct ((not_and_or.mp hns).imp not_not.mp not_not.mp)
  | check p token =>
    dsimp only [check] at h
    repeat' split at h
    all_goals cases h
  | resume p =>
    dsimp only [resume] at h
    split at h
    next c ns token hpc =>
      split at h
      · cases h
      rename_i hused
      rw [enters_commit h]
      exact .cleared hpc (by simpa using hused)
    · cases h
  | recv p t maxLen =>
    dsimp only [pubsubRecv] at h
    repeat' split at h
    all_goals cases h
  | cleanup p => cases h

theorem Enters.allowed_iff (hearned : w.AllEarned) {op : PubStep} {e : PubEntry} (h : w.Enters op e) :
    e.Allowed ↔ w.Rechecked op := by
  cases h with
  | direct hns => exact iff_of_true (hns.elim .inl fun h => .inr (.inl h)) trivial
  | @cleared p c ns token hpc hused =>
    have hp := hearned p
    simp only [Rechecked, hpc, Unmoved, PubEntry.Allowed, entry] at hp ⊢
    refine ⟨fun h _ => ?_, fun h => ?_⟩
    · rcases h with h | h | h | h
      · exact .inr (.inl h)
      · exact .inr (.inr (.inl h))
      · exact .inr (.inr (.inr h))
      · split at h
        · exact .inl (Option.some.inj h).symm
        · cases h
    · rcases h hused with h | h | h | h
      · rcases hp with htoken | hcaps
        · exact .inr (.inr (.inr (by rw [if_pos htoken, h])))
        · exact .inr (.inr (.inl hcaps))
      · exact .inl h
      · exact .inr (.inl h)
      · exact .inr (.inr (.inl h))

end PubWorld

open PubWorld

/-- After every run, whoever enters a topic with the next step is allowed to exactly if a call that goes on after its
    check finds a topic of the namespace that was checked, or one that needs no check. -/
theorem topics_isolated_iff (ops : List PubStep) (op : PubStep) (e : PubEntry)
    (he : ((run step {} ops).react op).1.enters = some e) : e.Allowed ↔ (run step {} ops).Rechecked op := by
  have hearned : (run step {} ops).AllEarned := run_invariant (fun _ op hw => earned_step hw op) fun _ => trivial
  exact (enters_step he).allowed_iff hearned

def checkedRun : List PubStep := [.create 1 [110] 2, .call 3 (.subscribe 0 1 0), .check 3 true]

theorem topics_isolated_token :
    let e : PubEntry := { pid := 3, topicNs := 2, callerNs := 1, caps := 0, token := some 2 }
    ((run step {} checkedRun).react (.resume 3)).1.enters = some e ∧ e.Allowed := by
  have he : ((run step {} checkedRun).react (.resume 3)).1.enters =
      some { pid := 3, topicNs := 2, callerNs := 1, caps := 0, token := some 2 } := by decide +kernel
  exact ⟨he, (topics_isolated_iff checkedRun (.resume 3) _ he).mpr (by decide +kernel)⟩

/-- The owner of the topic exits and another process creates one of namespace 3 in its slot: process 3 is installed
    there. -/
theorem subscribed_to_moved_topic : let w := run step {} (checkedRun ++ [.cleanup 1, .create 4 [110] 3])
    let e : PubEntry := { pid := 3, topicNs := 3, callerNs := 1, caps := 0, token := some 2 }
    (w.react (.resume 3)).1.enters = some e ∧ ¬ e.Allowed := by
  decide +kernel

end Limnx
