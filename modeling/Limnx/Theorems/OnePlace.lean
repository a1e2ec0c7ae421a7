import Mathlib.Data.List.Nodup
import Limnx.Lib.GuardedRun
import Limnx.Sched

/-! # Every thread is in one place

A placement gives each thread a run queue, a CPU on which it is current, the hands of a CPU that has stolen it, or none.
-/

namespace Limnx

open Function GuardedRun List Sched

attribute [local simp] setState setQueue localEnqueue switchTo setPhase

variable {n : Nat} {T : Nat → Prop}

/-- A thread is at most once in at most one run queue, current on at most one CPU, and not in a run queue
    while it is current. -/
structure OnePlace (s : Sched n) : Prop where
  once : ∀ c, (s.queue c).Nodup
  one : ∀ c c' t, t ∈ s.queue c → t ∈ s.queue c' → c = c'
  current : ∀ c c', s.current c = s.current c' → c = c'
  apart : ∀ c c', s.current c ∉ s.queue c'

/-- The system after the boot: each CPU runs a thread of its own, its idle thread or another, and nothing
    is queued, dead or under way. -/
structure Booted (s : Sched n) : Prop where
  queue : ∀ c, s.queue c = []
  phase : ∀ c, s.phase c = .running
  current : ∀ c c', s.current c = s.current c' → c = c'
  idle : ∀ c c', s.current c' = s.idle c → c' = c
  idleInj : ∀ c c', s.idle c = s.idle c' → c = c'
  state : ∀ t, s.state t = .ready ∨ s.state t = .running
  known : ∀ c, s.current c ∈ s.threads ∧ s.idle c ∈ s.threads
  created : ∀ t, s.created t = false
  mainThread : ∀ p, s.mainThread p = none
  deliveries : ∀ a, s.deliveries a = none
  dead : s.dead = []
  freed : s.freed = []

variable (s : Sched n)

/-- If `t` is blocked, it is current on no CPU. -/
def Sched.WokenAway (t : Nat) : Prop := s.state t = .blocked → ∀ c, s.current c ≠ t

/-- The waiter for a dead thread of `T` is `WokenAway`. -/
def Sched.WaitersAway (T : Nat → Prop) : Prop :=
  ∀ t p w, T t → s.state t = .dead → s.process t = some p → s.waitThread p = some w → s.WokenAway w

/-- The thread is ready, and in no run queue, current on no CPU and in the hands of none. -/
def Sched.Absent (s : Sched n) (t : Nat) : Prop :=
  s.state t = .ready ∧ ∀ c, t ∉ s.queue c ∧ s.current c ≠ t ∧ s.phase c ≠ .holding (some t)

/-- A thread is woken, by `sched_wake` or the scheduler itself, only when it is not current on a CPU, and a `sched_add`,
    of a new thread or for a `SIGCONT`, finds its thread ready and in no place. -/
def SwitchedOut : SchedOp n → Prop
  | .add _ t => s.created t → s.Absent t
  | .wake _ t => s.WokenAway t
  | .schedule c | .finish c =>
    s.WaitersAway fun t => t = s.current c ∨ t ∈ s.queue c ∨ s.phase c = .holding (some t)
  | .deliver _ a => ∀ d, s.deliveries a = some d →
      (∀ t, d.point = .wake t → s.WokenAway t) ∧ (d.point = .add → s.Absent d.thread)
  | _ => True

inductive Place (n : Nat)
  | nowhere
  | queued (c : Fin n)
  | running (c : Fin n)
  | held (c : Fin n)
deriving DecidableEq

/-- `w` says where each thread is. What the CPU `out` has as current thread and in its hands is left out:
    it is between the two ends of a switch. -/
structure Placed (out : Option (Fin n)) (s : Sched n) (w : Nat → Place n) : Prop where
  queue : ∀ c t, t ∈ s.queue c ↔ w t = .queued c
  nodup : ∀ c, (s.queue c).Nodup
  current : ∀ c t, w t = .running c ↔ out ≠ some c ∧ s.current c = t
  held : ∀ c t, w t = .held c ↔ out ≠ some c ∧ s.phase c = .holding (some t)
  idle : ∀ c, w (s.idle c) = .running c ∨ w (s.idle c) = .nowhere
  idleState : ∀ c, s.state (s.idle c) = .ready ∨ s.state (s.idle c) = .running
  ready : ∀ c t, w t = .queued c ∨ w t = .held c → s.state t ≠ .blocked
  known : ∀ t, w t ≠ .nowhere → t ∈ s.threads
  blocked : ∀ t, s.state t = .blocked → t ∈ s.threads
  idleKnown : ∀ c, s.idle c ∈ s.threads
  created : ∀ t, s.created t → t ∈ s.threads ∧ ∀ c, t ≠ s.idle c
  mainThread : ∀ p t, s.mainThread p = some t → t ∈ s.threads ∧ ∀ c, t ≠ s.idle c
  deliveries : ∀ a d, s.deliveries a = some d → d.thread ∈ s.threads ∧ ∀ c, d.thread ≠ s.idle c
  idleInj : ∀ c c', s.idle c = s.idle c' → c = c'

section
variable {out : Option (Fin n)} {s : Sched n} {w : Nat → Place n} {c : Fin n} {t : Nat}

theorem Placed.current_place (h : Placed none s w) (c : Fin n) : w (s.current c) = .running c :=
  (h.current c _).mpr ⟨by simp, rfl⟩

theorem Placed.current_idle (h : Placed none s w) {c' : Fin n} (he : s.current c = s.idle c') : c' = c := by
  have hw := h.current_place c
  rw [he] at hw
  rcases h.idle c' with hi | hi
  · simpa using hi.symm.trans hw
  · simp [hw] at hi

theorem Placed.idle_alive (h : Placed out s w) (c : Fin n) : s.state (s.idle c) ≠ .dead := by
  rcases h.idleState c with hs | hs <;> simp [hs]

theorem Placed.idle_awake (h : Placed out s w) (c : Fin n) : s.state (s.idle c) ≠ .blocked := by
  rcases h.idleState c with hs | hs <;> simp [hs]

theorem Placed.onePlace (h : Placed none s w) : OnePlace s := by
  have hcur := h.current_place
  refine ⟨h.nodup, fun c c' t ht ht' => ?_, fun c c' he => ?_, fun c c' hq => ?_⟩
  · have := ((h.queue c t).mp ht).symm.trans ((h.queue c' t).mp ht')
    simpa using this
  · have := (hcur c).symm.trans (he ▸ hcur c')
    simpa using this
  · have := (hcur c).symm.trans ((h.queue c' _).mp hq)
    simp at this

theorem Booted.placed (h : Booted s) : ∃ w, Placed none s w := by
  refine ⟨fun t => if hc : ∃ c, s.current c = t then .running hc.choose else .nowhere, ?_⟩
  have hw : ∀ c t, (if hc : ∃ c, s.current c = t then Place.running hc.choose else .nowhere) = .running c ↔
      s.current c = t := by
    intro c t
    split
    next hc =>
      simp only [Place.running.injEq]
      constructor
      · rintro rfl
        exact hc.choose_spec
      · intro he
        exact h.current _ _ (hc.choose_spec.trans he.symm)
    next hc =>
      simp only [reduceCtorEq, false_iff]
      exact fun he => hc ⟨c, he⟩
  refine ⟨fun c t => ?_, fun c => ?_, fun c t => ?_, fun c t => ?_, fun c => ?_, fun c => h.state _, fun c t ht => ?_,
    fun t ht => ?_, fun t ht => ?_, fun c => (h.known c).2, fun t ht => ?_, fun p t hp => ?_, fun a d hd => ?_, h.idleInj⟩
  · rw [h.queue c]
    split <;> simp
  · rw [h.queue c]
    exact nodup_nil
  · rw [hw]
    simp
  · rw [h.phase c]
    split <;> simp
  · split
    next hc =>
      refine .inl ?_
      rw [h.idle c _ hc.choose_spec]
    · exact .inr rfl
  · split at ht <;> simp at ht
  · split at ht
    next hc =>
      obtain ⟨c, rfl⟩ := hc
      exact (h.known c).1
    · exact absurd rfl ht
  · rcases h.state t with hs | hs <;> simp [hs] at ht
  · simp [h.created t] at ht
  · simp [h.mainThread p] at hp
  · simp [h.deliveries a] at hd

/-! ### The pieces of a step -/

theorem Placed.setState (h : Placed out s w) {x : ThreadState} (hx : x ≠ .blocked)
    (hidle : ∀ c, t = s.idle c → x = .ready ∨ x = .running) : Placed out (s.setState t x) w := by
  have hstate : ∀ u, (s.setState t x).state u = .blocked → s.state u = .blocked := by
    intro u hu
    obtain rfl | hut := eq_or_ne u t
    · simp at hu
      exact absurd hu hx
    · simpa [hut] using hu
  refine { h with
    idleState := fun c => ?_
    ready := fun c u hu hb => h.ready c u hu (hstate u hb)
    blocked := fun u hu => h.blocked u (hstate u hu) }
  by_cases hc : s.idle c = t
  · simpa [hc] using hidle c hc.symm
  · simpa [hc] using h.idleState c

theorem Placed.setBlocked (h : Placed none s w) (hc : s.current c ≠ s.idle c) :
    Placed none (s.setState (s.current c) .blocked) w := by
  have hw := h.current_place c
  refine { h with idleState := fun c' => ?_, ready := fun c' u hu => ?_, blocked := fun u hu => ?_ }
  · have hne : s.idle c' ≠ s.current c := by
      intro he
      obtain rfl := h.current_idle he.symm
      exact hc he.symm
    simpa [hne] using h.idleState c'
  · have hne : u ≠ s.current c := by
      rintro rfl
      simp [hw] at hu
    simpa [hne] using h.ready c' u hu
  · by_cases hut : u = s.current c
    · subst hut
      exact h.known _ (by simp [hw])
    · exact h.blocked u (by simpa [hut] using hu)

structure Moved (out out' : Option (Fin n)) (t : Nat) (p : Place n) (s s' : Sched n) : Prop where
  queue : ∀ c u, u ≠ t → (u ∈ s'.queue c ↔ u ∈ s.queue c)
  current : ∀ c u, u ≠ t → (out' ≠ some c ∧ s'.current c = u ↔ out ≠ some c ∧ s.current c = u)
  held : ∀ c u, u ≠ t →
    (out' ≠ some c ∧ s'.phase c = .holding (some u) ↔ out ≠ some c ∧ s.phase c = .holding (some u))
  queued : ∀ c, t ∈ s'.queue c ↔ p = .queued c
  isCurrent : ∀ c, p = .running c ↔ out' ≠ some c ∧ s'.current c = t
  isHeld : ∀ c, p = .held c ↔ out' ≠ some c ∧ s'.phase c = .holding (some t)
  nodup : ∀ c, (s'.queue c).Nodup
  idle : ∀ c, s.idle c = t → p = .running c ∨ p = .nowhere
  ready : ∀ c, p = .queued c ∨ p = .held c → s.state t ≠ .blocked
  known : p ≠ .nowhere → t ∈ s.threads
  rest : s'.idle = s.idle ∧ s'.state = s.state ∧ s'.threads = s.threads ∧ s'.created = s.created ∧
    s'.mainThread = s.mainThread ∧ s'.deliveries = s.deliveries

theorem Placed.move {out' : Option (Fin n)} {p : Place n} {s' : Sched n} (h : Placed out s w)
    (hm : Moved out out' t p s s') : Placed out' s' (update w t p) := by
  obtain ⟨hi, hs, hthr, hcr, hmain, hdel⟩ := hm.rest
  refine ⟨fun c u => ?_, hm.nodup, fun c u => ?_, fun c u => ?_, fun c => ?_, ?_, fun c u hu => ?_, fun u hu => ?_, ?_,
    ?_, ?_, ?_, ?_, ?_⟩
  · by_cases hut : u = t
    · subst hut; simpa using hm.queued c
    · simpa [hut, hm.queue c u hut] using h.queue c u
  · by_cases hut : u = t
    · subst hut; simpa using hm.isCurrent c
    · simpa only [update_of_ne hut, hm.current c u hut] using h.current c u
  · by_cases hut : u = t
    · subst hut; simpa using hm.isHeld c
    · simpa only [update_of_ne hut, hm.held c u hut] using h.held c u
  · rw [hi]
    by_cases hit : s.idle c = t
    · simpa [hit] using hm.idle c hit
    · simpa [hit] using h.idle c
  · rw [hi, hs]; exact h.idleState
  · rw [hs]
    by_cases hut : u = t
    · subst hut; exact hm.ready c (by simpa using hu)
    · exact h.ready c u (by simpa [hut] using hu)
  · rw [hthr]
    by_cases hut : u = t
    · subst hut; exact hm.known (by simpa using hu)
    · exact h.known u (by simpa [hut] using hu)
  · rw [hs, hthr]; exact h.blocked
  · rw [hi, hthr]; exact h.idleKnown
  · rw [hcr, hi, hthr]; exact h.created
  · rw [hmain, hi, hthr]; exact h.mainThread
  · rw [hdel, hi, hthr]; exact h.deliveries
  · rw [hi]; exact h.idleInj

theorem Placed.localEnqueue (h : Placed out s w) (hw : w t = .nowhere) (ht : t ∈ s.threads)
    (hidle : ∀ c, t ≠ s.idle c) (hst : s.state t ≠ .blocked) :
    Placed out (s.localEnqueue c t) (update w t (.queued c)) := by
  have hnot : ∀ c', t ∉ s.queue c' := by
    intro c' hq
    have := (h.queue c' t).mp hq
    simp [hw] at this
  refine h.move ⟨fun c' u hut => ?_, fun _ _ _ => .rfl, fun _ _ _ => .rfl, fun c' => ?_, fun c' => ?_, fun c' => ?_,
    fun c' => ?_, fun c' he => absurd he.symm (hidle c'), fun _ _ => hst, fun _ => ht, rfl, rfl, rfl, rfl, rfl, rfl⟩
  · by_cases hcc : c' = c
    · subst hcc; simp [hut]
    · simp [hcc]
  · by_cases hcc : c' = c
    · subst hcc; simp
    · simp [hcc, hnot c', Ne.symm hcc]
  · simpa [hw] using h.current c' t
  · simpa [hw] using h.held c' t
  · obtain rfl | hcc := eq_or_ne c' c
    · simp only [localEnqueue, setQueue, update_self]
      exact nodup_append_comm.mp (nodup_cons.mpr ⟨hnot c', h.nodup c'⟩)
    · simpa [hcc] using h.nodup c'

theorem Placed.takeOut (h : Placed out s w) {l : List Nat} (hl : (s.queue c).Perm (t :: l)) :
    Placed out (s.setQueue c l) (update w t .nowhere) := by
  have hnodup : (t :: l).Nodup := hl.nodup_iff.mp (h.nodup c)
  have hw : w t = .queued c := (h.queue c t).mp (hl.mem_iff.mpr mem_cons_self)
  refine h.move ⟨fun c' u hut => ?_, fun _ _ _ => .rfl, fun _ _ _ => .rfl, fun c' => ?_, fun c' => ?_, fun c' => ?_,
    fun c' => ?_, fun _ _ => .inr rfl, by simp, by simp, rfl, rfl, rfl, rfl, rfl, rfl⟩
  · obtain rfl | hcc := eq_or_ne c' c
    · simp [hl.mem_iff, hut]
    · simp [hcc]
  · obtain rfl | hcc := eq_or_ne c' c
    · simpa using (nodup_cons.mp hnodup).1
    · simp [hcc, h.queue, hw, Ne.symm hcc]
  · simpa [hw] using h.current c' t
  · simpa [hw] using h.held c' t
  · obtain rfl | hcc := eq_or_ne c' c
    · simpa using (nodup_cons.mp hnodup).2
    · simpa [hcc] using h.nodup c'

def Place.without (c : Fin n) (w : Nat → Place n) (t : Nat) : Place n :=
  if w t = .running c ∨ w t = .held c then .nowhere else w t

theorem Placed.leave (h : Placed none s w) (c : Fin n) : Placed (some c) s (Place.without c w) := by
  have hkeep : ∀ t p, (p = .nowhere ∨ p = .running c ∨ p = .held c) ∨ (Place.without c w t = p ↔ w t = p) := by
    intro t p
    unfold Place.without
    split
    · by_cases hp : p = .nowhere ∨ p = .running c ∨ p = .held c
      · exact .inl hp
      refine .inr ⟨fun he => absurd (.inl he.symm) hp, fun he => absurd (.inr ?_) hp⟩
      rename_i hw
      rwa [he] at hw
    · exact .inr Iff.rfl
  refine { h with
    queue := fun c' t => ?_, current := fun c' t => ?_, held := fun c' t => ?_, idle := fun c' => ?_
    ready := fun c' t ht => ?_, known := fun t ht => ?_ }
  · rw [h.queue]
    have := hkeep t (.queued c')
    simp only [reduceCtorEq, or_self, false_or] at this
    exact this.symm
  · obtain rfl | hcc := eq_or_ne c' c
    · simp only [ne_eq, not_true_eq_false, false_and, iff_false]
      unfold Place.without
      split
      · simp
      next hw => exact fun he => hw (.inl he)
    · have := hkeep t (.running c')
      simp only [reduceCtorEq, Place.running.injEq, hcc, or_self, false_or] at this
      rw [this, h.current]
      simp [Ne.symm hcc]
  · obtain rfl | hcc := eq_or_ne c' c
    · simp only [ne_eq, not_true_eq_false, false_and, iff_false]
      unfold Place.without
      split
      · simp
      next hw => exact fun he => hw (.inr he)
    · have := hkeep t (.held c')
      simp only [reduceCtorEq, Place.held.injEq, hcc, or_self, false_or] at this
      rw [this, h.held]
      simp [Ne.symm hcc]
  · unfold Place.without
    split
    · exact .inr rfl
    · exact h.idle c'
  · refine h.ready c' t ?_
    unfold Place.without at ht
    split at ht
    · simp at ht
    · exact ht
  · refine h.known t fun hw => ht ?_
    simp [Place.without, hw]

theorem Placed.switchTo (h : Placed (some c) s w) (hw : w t = .nowhere) (ht : t ∈ s.threads)
    (hidle : ∀ c', t = s.idle c' → c' = c) : Placed none (s.switchTo c t) (update w t (.running c)) := by
  have hrun : Placed (some c) (s.setState t .running) w := h.setState (by simp) fun _ _ => .inr rfl
  refine hrun.move ⟨fun _ _ _ => .rfl, fun c' u hut => ?_, fun c' u hut => ?_, fun c' => ?_, fun c' => ?_, fun c' => ?_,
    h.nodup, fun c' he => .inl ?_, by simp, fun _ => ht, rfl, rfl, rfl, rfl, rfl, rfl⟩
  · by_cases hcc : c' = c
    · subst hcc; simp [Ne.symm hut]
    · simp [hcc, Ne.symm hcc]
  · by_cases hcc : c' = c
    · subst hcc; simp
    · simp [hcc, Ne.symm hcc]
  · simpa [hw] using h.queue c' t
  · by_cases hcc : c' = c
    · subst hcc; simp
    · simpa [hcc, Ne.symm hcc, hw] using h.current c' t
  · by_cases hcc : c' = c
    · subst hcc; simp
    · simpa [hcc, Ne.symm hcc, hw] using h.held c' t
  · rw [hidle c' he.symm]

theorem Placed.setPhase (h : Placed none s w) {p : SchedPhase} (hold : ∀ t, s.phase c ≠ .holding (some t))
    (hp : ∀ t, p ≠ .holding (some t)) : Placed none (s.setPhase c p) w := by
  refine { h with held := fun c' t => ?_ }
  obtain rfl | hcc := eq_or_ne c' c
  · rw [h.held]
    simp [hold, hp]
  · rw [h.held]
    simp [hcc]

theorem Placed.hold (h : Placed none s w) (hold : ∀ u, s.phase c ≠ .holding (some u)) (hw : w t = .nowhere)
    (ht : t ∈ s.threads) (hidle : ∀ c, t ≠ s.idle c) (hst : s.state t ≠ .blocked) :
    Placed none (s.setPhase c (.holding (some t))) (update w t (.held c)) := by
  refine h.move ⟨fun _ _ _ => .rfl, fun _ _ _ => .rfl, fun c' u hut => ?_, fun c' => ?_, fun c' => ?_, fun c' => ?_,
    h.nodup, fun c' he => absurd he.symm (hidle c'), fun _ _ => hst, fun _ => ht, rfl, rfl, rfl, rfl, rfl, rfl⟩
  · by_cases hcc : c' = c
    · subst hcc; simp [hold, Ne.symm hut]
    · simp [hcc]
  · simpa [hw] using h.queue c' t
  · simpa [hw] using h.current c' t
  · by_cases hcc : c' = c
    · subst hcc; simp
    · simpa [hcc, Ne.symm hcc, hw] using h.held c' t

theorem Placed.nowhere (h : Placed out s w) (hb : s.state t = .blocked) (haway : s.WokenAway t) : w t = .nowhere := by
  cases hw : w t with
  | nowhere => rfl
  | queued c => exact absurd hb (h.ready c t (.inl hw))
  | running c => exact absurd ((h.current c t).mp hw).2 (haway hb c)
  | held c => exact absurd hb (h.ready c t (.inr hw))

theorem Placed.wakeOn (h : Placed out s w) (haway : s.WokenAway t) :
    ∃ w', Placed out (s.wakeOn c t) w' ∧ ∀ u, s.state u ≠ .blocked → w' u = w u := by
  unfold Sched.wakeOn
  split
  next hb =>
    have hready : Placed out (s.setState t .ready) w := h.setState (by simp) fun _ _ => .inl rfl
    refine ⟨_, hready.localEnqueue (h.nowhere hb haway) (h.blocked t hb) (fun c he => h.idle_awake c (he ▸ hb)) (by simp),
      fun u hu => ?_⟩
    have hut : u ≠ t := by
      rintro rfl
      exact hu hb
    exact update_of_ne hut _ _
  · exact ⟨w, h, fun _ _ => rfl⟩

theorem Placed.bury (h : Placed out s w)
    (haway : ∀ p u, s.process t = some p → s.waitThread p = some u → s.WokenAway u) :
    ∃ w', Placed out (s.bury c t) w' ∧ ∀ u, s.state u ≠ .blocked → w' u = w u := by
  unfold Sched.bury
  split
  · exact ⟨w, { h with }, fun _ _ => rfl⟩
  rename_i p hp
  have hl : Placed out (s.leaveProcess t p) w := { h with }
  split
  · exact ⟨w, { hl with }, fun _ _ => rfl⟩
  rename_i u hu
  obtain ⟨w', hw', hkeep⟩ := hl.wakeOn (c := c) (haway p u hp hu)
  exact ⟨w', { hw' with }, hkeep⟩

end

/-! ### Before the switch -/

structure Grows (c : Fin n) (s s' : Sched n) : Prop where
  state : ∀ u, s'.state u = .dead ↔ s.state u = .dead
  blocked : ∀ u, s'.state u = .blocked → s.state u = .blocked
  queue : ∃ l, s'.queue c = s.queue c ++ l ∧ ∀ t ∈ l, s.state t ≠ .dead
  others : ∀ c', c' ≠ c → s'.queue c' = s.queue c'
  process : ∀ u p, s'.process u = some p → s.process u = some p
  waitThread : ∀ p u, s'.waitThread p = some u → s.waitThread p = some u
  current : s'.current = s.current
  phase : s'.phase = s.phase
  idle : s'.idle = s.idle
  threads : s'.threads = s.threads
  freed : s'.freed = s.freed

namespace Grows
variable {c : Fin n} {s s' s'' : Sched n} {t : Nat}

theorem refl : Grows c s s :=
  ⟨fun _ => Iff.rfl, fun _ => id, ⟨[], by simp, by simp⟩, fun _ _ => rfl, fun _ _ => id, fun _ _ => id, rfl, rfl, rfl,
    rfl, rfl⟩

theorem trans (h : Grows c s s') (h' : Grows c s' s'') : Grows c s s'' := by
  obtain ⟨l, hl, hlive⟩ := h.queue
  obtain ⟨l', hl', hlive'⟩ := h'.queue
  refine ⟨fun u => (h'.state u).trans (h.state u), fun u => h.blocked u ∘ h'.blocked u,
    ⟨l ++ l', by rw [hl', hl, append_assoc], fun t ht => ?_⟩,
    fun c' hc => (h'.others c' hc).trans (h.others c' hc), fun u p => h.process u p ∘ h'.process u p,
    fun p u => h.waitThread p u ∘ h'.waitThread p u, h'.current.trans h.current, h'.phase.trans h.phase,
    h'.idle.trans h.idle, h'.threads.trans h.threads, h'.freed.trans h.freed⟩
  rcases mem_append.mp ht with ht | ht
  · exact hlive t ht
  · exact (h.state t).not.mp (hlive' t ht)

theorem setReady (ht : s.state t ≠ .dead) : Grows c s (s.setState t .ready) := by
  refine { refl (c := c) (s := s) with state := fun u => ?_, blocked := fun u hu => ?_ }
  · obtain rfl | hut := eq_or_ne u t
    · simp [ht]
    · simp [hut]
  · obtain rfl | hut := eq_or_ne u t
    · simp at hu
    · simpa [hut] using hu

theorem localEnqueue (ht : s.state t ≠ .dead) : Grows c s (s.localEnqueue c t) := by
  refine { refl (c := c) (s := s) with queue := ⟨[t], ?_, ?_⟩, others := fun c' hc => ?_ }
  · simp
  · simpa using ht
  · simp [hc]

theorem makeReady (ht : s.state t ≠ .dead) : Grows c s ((s.setState t .ready).localEnqueue c t) :=
  (setReady ht).trans (localEnqueue (by simp))

theorem putBack : Grows c s (s.putBack c) := by
  unfold Sched.putBack
  split
  next hrun =>
    have hlive : s.state (s.current c) ≠ .dead := by simp [hrun]
    split
    · exact setReady hlive
    · exact makeReady hlive
  · exact refl

theorem wakeOn : Grows c s (s.wakeOn c t) := by
  unfold Sched.wakeOn
  split
  next hb => exact makeReady (by simp [hb])
  · exact refl

theorem leaveProcess {p : Nat} : Grows c s (s.leaveProcess t p) := by
  refine { refl (c := c) (s := s) with process := fun u q hu => ?_, waitThread := fun q u hq => ?_ }
  · by_cases hut : u = t
    · subst hut; simp [leaveProcess] at hu
    · simpa [Sched.leaveProcess, hut] using hu
  · by_cases hqp : q = p
    · subst hqp; simp [Sched.leaveProcess] at hq
    · simpa [Sched.leaveProcess, hqp] using hq

theorem linkDead : Grows c s (s.linkDead t) := { refl (c := c) (s := s) with }

theorem bury : Grows c s (s.bury c t) := by
  unfold Sched.bury
  split
  · exact linkDead
  split
  · exact leaveProcess.trans linkDead
  · exact (leaveProcess.trans wakeOn).trans linkDead

theorem buryCurrent : Grows c s (s.buryCurrent c) := by
  unfold Sched.buryCurrent
  split
  · exact bury
  · exact refl

theorem waitersAway (h : Grows c s s') (haway : s.WaitersAway T) : s'.WaitersAway T := by
  intro u p w hT hd hp hw hb
  rw [h.current]
  exact haway u p w hT ((h.state u).mp hd) (h.process u p hp) (h.waitThread p w hw) (h.blocked w hb)

end Grows

/-! ### The switch -/

section
variable {s : Sched n} {w : Nat → Place n} {c : Fin n} {next : Nat}

def StaysBuried (s : Sched n) (w w' : Nat → Place n) : Prop :=
  ∀ u ∈ s.threads, s.state u = .dead → w u = .nowhere → w' u = .nowhere

/-- There are places for the new state, with the buried threads where they were. -/
def Settles (s : Sched n) (w : Nat → Place n) (s' : Sched n) : Prop := ∃ w', Placed none s' w' ∧ StaysBuried s w w'

theorem StaysBuried.refl : StaysBuried s w w := fun _ _ _ h => h

theorem StaysBuried.update {w' : Nat → Place n} {t : Nat} (p : Place n) (h : StaysBuried s w w')
    (ht : t ∈ s.threads → s.state t ≠ .dead ∨ w t ≠ .nowhere) : StaysBuried s w (update w' t p) := by
  intro u hu hd hw
  have hut : u ≠ t := by
    rintro rfl
    exact (ht hu).elim (fun h => h hd) fun h => h hw
  rw [update_of_ne hut]
  exact h u hu hd hw

theorem StaysBuried.of_without {w' : Nat → Place n} (h : StaysBuried s (Place.without c w) w') : StaysBuried s w w' :=
  fun u hu hd hw => h u hu hd (by simp [Place.without, hw])

structure Eligible (s : Sched n) (w : Nat → Place n) (c : Fin n) (t : Nat) : Prop where
  nowhere : w t = .nowhere
  known : t ∈ s.threads
  idle : ∀ c', t = s.idle c' → c' = c
  state : s.state t ≠ .blocked

section
variable (h : Placed (some c) s w) (hcur : w (s.current c) = .nowhere) (hk : s.current c ∈ s.threads)
  (hi : ∀ c', s.current c = s.idle c' → c' = c)
include h hcur hk hi

theorem Placed.putBack :
    ∃ w', Placed (some c) (s.putBack c) w' ∧ (∀ u, u ≠ s.current c ∨ u = s.idle c → w' u = w u) ∧
      ∀ u, s.state u = .dead → w' u = w u := by
  unfold Sched.putBack
  split
  next hrun =>
    have hready : Placed (some c) (s.setState (s.current c) .ready) w := h.setState (by simp) fun _ _ => .inl rfl
    split
    · exact ⟨w, hready, fun _ _ => rfl, fun _ _ => rfl⟩
    rename_i hne
    have hnidle : ∀ c', s.current c ≠ s.idle c' := by
      intro c' he
      have := hi c' he
      subst this
      exact hne he
    refine ⟨_, hready.localEnqueue hcur hk hnidle (by simp), fun u hu => ?_, fun u hu => ?_⟩
    · refine update_of_ne ?_ _ _
      rintro rfl
      exact hu.elim (fun h => h rfl) hne
    · refine update_of_ne ?_ _ _
      rintro rfl
      simp [hrun] at hu
  · exact ⟨w, h, fun _ _ => rfl, fun _ _ => rfl⟩

theorem Placed.putAway (haway : s.WaitersAway T) (hTc : T (s.current c)) :
    ∃ w', Placed (some c) ((s.putBack c).buryCurrent c) w' ∧
      (∀ u, u ≠ s.current c ∨ u = s.idle c → s.state u ≠ .blocked → w' u = w u) ∧ StaysBuried s w w' ∧
      ((s.putBack c).buryCurrent c).WaitersAway T := by
  obtain ⟨w1, h1, hw1, hd1⟩ := h.putBack hcur hk hi
  have hst1 : ∀ u, s.state u ≠ .blocked → (s.putBack c).state u ≠ .blocked := fun u => mt (Grows.putBack.blocked u)
  have haway1 : (s.putBack c).WaitersAway T := Grows.putBack.waitersAway haway
  unfold buryCurrent
  split
  next hd =>
    rw [Grows.putBack.current] at hd ⊢
    obtain ⟨w2, h2, hkeep⟩ := h1.bury (c := c) (fun p u => haway1 (s.current c) p u hTc hd.1)
    refine ⟨w2, h2, fun u hu hb => (hkeep u (hst1 u hb)).trans (hw1 u hu), fun u _ hu hw => ?_,
      Grows.bury.waitersAway haway1⟩
    rw [hkeep u (hst1 u (by simp [hu])), hd1 u hu]
    exact hw
  · exact ⟨w1, h1, fun u hu _ => hw1 u hu, fun u _ hu hw => (hd1 u hu).trans hw, haway1⟩

theorem Placed.runNext (hnext : Eligible s w c next)
    (hne : next ≠ s.current c ∨ next = s.idle c) (haway : s.WaitersAway T) (hTc : T (s.current c))
    (hTn : s.state next = .dead → T next) : Settles s w (s.runNext c next) := by
  obtain ⟨w2, h2, hw2, hb2, haway2⟩ := h.putAway hcur hk hi haway hTc
  have hgrows2 : Grows c s ((s.putBack c).buryCurrent c) := Grows.putBack.trans Grows.buryCurrent
  have hdead2 := hgrows2.state
  have hidle2 := hgrows2.idle
  have hthr2 := hgrows2.threads
  unfold Sched.runNext
  generalize (s.putBack c).buryCurrent c = s2 at *
  -- the switch itself, to a thread that is not dead, or was not nowhere before
  have hgo : ∀ {s' : Sched n} {w' : Nat → Place n} {t : Nat}, Placed (some c) s' w' → s'.idle = s.idle →
      s'.threads = s.threads → StaysBuried s w w' → w' t = .nowhere → t ∈ s.threads →
      (∀ c', t = s.idle c' → c' = c) → (s.state t ≠ .dead ∨ w t ≠ .nowhere) →
      Settles s w (s'.switchTo c t) := by
    intro s' w' t h' hi' ht' hb' hw' ht hidle hlive
    exact ⟨_, h'.switchTo hw' (ht' ▸ ht) (hi' ▸ hidle), hb'.update _ fun _ => hlive⟩
  simp only
  split
  next hd =>
    obtain ⟨w3, h3, hkeep⟩ := h2.bury (c := c) (fun p u => haway2 next p u (hTn ((hdead2 next).mp hd.1)) hd.1)
    have hidle3 : (s2.bury c next).idle = s.idle := Grows.bury.idle.trans hidle2
    have hthr3 : (s2.bury c next).threads = s.threads := Grows.bury.threads.trans hthr2
    have hb3 : StaysBuried s w w3 := by
      intro u hu hud hw
      rw [hkeep u (by simp [(hdead2 u).mpr hud])]
      exact hb2 u hu hud hw
    unfold localDequeue
    cases hq : (s2.bury c next).queue c with
    | nil =>
      refine hgo h3 hidle3 hthr3 hb3 ?_ ?_ ?_ (.inl ?_)
      · rcases h3.idle c with hr | hr
        · exact absurd rfl ((h3.current c _).mp hr).1
        · exact hr
      · rw [← hthr3]; exact h3.idleKnown c
      · intro c' he
        exact (h3.idleInj c c' (he.trans (congrFun hidle3 c').symm)).symm
      · simp only [hidle3]
        exact h.idle_alive c
    | cons t l =>
      have hperm : ((s2.bury c next).queue c).Perm (t :: l) := by rw [hq]
      have hqueued : w3 t = .queued c := (h3.queue c t).mp (by rw [hq]; exact mem_cons_self)
      have hknown : t ∈ s.threads := by rw [← hthr3]; exact h3.known t (by simp [hqueued])
      have hlive : s.state t ≠ .dead ∨ w t ≠ .nowhere := by
        by_contra hno
        simp only [not_or, not_not] at hno
        have := hb3 t hknown hno.1 hno.2
        simp [hqueued] at this
      refine hgo (h3.takeOut hperm) hidle3 hthr3 (hb3.update _ fun _ => hlive) (by simp) hknown ?_ hlive
      rintro c' rfl
      have := h3.idle c'
      rw [hidle3] at this
      rcases this with hr | hr <;> simp [hqueued] at hr
  next hd =>
    refine hgo h2 hidle2 hthr2 hb2 ((hw2 next hne hnext.state).trans hnext.nowhere) hnext.known hnext.idle (.inl ?_)
    intro hdead
    rcases not_and_or.mp hd with hd | hd
    · exact hd ((hdead2 next).mpr hdead)
    rw [not_not, hidle2] at hd
    rw [hd] at hdead
    exact h.idle_alive c hdead

end

section
variable (h : Placed none s w)
include h

theorem Placed.not_idle_of_place {t : Nat} (hw : (∃ c, w t = .queued c) ∨ ∃ c, w t = .held c)
    (c : Fin n) : t ≠ s.idle c := by
  rintro rfl
  rcases hw with ⟨c', hw⟩ | ⟨c', hw⟩ <;> rcases h.idle c with hi | hi <;> simp [hw] at hi

theorem Placed.runNext_dequeued {s' : Sched n} {t : Nat} {l : List Nat} (hq : s.queue c = t :: l)
    (hs' : Placed (some c) s' (update (Place.without c w) t .nowhere)) (hcur : s'.current = s.current)
    (hidle : s'.idle = s.idle) (hstate : s'.state = s.state) (hthr : s'.threads = s.threads)
    (haway : s'.WaitersAway T) (hTc : T (s.current c)) (hTn : T t) : Settles s w (s'.runNext c t) := by
  have hqueued : w t = .queued c := (h.queue c t).mp (by rw [hq]; exact mem_cons_self)
  have hplace := h.current_place c
  have hne : s.current c ≠ t := by
    intro he
    rw [he, hqueued] at hplace
    simp at hplace
  have hkeep : ∀ w', StaysBuried s' (update (Place.without c w) t .nowhere) w' → StaysBuried s w w' := by
    intro w' hb u hu hd hw
    refine hb u (hthr ▸ hu) (hstate ▸ hd) ?_
    have hut : u ≠ t := by
      rintro rfl
      simp [hqueued] at hw
    rw [update_of_ne hut]
    simp [Place.without, hw]
  suffices ∃ w', Placed none (s'.runNext c t) w' ∧
      StaysBuried s' (update (Place.without c w) t .nowhere) w' from
    this.imp fun w' hw' => ⟨hw'.1, hkeep w' hw'.2⟩
  refine hs'.runNext ?_ ?_ ?_ ⟨by simp, ?_, ?_, ?_⟩ (.inl ?_) haway (hcur ▸ hTc) fun _ => hTn
  · rw [hcur, update_of_ne hne]
    simp [Place.without, hplace]
  · rw [hcur, hthr]; exact h.known _ (by simp [hplace])
  · intro c' he
    rw [hcur, hidle] at he
    exact h.current_idle he
  · rw [hthr]; exact h.known t (by simp [hqueued])
  · intro c' he
    rw [hidle] at he
    exact absurd he (h.not_idle_of_place (.inl ⟨c, hqueued⟩) c')
  · rw [hstate]; exact h.ready c t (.inl hqueued)
  · rw [hcur]; exact hne.symm

theorem Placed.schedule (hp : s.phase c = .running) (hok : SwitchedOut s (.schedule c)) :
    Settles s w (s.schedule c) := by
  have hreap : ∀ {out : Option (Fin n)} {w : Nat → Place n}, Placed out s w → Placed out s.reapDead w :=
    fun h => { h with }
  unfold Sched.schedule Sched.localDequeue
  cases hq : s.reapDead.queue c with
  | nil =>
    have hrun : s.reapDead.phase c = .running := hp
    exact ⟨w, (hreap h).setPhase (by simp [hrun]) (by simp), .refl⟩
  | cons t l =>
    have hperm : (s.reapDead.queue c).Perm (t :: l) := by rw [hq]
    have hmem : t ∈ s.queue c := hperm.mem_iff.mpr mem_cons_self
    exact h.runNext_dequeued hq ((hreap (h.leave c)).takeOut hperm) rfl rfl rfl rfl hok (.inl rfl) (.inr (.inl hmem))

theorem Placed.steal {i : Nat} (hp : s.phase c = .stealing i) : Settles s w (s.steal c i) := by
  have hphase : ∀ t, s.phase c ≠ .holding (some t) := by simp [hp]
  unfold Sched.steal
  split
  next hi =>
    split
    · exact ⟨w, h.setPhase hphase (by simp), .refl⟩
    unfold stealFromTail
    cases hq : (s.queue ⟨i, hi⟩).getLast? with
    | none => exact ⟨w, h.setPhase hphase (by simp), .refl⟩
    | some t =>
      have hsplit : s.queue ⟨i, hi⟩ = (s.queue ⟨i, hi⟩).dropLast ++ [t] := by
        obtain ⟨hne, hlast⟩ := getLast?_eq_some_iff.mp hq
        rw [hlast, dropLast_concat]
      have hperm : (s.queue ⟨i, hi⟩).Perm (t :: (s.queue ⟨i, hi⟩).dropLast) := by
        nth_rewrite 1 [hsplit]
        exact perm_append_singleton t _
      have hqueued : w t = .queued ⟨i, hi⟩ := (h.queue _ t).mp (hperm.mem_iff.mpr mem_cons_self)
      refine ⟨_, (h.takeOut hperm).hold hphase (by simp) (h.known t (by simp [hqueued]))
        (h.not_idle_of_place (.inl ⟨_, hqueued⟩)) (h.ready _ t (.inl hqueued)), ?_⟩
      rw [update_idem]
      exact StaysBuried.refl.update _ fun _ => .inr (by simp [hqueued])
  · exact ⟨w, h.setPhase hphase (by simp), .refl⟩

theorem Placed.finish {next : Option Nat} (hp : s.phase c = .holding next)
    (hok : SwitchedOut s (.finish c)) : Settles s w (s.finish c next) := by
  have hplace := h.current_place c
  have hcur : Place.without c w (s.current c) = .nowhere := by simp [Place.without, hplace]
  have hknown : s.current c ∈ s.threads := h.known _ (by simp [hplace])
  have hcidle : ∀ c', s.current c = s.idle c' → c' = c := fun c' he => h.current_idle he
  cases next with
  | some t =>
    have hheld : w t = .held c := (h.held c t).mpr ⟨by simp, hp⟩
    have hne : t ≠ s.current c := by
      rintro rfl
      simp [hheld] at hplace
    obtain ⟨w', hw', hb⟩ := (h.leave c).runNext hcur hknown hcidle
      ⟨by simp [Place.without, hheld], h.known t (by simp [hheld]),
        fun c' he => absurd he (h.not_idle_of_place (.inr ⟨c, hheld⟩) c'), h.ready c t (.inr hheld)⟩
      (.inl hne) hok (.inl rfl) fun _ => .inr (.inr hp)
    exact ⟨w', hw', hb.of_without⟩
  | none =>
    simp only [Sched.finish, Sched.localDequeue]
    cases hq : s.queue c with
    | cons t l =>
      have hperm : (s.queue c).Perm (t :: l) := by rw [hq]
      exact h.runNext_dequeued hq ((h.leave c).takeOut hperm) rfl rfl rfl rfl hok (.inl rfl)
        (.inr (.inl (hperm.mem_iff.mpr mem_cons_self)))
    | nil =>
      simp only
      split
      · have hout : Place.without c w (s.idle c) = .nowhere := by
          rcases h.idle c with hi | hi <;> simp [Place.without, hi]
        obtain ⟨w', hw', hb⟩ := (h.leave c).runNext hcur hknown hcidle
          ⟨hout, h.idleKnown c, fun c' he => (h.idleInj c c' he).symm, h.idle_awake c⟩
          (.inr rfl) hok (.inl rfl) fun hd => absurd hd (h.idle_alive c)
        exact ⟨w', hw', hb.of_without⟩
      · exact ⟨w, h.setPhase (by simp [hp]) (by simp), .refl⟩

theorem Placed.setDelivery (a : Nat) {d : Option Delivery}
    (hd : ∀ d' ∈ d, d'.thread ∈ s.threads ∧ ∀ c, d'.thread ≠ s.idle c) : Placed none (s.setDelivery a d) w := by
  refine { h with deliveries := fun a' d' hd' => ?_ }
  obtain rfl | haa := eq_or_ne a' a
  · exact hd d' (by simpa [Sched.setDelivery] using hd')
  · exact h.deliveries a' d' (by simpa [Sched.setDelivery, haa] using hd')

theorem Placed.nowhere_of_absent {t : Nat} (ht : s.Absent t) : w t = .nowhere := by
  cases hw : w t with
  | nowhere => rfl
  | queued c => exact absurd ((h.queue c _).mpr hw) (ht.2 c).1
  | running c => exact absurd ((h.current c _).mp hw).2 (ht.2 c).2.1
  | held c => exact absurd ((h.held c _).mp hw).2 (ht.2 c).2.2

theorem Placed.create (t : Nat) (p : Option Nat) : Placed none (s.step (.create t p)) w := by
  simp only [step]
  split
  next hnew =>
    have hidle : ∀ c, t ≠ s.idle c := by
      rintro c rfl
      exact hnew.1 (h.idleKnown c)
    have hready : Placed none (s.setState t .ready) w := h.setState (by simp) fun _ _ => .inl rfl
    refine { hready with
      known := fun u hu => .tail _ (h.known u hu)
      blocked := fun u hu => .tail _ (hready.blocked u hu)
      idleKnown := fun c => .tail _ (h.idleKnown c)
      created := fun u hu => ?_
      mainThread := fun q u hq => ?_
      deliveries := fun a d hd => ⟨.tail _ (h.deliveries a d hd).1, (h.deliveries a d hd).2⟩ }
    · obtain rfl | hut := eq_or_ne u t
      · exact ⟨mem_cons_self, hidle⟩
      · obtain ⟨hmem, hi⟩ := h.created u (by simpa [hut] using hu)
        exact ⟨.tail _ hmem, hi⟩
    · simp only at hq
      split at hq
      · cases hq
        exact ⟨mem_cons_self, hidle⟩
      · exact ⟨.tail _ (h.mainThread q u hq).1, (h.mainThread q u hq).2⟩
  · exact h

theorem Placed.add {t : Nat} (hc : s.created t) (ht : s.Absent t) :
    Settles s w ({ s with created := update s.created t false }.localEnqueue c t) := by
  obtain ⟨hknown, hidle⟩ := h.created t hc
  have hadded : Placed none { s with created := update s.created t false } w := by
    refine { h with created := fun u hu => h.created u ?_ }
    obtain rfl | hut := eq_or_ne u t
    · exact hc
    · simpa [hut] using hu
  exact ⟨_, hadded.localEnqueue (h.nowhere_of_absent ht) hknown hidle (by simp [ht.1]),
    StaysBuried.refl.update _ fun _ => .inl (by simp [ht.1])⟩

theorem Placed.deliver {a : Nat} {d : Delivery} (hd : s.deliveries a = some d)
    (hok : SwitchedOut s (.deliver c a)) : Settles s w (s.deliver c a d) := by
  obtain ⟨hknown, hidle⟩ := h.deliveries a d hd
  obtain ⟨hwake, hadd⟩ := hok d hd
  obtain ⟨sig, pid, t, point⟩ := d
  have hset : ∀ {s' : Sched n} {w' : Nat → Place n} {d' : Delivery}, Placed none s' w' → s'.threads = s.threads →
      s'.idle = s.idle → d'.thread = t → Placed none (s'.setDelivery a (some d')) w' := by
    intro s' w' d' h' hthr hi ht
    refine h'.setDelivery a fun d'' hd'' => ?_
    cases hd''
    rw [hthr, hi, ht]
    exact ⟨hknown, hidle⟩
  have hdone : ∀ {s' : Sched n} {w' : Nat → Place n}, Placed none s' w' → Placed none (s'.setDelivery a none) w' :=
    fun h' => h'.setDelivery a (by simp)
  cases point with
  | test =>
    cases sig with
    | cont =>
      simp only [Sched.deliver]
      split
      · exact ⟨w, hset h rfl rfl rfl, .refl⟩
      · exact ⟨w, hdone h, .refl⟩
    | kill | stop => exact ⟨w, hset h rfl rfl rfl, .refl⟩
  | remove i =>
    simp only [Sched.deliver]
    split
    next hi =>
      by_cases hmem : t ∈ s.queue ⟨i, hi⟩
      · simp only [localRemove, hmem, decide_true]
        have hqueued : w t = .queued ⟨i, hi⟩ := (h.queue _ t).mp hmem
        exact ⟨_, hset (h.takeOut (perm_cons_erase hmem)) rfl rfl rfl, StaysBuried.refl.update _ fun _ => .inr (by simp [hqueued])⟩
      · have hsame : s.setQueue ⟨i, hi⟩ ((s.queue ⟨i, hi⟩).erase t) = s := by
          rw [erase_of_not_mem hmem]
          simp
        simp only [localRemove, hmem, decide_false, hsame]
        exact ⟨w, hset h rfl rfl rfl, .refl⟩
    · exact ⟨w, hset h rfl rfl rfl, .refl⟩
  | store found =>
    have hstate : Placed none (s.setState t sig.stores) w :=
      h.setState (by cases sig <;> simp [JobSignal.stores]) fun c he => absurd he (hidle c)
    cases sig with
    | kill =>
      simp only [Sched.deliver]
      split
      · exact ⟨w, hset ({ hstate with }) rfl rfl rfl, .refl⟩
      · exact ⟨w, hset hstate rfl rfl rfl, .refl⟩
    | stop => exact ⟨w, hdone hstate, .refl⟩
    | cont => exact ⟨w, hset hstate rfl rfl rfl, .refl⟩
  | waiter =>
    simp only [Sched.deliver]
    split
    · exact ⟨w, hset ({ h with }) rfl rfl rfl, .refl⟩
    · exact ⟨w, hdone h, .refl⟩
  | wake u =>
    obtain ⟨w', hw', hkeep⟩ := h.wakeOn (c := c) (hwake u rfl)
    exact ⟨w', hdone hw', fun v _ hd hv => (hkeep v (by simp [hd])).trans hv⟩
  | add =>
    have habsent : s.Absent t := hadd rfl
    exact ⟨_, hdone (h.localEnqueue (h.nowhere_of_absent habsent) hknown hidle (by simp [habsent.1])),
      StaysBuried.refl.update _ fun _ => .inl (by simp [habsent.1])⟩

omit h in
theorem Settles.ite {q : Prop} [Decidable q] {s' : Sched n} (h : Placed none s w) (hs : q → Settles s w s') :
    Settles s w (if q then s' else s) := by
  split
  · exact hs ‹_›
  · exact ⟨w, h, .refl⟩

theorem Placed.step {op : SchedOp n} (hok : SwitchedOut s op) : Settles s w (s.step op) := by
  have hexec : ∀ {c : Fin n}, s.executes c → s.current c ≠ s.idle c := by
    intro c hc
    simp only [executes, Bool.and_eq_true, decide_eq_true_eq] at hc
    exact hc.2
  have hstore : ∀ {c : Fin n} {x : ThreadState}, s.executes c → x ≠ .blocked →
      Placed none (s.setState (s.current c) x) w := by
    intro c x hc hx
    refine h.setState hx fun c' he => ?_
    have := h.current_idle he
    subst this
    exact absurd he (hexec hc)
  cases op with
  | create t p => exact ⟨w, h.create t p, .refl⟩
  | add c t => exact .ite h fun hc => h.add hc (hok hc)
  | schedule c => exact .ite h fun hp => h.schedule hp hok
  | steal c =>
    simp only [Sched.step]
    split
    · exact h.steal ‹_›
    · exact ⟨w, h, .refl⟩
  | finish c =>
    simp only [Sched.step]
    split
    · exact h.finish ‹_› hok
    · exact ⟨w, h, .refl⟩
  | block c => exact .ite h fun hc => ⟨w, h.setBlocked (hexec hc), .refl⟩
  | stopSelf c | exit c => exact .ite h fun hc => ⟨w, hstore hc (by simp), .refl⟩
  | leave c =>
    simp only [Sched.step]
    split
    · split
      · exact ⟨w, { h with }, .refl⟩
      · exact ⟨w, h, .refl⟩
    · exact ⟨w, h, .refl⟩
  | wait c p => exact .ite h fun _ => ⟨w, { h with }, .refl⟩
  | unwait p => exact ⟨w, { h with }, .refl⟩
  | wake c t =>
    obtain ⟨w', hw', hkeep⟩ := h.wakeOn (c := c) hok
    exact ⟨w', hw', fun v _ hd hv => (hkeep v (by simp [hd])).trans hv⟩
  | signal a p sig =>
    simp only [Sched.step]
    split
    next t _ hmain =>
      refine ⟨w, h.setDelivery a fun d hd => ?_, .refl⟩
      cases hd
      exact h.mainThread p t hmain
    · exact ⟨w, h, .refl⟩
  | deliver c a =>
    simp only [Sched.step]
    split
    · exact h.deliver ‹_› hok
    · exact ⟨w, h, .refl⟩

end

end

/-- In every interleaving in which no thread is woken or added while it is still current, every thread is
    in one place in every state. -/
theorem one_place {s : Sched n} {ops : List (SchedOp n)} (hs : Booted s)
    (hok : Guarded step SwitchedOut s ops) : OnePlace (run step s ops) := by
  have hstep : ∀ (s : Sched n) op, (∃ w, Placed none s w) → SwitchedOut s op → ∃ w, Placed none (s.step op) w := by
    rintro s op ⟨w, h⟩ hop
    exact (h.step hop).imp fun _ => And.left
  obtain ⟨w, h⟩ := hok.invariant hstep hs.placed
  exact h.onePlace

def twoCpus : Sched 2 :=
  { threads := [0, 1], state := fun t => if t < 2 then .running else .ready, current := fun c => c, idle := fun c => c }

theorem twoCpus_booted : Booted twoCpus where
  queue _ := rfl
  phase _ := rfl
  current c c' h := Fin.ext h
  idle c c' h := Fin.ext h
  idleInj c c' h := Fin.ext h
  state t := by
    unfold twoCpus
    simp only
    split
    · exact .inr rfl
    · exact .inl rfl
  known c := by
    have : (c : Nat) = 0 ∨ (c : Nat) = 1 := by omega
    rcases this with h | h <;> simp [twoCpus, h]
  created _ := rfl
  mainThread _ := rfl
  deliveries _ := rfl
  dead := rfl
  freed := rfl

theorem Sched.WaitersAway.of_none {s : Sched n} (h : ∀ p, s.waitThread p = none) : s.WaitersAway T := by
  intro t p w _ _ _ hw
  simp [h p] at hw

theorem one_place_block_wake :
    OnePlace (run step twoCpus
      [.create 2 none, .add 0 2, .schedule 1, .steal 1, .finish 1, .block 1, .create 3 none, .add 1 3, .schedule 1,
       .wake 0 2, .schedule 0]) := by
  refine one_place twoCpus_booted ⟨trivial, fun _ => ?_, ?_, trivial, ?_, trivial, trivial, fun _ => ?_, ?_, ?_, ?_,
    trivial⟩
  · unfold Sched.Absent
    decide
  · exact .of_none fun _ => rfl
  · exact .of_none fun _ => rfl
  · unfold Sched.Absent
    decide
  · exact .of_none fun _ => rfl
  · unfold SwitchedOut Sched.WokenAway
    decide
  · exact .of_none fun _ => rfl

/-- The thread 2 blocks in `sched_block`, and before it is switched out another CPU wakes it: it is in the
    run queue of CPU 1 while it is current on CPU 0. -/
theorem woken_while_current : ∃ (s : Sched 2) (ops : List (SchedOp 2)), Booted s ∧ ¬ OnePlace (run step s ops) := by
  refine ⟨twoCpus, [.create 2 none, .add 0 2, .schedule 0, .block 0, .wake 1 2], twoCpus_booted, fun h => ?_⟩
  exact h.apart 0 1 (by decide)

end Limnx
