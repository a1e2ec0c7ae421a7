import Limnx.Theorems.OnePlace

/-! # Dead threads stay dead

They do when no store hits a dead thread and `schedule_smp` does not meet two dead threads one after the other. -/

namespace Limnx

open GuardedRun List Sched Function Place

attribute [local simp] setState setQueue localEnqueue switchTo setPhase

variable {n : Nat}

/-- A dead thread at the head is not followed by a dead one. -/
def Sched.OneDeadAhead (s : Sched n) (l : List Nat) : Prop :=
  ∀ t u l', l = t :: u :: l' → s.state t = .dead → s.state u ≠ .dead

/-- `THREAD_BLOCKED`, and the states that `SIGSTOP` and `SIGCONT` store, are not stored over `THREAD_DEAD`, and of the
    first two threads that `schedule_smp` may take one is not dead. -/
def SparesDead (s : Sched n) : SchedOp n → Prop
  | .block c | .stopSelf c => s.executes c → s.state (s.current c) ≠ .dead
  | .schedule c => s.OneDeadAhead (s.queue c)
  | .finish c => ∀ next, s.phase c = .holding next → s.OneDeadAhead (next.toList ++ s.queue c)
  | .deliver _ a => ∀ d found, s.deliveries a = some d → d.point = .store found → d.sig ≠ .kill →
      s.state d.thread ≠ .dead
  | _ => True

/-- Of an earlier and a later state: a dead thread is still dead and current only where it was, nothing is freed twice,
    and what is freed or to be freed is not current. -/
structure DeadStayDead (s s' : Sched n) : Prop where
  state : ∀ t, s.state t = .dead → s'.state t = .dead
  current : ∀ t c, s.state t = .dead → s'.current c = t → s.current c = t
  freedOnce : (s'.dead ++ s'.freed).Nodup
  freedAway : ∀ t ∈ s'.dead ++ s'.freed, s'.state t = .dead ∧ ∀ c, s'.current c ≠ t

namespace Grows
variable {c : Fin n} {s s' : Sched n} {t : Nat}

theorem head_alive (h : Grows c s s') (hhead : ∀ t ∈ (s.queue c).head?, s.state t ≠ .dead) {l : List Nat}
    (hq : s'.queue c = t :: l) : s.state t ≠ .dead := by
  obtain ⟨l', hl', hlive⟩ := h.queue
  rw [hl'] at hq
  cases hs : s.queue c with
  | nil =>
    rw [hs, nil_append] at hq
    exact hlive t (by simp [hq])
  | cons u k =>
    rw [hs, cons_append, cons.injEq] at hq
    exact hhead t (by simp [hs, hq.1])

theorem mem_queue (h : Grows c s s') {c' : Fin n} {u : Nat} (hu : u ∈ s'.queue c') :
    u ∈ s.queue c' ∨ s.state u ≠ .dead := by
  obtain rfl | hc := eq_or_ne c' c
  · obtain ⟨l, hl, hlive⟩ := h.queue
    rw [hl] at hu
    exact (mem_append.mp hu).imp id (hlive u)
  · rw [h.others c' hc] at hu
    exact .inl hu

end Grows

namespace Sched
variable {c : Fin n} {s : Sched n} {t : Nat}

theorem wakeOn_dead : (s.wakeOn c t).dead = s.dead := by unfold wakeOn; split <;> rfl

theorem bury_dead : (s.bury c t).dead = t :: s.dead := by
  unfold bury
  split
  · rfl
  split
  · rfl
  · exact congrArg (t :: ·) wakeOn_dead

theorem putBack_dead : (s.putBack c).dead = s.dead := by
  unfold putBack
  split
  · split <;> rfl
  · rfl

end Sched

structure Switched (c : Fin n) (next : Nat) (s s' : Sched n) : Prop where
  state : ∀ u, s'.state u = .dead ↔ s.state u = .dead
  queue : ∀ c' u, u ∈ s'.queue c' → u ∈ s.queue c' ∨ s.state u ≠ .dead
  others : ∀ c', c' ≠ c → s'.current c' = s.current c' ∧ s'.phase c' = s.phase c'
  current : s.state (s'.current c) ≠ .dead
  phase : s'.phase c = .running
  threads : s'.threads = s.threads
  graves : ∃ l, s'.dead = l ++ s.dead ∧ l.Nodup ∧ ∀ t ∈ l, s.state t = .dead ∧ (t = s.current c ∨ t = next)
  freed : s'.freed = s.freed

section
variable {c : Fin n} {s s' : Sched n} {next t : Nat} {w w' : Nat → Place n}

theorem Grows.switchTo (h : Grows c s s') (ht : s.state t ≠ .dead)
    (hgraves : ∃ l, s'.dead = l ++ s.dead ∧ l.Nodup ∧ ∀ t ∈ l, s.state t = .dead ∧ (t = s.current c ∨ t = next)) :
    Switched c next s (s'.switchTo c t) := by
  refine ⟨fun u => ?_, fun c' u => h.mem_queue, fun c' hc => ?_, ?_, ?_, h.threads, hgraves, h.freed⟩
  · obtain rfl | hut := eq_or_ne u t
    · simp [ht]
    · simp [hut, h.state]
  · simp [hc, h.current, h.phase]
  · simpa using ht
  · simp

theorem Sched.runNext_switched (hidle : s.state (s.idle c) ≠ .dead) (hne : next ≠ s.current c ∨ next = s.idle c)
    (hhead : s.state next = .dead → ∀ t ∈ (s.queue c).head?, s.state t ≠ .dead) :
    Switched c next s (s.runNext c next) := by
  have hgrows : Grows c s ((s.putBack c).buryCurrent c) := Grows.putBack.trans Grows.buryCurrent
  -- the outgoing thread is linked if it is dead
  have hdead : ∃ l, ((s.putBack c).buryCurrent c).dead = l ++ s.dead ∧
      (l = [] ∨ l = [s.current c] ∧ s.state (s.current c) = .dead) := by
    unfold buryCurrent
    split
    next hd =>
      refine ⟨[s.current c], by simp [bury_dead, putBack_dead, Grows.putBack.current], .inr ⟨rfl, ?_⟩⟩
      rw [← Grows.putBack.state, ← Grows.putBack.current]
      exact hd.1
    · exact ⟨[], putBack_dead, .inl rfl⟩
  obtain ⟨l, hl, hcur⟩ := hdead
  have hl1 : l.Nodup ∧ ∀ t ∈ l, t = s.current c ∧ s.state t = .dead := by
    rcases hcur with rfl | ⟨rfl, hd⟩
    · simp
    · simpa using hd
  unfold runNext
  generalize (s.putBack c).buryCurrent c = s2 at hgrows hl ⊢
  simp only
  split
  next hd =>
    have hnd : s.state next = .dead := (hgrows.state next).mp hd.1
    have hnc : next ≠ s.current c := by
      refine hne.elim id fun he => ?_
      rw [he] at hnd
      exact absurd hnd hidle
    have hgrows' : Grows c s (s2.bury c next) := hgrows.trans Grows.bury
    have hgraves : ∃ l, (s2.bury c next).dead = l ++ s.dead ∧ l.Nodup ∧
        ∀ t ∈ l, s.state t = .dead ∧ (t = s.current c ∨ t = next) := by
      refine ⟨next :: l, by rw [bury_dead, hl]; rfl, nodup_cons.mpr ⟨fun hm => ?_, hl1.1⟩, fun t ht => ?_⟩
      · exact hnc (hl1.2 next hm).1
      · rcases mem_cons.mp ht with rfl | ht
        · exact ⟨hnd, .inr rfl⟩
        · exact ⟨(hl1.2 t ht).2, .inl (hl1.2 t ht).1⟩
    unfold localDequeue
    cases hq : (s2.bury c next).queue c with
    | nil =>
      refine hgrows'.switchTo ?_ hgraves
      rw [hgrows'.idle]
      exact hidle
    | cons t k =>
      have ht : s.state t ≠ .dead := hgrows'.head_alive (hhead hnd) hq
      -- the queue loses its head
      have := hgrows'.switchTo ht hgraves
      refine { this with queue := fun c' u hu => this.queue c' u ?_ }
      obtain rfl | hc := eq_or_ne c' c
      · have hu' : u ∈ k := by simpa using hu
        change u ∈ (s2.bury c' next).queue c'
        rw [hq]
        exact mem_cons_of_mem _ hu'
      · simpa [hc] using hu
  next hd =>
    refine hgrows.switchTo (fun hnd => ?_) ⟨l, hl, hl1.1, fun t ht => ⟨(hl1.2 t ht).2, .inl (hl1.2 t ht).1⟩⟩
    rcases not_and_or.mp hd with hd | hd
    · exact hd ((hgrows.state next).mpr hnd)
    rw [not_not, hgrows.idle] at hd
    rw [hd] at hnd
    exact hidle hnd

theorem Switched.nowhere (h : Switched c next s s') (hw : Placed (some c) s w) (hw' : Placed none s' w')
    (hd : s.state t = .dead) (ht : w t = .nowhere) : w' t = .nowhere := by
  cases hp : w' t with
  | nowhere => rfl
  | queued c' =>
    rcases h.queue c' t ((hw'.queue c' t).mpr hp) with hq | hq
    · have := (hw.queue c' t).mp hq
      simp [ht] at this
    · exact absurd hd hq
  | running c' =>
    have hcur := ((hw'.current c' t).mp hp).2
    obtain rfl | hc := eq_or_ne c' c
    · rw [← hcur] at hd
      exact absurd hd h.current
    · have := (hw.current c' t).mpr ⟨by simpa using Ne.symm hc, (h.others c' hc).1.symm.trans hcur⟩
      simp [ht] at this
  | held c' =>
    have hph := ((hw'.held c' t).mp hp).2
    obtain rfl | hc := eq_or_ne c' c
    · simp [h.phase] at hph
    · have := (hw.held c' t).mpr ⟨by simpa using Ne.symm hc, (h.others c' hc).2.symm.trans hph⟩
      simp [ht] at this

structure Spares (w w' : Nat → Place n) (s s' : Sched n) : Prop where
  state : ∀ t, s.state t = .dead → s'.state t = .dead
  current : ∀ t c, s.state t = .dead → s'.current c = t → s.current c = t
  threads : ∀ t ∈ s.threads, t ∈ s'.threads
  died : ∀ t, s'.state t = .dead → s.state t = .dead ∨ t ∈ s.threads
  graves : ∃ l, (s'.dead ++ s'.freed).Perm (l ++ (s.dead ++ s.freed)) ∧ l.Nodup ∧
    ∀ t ∈ l, s.state t = .dead ∧ w t ≠ .nowhere ∧ w' t = .nowhere

theorem Spares.refl : Spares w w' s s :=
  ⟨fun _ => id, fun _ _ _ => id, fun _ => id, fun _ => .inl, ⟨[], by simp, by simp, by simp⟩⟩

theorem Spares.setState {x : ThreadState} (ht : t ∈ s.threads) (hx : x = .dead ∨ s.state t ≠ .dead) :
    Spares w w' s (s.setState t x) := by
  refine { (refl : Spares w w' s s) with state := fun u hu => ?_, died := fun u hu => ?_ }
  · obtain rfl | hut := eq_or_ne u t
    · simpa using hx.resolve_right (not_not.mpr hu)
    · simpa [hut] using hu
  · obtain rfl | hut := eq_or_ne u t
    · exact .inr ht
    · exact .inl (by simpa [hut] using hu)

theorem Grows.spares (h : Grows c s s') (hdead : s'.dead = s.dead) : Spares w w' s s' := by
  refine ⟨fun t => (h.state t).mpr, fun t c' _ => ?_, fun t => ?_, fun t ht => .inl ((h.state t).mp ht),
    ⟨[], ?_, by simp, by simp⟩⟩
  · rw [h.current]; exact id
  · rw [h.threads]; exact id
  · rw [hdead, h.freed]
    simp

theorem Spares.create (hknown : ∀ t, s.state t = .dead → t ∈ s.threads) (t : Nat)
    (p : Option Nat) : Spares w w' s (s.step (.create t p)) := by
  simp only [step]
  split
  next hnew =>
    have hut : ∀ u, s.state u = .dead → u ≠ t := by
      rintro u hu rfl
      exact hnew.1 (hknown u hu)
    refine { (refl : Spares w w' s s) with
      state := fun u hu => ?_, threads := fun u hu => mem_cons_of_mem _ hu, died := fun u hu => .inl ?_ }
    · simpa [hut u hu] using hu
    · obtain rfl | hu' := eq_or_ne u t
      · simp at hu
      · simpa [hu'] using hu
  · exact refl

theorem Switched.spares {s1 : Sched n} {w1 : Nat → Place n} (h : Switched c next s1 s') (hw1 : Placed (some c) s1 w1)
    (hw' : Placed none s' w') (hstate : s1.state = s.state) (hcur : s1.current = s.current)
    (hthr : s1.threads = s.threads) (hgraves : (s1.dead ++ s1.freed).Perm (s.dead ++ s.freed))
    (hnow : ∀ t, t = s.current c ∨ t = next → s.state t = .dead → w t ≠ .nowhere ∧ w1 t = .nowhere) :
    Spares w w' s s' := by
  obtain ⟨l, hl, hnodup, hmem⟩ := h.graves
  refine ⟨fun t => ?_, fun t c' hd he => ?_, fun t => ?_, fun t ht => ?_, ⟨l, ?_, hnodup, fun t ht => ?_⟩⟩
  · rw [← hstate]; exact (h.state t).mpr
  · obtain rfl | hc := eq_or_ne c' c
    · rw [← hstate, ← he] at hd
      exact absurd hd h.current
    · rw [← hcur, ← (h.others c' hc).1]
      exact he
  · rw [h.threads, hthr]; exact id
  · rw [h.state, hstate] at ht
    exact .inl ht
  · rw [hl, h.freed, append_assoc]
    exact hgraves.append_left l
  · obtain ⟨hd, ho⟩ := hmem t ht
    rw [hcur] at ho
    obtain ⟨hp, hp1⟩ := hnow t ho (hstate ▸ hd)
    exact ⟨hstate ▸ hd, hp, h.nowhere hw1 hw' hd hp1⟩

section
variable (h : Placed none s w)
include h

theorem Spares.dequeued {s1 : Sched n} {l : List Nat} (hq : s.queue c = t :: l)
    (hone : s.OneDeadAhead (s.queue c)) (hs1 : Placed (some c) s1 (update (without c w) t .nowhere))
    (hstate : s1.state = s.state) (hcur : s1.current = s.current) (hthr : s1.threads = s.threads)
    (hidle : s1.idle = s.idle) (hl : s1.queue c = l) (hgraves : (s1.dead ++ s1.freed).Perm (s.dead ++ s.freed))
    (hw' : Placed none (s1.runNext c t) w') : Spares w w' s (s1.runNext c t) := by
  have hqueued : w t = .queued c := (h.queue c t).mp (by rw [hq]; exact mem_cons_self)
  have hplace := h.current_place c
  have hne : t ≠ s.current c := by
    rintro rfl
    simp [hqueued] at hplace
  refine (runNext_switched ?_ (.inl ?_) fun hd u hu => ?_).spares hs1 hw' hstate hcur hthr hgraves
    fun u hu hd => ?_
  · rw [hstate, hidle]; exact h.idle_alive c
  · rw [hcur]; exact hne
  · rw [hl] at hu
    rw [hstate] at hd ⊢
    obtain ⟨l', rfl⟩ := head?_eq_some_iff.mp (Option.mem_def.mp hu)
    exact hone t u l' hq hd
  · rcases hu with rfl | rfl
    · refine ⟨by simp [hplace], ?_⟩
      rw [update_of_ne hne.symm]
      simp [without, hplace]
    · exact ⟨by simp [hqueued], by simp⟩

theorem Spares.schedule (hone : s.OneDeadAhead (s.queue c))
    (hw' : Placed none (s.schedule c) w') : Spares w w' s (s.schedule c) := by
  unfold Sched.schedule Sched.localDequeue at hw' ⊢
  cases hq : s.reapDead.queue c with
  | nil =>
    refine { (refl : Spares w w' s s) with graves := ⟨[], ?_, by simp, by simp⟩ }
    simpa [reapDead] using perm_append_comm
  | cons t l =>
    rw [hq] at hw'
    have hreap : Placed (some c) s.reapDead (without c w) := { h.leave c with }
    have hperm : (s.reapDead.queue c).Perm (t :: l) := by rw [hq]
    refine Spares.dequeued h hq hone (hreap.takeOut hperm) rfl rfl rfl rfl (by simp) ?_ hw'
    simp only [setQueue, reapDead, nil_append]
    exact perm_append_comm

theorem Spares.finish {next : Option Nat} (hp : s.phase c = .holding next)
    (hone : s.OneDeadAhead (next.toList ++ s.queue c)) (hw' : Placed none (s.finish c next) w') :
    Spares w w' s (s.finish c next) := by
  have hplace := h.current_place c
  have hcur : without c w (s.current c) = .nowhere := by simp [without, hplace]
  cases next with
  | some t =>
    have hheld : w t = .held c := (h.held c t).mpr ⟨by simp, hp⟩
    have hne : t ≠ s.current c := by
      rintro rfl
      simp [hheld] at hplace
    refine (runNext_switched (h.idle_alive c) (.inl hne) fun hd u hu => ?_).spares (h.leave c) hw' rfl rfl rfl
      (Perm.refl _) fun u hu _ => ?_
    · obtain ⟨l', hl'⟩ := head?_eq_some_iff.mp (Option.mem_def.mp hu)
      exact hone t u l' (by simp [hl']) hd
    · rcases hu with rfl | rfl
      · exact ⟨by simp [hplace], hcur⟩
      · exact ⟨by simp [hheld], by simp [without, hheld]⟩
  | none =>
    simp only [Sched.finish, Sched.localDequeue] at hw' ⊢
    cases hq : s.queue c with
    | cons t l =>
      rw [hq] at hw'
      have hperm : (s.queue c).Perm (t :: l) := by rw [hq]
      exact Spares.dequeued h hq hone ((h.leave c).takeOut hperm) rfl rfl rfl rfl (by simp)
        (Perm.refl _) hw'
    | nil =>
      rw [hq] at hw'
      simp only at hw' ⊢
      split at hw' <;> rename_i hrun
      · rw [if_pos hrun]
        refine (runNext_switched (h.idle_alive c) (.inr rfl) fun hd => absurd hd (h.idle_alive c)).spares
          (h.leave c) hw' rfl rfl rfl (Perm.refl _) fun u hu hd => ?_
        rcases hu with rfl | rfl
        · exact ⟨by simp [hplace], hcur⟩
        · exact absurd hd (h.idle_alive c)
      · rw [if_neg hrun]
        exact { refl with }

theorem Spares.deliver {a : Nat} {d : Delivery} (hd : s.deliveries a = some d)
    (hok : SparesDead s (.deliver c a)) : Spares w w' s (s.deliver c a d) := by
  obtain ⟨hknown, -⟩ := h.deliveries a d hd
  have hlive : ∀ found, d.point = .store found → d.sig ≠ .kill → s.state d.thread ≠ .dead := fun f => hok d f hd
  obtain ⟨sig, pid, t, point⟩ := d
  cases point with
  | test => cases sig <;> exact { refl with }
  | remove i =>
    simp only [Sched.deliver]
    split
    · split <;> rename_i hr <;> obtain ⟨-, rfl⟩ := Prod.mk.inj hr <;> exact { refl with }
    · exact { refl with }
  | store found =>
    have hstore : Spares w w' s (s.setState t sig.stores) := by
      refine setState hknown ?_
      cases sig with
      | kill => exact .inl rfl
      | stop | cont => exact .inr (hlive found rfl (by simp))
    cases sig with
    | kill =>
      simp only [Sched.deliver]
      split <;> exact { hstore with }
    | stop | cont => exact { hstore with }
  | waiter =>
    simp only [Sched.deliver]
    split <;> exact { refl with }
  | wake u => exact { Grows.spares Grows.wakeOn wakeOn_dead with }
  | add => exact { refl with }

theorem Spares.step (hknown : ∀ t, s.state t = .dead → t ∈ s.threads) {op : SchedOp n}
    (hok : SparesDead s op) (hw' : Placed none (s.step op) w') : Spares w w' s (s.step op) := by
  have hcur : ∀ c, s.current c ∈ s.threads := fun c => h.known _ (by simp [h.current_place c])
  cases op with
  | create t p => exact create hknown t p
  | add c t =>
    simp only [Sched.step]
    split
    · exact { refl with }
    · exact refl
  | schedule c =>
    simp only [Sched.step] at hw' ⊢
    split at hw' <;> rename_i hp
    · rw [if_pos hp]
      exact schedule h hok hw'
    · rw [if_neg hp]
      exact refl
  | steal c =>
    simp only [Sched.step]
    split
    · unfold steal
      split
      · split
        · exact { refl with }
        · unfold stealFromTail
          split <;> rename_i hs <;> split at hs <;> cases hs <;> exact { refl with }
      · exact { refl with }
    · exact refl
  | finish c =>
    cases hp : s.phase c with
    | holding next =>
      simp only [Sched.step, hp] at hw' ⊢
      exact finish h hp (hok next hp) hw'
    | running | stealing i =>
      simp only [Sched.step, hp]
      exact refl
  | block c | stopSelf c =>
    simp only [Sched.step]
    split
    · exact setState (hcur c) (.inr (hok ‹_›))
    · exact refl
  | exit c =>
    simp only [Sched.step]
    split
    · exact setState (hcur c) (.inl rfl)
    · exact refl
  | leave c =>
    simp only [Sched.step]
    split
    · split
      · exact { refl with }
      · exact refl
    · exact refl
  | wait | signal =>
    simp only [Sched.step]
    split
    · exact { refl with }
    · exact refl
  | unwait p => exact { refl with }
  | wake c t => exact Grows.spares Grows.wakeOn wakeOn_dead
  | deliver c a =>
    simp only [Sched.step]
    split
    · exact deliver h ‹_› hok
    · exact refl

end

/-- Threads to be freed, or freed, are dead, nowhere and there only once. -/
structure Graves (s : Sched n) (w : Nat → Place n) : Prop where
  known : ∀ t, s.state t = .dead → t ∈ s.threads
  nodup : (s.dead ++ s.freed).Nodup
  nowhere : ∀ t ∈ s.dead ++ s.freed, s.state t = .dead ∧ w t = .nowhere

theorem Graves.spares (h : Graves s w) (hs : Spares w w' s s') (hb : StaysBuried s w w') : Graves s' w' := by
  obtain ⟨l, hperm, hl, hmem⟩ := hs.graves
  refine ⟨fun t ht => ?_, ?_, fun t ht => ?_⟩
  · exact hs.threads t ((hs.died t ht).elim (h.known t) id)
  · rw [hperm.nodup_iff, nodup_append]
    refine ⟨hl, h.nodup, fun t ht u hu => ?_⟩
    rintro rfl
    exact (hmem t ht).2.1 (h.nowhere t hu).2
  · rcases mem_append.mp (hperm.mem_iff.mp ht) with ht | ht
    · exact ⟨hs.state t (hmem t ht).1, (hmem t ht).2.2⟩
    · obtain ⟨hd, hw⟩ := h.nowhere t ht
      exact ⟨hs.state t hd, hb t (h.known t hd) hd hw⟩

theorem Booted.graves (h : Booted s) : Graves s w := by
  refine ⟨fun t ht => ?_, ?_, fun t ht => ?_⟩
  · rcases h.state t with hs | hs <;> simp [hs] at ht
  · simp [h.dead, h.freed]
  · simp [h.dead, h.freed] at ht

structure Later (s s' : Sched n) : Prop where
  placed : ∃ w, Placed none s' w ∧ Graves s' w
  state : ∀ t, s.state t = .dead → s'.state t = .dead
  current : ∀ t c, s.state t = .dead → s'.current c = t → s.current c = t

theorem Later.step (h : Later s s') {op : SchedOp n} (hop : SwitchedOut s' op ∧ SparesDead s' op) :
    Later s (s'.step op) := by
  obtain ⟨w, hw, hg⟩ := h.placed
  obtain ⟨w', hw', hb⟩ := hw.step hop.1
  have hsp := Spares.step hw hg.known hop.2 hw'
  exact ⟨⟨w', hw', hg.spares hsp hb⟩, fun t ht => hsp.state t (h.state t ht),
    fun t c ht he => h.current t c ht (hsp.current t c (h.state t ht) he)⟩

theorem Later.run {ops : List (SchedOp n)} (h : ∃ w, Placed none s w ∧ Graves s w)
    (hok : Guarded Sched.step (fun s op => SwitchedOut s op ∧ SparesDead s op) s ops) :
    Later s (run Sched.step s ops) :=
  hok.invariant (fun _ _ h hop => h.step hop) ⟨h, fun _ => id, fun _ _ _ => id⟩

end

/-- In every interleaving whose steps meet the conditions a dead thread stays dead, is not made current again, and is
    freed once. -/
theorem dead_stay_dead {s : Sched n} {ops ops' : List (SchedOp n)} (hs : Booted s)
    (hok : Guarded step (fun s op => SwitchedOut s op ∧ SparesDead s op) s (ops ++ ops')) :
    DeadStayDead (run step s ops) (run step s (ops ++ ops')) := by
  obtain ⟨hok1, hok2⟩ := guarded_append.mp hok
  obtain ⟨w, hw⟩ := hs.placed
  have h1 : Later s (run Sched.step s ops) := Later.run ⟨w, hw, hs.graves⟩ hok1
  have h2 : Later (run step s ops) (run step s (ops ++ ops')) := by
    rw [run_append]
    exact Later.run h1.placed hok2
  obtain ⟨w', hw', hg⟩ := h2.placed
  refine ⟨h2.state, h2.current, hg.nodup, fun t ht => ⟨(hg.nowhere t ht).1, fun c he => ?_⟩⟩
  have hrun := (hw'.current c t).mpr ⟨by simp, he⟩
  simp [(hg.nowhere t ht).2] at hrun

theorem dead_stay_dead_exit :
    DeadStayDead (run step twoCpus [.create 2 none, .add 0 2, .schedule 0, .exit 0])
      (run step twoCpus ([.create 2 none, .add 0 2, .schedule 0, .exit 0] ++
        [.schedule 0, .steal 0, .steal 0, .steal 0, .finish 0, .schedule 1])) := by
  have hshort : ∀ {s : Sched 2} {l : List Nat}, l.length ≤ 1 → s.OneDeadAhead l := by
    intro s l hl t u l' he
    simp [he] at hl
  refine dead_stay_dead twoCpus_booted ⟨⟨trivial, trivial⟩, ⟨fun _ => ?_, trivial⟩, ⟨?_, ?_⟩, ⟨trivial, trivial⟩, ⟨?_, ?_⟩,
    ⟨trivial, trivial⟩, ⟨trivial, trivial⟩, ⟨trivial, trivial⟩, ⟨?_, ?_⟩, ⟨?_, ?_⟩, trivial⟩
  · unfold Sched.Absent
    decide
  · exact .of_none fun _ => rfl
  · exact hshort (by decide)
  · exact .of_none fun _ => rfl
  · exact hshort (by decide)
  · exact .of_none fun _ => rfl
  · intro next hnext
    obtain rfl : none = next := SchedPhase.holding.inj hnext
    exact hshort (by decide)
  · exact .of_none fun _ => rfl
  · exact hshort (by decide)

/-- Threads 2 and 3 run when a `SIGKILL` tests their state, and are queued when it stores `THREAD_DEAD`. `schedule_smp`
    buries the first and switches to the second, which runs again. -/
theorem second_dead_runs :
    ∃ (s : Sched 2) (ops ops' : List (SchedOp 2)), Booted s ∧ (run step s ops).state 3 = .dead ∧
      (run step s ops).current 0 ≠ 3 ∧ (run step s (ops ++ ops')).state 3 = .running ∧
      (run step s (ops ++ ops')).current 0 = 3 :=
  ⟨twoCpus,
    [.create 2 (some 7), .add 0 2, .schedule 0, .signal 0 7 .kill, .deliver 1 0, .create 3 (some 8), .add 0 3, .schedule 0,
      .signal 1 8 .kill, .deliver 1 1, .schedule 0, .create 4 none, .add 0 4, .schedule 0, .schedule 0,
      .deliver 1 0, .deliver 1 1],
    [.schedule 0], twoCpus_booted, by decide, by decide, by decide, by decide⟩

end Limnx
