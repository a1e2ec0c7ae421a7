import Limnx.Lib.GuardedRun
import Limnx.WaitPid

/-! # Children are collected once

`sys_waitpid` holds a raw pointer to the child, which only its parent, with one thread, collects: it is not freed until
the waiter takes it out. -/

namespace Limnx

open Function GuardedRun List WaitStep WaitWorld

section
variable {l : List (Option Nat)} {c : Nat}

theorem perm_filterMap_replace_none (h : none ∈ l) :
    Perm ((l.replace none (some c)).filterMap id) (c :: l.filterMap id) := by
  induction l with
  | nil => cases h
  | cons x l ih =>
    cases x with
    | none => simp
    | some d =>
      have hl : none ∈ l := by simpa using h
      have hne : ((none : Option Nat) == some d) = false := rfl
      exact ((ih hl).cons d).trans (.swap c d _)

theorem filterMap_replace_some : (l.replace (some c) none).filterMap id = (l.filterMap id).erase c := by
  induction l with
  | nil => rfl
  | cons x l ih =>
    cases x with
    | none =>
      have hne : (some c == (none : Option Nat)) = false := rfl
      rw [replace_cons, hne]
      simpa using ih
    | some d =>
      rw [replace_cons]
      obtain rfl | hcd := eq_or_ne c d
      · simp
      have hne : (some c == some d) = false := by simpa using hcd
      rw [hne]
      change d :: (l.replace (some c) none).filterMap id = (d :: l.filterMap id).erase c
      rw [ih, erase_cons_tail (by simpa using fun h : d = c => hcd h.symm)]

end

namespace WaitPc

def final : WaitPc → Bool
  | .clearWaiter _ | .markExited _ | .leave _ | .wake _ | .gone => true
  | _ => false

def wakes : WaitPc → Option Nat
  | .clearWaiter q | .markExited q | .leave q | .wake q => q
  | _ => none

def dead : WaitPc → Bool
  | .leave _ | .wake _ | .gone => true
  | _ => false

structure Alike (pc pc' : WaitPc) : Prop where
  final : pc'.final = pc.final
  wakes : pc'.wakes = pc.wakes
  dead : pc'.dead = pc.dead

end WaitPc

def WaitStep.proc : WaitStep → Nat
  | .create p | .waitpid p _ | .exit p _ | .turn p _ => p

namespace WaitWorld
variable {w w' : WaitWorld} {p q c : Nat} {pc : WaitPc} {f : ChildProc → ChildProc} {pending : Bool} {op : WaitStep}
  {pc0 : WaitPc}

/-- The child's exit will find that thread `p` waits, or is going to wake it. -/
def Awaited (w : WaitWorld) (p c : Nat) : Prop :=
  if (w.pcs c).final then (w.pcs c).wakes = some p else (w.procs c).waitThread = some p

/-- `c` is a registered child of `p`. -/
structure Held (w : WaitWorld) (p c : Nat) : Prop where
  parent : (w.procs c).parentPid = p
  registered : c ∈ w.registered

/-- What a process in `sys_waitpid` knows of the child it has a pointer to. -/
def PcOk (w : WaitWorld) (p : Nat) : WaitPc → Prop
  | .noHang _ c | .loop _ c | .pendingBefore _ c | .enlist _ c | .pendingAfter _ c => w.Held p c
  | .recheck _ c | .block _ c => w.Held p c ∧ ((w.pcs c).final = false → (w.procs c).waitThread = some p)
  | .awake _ c => w.Held p c ∧ (w.blocked p → w.Awaited p c)
  | .delist _ c | .readStatus _ c | .unregister c => w.Held p c ∧ (w.procs c).exited
  | .store _ c status => w.Held p c ∧ (w.procs c).exited ∧ status = (w.procs c).exitStatus
  | .free c => (w.procs c).parentPid = p ∧ c ∉ w.registered ∧ (w.procs c).exited ∧ (w.procs c).frees = 0
  | _ => True

/-- No registered process is freed, none is freed twice or before its exit, and each process is at a place that is
    `PcOk`. -/
structure Collecting (w : WaitWorld) : Prop where
  nodup : w.registered.Nodup
  live : ∀ c ∈ w.registered, c < w.nextPid ∧ (w.procs c).frees = 0
  unborn : ∀ c, w.nextPid ≤ c → w.pcs c = .unborn
  frees : ∀ c, (w.procs c).frees ≤ 1 ∧ ((w.procs c).frees ≠ 0 → (w.procs c).exited)
  exited : ∀ c, (w.procs c).exited = (w.pcs c).dead
  blocked : ∀ p, w.blocked p → ∃ a c, w.pcs p = .awake a c
  ok : ∀ p, w.PcOk p (w.pcs p)

structure Seen (w w' : WaitWorld) (c : Nat) : Prop where
  parent : (w'.procs c).parentPid = (w.procs c).parentPid
  registered : c ∈ w'.registered ↔ c ∈ w.registered
  frees : (w'.procs c).frees = (w.procs c).frees
  armed : ((w.pcs c).final = false → (w.procs c).waitThread = some (w.procs c).parentPid) →
    (w'.pcs c).final = false → (w'.procs c).waitThread = some (w.procs c).parentPid
  awaited : w'.blocked (w.procs c).parentPid → w.blocked (w.procs c).parentPid ∧
    (w.Awaited (w.procs c).parentPid c → w'.Awaited (w.procs c).parentPid c)

structure Frame (p : Nat) (w w' : WaitWorld) : Prop where
  pcs : ∀ q ≠ p, w'.pcs q = w.pcs q
  exited : ∀ c, (w.procs c).exited → (w'.procs c).exited ∧ (w'.procs c).exitStatus = (w.procs c).exitStatus
  seen : ∀ c < w.nextPid, (w.procs c).parentPid ≠ p → Seen w w' c

theorem Seen.of_same (hprocs : w'.procs c = w.procs c) (hreg : c ∈ w'.registered ↔ c ∈ w.registered)
    (halike : (w.pcs c).Alike (w'.pcs c))
    (hblocked : w'.blocked (w.procs c).parentPid → w.blocked (w.procs c).parentPid) : Seen w w' c := by
  refine ⟨by rw [hprocs], hreg, by rw [hprocs], ?_, fun hb => ⟨hblocked hb, ?_⟩⟩
  · rw [hprocs, halike.final]
    exact id
  · unfold Awaited
    rw [hprocs, halike.final, halike.wakes]
    exact id

theorem Frame.held (hf : Frame p w w') (h : Collecting w) (hq : q ≠ p) (hc : w.Held q c) : w'.Held q c := by
  obtain ⟨rfl, hreg⟩ := hc
  have hseen := hf.seen c (h.live c hreg).1 hq
  exact ⟨hseen.parent, hseen.registered.mpr hreg⟩

theorem lt_of_exited (h : Collecting w) (hc : (w.procs c).exited) : c < w.nextPid := by
  by_contra hge
  rw [h.exited, h.unborn c (Nat.not_lt.mp hge)] at hc
  cases hc

theorem Frame.pcOk (hf : Frame p w w') (h : Collecting w) (hq : q ≠ p) (hok : w.PcOk q pc) : w'.PcOk q pc := by
  cases pc with
  | noHang _ c | loop _ c | pendingBefore _ c | enlist _ c | pendingAfter _ c => exact hf.held h hq hok
  | recheck _ c | block _ c =>
    obtain ⟨hheld, harmed⟩ := hok
    refine ⟨hf.held h hq hheld, ?_⟩
    obtain ⟨rfl, hreg⟩ := hheld
    exact (hf.seen c (h.live c hreg).1 hq).armed harmed
  | awake _ c =>
    obtain ⟨hheld, hawaited⟩ := hok
    refine ⟨hf.held h hq hheld, fun hblocked => ?_⟩
    obtain ⟨rfl, hreg⟩ := hheld
    obtain ⟨hb, himp⟩ := (hf.seen c (h.live c hreg).1 hq).awaited hblocked
    exact himp (hawaited hb)
  | delist _ c | readStatus _ c | unregister c => exact ⟨hf.held h hq hok.1, (hf.exited c hok.2).1⟩
  | store _ c status =>
    obtain ⟨hheld, hexited, rfl⟩ := hok
    obtain ⟨hexited', hstatus⟩ := hf.exited c hexited
    exact ⟨hf.held h hq hheld, hexited', hstatus.symm⟩
  | free c =>
    obtain ⟨rfl, hreg, hexited, hfrees⟩ := hok
    have hseen := hf.seen c (lt_of_exited h hexited) hq
    exact ⟨hseen.parent, mt hseen.registered.mp hreg, (hf.exited c hexited).1, hseen.frees.trans hfrees⟩
  | _ => trivial

theorem pcs_goto_self : (w.goto p pc).pcs p = pc := update_self ..

theorem pcs_goto_ne (h : q ≠ p) : (w.goto p pc).pcs q = w.pcs q := update_of_ne h ..

theorem alike_goto (halike : (w.pcs p).Alike pc) (c : Nat) : (w.pcs c).Alike ((w.goto p pc).pcs c) := by
  obtain rfl | hc := eq_or_ne c p
  · rw [pcs_goto_self]
    exact halike
  · rw [pcs_goto_ne hc]
    exact ⟨rfl, rfl, rfl⟩

theorem modify_self : ((w.modify c f).goto p pc).procs c = f (w.procs c) := update_self ..

theorem procs_modify_ne {d : Nat} (h : d ≠ c) : ((w.modify c f).goto p pc).procs d = w.procs d := update_of_ne h ..

/-- A step of thread `p` keeps the invariant if it leaves the others alone, and what is true at the new place of
    `p` holds. -/
theorem Collecting.act (h : Collecting w) (hf : Frame p w w') (hreg : w'.registered ⊆ w.registered)
    (hnodup : w'.registered.Nodup) (hnext : w'.nextPid = w.nextPid) (hborn : w.pcs p ≠ .unborn)
    (hfrees : ∀ c, (w'.procs c).frees = (w.procs c).frees ∨
      c ∉ w'.registered ∧ (w.procs c).exited ∧ (w'.procs c).frees = 1)
    (hexited : ∀ c, (w'.procs c).exited = (w'.pcs c).dead)
    (hblocked : ∀ q ≠ p, w'.blocked q → w.blocked q) (hblocked' : w'.blocked p → ∃ a c, w'.pcs p = .awake a c)
    (hok : w'.PcOk p (w'.pcs p)) : Collecting w' := by
  refine ⟨hnodup, fun c hc => ?_, fun c hc => ?_, fun c => ?_, hexited, fun q hq => ?_, fun q => ?_⟩
  · obtain ⟨hlt, hzero⟩ := h.live c (hreg hc)
    rw [hnext]
    refine ⟨hlt, ?_⟩
    obtain hsame | ⟨hout, -⟩ := hfrees c
    · exact hsame.trans hzero
    · exact absurd hc hout
  · rw [hnext] at hc
    have hpc := h.unborn c hc
    have hne : c ≠ p := by
      rintro rfl
      exact hborn hpc
    rw [hf.pcs c hne, hpc]
  · obtain hsame | ⟨-, hexit, hone⟩ := hfrees c
    · rw [hsame]
      exact ⟨(h.frees c).1, fun hne => (hf.exited c ((h.frees c).2 hne)).1⟩
    · exact ⟨Nat.le_of_eq hone, fun _ => (hf.exited c hexit).1⟩
  · obtain rfl | hqp := eq_or_ne q p
    · exact hblocked' hq
    · rw [hf.pcs q hqp]
      exact h.blocked q (hblocked q hqp hq)
  · obtain rfl | hqp := eq_or_ne q p
    · exact hok
    · rw [hf.pcs q hqp]
      exact hf.pcOk h hqp (h.ok q)

theorem pcOk_goto (halike : (w.pcs p).Alike pc) (hok : w.PcOk p pc) : (w.goto p pc).PcOk p pc := by
  have hawaited (c : Nat) : (w.goto p pc).Awaited p c ↔ w.Awaited p c := by
    unfold Awaited
    rw [(alike_goto halike c).final, (alike_goto halike c).wakes]
    exact Iff.rfl
  have hheld {c : Nat} (hc : w.Held p c) : (w.goto p pc).Held p c := ⟨hc.parent, hc.registered⟩
  cases pc with
  | noHang _ c | loop _ c | pendingBefore _ c | enlist _ c | pendingAfter _ c => exact hheld hok
  | recheck _ c | block _ c => exact ⟨hheld hok.1, fun hfin => hok.2 ((alike_goto halike c).final.symm.trans hfin)⟩
  | awake _ c => exact ⟨hheld hok.1, fun hb => (hawaited c).mpr (hok.2 hb)⟩
  | delist _ c | readStatus _ c | unregister c | store _ c status => exact ⟨hheld hok.1, hok.2⟩
  | free c => exact hok
  | _ => trivial

section
variable (h : Collecting w) (hb : w.blocked p = false) (hpc : w.pcs p = pc0)
  (hborn : pc0 ≠ .unborn) (halike : pc0.Alike pc)
include h hb hpc hborn halike

theorem Collecting.goStore {f : Nat → ChildProc}
    (hkept : ∀ d, (f d).exited = (w.procs d).exited ∧ (f d).exitStatus = (w.procs d).exitStatus ∧
      (f d).frees = (w.procs d).frees)
    (hothers : ∀ d, (w.procs d).parentPid ≠ p → f d = w.procs d) (hok : ({ w with procs := f }.goto p pc).PcOk p pc) :
    Collecting ({ w with procs := f }.goto p pc) := by
  subst hpc
  refine h.act ⟨fun q hq => pcs_goto_ne hq, fun d hd => ?_, fun d _ hd => ?_⟩ (List.Subset.refl _) h.nodup rfl hborn
    (fun d => .inl (hkept d).2.2) (fun d => ?_) (fun _ _ => id) (fun hb' => ?_) ?_
  · exact ⟨(hkept d).1.trans hd, (hkept d).2.1⟩
  · exact .of_same (hothers d hd) Iff.rfl (alike_goto halike d) id
  · exact (hkept d).1.trans ((h.exited d).trans (alike_goto halike d).dead.symm)
  · cases hb.symm.trans hb'
  · rw [pcs_goto_self]
    exact hok

/-! ### Steps of a waiter -/

theorem Collecting.setWaiter (hparent : (w.procs c).parentPid = p) {x : Option Nat}
    (hok : ((w.modify c fun y => { y with waitThread := x }).goto p pc).PcOk p pc) :
    Collecting ((w.modify c fun y => { y with waitThread := x }).goto p pc) := by
  refine h.goStore hb hpc hborn halike (fun d => ?_) (fun d hd => ?_) hok
  · obtain rfl | hdc := eq_or_ne d c
    · rw [update_self]
      exact ⟨rfl, rfl, rfl⟩
    · rw [update_of_ne hdc]
      exact ⟨rfl, rfl, rfl⟩
  · refine update_of_ne ?_ ..
    rintro rfl
    exact hd hparent

end

theorem Collecting.goto (h : Collecting w) (hb : w.blocked p = false) (hpc : w.pcs p = pc0) (hok : w.PcOk p pc)
    (hborn : pc0 ≠ .unborn := by nofun) (halike : pc0.Alike pc := by exact ⟨rfl, rfl, rfl⟩) :
    Collecting (w.goto p pc) :=
  h.goStore (f := w.procs) hb hpc hborn halike (fun _ => ⟨rfl, rfl, rfl⟩) (fun _ _ => rfl)
    (pcOk_goto (hpc ▸ halike) hok)

theorem processFindChild_held {b : Bool} (h : w.processFindChild p b = some c) : w.Held p c := by
  have hmem : c ∈ w.registered.filter fun d => (w.procs d).parentPid == p := by
    obtain h | ⟨-, h⟩ := Option.or_eq_some_iff.mp h
    · exact mem_of_find?_eq_some h
    cases b with
    | true => cases h
    | false => exact mem_of_mem_head? h
  obtain ⟨hreg, hparent⟩ := mem_filter.mp hmem
  exact ⟨eq_of_beq hparent, hreg⟩

section
variable (h : Collecting w)
include h

theorem Collecting.unregister (hb : w.blocked p = false) (hpc : w.pcs p = .unregister c) :
    Collecting ((w.processUnregister c).goto p (.free c)) := by
  obtain ⟨hheld, hexited⟩ : w.Held p c ∧ (w.procs c).exited := by simpa [hpc, PcOk] using h.ok p
  have halike : (w.pcs p).Alike (.free c) := by rw [hpc]; exact ⟨rfl, rfl, rfl⟩
  have hreg : ((w.processUnregister c).goto p (.free c)).registered = w.registered.erase c := filterMap_replace_some
  refine h.act ⟨fun q hq => pcs_goto_ne hq, fun d hd => ⟨hd, rfl⟩, fun d _ hd => ?_⟩ ?_ ?_ rfl (by simp [hpc])
    (fun d => .inl rfl) (fun d => ?_) (fun _ _ => id) (fun hb' => ?_) ?_
  · have hne : d ≠ c := by
      rintro rfl
      exact hd hheld.parent
    refine .of_same rfl ?_ (alike_goto halike d) id
    rw [hreg]
    exact mem_erase_of_ne hne
  · rw [hreg]
    exact erase_subset
  · rw [hreg]
    exact h.nodup.erase c
  · exact (h.exited d).trans (alike_goto halike d).dead.symm
  · cases hb.symm.trans hb'
  · rw [pcs_goto_self]
    refine ⟨hheld.parent, ?_, hexited, (h.live c hheld.registered).2⟩
    rw [hreg]
    exact h.nodup.not_mem_erase

theorem Collecting.free (hb : w.blocked p = false) (hpc : w.pcs p = .free c) :
    Collecting ((w.modify c fun x => { x with frees := x.frees + 1 }).goto p .user) := by
  obtain ⟨hparent, hreg, hexited, hzero⟩ : (w.procs c).parentPid = p ∧ c ∉ w.registered ∧ (w.procs c).exited ∧
      (w.procs c).frees = 0 := by simpa [hpc, PcOk] using h.ok p
  have halike : (w.pcs p).Alike .user := by rw [hpc]; exact ⟨rfl, rfl, rfl⟩
  have hprocs (d : Nat) (hd : d ≠ c) :
      ((w.modify c fun x => { x with frees := x.frees + 1 }).goto p .user).procs d = w.procs d := procs_modify_ne hd
  have hself : ((w.modify c fun x => { x with frees := x.frees + 1 }).goto p .user).procs c =
      { w.procs c with frees := (w.procs c).frees + 1 } := modify_self
  refine h.act ⟨fun q hq => pcs_goto_ne hq, fun d hd => ?_, fun d _ hd => ?_⟩ (List.Subset.refl _) h.nodup rfl
    (by simp [hpc]) (fun d => ?_) (fun d => ?_) (fun _ _ => id) (fun hb' => ?_) ?_
  · obtain rfl | hdc := eq_or_ne d c
    · rw [hself]
      exact ⟨hd, rfl⟩
    · rw [hprocs d hdc]
      exact ⟨hd, rfl⟩
  · have hne : d ≠ c := by
      rintro rfl
      exact hd hparent
    exact .of_same (hprocs d hne) Iff.rfl (alike_goto halike d) id
  · obtain rfl | hdc := eq_or_ne d c
    · rw [hself, hzero]
      exact .inr ⟨hreg, hexited, rfl⟩
    · exact .inl (by rw [hprocs d hdc])
  · refine Eq.trans ?_ ((h.exited d).trans (alike_goto halike d).dead.symm)
    obtain rfl | hdc := eq_or_ne d c
    · rw [hself]
    · rw [hprocs d hdc]
  · cases hb.symm.trans hb'
  · rw [pcs_goto_self]
    trivial

theorem Collecting.block {a : WaitCall} (hpc : w.pcs p = .block a c) (hawaited : w.Awaited p c) :
    Collecting ((w.setBlocked p true).goto p (.awake a c)) := by
  obtain ⟨hheld, -⟩ : w.Held p c ∧ _ := by simpa [hpc, PcOk] using h.ok p
  have halike : (w.pcs p).Alike (.awake a c) := by rw [hpc]; exact ⟨rfl, rfl, rfl⟩
  have hblocked (q : Nat) (hq : q ≠ p) : ((w.setBlocked p true).goto p (.awake a c)).blocked q = w.blocked q :=
    update_of_ne hq ..
  refine h.act ⟨fun q hq => pcs_goto_ne hq, fun d hd => ⟨hd, rfl⟩, fun d _ hd => ?_⟩ (List.Subset.refl _) h.nodup rfl
    (by simp [hpc]) (fun d => .inl rfl) (fun d => ?_) (fun q hq hb => hblocked q hq ▸ hb)
    (fun _ => ⟨a, c, pcs_goto_self⟩) ?_
  · exact .of_same rfl Iff.rfl (alike_goto halike d) fun hb => hblocked _ hd ▸ hb
  · exact (h.exited d).trans (alike_goto halike d).dead.symm
  · rw [pcs_goto_self]
    refine ⟨⟨hheld.parent, hheld.registered⟩, fun _ => ?_⟩
    have hsame := alike_goto halike c
    unfold Awaited at hawaited ⊢
    rw [← hsame.final, ← hsame.wakes] at hawaited
    exact hawaited

/-! ### Steps of an exit -/

theorem Collecting.exitStep (hb : w.blocked p = false) (hborn : w.pcs p ≠ .unborn)
    (hpcs : ∀ q ≠ p, w'.pcs q = w.pcs q) (hprocs : ∀ d ≠ p, w'.procs d = w.procs d)
    (htable : w'.registered = w.registered) (hnext : w'.nextPid = w.nextPid)
    (hblocked : ∀ q, w'.blocked q → w.blocked q) (hparent : (w'.procs p).parentPid = (w.procs p).parentPid)
    (hfrees : (w'.procs p).frees = (w.procs p).frees)
    (hstatus : (w.procs p).exited → (w'.procs p).exited ∧ (w'.procs p).exitStatus = (w.procs p).exitStatus)
    (hdead : (w'.procs p).exited = (w'.pcs p).dead)
    (harmed : (w'.pcs p).final = false → (w.pcs p).final = false ∧ (w'.procs p).waitThread = (w.procs p).waitThread)
    (hawaited : ∀ q, w'.blocked q → w.Awaited q p → w'.Awaited q p) (hok : w'.PcOk p (w'.pcs p)) : Collecting w' := by
  have halike (d : Nat) (hd : d ≠ p) : (w.pcs d).Alike (w'.pcs d) := by
    rw [hpcs d hd]
    exact ⟨rfl, rfl, rfl⟩
  refine h.act ⟨hpcs, fun d hd => ?_, fun d _ _ => ?_⟩ ?_ ?_ hnext hborn (fun d => .inl ?_) (fun d => ?_)
    (fun q _ => hblocked q) (fun hb' => nomatch hb.symm.trans (hblocked p hb')) hok
  · obtain rfl | hdp := eq_or_ne d p
    · exact hstatus hd
    · rw [hprocs d hdp]
      exact ⟨hd, rfl⟩
  · obtain rfl | hdp := eq_or_ne d p
    · refine ⟨hparent, by rw [htable], hfrees, fun harm hfin => ?_, fun hb => ⟨hblocked _ hb, hawaited _ hb⟩⟩
      obtain ⟨hfin', hsame⟩ := harmed hfin
      exact hsame.trans (harm hfin')
    · exact .of_same (hprocs d hdp) (by rw [htable]) (halike d hdp) (hblocked _)
  · rw [htable]
    exact List.Subset.refl _
  · rw [htable]
    exact h.nodup
  · by_cases hdp : d = p
    · rw [hdp, hfrees]
    · rw [hprocs d hdp]
  · by_cases hdp : d = p
    · rw [hdp, hdead]
    · rw [hprocs d hdp, (halike d hdp).dead]
      exact h.exited d

theorem not_exited_of_pc (hpc : (w.pcs p).dead = false) : (w.procs p).exited = false := (h.exited p).trans hpc

section
variable (hb : w.blocked p = false)
include hb

theorem Collecting.exit (hpc : (w.pcs p).canExit) {status : U64} :
    Collecting ((w.modify p fun x => { x with exitStatus := status }).goto p .reparent) := by
  have hplace : w.pcs p ≠ .unborn ∧ (w.pcs p).dead = false ∧ (w.pcs p).final = false := by
    cases hw : w.pcs p <;> simp [hw, WaitPc.canExit] at hpc <;> exact ⟨nofun, rfl, rfl⟩
  have hnot := not_exited_of_pc h hplace.2.1
  refine h.exitStep hb hplace.1 (fun q hq => pcs_goto_ne hq) (fun d hd => procs_modify_ne hd) rfl rfl (fun _ => id)
    (by rw [modify_self]) (by rw [modify_self]) (fun he => ?_) ?_ (fun _ => ⟨hplace.2.2, ?_⟩)
    (fun q _ haw => ?_) ?_
  · cases hnot.symm.trans he
  · rw [modify_self, pcs_goto_self]
    exact hnot
  · rw [modify_self]
  · unfold Awaited at haw ⊢
    rw [hplace.2.2] at haw
    rw [modify_self, pcs_goto_self]
    exact haw
  · rw [pcs_goto_self]
    trivial

theorem Collecting.reparent (hpc : w.pcs p = .reparent) :
    Collecting ((w.processReparentChildren p 1).goto p .takeWaiter) := by
  have halike : WaitPc.Alike .reparent .takeWaiter := ⟨rfl, rfl, rfl⟩
  refine h.goStore hb hpc nofun halike (fun d => ?_) (fun d hd => ?_) trivial
  · split <;> exact ⟨rfl, rfl, rfl⟩
  · exact if_neg fun hboth : d ∈ w.registered ∧ (w.procs d).parentPid = p => hd hboth.2

theorem Collecting.takeWaiter (hpc : w.pcs p = .takeWaiter) :
    Collecting (w.goto p (.clearWaiter (w.procs p).waitThread)) := by
  have hnot := not_exited_of_pc h (by rw [hpc]; rfl)
  refine h.exitStep hb (by simp [hpc]) (fun q hq => pcs_goto_ne hq) (fun _ _ => rfl) rfl rfl (fun _ => id) rfl rfl
    (fun he => ⟨he, rfl⟩) ?_ (fun hfin => ?_) (fun q _ haw => ?_) ?_
  · rw [pcs_goto_self]
    exact hnot
  · rw [pcs_goto_self] at hfin
    cases hfin
  · unfold Awaited at haw ⊢
    rw [hpc] at haw
    rw [pcs_goto_self]
    exact haw
  · rw [pcs_goto_self]
    trivial

theorem Collecting.finalStep (hpc : (w.pcs p).final) (hfinal : pc.final) (hwakes : pc.wakes = (w.pcs p).wakes)
    (hf : ∀ x, (f x).parentPid = x.parentPid ∧ (f x).frees = x.frees ∧ (f x).exitStatus = x.exitStatus)
    (hexited : (f (w.procs p)).exited = pc.dead) (hmono : (w.procs p).exited → pc.dead) (hok : ∀ w', PcOk w' p pc) :
    Collecting ((w.modify p f).goto p pc) := by
  refine h.exitStep hb ?_ (fun q hq => pcs_goto_ne hq) (fun d hd => procs_modify_ne hd) rfl rfl (fun _ => id) ?_ ?_
    (fun he => ?_) ?_ (fun hfin => ?_) (fun q _ haw => ?_) ?_
  · intro hunborn
    rw [hunborn] at hpc
    cases hpc
  · rw [modify_self]
    exact (hf _).1
  · rw [modify_self]
    exact (hf _).2.1
  · rw [modify_self]
    exact ⟨hexited.trans (hmono he), (hf _).2.2⟩
  · rw [modify_self, pcs_goto_self]
    exact hexited
  · rw [pcs_goto_self, hfinal] at hfin
    cases hfin
  · unfold Awaited at haw ⊢
    rw [if_pos hpc] at haw
    rw [pcs_goto_self, if_pos hfinal, hwakes]
    exact haw
  · rw [pcs_goto_self]
    exact hok _

theorem Collecting.wake {q : Option Nat} (hpc : w.pcs p = .wake q)
    (hnext : w'.nextPid = w.nextPid) (htable : w'.registered = w.registered) (hprocs : w'.procs = w.procs)
    (hpcs : w'.pcs = (w.goto p .gone).pcs) (hblocked : ∀ r, w'.blocked r → some r ≠ q ∧ w.blocked r) :
    Collecting w' := by
  have hself : w'.pcs p = .gone := by rw [hpcs, pcs_goto_self]
  have hexited : (w.procs p).exited := by rw [h.exited, hpc]; rfl
  have hborn : w.pcs p ≠ .unborn := by simp [hpc]
  refine h.exitStep hb hborn (fun r hr => ?_) (fun _ _ => by rw [hprocs]) htable hnext (fun r hr => (hblocked r hr).2)
    (by rw [hprocs]) (by rw [hprocs]) (fun he => ?_) ?_ (fun hfin => ?_) (fun r hr haw => ?_) ?_
  · rw [hpcs, pcs_goto_ne hr]
  · rw [hprocs]
    exact ⟨he, rfl⟩
  · rw [hprocs, hself, hexited]
    rfl
  · rw [hself] at hfin
    cases hfin
  · -- the waiter that was awaited is the one that is woken
    unfold Awaited at haw
    rw [hpc] at haw
    exact absurd haw.symm (hblocked r hr).1
  · rw [hself]
    trivial

end

theorem Collecting.grow (hnext : w'.nextPid = w.nextPid + 1)
    (hpcs : ∀ q ≠ w.nextPid, w'.pcs q = w.pcs q) (hprocs : ∀ c ≠ w.nextPid, w'.procs c = w.procs c)
    (hblocked : w'.blocked = w.blocked) (hnodup : w'.registered.Nodup)
    (hreg : ∀ c ≠ w.nextPid, (c ∈ w'.registered ↔ c ∈ w.registered))
    (hnew : (w'.procs w.nextPid).frees = 0 ∧ (w'.procs w.nextPid).exited = false)
    (hpc : w'.pcs w.nextPid = .user ∨ w'.pcs w.nextPid = .unborn) : Collecting w' := by
  have hpcnew := h.unborn _ (Nat.le_refl w.nextPid)
  have hnot := not_exited_of_pc h (by rw [hpcnew]; rfl)
  have hf : Frame w.nextPid w w' := by
    refine ⟨hpcs, fun c hc => ?_, fun c hc _ => ?_⟩
    · have hne : c ≠ w.nextPid := by
        rintro rfl
        cases hnot.symm.trans hc
      rw [hprocs c hne]
      exact ⟨hc, rfl⟩
    · have hne : c ≠ w.nextPid := Nat.ne_of_lt hc
      refine .of_same (hprocs c hne) (hreg c hne) ?_ (by rw [hblocked]; exact id)
      rw [hpcs c hne]
      exact ⟨rfl, rfl, rfl⟩
  refine ⟨hnodup, fun c hc => ?_, fun c hc => ?_, fun c => ?_, fun c => ?_, fun q hq => ?_, fun q => ?_⟩
  · rw [hnext]
    by_cases hne : c = w.nextPid
    · rw [hne]
      exact ⟨Nat.lt_succ_self _, hnew.1⟩
    obtain ⟨hlt, hzero⟩ := h.live c ((hreg c hne).mp hc)
    rw [hprocs c hne]
    exact ⟨Nat.lt_succ_of_lt hlt, hzero⟩
  · rw [hnext] at hc
    rw [hpcs c (Nat.ne_of_gt hc)]
    exact h.unborn c (Nat.le_of_succ_le hc)
  · by_cases hne : c = w.nextPid
    · rw [hne, hnew.1]
      exact ⟨Nat.zero_le 1, fun hzero => absurd rfl hzero⟩
    · rw [hprocs c hne]
      exact h.frees c
  · by_cases hne : c = w.nextPid
    · rw [hne, hnew.2]
      rcases hpc with hpc | hpc <;> rw [hpc] <;> rfl
    · rw [hprocs c hne, hpcs c hne]
      exact h.exited c
  · rw [hblocked] at hq
    obtain ⟨a, c, hawake⟩ := h.blocked q hq
    refine ⟨a, c, ?_⟩
    rw [hpcs q ?_, hawake]
    rintro rfl
    cases hpcnew.symm.trans hawake
  · by_cases hne : q = w.nextPid
    · rw [hne]
      rcases hpc with hpc | hpc <;> rw [hpc] <;> trivial
    · rw [hpcs q hne]
      exact hf.pcOk h hne (h.ok q)

theorem Collecting.create (p : Nat) : Collecting (w.create p) := by
  have hnew : w.nextPid ∉ w.registered := fun hreg => absurd (h.live _ hreg).1 (Nat.lt_irrefl _)
  have hpcnew := h.unborn _ (Nat.le_refl w.nextPid)
  by_cases hfree : none ∈ w.procTable
  · have hcreate : w.create p = { (modify { w with nextPid := w.nextPid + 1 } w.nextPid
        fun _ => { parentPid := p }) with procTable := w.procTable.replace none (some w.nextPid) }.goto w.nextPid .user :=
      if_pos hfree
    have hperm : Perm (w.create p).registered (w.nextPid :: w.registered) := by
      rw [hcreate]
      exact perm_filterMap_replace_none hfree
    have hprocs : (w.create p).procs = update w.procs w.nextPid { parentPid := p } := by rw [hcreate]; rfl
    have hpcs : (w.create p).pcs = update w.pcs w.nextPid .user := by rw [hcreate]; rfl
    refine h.grow (by rw [hcreate]; rfl) (fun q hq => ?_) (fun c hc => ?_) (by rw [hcreate]; rfl) ?_ (fun c hc => ?_) ?_ ?_
    · rw [hpcs, update_of_ne hq]
    · rw [hprocs, update_of_ne hc]
    · exact hperm.nodup_iff.mpr (nodup_cons.mpr ⟨hnew, h.nodup⟩)
    · rw [hperm.mem_iff, mem_cons]
      exact or_iff_right hc
    · rw [hprocs, update_self]
      exact ⟨rfl, rfl⟩
    · rw [hpcs, update_self]
      exact .inl rfl
  · have hcreate : w.create p = { w with nextPid := w.nextPid + 1 } := if_neg hfree
    have hnot := not_exited_of_pc h (by rw [hpcnew]; rfl)
    rw [hcreate]
    refine h.grow rfl (fun _ _ => rfl) (fun _ _ => rfl) rfl h.nodup (fun _ _ => Iff.rfl) ⟨?_, hnot⟩ (.inr hpcnew)
    by_contra hne
    cases hnot.symm.trans ((h.frees _).2 hne)

end

/-- A process looked up by its number is a child of the caller; and `sys_waitpid` blocks only while the exit of the
    child has not taken `wait_thread`, or not woken this waiter yet. -/
def PlaceOrderly (w : WaitWorld) (p : Nat) : WaitPc → Prop
  | .lookup a => ∀ c ∈ w.processLookup a.pidArg.toNat, (w.procs c).parentPid = p
  | .block _ c => (w.pcs c).final → (w.pcs c).wakes = some p
  | _ => True

instance (w : WaitWorld) (p : Nat) : DecidablePred (w.PlaceOrderly p) := fun _ => by
  unfold PlaceOrderly
  split <;> infer_instance

/-- The condition on a step, at the place of its process. -/
def Orderly (w : WaitWorld) : WaitStep → Prop
  | .turn p _ => w.PlaceOrderly p (w.pcs p)
  | _ => True

instance (w : WaitWorld) : DecidablePred w.Orderly := fun _ => by
  unfold Orderly
  split <;> infer_instance

theorem Collecting.turn (h : Collecting w) (hb : w.blocked p = false)
    (hguard : w.PlaceOrderly p (w.pcs p)) : Collecting (w.turn p pending).2 := by
  have hok := h.ok p
  unfold WaitWorld.turn
  generalize hpc : w.pcs p = pc at hok hguard
  cases pc with
  | unborn | user | gone => exact h
  | lookup a =>
    dsimp only
    cases hlook : w.processLookup a.pidArg.toNat with
    | none => exact h.goto hb hpc trivial
    | some c => exact h.goto hb hpc ⟨hguard c hlook, mem_of_find?_eq_some hlook⟩
  | findExited a | findAny a =>
    dsimp only
    split
    · exact h.goto hb hpc trivial
    next hfind => exact h.goto hb hpc (processFindChild_held hfind)
  | noHang a c | pendingBefore a c | pendingAfter a c =>
    dsimp only
    split
    · exact h.goto hb hpc trivial
    · exact h.goto hb hpc hok
  | loop a c =>
    dsimp only
    split
    next hexited => exact h.goto hb hpc ⟨hok, hexited⟩
    · exact h.goto hb hpc hok
  | enlist a c =>
    refine h.setWaiter hb hpc nofun ?_ hok.parent ?_
    · exact ⟨rfl, rfl, rfl⟩
    refine ⟨⟨?_, hok.registered⟩, fun _ => ?_⟩
    · rw [modify_self]
      exact hok.parent
    · rw [modify_self]
  | recheck a c =>
    dsimp only
    split
    next hexited => exact h.goto hb hpc ⟨hok.1, hexited⟩
    · exact h.goto hb hpc hok
  | delist a c =>
    refine h.setWaiter hb hpc nofun ?_ hok.1.parent ?_
    · exact ⟨rfl, rfl, rfl⟩
    refine ⟨⟨?_, hok.1.registered⟩, ?_⟩
    · rw [modify_self]
      exact hok.1.parent
    · rw [modify_self]
      exact hok.2
  | block a c =>
    refine h.block hpc ?_
    -- the exit has taken this waiter, or will find it in `wait_thread`
    unfold Awaited
    split
    next hfinal => exact hguard hfinal
    next hfinal => exact hok.2 (by simpa using hfinal)
  | awake a c =>
    refine h.setWaiter hb hpc nofun ?_ hok.1.parent ?_
    · exact ⟨rfl, rfl, rfl⟩
    refine ⟨?_, hok.1.registered⟩
    rw [modify_self]
    exact hok.1.parent
  | readStatus a c =>
    exact h.goto hb hpc ⟨hok.1, hok.2, rfl⟩
  | store a c status =>
    exact h.goto hb hpc ⟨hok.1, hok.2.1⟩
  | unregister c => exact h.unregister hb hpc
  | free c => exact h.free hb hpc
  | reparent => exact h.reparent hb hpc
  | takeWaiter => exact h.takeWaiter hb hpc
  | clearWaiter q =>
    have hnot := not_exited_of_pc h (by rw [hpc]; rfl)
    refine h.finalStep hb (by rw [hpc]; rfl) rfl (by rw [hpc]; rfl) (fun _ => ⟨rfl, rfl, rfl⟩) hnot (fun he => ?_)
      fun _ => trivial
    cases hnot.symm.trans he
  | markExited q =>
    exact h.finalStep hb (by rw [hpc]; rfl) rfl (by rw [hpc]; rfl) (fun _ => ⟨rfl, rfl, rfl⟩) rfl (fun _ => rfl)
      fun _ => trivial
  | leave q => exact h.goto hb hpc trivial
  | wake q =>
    cases q with
    | none => exact h.wake hb hpc rfl rfl rfl rfl fun r hr => ⟨nofun, hr⟩
    | some q =>
      refine h.wake hb hpc rfl rfl rfl rfl fun r hr => ?_
      have hne : r ≠ q := by
        rintro rfl
        cases (update_self ..).symm.trans hr
      exact ⟨fun heq => hne (Option.some.inj heq), (update_of_ne hne ..).symm.trans hr⟩

theorem Collecting.step (h : Collecting w) (hop : w.Orderly op) : Collecting (w.step op) := by
  unfold WaitWorld.step react
  have hrunning (p : Nat) (hpc : ∀ a c, w.pcs p ≠ .awake a c) : w.blocked p = false := by
    by_contra hb
    obtain ⟨a, c, hawake⟩ := h.blocked p (by simpa using hb)
    exact hpc a c hawake
  cases op with
  | create p =>
    dsimp only
    split
    · exact h.create 0
    split
    · exact h.create p
    · exact h
  | waitpid p a =>
    dsimp only
    split
    next hpc =>
      have hb := hrunning p fun a c => by simp [hpc]
      split
      · exact h.goto hb hpc trivial
      · exact h.goto hb hpc trivial
    · exact h
  | exit p status =>
    dsimp only
    split
    next hpc =>
      refine h.exit (hrunning p fun a c hawake => ?_) hpc
      rw [hawake] at hpc
      cases hpc
    · exact h
  | turn p pending =>
    dsimp only
    split
    · exact h
    next hb => exact h.turn (by simpa using hb) hop

/-! ### What a step reads, frees and stores -/

theorem frees_own (h : Collecting w) (hpc : (w.pcs p).dead = false) : (w.procs p).frees = 0 := by
  by_contra hne
  cases (not_exited_of_pc h hpc).symm.trans ((h.frees p).2 hne)

theorem Held.frees (hc : w.Held p c) (h : Collecting w) : (w.procs c).frees = 0 := (h.live c hc.registered).2

theorem touches_turn (h : Collecting w) (hc : c ∈ (w.turn p pending).1.touches) : (w.procs c).frees = 0 := by
  have hok := h.ok p
  have hlive (d : Nat) (hd : d ∈ w.registered) : (w.procs d).frees = 0 := (h.live d hd).2
  have hown (hdead : (w.pcs p).dead = false) (hmem : c ∈ [p]) : (w.procs c).frees = 0 := by
    rw [mem_singleton.mp hmem]
    exact frees_own h hdead
  have hboth (hdead : (w.pcs p).dead = false) (hmem : c ∈ p :: w.registered) : (w.procs c).frees = 0 := by
    rcases mem_cons.mp hmem with rfl | hmem
    · exact frees_own h hdead
    · exact hlive c hmem
  have hchild {d : Nat} (hd : w.Held p d) (hmem : c ∈ [d]) : (w.procs c).frees = 0 := by
    rw [mem_singleton.mp hmem]
    exact hd.frees h
  have hfree (hd : w.pcs p = .free c) : (w.procs c).frees = 0 := by
    rw [hd] at hok
    exact hok.2.2.2
  unfold turn at hc
  cases hpc : w.pcs p
  all_goals
    rw [hpc] at hc hok
    dsimp only at hc
    try split at hc
    all_goals first
      | exact hlive c hc
      | exact hown (by rw [hpc]; rfl) hc
      | exact hboth (by rw [hpc]; rfl) hc
      | exact hchild hok hc
      | exact hchild hok.1 hc
      | exact hfree (hpc.trans (by rw [mem_singleton.mp hc]))
      | exact nomatch hc

theorem react_out (w : WaitWorld) (op : WaitStep) : (w.react op).1 = {} ∨
    (w.pcs op.proc).dead = false ∧ (w.react op).1 = { touches := [op.proc] } ∨
      ∃ pending, w.react op = w.turn op.proc pending := by
  unfold react
  cases op with
  | create p =>
    dsimp only
    split
    · exact .inl rfl
    split
    next hpc => exact .inr (.inl ⟨by rw [proc, hpc]; rfl, rfl⟩)
    · exact .inl rfl
  | waitpid p a =>
    dsimp only
    split <;> exact .inl rfl
  | exit p status =>
    dsimp only
    split
    next hpc =>
      refine .inr (.inl ⟨?_, rfl⟩)
      cases hw : w.pcs p <;> simp [hw, WaitPc.canExit, proc] at hpc ⊢ <;> rfl
    · exact .inl rfl
  | turn p pending =>
    dsimp only
    split
    · exact .inl rfl
    · exact .inr (.inr ⟨pending, rfl⟩)

theorem touches_live (h : Collecting w) (hc : c ∈ (w.react op).1.touches) : (w.procs c).frees = 0 := by
  obtain hout | ⟨hdead, hout⟩ | ⟨pending, hout⟩ := react_out w op
  · rw [hout] at hc
    cases hc
  · rw [hout] at hc
    rw [mem_singleton.mp hc]
    exact frees_own h hdead
  · rw [hout] at hc
    exact touches_turn h hc

theorem turn_frees (hc : (w.turn p pending).1.frees = some c) : w.pcs p = .free c := by
  unfold turn at hc
  cases hpc : w.pcs p
  all_goals
    rw [hpc] at hc
    dsimp only at hc
    try split at hc
    all_goals cases hc
  rfl

theorem turn_stores {v : U32} (hc : (w.turn p pending).1.stores = some (c, v)) :
    ∃ a status, w.pcs p = .store a c status ∧ v = linuxStatus status := by
  unfold turn at hc
  cases hpc : w.pcs p
  all_goals
    rw [hpc] at hc
    dsimp only at hc
    try split at hc
    all_goals cases hc
  exact ⟨_, _, rfl, rfl⟩

theorem pcs_of_frees (hc : (w.react op).1.frees = some c) : w.pcs op.proc = .free c := by
  obtain hout | ⟨-, hout⟩ | ⟨pending, hout⟩ := react_out w op <;> rw [hout] at hc
  · cases hc
  · cases hc
  · exact turn_frees hc

theorem pcs_of_stores {v : U32} (hc : (w.react op).1.stores = some (c, v)) :
    ∃ a status, w.pcs op.proc = .store a c status ∧ v = linuxStatus status := by
  obtain hout | ⟨-, hout⟩ | ⟨pending, hout⟩ := react_out w op <;> rw [hout] at hc
  · cases hc
  · cases hc
  · exact turn_stores hc

theorem Collecting.init : Collecting {} where
  nodup := by decide
  live c hc := by
    have hnil : registered {} = [] := by decide
    cases hc
  unborn _ _ := rfl
  frees _ := ⟨Nat.zero_le 1, fun hne => absurd rfl hne⟩
  exited _ := rfl
  blocked _ hb := nomatch hb
  ok _ := trivial

end WaitWorld

open WaitWorld

/-- In every run in which only its parent looks a process up by its number, and `sys_waitpid` does not block after the
    exit of the child has passed by: no structure is freed twice or used after it was freed; it is freed by its parent
    and after its exit, with the child's status; and a waiter blocked on an exited child is about to be woken. -/
theorem children_collected_once (ops : List WaitStep) (h : Guarded step Orderly {} ops) :
    let w := run step {} ops
    (∀ c, (w.procs c).frees ≤ 1) ∧
    (∀ p a c, w.blocked p → w.pcs p = .awake a c → (w.procs c).exited → (w.pcs c).wakes = some p) ∧
    ∀ op,
      (∀ c ∈ (w.react op).1.touches, (w.procs c).frees = 0) ∧
      (∀ c, (w.react op).1.frees = some c → (w.procs c).parentPid = op.proc ∧ (w.procs c).exited) ∧
      ∀ c v, (w.react op).1.stores = some (c, v) →
        (w.procs c).parentPid = op.proc ∧ (w.procs c).exited ∧ v = linuxStatus (w.procs c).exitStatus := by
  intro w
  have hw : Collecting w := Guarded.invariant (fun _ _ hs hop => hs.step hop) Collecting.init h
  refine ⟨fun c => (hw.frees c).1, fun p a c hb hpc hexited => ?_, fun op => ⟨fun c => touches_live hw, ?_, ?_⟩⟩
  · have hok := hw.ok p
    rw [hpc] at hok
    have hawaited := hok.2 hb
    have hdead : (w.pcs c).dead = true := (hw.exited c).symm.trans hexited
    have hfinal : (w.pcs c).final = true := by
      cases hc : w.pcs c <;> rw [hc] at hdead <;> first | rfl | cases hdead
    exact (if_pos hfinal).mp hawaited
  · intro c hc
    have hok := hw.ok op.proc
    rw [pcs_of_frees hc] at hok
    exact ⟨hok.1, hok.2.2.1⟩
  · intro c v hc
    obtain ⟨a, status, hpc, rfl⟩ := pcs_of_stores hc
    have hok := hw.ok op.proc
    rw [hpc] at hok
    obtain ⟨hheld, hexited, rfl⟩ := hok
    exact ⟨hheld.parent, hexited, rfl⟩

def turns (p n : Nat) : List WaitStep := List.replicate n (.turn p false)

theorem children_collected_once_any :
    let ops := [.create 0, .create 1, .waitpid 1 { pidArg := -1, stores := true }] ++ turns 1 8 ++ [.exit 2 7] ++
      turns 2 6 ++ turns 1 4
    let w := run step {} ops
    (w.react (.turn 1 false)).1.stores = some (2, 0x700) ∧ (w.procs 2).parentPid = 1 ∧ (w.procs 2).exited ∧
      (0x700 : U32) = linuxStatus (w.procs 2).exitStatus := by
  intro ops w
  have hstores : (w.react (.turn 1 false)).1.stores = some (2, 0x700) := by decide +kernel
  have h := children_collected_once ops (by decide +kernel)
  exact ⟨hstores, (h.2.2 (.turn 1 false)).2.2 2 0x700 hstores⟩

/-- Processes 1 and 3 wait for process 2, a child of process 1: both collect it. And process 1 blocks after process 2,
    which tried to wake it, is gone. -/
theorem child_collected_twice :
    let start : List WaitStep := [.create 0, .create 1, .create 1, .waitpid 1 { pidArg := 2 }]
    let w := run step {} (start ++ turns 1 1 ++ [.waitpid 3 { pidArg := 2 }] ++ turns 3 1 ++ [.exit 2 7] ++
      turns 2 6 ++ turns 1 6 ++ turns 3 6)
    let w' := run step {} (start ++ turns 1 6 ++ [.exit 2 7] ++ turns 2 6 ++ turns 1 1)
    (w.procs 2).frees = 2 ∧ (w.procs 2).parentPid = 1 ∧
      w'.blocked 1 ∧ w'.pcs 1 = .awake { pidArg := 2 } 2 ∧ (w'.procs 2).exited ∧ w'.pcs 2 = .gone := by
  decide +kernel

end Limnx
