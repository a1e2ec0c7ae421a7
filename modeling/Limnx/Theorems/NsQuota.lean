import Limnx.Lib.GuardedRun
import Limnx.Lib.TableSum
import Limnx.Namespaces

/-! The process counter of a namespace. -/

namespace Limnx

open Function GuardedRun TableSum NsProc Option NsTable List AgentNs

namespace NsProc

def member (i : Nat) (e : NsProc) : Bool := !e.exited && !e.dead && e.nsId == i

def counts (e : NsProc) : Bool := e.pc != .forkAdjust && e.pc != .exitEnd

def counted (i : Nat) (e : NsProc) : Bool := e.member i && e.counts

def creating (i : Nat) (e : NsProc) : Bool := e.member i && e.pc == .forkCreate

end NsProc

namespace AgentNs
variable {ns : AgentNs}

theorem adjust_curProcs (ns : AgentNs) (d : U32) :
    (ns.adjust .procs d).curProcs = if 0 < (ns.curProcs + d).toInt then ns.curProcs + d else 0 := rfl

theorem adjust_one (hle : ns.curProcs.toNat ≤ Limnx.maxProcs) :
    (ns.adjust .procs 1).curProcs.toNat = ns.curProcs.toNat + 1 := by
  have hval : (ns.curProcs + 1).toNat = ns.curProcs.toNat + 1 := by
    rw [Limnx.maxProcs] at hle
    bv_omega
  have hpos : 0 < (ns.curProcs + 1).toInt := by
    rw [Limnx.maxProcs] at hle
    rw [BitVec.toInt_eq_toNat_of_lt (by omega)]
    omega
  rw [adjust_curProcs, if_pos hpos, hval]

theorem adjust_neg_one (hpos : 0 < ns.curProcs.toNat) (hle : ns.curProcs.toNat ≤ Limnx.maxProcs) :
    (ns.adjust .procs (-1)).curProcs.toNat + 1 = ns.curProcs.toNat := by
  rw [Limnx.maxProcs] at hle
  have hval : (ns.curProcs + (-1)).toNat = ns.curProcs.toNat - 1 := by
    rw [BitVec.toNat_add, show (-1 : U32).toNat = 2 ^ 32 - 1 from rfl]
    omega
  rw [adjust_curProcs]
  by_cases hone : ns.curProcs.toNat = 1
  · have hzero : ns.curProcs + (-1) = 0 := BitVec.eq_of_toNat_eq (hval.trans (by rw [hone]; rfl))
    rw [hzero, ite_self, hone]
    rfl
  · have hval' : 0 < (ns.curProcs + (-1)).toInt := by
      rw [BitVec.toInt_eq_toNat_of_lt (by omega)]
      omega
    rw [if_pos hval', hval]
    omega

end AgentNs

namespace NsWorld
variable {w w' : NsWorld} {k : Fin maxProcs} {e e' : NsProc} {i : Nat} {o : Option NsProc}

def tally (w : NsWorld) (f : NsProc → Bool) : Nat := weight (fun o => (Option.any f o).toNat) w.table

def members (w : NsWorld) (i : Nat) : Nat := w.tally (member i)

theorem tally_set (w : NsWorld) (k : Fin maxProcs) (o : Option NsProc) (f : NsProc → Bool) :
    (w.set k o).tally f + ((w.table k).any f).toNat = w.tally f + (o.any f).toNat :=
  weight_update (fun o => (Option.any f o).toNat) w.table k o

theorem tally_le (w : NsWorld) (f : NsProc → Bool) : w.tally f ≤ maxProcs := by
  have h := weight_le (fun o => (Option.any f o).toNat) w.table fun k => Bool.toNat_le _
  rwa [Fintype.card_fin, Nat.mul_one] at h

theorem tally_pos {f : NsProc → Bool} (hk : w.table k = some e) (hf : f e) : 0 < w.tally f := by
  have h := le_weight (fun o => (Option.any f o).toNat) w.table k
  rw [hk, Option.any_some, hf] at h
  exact h

theorem tally_eq_zero {f : NsProc → Bool} (h : ∀ k e, w.table k = some e → f e = false) : w.tally f = 0 := by
  refine weight_eq_zero fun k => ?_
  cases hk : w.table k with
  | none => rfl
  | some e => rw [any_some, h k e hk]; rfl

theorem tally_congr {f g : NsProc → Bool} (h : ∀ k e, w.table k = some e → f e = g e) : w.tally f = w.tally g := by
  refine weight_congr fun k => ?_
  cases hk : w.table k with
  | none => rfl
  | some e => rw [any_some, any_some, h k e hk]

/-- The counter is exact, and there is room for the forks that were let in. -/
structure Fits (w : NsWorld) (i : Nat) : Prop where
  exact : (w.ns i).curProcs.toNat = w.tally (counted i)
  room : (w.ns i).maxProcs ≠ 0 → 0 < w.tally (creating i) →
    w.members i + w.tally (creating i) ≤ (w.ns i).maxProcs.toNat

structure Counted (w : NsWorld) : Prop where
  alive : ∀ k e, w.table k = some e → e.exited = false → w.InUse e.nsId → e.dead = false
  fits : ∀ i, w.InUse i → w.Fits i

structure Keeps (w w' : NsWorld) (i : Nat) : Prop where
  used : w.InUse i
  count : (w'.ns i).curProcs.toNat + w.tally (counted i) = (w.ns i).curProcs.toNat + w'.tally (counted i)
  limit : (w'.ns i).maxProcs = (w.ns i).maxProcs
  creating : w'.tally (creating i) ≤ w.tally (creating i)
  members : w'.members i + w'.tally (NsProc.creating i) ≤ w.members i + w.tally (NsProc.creating i)

theorem Keeps.fits (h : Keeps w w' i) (hf : w.Fits i) : w'.Fits i where
  exact := by
    have hcount := h.count
    rw [hf.exact] at hcount
    omega
  room hmax hpos := by
    rw [h.limit] at hmax ⊢
    exact Nat.le_trans h.members (hf.room hmax (Nat.lt_of_lt_of_le hpos h.creating))

theorem Keeps.bound (h : Keeps w w' i) (hf : w.Fits i) (hmax : (w.ns i).maxProcs ≠ 0)
    (hle : w.members i ≤ (w.ns i).maxProcs.toNat) : w'.members i ≤ (w.ns i).maxProcs.toNat := by
  have hm := h.members
  by_cases hpos : 0 < w.tally (NsProc.creating i)
  · exact Nat.le_trans (Nat.le_of_add_right_le hm) (hf.room hmax hpos)
  · omega

theorem Keeps.adjust {t : NsTable} (hi : w.InUse i) (hk : w.table k = some e)
    (hlimit : (t i).maxProcs = (w.ns i).maxProcs)
    (hcount : (t i).curProcs.toNat + (e.counted i).toNat = (w.ns i).curProcs.toNat + (e'.counted i).toNat)
    (hcreating : e'.creating i → e.creating i) (hmember : e'.member i → e.member i) :
    Keeps w ((w.setNs t).set k (some e')) i := by
  have hc := tally_set (w.setNs t) k (some e') (counted i)
  have hcr := tally_set (w.setNs t) k (some e') (NsProc.creating i)
  have hm := tally_set (w.setNs t) k (some e') (member i)
  rw [show (w.setNs t).table k = some e from hk, Option.any_some, Option.any_some] at hc hcr hm
  change _ = w.tally _ + _ at hc hcr hm
  have hcr' : (e'.creating i).toNat ≤ (e.creating i).toNat := Bool.toNat_le_toNat hcreating
  have hm' : (e'.member i).toNat ≤ (e.member i).toNat := Bool.toNat_le_toNat hmember
  refine ⟨hi, ?_, hlimit, by omega, ?_⟩
  · rw [show ((w.setNs t).set k (some e')).ns = t from rfl]
    omega
  · rw [NsWorld.members, NsWorld.members]
    omega

theorem Keeps.set_other (hi : w.InUse i) (hold : (w.table k).any (·.member i) = false)
    (hnew : o.any (·.member i) = false) : Keeps w (w.set k o) i := by
  have hzero {o : Option NsProc} (ho : o.any (·.member i) = false) :
      o.any (·.counted i) = false ∧ o.any (·.creating i) = false := by
    cases o with
    | none => exact ⟨rfl, rfl⟩
    | some e =>
      rw [Option.any_some] at ho
      rw [Option.any_some, Option.any_some, NsProc.counted, NsProc.creating, ho]
      exact ⟨rfl, rfl⟩
  have hc := tally_set w k o (counted i)
  have hcr := tally_set w k o (NsProc.creating i)
  have hm := tally_set w k o (member i)
  rw [(hzero hold).1, (hzero hnew).1, Bool.toNat_false] at hc
  rw [(hzero hold).2, (hzero hnew).2, Bool.toNat_false] at hcr
  rw [hold, hnew, Bool.toNat_false] at hm
  refine ⟨hi, ?_, rfl, by omega, ?_⟩
  · rw [show (w.set k o).ns = w.ns from rfl]
    omega
  · rw [NsWorld.members, NsWorld.members]
    omega

/-- No fork that was let in is on its way. -/
def NoneLetIn (w : NsWorld) (i : Nat) : Prop :=
  ∀ k, ∀ e ∈ w.table k, e.exited = false → e.nsId = i → e.pc ≠ .forkCreate

/-- No fork that was let in is on its way, and every process is counted. -/
def Quiet (w : NsWorld) (i : Nat) : Prop :=
  w.NoneLetIn i ∧ ∀ k, ∀ e ∈ w.table k, e.exited = false → e.nsId = i → e.counts = true

/-- A new namespace finds its counter at 0 and no process with its number; no process is moved into or out of a
    namespace in use, made in one by a supervisor, or killed in one; a quota is set when no fork that was let in is on
    its way, and a fork is checked against a quota when every process of the namespace is counted. -/
def Orderly (w : NsWorld) : NsStep → Prop
  | .call k c => ∀ e ∈ w.running k,
    match c with
    | .nsCreate _ => ∀ i ∈ w.ns.freeSlot, (w.ns i).curProcs = 0 ∧ w.Vacant i
    | .nsSetquota i _ _ => w.NoneLetIn i
    | .fork => w.InUse e.nsId → (w.ns e.nsId).maxProcs ≠ 0 → w.Quiet e.nsId
    | .supervised i _ => ¬w.InUse i
    | .nsJoin _ | .exec _ | .exit => True
  | .turn k _ => ∀ e ∈ w.running k, ∀ i ∈ e.joins, i = e.nsId ∨ ¬w.InUse i ∧ ¬w.InUse e.nsId
  | .kill k _ => ∀ e ∈ w.running k, ¬w.InUse e.nsId
  | .boot _ | .switchOut _ | .reap _ => True

instance (w : NsWorld) (i : Nat) : Decidable (w.NoneLetIn i) := by
  unfold NoneLetIn
  infer_instance

instance (w : NsWorld) (i : Nat) : Decidable (w.Quiet i) := by
  unfold Quiet
  infer_instance

instance (w : NsWorld) (op : NsStep) : Decidable (w.Orderly op) := by
  unfold Orderly
  split
  next c => cases c <;> dsimp only <;> infer_instance
  all_goals infer_instance

structure Advances (w w' : NsWorld) : Prop where
  counted : Counted w'
  bound : ∀ i, w.InUse i → w'.InUse i → (w'.ns i).maxProcs = (w.ns i).maxProcs → (w.ns i).maxProcs ≠ 0 →
    w.members i ≤ (w.ns i).maxProcs.toNat → w'.members i ≤ (w.ns i).maxProcs.toNat

namespace Advances

theorem refl (h : Counted w) : Advances w w := ⟨h, fun _ _ _ _ _ => id⟩

theorem of_keeps (h : Counted w)
    (halive : ∀ k e, w'.table k = some e → e.exited = false → w'.InUse e.nsId → e.dead = false)
    (hkeeps : ∀ i, w'.InUse i → Keeps w w' i) : Advances w w' where
  counted := ⟨halive, fun i hi => (hkeeps i hi).fits (h.fits i (hkeeps i hi).used)⟩
  bound i hi hi' _ hmax hle := (hkeeps i hi').bound (h.fits i hi) hmax hle

theorem of_members (h : Counted w') (hm : ∀ i, w'.members i = w.members i) : Advances w w' :=
  ⟨h, fun i _ _ _ _ hle => (hm i).symm ▸ hle⟩

end Advances

theorem Counted.alive_set (h : Counted w) (ho : ∀ e ∈ o, e.exited = false → w.InUse e.nsId → e.dead = false) :
    ∀ k' e, (w.set k o).table k' = some e → e.exited = false → w.InUse e.nsId → e.dead = false := by
  intro k' e hk'
  obtain rfl | hkk := eq_or_ne k' k
  · rw [show (w.set k' o).table k' = o from update_self ..] at hk'
    exact ho e hk'
  · rw [show (w.set k o).table k' = w.table k' from update_of_ne hkk ..] at hk'
    exact h.alive k' e hk'

namespace Counted

theorem alive_setPc (h : Counted w) (hk : w.table k = some e) (pc : NsPc) : ∀ k' x,
    (w.set k (some { e with pc := pc })).table k' = some x → x.exited = false → w.InUse x.nsId → x.dead = false := by
  refine h.alive_set fun x hx => ?_
  obtain rfl := some.inj hx
  exact h.alive k e hk

theorem setPcNs {t : NsTable} {pc pc0 : NsPc} (h : Counted w) (hk : w.table k = some e) (hpc0 : e.pc = pc0)
    (hcounts : { e with pc := pc }.counts = { e with pc := pc0 }.counts) (hpc : pc ≠ .forkCreate)
    (ht : ∀ i, (t i).used → t i = w.ns i) : Advances w ((w.setNs t).set k (some { e with pc := pc })) := by
  subst hpc0
  have hin {i : Nat} (hi : ((w.setNs t).set k (some { e with pc := pc })).InUse i) : w.InUse i :=
    ⟨hi.1, (congrArg used (ht i hi.2)).symm.trans hi.2⟩
  refine .of_keeps h (fun l x hl hnot hx => h.alive_setPc hk pc l x hl hnot (hin hx)) fun i hi => ?_
  refine Keeps.adjust (hin hi) hk (by rw [ht i hi.2]) ?_ ?_ id
  · rw [ht i hi.2, counted, counted, hcounts]
    rfl
  · intro hcr
    exact absurd (eq_of_beq (Bool.and_eq_true_iff.mp hcr).2) hpc

theorem setPc {pc pc0 : NsPc} (h : Counted w) (hk : w.table k = some e) (hpc0 : e.pc = pc0)
    (hcounts : { e with pc := pc }.counts = { e with pc := pc0 }.counts) (hpc : pc ≠ .forkCreate) :
    Advances w (w.set k (some { e with pc := pc })) :=
  h.setPcNs (t := w.ns) hk hpc0 hcounts hpc fun _ _ => rfl

variable {n : Nat}

theorem member_ne (hn : e.nsId = n) (hne : n ≠ i) : e.member i = false := by
  rw [member, hn, beq_false_of_ne hne, Bool.and_false]

theorem setOutside (h : Counted w) (hold : ∀ e ∈ w.table k, e.exited = false → ¬w.InUse e.nsId)
    (hnew : ∀ e ∈ o, e.exited = false → ¬w.InUse e.nsId) : Advances w (w.set k o) := by
  have hout {o : Option NsProc} (ho : ∀ e ∈ o, e.exited = false → ¬w.InUse e.nsId) (i : Nat) (hi : w.InUse i) :
      o.any (·.member i) = false := by
    cases o with
    | none => rfl
    | some e =>
      rw [any_some]
      by_cases hex : e.exited
      · rw [member, hex]
        rfl
      refine member_ne rfl fun he => ho e rfl (Bool.eq_false_iff.mpr hex) ?_
      rw [he]
      exact hi
  refine .of_keeps h (h.alive_set fun e he hnot hin => absurd hin (hnew e he hnot)) fun i hi => ?_
  exact Keeps.set_other hi (hout hold i hi) (hout hnew i hi)

theorem replaceOutside (h : Counted w) (hk : w.table k = some e) (hold : ¬w.InUse e.nsId)
    (hnew : e'.exited = false → ¬w.InUse e'.nsId) : Advances w (w.set k (some e')) := by
  refine h.setOutside (fun x hx _ => ?_) fun x hx => ?_
  · obtain rfl := some.inj (hk.symm.trans hx)
    exact hold
  · obtain rfl := some.inj hx
    exact hnew

theorem create_cases (w : NsWorld) (n : Nat) (euid : U16) :
    (w.create n euid).1 = none ∧ (w.create n euid).2 = { w with nextPid := w.nextPid + 1 } ∨
      ∃ k, (w.create n euid).1 = some k ∧ w.table k = none ∧ (w.create n euid).2 =
        { w with nextPid := w.nextPid + 1 }.set k (some { pid := w.nextPid, nsId := n, euid }) := by
  rw [create]
  cases hf : (finRange maxProcs).find? fun k => (w.table k).isNone with
  | none => exact .inl ⟨rfl, rfl⟩
  | some k =>
    have hnone : (w.table k).isNone := by simpa using find?_some hf
    exact .inr ⟨k, rfl, isNone_iff_eq_none.mp hnone, rfl⟩

theorem nextPid (h : Counted w) (n : Nat) : Counted { w with nextPid := n } :=
  ⟨h.alive, fun i hi => ⟨(h.fits i hi).exact, (h.fits i hi).room⟩⟩

theorem create (h : Counted w) (hn : ¬w.InUse n) (euid : U16) : Advances w (w.create n euid).2 := by
  have h' := h.nextPid (w.nextPid + 1)
  obtain ⟨-, heq⟩ | ⟨k, -, hk, heq⟩ := create_cases w n euid
  · rw [heq]
    exact ⟨h', fun _ _ _ _ _ => id⟩
  rw [heq]
  have hset : Advances { w with nextPid := w.nextPid + 1 }
      ({ w with nextPid := w.nextPid + 1 }.set k (some { pid := w.nextPid, nsId := n, euid })) := by
    refine h'.setOutside (fun e he => ?_) fun e he _ => ?_
    · rw [show table _ k = none from hk] at he
      cases he
    · obtain rfl := Option.some.inj he
      exact hn
  exact ⟨hset.counted, hset.bound⟩

/-! ### Forks -/

theorem forkCreate (h : Counted w) (hk : w.table k = some e) (hnot : e.exited = false) (hpc : e.pc = .forkCreate)
    {k' : Fin maxProcs} {w1 : NsWorld} (hc : w.create e.nsId e.euid = (some k', w1)) :
    Advances w (w1.set k (some { e with pc := .forkAdjust })) := by
  obtain ⟨hnone, -⟩ | ⟨k1, hk1, hfree, heq⟩ := create_cases w e.nsId e.euid
  · rw [hc] at hnone
    cases hnone
  rw [hc] at hk1 heq
  obtain rfl : w1 = _ := heq
  obtain rfl : k' = k1 := Option.some.inj hk1
  have hne : k ≠ k' := by
    rintro rfl
    exact nomatch hfree.symm.trans hk
  let e' : NsProc := { e with pc := .forkAdjust }
  let child : NsProc := { pid := w.nextPid, nsId := e.nsId, euid := e.euid }
  let w1 := { w with nextPid := w.nextPid + 1 }.set k' (some child)
  have hk' : w1.table k = some e := (update_of_ne hne ..).trans hk
  refine .of_keeps h (fun l x hl hx hin => ?_) fun i hi => ?_
  · obtain rfl | hlk := eq_or_ne l k
    · obtain rfl := some.inj ((update_self l _ w1.table).symm.trans hl)
      exact h.alive l e hk hnot hin
    · have hl1 : w1.table l = some x := (update_of_ne hlk ..).symm.trans hl
      obtain rfl | hlk' := eq_or_ne l k'
      · obtain rfl := some.inj ((update_self l _ w.table).symm.trans hl1)
        rfl
      · exact h.alive l x ((update_of_ne hlk' ..).symm.trans hl1) hx hin
  · -- the child is counted in place of its parent
    have hchild (f : NsProc → Bool) := tally_set { w with nextPid := w.nextPid + 1 } k' (some child) f
    have hparent (f : NsProc → Bool) := tally_set w1 k (some e') f
    have htally (f : NsProc → Bool) : (w1.set k (some e')).tally f + (f e).toNat =
        w.tally f + (f child).toNat + (f e').toNat := by
      have h1 := hchild f
      have h2 := hparent f
      rw [show table _ k' = none from hfree, any_none, any_some, Bool.toNat_false] at h1
      rw [hk', any_some, any_some] at h2
      have h0 : tally { w with nextPid := w.nextPid + 1 } f = w.tally f := rfl
      change w1.tally f + 0 = _ at h1
      omega
    change Keeps w (w1.set k (some e')) i
    have hmember : e.member i = (e.nsId == i) := by
      by_cases hn : e.nsId = i
      · rw [member, hnot, h.alive k e hk hnot (hn ▸ hi)]
        rfl
      · rw [member_ne rfl hn, beq_false_of_ne hn]
    have hc := htally (counted i)
    have hcr := htally (creating i)
    have hm := htally (member i)
    have hpc' : e.counts := by rw [counts, hpc]; rfl
    rw [show child.member i = (e.nsId == i) from rfl, show e'.member i = e.member i from rfl, hmember] at hm
    rw [show child.creating i = false from Bool.and_false _,
      show e'.creating i = false from Bool.and_false _, creating, hmember,
      hpc, beq_self_eq_true, Bool.and_true, Bool.toNat_false] at hcr
    rw [show child.counted i = (e.nsId == i) from Bool.and_true _,
      show e'.counted i = false from Bool.and_false _, counted, hmember,
      hpc', Bool.and_true, Bool.toNat_false] at hc
    refine ⟨hi, ?_, rfl, by omega, ?_⟩
    · change (w.ns i).curProcs.toNat + w.tally _ = (w.ns i).curProcs.toNat + _
      omega
    · rw [members, members]
      omega

theorem member_iff : e.member i ↔ e.exited = false ∧ e.dead = false ∧ e.nsId = i := by
  rw [member, Bool.and_eq_true, Bool.and_eq_true, Bool.not_eq_true', Bool.not_eq_true', beq_iff_eq, and_assoc]

theorem creating_eq_zero (h : w.NoneLetIn i) : w.tally (creating i) = 0 := by
  refine tally_eq_zero fun l x hl => Bool.eq_false_iff.mpr fun hx => ?_
  obtain ⟨hm, hpc⟩ := Bool.and_eq_true_iff.mp hx
  obtain ⟨hnot, -, hn⟩ := member_iff.mp hm
  exact h l x hl hnot hn (eq_of_beq hpc)

theorem members_eq (h : w.Quiet i) : w.members i = w.tally (counted i) := by
  refine tally_congr fun l x hl => ?_
  rw [counted]
  by_cases hm : x.member i
  · obtain ⟨hnot, -, hn⟩ := member_iff.mp hm
    rw [h.2 l x hl hnot hn, Bool.and_true]
  · rw [Bool.eq_false_iff.mpr hm, Bool.false_and]

theorem curProcs_le (h : Counted w) (hi : w.InUse i) : (w.ns i).curProcs.toNat ≤ maxProcs :=
  (h.fits i hi).exact ▸ tally_le ..

theorem check_room (h : Counted w) (hi : w.InUse i) (hmax : (w.ns i).maxProcs ≠ 0)
    (hcheck : w.ns.agentNsQuotaCheck i .procs 1) : (w.ns i).curProcs.toNat + 1 ≤ (w.ns i).maxProcs.toNat := by
  rw [agentNsQuotaCheck, if_neg (not_not.mpr hi.1), hi.2] at hcheck
  rcases Bool.or_eq_true_iff.mp hcheck with hzero | hle
  · exact absurd (eq_of_beq hzero) hmax
  have hsum := BitVec.le_def.mp (of_decide_eq_true hle)
  rw [BitVec.toNat_add, Nat.mod_eq_of_lt] at hsum
  · exact hsum
  · exact Nat.lt_of_le_of_lt (Nat.add_le_add_right (h.curProcs_le hi) 1) (by decide)

theorem fork (h : Counted w) (hk : w.table k = some e) (hpc : e.pc = .user)
    (hcheck : w.ns.agentNsQuotaCheck e.nsId .procs 1)
    (hquiet : w.InUse e.nsId → (w.ns e.nsId).maxProcs ≠ 0 → w.Quiet e.nsId) :
    Advances w (w.set k (some { e with pc := .forkCreate })) := by
  let e' : NsProc := { e with pc := .forkCreate }
  have hset (f : NsProc → Bool) : (w.set k (some e')).tally f + (f e).toNat = w.tally f + (f e').toNat := by
    have := tally_set w k (some e') f
    rwa [hk] at this
  have hmembers (i : Nat) : (w.set k (some e')).members i = w.members i := Nat.add_right_cancel (hset (member i))
  refine .of_members ⟨h.alive_setPc hk _, fun i hi => ⟨?_, fun hmax hpos => ?_⟩⟩ hmembers
  · have heq : e.counted i = e'.counted i := by
      rw [counted, counted, counts, hpc]
      rfl
    have hc := hset (counted i)
    rw [heq] at hc
    exact (h.fits i hi).exact.trans (Nat.add_right_cancel hc).symm
  · have hcr := hset (creating i)
    rw [hmembers]
    change _ ≤ (w.ns i).maxProcs.toNat
    by_cases hn : e.nsId = i
    · -- no other fork is on its way, so the check has seen all members
      subst hn
      have hq := hquiet hi hmax
      have hroom := h.check_room hi hmax hcheck
      rw [(h.fits _ hi).exact, ← members_eq hq] at hroom
      have hone := Bool.toNat_le (e'.creating e.nsId)
      rw [creating_eq_zero hq.1] at hcr
      change w.members e.nsId + (w.set k (some e')).tally _ ≤ _
      omega
    · have hnew : e'.creating i = false := by
        rw [creating, show e'.member i = false from member_ne rfl hn, Bool.false_and]
      rw [hnew, Bool.toNat_false] at hcr
      have hroom := (h.fits i hi).room hmax
      change 0 < (w.set k (some e')).tally _ at hpos
      change w.members i + (w.set k (some e')).tally _ ≤ _
      omega

/-! ### The counter -/

theorem quotaAdjust_self (hi : w.InUse i) (r : NsResource) (d : U32) :
    w.ns.agentNsQuotaAdjust i r d i = (w.ns i).adjust r d := by
  rw [agentNsQuotaAdjust, if_neg (not_not.mpr hi.1), hi.2]
  exact update_self ..

theorem quotaAdjust_of_ne (t : NsTable) (hi : i ≠ n) (r : NsResource) (d : U32) :
    t.agentNsQuotaAdjust n r d i = t i := by
  unfold agentNsQuotaAdjust
  split
  · rfl
  split
  · rfl
  · exact update_of_ne hi ..

theorem quotaAdjust_used (w : NsWorld) (n : Nat) (r : NsResource) (d : U32) (i : Nat) :
    (w.setNs (w.ns.agentNsQuotaAdjust n r d)).InUse i ↔ w.InUse i := by
  have hused : (w.ns.agentNsQuotaAdjust n r d i).used = (w.ns i).used := by
    unfold agentNsQuotaAdjust
    split
    · rfl
    split
    · rfl
    rw [update_apply]
    split
    · subst ‹i = n›
      cases r <;> rfl
    · rfl
  exact and_congr_right fun _ => by rw [← hused]; rfl

section
variable (h : Counted w)
include h

section
variable (hk : w.table k = some e) (hnot : e.exited = false)
include hk hnot

theorem adjusted {pc : NsPc} {d : U32} (hpc : pc ≠ .forkCreate)
    (hcur : w.InUse e.nsId → ((w.ns e.nsId).adjust .procs d).curProcs.toNat + e.counts.toNat =
      (w.ns e.nsId).curProcs.toNat + { e with pc := pc }.counts.toNat) :
    Advances w ((w.setNs (w.ns.agentNsQuotaAdjust e.nsId .procs d)).set k (some { e with pc := pc })) := by
  let e' : NsProc := { e with pc := pc }
  let t := w.ns.agentNsQuotaAdjust e.nsId .procs d
  have hin (i : Nat) : ((w.setNs t).set k (some e')).InUse i ↔ w.InUse i := quotaAdjust_used ..
  refine .of_keeps h (fun l x hl hnot hx => h.alive_setPc hk pc l x hl hnot ((hin _).mp hx)) fun i hi => ?_
  have hi := (hin i).mp hi
  have hcr : e'.creating i → e.creating i := fun hcr =>
    absurd (eq_of_beq (Bool.and_eq_true_iff.mp hcr).2) hpc
  obtain rfl | hn := eq_or_ne e.nsId i
  · have hm : e.member e.nsId := member_iff.mpr ⟨hnot, h.alive k e hk hnot hi, rfl⟩
    have hm' : e'.member e.nsId := hm
    refine Keeps.adjust hi hk ?_ ?_ hcr id
    · rw [quotaAdjust_self hi]
      rfl
    · rw [quotaAdjust_self hi, counted, counted, hm, hm', Bool.true_and, Bool.true_and]
      exact hcur hi
  · have hm : e.member i = false := member_ne rfl hn
    have hm' : e'.member i = false := hm
    refine Keeps.adjust hi hk ?_ ?_ hcr id
    · rw [quotaAdjust_of_ne _ (Ne.symm hn)]
    · rw [quotaAdjust_of_ne _ (Ne.symm hn), counted, counted, hm, hm']
      rfl

theorem forkAdjust (hpc : e.pc = .forkAdjust) :
    Advances w ((w.setNs (w.ns.agentNsQuotaAdjust e.nsId .procs 1)).set k (some { e with pc := .user })) := by
  refine h.adjusted hk hnot nofun fun hi => ?_
  have hle := h.curProcs_le hi
  have hcounts : e.counts = false := by rw [counts, hpc]; rfl
  rw [hcounts]
  exact adjust_one hle

theorem exitAdjust (hpc : e.pc = .exitAdjust) :
    Advances w ((w.setNs (w.ns.agentNsQuotaAdjust e.nsId .procs (-1))).set k (some { e with pc := .exitEnd })) := by
  refine h.adjusted hk hnot nofun fun hi => ?_
  have hle := h.curProcs_le hi
  have hcounts : e.counts := by rw [counts, hpc]; rfl
  have hpos : 0 < (w.ns e.nsId).curProcs.toNat := by
    rw [(h.fits _ hi).exact]
    refine tally_pos hk ?_
    rw [counted, member_iff.mpr ⟨hnot, h.alive k e hk hnot hi, rfl⟩, hcounts]
    rfl
  rw [hcounts]
  exact adjust_neg_one hpos hle

end

theorem exitEnd (hk : w.table k = some e) (hpc : e.pc = .exitEnd) :
    Advances w (w.set k (some { e with exited := true })) := by
  have hcounted (i : Nat) : e.counted i = false := by
    rw [counted, counts, hpc]
    exact Bool.and_false _
  refine .of_keeps h (h.alive_set fun x hx hnot _ => ?_) fun i hi => ?_
  · obtain rfl := some.inj hx
    cases hnot
  · refine Keeps.adjust (t := w.ns) hi hk rfl ?_ nofun fun h => nomatch h
    rw [hcounted]
    rfl

theorem setNs {t : NsTable}
    (halive : ∀ k e, w.table k = some e → e.exited = false → (t e.nsId).used → (w.ns e.nsId).used)
    (hfits : ∀ i, NsTable.Named i → (t i).used → t i = w.ns i ∨
      (t i).curProcs.toNat = w.tally (counted i) ∧ w.tally (creating i) = 0) : Advances w (w.setNs t) := by
  refine .of_members ⟨fun k e hk hnot hin => ?_, fun i hi => ?_⟩ fun _ => rfl
  · exact h.alive k e hk hnot ⟨hin.1, halive k e hk hnot hin.2⟩
  · obtain hsame | ⟨hcur, hnone⟩ := hfits i hi.1 hi.2
    · have hf := h.fits i ⟨hi.1, (congrArg AgentNs.used hsame).symm.trans hi.2⟩
      exact ⟨(congrArg (·.curProcs.toNat) hsame).trans hf.exact, (congrArg AgentNs.maxProcs hsame).symm ▸ hf.room⟩
    · refine ⟨hcur, fun _ hpos => ?_⟩
      exact absurd hpos (Nat.not_lt.mpr (Nat.le_of_eq hnone))

theorem nsCreate (hnew : ∀ i ∈ w.ns.freeSlot, (w.ns i).curProcs = 0 ∧ w.Vacant i) (name : CStr)
    (pid : Nat) : Advances w (w.setNs (w.ns.agentNsCreate name pid).2) := by
  rw [agentNsCreate]
  cases hf : w.ns.freeSlot with
  | none => exact .refl h
  | some j =>
    obtain ⟨hcur, hvacant⟩ := hnew j hf
    have hnone {f : NsProc → Bool} (hf : ∀ e, f e → e.member j) : w.tally f = 0 := by
      refine tally_eq_zero fun k e hk => Bool.eq_false_iff.mpr fun hfe => ?_
      obtain ⟨hnot, -, hn⟩ := member_iff.mp (hf e hfe)
      exact hvacant k e hk hnot hn
    change Advances w (w.setNs (update w.ns j _))
    refine h.setNs (fun k e hk hnot hu => ?_) fun i _ _ => ?_
    · rwa [update_of_ne (hvacant k e hk hnot)] at hu
    · obtain rfl | hij := eq_or_ne i j
      · have hcounted : w.tally (counted i) = 0 := hnone fun e he => (Bool.and_eq_true_iff.mp he).1
        have hcreating : w.tally (creating i) = 0 := hnone fun e he => (Bool.and_eq_true_iff.mp he).1
        refine .inr ⟨?_, hcreating⟩
        rw [update_self, hcounted]
        exact congrArg BitVec.toNat hcur
      · exact .inl (update_of_ne hij ..)

theorem setLimit (hnone : w.NoneLetIn n) (limit : U32) (r : NsResource) :
    Advances w (w.setNs (update w.ns n ((w.ns n).setLimit limit r))) := by
  have hsame : ((w.ns n).setLimit limit r).used = (w.ns n).used ∧
      ((w.ns n).setLimit limit r).curProcs = (w.ns n).curProcs := by cases r <;> exact ⟨rfl, rfl⟩
  refine h.setNs (fun k e hk hnot hu => ?_) fun i hi hu => ?_
  · obtain rfl | hn := eq_or_ne e.nsId n
    · rwa [update_self, hsame.1] at hu
    · rwa [update_of_ne hn] at hu
  · obtain rfl | hn := eq_or_ne i n
    · rw [update_self, hsame.1] at hu
      refine .inr ⟨?_, creating_eq_zero hnone⟩
      rw [update_self, hsame.2]
      exact (h.fits i ⟨hi, hu⟩).exact
    · exact .inl (update_of_ne hn ..)

theorem nsSetquota (hnone : w.NoneLetIn n) (resource : Nat) (limit : U32) (pid : Nat)
    (uid : U16) : Advances w (w.setNs (w.ns.agentNsSetQuota n resource limit pid uid).2) := by
  unfold agentNsSetQuota
  split
  · exact .refl h
  split
  · exact .refl h
  split
  · exact .refl h
  cases NsResource.ofNat? resource with
  | none => exact .refl h
  | some r => exact h.setLimit hnone limit r

theorem exitCleanup (hk : w.table k = some e) (hpc : e.pc = .exitCleanup n) (j : Nat) :
    Advances w ((w.setNs (update w.ns j { w.ns j with used := false })).set k
      (some { e with pc := .exitUnregister j })) := by
  refine h.setPcNs hk hpc rfl nofun fun i hi => ?_
  obtain rfl | hij := eq_or_ne i j
  · rw [update_self] at hi
    cases hi
  · exact update_of_ne hij ..

theorem forkFails (hk : w.table k = some e) (hpc : e.pc = .forkCreate) :
    Advances w (w.set k (some { e with pc := .user })) :=
  h.setPc hk hpc rfl nofun

theorem turn {made : Bool} (hop : w.Orderly (.turn k made)) (hrun : w.running k = some e) :
    Advances w (w.turn k e made) := by
  obtain ⟨hk, hnot⟩ := running_eq hrun
  have hop := hop e hrun
  rw [NsWorld.turn]
  cases hpc : e.pc with
  | user => exact .refl h
  | joinStore n =>
    have hjoins : e.joins = some n := by rw [joins, hpc]
    rcases hop n hjoins with rfl | ⟨hn, he⟩
    · exact h.setPc hk hpc rfl nofun
    · exact h.replaceOutside hk he fun _ => hn
  | forkCreate =>
    cases made with
    | false => exact h.forkFails hk hpc
    | true =>
      cases hc : w.create e.nsId e.euid with
      | mk o w1 =>
        cases o with
        | some k' => exact h.forkCreate hk hnot hpc hc
        | none =>
          obtain ⟨-, heq⟩ | ⟨k1, hk1, -⟩ := create_cases w e.nsId e.euid
          · rw [hc] at heq
            obtain rfl : w1 = _ := heq
            have hfails := (h.nextPid (w.nextPid + 1)).forkFails hk hpc
            exact ⟨hfails.counted, hfails.bound⟩
          · rw [hc] at hk1
            cases hk1
  | forkAdjust => exact h.forkAdjust hk hnot hpc
  | exitCleanup n =>
    dsimp only
    split
    · exact h.exitCleanup hk hpc _
    · exact h.setPc hk hpc rfl nofun
  | exitUnregister j => exact h.setPc hk hpc rfl nofun
  | exitAdjust => exact h.exitAdjust hk hnot hpc
  | exitEnd =>
    have hend := h.exitEnd hk hpc
    rw [hpc] at hend
    exact hend

end

theorem not_inUse_zero (w : NsWorld) : ¬w.InUse 0 := fun h => absurd h.1.1 (Nat.lt_irrefl 0)

theorem call (h : Counted w) {c : Call} (hop : w.Orderly (.call k c)) (hrun : w.running k = some e)
    (hpc : e.pc = .user) : Advances w (w.call k e c) := by
  obtain ⟨hk, hnot⟩ := running_eq hrun
  have hop := hop e hrun
  cases c with
  | nsCreate name => exact h.nsCreate hop name e.pid
  | nsJoin n =>
    rw [NsWorld.call]
    split
    · exact h.setPc hk hpc rfl nofun
    · exact .refl h
  | nsSetquota n resource limit => exact h.nsSetquota hop resource limit e.pid e.euid
  | fork =>
    rw [NsWorld.call]
    split
    · exact h.fork hk hpc ‹_› hop
    · exact .refl h
  | exec euid => exact h.create (not_inUse_zero w) euid
  | supervised n euid => exact h.create hop euid
  | exit => exact h.setPc hk hpc rfl nofun

theorem step {op : NsStep} (h : Counted w) (hop : w.Orderly op) : Advances w (w.step op) := by
  cases op with
  | boot euid => exact h.create (not_inUse_zero w) euid
  | call k c =>
    rw [NsWorld.step]
    cases hrun : w.running k with
    | none => exact .refl h
    | some e =>
      dsimp only
      split
      · exact h.call hop hrun ‹_›
      · exact .refl h
  | turn k made =>
    rw [NsWorld.step]
    cases hrun : w.running k with
    | none => exact .refl h
    | some e => exact h.turn hop hrun
  | kill k ready =>
    rw [NsWorld.step]
    cases hrun : w.running k with
    | none => exact .refl h
    | some e => exact h.replaceOutside (running_eq hrun).1 (hop e hrun) fun _ => hop e hrun
  | switchOut k =>
    rw [NsWorld.step]
    cases hrun : w.running k with
    | none => exact .refl h
    | some e =>
      obtain ⟨hk, hnot⟩ := running_eq hrun
      dsimp only
      split
      next hdead =>
        refine h.replaceOutside hk (fun hin => ?_) nofun
        exact nomatch (h.alive k e hk hnot hin).symm.trans hdead
      · exact .refl h
  | reap k =>
    rw [NsWorld.step]
    split
    next hex =>
      refine h.setOutside (fun x hx hnot => ?_) fun x hx => nomatch hx
      rw [show w.table k = some x from hx, any_some, hnot] at hex
      cases hex
    · exact .refl h

end Counted

/-- No call is in progress, each count is right, and no process of a namespace in use has been killed. -/
structure Settled (w : NsWorld) : Prop where
  idle : ∀ k, ∀ e ∈ w.table k, e.exited = false → e.pc = .user
  alive : ∀ k, ∀ e ∈ w.table k, e.exited = false → w.InUse e.nsId → e.dead = false
  exact : ∀ i, w.InUse i → (w.ns i).curProcs.toNat = w.members i

theorem quiet_of_idle (h : ∀ k, ∀ e ∈ w.table k, e.exited = false → e.pc = .user) (i : Nat) : w.Quiet i := by
  refine ⟨fun k e he hnot _ hpc => ?_, fun k e he hnot _ => ?_⟩
  · rw [h k e he hnot] at hpc
    cases hpc
  · rw [counts, h k e he hnot]
    rfl

theorem Settled.counted (h : Settled w) : Counted w where
  alive k e hk := h.alive k e hk
  fits i hi := by
    have hq := quiet_of_idle h.idle i
    refine ⟨(h.exact i hi).trans (Counted.members_eq hq), fun _ hpos => ?_⟩
    rw [Counted.creating_eq_zero hq.1] at hpos
    cases hpos

theorem Counted.run_bound {m : U32} {ops : List NsStep} (h : Counted w) (hops : Guarded NsWorld.step Orderly w ops)
    (hm : m ≠ 0)
    (hkept : ∀ pre, pre <+: ops → (run NsWorld.step w pre).InUse i ∧ ((run NsWorld.step w pre).ns i).maxProcs = m)
    (hle : w.members i ≤ m.toNat) : (run NsWorld.step w ops).members i ≤ m.toNat := by
  induction ops generalizing w with
  | nil => exact hle
  | cons op ops ih =>
    have hstep := h.step hops.1
    obtain ⟨hi, hmax⟩ := hkept [] nil_prefix
    obtain ⟨hi', hmax'⟩ := hkept [op] ⟨ops, rfl⟩
    change (w.ns i).maxProcs = m at hmax
    refine ih hstep.counted hops.2 (fun pre hpre => hkept (op :: pre) (prefix_cons_inj op |>.mpr hpre)) ?_
    have hbound := hstep.bound i hi hi' (hmax'.trans hmax.symm)
    rw [hmax] at hbound
    exact hbound hm hle

end NsWorld

open NsWorld

/-- In every orderly run, `cur_procs` of a namespace in use is the number of its live processes whenever no call is in
    progress, and they stay within a quota that is not changed. -/
theorem quota_enforced (w : NsWorld) (hw : w.Settled) (ops : List NsStep) (hops : Guarded step Orderly w ops) :
    ((∀ k, ∀ e ∈ (run step w ops).table k, e.exited = false → e.pc = .user) →
      ∀ i, (run step w ops).InUse i → ((run step w ops).ns i).curProcs.toNat = (run step w ops).members i) ∧
    ∀ pre mid post : List NsStep, ops = pre ++ mid ++ post → ∀ (i : Nat) (m : U32), m ≠ 0 →
      (∀ part, part <+: mid → (run step w (pre ++ part)).InUse i ∧ ((run step w (pre ++ part)).ns i).maxProcs = m) →
      (run step w pre).members i ≤ m.toNat → (run step w (pre ++ mid)).members i ≤ m.toNat := by
  have hinv {ops : List NsStep} (hops : Guarded step Orderly w ops) : Counted (run step w ops) :=
    Guarded.invariant (fun _ _ h hop => (h.step hop).counted) hw.counted hops
  refine ⟨fun hidle i hi => ?_, ?_⟩
  · rw [Counted.members_eq (quiet_of_idle hidle i)]
    exact ((hinv hops).fits i hi).exact
  · rintro pre mid post rfl i m hm hkept hle
    obtain ⟨hpre, hmid⟩ := guarded_append.mp (guarded_append.mp hops).1
    rw [run_append]
    refine (hinv hpre).run_bound hmid hm (fun part hpart => ?_) hle
    rw [← run_append]
    exact hkept part hpart

def housed : NsWorld where
  ns i := if i = 1 then { used := true, ownerPid := 1, maxProcs := 2, curProcs := 1 } else {}
  table := update (fun _ => none) 0 (some { pid := 1, nsId := 1 })
  nextPid := 2

theorem housed_settled : housed.Settled := by
  refine ⟨by decide +kernel, by decide +kernel, fun i hi => ?_⟩
  obtain rfl : i = 1 := by
    by_contra hne
    have hused := hi.2
    rw [show housed.ns i = {} from if_neg hne] at hused
    cases hused
  decide +kernel

def forkAndExit : List NsStep :=
  [.call 0 .fork, .turn 0 true, .turn 0 true, .call 0 .fork, .call 1 .exit, .turn 1 true, .turn 1 true, .turn 1 true,
    .reap 1]

theorem quota_enforced_forkAndExit :
    ((run step housed forkAndExit).ns 1).curProcs.toNat = (run step housed forkAndExit).members 1 ∧
      (run step housed (forkAndExit.take 4)).members 1 ≤ 2 := by
  have hguard : Guarded step Orderly housed forkAndExit := by decide +kernel
  have h := quota_enforced housed housed_settled forkAndExit hguard
  refine ⟨h.1 (by decide +kernel) 1 (by decide +kernel), ?_⟩
  have hkept : ∀ part ∈ (forkAndExit.take 4).inits,
      (run step housed ([] ++ part)).InUse 1 ∧ ((run step housed ([] ++ part)).ns 1).maxProcs = 2 := by decide +kernel
  exact h.2 [] (forkAndExit.take 4) (forkAndExit.drop 4) rfl 1 2 (by decide)
    (fun part hpart => hkept part ((mem_inits _ _).mpr hpart)) (by decide +kernel)

def joinRun : List NsStep :=
  [.boot 0, .call 0 (.nsCreate []), .call 0 (.nsJoin 1), .turn 0 true, .call 0 (.nsSetquota 1 0 1)]

/-- `sys_ns_join` neither asks the quota nor counts: the one member is not counted, and its fork is let in. -/
theorem joined_uncounted :
    (∀ k, ∀ e ∈ (run step {} joinRun).table k, e.exited = false → e.pc = .user) ∧ (run step {} joinRun).InUse 1 ∧
    ((run step {} joinRun).ns 1).curProcs = 0 ∧ ((run step {} joinRun).ns 1).maxProcs = 1 ∧
    (run step {} joinRun).members 1 = 1 ∧
    (run step {} (joinRun ++ [.call 0 .fork, .turn 0 true])).members 1 = 2 ∧
    ((run step {} (joinRun ++ [.call 0 .fork, .turn 0 true])).ns 1).maxProcs = 1 := by decide +kernel

end Limnx
