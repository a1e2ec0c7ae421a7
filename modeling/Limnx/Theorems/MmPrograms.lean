import Limnx.SysMm

/-! Parts of the memory state that programs leave alone. -/

namespace Limnx

open StateProg Mem Mm

variable {γ : Type} {g : Mm → γ} {s : Mm} {pid : Nat}

def OutsideMemory (g : Mm → γ) : Prop :=
  ∀ (s : Mm) pmm data kernel space live, g { s with pmm, data, kernel, space, live } = g s

theorem outsideMemory_shm : OutsideMemory Mm.shm := fun _ _ _ _ _ _ => rfl

def Mm.records (s : Mm) : (Nat → MmProc) × List Nat × Nat := (s.proc, s.pids, s.nextPid)

def Mm.memory (s : Mm) : Pmm × (Nat → Buf) × Space × (Nat → Space) := (s.pmm, s.data, s.kernel, s.space)

theorem outside_records : OutsideMemory records := fun _ _ _ _ _ _ => rfl

@[simp] theorem ends_getProc {Q : MmProc → Mm → Prop} : Ends (getProc pid) s Q ↔ Q (s.proc pid) s := Iff.rfl

@[simp] theorem ends_modifyProc {f : MmProc → MmProc} {Q : Unit → Mm → Prop} :
    Ends (modifyProc pid f) s Q ↔ Q () (s.setProc pid (f (s.proc pid))) := Iff.rfl

@[simp] theorem ends_vmmGetPte {c va : Nat} {Q : Pte → Mm → Prop} :
    Ends (vmmGetPte c va) s Q ↔ Q (s.pteAt c (pageOf va)) s := Iff.rfl

@[simp] theorem ends_allocPid {Q : Nat → Mm → Prop} :
    Ends allocPid s Q ↔ Q s.nextPid { s with nextPid := s.nextPid + 1 } := Iff.rfl

@[simp] theorem ends_addProc {p : MmProc} {Q : Unit → Mm → Prop} :
    Ends (addProc pid p) s Q ↔ Q () { s.setProc pid p with pids := pid :: s.pids } := Iff.rfl

namespace OutsideMemory

section
variable (hg : OutsideMemory g)
include hg

theorem allocContiguous {n : Nat} : Stable g (allocContiguous n) := fun s => hg s ..

theorem allocPage : Stable g allocPage := fun s => hg s ..

theorem freePage {f : Nat} : Stable g (freePage f) := .modify fun s => hg s ..

theorem refInc {f : Nat} : Stable g (refInc f) := .modify fun s => hg s ..

theorem fillFrame {f : Nat} {b : Buf} : Stable g (fillFrame f b) := .modify fun s => hg s ..

theorem freeRun {f i n : Nat} : Stable g (freeRun f i n) := .modify fun s => hg s ..

theorem setHome {c l v : Nat} {f : Space → Space} : g (s.setHome c l v f) = g s := by
  unfold Mm.setHome
  split
  · exact hg s ..
  · exact hg s ..

theorem storePte {c va : Nat} {e : Pte} : Stable g (storePte c va e) := .modify fun _ => hg.setHome

theorem ensureTable {c l v : Nat} {user : Bool} : Stable g (ensureTable c l v user) := by
  refine .bind .gets fun u => ?_
  cases u with
  | some u => exact .bind (.modify fun _ => hg.setHome) fun _ => .pure
  | none =>
    refine .bind hg.allocPage fun f => ?_
    cases f with
    | none => exact .pure
    | some f => exact .bind (.modify fun _ => hg.setHome) fun _ => .pure

theorem vmmMapPageIn {c va f : Nat} {flags : PteFlags} : Stable g (vmmMapPageIn c va f flags) :=
  .bind hg.ensureTable fun _ => .ite
    (.bind hg.ensureTable fun _ => .ite
      (.bind hg.ensureTable fun _ => .ite (.bind hg.storePte fun _ => .pure) .pure) .pure) .pure

theorem mapFresh {c virt : Nat} {flags : PteFlags} {giveBack : Bool}
    {fill : Nat → Buf} {i n : Nat} : Stable g (mapFresh c virt flags giveBack fill i n) := by
  induction n generalizing i with
  | zero => exact .pure
  | succ n ih =>
    refine .bind hg.allocPage fun f => ?_
    cases f with
    | none => exact .pure
    | some f =>
      refine .bind hg.fillFrame fun _ => .bind hg.vmmMapPageIn fun _ => .ite (.bind ih fun l => ?_) (.ite ?_ .pure)
      · cases l <;> exact .pure
      · exact .bind hg.freePage fun _ => .pure

theorem mapRun {c virt phys i n : Nat} : Stable g (mapRun c virt phys i n) := by
  induction n generalizing i with
  | zero => exact .pure
  | succ n ih => exact .bind hg.fillFrame fun _ => .bind hg.vmmMapPageIn fun _ => .ite ih .pure

theorem unmapPage {c va other : Nat} {free : Bool} : Stable g (unmapPage c va free other) :=
  .bind .gets fun _ => .ite (.bind hg.storePte fun _ => .ite hg.freePage .pure) (.ite hg.freePage .pure)

theorem unmapPages {c virt phys : Nat} {free : Bool} {i n : Nat} : Stable g (unmapPages c virt phys free i n) := by
  induction n generalizing i with
  | zero => exact .pure
  | succ n ih => exact .bind hg.unmapPage fun _ => ih

theorem vmmCreateAddressSpace : Stable g vmmCreateAddressSpace := by
  refine .bind hg.allocPage fun f => ?_
  cases f with
  | none => exact .pure
  | some f => exact .bind (.modify fun s => hg s ..) fun _ => .pure

end

variable {t : Fin mmapMaxEntries → MmapEntry}

section
variable (hg : OutsideMemory g)
include hg

theorem clonePage {parent child v : Nat} : Stable g (clonePage parent child t v) :=
  .bind .gets fun _ => .ite
    (.ite (.bind hg.vmmMapPageIn fun _ => hg.refInc)
      (.bind hg.storePte fun _ => .bind hg.vmmMapPageIn fun _ => hg.refInc)) .pure

theorem vmmCloneCow {parent : Nat} : Stable g (vmmCloneCow parent t) := by
  have hpages : ∀ child l, Stable g (clonePages parent child t l) := by
    intro child l
    induction l with
    | nil => exact .pure
    | cons v l ih => exact .bind hg.clonePage fun _ => ih
  refine .bind hg.vmmCreateAddressSpace fun f => ?_
  cases f with
  | none => exact .pure
  | some f => exact .bind .gets fun _ => .bind (hpages f _) fun _ => .pure

theorem elfLoad {f : ElfFile} : Stable g (elfLoad f) := by
  have hsegments : ∀ c l highest count, Stable g (elfSegments c f l highest count) := by
    intro c l
    induction l with
    | nil => exact fun _ _ => .pure
    | cons p l ih =>
      intro highest count
      refine .ite (ih _ _) (.ite .pure (.bind hg.mapFresh fun r => ?_))
      cases r with
      | none => exact .pure
      | some _ => exact ih _ _
  refine .ite .pure (.bind hg.vmmCreateAddressSpace fun r => ?_)
  cases r with
  | none => exact .pure
  | some c =>
    refine .bind (hsegments c _ _ _) fun r => ?_
    cases r <;> exact .pure

theorem mapStack {c : Nat} : Stable g (mapStack c) := by
  refine .bind hg.mapFresh fun r => ?_
  cases r <;> exact .pure

end

end OutsideMemory

def OutsideShm (g : Mm → γ) : Prop := ∀ (s : Mm) shm, g { s with shm } = g s

theorem outsideShm_records : OutsideShm records := fun _ _ => rfl

theorem outsideShm_memory : OutsideShm memory := fun _ _ => rfl

theorem OutsideShm.countShm (hg : OutsideShm g) {l : List (Fin mmapMaxEntries)} : Stable g (countShm pid l) := by
  induction l with
  | nil => exact .pure
  | cons i l ih =>
    refine .bind .gets fun p => ?_
    split
    · exact .bind (.ite (.modify fun s => hg s _) .pure) fun _ => ih
    · exact ih

theorem shmDrop_records {sid : Nat} : Stable records (shmDrop sid) := by
  refine .modify fun s => ?_
  simp only
  split
  · split <;> rfl
  · rfl

theorem findSlot_used {p : MmProc} {q : MmapEntry → Bool} {slot : Fin mmapMaxEntries} (h : p.findSlot q = some slot) :
    (p.mmapTable slot).used ∧ q (p.mmapTable slot) := by
  simpa using List.find?_some h

def oneProcess : Mm :=
  { pmm := { total := 64, bitmap := fun f => decide (f < 8), refcounts := fun f => if f < 8 then 1 else 0, hint := 8,
             bitmap_zero := rfl }
    kernel := default
    space := fun c => if c = 7 then newSpace default 7 else default
    live := [7]
    proc := fun pid => if pid = 1 then { cr3 := 7, mmapNextAddr := mmapRegionBase, rlimitMemPages := 3 } else {}
    pids := [1]
    nextPid := 2 }

end Limnx
