import Limnx.Theorems.VfsCalls

/-! A descriptor keeps to the file it was opened on. -/

namespace Limnx
open Function GuardedRun

namespace FsKernel
variable {k k' : FsKernel} {t fd i : Nat} {ρ ω : Bool}

/-- Some descriptor points to slot `i`. -/
def Held (k : FsKernel) (i : Nat) : Prop := ∃ t fd, fd < maxFds ∧ ((k.tasks t).fds fd).node = some i

/-- Descriptor `fd` of task `t` holds slot `i`, and the file in the slot is the one it was opened on. -/
structure Denotes (k : FsKernel) (t fd i : Nat) : Prop where
  slot : ((k.tasks t).fds fd).node = some i
  same : (k.vfs.nodes i).event = ((k.tasks t).fds fd).event

/-- What a descriptor points to is still the node that it was opened on. -/
def Tracks (k : FsKernel) : Prop :=
  ∀ t fd i, fd < maxFds → ((k.tasks t).fds fd).node = some i → (k.vfs.nodes i).event = ((k.tasks t).fds fd).event

theorem Tracks.denotes (hk : k.Tracks) (hfd : fd < maxFds) (hi : ((k.tasks t).fds fd).node = some i) :
    k.Denotes t fd i := ⟨hi, hk t fd i hfd hi⟩

def FdsWithin (k k' : FsKernel) : Prop :=
  ∀ t fd i, ((k'.tasks t).fds fd).node = some i →
    ((k.tasks t).fds fd).node = some i ∧ ((k'.tasks t).fds fd).event = ((k.tasks t).fds fd).event

theorem FdsWithin.of_tasks (h : k'.tasks = k.tasks) : k.FdsWithin k' := by
  intro t fd i hi
  rw [h] at hi ⊢
  exact ⟨hi, rfl⟩

theorem Tracks.of_tableStep (hk : k.Tracks) (hv : TableStep k.vfs k'.vfs) (ht : k.FdsWithin k')
    (hfree : k'.vfs.events ≠ k.vfs.events → ∀ i, k.vfs.freeSlot = some i → ¬k.Held i) : k'.Tracks := by
  intro t fd i hfd hi
  obtain ⟨hi, he⟩ := ht t fd i hi
  rw [he, ← hk t fd i hfd hi]
  cases hv with
  | kept h => exact h.event i
  | registered j slot events _ event => exact event i fun hj : i = j => hfree events j slot ⟨t, fd, hfd, hj ▸ hi⟩

theorem Tracks.of_kept (hk : k.Tracks) (hv : Kept k.vfs k'.vfs) (ht : k.FdsWithin k') : k'.Tracks :=
  hk.of_tableStep (.kept hv) ht fun h => absurd hv.events h

theorem Tracks.setFd (hk : k.Tracks) {e : FdEntry} (he : ∀ i, e.node = some i → (k.vfs.nodes i).event = e.event) :
    (k.setFd t fd e).Tracks := by
  intro t' fd' i hfd hi
  simp only [FsKernel.setFd] at hi ⊢
  obtain rfl | htt := eq_or_ne t' t
  · by_cases hff : fd' = fd
    · subst hff
      simp only [update_self] at hi ⊢
      exact he i hi
    · simp only [update_self, update_of_ne hff] at hi ⊢
      exact hk t' fd' i hfd hi
  · simp only [update_of_ne htt] at hi ⊢
    exact hk t' fd' i hfd hi

theorem Tracks.install (hk : k.Tracks) (i : Nat) (flags : U64) (pipe : Option (Nat × Bool)) :
    (k.install t i flags pipe).2.Tracks := by
  unfold FsKernel.install
  split
  · exact hk
  refine hk.setFd fun j hj => ?_
  split at hj
  · cases hj
    rfl
  · cases hj

theorem Tracks.advance (hk : k.Tracks) (hfd : fd < maxFds) (n : Nat) : (k.advance t fd n).Tracks :=
  hk.setFd fun i hi => hk t fd i hfd hi

theorem own_kept (i : Nat) (mode : U16) : Kept k.vfs (k.own t i mode).vfs := by
  unfold own
  split
  · exact .refl _
  · dsimp only
    exact .modify fun _ => rfl

section
variable (path : CStr) (text : Nat → Option ProcText)

theorem refreshOnOpen_cases :
    k.refreshOnOpen path text = k ∨
      ∃ pid status cmdline, k.refreshOnOpen path text = { k with vfs := k.vfs.procfsRefresh pid status cmdline } := by
  unfold refreshOnOpen
  dsimp only
  split
  · split
    · exact .inl rfl
    split
    · exact .inl rfl
    · exact .inr ⟨_, _, _, rfl⟩
  · exact .inl rfl

theorem refreshOnOpen_tasks : (k.refreshOnOpen path text).tasks = k.tasks := by
  rcases k.refreshOnOpen_cases path text with h | ⟨_, _, _, h⟩ <;> rw [h]

theorem refreshOnOpen_kept : Kept k.vfs (k.refreshOnOpen path text).vfs := by
  rcases k.refreshOnOpen_cases path text with h | ⟨_, _, _, h⟩ <;> rw [h]
  · exact .refl _
  · exact Vfs.refresh_induction (.refl _) (fun _ _ text h => h.trans (.modify fun n => (setText_same n text).2.1)) _ _ _

theorem refreshOnOpen_freeSlot : (k.refreshOnOpen path text).vfs.freeSlot = k.vfs.freeSlot := by
  rcases k.refreshOnOpen_cases path text with h | ⟨_, _, _, h⟩ <;> rw [h]
  exact Vfs.refresh_induction (P := fun w => w.freeSlot = k.vfs.freeSlot) rfl
    (fun _ _ text h => (Vfs.freeSlot_modify fun n => (setText_same n text).1).trans h) _ _ _

end

/-- No descriptor points to the slot that the next node gets. -/
def FreeSlotUnheld (k : FsKernel) : Prop := ∀ i, k.vfs.freeSlot = some i → ¬k.Held i

/-- Nodes, LimnFS and cache are as before. -/
def SameFiles (k k' : FsKernel) : Prop := k'.vfs = k.vfs ∧ k'.lfs = k.lfs ∧ k'.cache = k.cache

theorem SameFiles.call {α : Type} (h : k.SameFiles k') (p : VfsM ρ ω α) : (k.call p).2.SameFiles (k'.call p).2 := by
  obtain ⟨hv, hl, hc⟩ := h
  simp only [SameFiles, FsKernel.call, hv, hl, hc, and_self]

theorem SameFiles.trans {k'' : FsKernel} (h : k.SameFiles k') (h' : k'.SameFiles k'') : k.SameFiles k'' :=
  ⟨h'.1.trans h.1, h'.2.1.trans h.2.1, h'.2.2.trans h.2.2⟩

section Calls
attribute [local irreducible] call

theorem Tracks.call (hk : k.Tracks) {α : Type} {p : VfsM ρ ω α} (hv : TableStep k.vfs (k.call p).2.vfs)
    (hfree : (k.call p).2.vfs ≠ k.vfs → k.FreeSlotUnheld) : (k.call p).2.Tracks :=
  hk.of_tableStep hv (.of_tasks (call_tasks p)) fun he => hfree fun h => he (by rw [h])

theorem Tracks.call_kept (hk : k.Tracks) {α : Type} {p : VfsM ρ ω α} (hv : Kept k.vfs (k.call p).2.vfs) :
    (k.call p).2.Tracks :=
  hk.of_kept hv (.of_tasks (call_tasks p))

theorem Tracks.own (hk : k.Tracks) (i : Nat) (mode : U16) : (k.own t i mode).Tracks :=
  hk.of_kept (own_kept i mode) (.of_tasks (by unfold FsKernel.own; split <;> rfl))

variable {mem : Memory} {raw : CStr}

section
variable (hk : k.Tracks)
include hk

theorem Tracks.openNode {path : CStr} {flags : U64}
    (hfree : flags &&& oCreat ≠ 0 → (∀ i, k.vfs.resolvePath path ≠ .ok i) → k.FreeSlotUnheld) :
    (k.openNode t path flags mem).2.Tracks := by
  unfold FsKernel.openNode
  split
  · exact hk
  rename_i e he
  split_ifs with hc hp
  · exact hk
  · exact hk
  have hcall : (k.call (vfsCreate path mem : VfsW _)).2.Tracks :=
    hk.call (call_ensures (vfsCreate_made mem)).step fun _ => hfree hc (by simp [he])
  dsimp only
  split
  · exact hcall
  · exact hcall.own _ _

theorem Tracks.openFifo (i : Nat) (acc : U64) : (k.openFifo t i acc).2.Tracks := by
  unfold FsKernel.openFifo
  dsimp only
  split
  · exact hk
  rename_i p _
  have hpipe : (if (k.vfs.nodes i).pipe.isSome then k
      else { k with
        pipes := update k.pipes p ({ used := true } : Pipe)
        vfs := k.vfs.modify i fun n => { n with pipe := some p } }).Tracks := by
    split
    · exact hk
    refine hk.of_kept ?_ (.of_tasks rfl)
    dsimp only
    exact .modify fun _ => rfl
  revert hpipe
  generalize (if (k.vfs.nodes i).pipe.isSome then k else _) = k'
  intro hpipe
  have hr := hpipe.install (t := t) i acc (some (p, decide (acc = oWronly ∨ acc = oRdwr)))
  split
  · exact hr
  · exact hr.of_kept (.refl _) (.of_tasks rfl)

section
variable {path : CStr} (hpath : k.userPath t raw = path)
include hpath

theorem Tracks.sysOpen {flags : U64} {text : Nat → Option ProcText} (hfree : flags &&& oCreat ≠ 0 →
      (∀ i, (k.refreshOnOpen path text).vfs.resolvePath path ≠ .ok i) → k.FreeSlotUnheld) :
    (k.sysOpen t (some raw) flags mem text).2.Tracks := by
  unfold FsKernel.sysOpen
  dsimp only
  rw [hpath]
  have hopen : ((k.refreshOnOpen path text).openNode t path flags mem).2.Tracks := by
    refine (hk.of_kept (refreshOnOpen_kept path text) (.of_tasks (refreshOnOpen_tasks path text))).openNode ?_
    intro hc hr i hi
    rw [refreshOnOpen_freeSlot] at hi
    have hheld := hfree hc hr i hi
    rwa [Held, refreshOnOpen_tasks]
  split
  · exact hopen
  rename_i i _
  split
  · exact hopen
  split
  · have htrunc := hopen.call_kept (truncate_touches i 0 mem).toKept
    split
    · exact htrunc.openFifo _ _
    · exact htrunc.install _ _ _
  · split
    · exact hopen.openFifo _ _
    · exact hopen.install _ _ _

variable (hfree : (∀ i, k.vfs.resolvePath path ≠ .ok i) → k.FreeSlotUnheld)
include hfree

theorem Tracks.sysCreate : (k.sysCreate t (some raw) mem).2.Tracks := by
  unfold FsKernel.sysCreate
  dsimp only
  rw [hpath]
  have hcall : (k.call (vfsCreate path mem : VfsW _)).2.Tracks :=
    hk.call (call_ensures (vfsCreate_made mem)).step fun h => hfree fun i hi => h ((creation_of_resolves hi).1 mem)
  split_ifs
  · exact hk
  · exact hk
  · exact hk
  split
  · exact hcall
  · exact (hcall.own _ _).install _ _ _

theorem Tracks.sysMkdir : (k.sysMkdir t (some raw)).2.Tracks := by
  unfold FsKernel.sysMkdir
  dsimp only
  rw [hpath]
  have hcall : (k.call (vfsMkdir path : VfsW _)).2.Tracks :=
    hk.call (call_ensures vfsMkdir_made).step fun h => hfree fun i hi => h (creation_of_resolves hi).2.1
  split_ifs
  · exact hk
  · exact hk
  split
  · exact hcall
  · exact hcall.own _ _

theorem Tracks.sysSymlink {target : CStr} : (k.sysSymlink t (some target) (some raw) mem).2.Tracks := by
  unfold FsKernel.sysSymlink
  dsimp only
  rw [hpath]
  have hmade := call_ensures (@vfsSymlink_made false true k.vfs path (target.take (maxPath - 1)) mem)
  have hcall := hk.call hmade.step fun h => hfree fun i hi => h ((creation_of_resolves hi).2.2 _ mem)
  split_ifs
  · exact hk
  split
  · exact hcall
  · exact hcall

end

theorem Tracks.sysUnlink (raw : Option CStr) : (k.sysUnlink t raw).2.Tracks := by
  unfold FsKernel.sysUnlink
  split
  · exact hk
  dsimp only
  split_ifs
  · exact hk
  · exact hk
  · exact hk.call_kept (call_ensures vfsDelete_deleted).registrations

theorem Tracks.sysTruncate (raw : Option CStr) (newSize : Nat) (mem : Memory) :
    (k.sysTruncate t raw newSize mem).2.Tracks := by
  unfold FsKernel.sysTruncate
  split
  · exact hk
  dsimp only
  split_ifs
  · exact hk
  split
  · exact hk
  · exact hk.call_kept (truncate_touches _ newSize mem).toKept

theorem Tracks.sysMount (raw fstype : Option CStr) : (k.sysMount t raw fstype).2.Tracks := by
  unfold FsKernel.sysMount
  split
  · split_ifs
    · exact hk
    · exact hk.of_kept (Vfs.mount_kept _ _ _) (.of_tasks rfl)
  · exact hk

theorem Tracks.sysUmount (raw : Option CStr) : (k.sysUmount t raw).2.Tracks := by
  unfold FsKernel.sysUmount
  split
  · exact hk
  split_ifs
  · exact hk
  · exact hk.of_kept (Vfs.umount_kept _ _) (.of_tasks rfl)

end

theorem fileTarget_node {refused : U64} {fd' : Nat} (h : k.fileTarget t fd refused = .node fd' i) :
    fd' = fd ∧ ((k.tasks t).fds fd).node = some i := by
  unfold fileTarget at h
  dsimp only at h
  split at h
  · cases h
  split at h
  · cases h
  split at h
  · cases h
  · cases h
    exact ⟨rfl, by assumption⟩

/-- A call on `fd` is one on `fd'`: on `fd` itself, or on `tty` if `fd` is open on `/dev/tty`. -/
def StandsFor (k : FsKernel) (t fd tty fd' : Nat) : Prop :=
  fd' = fd ∨ fd' = tty ∧ ∃ n, k.fdDevice t fd = some n ∧ n.diskInode = some devTty

theorem fdTarget_node {refused : U64} {tty fd' : Nat} (h : k.fdTarget t fd tty refused = .node fd' i)
    (hfd : fd < maxFds) (htty : tty < maxFds) :
    fd' < maxFds ∧ k.StandsFor t fd tty fd' ∧ ((k.tasks t).fds fd').node = some i := by
  unfold fdTarget at h
  split at h
  · obtain ⟨rfl, hi⟩ := fileTarget_node h
    exact ⟨hfd, .inl rfl, hi⟩
  split at h
  · cases h
  next n hn hdev =>
    obtain ⟨rfl, hi⟩ := fileTarget_node h
    exact ⟨htty, .inr ⟨rfl, n, hn, not_not.mp fun hne => hdev (.inl hne)⟩, hi⟩

theorem readTarget_node {fd' : Nat} (h : k.readTarget t fd = .node fd' i) :
    fd' < maxFds ∧ k.StandsFor t fd 0 fd' ∧ ((k.tasks t).fds fd').node = some i := by
  unfold readTarget at h
  split_ifs at h with hfd
  exact fdTarget_node h (Nat.not_le.mp hfd) (by decide)

theorem writeTarget_node {fd' : Nat} (h : k.writeTarget t fd = .node fd' i) :
    fd' < maxFds ∧ k.StandsFor t fd 1 fd' ∧ ((k.tasks t).fds fd').node = some i := by
  unfold writeTarget at h
  split_ifs at h with hfd
  exact fdTarget_node h (Nat.not_le.mp hfd) (by decide)

theorem Tracks.sysRead (hk : k.Tracks) (len : Nat) (bufOk : Bool) : (k.sysRead t fd len bufOk).2.Tracks := by
  unfold FsKernel.sysRead
  split_ifs
  · exact hk
  · exact hk
  · exact hk
  split
  · exact hk
  · exact hk
  rename_i fd' i htarget
  have hcall : (k.call (vfsRead i ((k.tasks t).fds fd').offset len : VfsR _)).2.Tracks :=
    hk.call_kept (vfsRead_vfs i _ len ▸ .refl _)
  dsimp only
  split
  · exact hcall
  · exact hcall.advance (readTarget_node htarget).1 _

theorem Tracks.sysFwrite (hk : k.Tracks) (src : Buf) (len : Nat) (bufOk : Bool) (mem : Memory) :
    (k.sysFwrite t fd src len bufOk mem).2.Tracks := by
  unfold FsKernel.sysFwrite
  split_ifs
  · exact hk
  · exact hk
  · exact hk
  split
  · exact hk
  · exact hk
  rename_i fd' i htarget
  have hfd' := (writeTarget_node htarget).1
  have happend : (if ((k.tasks t).fds fd').openFlags &&& oAppend ≠ 0 then
      k.setFd t fd' { (k.tasks t).fds fd' with offset := (k.vfs.nodes i).size } else k).Tracks := by
    split
    · exact hk.setFd fun j hj => hk t fd' j hfd' hj
    · exact hk
  revert happend
  dsimp only
  generalize (if ((k.tasks t).fds fd').openFlags &&& oAppend ≠ 0 then k.setFd t fd' _ else k) = k'
  intro hk'
  have hcall := hk'.call_kept (vfsWrite_touches i ((k'.tasks t).fds fd').offset src len mem).toKept
  split
  · exact hcall
  · exact hcall.advance hfd' _

theorem Tracks.sysFtruncate (hk : k.Tracks) (length : Nat) (mem : Memory) : (k.sysFtruncate t fd length mem).2.Tracks := by
  unfold FsKernel.sysFtruncate
  split
  · exact hk
  split_ifs
  · exact hk
  · exact hk.call_kept (truncate_touches _ length mem).toKept

theorem Tracks.sysClose (hk : k.Tracks) : (k.sysClose t fd).2.Tracks := by
  unfold FsKernel.sysClose
  dsimp only
  split_ifs
  · exact hk
  · exact hk
  refine Tracks.of_kept (k := k.setFd t fd {}) (hk.setFd ?_) (.refl _) (.of_tasks rfl)
  intro i hi
  cases hi

/-- The call is to create a node at a path that has none. -/
def creates (k : FsKernel) : Nat × Op → Prop
  | (t, .open (some raw) flags _ text) =>
    let path := k.userPath t raw
    flags &&& oCreat ≠ 0 ∧ ∀ i, (k.refreshOnOpen path text).vfs.resolvePath path ≠ .ok i
  | (t, .create (some raw) _) | (t, .mkdir (some raw)) | (t, .symlink _ (some raw) _) =>
    ∀ i, k.vfs.resolvePath (k.userPath t raw) ≠ .ok i
  | _ => False

/-- A call that creates a node takes a slot to which no descriptor points. -/
def takesUnheld (k : FsKernel) (op : Nat × Op) : Prop := k.creates op → k.FreeSlotUnheld

theorem Tracks.step {op : Nat × Op} (hk : k.Tracks) (hop : k.takesUnheld op) : (k.step op).Tracks := by
  obtain ⟨t, op⟩ := op
  cases op with
  | «open» raw flags mem text =>
    cases raw with
    | none => exact hk
    | some raw => exact hk.sysOpen rfl fun hc hr => hop ⟨hc, hr⟩
  | create raw mem =>
    cases raw with
    | none => exact hk
    | some raw => exact hk.sysCreate rfl hop
  | unlink raw => exact hk.sysUnlink raw
  | mkdir raw =>
    cases raw with
    | none => exact hk
    | some raw => exact hk.sysMkdir rfl hop
  | symlink target raw mem =>
    cases target with
    | none => exact hk
    | some target =>
      cases raw with
      | none => exact hk
      | some raw => exact hk.sysSymlink rfl hop
  | truncate raw newSize mem => exact hk.sysTruncate raw newSize mem
  | mount raw fstype => exact hk.sysMount raw fstype
  | umount raw => exact hk.sysUmount raw
  | read fd len bufOk => exact hk.sysRead len bufOk
  | fwrite fd src len bufOk mem => exact hk.sysFwrite src len bufOk mem
  | ftruncate fd length mem => exact hk.sysFtruncate length mem
  | close fd => exact hk.sysClose

theorem sysRead_bytes {len : Nat} {bufOk : Bool} {bs : List UInt8} (h : (k.sysRead t fd len bufOk).1 = .bytes bs) :
    bs = [] ∨ ∃ fd' i, k.readTarget t fd = .node fd' i ∧
      (k.call (vfsRead i ((k.tasks t).fds fd').offset len : VfsR _)).1 = .ok bs := by
  unfold FsKernel.sysRead at h
  split_ifs at h
  · cases h
    exact .inl rfl
  split at h
  · cases h
  · cases h
  rename_i fd' i htarget
  dsimp only at h
  split at h
  · cases h
  rename_i bs' hbs
  cases h
  exact .inr ⟨fd', i, htarget, hbs⟩

theorem sysFwrite_files (t fd : Nat) (src : Buf) (len : Nat) (bufOk : Bool) (mem : Memory) :
    k.SameFiles (k.sysFwrite t fd src len bufOk mem).2 ∨ ∃ fd' i offset, k.writeTarget t fd = .node fd' i ∧
      (k.call (vfsWrite i offset src len mem : VfsW _)).2.SameFiles (k.sysFwrite t fd src len bufOk mem).2 := by
  unfold FsKernel.sysFwrite
  split_ifs
  · exact .inl ⟨rfl, rfl, rfl⟩
  · exact .inl ⟨rfl, rfl, rfl⟩
  · exact .inl ⟨rfl, rfl, rfl⟩
  split
  · exact .inl ⟨rfl, rfl, rfl⟩
  · exact .inl ⟨rfl, rfl, rfl⟩
  rename_i fd' i htarget
  have happend : k.SameFiles (if ((k.tasks t).fds fd').openFlags &&& oAppend ≠ 0 then
      k.setFd t fd' { (k.tasks t).fds fd' with offset := (k.vfs.nodes i).size } else k) := by
    split <;> exact ⟨rfl, rfl, rfl⟩
  revert happend
  dsimp only
  generalize (if ((k.tasks t).fds fd').openFlags &&& oAppend ≠ 0 then k.setFd t fd' _ else k) = k'
  intro hk'
  refine .inr ⟨fd', i, ((k'.tasks t).fds fd').offset, htarget, (hk'.call _).trans ?_⟩
  split <;> exact ⟨rfl, rfl, rfl⟩

theorem sysFstat_ok {bufOk : Bool} {st : LinuxStat} (h : k.sysFstat t fd bufOk = .ok st) :
    ∃ i ino, k.descriptorNode t fd = some i ∧ st = fillLinuxStat (k.vfs.nodes i) ino := by
  unfold sysFstat at h
  split_ifs at h
  split at h
  · cases h
  rename_i i hi
  cases h
  exact ⟨i, _, hi, rfl⟩

theorem Tracks.descriptorNode (hk : k.Tracks) (h : k.descriptorNode t fd = some i) : k.Denotes t fd i := by
  unfold FsKernel.descriptorNode at h
  split_ifs at h with hfd
  exact hk.denotes (Nat.not_le.mp hfd) h

/-- In a run that creates nodes only in slots that no descriptor holds, a call on a descriptor reads, writes, truncates
    and describes the file that it was opened on. -/
theorem descriptors_keep_files {k : FsKernel} (hk : ∀ t fd, ((k.tasks t).fds fd).node = none)
    {ops : List (Nat × Op)} (hops : Guarded step takesUnheld k ops) (t fd : Nat) : let k' := run step k ops
    (∀ len bufOk bs, (k'.sysRead t fd len bufOk).1 = .bytes bs →
      bs = [] ∨ ∃ fd' i, k'.StandsFor t fd 0 fd' ∧ k'.Denotes t fd' i ∧
        (k'.call (vfsRead i ((k'.tasks t).fds fd').offset len : VfsR _)).1 = .ok bs) ∧
    (∀ src len bufOk mem, let k'' := (k'.sysFwrite t fd src len bufOk mem).2
      k'.SameFiles k'' ∨ ∃ fd' i offset, k'.StandsFor t fd 1 fd' ∧ k'.Denotes t fd' i ∧ Touches i k'.vfs k''.vfs ∧
        (k'.call (vfsWrite i offset src len mem : VfsW _)).2.SameFiles k'') ∧
    (∀ length mem, let k'' := (k'.sysFtruncate t fd length mem).2
      k'.SameFiles k'' ∨ ∃ i, k'.Denotes t fd i ∧ Touches i k'.vfs k''.vfs ∧
        k'' = (k'.call (vfsTruncateNode i length mem : VfsW _)).2) ∧
    ∀ bufOk st, k'.sysFstat t fd bufOk = .ok st →
      ∃ i ino, k'.Denotes t fd i ∧ st = fillLinuxStat (k'.vfs.nodes i) ino := by
  intro k'
  have htracks : k'.Tracks := hops.invariant (fun _ _ hs hop => hs.step hop) fun t fd i _ hi => by
    rw [hk] at hi
    cases hi
  refine ⟨fun len bufOk bs h => ?_, fun src len bufOk mem => ?_, fun length mem => ?_, fun bufOk st h => ?_⟩
  · rcases sysRead_bytes h with hnil | ⟨fd', i, htarget, hbs⟩
    · exact .inl hnil
    · obtain ⟨hfd', hfor, hi⟩ := readTarget_node htarget
      exact .inr ⟨fd', i, hfor, htracks.denotes hfd' hi, hbs⟩
  · rcases k'.sysFwrite_files t fd src len bufOk mem with hsame | ⟨fd', i, offset, htarget, hfiles⟩
    · exact .inl hsame
    · obtain ⟨hfd', hfor, hi⟩ := writeTarget_node htarget
      exact .inr ⟨fd', i, offset, hfor, htracks.denotes hfd' hi, hfiles.1 ▸ vfsWrite_touches i offset src len mem, hfiles⟩
  · unfold sysFtruncate
    split
    · exact .inl ⟨rfl, rfl, rfl⟩
    rename_i i hi
    split
    · exact .inl ⟨rfl, rfl, rfl⟩
    · exact .inr ⟨i, htracks.descriptorNode hi, truncate_touches i length mem, rfl⟩
  · obtain ⟨i, ino, hi, hst⟩ := sysFstat_ok h
    exact ⟨i, ino, htracks.descriptorNode hi, hst⟩

end Calls

def booted : FsKernel where
  cache := .blank
  tasks := fun _ => { proc := { capabilities := 0xFFFFFFFF } }

def zeroed : Memory := some fun _ => 0

/-- Task 1 opens `/a`, task 2 deletes it and creates `/b` with three bytes: they are what task 1 reads. -/
theorem slot_reused_under_descriptor :
    let k := run step booted [(1, .create (some [slash, 97]) zeroed), (2, .unlink (some [slash, 97])),
      (2, .create (some [slash, 98]) zeroed), (2, .fwrite 0 (fun _ => 120) 3 true zeroed)]
    (k.sysRead 1 0 3 true).1 = .bytes [120, 120, 120] ∧ k.readTarget 1 0 = .node 0 1 ∧
      (k.vfs.nodes 1).name = [98] ∧ (k.vfs.nodes 1).event = 2 ∧ ((k.tasks 1).fds 0).event = 1 := by
  refine ⟨rfl, rfl, rfl, rfl, rfl⟩

theorem booted_unheld (i : Nat) : ¬booted.Held i := by
  rintro ⟨t, fd, _, h⟩
  cases h

def closeFirst : List (Nat × Op) :=
  [(1, .create (some [slash, 97]) zeroed), (2, .unlink (some [slash, 97])), (1, .close 0),
    (2, .create (some [slash, 98]) zeroed), (2, .fwrite 0 (fun _ => 120) 3 true zeroed),
    (1, .open (some [slash, 98]) 0 zeroed fun _ => none)]

theorem closeFirst_guarded : Guarded step takesUnheld booted closeFirst := by
  refine ⟨fun _ i _ => booted_unheld i, fun h => h.elim, fun h => h.elim, fun _ i _ => ?_, fun h => h.elim,
    fun h => absurd rfl h.1, trivial⟩
  rintro ⟨t, fd, _, h⟩
  match t, fd with
  | 0, fd | 1, 0 | 1, fd + 1 | t + 2, fd => cases h

theorem closeFirst_reads_written : let k := run step booted closeFirst
    (k.sysRead 1 0 3 true).1 = .bytes [120, 120, 120] ∧ ∃ fd' i, k.StandsFor 1 0 0 fd' ∧ k.Denotes 1 fd' i ∧
      (k.call (vfsRead i ((k.tasks 1).fds fd').offset 3 : VfsR _)).1 = .ok [120, 120, 120] :=
  ⟨rfl, ((descriptors_keep_files (fun _ _ => rfl) closeFirst_guarded 1 0).1 3 true _ rfl).resolve_left (by decide)⟩

end FsKernel

end Limnx
