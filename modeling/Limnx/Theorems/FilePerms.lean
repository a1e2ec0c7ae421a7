import Limnx.Theorems.Descriptors
import Limnx.Theorems.VfsFrame

/-! `Leaves` says that a call has left the file alone and given the process no descriptor to write it with. -/

namespace Limnx
open Function GuardedRun FsKernel LfsDisk

namespace FsKernel
variable {k k' k'' : FsKernel} {t i j : Nat} {mem : Memory} {path : CStr} {raw : CStr}
  {src : Buf} {flags : U64}

def plain (k : FsKernel) : VfsFs := ⟨k.vfs, fs ⟨k.lfs, k.cache⟩⟩

def contents (k : FsKernel) (i : Nat) : List UInt8 :=
  match (k.vfs.nodes i).diskInode with
  | some ino => k.plain.fs.file ino
  | none => (List.range (k.vfs.nodes i).size).map ((k.vfs.nodes i).data.getD fun _ => 0)

/-- If file `i` is on disk, then in a sound file system and in an inode of its own. -/
def Backed (k : FsKernel) (i : Nat) : Prop :=
  ∀ ino, (k.vfs.nodes i).diskInode = some ino → k.cache.Good ∧ k.plain.Alone i ino

theorem call_plain {ω : Bool} {α : Type} (p : VfsM false ω α) (h : k.cache.Good) :
    (k.call p).2.plain = (k.plain.call p).2 ∧ (k.call p).2.cache.Good := by
  obtain ⟨hval, hfs, hgood⟩ := run_exec (s := ⟨k.lfs, k.cache⟩) (p.run k.vfs) h
  refine ⟨?_, hgood⟩
  show VfsFs.mk (run (p.run k.vfs) ⟨k.lfs, k.cache⟩).1.2 (run (p.run k.vfs) ⟨k.lfs, k.cache⟩).2.fs = _
  rw [hval, hfs]
  rfl

structure Spares (i : Nat) (k k' : FsKernel) : Prop where
  node : k'.vfs.nodes i = k.vfs.nodes i
  count : k.vfs.nodeCount ≤ k'.vfs.nodeCount
  disk : k.Backed i → k'.Backed i ∧ k'.contents i = k.contents i

namespace Spares

theorem refl (i : Nat) (k : FsKernel) : Spares i k k := ⟨rfl, Nat.le_refl _, fun h => ⟨h, rfl⟩⟩

theorem trans (h : Spares i k k') (h' : Spares i k' k'') : Spares i k k'' := by
  refine ⟨h'.node.trans h.node, h.count.trans h'.count, fun hb => ?_⟩
  obtain ⟨hb', hc⟩ := h.disk hb
  obtain ⟨hb'', hc'⟩ := h'.disk hb'
  exact ⟨hb'', hc'.trans hc⟩

theorem of_files (h : k.SameFiles k') : Spares i k k' := by
  obtain ⟨hvfs, hlfs, hcache⟩ := h
  have hplain : k'.plain = k.plain := by rw [plain, plain, hvfs, hlfs, hcache]
  refine ⟨by rw [hvfs], by rw [hvfs], fun h => ⟨fun ino hino => ?_, ?_⟩⟩
  · rw [hcache, hplain]
    exact h ino (hvfs ▸ hino)
  · rw [contents, contents, hplain, hvfs]

theorem of_untouched (hnode : k'.vfs.nodes i = k.vfs.nodes i) (hcount : k.vfs.nodeCount ≤ k'.vfs.nodeCount)
    (hdisk : ∀ ino, (k.vfs.nodes i).diskInode = some ino → k.cache.Good → k.plain.Alone i ino →
      k'.cache.Good ∧ k'.plain.Alone i ino ∧ Untouched k.plain.fs k'.plain.fs ino) : Spares i k k' := by
  refine ⟨hnode, hcount, fun hb => ⟨fun ino hino => ?_, ?_⟩⟩
  · rw [hnode] at hino
    obtain ⟨hgood, halone, -⟩ := hdisk ino hino (hb ino hino).1 (hb ino hino).2
    exact ⟨hgood, halone⟩
  · rw [contents, contents, hnode]
    cases hino : (k.vfs.nodes i).diskInode with
    | none => rfl
    | some ino => exact (hdisk ino hino (hb ino hino).1 (hb ino hino).2).2.2.file

theorem modify (hj : j ≠ i) {f : VfsNode → VfsNode} (hf : ∀ n, (f n).type = n.type ∧ (f n).diskInode = n.diskInode) :
    Spares i k { k with vfs := k.vfs.modify j f } :=
  of_untouched (update_of_ne (Ne.symm hj) _ _) (Nat.le_refl _) fun _ _ hgood h =>
    ⟨hgood, { h with sole := h.sole.modify hf }, .refl _ _⟩

theorem call {α : Type} {p : VfsW α} (hnode : (k.call p).2.vfs.nodes i = k.vfs.nodes i)
    (hcount : k.vfs.nodeCount ≤ (k.call p).2.vfs.nodeCount)
    (hdisk : ∀ ino, (k.vfs.nodes i).diskInode = some ino → k.plain.Alone i ino →
      (k.plain.call p).2.Alone i ino ∧ Untouched k.plain.fs (k.plain.call p).2.fs ino) : Spares i k (k.call p).2 := by
  refine of_untouched hnode hcount fun ino hino hgood h => ?_
  obtain ⟨hplain, hgood'⟩ := call_plain p hgood
  obtain ⟨halone, hu⟩ := hdisk ino hino h
  exact ⟨hgood', hplain ▸ halone, hplain ▸ hu⟩

end Spares

/-- On a file of LimnFS, what the call does there is safe (`LfsOp.Safe`). -/
def LfsSafe (k : FsKernel) (i : Nat) (op : VfsOp) : Prop :=
  (k.vfs.nodes i).diskInode.isSome = true →
    ∀ lop, op.lfsOp k.vfs k.lfs.mounted = some lop → lop.Safe k.plain.fs

/-- `j` is no device node with the inode of `i`. -/
def NoAlias (k : FsKernel) (i j : Nat) : Prop :=
  (k.vfs.nodes j).type = .device → (k.vfs.nodes i).diskInode.isSome = true →
    (k.vfs.nodes j).diskInode ≠ (k.vfs.nodes i).diskInode

section Calls

theorem create_spares (hlt : i < k.vfs.nodeCount) (hused : (k.vfs.nodes i).used)
    (hsafe : k.LfsSafe i (.create path mem)) :
    Spares i k (k.call (vfsCreate path mem : VfsW _)).2 ∧
      (k.call (vfsCreate path mem : VfsW _)).1 ≠ .ok i := by
  have hmade : Ensures (vfsCreate path mem : VfsW _) k.vfs (k.vfs.Made path .file) := vfsCreate_made mem
  obtain ⟨hnode, hcount, hne⟩ := (call_ensures hmade).node hlt hused
  exact ⟨.call hnode hcount fun ino hino h => h.create hlt hused (hsafe (by rw [hino]; rfl)), hne⟩

theorem write_spares {offset len : Nat} (hj : j = i → (k.vfs.nodes i).writable = false) (hdev : k.NoAlias i j)
    (hsafe : k.LfsSafe i (.write j offset src len mem)) :
    Spares i k (k.call (vfsWrite j offset src len mem : VfsW _)).2 := by
  have hr := call_ensures (k := k) (vfsWrite_rewritten offset src len mem (i := j) (ρ := false))
  refine .call (hr.node fun hij => ?_) hr.count.ge fun ino hino h => h.write hj (fun htype => ?_) (hsafe (by rw [hino]; rfl))
  · rw [← hij]
    exact hj hij.symm
  · rw [← hino]
    exact hdev htype (by rw [hino]; rfl)

theorem truncate_spares {n : Nat} (hj : j = i → (k.vfs.nodes i).writable = false) :
    Spares i k (k.call (vfsTruncateNode j n mem : VfsW _)).2 := by
  have hr := call_ensures (k := k) (truncate_rewritten n mem (i := j) (ρ := false))
  refine .call (hr.node fun hij => ?_) hr.count.ge fun ino _ h => h.truncate hj
  rw [← hij]
  exact hj hij.symm

theorem chmod_spares {mode : U16} {stack : Inode}
    (hpath : ∀ j, k.vfs.resolvePath path = .ok j → j ≠ i ∧ k.NoAlias i j) :
    Spares i k (k.call (vfsChmod path mode stack : VfsW _)).2 := by
  have hc := call_ensures (k := k) (vfsChmod_chmodded path mode stack (ρ := false))
  have hnode : (k.call (vfsChmod path mode stack : VfsW _)).2.vfs.nodes i = k.vfs.nodes i ∧
      (k.call (vfsChmod path mode stack : VfsW _)).2.vfs.nodeCount = k.vfs.nodeCount := by
    generalize (k.call (vfsChmod path mode stack : VfsW _)).2.vfs = w at hc
    cases hc with
    | kept => exact ⟨rfl, rfl⟩
    | set hj => exact ⟨update_of_ne (Ne.symm (hpath _ hj).1) _ _, rfl⟩
  refine .call hnode.1 hnode.2.ge fun ino hino h => h.chmod fun j hj => ⟨(hpath j hj).1, fun htype => ?_⟩
  rw [← hino]
  exact (hpath j hj).2 htype (by rw [hino]; rfl)

theorem vfsRead_readsOnly (j offset len : Nat) (v : Vfs) : ReadsOnly ((vfsRead j offset len : VfsR _).run v) := by
  simp only [vfsRead, StateT.run_bind, StateT.run_get, pure_bind]
  split_ifs
  · exact .pure _
  · exact .pure _
  · exact .pure _
  · exact .pure _
  cases (v.nodes j).diskInode with
  | none => exact .pure _
  | some ino =>
    simp only [StateT.run_bind]
    refine .bind (.bind (.readData _ _ _) fun _ => .pure _) fun r => ?_
    obtain ⟨o, w⟩ := r
    cases o with
    | none | some bytes => exact .pure _

theorem read_spares (j offset len : Nat) : Spares i k (k.call (vfsRead j offset len : VfsR _)).2 := by
  have hvfs := vfsRead_vfs (k := k) j offset len
  refine .of_untouched (by rw [hvfs]) (by rw [hvfs]) fun ino hino hgood h => ?_
  obtain ⟨hfs, hgood'⟩ := run_readsOnly (s := ⟨k.lfs, k.cache⟩) (vfsRead_readsOnly j offset len k.vfs) hgood
  have hplain : (k.call (vfsRead j offset len : VfsR _)).2.plain = k.plain := congrArg₂ VfsFs.mk hvfs hfs
  rw [hplain]
  exact ⟨hgood', h, .refl _ _⟩

end Calls

/-! ### The file and the process -/

/-- The descriptors of `t` on node `i` are open for reading only. -/
def ReadersOnly (k : FsKernel) (t i : Nat) : Prop :=
  ∀ fd, fd < maxFds → ((k.tasks t).fds fd).node = some i → ((k.tasks t).fds fd).openFlags &&& oAccmode = oRdonly

/-- The file `i` is one that task `t` may not write, and cannot by a descriptor. -/
structure Protected (k : FsKernel) (t i : Nat) : Prop where
  lt : i < k.vfs.nodeCount
  used : (k.vfs.nodes i).used = true
  file : (k.vfs.nodes i).type = .file
  euid : (k.tasks t).proc.euid ≠ 0
  owner : (k.vfs.nodes i).uid ≠ (k.tasks t).proc.euid
  denied : checkFilePerm (k.tasks t).proc (k.vfs.nodes i) oWronly = false
  fds : (k.vfs.nodes i).writable = true → k.ReadersOnly t i

/-- The file `i`, the process and its lack of descriptors to write are as before. -/
structure Leaves (t i : Nat) (k k' : FsKernel) : Prop where
  spares : Spares i k k'
  proc : (k'.tasks t).proc = (k.tasks t).proc
  fds : (k.vfs.nodes i).writable = true → k.ReadersOnly t i → k'.ReadersOnly t i

theorem Protected.leaves (h : k.Protected t i) (hl : Leaves t i k k') : k'.Protected t i := by
  have hnode := hl.spares.node
  refine ⟨h.lt.trans_le hl.spares.count, ?_, ?_, ?_, ?_, ?_, fun hw => ?_⟩
  · rw [hnode]
    exact h.used
  · rw [hnode]
    exact h.file
  · rw [hl.proc]
    exact h.euid
  · rw [hnode, hl.proc]
    exact h.owner
  · rw [hnode, hl.proc]
    exact h.denied
  · rw [hnode] at hw
    exact hl.fds hw (h.fds hw)

namespace Leaves

theorem refl (t i : Nat) (k : FsKernel) : Leaves t i k k := ⟨.refl i k, rfl, fun _ h => h⟩

theorem trans (h : Leaves t i k k') (h' : Leaves t i k' k'') : Leaves t i k k'' := by
  refine ⟨h.spares.trans h'.spares, h'.proc.trans h.proc, fun hw hr => h'.fds ?_ (h.fds hw hr)⟩
  rw [h.spares.node]
  exact hw

theorem of_tasks (h : Spares i k k') (htasks : k'.tasks = k.tasks) : Leaves t i k k' :=
  ⟨h, by rw [htasks], fun _ hr => by rwa [ReadersOnly, htasks]⟩

theorem setFd {fd : Nat} {e : FdEntry}
    (he : (k.vfs.nodes i).writable → k.ReadersOnly t i → e.node = some i → e.openFlags &&& oAccmode = oRdonly) :
    Leaves t i k (k.setFd t fd e) := by
  refine ⟨.of_files ⟨rfl, rfl, rfl⟩, ?_, fun hw hr fd' hfd' hnode => ?_⟩
  · simp only [FsKernel.setFd, update_self]
  · simp only [FsKernel.setFd, update_self] at hnode ⊢
    obtain rfl | heq := eq_or_ne fd' fd
    · rw [update_self] at hnode ⊢
      exact he hw hr hnode
    · rw [update_of_ne heq] at hnode ⊢
      exact hr fd' hfd' hnode

theorem setOffset {fd : Nat} (hfd : fd < maxFds) (offset : Nat) :
    Leaves t i k (k.setFd t fd { (k.tasks t).fds fd with offset }) :=
  setFd fun _ hr hnode => hr fd hfd hnode

theorem advance {fd : Nat} (hfd : fd < maxFds) (n : Nat) : Leaves t i k (k.advance t fd n) := setOffset hfd _

theorem install {pipe : Option (Nat × Bool)} (h : j = i → (k.vfs.nodes i).writable → flags &&& oAccmode = oRdonly) :
    Leaves t i k (k.install t j flags pipe).2 := by
  unfold FsKernel.install
  split
  · exact .refl t i k
  refine setFd fun hw _ hnode => h ?_ hw
  split at hnode
  · exact Option.some.inj hnode
  · cases hnode

theorem own (hj : j ≠ i) (mode : U16) : Leaves t i k (k.own t j mode) := by
  unfold FsKernel.own
  split
  · exact .refl t i k
  · exact .of_tasks (.modify hj fun _ => ⟨rfl, rfl⟩) rfl

theorem openFifo (hj : j ≠ i) (acc : U64) : Leaves t i k (k.openFifo t j acc).2 := by
  unfold FsKernel.openFifo
  dsimp only
  split
  · exact .refl t i k
  rename_i p _
  have hpipe : Leaves t i k (if (k.vfs.nodes j).pipe.isSome then k
      else { k with
        pipes := update k.pipes p ({ used := true } : Pipe)
        vfs := k.vfs.modify j fun n => { n with pipe := some p } }) := by
    split
    · exact .refl t i k
    have hnode : Spares i k { k with vfs := k.vfs.modify j fun n => { n with pipe := some p } } :=
      .modify hj fun _ => ⟨rfl, rfl⟩
    exact .of_tasks (hnode.trans (.of_files ⟨rfl, rfl, rfl⟩)) rfl
  revert hpipe
  generalize (if (k.vfs.nodes j).pipe.isSome then k else _) = k'
  intro hpipe
  have hfd : Leaves t i k' (k'.install t j acc (some (p, decide (acc = oWronly ∨ acc = oRdwr)))).2 :=
    install fun h => absurd h hj
  have hinstall := hpipe.trans hfd
  split
  · exact hinstall
  · exact hinstall.trans (.of_tasks (.of_files ⟨rfl, rfl, rfl⟩) rfl)

end Leaves

theorem accmode_cases (flags : U64) : flags &&& oAccmode = oRdonly ∨ flags &&& oAccmode = oWronly ∨
    flags &&& oAccmode = oRdwr ∨ flags &&& oAccmode = oAccmode := by
  have hlt : (flags &&& oAccmode).toNat < 4 := Nat.lt_of_le_of_lt Nat.and_le_right (by decide)
  generalize flags &&& oAccmode = acc at hlt
  simp only [← BitVec.toNat_inj, show oRdonly.toNat = 0 from rfl, show oWronly.toNat = 1 from rfl,
    show oRdwr.toNat = 2 from rfl, show oAccmode.toNat = 3 from rfl]
  omega

theorem checkFilePerm_rdwr {p : Process} {n : VfsNode} (h : checkFilePerm p n oWronly = false) :
    checkFilePerm p n oRdwr = false := by
  unfold checkFilePerm at h ⊢
  simp only [oRdonly, oWronly, oRdwr, Bool.or_eq_false_iff] at h ⊢
  refine ⟨h.1, ?_⟩
  have hbits := h.2
  simp at hbits ⊢
  exact fun _ => hbits

theorem openDenied_acc (h : k.Protected t i) {acc : U64} (hd : k.openDenied t path acc i = none) :
    acc ≠ oWronly ∧ acc ≠ oRdwr := by
  have hnode : k.vfs.getNode i = some (k.vfs.nodes i) := if_pos ⟨h.lt, h.used⟩
  have hperm : checkFilePerm (k.tasks t).proc (k.vfs.nodes i) acc := by
    unfold openDenied at hd
    dsimp only at hd
    rw [hnode] at hd
    split_ifs at hd with _ hr
    simp only [Bool.or_eq_true, not_or, Bool.not_eq_true', Bool.not_eq_false] at hr
    exact hr.2
  constructor
  · rintro rfl
    rw [h.denied] at hperm
    cases hperm
  · rintro rfl
    rw [checkFilePerm_rdwr h.denied] at hperm
    cases hperm

def InProcess (k : FsKernel) (i : Nat) : Prop :=
  ∃ d dir, k.vfs.procfsDir = some d ∧ k.vfs.parentOf dir = some d ∧ k.vfs.parentOf i = some dir

theorem setText_spares {dir : Nat} (hi : k.vfs.parentOf i ≠ some dir) (name text : CStr) :
    Spares i k { k with vfs := match k.vfs.findChild dir name with
      | some a => k.vfs.modify a fun n => n.setText text
      | none => k.vfs } := by
  cases hc : k.vfs.findChild dir name with
  | none => exact .refl i k
  | some a =>
    refine .modify (fun ha => hi ?_) fun n => (setText_same n text).2.2
    rw [← ha]
    exact (Vfs.findChild_some hc).2.1

theorem procfsRefresh_spares (hi : ¬k.InProcess i) (pidStr status cmdline : CStr) :
    Spares i k { k with vfs := k.vfs.procfsRefresh pidStr status cmdline } := by
  unfold Vfs.procfsRefresh
  cases hd : k.vfs.procfsDir with
  | none => exact .refl i k
  | some d =>
    rw [Option.bind_some]
    cases hdir : k.vfs.findChild d pidStr with
    | none => exact .refl i k
    | some dir =>
      have hparent : k.vfs.parentOf i ≠ some dir := fun h => hi ⟨d, dir, hd, (Vfs.findChild_some hdir).2.1, h⟩
      have hstatus := setText_spares hparent [115, 116, 97, 116, 117, 115] status
      dsimp only
      split
      · exact hstatus
      refine hstatus.trans (setText_spares ?_ [99, 109, 100, 108, 105, 110, 101] cmdline)
      rw [Vfs.parentOf, hstatus.node]
      exact hparent

def procPrefix : CStr := [slash, 112, 114, 111, 99, slash]

theorem refresh_leaves (hproc : procPrefix.isPrefixOf path → ¬k.InProcess i)
    (text : Nat → Option ProcText) : Leaves t i k (k.refreshOnOpen path text) := by
  refine .of_tasks ?_ (refreshOnOpen_tasks path text)
  unfold refreshOnOpen
  dsimp only
  split
  next hpre =>
    split
    · exact .refl i k
    split
    · exact .refl i k
    · exact procfsRefresh_spares (hproc hpre) _ _ _
  · exact .refl i k

theorem openNode_leaves (h : k.Protected t i) (hsafe : flags &&& oCreat ≠ 0 → k.LfsSafe i (.create path mem)) :
    Leaves t i k (k.openNode t path flags mem).2 ∧
      ((k.openNode t path flags mem).1 = .ok i → k.vfs.resolvePath path = .ok i) := by
  unfold openNode
  cases hr : k.vfs.resolvePath path with
  | ok j => exact ⟨.refl t i k, fun h => h⟩
  | error e =>
    dsimp only
    split_ifs with hc
    · exact ⟨.refl t i k, nofun⟩
    · exact ⟨.refl t i k, nofun⟩
    obtain ⟨hspares, hne⟩ := create_spares h.lt h.used (hsafe hc)
    have hl : Leaves t i k _ := .of_tasks hspares rfl
    split
    · exact ⟨hl, nofun⟩
    rename_i j hj
    have hji : j ≠ i := fun heq => hne (heq ▸ hj)
    exact ⟨hl.trans (.own hji _), fun h => absurd (Except.ok.inj h) hji⟩

/-- What opening a path must not ask for when it leads to a writable file that the process may not write. -/
def ReadFlags (flags : U64) : Prop :=
  flags &&& oAccmode ≠ oAccmode ∧ (flags &&& oTrunc ≠ 0 → flags &&& oAccmode ≠ oRdonly)

theorem sysOpen_leaves (h : k.Protected t i)
    {text : Nat → Option ProcText} (hproc : procPrefix.isPrefixOf (k.userPath t raw) → ¬k.InProcess i)
    (hflags : (k.refreshOnOpen (k.userPath t raw) text).vfs.resolvePath (k.userPath t raw) = .ok i →
      (k.vfs.nodes i).writable → ReadFlags flags)
    (hsafe : flags &&& oCreat ≠ 0 → (k.refreshOnOpen (k.userPath t raw) text).LfsSafe i (.create (k.userPath t raw) mem)) :
    Leaves t i k (k.sysOpen t (some raw) flags mem text).2 := by
  unfold sysOpen
  dsimp only
  have hrefresh := refresh_leaves (t := t) hproc text
  obtain ⟨hopen, hresolves⟩ := openNode_leaves (h.leaves hrefresh) hsafe
  have hnode := hrefresh.trans hopen
  generalize (k.refreshOnOpen (k.userPath t raw) text).openNode t (k.userPath t raw) flags mem = r at *
  obtain ⟨res, k1⟩ := r
  cases res with
  | error e => exact hnode
  | ok j =>
    dsimp only at hresolves hnode ⊢
    have h1 := h.leaves hnode
    split
    · exact hnode
    rename_i hd
    -- The file itself is opened for reading, without truncating it, or it is not writable.
    have hread : j = i → (k1.vfs.nodes i).writable → flags &&& oAccmode = oRdonly ∧ flags &&& oTrunc = 0 := by
      rintro rfl hw
      obtain ⟨hw1, hw2⟩ := openDenied_acc h1 hd
      rw [hnode.spares.node] at hw
      obtain ⟨hacc, htrunc⟩ := hflags (hresolves rfl) hw
      have hro : flags &&& oAccmode = oRdonly := by
        rcases accmode_cases flags with hc | hc | hc | hc
        · exact hc
        · exact absurd hc hw1
        · exact absurd hc hw2
        · exact absurd hc hacc
      exact ⟨hro, by_contra fun ht => htrunc ht hro⟩
    have htrunc : Leaves t i k1 (if flags &&& oTrunc ≠ 0 then (k1.call (vfsTruncateNode j 0 mem : VfsW _)).2 else k1) := by
      split
      next ht =>
        refine .of_tasks (truncate_spares fun hji => ?_) rfl
        by_contra hw
        exact ht (hread hji (by simpa using hw)).2
      · exact .refl t i k1
    generalize (if flags &&& oTrunc ≠ 0 then (k1.call (vfsTruncateNode j 0 mem : VfsW _)).2 else k1) = k2 at *
    have hleft := hnode.trans htrunc
    split
    next hfifo =>
      have hji : j ≠ i := fun heq => by
        rw [heq, (h.leaves hleft).file] at hfifo
        cases hfifo.1
      exact hleft.trans (.openFifo hji _)
    · refine hleft.trans (.install fun hji hw => ?_)
      rw [BitVec.and_assoc]
      rw [htrunc.spares.node] at hw
      exact (hread hji hw).1

/-! ### The other calls -/

theorem sysCreate_leaves (h : k.Protected t i)
    (hsafe : k.LfsSafe i (.create (k.userPath t raw) mem)) : Leaves t i k (k.sysCreate t (some raw) mem).2 := by
  unfold sysCreate
  dsimp only
  obtain ⟨hspares, hne⟩ := create_spares h.lt h.used hsafe
  have hl : Leaves t i k _ := .of_tasks hspares rfl
  split_ifs
  · exact .refl t i k
  · exact .refl t i k
  · exact .refl t i k
  split
  · exact hl
  rename_i j hj
  have hji : j ≠ i := fun heq => hne (heq ▸ hj)
  exact (hl.trans (.own hji _)).trans (.install fun heq => absurd heq hji)

def writePos (k : FsKernel) (t fd i : Nat) (append : U64) : Nat :=
  let e := (k.tasks t).fds fd
  if e.openFlags &&& append ≠ 0 then (k.vfs.nodes i).size else e.offset

theorem writeTarget_allows {fd fd' : Nat} (hw : k.writeTarget t fd = .node fd' j) :
    ((k.tasks t).fds fd').openFlags &&& oAccmode ≠ oRdonly ∧ (k.vfs.nodes j).type ≠ .device := by
  have hfile : ∀ fd, k.fdDevice t fd = none → k.fileTarget t fd oRdonly = .node fd' j →
      ((k.tasks t).fds fd').openFlags &&& oAccmode ≠ oRdonly ∧ (k.vfs.nodes j).type ≠ .device := fun fd hdev hf => by
    obtain ⟨rfl, hnode⟩ := fileTarget_node hf
    unfold fileTarget at hf
    dsimp only at hf
    rw [hnode] at hf
    dsimp only at hf
    unfold fdDevice at hdev
    rw [hnode, Option.bind_some] at hdev
    split_ifs at hf with hpipe hro
    split_ifs at hdev with hd
    exact ⟨fun heq => hro (.inl heq), hd⟩
  unfold writeTarget at hw
  split_ifs at hw
  unfold fdTarget at hw
  split at hw
  next hdev => exact hfile _ hdev hw
  split_ifs at hw with htty
  refine hfile _ ?_ hw
  rw [not_or] at htty
  exact Option.not_isSome_iff_eq_none.mp htty.2

theorem writeAt_leaves {fd len : Nat} {append : U64} (hfd : fd < maxFds)
    (hj : j = i → (k.vfs.nodes i).writable = false) (hdev : k.NoAlias i j)
    (hsafe : k.LfsSafe i (.write j (k.writePos t fd j append) src len mem)) :
    let k1 := if ((k.tasks t).fds fd).openFlags &&& append ≠ 0 then
        k.setFd t fd { (k.tasks t).fds fd with offset := (k.vfs.nodes j).size } else k
    let r := k1.call (vfsWrite j ((k1.tasks t).fds fd).offset src len mem : VfsW _)
    Leaves t i k r.2 ∧ ∀ n, Leaves t i k (r.2.advance t fd n) := by
  intro k1 r
  have hk1 : Leaves t i k k1 ∧ k.SameFiles k1 ∧ ((k1.tasks t).fds fd).offset = k.writePos t fd j append := by
    by_cases happ : ((k.tasks t).fds fd).openFlags &&& append ≠ 0
    · simp only [k1, writePos, if_pos happ]
      refine ⟨.setOffset hfd _, ⟨rfl, rfl, rfl⟩, ?_⟩
      simp only [setFd, update_self]
    · simp only [k1, writePos, if_neg happ]
      exact ⟨.refl t i k, ⟨rfl, rfl, rfl⟩, trivial⟩
  obtain ⟨hleaves, hfiles, hoffset⟩ := hk1
  have hr : Leaves t i k r.2 := by
    refine hleaves.trans (.of_tasks ?_ rfl)
    show Spares i k1 (k1.call (vfsWrite j ((k1.tasks t).fds fd).offset src len mem : VfsW _)).2
    rw [hoffset]
    obtain ⟨hvfs, hlfs, hcache⟩ := hfiles
    have hplain : k1.plain = k.plain := by rw [plain, plain, hvfs, hlfs, hcache]
    refine write_spares ?_ ?_ ?_
    · rw [hvfs]
      exact hj
    · unfold NoAlias
      rw [hvfs]
      exact hdev
    · unfold LfsSafe
      rw [hplain, hvfs, hlfs]
      exact hsafe
  exact ⟨hr, fun n => hr.trans (.advance hfd n)⟩

theorem sysFwrite_leaves (h : k.Protected t i) {fd len : Nat} {bufOk : Bool}
    (hsafe : ∀ fd' j, k.writeTarget t fd = .node fd' j →
      k.LfsSafe i (.write j (k.writePos t fd' j oAppend) src len mem)) :
    Leaves t i k (k.sysFwrite t fd src len bufOk mem).2 := by
  unfold sysFwrite
  split_ifs
  · exact .refl t i k
  · exact .refl t i k
  · exact .refl t i k
  cases htarget : k.writeTarget t fd with
  | error e | elsewhere => exact .refl t i k
  | node fd' j =>
    obtain ⟨hfd', -, hnode⟩ := writeTarget_node htarget
    obtain ⟨hmode, htype⟩ := writeTarget_allows htarget
    have hj : j = i → (k.vfs.nodes i).writable = false := by
      rintro rfl
      by_contra hw
      exact hmode (h.fds (by simpa using hw) fd' hfd' hnode)
    obtain ⟨hfail, hdone⟩ := writeAt_leaves (t := t) hfd' hj (fun hd => absurd hd htype) (hsafe fd' j htarget)
    dsimp only
    split
    · exact hfail
    · exact hdone _

theorem sysTruncate_leaves {newSize : Nat}
    (hpath : k.vfs.resolvePath (k.userPath t raw) = .ok i → (k.vfs.nodes i).writable = false) :
    Leaves t i k (k.sysTruncate t (some raw) newSize mem).2 := by
  unfold sysTruncate
  dsimp only
  split_ifs
  · exact .refl t i k
  split
  · exact .refl t i k
  next j hj => exact .of_tasks (truncate_spares fun hji => hpath (hji ▸ hj)) rfl

theorem sysFtruncate_leaves {fd length : Nat}
    (hfd : k.descriptorNode t fd = some i → (k.vfs.nodes i).writable = false) :
    Leaves t i k (k.sysFtruncate t fd length mem).2 := by
  unfold sysFtruncate
  split
  · exact .refl t i k
  rename_i j hj
  split_ifs
  · exact .refl t i k
  · exact .of_tasks (truncate_spares fun hji => hfd (hji ▸ hj)) rfl

theorem sysChmod_leaves (h : k.Protected t i) {mode : U16} {stack : Inode}
    (halias : ∀ j, k.vfs.resolvePath (k.userPath t raw) = .ok j → k.NoAlias i j) :
    Leaves t i k (k.sysChmod t (some raw) mode stack).2 := by
  unfold sysChmod
  dsimp only
  split
  · exact .refl t i k
  rename_i hd
  refine .of_tasks (chmod_spares fun j hj => ⟨?_, halias j hj⟩) rfl
  rintro rfl
  have hnode : k.vfs.getNode j = some (k.vfs.nodes j) := if_pos ⟨h.lt, h.used⟩
  unfold chmodDenied at hd
  rw [if_neg h.euid, hj] at hd
  dsimp only at hd
  rw [hnode] at hd
  dsimp only at hd
  rw [if_neg h.owner] at hd
  cases hd

/-! ### Submitted operations -/

theorem uringTarget_node {fd : Int} {fd' : Nat} (h : k.uringTarget t fd = .node fd' j) : fd' < maxFds := by
  unfold uringTarget at h
  split_ifs at h with hfd
  dsimp only at h
  split_ifs at h
  split at h
  · cases h
  split_ifs at h
  cases h
  omega

def uringStep (t : Nat) (k : FsKernel) (sqe : UringSqe) : FsKernel := (k.uringEntry t sqe).2

/-- A submitted write is not to the file, unless that is not writable, and not to a device with the number of its
    inode. -/
def EntryAllowed (t i : Nat) (k : FsKernel) (sqe : UringSqe) : Prop :=
  sqe.opcode = .write → sqe.bufOk = true → ∀ fd' j, k.uringTarget t sqe.fd = .node fd' j →
    (j = i → (k.vfs.nodes i).writable = false) ∧ k.NoAlias i j ∧
      k.LfsSafe i (.write j (k.writePos t fd' j 4) sqe.src sqe.len sqe.mem)

theorem uringDoRead_leaves (fd : Int) (len : Nat) : Leaves t i k (k.uringDoRead t fd len).2 := by
  unfold uringDoRead
  cases htarget : k.uringTarget t fd with
  | error e | elsewhere => exact .refl t i k
  | node fd' j =>
    have hr : Leaves t i k _ := .of_tasks (read_spares j ((k.tasks t).fds fd').offset len) rfl
    dsimp only
    split
    · exact hr
    · exact hr.trans (.advance (uringTarget_node htarget) _)

theorem uringStep_leaves {sqe : UringSqe} (h : EntryAllowed t i k sqe) : Leaves t i k (k.uringStep t sqe) := by
  unfold uringStep uringEntry
  cases hop : sqe.opcode with
  | nop | pollAdd | other => exact .refl t i k
  | read =>
    dsimp only
    split
    · exact uringDoRead_leaves _ _
    · exact .refl t i k
  | write =>
    dsimp only
    split
    next hbuf =>
      unfold uringDoWrite
      cases htarget : k.uringTarget t sqe.fd with
      | error e | elsewhere => exact .refl t i k
      | node fd' j =>
        obtain ⟨hj, halias, hsafe⟩ := h hop hbuf fd' j htarget
        obtain ⟨hfail, hdone⟩ := writeAt_leaves (t := t) (uringTarget_node htarget) hj halias hsafe
        dsimp only
        split
        · exact hfail
        · exact hdone _
    · exact .refl t i k

theorem uringSteps_leaves {sqes : List UringSqe} (h : Guarded (uringStep t) (EntryAllowed t i) k sqes) :
    Leaves t i k (run (uringStep t) k sqes) := by
  have hstep : ∀ k' sqe, Leaves t i k k' → EntryAllowed t i k' sqe → Leaves t i k (k'.uringStep t sqe) := fun _ _ hl hs =>
    hl.trans (uringStep_leaves hs)
  exact h.invariant hstep (.refl t i k)

theorem sysUringEnter_leaves {uringFd maxEntries : Nat} {sqes : List UringSqe} {ptrsOk : Bool}
    (h : Guarded (uringStep t) (EntryAllowed t i) k (sqes.take maxEntries)) :
    Leaves t i k (k.sysUringEnter t uringFd sqes maxEntries ptrsOk).2 := by
  unfold sysUringEnter
  split_ifs
  · exact .refl t i k
  · exact .refl t i k
  · exact .refl t i k
  · exact .refl t i k
  · exact uringSteps_leaves h

inductive FileCall
  | open (raw : Option CStr) (flags : U64) (mem : Memory) (text : Nat → Option ProcText)
  | create (raw : Option CStr) (mem : Memory)
  | fwrite (fd : Nat) (src : Buf) (len : Nat) (bufOk : Bool) (mem : Memory)
  | truncate (raw : Option CStr) (newSize : Nat) (mem : Memory)
  | ftruncate (fd length : Nat) (mem : Memory)
  | uringEnter (uringFd : Nat) (sqes : List UringSqe) (maxEntries : Nat) (ptrsOk : Bool)
  | chmod (raw : Option CStr) (mode : U16) (stack : Inode)

def fileStep (t : Nat) (k : FsKernel) : FileCall → FsKernel
  | .open raw flags mem text => (k.sysOpen t raw flags mem text).2
  | .create raw mem => (k.sysCreate t raw mem).2
  | .fwrite fd src len bufOk mem => (k.sysFwrite t fd src len bufOk mem).2
  | .truncate raw newSize mem => (k.sysTruncate t raw newSize mem).2
  | .ftruncate fd length mem => (k.sysFtruncate t fd length mem).2
  | .uringEnter uringFd sqes maxEntries ptrsOk => (k.sysUringEnter t uringFd sqes maxEntries ptrsOk).2
  | .chmod raw mode stack => (k.sysChmod t raw mode stack).2

/-- The call does not use what is left unchecked on file `i`. -/
def Checked (t i : Nat) (k : FsKernel) : FileCall → Prop
  | .open raw flags mem text => ∀ r, raw = some r →
    (procPrefix.isPrefixOf (k.userPath t r) = true → ¬k.InProcess i) ∧
    ((k.refreshOnOpen (k.userPath t r) text).vfs.resolvePath (k.userPath t r) = .ok i →
      (k.vfs.nodes i).writable = true → ReadFlags flags) ∧
    (flags &&& oCreat ≠ 0 → (k.refreshOnOpen (k.userPath t r) text).LfsSafe i (.create (k.userPath t r) mem))
  | .create raw mem => ∀ r, raw = some r → k.LfsSafe i (.create (k.userPath t r) mem)
  | .fwrite fd src len _ mem => ∀ fd' j, k.writeTarget t fd = .node fd' j →
    k.LfsSafe i (.write j (k.writePos t fd' j oAppend) src len mem)
  | .truncate raw _ _ => ∀ r, raw = some r → k.vfs.resolvePath (k.userPath t r) = .ok i → (k.vfs.nodes i).writable = false
  | .ftruncate fd _ _ => k.descriptorNode t fd = some i → (k.vfs.nodes i).writable = false
  | .uringEnter _ sqes maxEntries _ => Guarded (uringStep t) (EntryAllowed t i) k (sqes.take maxEntries)
  | .chmod raw _ _ => ∀ r, raw = some r → ∀ j, k.vfs.resolvePath (k.userPath t r) = .ok j → k.NoAlias i j

theorem fileStep_leaves (h : k.Protected t i) {c : FileCall} (hc : Checked t i k c) : Leaves t i k (k.fileStep t c) := by
  cases c with
  | «open» raw flags mem text =>
    cases raw with
    | none => exact .refl t i k
    | some raw =>
      obtain ⟨hproc, hflags, hsafe⟩ := hc raw rfl
      exact sysOpen_leaves h hproc hflags hsafe
  | create raw mem =>
    cases raw with
    | none => exact .refl t i k
    | some raw => exact sysCreate_leaves h (hc raw rfl)
  | fwrite fd src len bufOk mem => exact sysFwrite_leaves h hc
  | truncate raw newSize mem =>
    cases raw with
    | none => exact .refl t i k
    | some raw => exact sysTruncate_leaves (hc raw rfl)
  | ftruncate fd length mem => exact sysFtruncate_leaves hc
  | uringEnter uringFd sqes maxEntries ptrsOk => exact sysUringEnter_leaves hc
  | chmod raw mode stack =>
    cases raw with
    | none => exact .refl t i k
    | some raw => exact sysChmod_leaves h (hc raw rfl)

/-- A process without privilege that may not write a file and has no descriptor to write it leaves it as it is in every
    run of checked calls. -/
theorem unwritable_file_kept (k : FsKernel) (t i : Nat) (hlt : i < k.vfs.nodeCount) (hused : (k.vfs.nodes i).used = true)
    (hfile : (k.vfs.nodes i).type = .file) (heuid : (k.tasks t).proc.euid ≠ 0)
    (howner : (k.vfs.nodes i).uid ≠ (k.tasks t).proc.euid)
    (hdenied : checkFilePerm (k.tasks t).proc (k.vfs.nodes i) oWronly = false) (hfds : k.ReadersOnly t i)
    (hbacked : k.Backed i) (calls : List FileCall) (hcalls : Guarded (fileStep t) (Checked t i) k calls) :
    let k' := run (fileStep t) k calls
    k'.contents i = k.contents i ∧ (k'.vfs.nodes i).size = (k.vfs.nodes i).size ∧
      (k'.vfs.nodes i).mode = (k.vfs.nodes i).mode := by
  intro k'
  have hk : k.Protected t i := ⟨hlt, hused, hfile, heuid, howner, hdenied, fun _ => hfds⟩
  have hstep : ∀ k1 c, Leaves t i k k1 → Checked t i k1 c → Leaves t i k (k1.fileStep t c) := fun _ _ hl hc =>
    hl.trans (fileStep_leaves (hk.leaves hl) hc)
  have hl : Leaves t i k k' := hcalls.invariant hstep (.refl t i k)
  refine ⟨(hl.spares.disk hbacked).2, ?_, ?_⟩
  · rw [hl.spares.node]
  · rw [hl.spares.node]

def shared : FsKernel :=
  run step
    { cache := .blank
      tasks := fun t =>
        if t = 0 then { proc := { capabilities := 0xFFFFFFFF, umask := 0o22 } }
        else
          { proc := { euid := 1000, egid := 1000, capabilities := capFsRead ||| capFsWrite }
            fds := update (fun _ => {}) 5 { other := some .uring } } }
    [(0, .create (some [slash, 97]) zeroed), (0, .fwrite 0 (fun _ => 120) 3 true zeroed)]

theorem shared_readersOnly : shared.ReadersOnly 1 1 := by
  intro fd hfd hnode
  have hnone : ((shared.tasks 1).fds fd).node = none := by
    show (update (fun _ => ({} : FdEntry)) 5 { other := some .uring } fd).node = none
    by_cases h : fd = 5
    · rw [h, update_self]
    · rw [update_of_ne h]
  rw [hnone] at hnode
  cases hnode

theorem shared_backed : shared.Backed 1 := fun ino hino => by
  have hnone : (shared.vfs.nodes 1).diskInode = none := rfl
  rw [hnone] at hino
  cases hino

theorem truncate_unchecked :
    1 < shared.vfs.nodeCount ∧ (shared.vfs.nodes 1).used = true ∧ (shared.vfs.nodes 1).type = .file ∧
      (shared.tasks 1).proc.euid ≠ 0 ∧ (shared.vfs.nodes 1).uid ≠ (shared.tasks 1).proc.euid ∧
      checkFilePerm (shared.tasks 1).proc (shared.vfs.nodes 1) oWronly = false ∧ shared.ReadersOnly 1 1 ∧ shared.Backed 1 ∧
      (shared.tasks 1).proc.capabilities &&& (capFsRead ||| capFsWrite) = capFsRead ||| capFsWrite ∧
      shared.contents 1 = [120, 120, 120] ∧
      (run (fileStep 1) shared [.truncate (some [slash, 97]) 0 none]).contents 1 = [] :=
  ⟨by decide, by decide, by decide, by decide, by decide, by decide, shared_readersOnly, shared_backed, by decide,
    rfl, rfl⟩

def readingCalls : List FileCall :=
  [.open (some [slash, 97]) oRdonly none fun _ => none, .fwrite 0 (fun _ => 121) 1 true none,
    .uringEnter 5 [{ opcode := .read, fd := 0, len := 3 }] 16 true, .chmod (some [slash, 97]) 0o777 {}]

theorem readingCalls_checked : Guarded (fileStep 1) (Checked 1 1) shared readingCalls := by
  refine ⟨fun r hr => ?_, fun fd' j _ => ?_, ⟨fun h => (by cases h), trivial⟩, fun r hr j hj htype => ?_, trivial⟩
  · cases hr
    refine ⟨fun h => absurd h (by decide), fun _ _ => ⟨by decide, fun h => absurd rfl h⟩, fun h => absurd rfl h⟩
  · intro h
    cases h
  · intro h
    cases h

theorem readingCalls_kept : let k' := run (fileStep 1) shared readingCalls
    k'.contents 1 = shared.contents 1 ∧ (k'.vfs.nodes 1).size = (shared.vfs.nodes 1).size ∧
      (k'.vfs.nodes 1).mode = (shared.vfs.nodes 1).mode :=
  unwritable_file_kept shared 1 1 (by decide) (by decide) (by decide) (by decide) (by decide) (by decide)
    shared_readersOnly shared_backed readingCalls readingCalls_checked

end FsKernel

end Limnx
