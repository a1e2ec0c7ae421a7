import Limnx.Theorems.VfsTree

/-! The test of a creating call follows links and reads components of at most 255 bytes, so the name may be taken
    although the path does not resolve (`Vfs.Hides`). -/

namespace Limnx
open Function GuardedRun ParentTree Vfs

namespace Vfs
variable {v w : Vfs} {i j p c cur : Nat} {path base : CStr}

/-- The table is a tree, and no two used nodes have one parent and one name. -/
structure Named (v : Vfs) : Prop where
  tree : v.Tree
  unique : ∀ i j, (v.nodes i).used = true → (v.nodes j).used = true → v.parentOf i = v.parentOf j →
    (v.nodes i).name = (v.nodes j).name → i = j

theorem init_named : Named init := by
  have hzero : ∀ i, (init.nodes i).used → i = 0 := fun i hi => Nat.lt_one_iff.mp (init_tree.bound i hi)
  exact ⟨init_tree, fun i j hi hj _ _ => (hzero i hi).trans (hzero j hj).symm⟩

theorem Named.findChild (h : v.Named) (hi : (v.nodes i).used) (hp : v.parentOf i = some p) :
    v.findChild p (v.nodes i).name = some i := by
  cases hc : v.findChild p (v.nodes i).name with
  | none =>
    have hno := List.find?_eq_none.mp hc i (List.mem_range.mpr (h.tree.bound i hi))
    simp only [parentOf] at hp
    simp [hi, hp] at hno
  | some c =>
    obtain ⟨hused, hparent, hname, -⟩ := findChild_some hc
    rw [h.unique c i hused hi (hparent.trans hp.symm) hname]

theorem Named.reached (h : v.Named) (hi : (v.nodes i).used) :
    ∃ names : List CStr, names.foldlM v.findChild 0 = some i := by
  have hup := h.tree.rooted i hi
  induction hup using Relation.ReflTransGen.head_induction_on with
  | refl => exact ⟨[], rfl⟩
  | @head a b hab _ ih =>
    obtain ⟨names, hnames⟩ := ih (h.tree.used_parent hi hab)
    refine ⟨names ++ [(v.nodes a).name], ?_⟩
    rw [List.foldlM_append, hnames]
    simp [h.findChild hi hab]

theorem Named.place (h : v.Named) (i p : Nat) (base : CStr) (htree : w.Tree) (hkeep : ∀ j ≠ i, w.nodes j = v.nodes j)
    (hparent : w.parentOf i = some p) (hname : (w.nodes i).name = base)
    (hfree : ∀ c, v.findChild p base = some c → c = i) : w.Named := by
  -- a node that stays and has the name is the one that the directory has under it
  have hother : ∀ j ≠ i, (w.nodes j).used → w.parentOf j = w.parentOf i → (w.nodes j).name ≠ (w.nodes i).name :=
    fun j hj hused hpar hn => by
      rw [parentOf, hkeep j hj, hparent] at hpar
      rw [hkeep j hj] at hused hn
      have hfind := h.findChild hused hpar
      rw [hn, hname] at hfind
      exact hj (hfree j hfind)
  refine ⟨htree, fun a b ha hb hpar hn => ?_⟩
  by_cases hai : a = i
  · by_contra hab
    subst hai
    exact hother b (Ne.symm hab) hb hpar.symm hn.symm
  obtain rfl | hbi := eq_or_ne b i
  · exact absurd hn (hother a hai ha hpar)
  simp only [parentOf, hkeep a hai, hkeep b hbi] at ha hb hpar hn
  exact h.unique a b ha hb hpar hn

/-- The path does not resolve, although its last component is the name of `c` in the directory that the part before
    it resolves to. -/
def Hides (v : Vfs) (path : CStr) (c : Nat) : Prop :=
  (∃ e, v.resolvePath path = .error e) ∧
    ∃ p, v.resolvePath (pathSplit path).1 = .ok p ∧ v.findChild p (pathSplit path).2 = some c

theorem pathSplit_length (path : CStr) : (pathSplit path).2.length ≤ maxPath - 1 := by
  unfold pathSplit
  split <;> exact List.length_take_le _ _

theorem newEntry_hides (hr : v.newEntry path = .ok (p, base)) (hc : v.findChild p base = some c) : v.Hides path c := by
  obtain ⟨hp, hbase, -⟩ := newEntry_ok hr
  subst hbase
  refine ⟨?_, p, hp, hc⟩
  cases hres : v.resolvePath path with
  | error e => exact ⟨e, rfl⟩
  | ok n =>
    rw [newEntry, hres] at hr
    cases hr

theorem not_hides (hp : v.resolvePath (pathSplit path).1 = .ok p) (hfree : v.findChild p (pathSplit path).2 = none) :
    ∀ c, ¬v.Hides path c := by
  rintro c ⟨-, q, hq, hc⟩
  cases hp.symm.trans hq
  cases hfree.symm.trans hc

theorem newEntry_base (hr : v.newEntry path = .ok (p, base)) : base.take (maxPath - 1) = base := by
  rw [(newEntry_ok hr).2.1]
  exact List.take_of_length_le (pathSplit_length path)

theorem Named.makes (h : v.Named) {type : NodeType} {r : VfsResult} (hm : v.Made path type r w)
    (hfree : ∀ c, ¬v.Hides path c) : w.Named := by
  have htree := (h.tree.makes hm).tree
  cases hm with
  | failed e => exact h
  | @made p i size base data f u hentry hreg hf =>
    obtain ⟨-, hkeep, -, hname, -, hparent⟩ := registerNode_some hreg
    have hnode : (u.modify i f).nodes i = f (u.nodes i) := update_self _ _ _
    refine h.place i p base htree (fun j hj => (update_of_ne hj _ _).trans (hkeep j hj)) ?_ ?_ ?_
    · rw [parentOf, hnode, (hf _).2.2]
      exact hparent
    · rw [hnode, (hf _).1, hname, newEntry_base hentry]
    · exact fun c hc => absurd (newEntry_hides hentry hc) (hfree c)

theorem Named.moves (h : v.Named) {oldPath newPath : CStr} (hm : v.Moved oldPath newPath w) (htree : w.Tree)
    (hfree : ∀ i c, v.resolvePath oldPath = .ok i → v.Hides newPath c → c = i) : w.Named := by
  cases hm with
  | kept => exact h
  | @moved i p base hi hi0 hentry =>
    refine h.place i p base htree (fun j hj => update_of_ne hj _ _) ?_ ?_ ?_
    · simp only [parentOf, modify, update_self]
    · simp only [modify, update_self, newEntry_base hentry]
    · exact fun c hc => hfree i c hi (newEntry_hides hentry hc)

theorem Named.deletes (h : v.Named) (hd : v.Deleted path w) : w.Named := by
  have htree := h.tree.deletes hd
  cases hd with
  | kept => exact h
  | @cleared i hi hi0 hempty =>
    have hkeep : ∀ j, ((v.modify i cleared).nodes j).used → (v.modify i cleared).nodes j = v.nodes j := fun j hj => by
      obtain rfl | hji := eq_or_ne j i
      · simp [modify, cleared, VfsNode.used] at hj
      · exact update_of_ne hji _ _
    refine ⟨htree, fun a b ha hb hpar hn => ?_⟩
    simp only [parentOf, hkeep a ha, hkeep b hb] at ha hb hpar hn
    exact h.unique a b ha hb hpar hn

end Vfs

inductive PathOp where
  | create (path : CStr) (buf : Memory)
  | mkdir (path : CStr)
  | symlink (path target : CStr) (buf : Memory)
  | mkfifo (path : CStr)
  | rename (oldPath newPath : CStr)
  | delete (path : CStr)

def PathOp.table : PathOp → TableOp
  | .create path buf => .create path buf
  | .mkdir path => .mkdir path
  | .symlink path target buf => .symlink path target buf
  | .mkfifo path => .mkfifo path
  | .rename oldPath newPath => .rename oldPath newPath
  | .delete path => .delete path

/-- No new path hides an entry, other than the one that is moved. -/
def PathOp.KeepsNames (v : Vfs) : PathOp → Prop
  | .create path _ => ∀ c, ¬v.Hides path c
  | .mkdir path => ∀ c, ¬v.Hides path c
  | .symlink path _ _ => ∀ c, ¬v.Hides path c
  | .mkfifo path => ∀ c, ¬v.Hides path c
  | .rename oldPath newPath => ∀ i c, v.resolvePath oldPath = .ok i → v.Hides newPath c → c = i
  | .delete _ => True

theorem Vfs.Named.step {v : Vfs} (h : v.Named) {op : PathOp} (htree : op.table.KeepsTree v) (hop : op.KeepsNames v) :
    Ensures op.table.prog v fun _ w => w.Named := by
  cases op with
  | create path buf => exact ((vfsCreate_made buf).mono fun _ _ hw => h.makes hw hop).drop
  | mkdir path => exact (vfsMkdir_made.mono fun _ _ hw => h.makes hw hop).drop
  | symlink path target buf => exact ((vfsSymlink_made target buf).mono fun _ _ hw => h.makes hw hop).drop
  | mkfifo path => exact (vfsMkfifo_made.mono fun _ _ hw => h.makes hw hop).drop
  | rename oldPath newPath => exact (vfsRename_moved.mono fun _ _ hw => h.moves hw (h.tree.moves hw htree) hop).drop
  | delete path => exact (vfsDelete_deleted.mono fun _ _ hw => h.deletes hw).drop

namespace FsKernel

def pathStep (k : FsKernel) (op : PathOp) : FsKernel := k.tableStep op.table

/-- From `vfs_init` on, in every run of calls that keep the tree and whose new paths hide no entry, no two used nodes
    have one parent and one name, and every used node is what its name stands for in its directory and is reached from
    the root by names. -/
theorem names_unique (k : FsKernel) (hinit : k.vfs = init) (ops : List PathOp)
    (hops : Guarded pathStep (fun k op => op.table.KeepsTree k.vfs ∧ op.KeepsNames k.vfs) k ops) :
    (∀ i j, ((run pathStep k ops).vfs.nodes i).used = true → ((run pathStep k ops).vfs.nodes j).used = true →
      (run pathStep k ops).vfs.parentOf i = (run pathStep k ops).vfs.parentOf j →
      ((run pathStep k ops).vfs.nodes i).name = ((run pathStep k ops).vfs.nodes j).name → i = j) ∧
    (∀ i p, ((run pathStep k ops).vfs.nodes i).used = true → (run pathStep k ops).vfs.parentOf i = some p →
      (run pathStep k ops).vfs.findChild p ((run pathStep k ops).vfs.nodes i).name = some i) ∧
    ∀ i, ((run pathStep k ops).vfs.nodes i).used = true →
      ∃ names : List CStr, names.foldlM (run pathStep k ops).vfs.findChild 0 = some i := by
  have hstep : ∀ (k : FsKernel) (op : PathOp), k.vfs.Named → op.table.KeepsTree k.vfs ∧ op.KeepsNames k.vfs →
      (k.pathStep op).vfs.Named := fun k op hk hop => call_ensures (hk.step hop.1 hop.2)
  have hnamed := hops.invariant hstep (hinit ▸ init_named)
  exact ⟨hnamed.unique, fun i p => hnamed.findChild, fun i => hnamed.reached⟩

def namedOps : List PathOp :=
  [.create [47, 97] (some fun _ => 0), .mkdir [47, 98], .rename [47, 97] [47, 98, 47, 97],
    .symlink [47, 108] [47, 98] (some fun _ => 0), .mkfifo [47, 108, 47, 102], .delete [47, 98, 47, 97]]

theorem namedOps_unique :
    (∀ i j, ((run pathStep fresh namedOps).vfs.nodes i).used = true → ((run pathStep fresh namedOps).vfs.nodes j).used = true →
      (run pathStep fresh namedOps).vfs.parentOf i = (run pathStep fresh namedOps).vfs.parentOf j →
      ((run pathStep fresh namedOps).vfs.nodes i).name = ((run pathStep fresh namedOps).vfs.nodes j).name → i = j) ∧
    (∀ i p, ((run pathStep fresh namedOps).vfs.nodes i).used = true → (run pathStep fresh namedOps).vfs.parentOf i = some p →
      (run pathStep fresh namedOps).vfs.findChild p ((run pathStep fresh namedOps).vfs.nodes i).name = some i) ∧
    ∀ i, ((run pathStep fresh namedOps).vfs.nodes i).used = true →
      ∃ names : List CStr, names.foldlM (run pathStep fresh namedOps).vfs.findChild 0 = some i := by
  refine names_unique fresh rfl namedOps ⟨⟨trivial, ?_⟩, ⟨trivial, ?_⟩, ⟨fun i p base hi _ hp => ?_, fun i c _ => ?_⟩,
    ⟨trivial, ?_⟩, ⟨trivial, ?_⟩, ⟨trivial, trivial⟩, trivial⟩
  · exact not_hides (p := 0) (by decide +kernel) (by decide +kernel)
  · exact not_hides (p := 0) (by decide +kernel) (by decide +kernel)
  · have hi' : (run pathStep fresh (namedOps.take 2)).vfs.resolvePath [47, 97] = .ok 1 := by decide +kernel
    have hp' : (run pathStep fresh (namedOps.take 2)).vfs.newEntry [47, 98, 47, 97] = .ok (2, [97]) := by decide +kernel
    cases hi.symm.trans hi'
    cases hp.symm.trans hp'
    have htwo : (run pathStep fresh (namedOps.take 2)).vfs.parentOf 2 = some 0 := by decide +kernel
    have htop : (run pathStep fresh (namedOps.take 2)).vfs.parentOf 0 = none := by decide +kernel
    exact not_up_of_top htwo htop (by decide) (by decide)
  · exact fun hc => absurd hc (not_hides (p := 2) (by decide +kernel) (by decide +kernel) c)
  · exact not_hides (p := 0) (by decide +kernel) (by decide +kernel)
  · exact not_hides (p := 2) (by decide +kernel) (by decide +kernel)

def danglingOps : List PathOp :=
  [.symlink [47, 108] [47, 120] (some fun _ => 0), .create [47, 108] (some fun _ => 0)]

theorem danglingOps_twice : ((run pathStep fresh danglingOps).vfs.nodes 1).used = true ∧
    ((run pathStep fresh danglingOps).vfs.nodes 2).used = true ∧
    (run pathStep fresh danglingOps).vfs.parentOf 1 = (run pathStep fresh danglingOps).vfs.parentOf 2 ∧
    ((run pathStep fresh danglingOps).vfs.nodes 1).name = ((run pathStep fresh danglingOps).vfs.nodes 2).name ∧
    (run pathStep fresh danglingOps).vfs.findChild 0 ((run pathStep fresh danglingOps).vfs.nodes 2).name = some 1 := by
  decide +kernel

end FsKernel

end Limnx
