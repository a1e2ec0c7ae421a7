import Limnx.Lib.GuardedRun
import Limnx.Lib.ParentTree
import Limnx.SysFs
import Limnx.Theorems.Unmount

/-! Every operation registers a node under a directory, moves one, or clears some; each keeps the tree when no used node
    loses its parent and none comes below itself. -/

namespace Limnx
open Function GuardedRun ParentTree Vfs VfsNode List BlockProg

/-- However the calls into LimnFS end, the result and the table are in `Q`. -/
structure Ensures {ρ ω : Bool} {α : Type} (p : VfsM ρ ω α) (v : Vfs) (Q : α → Vfs → Prop) : Prop where
  run : ∀ {σ : Type} (H : Handler Block σ) (lfs : Lfs) (s : σ),
    Q (run H ((p.run v).run lfs) s).1.1.1 (run H ((p.run v).run lfs) s).1.1.2

variable {f : VfsNode → VfsNode} {name : CStr} {oldPath newPath : CStr} {parent : Nat}

namespace Ensures
variable {ρ ω : Bool} {α β : Type} {v : Vfs} {p : VfsM ρ ω α} {Q Q' : α → Vfs → Prop} {R : β → Vfs → Prop}

theorem pure {a : α} (h : Q a v) : Ensures (pure a : VfsM ρ ω α) v Q := ⟨fun _ _ _ => h⟩

theorem mono (h : Ensures p v Q) (hQ : ∀ a w, Q a w → Q' a w) : Ensures p v Q' := ⟨fun H lfs s => hQ _ _ (h.run H lfs s)⟩

theorem bind {f : α → VfsM ρ ω β} (hp : Ensures p v Q) (hf : ∀ a w, Q a w → Ensures (f a) w R) :
    Ensures (p >>= f) v R := by
  refine ⟨fun H lfs s => ?_⟩
  simp only [StateT.run_bind, run_bind]
  exact (hf _ _ (hp.run H lfs s)).run H _ _

theorem bind_of {f : α → VfsM ρ ω β} {a : α} {w : Vfs} (hp : Ensures p v fun b x => b = a ∧ x = w)
    (hf : Ensures (f a) w R) : Ensures (p >>= f) v R :=
  hp.bind fun b x hb => by
    obtain ⟨rfl, rfl⟩ := hb
    exact hf

theorem get_bind {f : Vfs → VfsM ρ ω β} (h : Ensures (f v) v R) : Ensures (get >>= f) v R :=
  bind_of ⟨fun _ _ _ => ⟨rfl, rfl⟩⟩ h

theorem set_bind {w : Vfs} {f : PUnit → VfsM ρ ω β} (h : Ensures (f ⟨⟩) w R) : Ensures (set w >>= f) v R :=
  bind_of ⟨fun _ _ _ => ⟨rfl, rfl⟩⟩ h

theorem modify_pure {g : Vfs → Vfs} {Q : PUnit → Vfs → Prop} (h : Q ⟨⟩ (g v)) : Ensures (modify g : VfsM ρ ω PUnit) v Q :=
  ⟨fun _ _ _ => h⟩

theorem modify_bind {g : Vfs → Vfs} {f : PUnit → VfsM ρ ω β} (h : Ensures (f ⟨⟩) (g v) R) :
    Ensures ((modify g : VfsM ρ ω PUnit) >>= f) v R :=
  bind_of ⟨fun _ _ _ => ⟨rfl, rfl⟩⟩ h

theorem onLfs_bind {p : LfsM ρ ω α} {f : α → VfsM ρ ω β} (h : ∀ a, Ensures (f a) v R) : Ensures (onLfs p >>= f) v R := by
  have hp : Ensures (onLfs p) v fun _ x => x = v := ⟨fun H lfs s => by
    simp only [onLfs, StateT.run_lift, StateT.run_bind, run_bind, StateT.run_pure, run_pure]⟩
  refine hp.bind fun a x hx => ?_
  subst hx
  exact h a

theorem ite {c : Prop} [Decidable c] {q : VfsM ρ ω α} (hp : c → Ensures p v Q) (hq : ¬c → Ensures q v Q) :
    Ensures (if c then p else q) v Q := by
  split
  · exact hp ‹_›
  · exact hq ‹_›

theorem registerWith {type : NodeType} {size : Nat} {data : Memory}
    {Q : VfsResult → Vfs → Prop} (hfull : ∀ e, Q (.error e) v)
    (hnew : ∀ i w, v.registerNode parent name type size data = some (i, w) → Q (.ok i) (w.modify i f)) :
    Ensures (Limnx.registerWith parent name type size data f : VfsM ρ ω VfsResult) v Q := by
  refine get_bind ?_
  cases h : v.registerNode parent name type size data with
  | none => exact pure (hfull _)
  | some r => exact set_bind (pure (hnew r.1 r.2 h))

end Ensures

namespace Vfs
variable {v w : Vfs} {i j p : Nat} {data : Option Buf}

def parentOf (v : Vfs) (i : Nat) : Option Nat := (v.nodes i).parent

/-- Node `i` is a directory in use. -/
def IsDir (v : Vfs) (i : Nat) : Prop := (v.nodes i).used = true ∧ (v.nodes i).type = .directory

/-- Used nodes have directories as parents, and all lie below the root. -/
structure Tree (v : Vfs) : Prop where
  root : v.IsDir 0
  top : v.parentOf 0 = none
  count : 0 < v.nodeCount
  bound : ∀ i, (v.nodes i).used = true → i < v.nodeCount
  parent : ∀ i, (v.nodes i).used = true → i ≠ 0 → ∃ p, v.parentOf i = some p ∧ v.IsDir p
  rooted : ∀ i, (v.nodes i).used = true → Up v.parentOf i 0

theorem init_tree : Tree init := by
  have hfree : ∀ i ≠ 0, (init.nodes i).used = false := fun i hi => by
    simp [init, hi, used]
  have hzero : ∀ i, (init.nodes i).used → i = 0 := fun i hi => by
    by_contra hne
    rw [hfree i hne] at hi
    cases hi
  refine ⟨⟨rfl, rfl⟩, rfl, Nat.one_pos, fun i hi => ?_, fun i hi hne => absurd (hzero i hi) hne, fun i hi => ?_⟩
  · rw [hzero i hi]
    exact Nat.one_pos
  · rw [hzero i hi]
    exact .refl _ 0

section
variable (h : v.Tree)
include h

theorem Tree.used_parent (hi : (v.nodes i).used) (hp : v.parentOf i = some p) : (v.nodes p).used := by
  by_cases h0 : i = 0
  · rw [h0, h.top] at hp
    cases hp
  obtain ⟨q, hq, hdir, -⟩ := h.parent i hi h0
  rw [hp] at hq
  cases hq
  exact hdir

theorem Tree.congr (hcount : w.nodeCount = v.nodeCount)
    (hsame : ∀ i, (w.nodes i).used = (v.nodes i).used ∧ (w.nodes i).type = (v.nodes i).type ∧ w.parentOf i = v.parentOf i) :
    w.Tree := by
  have hpar : w.parentOf = v.parentOf := funext fun i => (hsame i).2.2
  have hdir : ∀ i, v.IsDir i → w.IsDir i := fun i hi => ⟨(hsame i).1.trans hi.1, (hsame i).2.1.trans hi.2⟩
  refine ⟨hdir 0 h.root, hpar ▸ h.top, hcount ▸ h.count, fun i hi => ?_, fun i hi hne => ?_, fun i hi => ?_⟩
  · rw [hcount]
    exact h.bound i ((hsame i).1 ▸ hi)
  · obtain ⟨p, hp, hdp⟩ := h.parent i ((hsame i).1 ▸ hi) hne
    exact ⟨p, hpar ▸ hp, hdir p hdp⟩
  · rw [hpar]
    exact h.rooted i ((hsame i).1 ▸ hi)

theorem Tree.modify
    (hf : ∀ n, (f n).used = n.used ∧ (f n).type = n.type ∧ (f n).parent = n.parent) : (v.modify i f).Tree := by
  refine h.congr rfl fun j => ?_
  obtain rfl | hj := eq_or_ne j i
  · simp only [parentOf, modify, update_self]
    exact hf _
  · simp only [parentOf, Vfs.modify, update_of_ne hj, and_self]

theorem Tree.freeSlot (hi : v.freeSlot = some i) : (v.nodes i).used = false ∧ i ≠ 0 := by
  unfold Vfs.freeSlot at hi
  split at hi
  next k hk =>
    cases hi
    have hmem := mem_of_find?_eq_some hk
    have hfree := find?_some hk
    rw [mem_range'_1] at hmem
    exact ⟨by simpa using hfree, by omega⟩
  · split at hi
    · cases hi
      have hcount := h.count
      refine ⟨?_, by omega⟩
      by_contra hused
      exact absurd (h.bound _ (by simpa using hused)) (Nat.lt_irrefl _)
    · cases hi

/-- The node `i`, new or moved, comes below the directory `p`. -/
theorem Tree.link (hi0 : i ≠ 0) (hp : v.IsDir p) (hnot : ¬Up v.parentOf p i)
    (hkeep : ∀ j ≠ i, w.nodes j = v.nodes j) (hparent : w.parentOf i = some p) (hdir : v.IsDir i → w.IsDir i)
    (hcount : v.nodeCount ≤ w.nodeCount) (hlt : i < w.nodeCount) : w.Tree := by
  have hdirs : ∀ j, v.IsDir j → w.IsDir j := fun j hj => by
    by_cases hji : j = i
    · exact hji ▸ hdir (hji ▸ hj)
    · rwa [IsDir, hkeep j hji]
  have hpar : w.parentOf = update v.parentOf i (some p) := by
    funext j
    by_cases hji : j = i
    · rw [hji, update_self, hparent]
    · rw [update_of_ne hji, parentOf, parentOf, hkeep j hji]
  have hroot : ∀ j, Up v.parentOf j 0 → Up w.parentOf j 0 := fun j hj => hpar ▸ hj.reparent (h.rooted p hp.1) hnot
  refine ⟨hdirs 0 h.root, ?_, h.count.trans_le hcount, fun j hj => ?_, fun j hj hj0 => ?_, fun j hj => ?_⟩
  · rw [hpar, update_of_ne hi0.symm]
    exact h.top
  all_goals
    by_cases hji : j = i
    on_goal 2 => rw [hkeep j hji] at hj
  · exact hji ▸ hlt
  · exact (h.bound j hj).trans_le hcount
  · exact ⟨p, hji ▸ hparent, hdirs p hp⟩
  · obtain ⟨q, hq, hdq⟩ := h.parent j hj hj0
    exact ⟨q, by rw [hpar, update_of_ne hji]; exact hq, hdirs q hdq⟩
  · exact .step (hji ▸ hparent) (hroot p (h.rooted p hp.1))
  · exact hroot j (h.rooted j hj)

theorem Tree.remove {R : Nat → Prop} (hcount : w.nodeCount = v.nodeCount) (h0 : ¬R 0)
    (hkeep : ∀ j, ¬R j → w.nodes j = v.nodes j) (hgone : ∀ j, R j → (w.nodes j).used = false)
    (habove : ∀ j p, (v.nodes j).used → ¬R j → v.parentOf j = some p → ¬R p) : w.Tree := by
  have hused : ∀ j, (w.nodes j).used → ¬R j ∧ (v.nodes j).used := fun j hj => by
    have hR : ¬R j := fun hR => by
      rw [hgone j hR] at hj
      cases hj
    exact ⟨hR, hkeep j hR ▸ hj⟩
  have hpar : ∀ j, ¬R j → w.parentOf j = v.parentOf j := fun j hj => by
    unfold parentOf
    rw [hkeep j hj]
  refine ⟨?_, (hpar 0 h0).trans h.top, hcount ▸ h.count, fun j hj => ?_, fun j hj hj0 => ?_, fun j hj => ?_⟩
  · unfold IsDir
    rw [hkeep 0 h0]
    exact h.root
  · rw [hcount]
    exact h.bound j (hused j hj).2
  · obtain ⟨hR, hj⟩ := hused j hj
    obtain ⟨q, hq, hdq⟩ := h.parent j hj hj0
    refine ⟨q, (hpar j hR).trans hq, ?_⟩
    unfold IsDir
    rw [hkeep q (habove j q hj hR hq)]
    exact hdq
  · obtain ⟨hR, hj⟩ := hused j hj
    exact (h.rooted j hj).of_closed (S := fun j => (v.nodes j).used ∧ ¬R j) ⟨hj, hR⟩
      (fun x y hx hxy => ⟨h.used_parent hx.1 hxy, habove x y hx.1 hx.2 hxy⟩) fun x hx => hpar x hx.2

/-! ### Paths -/

omit h in
theorem findChild_some {parent c : Nat} (h : v.findChild parent name = some c) :
    (v.nodes c).used ∧ v.parentOf c = some parent ∧ (v.nodes c).name = name ∧ c < v.nodeCount := by
  have hmem := mem_of_find?_eq_some h
  have hsome := find?_some h
  simp only [Bool.and_eq_true, beq_iff_eq] at hsome
  exact ⟨hsome.1.1, hsome.1.2, hsome.2, mem_range.mp hmem⟩

theorem Tree.resolveLoop {follow : CStr → VfsResult} (hfollow : ∀ q i, follow q = .ok i → (v.nodes i).used) :
    ∀ fuel current q, (v.nodes current).used → v.resolveLoop follow fuel current q = .ok i → (v.nodes i).used := by
  intro fuel
  induction fuel with
  | zero =>
    intro current q hc hr
    cases hr
    exact hc
  | succ fuel ih =>
    intro current q hc hr
    rw [Vfs.resolveLoop] at hr
    split at hr
    · cases hr
      exact hc
    dsimp only at hr
    split at hr
    · exact ih _ _ hc hr
    split at hr
    · exact ih _ _ hc hr
    split at hr
    · -- `..` leads to the parent, or stays
      refine ih _ _ ?_ hr
      cases hp : (v.nodes current).parent with
      | none => exact hc
      | some p => exact h.used_parent hc hp
    split at hr
    · cases hr
    rename_i child hchild
    split at hr
    · exact hfollow _ _ hr
    · exact ih _ _ (findChild_some hchild).1 hr

theorem Tree.resolvePathDepth : ∀ depth q i, v.resolvePathDepth depth q = .ok i → (v.nodes i).used := by
  intro depth
  induction depth with
  | zero =>
    intro q i hr
    rw [Vfs.resolvePathDepth] at hr
    split at hr <;> cases hr
  | succ depth ih =>
    intro q i hr
    rw [Vfs.resolvePathDepth] at hr
    split at hr
    · cases hr
    · exact h.resolveLoop ih _ _ _ h.root.1 hr

theorem Tree.resolvePath {q : CStr} (hr : v.resolvePath q = .ok i) : (v.nodes i).used := h.resolvePathDepth _ q i hr

omit h in
theorem newEntry_ok {q base : CStr} (hr : v.newEntry q = .ok (p, base)) :
    v.resolvePath (pathSplit q).1 = .ok p ∧ base = (pathSplit q).2 ∧ base ≠ [] ∧ (v.nodes p).type = .directory := by
  unfold newEntry at hr
  split at hr
  · cases hr
  dsimp only at hr
  split at hr
  · cases hr
  rename_i hbase
  split at hr
  · cases hr
  rename_i parent hparent
  split at hr
  · cases hr
  rename_i htype
  cases hr
  exact ⟨hparent, rfl, hbase, not_not.mp htype⟩

theorem Tree.newEntry {q base : CStr} (hr : v.newEntry q = .ok (p, base)) : v.IsDir p ∧ base ≠ [] := by
  obtain ⟨hp, -, hbase, htype⟩ := newEntry_ok hr
  exact ⟨⟨h.resolvePath hp, htype⟩, hbase⟩

omit h in
theorem registerNode_some {type : NodeType} {size : Nat} (h : v.registerNode parent name type size data = some (i, w)) :
    v.freeSlot = some i ∧ (∀ j ≠ i, w.nodes j = v.nodes j) ∧ w.nodeCount = max v.nodeCount (i + 1) ∧
      (w.nodes i).name = name.take (maxPath - 1) ∧ (w.nodes i).type = type ∧ w.parentOf i = some parent := by
  obtain ⟨j, hj, he⟩ := Option.map_eq_some_iff.mp h
  cases he
  refine ⟨hj, fun k hk => update_of_ne hk _ _, rfl, ?_, ?_, ?_⟩
  all_goals simp only [parentOf, update_self]

theorem Tree.registerNode {type : NodeType} {size : Nat} (hp : v.IsDir parent)
    (hr : v.registerNode parent name type size data = some (i, w))
    (hf : ∀ n, (f n).used = n.used ∧ (f n).type = n.type ∧ (f n).parent = n.parent) :
    (w.modify i f).Tree ∧ (∀ j, v.IsDir j → (w.modify i f).IsDir j) ∧
      (name ≠ [] → type = .directory → (w.modify i f).IsDir i) := by
  obtain ⟨hslot, hkeep, hcount, hname, htype, hparent⟩ := registerNode_some hr
  obtain ⟨hfree, hi0⟩ := h.freeSlot hslot
  have hunused : ¬(v.nodes i).used := by simp [hfree]
  have hnot : ¬Up v.parentOf parent i := fun hup =>
    hunused (hup.mem (S := fun j => (v.nodes j).used) hp.1 fun _ _ => h.used_parent)
  have hw : w.Tree := h.link hi0 hp hnot hkeep hparent (fun hd => absurd hd.1 hunused) (by omega) (by omega)
  refine ⟨hw.modify hf, fun j hj => ?_, fun hne ht => ?_⟩
  · have hji : j ≠ i := fun heq => hunused (heq ▸ hj.1)
    have hnode : (w.modify i f).nodes j = v.nodes j := (update_of_ne hji _ _).trans (hkeep j hji)
    unfold IsDir
    rw [hnode]
    exact hj
  · have hnode : (w.modify i f).nodes i = f (w.nodes i) := update_self _ _ _
    unfold IsDir
    rw [hnode, (hf _).1, (hf _).2.1, htype, used, hname]
    refine ⟨?_, ht⟩
    cases name with
    | nil => exact absurd rfl hne
    | cons a l => rfl

end

end Vfs

/-! ### What the calls on paths do -/

inductive Vfs.Made (v : Vfs) (path : CStr) (type : NodeType) : VfsResult → Vfs → Prop
  | failed (e : Int) : Made v path type (.error e) v
  | made {p i size : Nat} {base : CStr} {data : Memory} {f : VfsNode → VfsNode} {w : Vfs}
      (hentry : v.newEntry path = .ok (p, base)) (hreg : v.registerNode p base type size data = some (i, w))
      (hf : ∀ n, (f n).name = n.name ∧ (f n).type = n.type ∧ (f n).parent = n.parent)
      (hevent : ∀ n, (f n).event = n.event) : Made v path type (.ok i) (w.modify i f)

inductive Vfs.Moved (v : Vfs) (oldPath newPath : CStr) : Vfs → Prop
  | kept : Moved v oldPath newPath v
  | moved {i p : Nat} {base : CStr} (hi : v.resolvePath oldPath = .ok i) (hi0 : i ≠ 0)
      (hentry : v.newEntry newPath = .ok (p, base)) :
      Moved v oldPath newPath (v.modify i fun n => { n with parent := some p, name := base.take (maxPath - 1) })

inductive Vfs.Deleted (v : Vfs) (path : CStr) : Vfs → Prop
  | kept : Deleted v path v
  | cleared {i : Nat} (hi : v.resolvePath path = .ok i) (hi0 : i ≠ 0)
      (hempty : ¬((v.nodes i).type = .directory ∧ v.hasChildren i = true)) : Deleted v path (v.modify i cleared)

inductive Vfs.Rewritten (v : Vfs) (i : Nat) : Vfs → Prop
  | kept : Rewritten v i v
  | data {n : VfsNode} (hw : (v.nodes i).writable = true)
      (hn : n.type = (v.nodes i).type ∧ n.diskInode = (v.nodes i).diskInode ∧ n.event = (v.nodes i).event) :
      Rewritten v i (v.modify i fun _ => n)

section Calls
variable {ρ ω : Bool} {v : Vfs} {i : Nat} {path : CStr} {type : NodeType}

theorem Ensures.registers {p size : Nat} {base : CStr} {data : Memory} (hentry : v.newEntry path = .ok (p, base))
    (hf : ∀ n, ((f n).event, (f n).name, (f n).type, (f n).parent) = (n.event, n.name, n.type, n.parent)) :
    Ensures (Limnx.registerWith p base type size data f : VfsM ρ ω VfsResult) v (v.Made path type) := by
  simp only [Prod.mk.injEq] at hf
  exact .registerWith .failed fun _ _ hreg => .made hentry hreg (fun n => (hf n).2) fun n => (hf n).1

theorem Ensures.makes {f : Nat → CStr → VfsM ρ ω VfsResult}
    (hf : ∀ parent base, v.newEntry path = .ok (parent, base) → Ensures (f parent base) v (v.Made path type)) :
    Ensures (match v.newEntry path with
      | .error e => Pure.pure (.error e)
      | .ok (parent, base) => f parent base : VfsM ρ ω VfsResult) v (v.Made path type) := by
  cases hr : v.newEntry path with
  | error e => exact .pure (.failed e)
  | ok r => exact hf r.1 r.2 hr

theorem vfsCreate_made (buf : Memory) : Ensures (vfsCreate path buf : VfsM ρ true _) v (v.Made path .file) := by
  refine .get_bind (.makes fun parent base hentry => ?_)
  refine .onLfs_bind fun lfs => .ite (fun _ => .onLfs_bind fun o => ?_) fun _ => ?_
  · cases o with
    | none => exact .pure (.failed _)
    | some ino => exact .registers hentry fun _ => rfl
  · cases buf with
    | none => exact .pure (.failed _)
    | some m => exact .registers hentry fun _ => rfl

theorem vfsMkdir_made : Ensures (vfsMkdir path : VfsM ρ true _) v (v.Made path .directory) := by
  refine .get_bind (.makes fun parent base hentry => ?_)
  refine .onLfs_bind fun lfs => .ite (fun _ => .onLfs_bind fun o => ?_) fun _ => ?_
  · cases o with
    | none => exact .pure (.failed _)
    | some ino => exact .registers hentry fun _ => rfl
  · exact .registers hentry fun _ => rfl

theorem vfsSymlink_made (target : CStr) (buf : Memory) :
    Ensures (vfsSymlink path target buf : VfsM ρ ω _) v (v.Made path .symlink) := by
  refine .get_bind (.makes fun parent base hentry => ?_)
  refine .ite (fun _ => .pure (.failed _)) fun _ => ?_
  cases buf with
  | none => exact .pure (.failed _)
  | some m => exact .registers hentry fun _ => rfl

theorem vfsMkfifo_made : Ensures (vfsMkfifo path : VfsM ρ ω _) v (v.Made path .fifo) :=
  .get_bind (.makes fun _ _ hentry => .registers hentry fun _ => rfl)

theorem vfsRename_moved : Ensures (vfsRename oldPath newPath : VfsM ρ true _) v fun _ => v.Moved oldPath newPath := by
  refine .get_bind ?_
  cases hi : v.resolvePath oldPath with
  | error e => exact .pure .kept
  | ok i =>
    refine .ite (fun _ => .pure .kept) fun hi0 => ?_
    cases hr : v.newEntry newPath with
    | error e => exact .pure .kept
    | ok r =>
      have hmoved := Vfs.Moved.moved hi hi0 hr
      refine .set_bind ?_
      cases (v.nodes i).diskInode with
      | none => exact .pure hmoved
      | some ino =>
        refine .onLfs_bind fun _ => .onLfs_bind fun _ => .onLfs_bind fun o => ?_
        cases o with
        | none => exact .pure hmoved
        | some inode => exact .onLfs_bind fun _ => .pure hmoved

theorem vfsDelete_deleted : Ensures (vfsDelete path : VfsM ρ true _) v fun _ => v.Deleted path := by
  refine .get_bind ?_
  cases hi : v.resolvePath path with
  | error e => exact .pure .kept
  | ok i =>
    refine .ite (fun _ => .pure .kept) fun hi0 => .ite (fun _ => .pure .kept) fun hempty => ?_
    have hcleared := Vfs.Deleted.cleared hi hi0 hempty
    refine .ite (fun _ => .onLfs_bind fun _ => ?_) fun _ => ?_
    · exact .modify_bind (.pure hcleared)
    · exact .modify_bind (.pure hcleared)

theorem VfsNode.grow_kind {n m : VfsNode} {needed : Nat} {mem : Memory} (h : n.grow needed mem = some m) :
    m.type = n.type ∧ m.diskInode = n.diskInode ∧ m.event = n.event := by
  unfold grow at h
  split at h
  · cases h
    exact ⟨rfl, rfl, rfl⟩
  · obtain ⟨_, _, rfl⟩ := Option.map_eq_some_iff.mp h
    exact ⟨rfl, rfl, rfl⟩

theorem vfsWrite_rewritten (offset : Nat) (src : Buf) (len : Nat) (buf : Memory) :
    Ensures (vfsWrite i offset src len buf : VfsM ρ true _) v fun _ => v.Rewritten i := by
  refine .get_bind (.ite (fun _ => .pure .kept) fun _ => .ite (fun _ => .pure .kept) fun _ => ?_)
  refine .ite (fun _ => .pure .kept) fun hw => .ite (fun _ => .pure .kept) fun _ => ?_
  have hw : (v.nodes i).writable := by simpa using hw
  cases hd : (v.nodes i).diskInode with
  | some ino =>
    refine .onLfs_bind fun o => ?_
    cases o with
    | none => exact .pure .kept
    | some written =>
      refine .ite (fun _ => .modify_bind (.pure ?_)) fun _ => .pure .kept
      exact .data (n := { v.nodes i with size := max (v.nodes i).size (u64 (offset + written)) }) hw ⟨rfl, rfl, rfl⟩
  | none =>
    cases hg : (v.nodes i).grow (u64 (offset + len)) buf with
    | none => exact .pure .kept
    | some n =>
      have hkind := grow_kind hg
      exact .set_bind (.pure (.data hw hkind))

theorem truncate_rewritten (newSize : Nat) (buf : Memory) :
    Ensures (vfsTruncateNode i newSize buf : VfsM ρ true _) v fun _ => v.Rewritten i := by
  refine .get_bind (.ite (fun _ => .pure .kept) fun _ => .ite (fun _ => .pure .kept) fun _ => ?_)
  refine .ite (fun _ => .pure .kept) fun _ => .ite (fun _ => .pure .kept) fun hw => .ite (fun _ => .pure .kept) fun _ => ?_
  have hw : (v.nodes i).writable := by simpa using hw
  cases hd : (v.nodes i).diskInode with
  | some ino =>
    refine .onLfs_bind fun ok => .ite (fun _ => .pure .kept) fun _ => .modify_bind (.pure ?_)
    exact .data (n := { v.nodes i with size := newSize }) hw ⟨rfl, rfl, rfl⟩
  | none =>
    cases hg : (v.nodes i).grow newSize buf with
    | none => exact .pure .kept
    | some n =>
      have hkind := grow_kind hg
      exact .set_bind (.pure (.data hw hkind))

end Calls

section Operations
variable {ρ ω : Bool} {v w : Vfs} {path : CStr} {type : NodeType} {r : VfsResult}

structure TreeGrown (v : Vfs) (type : NodeType) (r : VfsResult) (w : Vfs) : Prop where
  tree : w.Tree
  kept : ∀ j, v.IsDir j → w.IsDir j
  made : ∀ i, r = .ok i → type = .directory → w.IsDir i

section
variable (h : v.Tree)
include h

theorem Vfs.Tree.registered {parent i size : Nat} {data : Memory} (hp : v.IsDir parent) (hname : name ≠ [])
    (hr : v.registerNode parent name type size data = some (i, w))
    (hf : ∀ n, (f n).name = n.name ∧ (f n).type = n.type ∧ (f n).parent = n.parent) :
    TreeGrown v type (.ok i) (w.modify i f) := by
  obtain ⟨htree, hkept, hmade⟩ := h.registerNode hp hr fun n => ⟨by rw [used, (hf n).1]; rfl, (hf n).2⟩
  refine ⟨htree, hkept, fun j hj hd => ?_⟩
  cases hj
  exact hmade hname hd

theorem Vfs.Tree.makes (hm : v.Made path type r w) : TreeGrown v type r w := by
  cases hm with
  | failed e => exact ⟨h, fun _ hj => hj, nofun⟩
  | made hentry hreg hf => exact h.registered (h.newEntry hentry).1 (h.newEntry hentry).2 hreg hf

theorem Vfs.Tree.moves (hm : v.Moved oldPath newPath w)
    (hnot : ∀ i p base, v.resolvePath oldPath = .ok i → i ≠ 0 → v.newEntry newPath = .ok (p, base) → ¬Up v.parentOf p i) :
    w.Tree := by
  cases hm with
  | kept => exact h
  | @moved i p base hi hi0 hentry =>
    obtain ⟨hp, hbase⟩ := h.newEntry hentry
    refine h.link hi0 hp (hnot i p base hi hi0 hentry) (fun j hj => update_of_ne hj _ _) ?_ (fun hd => ?_) (Nat.le_refl _)
      (h.bound i (h.resolvePath hi))
    · simp only [Vfs.parentOf, Vfs.modify, update_self]
    · simp only [Vfs.IsDir, Vfs.modify, update_self, used]
      refine ⟨?_, hd.2⟩
      cases base with
      | nil => exact absurd rfl hbase
      | cons a l => rfl

theorem Vfs.Tree.no_child {i j : Nat} (hno : v.hasChildren i = false) (hj : (v.nodes j).used) :
    v.parentOf j ≠ some i := fun hp => by
  have hany := any_eq_false.mp hno j (mem_range.mpr (h.bound j hj))
  simp only [hj, Bool.true_and, beq_iff_eq] at hany
  exact hany hp

theorem Vfs.Tree.clear {i : Nat} (hi0 : i ≠ 0) (hf : ∀ n, (f n).used = false)
    (hleaf : ∀ j, (v.nodes j).used → v.parentOf j ≠ some i) : (v.modify i f).Tree := by
  refine h.remove (R := fun j => j = i) rfl (Ne.symm hi0) (fun j hj => update_of_ne hj _ _) (fun j hj => ?_) fun j p hj _ hp hpi => ?_
  · subst hj
    simp only [Vfs.modify, update_self]
    exact hf _
  · exact hleaf j hj (hpi ▸ hp)

theorem Vfs.Tree.deletes (hd : v.Deleted path w) : w.Tree := by
  cases hd with
  | kept => exact h
  | @cleared i hi hi0 hempty =>
    -- only directories have children
    refine h.clear hi0 (fun _ => rfl) fun j hj hp => ?_
    have hj0 : j ≠ 0 := fun h0 => by
      rw [h0, h.top] at hp
      cases hp
    obtain ⟨q, hq, -, htype⟩ := h.parent j hj hj0
    rw [hp] at hq
    cases hq
    have hno : v.hasChildren i = false := by simpa [htype] using hempty
    exact h.no_child hno hj hp

theorem Vfs.Tree.mount (fstype : CStr) : (v.mount path fstype).2.Tree := by
  unfold Vfs.mount
  split
  · exact h
  split
  · exact h
  split
  · exact h
  split
  · exact h
  · dsimp only
    exact h.modify fun _ => ⟨rfl, rfl, rfl⟩

theorem Vfs.Tree.withoutLeaves (m : Nat) : (v.withoutLeaves m).Tree := by
  refine h.remove (R := fun j => j < v.nodeCount ∧ v.leafOf m j) rfl (fun h0 => ?_) (fun j hj => if_neg hj)
    (fun j hj => ?_) fun j p hj _ hp hR => h.no_child (leafOf_iff.mp hR.2).2.2 hj hp
  · cases h.top.symm.trans (leafOf_iff.mp h0.2).2.1
  · simp [Vfs.withoutLeaves, hj, unmounted, used]

theorem Vfs.Tree.umount : (v.umount path).2.Tree := by
  unfold Vfs.umount
  split
  · exact h
  split
  · exact h
  dsimp only
  rw [umountRounds_eq]
  exact (h.withoutLeaves _).modify fun _ => ⟨rfl, rfl, rfl⟩

theorem Vfs.Tree.withProcfs (d : Option Nat) : Vfs.Tree { v with procfsDir := d } :=
  h.congr rfl fun _ => ⟨rfl, rfl, rfl⟩

theorem Vfs.Tree.procfsInit : Ensures (vfsProcfsInit : VfsM ρ true Unit) v fun _ w => w.Tree := by
  refine vfsMkdir_made.bind fun r w hw => ?_
  have htree := (h.makes hw).tree
  cases r with
  | error e => exact .modify_pure (htree.withProcfs none)
  | ok i => exact .modify_pure (htree.withProcfs (some i))

theorem Vfs.Tree.procfsFile {dir : Nat} (hdir : v.IsDir dir) (hname : name ≠ []) (capacity : Nat) (buf : Memory) :
    Ensures (procfsFile dir name capacity buf : VfsM ρ ω Unit) v fun _ w => w.Tree ∧ w.IsDir dir := by
  cases buf with
  | none => exact .pure ⟨h, hdir⟩
  | some m =>
    refine Ensures.bind (.registerWith (fun _ => ⟨h, hdir⟩) fun i w hreg => ?_) fun _ w hw => .pure hw
    have hgrown := h.registered (f := fun n => { n with capacity }) hdir hname hreg fun _ => ⟨rfl, rfl, rfl⟩
    exact ⟨hgrown.tree, hgrown.kept dir hdir⟩

theorem Vfs.Tree.procfsLinks (cwd : Option CStr) (link link' : Memory) :
    Ensures (procfsLinks path cwd link link' : VfsM ρ ω Unit) v fun _ w => w.Tree := by
  cases cwd with
  | none => exact .pure h
  | some c =>
    refine .ite (fun _ => .pure h) fun _ => (vfsSymlink_made c link).bind fun _ w hw => ?_
    exact (vfsSymlink_made c link').bind fun _ x hx => .pure ((h.makes hw).tree.makes hx).tree

theorem Vfs.Tree.procfsRegisterPid (pid : Nat) (sbuf cbuf : Memory) (cwd : Option CStr) (link link' : Memory) :
    Ensures (vfsProcfsRegisterPid pid sbuf cbuf cwd link link' : VfsM ρ true Unit) v fun _ w => w.Tree := by
  refine .get_bind (.ite (fun _ => .pure h) fun _ => vfsMkdir_made.bind fun r w hw => ?_)
  have hgrown := h.makes hw
  cases r with
  | error e => exact .pure hgrown.tree
  | ok dir =>
    refine (hgrown.tree.procfsFile (hgrown.made dir rfl rfl) (by decide) 1024 sbuf).bind fun _ x hx => ?_
    refine (hx.1.procfsFile hx.2 (by decide) 512 cbuf).bind fun _ y hy => ?_
    exact hy.1.procfsLinks cwd link link'

end

theorem Vfs.nodes_foldl_modify (c : VfsNode → Bool) (f : VfsNode → VfsNode) (v : Vfs) :
    (range v.nodeCount).foldl (fun v i => if c (v.nodes i) then v.modify i f else v) v =
      { v with nodes := fun j => if j < v.nodeCount ∧ c (v.nodes j) = true then f (v.nodes j) else v.nodes j } := by
  have h := foldl_modify (c := fun v i => c (v.nodes i)) (f := f) (g := fun (_ : Unit) _ _ => ())
    (fun v i j _ hj _ => congrArg c (update_of_ne hj _ _)) (range v.nodeCount) v () nodup_range
    fun j hj => mem_range.mp hj
  simp only [mem_range] at h
  refine (foldl_hom Prod.fst fun r i => ?_).trans (congrArg Prod.fst h)
  split <;> rfl

theorem Vfs.Tree.procfsDeleteSubtree (h : v.Tree) {dir : Nat} (hdir0 : dir ≠ 0)
    (hleaf : ∀ c, (v.nodes c).used → v.parentOf c = some dir → v.hasChildren c = false) :
    (v.procfsDeleteSubtree dir).Tree := by
  have hloop := nodes_foldl_modify (fun n => n.used && n.parent == some dir) unmounted v
  have hnodes : ∀ j, _ = _ := fun j => congrFun (congrArg nodes hloop) j
  have hcount := congrArg nodeCount hloop
  have hchild : ∀ j, (v.nodes j).used ∧ v.parentOf j = some dir → (j < v.nodeCount ∧
      ((v.nodes j).used && (v.nodes j).parent == some dir)) := fun j hj =>
    ⟨h.bound j hj.1, by simpa [parentOf] using hj⟩
  refine h.remove (R := fun j => j = dir ∨ ((v.nodes j).used ∧ v.parentOf j = some dir)) hcount ?_
    (fun j hj => ?_) (fun j hj => ?_) fun j p hj hR hp hRp => ?_
  · rintro (h0 | h0)
    · exact hdir0 h0.symm
    · rw [h.top] at h0
      cases h0.2
  · obtain ⟨hjd, hno⟩ := not_or.mp hj
    refine (update_of_ne hjd _ _).trans ((hnodes j).trans (if_neg fun hc => hno ?_))
    simpa [parentOf] using hc.2
  · obtain rfl | hjd := eq_or_ne j dir
    · simp only [Vfs.procfsDeleteSubtree, Vfs.modify, update_self]
      rfl
    · have hnode : (v.procfsDeleteSubtree dir).nodes j = _ :=
        (update_of_ne hjd _ _).trans ((hnodes j).trans (if_pos (hchild j (hj.resolve_left hjd))))
      rw [hnode]
      rfl
  · rcases hRp with rfl | ⟨hused, hpd⟩
    · exact hR (.inr ⟨hj, hp⟩)
    · exact h.no_child (hleaf p hused hpd) hj hp

theorem Vfs.Tree.procfsUnregisterPid (h : v.Tree) {pid : Nat}
    (hleaf : ∀ d dir, v.procfsDir = some d → v.findChild d (itoaSimple pid) = some dir →
      ∀ c < v.nodeCount, (v.nodes c).used → v.parentOf c = some dir → v.hasChildren c = false) :
    (v.procfsUnregisterPid pid).Tree := by
  unfold Vfs.procfsUnregisterPid
  split
  · exact h
  rename_i dir hdir
  obtain ⟨d, hd, hfind⟩ := Option.bind_eq_some_iff.mp hdir
  refine h.procfsDeleteSubtree (fun h0 => ?_) fun c hc => hleaf d dir hd hfind c (h.bound c hc) hc
  have hp := (findChild_some hfind).2.1
  rw [h0, h.top] at hp
  cases hp

end Operations

inductive TableOp where
  | create (path : CStr) (buf : Memory)
  | mkdir (path : CStr)
  | symlink (path target : CStr) (buf : Memory)
  | mkfifo (path : CStr)
  | rename (oldPath newPath : CStr)
  | delete (path : CStr)
  | mount (path fstype : CStr)
  | umount (path : CStr)
  | procfsInit
  | registerPid (pid : Nat) (sbuf cbuf : Memory) (cwd : Option CStr) (link link' : Memory)
  | unregisterPid (pid : Nat)

def TableOp.prog : TableOp → VfsW Unit
  | .create path buf => do let _ ← vfsCreate path buf
  | .mkdir path => do let _ ← vfsMkdir path
  | .symlink path target buf => do let _ ← vfsSymlink path target buf
  | .mkfifo path => do let _ ← vfsMkfifo path
  | .rename oldPath newPath => do let _ ← vfsRename oldPath newPath
  | .delete path => do let _ ← vfsDelete path
  | .mount path fstype => modify fun v => (v.mount path fstype).2
  | .umount path => modify fun v => (v.umount path).2
  | .procfsInit => vfsProcfsInit
  | .registerPid pid sbuf cbuf cwd link link' => vfsProcfsRegisterPid pid sbuf cbuf cwd link link'
  | .unregisterPid pid => modify fun v => v.procfsUnregisterPid pid

/-- No directory is moved below itself, and the entries of a process's directory in `/proc` have no children when
    it goes. -/
def TableOp.KeepsTree (v : Vfs) : TableOp → Prop
  | .rename oldPath newPath => ∀ i p base, v.resolvePath oldPath = .ok i → i ≠ 0 → v.newEntry newPath = .ok (p, base) →
    ¬Up v.parentOf p i
  | .unregisterPid pid => ∀ d dir, v.procfsDir = some d → v.findChild d (itoaSimple pid) = some dir →
    ∀ c, c < v.nodeCount → (v.nodes c).used = true → v.parentOf c = some dir → v.hasChildren c = false
  | _ => True

theorem Ensures.drop {ρ ω : Bool} {α : Type} {p : VfsM ρ ω α} {v : Vfs} {Q : Vfs → Prop} (h : Ensures p v fun _ w => Q w) :
    Ensures (do let _ ← p) v fun _ w => Q w :=
  h.bind fun _ _ hw => .pure hw

theorem Vfs.Tree.step {v : Vfs} (h : v.Tree) {op : TableOp} (hop : op.KeepsTree v) : Ensures op.prog v fun _ w => w.Tree := by
  cases op with
  | create path buf => exact ((vfsCreate_made buf).mono fun _ _ hw => (h.makes hw).tree).drop
  | mkdir path => exact (vfsMkdir_made.mono fun _ _ hw => (h.makes hw).tree).drop
  | symlink path target buf => exact ((vfsSymlink_made target buf).mono fun _ _ hw => (h.makes hw).tree).drop
  | mkfifo path => exact (vfsMkfifo_made.mono fun _ _ hw => (h.makes hw).tree).drop
  | rename oldPath newPath => exact (vfsRename_moved.mono fun _ _ hw => h.moves hw hop).drop
  | delete path => exact (vfsDelete_deleted.mono fun _ _ hw => h.deletes hw).drop
  | mount path fstype => exact .modify_pure (h.mount fstype)
  | umount path => exact .modify_pure h.umount
  | procfsInit => exact h.procfsInit
  | registerPid pid sbuf cbuf cwd link link' => exact h.procfsRegisterPid pid sbuf cbuf cwd link link'
  | unregisterPid pid => exact .modify_pure (h.procfsUnregisterPid hop)

namespace FsKernel

def tableStep (k : FsKernel) (op : TableOp) : FsKernel := (k.call op.prog).2

theorem call_ensures {ρ ω : Bool} {α : Type} {k : FsKernel} {p : VfsM ρ ω α} {Q : α → Vfs → Prop} (h : Ensures p k.vfs Q) :
    Q (k.call p).1 (k.call p).2.vfs := h.run bcacheHandler k.lfs k.cache

/-- From `vfs_init` on, in every run of calls that keep the tree, every used node other than the root has a used
    directory as its parent, and the way up from every used node ends at the root. -/
theorem table_is_tree (k : FsKernel) (hinit : k.vfs = init) (ops : List TableOp)
    (hops : Guarded tableStep (fun k op => op.KeepsTree k.vfs) k ops) :
    (∀ i, ((run tableStep k ops).vfs.nodes i).used = true → i ≠ 0 →
      ∃ p, (run tableStep k ops).vfs.parentOf i = some p ∧ (run tableStep k ops).vfs.IsDir p) ∧
    ∀ i, ((run tableStep k ops).vfs.nodes i).used = true → Up (run tableStep k ops).vfs.parentOf i 0 := by
  have hstep : ∀ (k : FsKernel) (op : TableOp), k.vfs.Tree → op.KeepsTree k.vfs → (k.tableStep op).vfs.Tree :=
    fun k op hk hop => call_ensures (hk.step hop)
  have htree := hops.invariant hstep (hinit ▸ init_tree)
  exact ⟨htree.parent, htree.rooted⟩

def fresh : FsKernel := { cache := Bcache.blank }

theorem not_up_of_top {v : Vfs} {i j : Nat} (hi : v.parentOf i = some 0) (htop : v.parentOf 0 = none) (hij : j ≠ i)
    (hj : j ≠ 0) : ¬Up v.parentOf i j := fun hup => by
  have hmem : j = i ∨ j = 0 := hup.mem (S := fun j => j = i ∨ j = 0) (.inl rfl) fun x y hx hxy => by
    rcases hx with rfl | rfl
    · exact .inr (Option.some.inj (hxy.symm.trans hi))
    · cases hxy.symm.trans htop
  exact hmem.elim hij hj

def movingOps : List TableOp :=
  [.mkdir [47, 97], .mkdir [47, 98], .rename [47, 97] [47, 98, 47, 99], .procfsInit,
    .registerPid 5 (some fun _ => 0) none (some [47]) none (some fun _ => 0), .unregisterPid 5]

theorem movingOps_tree : (∀ i, ((run tableStep fresh movingOps).vfs.nodes i).used = true → i ≠ 0 →
      ∃ p, (run tableStep fresh movingOps).vfs.parentOf i = some p ∧ (run tableStep fresh movingOps).vfs.IsDir p) ∧
    ∀ i, ((run tableStep fresh movingOps).vfs.nodes i).used = true → Up (run tableStep fresh movingOps).vfs.parentOf i 0 := by
  refine table_is_tree fresh rfl movingOps
    ⟨trivial, trivial, fun i p base hi _ hp => ?_, trivial, trivial, fun d dir hd hdir => ?_, trivial⟩
  · have hi' : (run tableStep fresh (movingOps.take 2)).vfs.resolvePath [47, 97] = .ok 1 := by decide +kernel
    have hp' : (run tableStep fresh (movingOps.take 2)).vfs.newEntry [47, 98, 47, 99] = .ok (2, [99]) := by decide +kernel
    cases hi.symm.trans hi'
    cases hp.symm.trans hp'
    have htwo : (run tableStep fresh (movingOps.take 2)).vfs.parentOf 2 = some 0 := by decide +kernel
    have htop : (run tableStep fresh (movingOps.take 2)).vfs.parentOf 0 = none := by decide +kernel
    exact not_up_of_top htwo htop (by decide) (by decide)
  · have hd' : (run tableStep fresh (movingOps.take 5)).vfs.procfsDir = some 3 := by decide +kernel
    have hdir' : (run tableStep fresh (movingOps.take 5)).vfs.findChild 3 (itoaSimple 5) = some 4 := by decide +kernel
    cases hd.symm.trans hd'
    cases hdir.symm.trans hdir'
    decide +kernel

def loopOps : List TableOp := [.mkdir [47, 97], .rename [47, 97] [47, 97, 47, 98]]

theorem loopOps_unrooted : ((run tableStep fresh loopOps).vfs.nodes 1).used = true ∧
    ¬Up (run tableStep fresh loopOps).vfs.parentOf 1 0 := by
  refine ⟨by decide +kernel, fun h => ?_⟩
  have hself : (run tableStep fresh loopOps).vfs.parentOf 1 = some 1 := by decide +kernel
  have h0 : 0 = 1 := h.mem (S := fun j => j = 1) rfl fun x y hx hxy => by
    rw [hx, hself] at hxy
    exact (Option.some.inj hxy).symm
  cases h0

end FsKernel

end Limnx
