import Limnx.Theorems.VfsTree

/-! What a call does to the node table. -/

open StateT

namespace Limnx
open Function

namespace FsKernel
variable {ρ ω : Bool} {k : FsKernel} {α β : Type}

@[simp] theorem call_pure (a : α) : k.call (pure a : VfsM ρ ω α) = (a, k) := rfl

theorem call_bind (p : VfsM ρ ω α) (f : α → VfsM ρ ω β) : k.call (p >>= f) = (k.call p).2.call (f (k.call p).1) := by
  simp only [call, run_bind, BlockProg.run_bind]

@[simp] theorem call_get_bind (f : Vfs → VfsM ρ ω β) : k.call (get >>= f) = k.call (f k.vfs) := call_bind get f

def lfsCall (k : FsKernel) (p : LfsM ρ ω α) : α × FsKernel :=
  let r := BlockProg.run bcacheHandler (p.run k.lfs) k.cache
  (r.1.1, { k with lfs := r.1.2, cache := r.2 })

theorem call_onLfs (p : LfsM ρ ω α) : k.call (onLfs p) = k.lfsCall p := by
  simp only [call, onLfs, lfsCall, run_lift, run_bind, BlockProg.run_bind, run_pure, BlockProg.run_pure]

@[simp] theorem call_onLfs_bind (p : LfsM ρ ω α) (f : α → VfsM ρ ω β) :
    k.call (onLfs p >>= f) = (k.lfsCall p).2.call (f (k.lfsCall p).1) := by
  rw [call_bind, call_onLfs]

@[simp] theorem lfsCall_vfs (p : LfsM ρ ω α) : (k.lfsCall p).2.vfs = k.vfs := rfl

@[simp] theorem call_tasks (p : VfsM ρ ω α) : (k.call p).2.tasks = k.tasks := rfl

@[simp] theorem call_ite (c : Prop) [Decidable c] (p q : VfsM ρ ω α) :
    k.call (if c then p else q) = if c then k.call p else k.call q := by
  split <;> rfl

end FsKernel

structure Kept (v w : Vfs) : Prop where
  events : w.events = v.events
  nodeCount : w.nodeCount = v.nodeCount
  event : ∀ j, (w.nodes j).event = (v.nodes j).event

inductive TableStep (v w : Vfs) : Prop
  | kept (h : Kept v w)
  | registered (i : Nat) (slot : v.freeSlot = some i) (events : w.events ≠ v.events)
      (nodeCount : v.nodeCount ≤ w.nodeCount) (event : ∀ j, j ≠ i → (w.nodes j).event = (v.nodes j).event)

variable {f : VfsNode → VfsNode} {path : CStr}

section Table
variable {v w x : Vfs} {i : Nat}

@[simp] theorem Kept.refl (v : Vfs) : Kept v v := ⟨rfl, rfl, fun _ => rfl⟩

theorem Kept.trans (h : Kept v w) (h' : Kept w x) : Kept v x :=
  ⟨h'.events.trans h.events, h'.nodeCount.trans h.nodeCount, fun j => (h'.event j).trans (h.event j)⟩

@[simp] theorem TableStep.refl (v : Vfs) : TableStep v v := .kept (.refl v)

theorem TableStep.trans_kept (h : TableStep v w) (h' : Kept w x) : TableStep v x := by
  cases h with
  | kept h => exact .kept (h.trans h')
  | registered i slot events nodeCount event =>
    exact .registered i slot (h'.events ▸ events) (h'.nodeCount ▸ nodeCount)
      fun j hj => (h'.event j).trans (event j hj)

theorem Kept.modify (hf : ∀ n, (f n).event = n.event) : Kept v (v.modify i f) := by
  refine ⟨rfl, rfl, fun j => ?_⟩
  simp only [Vfs.modify]
  obtain rfl | hj := eq_or_ne j i
  · rw [update_self, hf]
  · rw [update_of_ne hj]

theorem modify_nodes_of_ne {j : Nat} (hj : j ≠ i) : (v.modify i f).nodes j = v.nodes j := update_of_ne hj _ _

theorem registerNode_step {parent : Nat} {name : CStr} {type : NodeType} {size : Nat}
    {data : Option Buf} (h : v.registerNode parent name type size data = some (i, w)) : TableStep v w := by
  obtain ⟨j, hj, he⟩ := Option.map_eq_some_iff.mp h
  cases he
  exact .registered i hj (Nat.succ_ne_self _) (Nat.le_max_left _ _) fun j hj => by simp [update_of_ne hj]

end Table

theorem Vfs.Made.step {v w : Vfs} {type : NodeType} {r : VfsResult} (h : v.Made path type r w) : TableStep v w := by
  cases h with
  | failed => exact .refl v
  | made _ hreg _ hevent => exact (registerNode_step hreg).trans_kept (.modify hevent)

theorem Vfs.Deleted.registrations {v w : Vfs} (h : v.Deleted path w) : Kept v w := by
  cases h with
  | kept => exact .refl v
  | cleared => exact .modify fun _ => rfl

namespace FsKernel
variable {k : FsKernel}
attribute [local irreducible] call lfsCall

theorem creation_of_resolves {i : Nat} (h : k.vfs.resolvePath path = .ok i) :
    (∀ mem, (k.call (vfsCreate path mem : VfsW _)).2.vfs = k.vfs) ∧ (k.call (vfsMkdir path : VfsW _)).2.vfs = k.vfs ∧
      ∀ target mem, (k.call (vfsSymlink path target mem : VfsW _)).2.vfs = k.vfs := by
  simp [vfsCreate, vfsMkdir, vfsSymlink, Vfs.newEntry, h]

/-- No node but `i` has changed. -/
structure Touches (i : Nat) (v w : Vfs) : Prop extends Kept v w where
  others : ∀ j, j ≠ i → w.nodes j = v.nodes j

@[simp] theorem Touches.refl (i : Nat) (v : Vfs) : Touches i v v := ⟨.refl v, fun _ _ => rfl⟩

theorem Touches.modify {i : Nat} {v : Vfs} (hf : (f (v.nodes i)).event = (v.nodes i).event) :
    Touches i v (v.modify i f) := by
  refine ⟨⟨rfl, rfl, fun j => ?_⟩, fun j hj => modify_nodes_of_ne hj⟩
  obtain rfl | hj := eq_or_ne j i
  · simp only [Vfs.modify, update_self, hf]
  · rw [modify_nodes_of_ne hj]

theorem Touches.of_rewritten {i : Nat} {v w : Vfs} (h : v.Rewritten i w) : Touches i v w := by
  cases h with
  | kept => exact .refl i v
  | data _ hn => exact .modify hn.2.2

theorem vfsWrite_touches (i offset : Nat) (src : Buf) (len : Nat) (mem : Memory) :
    Touches i k.vfs (k.call (vfsWrite i offset src len mem : VfsW _)).2.vfs :=
  .of_rewritten (call_ensures (vfsWrite_rewritten offset src len mem))

theorem truncate_touches (i newSize : Nat) (mem : Memory) :
    Touches i k.vfs (k.call (vfsTruncateNode i newSize mem : VfsW _)).2.vfs :=
  .of_rewritten (call_ensures (truncate_rewritten newSize mem))

theorem vfsRead_vfs (i offset len : Nat) : (k.call (vfsRead i offset len : VfsR _)).2.vfs = k.vfs := by
  simp only [vfsRead, call_get_bind, call_ite]
  split_ifs
  · simp
  · simp
  · simp
  · simp
  cases hd : (k.vfs.nodes i).diskInode with
  | some ino =>
    simp only [call_onLfs_bind]
    split <;> simp
  | none => simp

end FsKernel

theorem setText_same (n : VfsNode) (text : CStr) :
    (n.setText text).name = n.name ∧ (n.setText text).event = n.event ∧ (n.setText text).type = n.type ∧
      (n.setText text).diskInode = n.diskInode := by
  unfold VfsNode.setText
  split <;> exact ⟨rfl, rfl, rfl, rfl⟩

theorem Vfs.refresh_induction {P : Vfs → Prop} {v : Vfs} (hv : P v)
    (hset : ∀ w i text, P w → P (w.modify i fun n => n.setText text)) (pidStr status cmdline : CStr) :
    P (v.procfsRefresh pidStr status cmdline) := by
  unfold Vfs.procfsRefresh
  split
  · exact hv
  dsimp only
  split
  · split
    · exact hset _ _ _ hv
    · exact hv
  · split
    · split
      · exact hset _ _ _ (hset _ _ _ hv)
      · exact hset _ _ _ hv
    · split
      · exact hset _ _ _ hv
      · exact hv

theorem Vfs.freeSlot_modify {v : Vfs} {i : Nat} (hf : ∀ n, (f n).name = n.name) :
    (v.modify i f).freeSlot = v.freeSlot := by
  have hu : ∀ j, ((v.modify i f).nodes j).used = (v.nodes j).used := by
    intro j
    obtain rfl | hj := eq_or_ne j i
    · simp only [Vfs.modify, update_self, VfsNode.used, hf]
    · rw [modify_nodes_of_ne hj]
  unfold Vfs.freeSlot
  simp only [hu]
  rfl

theorem Vfs.mount_kept (v : Vfs) (path fstype : CStr) : Kept v (v.mount path fstype).2 := by
  unfold Vfs.mount
  split_ifs
  · exact .refl v
  split
  · exact .refl v
  split_ifs
  · exact .refl v
  · exact .refl v
  · dsimp only
    exact .modify fun _ => rfl

theorem Vfs.umount_kept (v : Vfs) (path : CStr) : Kept v (v.umount path).2 := by
  unfold Vfs.umount
  split
  · exact .refl v
  split
  · exact .refl v
  dsimp only
  rw [Vfs.umountRounds_eq]
  have hkept : ∀ m, Kept v (v.withoutLeaves m) := fun m => ⟨rfl, rfl, fun j => by
    unfold Vfs.withoutLeaves
    dsimp only
    split <;> rfl⟩
  exact (hkept _).trans (.modify fun _ => rfl)

end Limnx
