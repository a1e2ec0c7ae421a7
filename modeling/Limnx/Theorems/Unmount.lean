import Limnx.Vfs

/-! The rounds of `vfs_umount` delete the children of the mount point that have no children, all of them in the first
    one. -/

open Option

namespace Limnx
open Function List Vfs VfsNode

theorem Vfs.foldl_modify {α : Type} {c : Vfs → Nat → Bool} {f : VfsNode → VfsNode} {g : α → VfsNode → Nat → α}
    (hc : ∀ v i j, c v i → j ≠ i → j < v.nodeCount → c (v.modify i f) j = c v j) :
    ∀ (l : List Nat) (v : Vfs) (a : α), l.Nodup → (∀ j ∈ l, j < v.nodeCount) →
    l.foldl (fun r i => if c r.1 i then (r.1.modify i f, g r.2 (r.1.nodes i) i) else r) (v, a) =
      ({ v with nodes := fun j => if j ∈ l ∧ c v j = true then f (v.nodes j) else v.nodes j },
        (l.filter (c v)).foldl (fun a i => g a (v.nodes i) i) a)
  | [], v, a, _, _ => by simp
  | i :: l, v, a, hnd, hlt => by
    obtain ⟨hi, hl⟩ := nodup_cons.mp hnd
    have hlt' : ∀ j ∈ l, j < v.nodeCount := fun j hj => hlt j (.tail _ hj)
    rw [foldl_cons]
    by_cases hci : c v i
    · have hne : ∀ {j}, j ∈ l → j ≠ i := fun hj heq => hi (heq ▸ hj)
      have hother : ∀ j ∈ l, c (v.modify i f) j = c v j := fun j hj => hc v i j hci (hne hj) (hlt' j hj)
      simp only [hci, if_true]
      rw [foldl_modify hc l (v.modify i f) _ hl hlt', filter_cons_of_pos hci, foldl_cons, filter_congr hother]
      refine Prod.ext (congrArg (mk · _ _ _) (funext fun j => ?_)) (foldl_ext _ _ _ fun a j hj => ?_)
      · obtain rfl | hj := eq_or_ne j i
        · simp [hi, hci, modify]
        have hnode : (v.modify i f).nodes j = v.nodes j := update_of_ne hj _ _
        by_cases hjl : j ∈ l
        · simp [hnode, hother j hjl, hjl]
        · simp [hnode, hjl, hj]
      · rw [show (v.modify i f).nodes j = v.nodes j from update_of_ne (hne (mem_of_mem_filter hj)) _ _]
    · simp only [hci, Bool.false_eq_true, if_false]
      rw [foldl_modify hc l _ _ hl hlt', filter_cons_of_neg hci]
      refine Prod.ext (congrArg (mk · _ _ _) (funext fun j => ?_)) rfl
      obtain rfl | hj := eq_or_ne j i
      · simp [hi, hci]
      · simp [hj]

def Vfs.leafOf (m : Nat) (v : Vfs) (i : Nat) : Bool :=
  (v.nodes i).used && (v.nodes i).parent == some m && !v.hasChildren i

variable (n : VfsNode)

def VfsNode.unmounted : VfsNode :=
  { n with name := [], data := none, pipe := none, size := 0, capacity := 0, parent := none }

theorem Vfs.hasChildren_iff {v : Vfs} {i : Nat} :
    v.hasChildren i ↔ ∃ j < v.nodeCount, (v.nodes j).used ∧ (v.nodes j).parent = some i := by
  simp [hasChildren]

variable {j : Nat}

theorem Vfs.leafOf_congr {m : Nat} (v w : Vfs) (R : Nat → Prop) (hcount : w.nodeCount = v.nodeCount)
    (hgone : ∀ i, R i → v.leafOf m i ∧ (w.nodes i).used = false) (hkept : ∀ i, ¬R i → w.nodes i = v.nodes i)
    (hj : ¬R j) (hlt : j < v.nodeCount) : w.leafOf m j = v.leafOf m j := by
  unfold leafOf
  rw [hkept j hj]
  by_cases hchild : (v.nodes j).used ∧ (v.nodes j).parent = some m
  · have hsame : w.hasChildren j = v.hasChildren j := by
      rw [Bool.eq_iff_iff, hasChildren_iff, hasChildren_iff, hcount]
      constructor
      · rintro ⟨k, hk, hused, hp⟩
        have hR : ¬R k := fun h => by
          rw [(hgone k h).2] at hused
          cases hused
        exact ⟨k, hk, hkept k hR ▸ hused, hkept k hR ▸ hp⟩
      · rintro ⟨k, hk, hused, hp⟩
        by_cases hR : R k
        · -- then `j` is `m`, and a child of its own
          have hleaf := (hgone k hR).1
          simp only [leafOf, Bool.and_eq_true, beq_iff_eq] at hleaf
          have hself : (v.nodes j).parent = some j := hchild.2.trans (hleaf.1.2.symm.trans hp)
          exact ⟨j, hlt, (hkept j hj).symm ▸ hchild.1, (hkept j hj).symm ▸ hself⟩
        · exact ⟨k, hk, (hkept k hR).symm ▸ hused, (hkept k hR).symm ▸ hp⟩
    rw [hsame]
  · have hno : ((v.nodes j).used && (v.nodes j).parent == some m) = false := by
      simpa using hchild
    rw [hno, Bool.false_and, Bool.false_and]

theorem Vfs.leafOf_modify {m : Nat} (v : Vfs) (i j : Nat) (hi : v.leafOf m i) (hj : j ≠ i) (hlt : j < v.nodeCount) :
    (v.modify i unmounted).leafOf m j = v.leafOf m j :=
  leafOf_congr v (v.modify i unmounted) (· = i) rfl
    (fun k hk => ⟨hk ▸ hi, by simp [hk, modify, unmounted, used]⟩)
    (fun k hk => update_of_ne hk _ _) hj hlt

def Vfs.withoutLeaves (m : Nat) (v : Vfs) : Vfs :=
  { v with nodes := fun j => if j < v.nodeCount ∧ v.leafOf m j = true then (v.nodes j).unmounted else v.nodes j }

theorem Vfs.umountRound_eq (m : Nat) (v : Vfs) :
    v.umountRound m = (v.withoutLeaves m, ((range v.nodeCount).filter (v.leafOf m)).foldl (fun _ _ => true) false) := by
  refine (foldl_modify (g := fun _ _ _ => true) leafOf_modify _ v false nodup_range
    fun j hj => mem_range.mp hj).trans ?_
  simp only [mem_range]
  rfl

theorem Vfs.leafOf_withoutLeaves {m : Nat} {v : Vfs} (hj : j < v.nodeCount) :
    (v.withoutLeaves m).leafOf m j = false := by
  have hgone : ∀ i, i < v.nodeCount ∧ v.leafOf m i → ((v.withoutLeaves m).nodes i).used = false := fun i hi => by
    simp [withoutLeaves, hi, unmounted, used]
  by_cases hleaf : v.leafOf m j
  · rw [leafOf, hgone j ⟨hj, hleaf⟩, Bool.false_and, Bool.false_and]
  rw [leafOf_congr v (v.withoutLeaves m) (fun i => i < v.nodeCount ∧ v.leafOf m i) rfl (fun i hi => ⟨hi.2, hgone i hi⟩)
    (fun i hi => if_neg hi) (fun h => hleaf h.2) hj]
  exact Bool.eq_false_iff.mpr hleaf

theorem Vfs.filter_withoutLeaves (m : Nat) (v : Vfs) :
    (range (v.withoutLeaves m).nodeCount).filter ((v.withoutLeaves m).leafOf m) = [] :=
  filter_eq_nil_iff.mpr fun j hj => by simp [leafOf_withoutLeaves (v := v) (mem_range.mp hj)]

theorem Vfs.umountRound_withoutLeaves (m : Nat) (v : Vfs) :
    (v.withoutLeaves m).umountRound m = (v.withoutLeaves m, false) := by
  rw [umountRound_eq, filter_withoutLeaves]
  refine Prod.ext (congrArg (mk · _ _ _) (funext fun j => if_neg fun hj => ?_)) rfl
  exact Bool.false_ne_true ((leafOf_withoutLeaves (v := v) hj.1).symm.trans hj.2)

theorem Vfs.umountRounds_eq (m fuel : Nat) (v : Vfs) : umountRounds m (fuel + 1) v = v.withoutLeaves m := by
  have hstop : ∀ n, umountRounds m n (v.withoutLeaves m) = v.withoutLeaves m
    | 0 => rfl
    | n + 1 => by
      rw [umountRounds, umountRound_withoutLeaves]
      rfl
  rw [umountRounds, umountRound_eq]
  split
  · exact hstop fuel
  · rfl

/-- An object that `vfs_umount` passes to `kfree`: the buffer of a node, or the pipe that the `data` of an opened FIFO
    points to. -/
inductive Kfreed
  | buffer (i : Nat)
  | pipe (p : Nat)
deriving DecidableEq

def VfsNode.freeable : Bool := n.writable || n.type == .symlink

def VfsNode.kfreed (i : Nat) : List Kfreed :=
  if n.freeable then
    match n.pipe with
    | some p => [.pipe p]
    | none => if n.data.isSome then [.buffer i] else []
  else []

def Vfs.umountRoundFrees (m : Nat) (v : Vfs) : List Kfreed :=
  ((range v.nodeCount).foldl (fun (v, freed) i =>
    if (v.nodes i).used && (v.nodes i).parent == some m && !v.hasChildren i then
      (v.modify i unmounted, freed ++ (v.nodes i).kfreed i)
    else (v, freed)) (v, [])).2

def Vfs.umountFrees (m : Nat) : Nat → Vfs → List Kfreed
  | 0, _ => []
  | fuel + 1, v =>
    v.umountRoundFrees m ++ if (v.umountRound m).2 then umountFrees m fuel (v.umountRound m).1 else []

theorem Vfs.umountRoundFrees_eq (m : Nat) (v : Vfs) :
    v.umountRoundFrees m = ((range v.nodeCount).filter (v.leafOf m)).flatMap fun i => (v.nodes i).kfreed i := by
  rw [flatMap_eq_foldl]
  exact congrArg Prod.snd (foldl_modify (g := fun freed n i => freed ++ n.kfreed i) leafOf_modify _ v []
    nodup_range fun j hj => mem_range.mp hj)

theorem Vfs.umountFrees_eq (m fuel : Nat) (v : Vfs) :
    umountFrees m (fuel + 1) v =
      ((range v.nodeCount).filter (v.leafOf m)).flatMap fun i => (v.nodes i).kfreed i := by
  have hstop : ∀ n, umountFrees m n (v.withoutLeaves m) = []
    | 0 => rfl
    | n + 1 => by
      rw [umountFrees, umountRoundFrees_eq, umountRound_withoutLeaves, filter_withoutLeaves]
      rfl
  rw [umountFrees, umountRoundFrees_eq, umountRound_eq]
  split
  · rw [hstop, append_nil]
  · rw [append_nil]

/-! ### Unmounting -/

/-- `i` is a used node with the parent `p`. -/
def Vfs.ChildOf (v : Vfs) (i p : Nat) : Prop := i < v.nodeCount ∧ (v.nodes i).used = true ∧ (v.nodes i).parent = some p

/-- `j` lies below `m`. -/
def Vfs.Inside (v : Vfs) (m j : Nat) : Prop := Relation.TransGen v.ChildOf j m

def Vfs.Removed (v w : Vfs) (j : Nat) : Prop := j < v.nodeCount ∧ (v.nodes j).used = true ∧ (w.nodes j).used = false

/-- The buffers of the removed nodes are passed to `kfree`, each once, and nothing else. LimnFS would have to release an
    inode, and `vfs_umount` does not call it. -/
structure Vfs.Released (v w : Vfs) (freed : List Kfreed) : Prop where
  once : freed.Nodup
  buffers : ∀ x, x ∈ freed ↔ ∃ j, v.Removed w j ∧ (v.nodes j).data.isSome = true ∧ x = .buffer j
  inodes : ∀ j, v.Removed w j → (v.nodes j).type ≠ .device → (v.nodes j).diskInode = none

/-- A node that `vfs_umount` deletes as it should: no children, no inode, and its `data` freed if it is a buffer, and
    not if it is a pipe. -/
structure Vfs.Unmountable (v : Vfs) (i : Nat) : Prop where
  leaf : v.hasChildren i = false
  inode : (v.nodes i).type ≠ .device → (v.nodes i).diskInode = none
  pipe : (v.nodes i).pipe.isSome = true → (v.nodes i).freeable = false
  buffer : (v.nodes i).data.isSome = true → (v.nodes i).freeable = true

section Unmount
variable {v : Vfs} {m i : Nat}

theorem Vfs.leafOf_iff : v.leafOf m i ↔
    (v.nodes i).used ∧ (v.nodes i).parent = some m ∧ v.hasChildren i = false := by
  simp [leafOf, and_assoc]

theorem VfsNode.mem_kfreed {n : VfsNode} {x : Kfreed} : x ∈ n.kfreed i ↔ n.freeable ∧
    (n.pipe = none ∧ n.data.isSome ∧ x = .buffer i ∨ ∃ p, n.pipe = some p ∧ x = .pipe p) := by
  unfold kfreed
  cases n.freeable
  · simp
  · cases n.pipe <;> cases n.data <;> simp

theorem VfsNode.nodup_kfreed (n : VfsNode) (i : Nat) : (n.kfreed i).Nodup := by
  unfold VfsNode.kfreed
  cases n.freeable
  · exact nodup_nil
  · cases n.pipe <;> cases n.data <;> simp

theorem Vfs.Unmountable.mem_kfreed (h : v.Unmountable i) {x : Kfreed} :
    x ∈ (v.nodes i).kfreed i ↔ (v.nodes i).data.isSome ∧ x = .buffer i := by
  rw [VfsNode.mem_kfreed]
  constructor
  · rintro ⟨hfree, ⟨-, hx⟩ | ⟨p, hp, -⟩⟩
    · exact hx
    · rw [h.pipe (isSome_of_eq_some hp)] at hfree
      cases hfree
  · rintro ⟨hd, hx⟩
    have hfree := h.buffer hd
    refine ⟨hfree, .inl ⟨not_isSome_iff_eq_none.mp fun hp => ?_, hd, hx⟩⟩
    rw [h.pipe hp] at hfree
    cases hfree

def Vfs.umounted (m : Nat) (v : Vfs) : Vfs :=
  (v.withoutLeaves m).modify m fun n => { n with mountpoint := false, writable := false }

theorem Vfs.names_unmounted (hj : j < v.nodeCount) : if v.leafOf m j then ((v.umounted m).nodes j).used = false
    else ((v.umounted m).nodes j).used = (v.nodes j).used ∧ ((v.umounted m).nodes j).parent = (v.nodes j).parent := by
  have hname : ((v.umounted m).nodes j).name = ((v.withoutLeaves m).nodes j).name ∧
      ((v.umounted m).nodes j).parent = ((v.withoutLeaves m).nodes j).parent := by
    by_cases hjm : j = m
    · simp [umounted, modify, hjm]
    · simp [umounted, modify, hjm]
  simp only [used, hname]
  split
  next hleaf => simp [withoutLeaves, hj, hleaf, unmounted]
  next hleaf => simp [withoutLeaves, hleaf]

theorem Vfs.childOf_unmounted {j p : Nat} : (v.umounted m).ChildOf j p ↔ v.ChildOf j p ∧ v.leafOf m j = false := by
  refine and_congr_right_iff.mpr ?_ |>.trans and_assoc.symm
  intro hj
  have h := names_unmounted (v := v) (m := m) hj
  cases hleaf : v.leafOf m j with
  | true => simp_all
  | false => simp_all

theorem Vfs.removed_unmounted : v.Removed (v.umounted m) j ↔ j < v.nodeCount ∧ v.leafOf m j := by
  refine and_congr_right_iff.mpr fun hj => ?_
  have h := names_unmounted (v := v) (m := m) hj
  cases hleaf : v.leafOf m j with
  | true => simp_all [leafOf_iff]
  | false => simp_all

section
variable (hall : ∀ i, i ≠ m → v.ChildOf i m → v.Unmountable i)
include hall

theorem Vfs.unmountable_of_leafOf (hlt : i < v.nodeCount) (hleaf : v.leafOf m i) : v.Unmountable i := by
  obtain ⟨hused, hp, hno⟩ := leafOf_iff.mp hleaf
  refine hall i (fun him => ?_) ⟨hlt, hused, hp⟩
  rw [hasChildren_iff.mpr ⟨i, hlt, hused, him ▸ hp⟩] at hno
  cases hno

omit hall in
theorem Vfs.mem_leaves : i ∈ (range v.nodeCount).filter (v.leafOf m) ↔ i < v.nodeCount ∧ v.leafOf m i := by
  simp

theorem Vfs.not_inside_umounted (hj : j ≠ m) : ¬(v.umounted m).Inside m j := by
  have hleft : ∀ j, (v.umounted m).ChildOf j m → j ≠ m → False := fun j hc hj => by
    obtain ⟨hc, hno⟩ := childOf_unmounted.mp hc
    rw [leafOf_iff.mpr ⟨hc.2.1, hc.2.2, (hall j hj hc).leaf⟩] at hno
    cases hno
  intro hbelow
  refine hbelow.head_induction_on (motive := fun j _ => j ≠ m → False) (hleft _) (fun {j k} hc _ ih hj => ?_) hj
  by_cases hk : k = m
  · exact hleft j (hk ▸ hc) hj
  · exact ih hk

theorem Vfs.released_umounted : v.Released (v.umounted m) (umountFrees m (v.nodeCount + 1) v) := by
  rw [umountFrees_eq]
  have hun : ∀ {i}, i ∈ (range v.nodeCount).filter (v.leafOf m) → v.Unmountable i := fun hi =>
    unmountable_of_leafOf hall (mem_leaves.mp hi).1 (mem_leaves.mp hi).2
  refine ⟨?_, fun x => ⟨fun hx => ?_, ?_⟩, fun j hj => ?_⟩
  · refine nodup_flatMap.mpr ⟨fun i _ => (v.nodes i).nodup_kfreed i, ?_⟩
    refine (nodup_range.filter _).imp_of_mem fun {i j} hi hj hne x hxi hxj => hne ?_
    have hxi := (hun hi).mem_kfreed.mp hxi
    have hxj := (hun hj).mem_kfreed.mp hxj
    exact Kfreed.buffer.inj (hxi.2.symm.trans hxj.2)
  · obtain ⟨j, hj, hx⟩ := mem_flatMap.mp hx
    obtain ⟨hd, rfl⟩ := (hun hj).mem_kfreed.mp hx
    exact ⟨j, removed_unmounted.mpr (mem_leaves.mp hj), hd, rfl⟩
  · rintro ⟨j, hj, hd, rfl⟩
    have hj := mem_leaves.mpr (removed_unmounted.mp hj)
    exact mem_flatMap.mpr ⟨j, hj, (hun hj).mem_kfreed.mpr ⟨hd, rfl⟩⟩
  · exact (hun (mem_leaves.mpr (removed_unmounted.mp hj))).inode

end

theorem Vfs.Released.unmountable (h : v.Released (v.umounted m) (umountFrees m (v.nodeCount + 1) v))
    (hlt : i < v.nodeCount) (hleaf : v.leafOf m i) : v.Unmountable i := by
  rw [umountFrees_eq] at h
  have hrem := removed_unmounted.mpr ⟨hlt, hleaf⟩
  refine ⟨(leafOf_iff.mp hleaf).2.2, h.inodes i hrem, fun hp => ?_, fun hd => ?_⟩
  · obtain ⟨p, hp⟩ := isSome_iff_exists.mp hp
    by_contra hfree
    have hmem : Kfreed.pipe p ∈ (v.nodes i).kfreed i :=
      mem_kfreed.mpr ⟨Bool.eq_true_of_not_eq_false hfree, .inr ⟨p, hp, rfl⟩⟩
    obtain ⟨j, -, -, hx⟩ := (h.buffers _).mp (mem_flatMap.mpr ⟨i, mem_leaves.mpr ⟨hlt, hleaf⟩, hmem⟩)
    cases hx
  · obtain ⟨k, -, hk⟩ := mem_flatMap.mp ((h.buffers (.buffer i)).mpr ⟨i, hrem, hd, rfl⟩)
    rcases mem_kfreed.mp hk with ⟨hfree, ⟨-, -, hx⟩ | ⟨p, -, hx⟩⟩
    · cases hx
      exact hfree
    · cases hx

/-- Nothing is left below the mount point and what belongs to the removed nodes is released exactly when each of its
    children has no children and no inode, and its buffer, but no pipe, is passed to `kfree`. -/
theorem umount_removes_subtree {path : CStr} (hm : v.resolvePath path = .ok m)
    (hmount : (v.nodes m).mountpoint = true) : (v.umount path).1 = .ok 0 ∧
    (∀ j, j ≠ m → ¬v.Inside m j → (v.umount path).2.nodes j = v.nodes j) ∧
    ((∀ j, j ≠ m → ¬(v.umount path).2.Inside m j) ∧
        v.Released (v.umount path).2 (umountFrees m (v.nodeCount + 1) v) ↔
      ∀ i, i ≠ m → v.ChildOf i m → v.Unmountable i) := by
  have humount : v.umount path = (.ok 0, v.umounted m) := by
    rw [umount, hm]
    simp only [hmount, Bool.not_true, Bool.false_eq_true, if_false, umountRounds_eq, umounted]
  rw [humount]
  refine ⟨rfl, fun j hj hbelow => ?_, fun ⟨hgone, hrel⟩ i him hchild => ?_, fun hall => ?_⟩
  · refine (update_of_ne hj _ _).trans (if_neg fun hleaf => hbelow (.single ⟨hleaf.1, ?_⟩))
    exact ⟨(leafOf_iff.mp hleaf.2).1, (leafOf_iff.mp hleaf.2).2.1⟩
  · refine hrel.unmountable hchild.1 ?_
    by_contra hno
    exact hgone i him (.single (childOf_unmounted.mpr ⟨hchild, Bool.eq_false_iff.mpr hno⟩))
  · exact ⟨fun _ hj => not_inside_umounted hall hj, released_umounted hall⟩

end Unmount

def mountWith : Vfs where
  nodes i :=
    if i = 0 then { name := [slash], type := .directory }
    else if i = 1 then { name := [109], type := .directory, mountpoint := true, writable := true, parent := some 0 }
    else if i = 2 then { n with parent := some 1 }
    else if i = 3 ∧ n.type = .directory then { name := [102], parent := some 2 }
    else {}
  nodeCount := 4

def fileMount : Vfs := mountWith { name := [102], writable := true, data := some fun _ => 0 }

theorem fileMount_unmounted : (∀ j, j ≠ 1 → ¬(fileMount.umount [47, 109]).2.Inside 1 j) ∧
    umountFrees 1 5 fileMount = [.buffer 2] := by
  have h := @umount_removes_subtree fileMount 1 [47, 109] rfl rfl
  refine ⟨(h.2.2.mpr fun i hi hc => ?_).1, by decide⟩
  have hlt : i < 4 := hc.1
  obtain rfl | rfl | rfl | rfl : i = 0 ∨ i = 1 ∨ i = 2 ∨ i = 3 := by omega
  · exact absurd hc.2.2 (by decide)
  · exact absurd rfl hi
  · exact ⟨by decide, fun _ => rfl, fun h => absurd h (by decide), fun _ => rfl⟩
  · exact absurd hc.2.1 (by decide)

/-- A directory with a file in it stays. -/
theorem directory_stays_mounted :
    ((mountWith { name := [100], type := .directory }).umount [47, 109]).1 = .ok 0 ∧
      ((mountWith { name := [100], type := .directory }).umount [47, 109]).2.Inside 1 2 :=
  ⟨by decide, .single ⟨by decide, by decide, by decide⟩⟩

end Limnx
