import Limnx.Theorems.LfsFrame
import Limnx.Theorems.VfsDisk
import Limnx.Theorems.VfsTree

/-! Calls on other files leave a file on disk alone. -/

open Option

namespace Limnx
open Function

variable {path : CStr}

section Table
variable {ρ ω : Bool} {v w : Vfs} {i j : Nat}

theorem Vfs.Rewritten.node (h : v.Rewritten i w) (hj : j = i → (v.nodes i).writable = false) : w.nodes j = v.nodes j := by
  cases h with
  | kept => rfl
  | data hw _ =>
    refine update_of_ne (fun hji => ?_) _ _
    rw [hj hji] at hw
    cases hw

theorem Vfs.Rewritten.count (h : v.Rewritten i w) : w.nodeCount = v.nodeCount := by
  cases h <;> rfl

theorem Vfs.Rewritten.kind (h : v.Rewritten i w) (j : Nat) :
    (w.nodes j).type = (v.nodes j).type ∧ (w.nodes j).diskInode = (v.nodes j).diskInode := by
  cases h with
  | kept => exact ⟨rfl, rfl⟩
  | @data n _ hn =>
    obtain rfl | hji := eq_or_ne j i
    · simp only [Vfs.modify, update_self]
      exact ⟨hn.1, hn.2.1⟩
    · simp only [Vfs.modify, update_of_ne hji, and_self]

inductive Vfs.Chmodded (v : Vfs) (path : CStr) : Vfs → Prop
  | kept : Chmodded v path v
  | set {i : Nat} (hi : v.resolvePath path = .ok i) (mode : U16) (writable : Bool) :
      Chmodded v path (v.modify i fun n => { n with mode, writable })

theorem vfsChmod_chmodded (path : CStr) (mode : U16) (stack : Inode) :
    Ensures (vfsChmod path mode stack : VfsM ρ true _) v fun _ => v.Chmodded path := by
  refine .get_bind ?_
  cases hi : v.resolvePath path with
  | error e => exact .pure .kept
  | ok i =>
    refine .set_bind ?_
    cases (v.nodes i).diskInode with
    | none => exact .pure (.set hi _ _)
    | some ino => exact .onLfs_bind fun _ => .onLfs_bind fun _ => .pure (.set hi _ _)

theorem Vfs.freeSlot_ne (hlt : i < v.nodeCount) (hused : (v.nodes i).used) (h : v.freeSlot = some j) : i ≠ j := by
  rintro rfl
  unfold Vfs.freeSlot at h
  split at h
  next k hk =>
    cases h
    have hfree := List.find?_some hk
    rw [hused] at hfree
    cases hfree
  · split at h
    · cases h
      exact Nat.lt_irrefl _ hlt
    · cases h

theorem Vfs.Made.node {type : NodeType} {r : VfsResult} (h : v.Made path type r w)
    (hlt : i < v.nodeCount) (hused : (v.nodes i).used) :
    w.nodes i = v.nodes i ∧ v.nodeCount ≤ w.nodeCount ∧ r ≠ .ok i := by
  cases h with
  | failed => exact ⟨rfl, Nat.le_refl _, nofun⟩
  | made _ hreg _ =>
    obtain ⟨hslot, hkeep, hcount, -⟩ := Vfs.registerNode_some hreg
    have hne := Vfs.freeSlot_ne hlt hused hslot
    refine ⟨(update_of_ne hne _ _).trans (hkeep _ hne), ?_, fun h => hne ?_⟩
    · exact (Nat.le_max_left _ _).trans_eq hcount.symm
    · cases h
      rfl

end Table

structure Vfs.Sole (v : Vfs) (i ino : Nat) : Prop where
  file : (v.nodes i).type = .file
  alone : ∀ j, j ≠ i → (v.nodes j).type ≠ .device → (v.nodes j).diskInode ≠ some ino

namespace Vfs.Sole
variable {v w : Vfs} {i j ino : Nat}

theorem of_kind (h : v.Sole i ino)
    (hkind : ∀ j, (w.nodes j).type = (v.nodes j).type ∧ (w.nodes j).diskInode = (v.nodes j).diskInode) : w.Sole i ino := by
  refine ⟨(hkind i).1.trans h.file, fun j hj htype => ?_⟩
  rw [(hkind j).1] at htype
  rw [(hkind j).2]
  exact h.alone j hj htype

theorem modify (h : v.Sole i ino) {f : VfsNode → VfsNode}
    (hf : ∀ n, (f n).type = n.type ∧ (f n).diskInode = n.diskInode) : (v.modify j f).Sole i ino := by
  refine h.of_kind fun k => ?_
  obtain rfl | hk := eq_or_ne k j
  · simp only [Vfs.modify, update_self]
    exact hf _
  · simp only [Vfs.modify, update_of_ne hk, and_self]

theorem registerWith (h : v.Sole i ino) (hlt : i < v.nodeCount) (hused : (v.nodes i).used) {ρ ω : Bool}
    {parent : Nat} {name : CStr} {type : NodeType} {size : Nat} {data : Memory} {f : VfsNode → VfsNode}
    (hf : ∀ n, n.diskInode = none → (f n).diskInode ≠ some ino) :
    Ensures (Limnx.registerWith parent name type size data f : VfsM ρ ω _) v fun _ w => w.Sole i ino := by
  refine .registerWith (fun _ => h) fun k w hreg => ?_
  obtain ⟨hslot, hkeep, -⟩ := Vfs.registerNode_some hreg
  have hnew : (w.nodes k).diskInode = none := by
    obtain ⟨_, _, he⟩ := map_eq_some_iff.mp hreg
    cases he
    simp only [update_self]
  have hother : ∀ j ≠ k, (w.modify k f).nodes j = v.nodes j := fun j hj => (update_of_ne hj _ _).trans (hkeep j hj)
  refine ⟨?_, fun j hji htype => ?_⟩
  · rw [hother i (Vfs.freeSlot_ne hlt hused hslot)]
    exact h.file
  · obtain rfl | hjk := eq_or_ne j k
    · simp only [Vfs.modify, update_self]
      exact hf _ hnew
    · rw [hother j hjk] at htype ⊢
      exact h.alone j hji htype

end Vfs.Sole

/-- File `i` is stored in inode `ino`, which is in use and no other node's. -/
structure VfsFs.Alone (s : VfsFs) (i ino : Nat) : Prop where
  sound : FsSound s.fs
  lt : ino < maxInodes
  nonroot : ino ≠ 0
  marked : ino ∉ s.fs.lfs.clearInodes
  sole : s.vfs.Sole i ino

namespace VfsFs
variable {s s' : VfsFs} {i j ino : Nat} {buf : Memory}

theorem call_ensures {ρ ω : Bool} {α : Type} {p : VfsM ρ ω α} {Q : α → Vfs → Prop} (h : Ensures p s.vfs Q) :
    Q (s.call p).1 (s.call p).2.vfs := h.run Handler.plain s.fs.lfs s.fs.mem

section
variable (h : s.Alone i ino)
include h

theorem Alone.of_lfsOp {o : Option LfsOp} (hfs : s'.fs = s.fs.stepOpt o)
    (ho : ∀ lop, o = some lop → lop.Safe s.fs ∧ ¬lop.Touches s.fs ino) (hsole : s'.vfs.Sole i ino) :
    s'.Alone i ino ∧ Untouched s.fs s'.fs ino := by
  have hu : FsSound s'.fs ∧ Untouched s.fs s'.fs ino := by
    rw [hfs]
    cases o with
    | none => exact ⟨h.sound, .refl _ _⟩
    | some lop =>
      obtain ⟨hsafe, hnot⟩ := ho lop rfl
      exact ⟨h.sound.step hsafe, h.sound.untouched h.lt hsafe h.marked hnot⟩
  exact ⟨⟨hu.1, h.lt, h.nonroot, hu.2.clear h.marked, hsole⟩, hu.2⟩

theorem Alone.dir_ne {p : Nat} (hp : (s.vfs.nodes p).type = .directory) : ino ≠ (s.vfs.nodes p).diskInode.getD 0 := by
  have hpi : p ≠ i := fun heq => by
    rw [heq, h.sole.file] at hp
    cases hp
  have hother := h.sole.alone p hpi (by rw [hp]; exact NodeType.noConfusion)
  cases hd : (s.vfs.nodes p).diskInode with
  | none => exact h.nonroot
  | some x =>
    rw [hd] at hother
    exact fun heq => hother (congrArg some heq.symm)

section
variable (hlt : i < s.vfs.nodeCount) (hused : (s.vfs.nodes i).used = true)
  (hsafe : ∀ lop, (VfsOp.create path buf).lfsOp s.vfs s.fs.lfs.mounted = some lop → lop.Safe s.fs)
include hlt hused hsafe

theorem Alone.create_sole : (s.call (vfsCreate path buf : VfsW _)).2.vfs.Sole i ino := by
  simp only [vfsCreate, call_get_bind]
  rw [VfsOp.lfsOp] at hsafe
  cases hentry : s.vfs.newEntry path with
  | error e => exact h.sole
  | ok r =>
    obtain ⟨parent, base⟩ := r
    rw [hentry] at hsafe
    show (VfsFs.call s (if s.fs.lfs.mounted = true then _ else _)).2.vfs.Sole i ino
    by_cases hm : s.fs.lfs.mounted
    · dsimp only at hsafe
      rw [if_pos hm] at hsafe
      rw [if_pos hm, call_onLfs_bind]
      have hc := exec_create (ρ := false) h.sound typeFile 6 base (hsafe _ rfl)
      rw [← limnfsCreateFile] at hc
      generalize exec (limnfsCreateFile ((s.vfs.nodes parent).diskInode.getD 0) base : LfsW _) s.fs = r at hc
      cases hc with
      | noInode | failed => exact h.sole
      | @made x σ1 hclear _ _ =>
        refine call_ensures (s := ⟨s.vfs, σ1⟩) (h.sole.registerWith hlt hused fun _ _ => ?_)
        exact fun heq => h.marked (Option.some.inj heq ▸ hclear)
    · rw [if_neg hm]
      cases buf with
      | none => exact h.sole
      | some m =>
        refine call_ensures (h.sole.registerWith hlt hused fun n hn => ?_)
        rw [hn]
        exact some_ne_none ino |>.symm

theorem Alone.create :
    (s.call (vfsCreate path buf : VfsW _)).2.Alone i ino ∧
      Untouched s.fs (s.call (vfsCreate path buf : VfsW _)).2.fs ino := by
  refine h.of_lfsOp (call_fs (.create path buf)) (fun lop hlop => ⟨hsafe lop hlop, ?_⟩) (h.create_sole hlt hused hsafe)
  rw [VfsOp.lfsOp] at hlop
  split at hlop
  · cases hlop
  rename_i parent base hentry
  split at hlop
  · cases hlop
    exact h.dir_ne (Vfs.newEntry_ok hentry).2.2.2
  · cases hlop

end

theorem Alone.write {offset len : Nat} {src : Buf} (hj : j = i → (s.vfs.nodes i).writable = false)
    (hdev : (s.vfs.nodes j).type = .device → (s.vfs.nodes j).diskInode ≠ some ino)
    (hsafe : ∀ lop, (VfsOp.write j offset src len buf).lfsOp s.vfs s.fs.lfs.mounted = some lop → lop.Safe s.fs) :
    (s.call (vfsWrite j offset src len buf : VfsW _)).2.Alone i ino ∧
      Untouched s.fs (s.call (vfsWrite j offset src len buf : VfsW _)).2.fs ino := by
  have hsole := h.sole.of_kind (call_ensures (s := s) (vfsWrite_rewritten offset src len buf (i := j) (ρ := false))).kind
  refine h.of_lfsOp (call_fs (.write j offset src len buf)) (fun lop hlop => ⟨hsafe lop hlop, ?_⟩) hsole
  rw [VfsOp.lfsOp] at hlop
  split_ifs at hlop with _ _ hw
  obtain ⟨x, hx, rfl⟩ := map_eq_some_iff.mp hlop
  intro heq
  subst heq
  by_cases hji : j = i
  · rw [hji, hj hji] at hw
    exact hw rfl
  by_cases htype : (s.vfs.nodes j).type = .device
  · exact hdev htype hx
  · exact h.sole.alone j hji htype hx

theorem Alone.truncate {n : Nat} (hj : j = i → (s.vfs.nodes i).writable = false) :
    (s.call (vfsTruncateNode j n buf : VfsW _)).2.Alone i ino ∧
      Untouched s.fs (s.call (vfsTruncateNode j n buf : VfsW _)).2.fs ino := by
  have hsole := h.sole.of_kind (call_ensures (s := s) (truncate_rewritten n buf (i := j) (ρ := false))).kind
  refine h.of_lfsOp (call_fs (.truncate j n buf)) (fun lop hlop => ?_) hsole
  rw [VfsOp.lfsOp] at hlop
  split_ifs at hlop with _ _ htype hw
  obtain ⟨x, hx, rfl⟩ := map_eq_some_iff.mp hlop
  refine ⟨trivial, fun heq => ?_⟩
  subst heq
  by_cases hji : j = i
  · rw [hji, hj hji] at hw
    exact hw rfl
  refine h.sole.alone j hji ?_ hx
  rw [not_not.mp htype]
  exact NodeType.noConfusion

theorem Alone.chmod {mode : U16} {stack : Inode} (hpath : ∀ j, s.vfs.resolvePath path = .ok j → j ≠ i ∧
      ((s.vfs.nodes j).type = .device → (s.vfs.nodes j).diskInode ≠ some ino)) :
    (s.call (vfsChmod path mode stack : VfsW _)).2.Alone i ino ∧
      Untouched s.fs (s.call (vfsChmod path mode stack : VfsW _)).2.fs ino := by
  simp only [vfsChmod, call_get_bind]
  cases hi : s.vfs.resolvePath path with
  | error e => exact ⟨h, .refl _ _⟩
  | ok j =>
    obtain ⟨hji, hdev⟩ := hpath j hi
    simp only [call_set_bind]
    have hsole : ∀ mode writable, (s.vfs.modify j fun n => { n with mode, writable }).Sole i ino := fun _ _ =>
      h.sole.modify fun _ => ⟨rfl, rfl⟩
    cases hd : (s.vfs.nodes j).diskInode with
    | none => exact ⟨{ h with sole := hsole _ _ }, .refl _ _⟩
    | some x =>
      have hx : ino ≠ x := by
        rintro rfl
        by_cases htype : (s.vfs.nodes j).type = .device
        · exact hdev htype hd
        · exact h.sole.alone j hji htype hd
      simp only [call_onLfs_bind, call_pure]
      have hfs : (exec (limnfsReadInode x : LfsW _) s.fs).2 = s.fs := by rw [exec_readInode]
      rw [hfs]
      obtain ⟨hs, hu⟩ := h.sound.modeWritten (ρ := false) h.lt x stack
        ((if mode ≤ 7 then mode <<< 6 ||| mode <<< 3 ||| mode else mode) &&& 0xFFF).toNat hx
      exact ⟨⟨hs, h.lt, h.nonroot, hu.clear h.marked, hsole _ _⟩, hu⟩

end

end VfsFs

end Limnx
