import Limnx.Theorems.VfsTree

/-! A RAM-backed file is an array of bytes. -/

namespace Limnx
open ByteCodec GuardedRun VfsNode List FsKernel

/-- A file as its users see it: the bytes below its size, and zeros from there on. -/
structure PlainFile where
  size : Nat
  byte : Buf
  zero : ∀ p, size ≤ p → byte p = 0

namespace PlainFile

def read (f : PlainFile) (offset len : Nat) : List UInt8 :=
  (range (min len (f.size - offset))).map fun k => f.byte (offset + k)

def write (f : PlainFile) (offset : Nat) (src : Buf) (len : Nat) : PlainFile where
  size := max f.size (offset + len)
  byte := splice f.byte offset len src
  zero p hp := by rw [splice_of_not_mem (by omega), f.zero p (by omega)]

def truncate (f : PlainFile) (size : Nat) : PlainFile where
  size
  byte p := if p < size then f.byte p else 0
  zero _ hp := if_neg (Nat.not_lt.mpr hp)

end PlainFile

inductive RamOp
  | read (offset len : Nat)
  | write (offset : Nat) (src : Buf) (len : Nat) (buf : Memory)
  | truncate (newSize : Nat) (buf : Memory)

def VfsNode.bytes (n : VfsNode) : Buf := n.data.getD fun _ => 0

def VfsNode.room (n : VfsNode) (buf : Memory) (p : Nat) : UInt8 :=
  if p < n.capacity then n.bytes p else (buf.getD fun _ => 0) p

namespace RamOp

def call (k : FsKernel) (i : Nat) : RamOp → Except Int (List UInt8) × FsKernel
  | .read offset len => k.call (vfsRead i offset len : VfsR _)
  | .write offset src len buf => (k.call (vfsWrite i offset src len buf : VfsW _)).map (·.map fun _ => []) id
  | .truncate newSize buf => (k.call (vfsTruncateNode i newSize buf : VfsW _)).map (·.map fun _ => []) id

def apply (f : PlainFile) : RamOp → PlainFile
  | .read .. => f
  | .write offset src len _ => f.write offset src len
  | .truncate newSize _ => f.truncate newSize

/-- A call that succeeds on node `n` accesses position `p` of the buffer. -/
def Touches (n : VfsNode) (p : Nat) : RamOp → Prop
  | .read offset len => offset ≤ p ∧ p < offset + min len (n.size - offset)
  | .write offset _ len _ => offset ≤ p ∧ p < offset + len
  | .truncate newSize _ => n.size ≤ p ∧ p < newSize

/-- A write ends below `2 ^ 64`, and between the end of the file and `offset` its buffer holds zeros. -/
def Clean (n : VfsNode) : RamOp → Prop
  | .write offset _ len buf => offset + len < 2 ^ 64 ∧ ∀ p, n.size ≤ p → p < offset → n.room buf p = 0
  | _ => True

def step (i : Nat) (s : FsKernel × PlainFile) (op : RamOp) : FsKernel × PlainFile :=
  let r := op.call s.1 i
  (r.2, match r.1 with
    | .ok _ => op.apply s.2
    | .error _ => s.2)

end RamOp

/-- The node is a writable file with a buffer of its own, in which there is room for the file, and holds `f`. -/
structure VfsNode.Backs (n : VfsNode) (f : PlainFile) : Prop where
  used : n.used = true
  type : n.type = .file
  writable : n.writable = true
  diskInode : n.diskInode = none
  fits : n.size ≤ n.capacity
  buffer : n.data = none → n.capacity = 0
  size : n.size = f.size
  byte : ∀ p, p < n.size → n.bytes p = f.byte p

theorem le_grownCapacity (c : Nat) {needed : Nat} (h : needed ≤ vfsMaxFileSize) : needed ≤ grownCapacity c needed := by
  unfold grownCapacity
  generalize hc : (if c = 0 then 4096 else c) = c0
  have hpos : 0 < c0 := by split at hc <;> omega
  have hrounds : ∀ m, min needed (2 ^ m) ≤
      (range m).foldl (fun c _ => if c < needed then c * 2 else c) c0 := by
    intro m
    induction m with
    | zero => exact (Nat.min_le_right _ _).trans hpos
    | succ m ih =>
      rw [range_succ, foldl_append, foldl_cons, foldl_nil, pow_succ]
      split <;> omega
  have hmax : needed ≤ 2 ^ 64 := h.trans (by decide)
  have := hrounds 64
  rw [Nat.min_eq_left hmax] at this
  exact Nat.le_min.mpr ⟨h, this⟩

section
variable {n m : VfsNode} {f : PlainFile} {needed : Nat} {buf : Memory}

theorem VfsNode.Backs.grow (h : n.Backs f) (hmax : needed ≤ vfsMaxFileSize) (hm : n.grow needed buf = some m) :
    m.Backs f ∧ needed ≤ m.capacity ∧ ∀ p < needed, m.bytes p = n.room buf p := by
  unfold VfsNode.grow at hm
  split at hm
  · cases hm
    refine ⟨h, ‹_›, fun p hp => ?_⟩
    rw [room, if_pos (by omega)]
  next hbig =>
    obtain ⟨mem, rfl, rfl⟩ := Option.map_eq_some_iff.mp hm
    have hcap := le_grownCapacity n.capacity hmax
    have hroom : ∀ p, grownData n mem p = n.room (some mem) p := by
      unfold grownData room bytes
      cases hd : n.data with
      | none => simp [h.buffer hd]
      | some old => simp [splice]
    refine ⟨⟨h.used, h.type, h.writable, h.diskInode, ?_, by simp, h.size, fun p hp => ?_⟩, hcap, fun p _ => hroom p⟩
    · have := h.fits
      dsimp only
      omega
    · refine (hroom p).trans ?_
      rw [room, if_pos (Nat.lt_of_lt_of_le hp h.fits)]
      exact h.byte p hp

theorem VfsNode.Backs.write (h : n.Backs f) {offset len : Nat} {src : Buf} (hcap : offset + len ≤ n.capacity)
    (hgap : ∀ p, n.size ≤ p → p < offset → n.bytes p = 0) :
    { n with data := some (splice n.bytes offset len src), size := max n.size (offset + len) }.Backs
      (f.write offset src len) := by
  have hfits := h.fits
  refine ⟨h.used, h.type, h.writable, h.diskInode, by dsimp only; omega, nofun, ?_, fun p hp => ?_⟩
  · rw [PlainFile.write, h.size]
  · show splice n.bytes offset len src p = splice f.byte offset len src p
    by_cases hin : offset ≤ p ∧ p < offset + len
    · rw [splice_of_mem hin.1 hin.2, splice_of_mem hin.1 hin.2]
    rw [splice_of_not_mem (by omega), splice_of_not_mem (by omega)]
    by_cases hsize : p < n.size
    · exact h.byte p hsize
    · rw [hgap p (by omega) (by dsimp only at hp; omega), f.zero p (by have := h.size; omega)]

theorem VfsNode.Backs.truncate (h : n.Backs f) (hcap : needed ≤ n.capacity) :
    { n with data := n.data.map fun d => splice d n.size (needed - n.size) fun _ => 0, size := needed }.Backs
      (f.truncate needed) := by
  refine ⟨h.used, h.type, h.writable, h.diskInode, hcap, fun hd => h.buffer (by simpa using hd), rfl, fun p hp => ?_⟩
  dsimp only at hp
  have hbytes : ∀ d, n.data = some d → splice d n.size (needed - n.size) (fun _ => 0) p = f.byte p := by
    intro d hd
    by_cases hsize : p < n.size
    · rw [splice_of_not_mem (.inl hsize)]
      simpa [bytes, hd] using h.byte p hsize
    · rw [splice_of_mem (by omega) (by omega), f.zero p (by have := h.size; omega)]
  rw [PlainFile.truncate]
  dsimp only
  rw [if_pos hp]
  cases hd : n.data with
  | none => have := h.buffer hd; omega
  | some d => exact hbytes d hd

end

/-- Node `i` holds the file `f` (`VfsNode.Backs`). -/
def FsKernel.Backs (k : FsKernel) (i : Nat) (f : PlainFile) : Prop := i < k.vfs.nodeCount ∧ (k.vfs.nodes i).Backs f

/-- What a call may do: fail and change nothing, or carry out the operation inside the buffer of the node. -/
inductive RamOp.Outcome (k : FsKernel) (i : Nat) (f : PlainFile) (op : RamOp) : Except Int (List UInt8) × FsKernel → Prop
  | failed (e : Int) : Outcome k i f op (.error e, k)
  | done {bs : List UInt8} {n : VfsNode} (hn : n.Backs (op.apply f))
      (htouch : ∀ p, op.Touches (k.vfs.nodes i) p → p < n.capacity)
      (hread : ∀ offset len, op = .read offset len → bs = f.read offset len) :
      Outcome k i f op (.ok bs, { k with vfs := k.vfs.modify i fun _ => n })

section
variable {k : FsKernel} {i : Nat} {f : PlainFile}

section
variable (h : k.Backs i f)
include h

theorem FsKernel.Backs.read (offset len : Nat) :
    RamOp.Outcome k i f (.read offset len) (RamOp.call k i (.read offset len)) := by
  obtain ⟨hi, h⟩ := h
  have hsize := h.size
  have hcall : RamOp.call k i (.read offset len) = (.ok (f.read offset len), k) := by
    unfold RamOp.call call vfsRead
    by_cases hoff : (k.vfs.nodes i).size ≤ offset
    · simp [Nat.not_le.mpr hi, h.used, h.type, hoff, PlainFile.read, show f.size - offset = 0 by omega]
    have hbytes : f.read offset len = (range (min len ((k.vfs.nodes i).size - offset))).map fun p =>
        (k.vfs.nodes i).bytes (offset + p) := by
      rw [PlainFile.read, ← hsize]
      refine map_congr_left fun p hp => (h.byte _ ?_).symm
      rw [mem_range] at hp
      omega
    simp [Nat.not_le.mpr hi, h.used, h.type, hoff, h.diskInode, hbytes, bytes]
  have hself : k.vfs.modify i (fun _ => k.vfs.nodes i) = k.vfs := by
    rw [Vfs.modify, Function.update_eq_self]
  have htouch : ∀ p, RamOp.Touches (k.vfs.nodes i) p (.read offset len) → p < (k.vfs.nodes i).capacity := by
    intro p hp
    have := h.fits
    simp only [RamOp.Touches] at hp
    omega
  have hdone := RamOp.Outcome.done (k := k) (i := i) (f := f) h htouch fun offset len he => by
    cases he
    exact rfl
  rw [hself] at hdone
  exact hcall ▸ hdone

theorem FsKernel.Backs.write {offset len : Nat} {src : Buf} {buf : Memory}
    (hclean : RamOp.Clean (k.vfs.nodes i) (.write offset src len buf)) :
    RamOp.Outcome k i f (.write offset src len buf) (RamOp.call k i (.write offset src len buf)) := by
  obtain ⟨hi, h⟩ := h
  obtain ⟨hwrap, hgap⟩ := hclean
  have hend : u64 (offset + len) = offset + len := Nat.mod_eq_of_lt hwrap
  unfold RamOp.call call vfsWrite
  simp only [hend, StateT.run_bind, StateT.run_get, pure_bind, Nat.not_le.mpr hi, ↓reduceIte, h.used, Bool.not_true,
    Bool.false_eq_true, h.writable, h.diskInode, Prod.map_apply, id_eq]
  by_cases hmax : vfsMaxFileSize < offset + len
  · rw [if_pos hmax]
    exact .failed _
  rw [if_neg hmax]
  cases hg : (k.vfs.nodes i).grow (offset + len) buf with
  | none => exact .failed _
  | some n =>
    obtain ⟨hn, hcap, hroom⟩ := h.grow (Nat.not_lt.mp hmax) hg
    have hsize : n.size = (k.vfs.nodes i).size := hn.size.trans h.size.symm
    refine .done (hn.write hcap fun p hp hlt => ?_) (fun p hp => Nat.lt_of_lt_of_le hp.2 hcap) nofun
    exact (hroom p (by omega)).trans (hgap p (hsize ▸ hp) hlt)

theorem FsKernel.Backs.truncate (newSize : Nat) (buf : Memory) :
    RamOp.Outcome k i f (.truncate newSize buf) (RamOp.call k i (.truncate newSize buf)) := by
  obtain ⟨hi, h⟩ := h
  unfold RamOp.call call vfsTruncateNode
  simp only [StateT.run_bind, StateT.run_get, pure_bind, Nat.not_le.mpr hi, ↓reduceIte, h.used, Bool.not_true,
    Bool.false_eq_true, h.type, ne_eq, not_true_eq_false, h.writable, h.diskInode, Prod.map_apply, id_eq]
  by_cases hmax : vfsMaxFileSize < newSize
  · rw [if_pos hmax]
    exact .failed _
  rw [if_neg hmax]
  cases hg : (k.vfs.nodes i).grow newSize buf with
  | none => exact .failed _
  | some n =>
    obtain ⟨hn, hcap, -⟩ := h.grow (Nat.not_lt.mp hmax) hg
    exact .done (hn.truncate hcap) (fun p hp => Nat.lt_of_lt_of_le hp.2 hcap) nofun

theorem FsKernel.Backs.outcome (op : RamOp) (hclean : op.Clean (k.vfs.nodes i)) : op.Outcome k i f (op.call k i) := by
  cases op with
  | read offset len => exact h.read offset len
  | write offset src len buf => exact h.write hclean
  | truncate newSize buf => exact h.truncate newSize buf

theorem FsKernel.Backs.step (op : RamOp) (hclean : op.Clean (k.vfs.nodes i)) :
    (RamOp.step i (k, f) op).1.Backs i (RamOp.step i (k, f) op).2 := by
  have ho := h.outcome op hclean
  simp only [RamOp.step]
  generalize op.call k i = r at ho
  cases ho with
  | failed e => exact h
  | done hn _ _ => exact ⟨h.1, by simpa only [Vfs.modify, Function.update_self] using hn⟩

end

end

/-- The call is clean on node `i` as it is then. -/
def RamOp.CleanAt (i : Nat) (s : FsKernel × PlainFile) (op : RamOp) : Prop := op.Clean (s.1.vfs.nodes i)

/-- After any calls whose writes are clean, the node holds the abstract file. The next call fails and changes nothing,
    or does what it does to that file, and accesses no position at or past the capacity. -/
theorem ram_file_is_byte_array {k : FsKernel} {i : Nat} {f : PlainFile} (h : k.Backs i f) (ops : List RamOp) (op : RamOp)
    (hops : Guarded (RamOp.step i) (RamOp.CleanAt i) (k, f) (ops ++ [op])) : let s := run (RamOp.step i) (k, f) ops
    s.1.Backs i s.2 ∧ op.Outcome s.1 i s.2 (op.call s.1 i) := by
  rw [guarded_append] at hops
  have hs : (run (RamOp.step i) (k, f) ops).1.Backs i (run (RamOp.step i) (k, f) ops).2 :=
    @Guarded.invariant _ _ _ _ _ _ (fun s => s.1.Backs i s.2) (fun s op hs hop => hs.step op hop) h hops.1
  exact ⟨hs, hs.outcome op hops.2.1⟩

def newRamFile : FsKernel := (fresh.call (vfsCreate [slash, 102] (some fun _ => 7) : VfsW _)).2

def emptyFile : PlainFile := ⟨0, fun _ => 0, fun _ _ => rfl⟩

theorem newRamFile_backs : newRamFile.Backs 1 emptyFile := ⟨by decide, rfl, rfl, rfl, rfl, by decide, nofun, rfl, nofun⟩

theorem newRamFile_is_byte_array : let s := run (RamOp.step 1) (newRamFile, emptyFile) [.write 0 (fun _ => 5) 2 none]
    s.1.Backs 1 s.2 ∧ RamOp.Outcome s.1 1 s.2 (.read 0 4) (RamOp.call s.1 1 (.read 0 4)) :=
  ram_file_is_byte_array newRamFile_backs _ _ ⟨⟨by decide, nofun⟩, trivial, trivial⟩

/-- A file of the initrd, of 5000 bytes and without a capacity, that `vfs_chmod` has made writable. -/
def initrdFile : FsKernel :=
  let k := (fresh.call (registerWith 0 [102] .file 5000 (some fun _ => 7) id : VfsW _)).2
  (k.call (vfsChmod [slash, 102] 0o644 {} : VfsW _)).2

/-- A write past the end of the new file makes the old bytes of its memory readable, and a write whose end wraps
    succeeds far outside the buffer. A write to the initrd file gives it a buffer that is shorter than the file. -/
theorem gap_keeps_old_bytes : newRamFile.Backs 1 emptyFile ∧
    (let s := run (RamOp.step 1) (newRamFile, emptyFile) [.write 2 (fun _ => 5) 1 none]
    (RamOp.call s.1 1 (.read 0 3)).1 = .ok [7, 7, 5] ∧ s.2.read 0 3 = [0, 0, 5]) ∧
    (RamOp.call newRamFile 1 (.write (2 ^ 64 - 1) (fun _ => 5) 2 none)).1 = .ok [] ∧
    (newRamFile.vfs.nodes 1).capacity < 2 ^ 64 - 1 ∧ (initrdFile.vfs.nodes 1).writable = true ∧
    let k := (RamOp.call initrdFile 1 (.write 0 (fun _ => 5) 1 (some fun _ => 0))).2
    (k.vfs.nodes 1).capacity = 4096 ∧ RamOp.Touches (k.vfs.nodes 1) 4096 (.read 4096 1) ∧
      (RamOp.call k 1 (.read 4096 1)).1.toBool :=
  ⟨newRamFile_backs, ⟨rfl, rfl⟩, rfl, by decide, rfl, by decide +kernel, ⟨by decide, by decide⟩, rfl⟩

end Limnx
