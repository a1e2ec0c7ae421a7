import Limnx.SysFs

/-! The records of `sys_getdents64`. -/

namespace Limnx
open ByteCodec FsKernel List

def Vfs.isChild (v : Vfs) (dir i : Nat) : Bool := (v.nodes i).used && (v.nodes i).parent == some dir

def Vfs.children (v : Vfs) (dir : Nat) : List Nat := (List.range v.nodeCount).filter (v.isChild dir)

def direntRecords (v : Vfs) : Nat → List Nat → List UInt8
  | _, [] => []
  | live, i :: is => direntBytes (v.nodes i) i (live + 1) ++ direntRecords v (live + 1) is

def direntsFit (v : Vfs) (bufsize : Nat) : Nat → List Nat → Nat
  | _, [] => 0
  | pos, i :: is =>
    if bufsize < pos + direntReclen (v.nodes i).name then 0
    else direntsFit v bufsize (pos + direntReclen (v.nodes i).name) is + 1

/-- `DT_REG`, `DT_DIR`, `DT_LNK`, `DT_FIFO` and `DT_CHR` of the Linux interface. -/
def dtOf : NodeType → UInt8
  | .file => 8
  | .directory => 4
  | .symlink => 10
  | .fifo => 1
  | .device => 2

theorem direntType_eq_iff (type : NodeType) : direntType type = dtOf type ↔ type ≠ .device := by cases type <;> decide

/-- A well-formed `linux_dirent64` with these fields. -/
structure IsDirent (r : List UInt8) (ino next : Nat) (type : UInt8) (name : CStr) : Prop where
  aligned : r.length % 8 = 0
  reclen : decode (r.getD · 0) 16 2 = r.length
  ino : decode (r.getD · 0) 0 8 = ino
  next : decode (r.getD · 0) 8 8 = next
  type : r.getD 18 0 = type
  ends : 19 + name.length < r.length ∧ r.getD (19 + name.length) 0 = 0
  name : (r.drop 19).take name.length = name

structure Vfs.Fits (v : Vfs) : Prop where
  count : v.nodeCount ≤ maxVfsNodes
  name : ∀ i, (v.nodes i).name.length < maxPath

section
variable {v : Vfs} {dir index bufsize : Nat}

theorem direntReclen_eq {name : CStr} (h : name.length < maxPath) : direntReclen name = (27 + name.length) / 8 * 8 := by
  simp only [maxPath] at h
  simp only [direntReclen]
  omega

theorem direntBytes_length (hv : v.Fits) (i next : Nat) :
    (direntBytes (v.nodes i) i next).length = direntReclen (v.nodes i).name := by
  have := direntReclen_eq (hv.name i)
  simp only [direntBytes, length_append, length_map, length_range, length_cons,
    length_replicate]
  omega

theorem direntRecords_append (live : Nat) (is js : List Nat) :
    direntRecords v live (is ++ js) = direntRecords v live is ++ direntRecords v (live + is.length) js := by
  induction is generalizing live with
  | nil => rfl
  | cons i is ih =>
    simp only [cons_append, direntRecords, length_cons, append_assoc]
    rw [ih, Nat.add_right_comm, Nat.add_assoc]

theorem direntsLoop_cons {i live offset : Nat} {is : List Nat} {out : List UInt8} (hi : i < v.nodeCount) :
    direntsLoop v dir index bufsize (i :: is) live out offset =
      if v.isChild dir i then
        if live < index then direntsLoop v dir index bufsize is (live + 1) out offset
        else if bufsize < out.length + direntReclen (v.nodes i).name then (out, offset)
        else direntsLoop v dir index bufsize is (live + 1) (out ++ direntBytes (v.nodes i) i (live + 1)) (live + 1)
      else direntsLoop v dir index bufsize is live out offset := by
  rw [direntsLoop, Vfs.getNode]
  by_cases hu : (v.nodes i).used
  · by_cases hp : (v.nodes i).parent = some dir <;> simp [hi, hu, hp, Vfs.isChild]
  · simp [hu, Vfs.isChild]

theorem direntsLoop_put (hv : v.Fits) {l : List Nat} (hl : ∀ i ∈ l, i < v.nodeCount) {live offset : Nat}
    {out : List UInt8} (hlive : index ≤ live) :
    direntsLoop v dir index bufsize l live out offset =
      let cs := (l.filter (v.isChild dir)).take (direntsFit v bufsize out.length (l.filter (v.isChild dir)))
      (out ++ direntRecords v live cs, if cs = [] then offset else live + cs.length) := by
  induction l generalizing live out offset with
  | nil => simp [direntsLoop, direntsFit, direntRecords]
  | cons i l ih =>
    have hrest := fun j hj => hl j (mem_cons_of_mem i hj)
    rw [direntsLoop_cons (hl i mem_cons_self)]
    by_cases hc : v.isChild dir i
    · rw [if_pos hc, if_neg (Nat.not_lt.mpr hlive), filter_cons_of_pos hc, direntsFit]
      by_cases hfull : bufsize < out.length + direntReclen (v.nodes i).name
      · simp [if_pos hfull, direntRecords]
      rw [if_neg hfull, if_neg hfull, ih hrest (by omega), length_append, direntBytes_length hv]
      simp only [take_succ_cons, direntRecords, append_assoc, length_cons, reduceCtorEq, if_false]
      split
      next hnil => simp [hnil]
      · rw [Nat.add_assoc, Nat.add_comm 1]
    · rw [if_neg hc, filter_cons_of_neg hc]
      exact ih hrest hlive

theorem direntsLoop_eq (hv : v.Fits) {l : List Nat} (hl : ∀ i ∈ l, i < v.nodeCount) {live offset : Nat}
    (hlive : live ≤ index) (hindex : index ≤ live + (l.filter (v.isChild dir)).length) :
    direntsLoop v dir index bufsize l live [] offset =
      let rest := (l.filter (v.isChild dir)).drop (index - live)
      let cs := rest.take (direntsFit v bufsize 0 rest)
      (direntRecords v index cs, if cs = [] then offset else index + cs.length) := by
  induction l generalizing live with
  | nil => simp [direntsLoop, direntRecords]
  | cons i l ih =>
    have hrest := fun j hj => hl j (mem_cons_of_mem i hj)
    obtain rfl | heq := eq_or_ne index live
    · rw [direntsLoop_put hv hl (Nat.le_refl _)]
      simp
    · rw [direntsLoop_cons (hl i mem_cons_self)]
      by_cases hc : v.isChild dir i
      · rw [filter_cons_of_pos hc, length_cons] at hindex
        rw [if_pos hc, if_pos (by omega), filter_cons_of_pos hc, ih hrest (by omega) (by omega),
          show index - live = index - (live + 1) + 1 by omega, drop_succ_cons]
      · rw [filter_cons_of_neg hc] at hindex
        rw [if_neg hc, filter_cons_of_neg hc]
        exact ih hrest hlive hindex

theorem direntRecords_length (hv : v.Fits) {live pos : Nat} (is : List Nat) (hpos : pos ≤ bufsize) :
    pos + (direntRecords v live (is.take (direntsFit v bufsize pos is))).length ≤ bufsize := by
  induction is generalizing live pos with
  | nil => simpa [direntRecords] using hpos
  | cons i is ih =>
    rw [direntsFit]
    split
    · simpa [direntRecords] using hpos
    rename_i hfit
    rw [take_succ_cons, direntRecords, length_append, direntBytes_length hv, ← Nat.add_assoc]
    exact ih (Nat.not_lt.mp hfit)

theorem decode_append {l a b : List UInt8} {off w n : Nat} (hl : l = a ++ (List.range w).map (byteOf n) ++ b)
    (hoff : a.length = off) (hn : n < 256 ^ w) : decode (l.getD · 0) off w = n := by
  subst hl
  have h0 : n = decode (byteOf n) 0 w := by simp [decode_byteOf, Nat.mod_eq_of_lt hn]
  nth_rewrite 2 [h0]
  refine decode_shift 0 fun j hj => ?_
  subst hoff
  simp [getD_eq_getElem?_getD, getElem?_append, hj]

theorem direntBytes_isDirent (hv : v.Fits) {i next : Nat} (hi : i < v.nodeCount) (hnext : next ≤ v.nodeCount) :
    IsDirent (direntBytes (v.nodes i) i next) (i + 1) next (direntType (v.nodes i).type) (v.nodes i).name := by
  have hcount : v.nodeCount ≤ 1024 := hv.count
  have hname : (v.nodes i).name.length < 256 := hv.name i
  have hlen := direntBytes_length hv i next
  have hreclen := direntReclen_eq (hv.name i)
  obtain ⟨head, hhead, hbytes⟩ : ∃ head : List UInt8, head.length = 19 ∧ direntBytes (v.nodes i) i next =
      head ++ ((v.nodes i).name ++ replicate (direntReclen (v.nodes i).name - (19 + (v.nodes i).name.length)) 0) :=
    ⟨(range 8).map (byteOf (i + 1)) ++ (range 8).map (byteOf next) ++
      (range 2).map (byteOf (direntReclen (v.nodes i).name)) ++ [direntType (v.nodes i).type], by simp,
      by simp [direntBytes]⟩
  refine ⟨by omega, ?_, decode_append (a := []) rfl rfl (by omega), ?_, rfl, ⟨by omega, ?_⟩, ?_⟩
  · rw [hlen]
    exact decode_append ((append_assoc ..).symm.trans (append_assoc ..).symm) (by simp) (by omega)
  · exact decode_append (append_assoc ..).symm (by simp) (by omega)
  · rw [hbytes, getD_append_right _ _ _ _ (by omega), hhead, Nat.add_sub_cancel_left,
      getD_append_right _ _ _ _ (Nat.le_refl _)]
    simp
  · rw [hbytes, ← hhead, drop_left, take_left]

end

namespace FsKernel

/-- The descriptor is open on the directory `dir`, and `m` of its children have been listed. -/
structure Lists (k : FsKernel) (t fd dir m : Nat) : Prop where
  lt : fd < maxFds
  node : ((k.tasks t).fds fd).node = some dir
  offset : ((k.tasks t).fds fd).offset = m
  known : dir < k.vfs.nodeCount
  type : (k.vfs.nodes dir).type = .directory
  fits : k.vfs.Fits
  le : m ≤ (k.vfs.children dir).length

def getdentsRun (t fd : Nat) : FsKernel → List Nat → List (Except Int (List UInt8)) × FsKernel
  | k, [] => ([], k)
  | k, b :: bs =>
    let r := k.sysGetdents64 t fd b true
    let rs := getdentsRun t fd r.2 bs
    (r.1 :: rs.1, rs.2)

variable {k : FsKernel} {t fd dir m b : Nat}

theorem Lists.call (h : k.Lists t fd dir m) (hb : 0 < b) : let rest := (k.vfs.children dir).drop m
    let cs := rest.take (direntsFit k.vfs b 0 rest)
    let r := k.sysGetdents64 t fd b true
    r.1 = .ok (direntRecords k.vfs m cs) ∧ r.2.vfs = k.vfs ∧ r.2.Lists t fd dir (m + cs.length) := by
  have hlen : (k.vfs.children dir).length ≤ 1024 := ((length_filter_le ..).trans_eq length_range).trans h.fits.count
  have hindex : u32 m = m := Nat.mod_eq_of_lt (by have := h.le; omega)
  intro rest cs r
  have hle : m + cs.length ≤ (k.vfs.children dir).length := by
    have := h.le
    simp only [cs, rest, length_take, length_drop]
    omega
  have hr : r = (.ok (direntRecords k.vfs m cs),
      k.setFd t fd { (k.tasks t).fds fd with offset := if cs = [] then m else m + cs.length }) := by
    simp only [r, sysGetdents64]
    rw [if_neg (Nat.not_le.mpr h.lt), if_neg hb.ne', if_neg (by simp)]
    simp only [h.node]
    rw [if_neg (not_not.mpr h.type), if_neg (Nat.not_le.mpr h.known), h.offset, hindex,
      direntsLoop_eq h.fits (fun i hi => mem_range.mp hi) (Nat.zero_le _) (by rw [Nat.zero_add]; exact h.le)]
    rfl
  rw [hr]
  refine ⟨rfl, rfl, h.lt, ?_, ?_, h.known, h.type, h.fits, hle⟩
  · simpa [setFd] using h.node
  · simp only [setFd, Function.update_self]
    split
    next hnil => simp [hnil]
    · rfl

theorem Lists.run (h : k.Lists t fd dir m) {sizes : List Nat} (hsizes : ∀ b ∈ sizes, 0 < b) :
    ∃ (outs : List (List UInt8)) (cs : List Nat), (getdentsRun t fd k sizes).1 = outs.map .ok ∧
      Forall₂ (fun out b => out.length ≤ b) outs sizes ∧ outs.flatten = direntRecords k.vfs m cs ∧
      cs <+: (k.vfs.children dir).drop m ∧ (getdentsRun t fd k sizes).2.vfs = k.vfs ∧
      (getdentsRun t fd k sizes).2.Lists t fd dir (m + cs.length) := by
  induction sizes generalizing k m with
  | nil => exact ⟨[], [], rfl, .nil, rfl, nil_prefix, rfl, h⟩
  | cons b sizes ih =>
    obtain ⟨hout, hvfs, hnext⟩ := h.call (hsizes b mem_cons_self)
    obtain ⟨outs, cs', houts, hfit, hflat, hpre, hvfs', hlast⟩ :=
      ih hnext fun b' hb' => hsizes b' (mem_cons_of_mem b hb')
    generalize hcs : ((k.vfs.children dir).drop m).take (direntsFit k.vfs b 0 ((k.vfs.children dir).drop m)) = cs
      at hout hnext hpre hlast hflat
    refine ⟨direntRecords k.vfs m cs :: outs, cs ++ cs', ?_, .cons ?_ hfit, ?_, ?_, hvfs'.trans hvfs, ?_⟩
    · rw [getdentsRun, hout, houts, map_cons]
    · rw [← hcs]
      exact (Nat.zero_add _).symm.trans_le (direntRecords_length h.fits _ (Nat.zero_le b))
    · rw [flatten_cons, direntRecords_append, hflat, hvfs]
    · obtain ⟨tail, htail⟩ : cs <+: (k.vfs.children dir).drop m := hcs ▸ take_prefix _ _
      rw [hvfs, ← drop_drop, ← htail, drop_left] at hpre
      rw [← htail]
      exact (prefix_append_right_inj cs).mpr hpre
    · rw [length_append, ← Nat.add_assoc]
      exact hlast

theorem Lists.returns_nil (h : k.Lists t fd dir m) (hb : 0 < b) : (k.sysGetdents64 t fd b true).1 = .ok [] ↔
    ∀ i, (k.vfs.children dir)[m]? = some i → b < direntReclen (k.vfs.nodes i).name := by
  rw [(h.call hb).1, Except.ok.injEq, ← head?_drop]
  cases (k.vfs.children dir).drop m with
  | nil => simp [direntRecords]
  | cons i is =>
    have hpos : 0 < direntReclen (k.vfs.nodes i).name := by
      have := direntReclen_eq (h.fits.name i)
      omega
    rw [direntsFit]
    by_cases hfull : b < 0 + direntReclen (k.vfs.nodes i).name
    · rw [if_pos hfull]
      simpa [direntRecords] using hfull
    rw [if_neg hfull, take_succ_cons, direntRecords, append_eq_nil_iff, ← length_eq_zero_iff,
      direntBytes_length h.fits]
    simp only [head?_cons, Option.some.injEq, forall_eq']
    omega

end FsKernel

/-- After any calls on a directory just opened, with buffers of any sizes, what was written lists the first children in
    well-formed records, with their types exactly as far as they are no devices. The next call returns 0 only at the end
    exactly when the record of the next child fits. -/
theorem getdents_lists_children {k : FsKernel} {t fd dir : Nat} (h : k.Lists t fd dir 0) {sizes : List Nat}
    (hsizes : ∀ b ∈ sizes, 0 < b) {b : Nat} (hb : 0 < b) :
    (∀ j i, (k.vfs.children dir)[j]? = some i →
      IsDirent (direntBytes (k.vfs.nodes i) i (j + 1)) (i + 1) (j + 1) (direntType (k.vfs.nodes i).type)
        (k.vfs.nodes i).name ∧
      (direntType (k.vfs.nodes i).type = dtOf (k.vfs.nodes i).type ↔ (k.vfs.nodes i).type ≠ .device)) ∧
    ∃ (outs : List (List UInt8)) (m : Nat), m ≤ (k.vfs.children dir).length ∧
      (getdentsRun t fd k sizes).1 = outs.map .ok ∧ Forall₂ (fun out b => out.length ≤ b) outs sizes ∧
      outs.flatten = direntRecords k.vfs 0 ((k.vfs.children dir).take m) ∧
      ((((getdentsRun t fd k sizes).2.sysGetdents64 t fd b true).1 = .ok [] → m = (k.vfs.children dir).length) ↔
        ∀ i, (k.vfs.children dir)[m]? = some i → direntReclen (k.vfs.nodes i).name ≤ b) := by
  refine ⟨fun j i hj => ?_, ?_⟩
  · obtain ⟨hlt, rfl⟩ := List.getElem?_eq_some_iff.mp hj
    have hmem := mem_range.mp (mem_of_mem_filter (getElem_mem hlt))
    refine ⟨direntBytes_isDirent h.fits hmem ?_, direntType_eq_iff _⟩
    exact Nat.succ_le_of_lt (hlt.trans_le ((length_filter_le ..).trans_eq length_range))
  · obtain ⟨outs, cs, houts, hfit, hflat, hpre, hvfs, hlast⟩ := h.run hsizes
    rw [drop_zero] at hpre
    refine ⟨outs, cs.length, hpre.length_le, houts, hfit, ?_, ?_⟩
    · rw [hflat, ← prefix_iff_eq_take.mp hpre]
    · rw [hlast.returns_nil hb, hvfs]
      by_cases hall : cs.length = (k.vfs.children dir).length
      · simp [hall]
      · have hlt : cs.length < (k.vfs.children dir).length := lt_of_le_of_ne hpre.length_le hall
        simp [hall, getElem?_eq_getElem hlt]

def oneChild (type : NodeType) : FsKernel where
  cache := .blank
  vfs := { Vfs.init with
    nodes := Function.update Vfs.init.nodes 1 { name := [102], type, parent := some 0, writable := true }, nodeCount := 2 }
  tasks := fun _ => { fds := fun _ => { node := some 0 } }

theorem oneChild_lists (type : NodeType) : (oneChild type).Lists 0 3 0 0 := by
  refine ⟨by decide, rfl, rfl, Nat.two_pos, rfl, ⟨(by decide : 2 ≤ maxVfsNodes), fun i => ?_⟩, Nat.zero_le _⟩
  match i with
  | 0 | 1 => exact (by decide : 1 < maxPath)
  | i + 2 => exact Nat.zero_lt_succ _

theorem oneChild_listed : let k := oneChild .file
    ∃ outs : List (List UInt8), (getdentsRun 0 3 k [64]).1 = outs.map .ok ∧
      outs.flatten = direntBytes (k.vfs.nodes 1) 1 1 ∧ IsDirent (direntBytes (k.vfs.nodes 1) 1 1) 2 1 (dtOf .file) [102] := by
  have h := @getdents_lists_children (oneChild .file) 0 3 0 (oneChild_lists _) [64] (by decide) 64 (by decide)
  obtain ⟨outs, m, -, houts, -, hflat, hend⟩ := h.2
  obtain rfl : m = 1 := by
    refine hend.mpr (fun i hi => ?_) rfl
    obtain rfl : i = 1 := List.mem_singleton.mp (List.mem_of_getElem? hi)
    decide
  exact ⟨outs, houts, hflat, (h.1 0 1 rfl).1⟩

/-- A buffer of 16 bytes is too small for the record of the file: the call says that the listing is at its end. A device
    is listed without its type. -/
theorem listing_ends_early : (oneChild .file).Lists 0 3 0 0 ∧ (oneChild .file).vfs.children 0 = [1] ∧
    ((oneChild .file).sysGetdents64 0 3 16 true).1 = .ok [] ∧ (oneChild .device).Lists 0 3 0 0 ∧
    ∃ bs, ((oneChild .device).sysGetdents64 0 3 64 true).1 = .ok bs ∧ bs.getD 18 0 ≠ dtOf .device :=
  ⟨oneChild_lists _, rfl, rfl, oneChild_lists _, _, rfl, by decide⟩

end Limnx
