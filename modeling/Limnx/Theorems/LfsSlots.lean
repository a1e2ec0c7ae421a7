import Limnx.Theorems.LfsPrune

/-! Truncation, root by root of an inode. -/

namespace Limnx
open Function PtrFormat Multiset Inode List Bytes Finset

def Inode.nodes (inode : Inode) (m : Disk) : Multiset Nat := ∑ s : Slot, ptrFmt.nodes m s.height (inode.root s)

structure SlotsCut (σ σ' : Fs) (M : Multiset Nat) (inode inode' : Inode) (start : Slot → Nat) (done : Slot → Prop) :
    Prop where
  same : SameMeta σ.lfs σ'.lfs
  frame : ∀ x, x ∉ inode.nodes σ.mem → σ'.mem x = σ.mem x
  nodes : ∀ x ∈ inode'.nodes σ'.mem, x ∈ inode.nodes σ.mem
  roots : ∀ t, inode'.root t = inode.root t ∨ inode'.root t = 0
  owns : Owns σ'.lfs (inode'.tree σ'.mem + M)
  cut : ∀ t, done t → ∀ j, j < ptrFmt.fanout ^ t.height → ptrFmt.lookup σ'.mem t.height (inode'.root t) j =
    if j < start t then ptrFmt.lookup σ.mem t.height (inode.root t) j else 0
  left : ∀ t, ¬done t → ∀ j, ptrFmt.lookup σ'.mem t.height (inode'.root t) j =
    ptrFmt.lookup σ.mem t.height (inode.root t) j

section Slots
variable {ρ ω : Bool} {σ σ' σ'' : Fs} {M : Multiset Nat} {inode inode' : Inode} {start : Slot → Nat} {done : Slot → Prop}
  {s : Slot} {r : Nat} {m : Disk}

theorem Inode.mem_nodes {x : Nat} : x ∈ inode.nodes m ↔ ∃ t : Slot, x ∈ ptrFmt.nodes m t.height (inode.root t) := by
  simp [nodes, mem_sum]

theorem Inode.nodes_le_tree : inode.nodes m ≤ inode.tree m := Finset.sum_le_sum fun _ _ => nodes_le_blocks

theorem Inode.tree_eq : inode.tree m = inode.nodes m + inode.leaves m := sum_add_distrib

theorem Inode.congr_nodes {m m' : Disk} (hm : ∀ x ∈ inode.nodes m, m' x = m x) :
    inode.leaves m' = inode.leaves m ∧ inode.tree m' = inode.tree m ∧ inode.nodes m' = inode.nodes m ∧
      ∀ l, inode.lookup m' l = inode.lookup m l := by
  have hnodes : ∀ t : Slot, ∀ x ∈ ptrFmt.nodes m t.height (inode.root t), m' x = m x := fun t x hx =>
    hm x (mem_nodes.mpr ⟨t, hx⟩)
  exact ⟨sum_congr rfl fun t _ => (PtrFormat.congr_nodes (hnodes t)).2.1,
    sum_congr rfl fun t _ => blocks_congr (hnodes t),
    sum_congr rfl fun t _ => (PtrFormat.congr_nodes (hnodes t)).1,
    fun l => (PtrFormat.congr_nodes (hnodes _)).2.2 _⟩

theorem SlotsCut.init (ho : Owns σ.lfs (inode.tree σ.mem + M)) : SlotsCut σ σ M inode inode start fun _ => False :=
  ⟨.refl _, fun _ _ => rfl, fun _ hx => hx, fun _ => .inl rfl, ho, fun _ h => h.elim, fun _ _ _ => rfl⟩

theorem Owns.slot {s : Lfs} (ho : Owns s (inode.tree m + M)) (t : Slot) :
    Owns s (ptrFmt.blocks m t.height (inode.root t) + (inode.others m t + M)) := by
  rwa [tree_split t, add_assoc] at ho

theorem SlotsCut.step (hc : SlotsCut σ σ' M inode inode' start done) (hs : ¬done s)
    (hp : Pruned σ' σ'' (inode'.others σ'.mem s + M) s.height (inode'.root s) r (start s)) :
    SlotsCut σ σ'' M inode (inode'.setRoot r s) start fun t => t = s ∨ done t := by
  have hnd : (ptrFmt.blocks σ'.mem s.height (inode'.root s) + inode'.others σ'.mem s).Nodup := by
    rw [← tree_split]
    exact nodup_of_le (le_add_right _ _) hc.owns.nodup
  have hothers : ∀ x ∈ inode'.others σ'.mem s, σ''.mem x = σ'.mem x := fun x hx => hp.frame x fun hx' =>
    disjoint_left.mp (nodup_add.mp hnd).2.2 (mem_of_le nodes_le_blocks hx') hx
  have hroots : ∀ t ≠ s, (inode'.setRoot r s).root t = inode'.root t := fun t ht => setRoot_of_ne ht
  have hlook := (others_congr hroots hothers).2
  refine ⟨hc.same.trans hp.same, fun x hx => ?_, fun x hx => hc.nodes x ?_, fun t => ?_, ?_, fun t ht j hj => ?_,
    fun t ht j => ?_⟩
  · rw [hp.frame x fun hx' => hx (hc.nodes x (mem_nodes.mpr ⟨s, hx'⟩)), hc.frame x hx]
  · obtain ⟨t, hx⟩ := mem_nodes.mp hx
    refine mem_nodes.mpr ⟨t, ?_⟩
    obtain rfl | hts := eq_or_ne t s
    · rw [setRoot_self] at hx
      exact hp.nodes x hx
    · rw [hroots t hts] at hx
      rwa [(congr_nodes fun y hy => hothers y (mem_of_le
        (nodes_le_blocks.trans (blocks_le_others hts)) hy)).1] at hx
  · obtain rfl | hts := eq_or_ne t s
    · rw [setRoot_self]
      rcases hp.root with hr | hr
      · rw [hr]
        exact hc.roots t
      · exact .inr hr
    · rw [hroots t hts]
      exact hc.roots t
  · rw [tree_reassemble hroots hothers, setRoot_self, add_assoc]
    exact hp.owns
  · obtain rfl | hts := eq_or_ne t s
    · rw [setRoot_self, hp.lookup j hj, hc.left t hs]
    · rw [hlook t hts, hc.cut t (ht.resolve_left hts) j hj]
  · obtain ⟨hts, ht⟩ := not_or.mp ht
    rw [hlook t hts, hc.left t ht]

theorem SlotsCut.congr_done {done' : Slot → Prop} (hc : SlotsCut σ σ' M inode inode' start done)
    (h : ∀ t, done t ↔ done' t) : SlotsCut σ σ' M inode inode' start done' :=
  (funext fun t => propext (h t) : done = done') ▸ hc

theorem Freed.pruned {h b n : Nat} (hf : Freed σ σ' M) (hn : n = 0) : Pruned σ σ' M h b 0 n :=
  .gone hf.same (fun _ _ => by rw [hf.mem]) hf.owns fun _ _ h => absurd (hn ▸ h) (Nat.not_lt_zero _)

def directsDone (l : List (Fin 10)) (t : Slot) : Prop := ∃ i, i ∉ l ∧ t = .direct i

theorem directsDone_cons {i : Fin 10} {l : List (Fin 10)} (hil : i ∉ l) (t : Slot) :
    (t = .direct i ∨ directsDone (i :: l) t) ↔ directsDone l t := by
  constructor
  · rintro (rfl | ⟨j, hj, rfl⟩)
    · exact ⟨i, hil, rfl⟩
    · exact ⟨j, fun h => hj (mem_cons_of_mem _ h), rfl⟩
  · rintro ⟨j, hj, rfl⟩
    by_cases hji : j = i
    · exact .inl (by rw [hji])
    · exact .inr ⟨j, by simp [hji, hj], rfl⟩

def directCut (newBlocks : Nat) (i : Fin 10) : Nat := if newBlocks ≤ i then 0 else 1

def slotCut (newBlocks : Nat) : Slot → Nat
  | .direct i => directCut newBlocks i
  | .single => newBlocks - maxDirect
  | .double => newBlocks - doubleBase
  | .triple => newBlocks - tripleBase

theorem exec_truncateDirect (newBlocks : Nat) (ho : Owns σ.lfs (inode.tree σ.mem + M)) :
    ∃ d σ', exec (truncateDirect newBlocks inode.direct : LfsM ρ ω _) σ = (d, σ') ∧
      SlotsCut σ σ' M inode { inode with direct := d } (slotCut newBlocks) (directsDone []) := by
  -- the slots of the pointers that are no longer to do are cut
  let inv : List (Fin 10) → (Fin 10 → Nat) → Fs → Prop := fun l d σ' => l.Nodup ∧
    SlotsCut σ σ' M inode { inode with direct := d } (slotCut newBlocks) (directsDone l)
  have h0 : inv (finRange 10) inode.direct σ :=
    ⟨nodup_finRange 10, (SlotsCut.init ho).congr_done fun t => by simp [directsDone]⟩
  refine ⟨_, _, rfl, (exec_foldlM inv ?_ h0).2⟩
  rintro i l d σ' ⟨hnd, hc⟩
  obtain ⟨hil, hl⟩ := nodup_cons.mp hnd
  have hnot : ¬directsDone (i :: l) (.direct i) := by simp [directsDone]
  have hown := hc.owns.slot (.direct i)
  by_cases hcut : newBlocks ≤ i ∧ d i ≠ 0
  · have hf : Freed σ' _ _ := freed_freeBlock (ρ := ρ) (ω := ω) (b := d i) (by
      have := hown
      rwa [show ({ inode with direct := d } : Inode).root (.direct i) = d i from rfl, Slot.height, blocks_zero hcut.2,
        singleton_add] at this)
    have := hc.step (s := .direct i) hnot (hf.pruned (if_pos hcut.1))
    simp only [if_pos hcut, exec_bind, exec_pure]
    exact ⟨hl, this.congr_done (directsDone_cons hil)⟩
  · simp only [if_neg hcut, exec_pure]
    have hp : Pruned σ' σ' ({ inode with direct := d }.others σ'.mem (.direct i) + M) 0 (d i) (d i)
        (slotCut newBlocks (.direct i)) := by
      by_cases hd : d i = 0
      · rw [show ({ inode with direct := d } : Inode).root (.direct i) = d i from rfl, hd] at hown
        rw [hd]
        exact .null hown
      · refine .whole hown ?_
        rw [pow_zero, slotCut, directCut, if_neg fun h => hcut ⟨h, hd⟩]
    have := hc.step (s := .direct i) hnot hp
    rw [show ({ inode with direct := d } : Inode).setRoot (d i) (.direct i) = { inode with direct := d } by
      simp [setRoot]] at this
    exact ⟨hl, this.congr_done (directsDone_cons hil)⟩

theorem lt_slotCut {l newBlocks : Nat} : (place l).2 < slotCut newBlocks (place l).1 ↔ l < newBlocks := by
  unfold place
  split_ifs <;> simp only [slotCut, directCut, doubleBase, tripleBase] <;> (try split) <;> omega

structure Truncated (σ σ' : Fs) (M : Multiset Nat) (inode inode' : Inode) (newBlocks : Nat) : Prop where
  same : SameMeta σ.lfs σ'.lfs
  frame : ∀ x, x ∉ inode.nodes σ.mem → σ'.mem x = σ.mem x
  blocks : ∀ x ∈ inode'.tree σ'.mem, x ∈ inode.tree σ.mem
  roots : ∀ t, inode'.root t = inode.root t ∨ inode'.root t = 0
  owns : Owns σ'.lfs (inode'.tree σ'.mem + M)
  lookup : ∀ l, inode'.lookup σ'.mem l = if l < newBlocks then inode.lookup σ.mem l else 0

theorem SlotsCut.truncated {newBlocks : Nat} (hc : SlotsCut σ σ' M inode inode' (slotCut newBlocks) done)
    (hdone : ∀ t, done t) : Truncated σ σ' M inode inode' newBlocks := by
  refine ⟨hc.same, hc.frame, fun x hx => ?_, hc.roots, hc.owns, fun l => ?_⟩
  · rw [tree_eq, mem_add] at hx ⊢
    refine hx.imp (hc.nodes x) fun hleaf => ?_
    obtain ⟨t, -, hleaf⟩ := mem_sum.mp hleaf
    obtain ⟨j, hj, rfl⟩ := exists_lookup hleaf
    have hne : ptrFmt.lookup σ'.mem t.height (inode'.root t) j ≠ 0 := fun h0 =>
      zero_not_mem_leaves _ _ (h0 ▸ hleaf)
    rw [hc.cut t (hdone t) j hj] at hne ⊢
    split at hne
    next hlt =>
      rw [if_pos hlt]
      exact mem_sum.mpr ⟨t, mem_univ _, lookup_mem hne⟩
    · exact absurd rfl hne
  by_cases hl : l < maxFileBlocks
  · rw [Inode.lookup, hc.cut _ (hdone _) _ (place_lt hl)]
    simp only [lt_slotCut]
    rfl
  · rw [lookup_beyond _ _ (Nat.le_of_not_lt hl), lookup_beyond _ _ (Nat.le_of_not_lt hl), ite_self]

theorem exec_truncateSlots (newBlocks : Nat) (ho : Owns σ.lfs (inode.tree σ.mem + M)) :
    ∃ d i1 i2 i3 σ1 σ2 σ3 σ',
      exec (truncateDirect newBlocks inode.direct : LfsM ρ true _) σ = (d, σ1) ∧
      exec (truncateIndirect (newBlocks - maxDirect) inode.indirect : LfsM ρ true _) σ1 = (i1, σ2) ∧
      exec (truncateDouble (newBlocks - doubleBase) inode.doubleIndirect : LfsM ρ true _) σ2 = (i2, σ3) ∧
      exec (truncateTriple (newBlocks - tripleBase) inode.tripleIndirect : LfsM ρ true _) σ3 = (i3, σ') ∧
      Truncated σ σ' M inode { inode with direct := d, indirect := i1, doubleIndirect := i2, tripleIndirect := i3 }
        newBlocks := by
  obtain ⟨d, σ1, he1, hc1⟩ := exec_truncateDirect (ρ := ρ) (ω := true) newBlocks ho
  obtain ⟨i1, σ2, he2, hp2⟩ := exec_truncateIndirect (ρ := ρ) (hc1.owns.slot .single) (newBlocks - maxDirect)
  have hc2 := hc1.step (s := .single) (by simp [directsDone]) hp2
  obtain ⟨i2, σ3, he3, hp3⟩ := exec_truncateDouble (ρ := ρ) (hc2.owns.slot .double) (newBlocks - doubleBase)
  have hc3 := hc2.step (s := .double) (by simp [directsDone]) hp3
  obtain ⟨i3, σ', he4, hp4⟩ := exec_truncateTriple (ρ := ρ) (hc3.owns.slot .triple) (newBlocks - tripleBase)
  have hc4 := hc3.step (s := .triple) (by simp [directsDone]) hp4
  refine ⟨d, i1, i2, i3, σ1, σ2, σ3, σ', he1, he2, he3, he4, hc4.truncated fun t => ?_⟩
  cases t <;> simp [directsDone]

section
variable (hc : SlotsCut σ σ' M inode inode' (fun _ => 0) done)
include hc

theorem SlotsCut.free (hs : ¬done s) (hr : inode'.root s ≠ 0) :
    SlotsCut σ (exec (freeTree s.height (inode'.root s) zero : LfsM ρ ω Block) σ').2 M inode (inode'.setRoot 0 s)
      (fun _ => 0) fun t => t = s ∨ done t :=
  hc.step hs ((exec_freeTree hr (hc.owns.slot s) zero).1.pruned rfl)

theorem SlotsCut.none (hs : ¬done s) (hr : inode'.root s = 0) :
    SlotsCut σ σ' M inode (inode'.setRoot 0 s) (fun _ => 0) fun t => t = s ∨ done t := by
  refine hc.step hs ?_
  have := hc.owns.slot s
  rw [hr] at this ⊢
  exact .null this

omit hc in
theorem exec_freeDirect (ho : Owns σ.lfs (inode.tree σ.mem + M)) :
    SlotsCut σ (exec ((finRange 10).forM fun i =>
        (if inode.direct i = 0 then pure () else limnfsFreeBlock (inode.direct i) : LfsM ρ ω Unit)) σ).2 M inode
      { inode with direct := fun _ => 0 } (fun _ => 0) (directsDone []) := by
  let inv : List (Fin 10) → Fs → Prop := fun l σ' => l.Nodup ∧
    SlotsCut σ σ' M inode { inode with direct := fun i => if i ∈ l then inode.direct i else 0 } (fun _ => 0) (directsDone l)
  have h0 : inv (finRange 10) σ := by
    refine ⟨nodup_finRange 10, ?_⟩
    simp only [mem_finRange, if_true]
    exact (SlotsCut.init ho).congr_done fun t => by simp [directsDone]
  refine (exec_forM inv (fun i l σ' => ?_) h0).2
  rintro ⟨hnd, hc⟩
  obtain ⟨hil, hl⟩ := nodup_cons.mp hnd
  have hnot : ¬directsDone (i :: l) (.direct i) := by simp [directsDone]
  have hroot : ({ inode with direct := fun j => if j ∈ i :: l then inode.direct j else 0 } : Inode).root (.direct i) =
      inode.direct i := if_pos (List.mem_cons_self ..)
  have hset : ({ inode with direct := fun j => if j ∈ i :: l then inode.direct j else 0 } : Inode).setRoot 0 (.direct i) =
      { inode with direct := fun j => if j ∈ l then inode.direct j else 0 } := by
    simp only [Inode.setRoot, Inode.mk.injEq, true_and, and_true]
    funext j
    obtain rfl | hji := eq_or_ne j i
    · simp [hil]
    · simp [hji]
  refine ⟨hl, ?_⟩
  by_cases hd : inode.direct i = 0
  · rw [if_pos hd]
    have := hc.none hnot (hroot.trans hd)
    rw [hset] at this
    exact this.congr_done (directsDone_cons hil)
  · rw [if_neg hd]
    have := hc.free (ρ := ρ) (ω := ω) hnot (by rwa [hroot])
    rw [hset, hroot, Slot.height, freeTree, exec_bind] at this
    exact this.congr_done (directsDone_cons hil)

theorem SlotsCut.exec_free (hs : ¬done s) :
    ∃ σ'', (∀ {α : Type} (k : LfsM ρ ω α),
        exec (if inode'.root s ≠ 0 then do let _ ← freeTree s.height (inode'.root s) zero; k else k) σ' = exec k σ'') ∧
      SlotsCut σ σ'' M inode (inode'.setRoot 0 s) (fun _ => 0) fun t => t = s ∨ done t := by
  by_cases hr : inode'.root s = 0
  · exact ⟨σ', fun k => by rw [if_neg (not_not.mpr hr)], hc.none hs hr⟩
  · exact ⟨_, fun k => by rw [if_pos hr, exec_bind], hc.free hs hr⟩

end

theorem Inode.tree_of_null (h : ∀ t, inode.root t = 0) : inode.tree m = 0 :=
  sum_eq_zero fun t _ => by rw [h t, blocks_null]

theorem exec_freeSlots (ho : Owns σ.lfs (inode.tree σ.mem + M)) :
    ∃ σ', SameMeta σ.lfs σ'.lfs ∧ (∀ x, x ∉ inode.nodes σ.mem → σ'.mem x = σ.mem x) ∧ Owns σ'.lfs M ∧
      ∀ {α : Type} (k : LfsM ρ ω α), exec (do
        (finRange 10).forM fun i => if inode.direct i = 0 then pure () else limnfsFreeBlock (inode.direct i)
        if inode.indirect ≠ 0 then
          let _ ← freeTree 1 inode.indirect zero
        if inode.doubleIndirect ≠ 0 then
          let _ ← freeTree 2 inode.doubleIndirect zero
        if inode.tripleIndirect ≠ 0 then
          let _ ← freeTree 3 inode.tripleIndirect zero
        k) σ = exec k σ' := by
  have h₀ := exec_freeDirect (ρ := ρ) (ω := ω) ho
  obtain ⟨σ1, he1, h1⟩ := h₀.exec_free (s := .single) (by simp [directsDone])
  obtain ⟨σ2, he2, h2⟩ := h1.exec_free (s := .double) (by simp [directsDone])
  obtain ⟨σ3, he3, h3⟩ := h2.exec_free (s := .triple) (by simp [directsDone])
  have howns := h3.owns
  rw [tree_of_null (by intro t; cases t <;> rfl), zero_add] at howns
  refine ⟨σ3, h3.same, h3.frame, howns, fun k => ?_⟩
  rw [exec_bind]
  exact (he1 _).trans ((he2 _).trans (he3 k))

end Slots

end Limnx
