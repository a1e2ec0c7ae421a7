import Mathlib.Tactic.Abel
import Limnx.Theorems.LfsAlloc

/-! `getFileBlock` looks a logical block up in the trees of an inode (`Inode.lookup`), and `allocFileBlock` adds one. -/

open Option Bytes

namespace Limnx
open Function ByteCodec PtrFormat Multiset

theorem decode_make {n off w : Nat} {f : Buf} (h : off + w ≤ n) :
    decode (make f : Bytes n).get off w = decode f off w :=
  decode_congr fun _ _ hk => get_make_of_lt (by omega)

theorem four_mul_add_le {i : Nat} (h : i < ptrsPerBlock) : 4 * i + 4 ≤ blockSize := by
  simp only [ptrsPerBlock, blockSize] at *
  omega

@[irreducible] def ptrFmt : PtrFormat Block where
  fanout := ptrsPerBlock
  limit := 2 ^ 32
  ptr := ptrAt
  setPtr := setPtrAt
  empty := zero
  fanout_pos := by decide
  ptr_empty i := by
    simp only [ptrAt]
    split
    · rw [decode_congr (g := fun _ => 0) fun k _ _ => get_zero k, decode_zero]
    · rfl
  ptr_of_ge h := if_neg (Nat.not_lt.mpr h)
  ptr_setPtr_self {b i v} hi hv := by
    rw [ptrAt, if_pos hi, setPtrAt, decode_make (four_mul_add_le hi), decode_put,
      Nat.mod_eq_of_lt (show v < 256 ^ 4 from hv)]
  ptr_setPtr_of_ne {b i j v} hi hj hne := by
    rw [ptrAt, ptrAt, if_pos hj, if_pos hj, setPtrAt, decode_make (four_mul_add_le hj)]
    exact decode_congr fun _ _ _ => splice_of_not_mem (by omega)

section
attribute [local semireducible] ptrFmt

theorem fanout_eq : ptrFmt.fanout = ptrsPerBlock := rfl

theorem limit_eq : ptrFmt.limit = 2 ^ 32 := rfl

theorem ptr_eq (b : Block) (i : Nat) : ptrFmt.ptr b i = ptrAt b i := rfl

theorem setPtr_eq (b : Block) (i v : Nat) : ptrFmt.setPtr b i v = setPtrAt b i v := rfl

theorem ptrFormat_empty : ptrFmt.empty = zero := rfl

end

def digits : Nat → Nat → List Nat
  | 0, _ => []
  | h + 1, n => n / ptrFmt.fanout ^ h :: digits h (n % ptrFmt.fanout ^ h)

theorem doublePath_eq (n : Nat) : doublePath n = digits 2 n := by
  simp [doublePath, digits, fanout_eq]

theorem triplePath_eq (n : Nat) : triplePath n = digits 3 n := by
  simp [triplePath, doublePath_eq, digits, fanout_eq, Nat.pow_succ]

section Lookup
variable {ρ ω : Bool} {σ : Fs} {b n : Nat}

theorem exec_followPath : ∀ {h b n : Nat}, (h = 0 ∨ b ≠ 0) →
    exec (followPath b (digits h n) : LfsM ρ ω Nat) σ = (ptrFmt.lookup σ.mem h b n, σ)
  | 0, b, n, _ => rfl
  | h + 1, b, n, hb => by
    have hb : b ≠ 0 := by simpa using hb
    rw [digits, followPath, exec_read_bind, lookup_succ hb, ptr_eq]
    simp only [exec_ite, exec_pure]
    split
    next hnull => rw [hnull, lookup_null]
    next hne => exact exec_followPath (.inr hne)

end Lookup

section Link
variable {ρ : Bool} {σ σ' : Fs} {M : Multiset Nat} {blk h b c i n : Nat} {ok : Bool} {m : Disk}

/-- The outcome of entering `blk` at index `n` of the tree of height `h` at `b`: all data and what is owned elsewhere is
    kept, the tree owns what it needs, and if `ok`, it has `blk` at `n`. -/
structure PathLinked (σ σ' : Fs) (M : Multiset Nat) (blk h b n : Nat) (ok : Bool) : Prop where
  keeps : Keeps (blk ::ₘ (ptrFmt.leaves σ.mem h b + M)) σ σ'
  owns : Owns σ'.lfs (ptrFmt.blocks σ'.mem h b + M)
  lookup : ∀ j, ptrFmt.lookup σ'.mem h b j = if ok = true ∧ j = n then blk else ptrFmt.lookup σ.mem h b j

theorem index_eq_iff (j n k : Nat) : j = n ↔ j / k = n / k ∧ j % k = n % k := by
  constructor
  · rintro rfl
    exact ⟨rfl, rfl⟩
  · rintro ⟨hd, hm⟩
    rw [← Nat.div_add_mod j k, hd, hm, Nat.div_add_mod]

theorem PathLinked.parent (hb : b ≠ 0) (hi : i < ptrFmt.fanout) (hni : n / ptrFmt.fanout ^ h = i)
    (hc : ptrFmt.ptr (σ.mem b) i = c) (hnd : (ptrFmt.rest σ.mem h b i).Nodup)
    (hl : PathLinked σ σ' (ptrFmt.rest σ.mem h b i + M) blk h c (n % ptrFmt.fanout ^ h) ok) :
    PathLinked σ σ' M blk (h + 1) b n ok := by
  have hkept : ∀ x ∈ ptrFmt.rest σ.mem h b i, σ'.mem x = σ.mem x := fun x hx => hl.keeps.kept x (by simp [hx])
  have hroot : σ'.mem b = σ.mem b := hkept b self_mem_rest
  have hptr : ∀ j < ptrFmt.fanout, j ≠ i → ptrFmt.ptr (σ'.mem b) j = ptrFmt.ptr (σ.mem b) j :=
    fun j _ _ => by rw [hroot]
  have hframe : ∀ x ∈ ptrFmt.rest σ.mem h b i, x ≠ b → σ'.mem x = σ.mem x := fun x hx _ => hkept x hx
  have hc' : ptrFmt.ptr (σ'.mem b) i = c := by rw [hroot, hc]
  refine ⟨hl.keeps.mono fun x hx => ?_, ?_, fun j => ?_⟩
  · rcases mem_cons.mp hx with rfl | hx
    · exact mem_cons_self _ _
    rcases mem_add.mp hx with hx | hx
    · rcases mem_leaves_split (i := i) hb hx with hx | hx
      · rw [hc] at hx
        simp [hx]
      · simp [hx]
    · simp [hx]
  · rw [blocks_split hb hi, rest_congr hnd hptr hframe, hc', add_comm (ptrFmt.rest _ _ _ _),
      add_assoc]
    exact hl.owns
  · rw [lookup_replace hi hnd hptr hframe hb, hc']
    by_cases hj : j / ptrFmt.fanout ^ h = i
    · have hjn : j = n ↔ j % ptrFmt.fanout ^ h = n % ptrFmt.fanout ^ h := by
        rw [index_eq_iff j n (ptrFmt.fanout ^ h), hj, hni]
        simp only [true_and]
      rw [if_pos hj, hl.lookup, lookup_succ hb, hj, hc]
      simp only [hjn]
    · rw [if_neg hj, if_neg fun hjn : ok ∧ j = n => hj (hjn.2 ▸ hni)]

theorem Owns.blocks_nodup {s : Lfs} (ho : Owns s (blk ::ₘ (ptrFmt.blocks m h b + M))) : (ptrFmt.blocks m h b).Nodup :=
  nodup_of_le ((le_add_right _ _).trans (le_cons_self _ _)) ho.nodup

theorem Owns.not_mem_nodes {s : Lfs} {x : Nat} (ho : Owns s (blk ::ₘ (ptrFmt.blocks m h b + M)))
    (hx : x ∈ blk ::ₘ (ptrFmt.leaves m h b + M)) : x ∉ ptrFmt.nodes m h b := by
  have heq : blk ::ₘ (ptrFmt.blocks m h b + M) =
      (blk ::ₘ (ptrFmt.leaves m h b + M)) + ptrFmt.nodes m h b := by
    simp only [blocks, ← singleton_add]
    abel
  have hnd := ho.nodup
  rw [heq, nodup_add] at hnd
  exact disjoint_left.mp hnd.2.2 hx

theorem setPtr_frame {v : Nat} (hi : i < ptrFmt.fanout) :
    ∀ j < ptrFmt.fanout, j ≠ i →
      ptrFmt.ptr (update m b (ptrFmt.setPtr (m b) i v) b) j = ptrFmt.ptr (m b) j := by
  intro j hj hne
  rw [update_self, ptrFmt.ptr_setPtr_of_ne hi hj hne]

theorem Owns.setPtr {m : Disk} (hb : b ≠ 0) (hi : i < ptrFmt.fanout) (hnull : ptrFmt.ptr (σ.mem b) i = 0)
    (hm : m = update σ.mem b (ptrFmt.setPtr (σ.mem b) i blk)) (hblk : ptrFmt.blocks m h blk = {blk})
    (ho : Owns σ.lfs (blk ::ₘ (ptrFmt.blocks σ.mem (h + 1) b + M))) :
    ptrFmt.blocks m (h + 1) b =
      blk ::ₘ ptrFmt.blocks σ.mem (h + 1) b ∧
    ptrFmt.ptr (m b) i = blk := by
  have hlt : blk < ptrFmt.limit := limit_eq ▸ ho.lt_limit (mem_cons_self _ _)
  have hptr : ptrFmt.ptr (m b) i = blk := by
    rw [hm, update_self, ptrFmt.ptr_setPtr_self hi hlt]
  have hnd := rest_nodup hb hi ho.blocks_nodup
  have hrest : ptrFmt.rest m h b i = ptrFmt.rest σ.mem h b i :=
    rest_congr hnd (hm ▸ setPtr_frame hi) fun x _ hx => hm ▸ update_of_ne hx _ _
  refine ⟨?_, hptr⟩
  rw [blocks_split hb hi, hrest, hptr, hblk, blocks_split (m := σ.mem) hb hi, hnull,
    blocks_null, add_zero, add_comm, singleton_add]

theorem Keeps.update_node (ho : Owns σ.lfs (blk ::ₘ (ptrFmt.blocks σ.mem h b + M)))
    (hc : c ∈ ptrFmt.nodes σ.mem h b) (d : Block) :
    Keeps (blk ::ₘ (ptrFmt.leaves σ.mem h b + M)) σ { σ with mem := update σ.mem c d } := by
  refine ⟨.refl _, fun x hx => update_of_ne ?_ _ _, fun x hx => update_of_ne ?_ _ _⟩
  · rintro rfl
    exact ho.not_mem_nodes hx hc
  · have hin := ho.inside c (mem_cons_of_mem (mem_add.mpr (.inl (mem_add.mpr (.inl hc)))))
    omega

theorem linked_single (hb : b ≠ 0) (hn : n < ptrFmt.fanout) (hnull : ptrFmt.ptr (σ.mem b) n = 0)
    (ho : Owns σ.lfs (blk ::ₘ (ptrFmt.blocks σ.mem 1 b + M))) :
    PathLinked σ { σ with mem := update σ.mem b (ptrFmt.setPtr (σ.mem b) n blk) } M blk 1 b n true := by
  have hblk0 : blk ≠ 0 := ho.ne_zero (mem_cons_self _ _)
  obtain ⟨hblocks, hptr⟩ := ho.setPtr hb hn hnull rfl (by simp [blocks, nodes, leaves, hblk0])
  refine ⟨.update_node ho (mem_nodes_self hb) _, ?_, fun j => ?_⟩
  · rw [hblocks, cons_add]
    exact ho
  · rw [lookup_replace hn (rest_nodup hb hn ho.blocks_nodup) (setPtr_frame hn)
      (fun x _ hx => update_of_ne hx _ _) hb, hptr]
    simp [lookup]

theorem linked_mid (hb : b ≠ 0) (hi : i < ptrFmt.fanout) (hnull : ptrFmt.ptr (σ.mem b) i = 0)
    (hc : σ.mem c = zero) (ho : Owns σ.lfs (c ::ₘ (ptrFmt.blocks σ.mem (h + 2) b + M))) :
    let m := update σ.mem b (ptrFmt.setPtr (σ.mem b) i c)
    ptrFmt.ptr (m b) i = c ∧ (∀ j, ptrFmt.lookup m (h + 1) c j = 0) ∧
      ptrFmt.blocks m (h + 2) b = c ::ₘ ptrFmt.blocks σ.mem (h + 2) b ∧
      ptrFmt.leaves m (h + 2) b = ptrFmt.leaves σ.mem (h + 2) b ∧
      ∀ j, ptrFmt.lookup m (h + 2) b j = ptrFmt.lookup σ.mem (h + 2) b j := by
  have hcb : c ≠ b := by
    rintro rfl
    exact ho.not_mem_nodes (mem_cons_self _ _) (mem_nodes_self hb)
  have hempty : ∀ k, k < ptrFmt.fanout →
      ptrFmt.ptr (update σ.mem b (ptrFmt.setPtr (σ.mem b) i c) c) k = 0 := fun k _ => by
    rw [update_of_ne hcb, hc, ← ptrFormat_empty, ptrFmt.ptr_empty]
  have hown := blocks_of_empty (h := h) (ho.ne_zero (mem_cons_self _ _)) hempty
  obtain ⟨hblocks, hptr⟩ := ho.setPtr hb hi hnull rfl hown
  have hnd := rest_nodup hb hi ho.blocks_nodup
  have hframe : ∀ x ∈ ptrFmt.rest σ.mem (h + 1) b i, x ≠ b →
      update σ.mem b (ptrFmt.setPtr (σ.mem b) i c) x = σ.mem x := fun x _ hx => update_of_ne hx _ _
  refine ⟨hptr, fun j => lookup_of_empty hempty, hblocks, ?_, fun j => ?_⟩
  · have hleaves := leaves_replace hi hnd (setPtr_frame hi) hframe hb
    rwa [hptr, hnull, leaves_null, leaves_of_empty (ho.ne_zero (mem_cons_self _ _)) hempty,
      add_zero, add_zero] at hleaves
  · rw [lookup_replace hi hnd (setPtr_frame hi) hframe hb, hptr, lookup_of_empty hempty]
    split
    next hj => rw [lookup_succ hb, hj, hnull, lookup_null]
    · rfl

theorem Keeps.update_fresh {s : Lfs} {B : Multiset Nat} (ho : Owns s (c ::ₘ B)) (hs : SameMeta σ.lfs s) (d : Block) :
    Keeps B σ ⟨s, update σ.mem c d⟩ := by
  have hnd := (nodup_cons.mp ho.nodup).1
  refine ⟨hs, fun x hx => update_of_ne ?_ _ _, fun x hx => update_of_ne ?_ _ _⟩
  · rintro rfl
    exact hnd hx
  · have := (ho.inside c (mem_cons_self _ _)).1
    rw [hs.dataStart] at this
    omega

theorem Keeps.tree {K : Multiset Nat} (hk : Keeps K σ σ') (hle : ∀ x ∈ ptrFmt.nodes σ.mem h b, x ∈ K) :
    ptrFmt.blocks σ'.mem h b = ptrFmt.blocks σ.mem h b ∧ ptrFmt.nodes σ'.mem h b = ptrFmt.nodes σ.mem h b ∧
      ptrFmt.leaves σ'.mem h b = ptrFmt.leaves σ.mem h b ∧
      ∀ j, ptrFmt.lookup σ'.mem h b j = ptrFmt.lookup σ.mem h b j := by
  obtain ⟨hn, hl, hj⟩ := congr_nodes fun x hx => hk.kept x (hle x hx)
  exact ⟨by rw [blocks, blocks, hn, hl], hn, hl, hj⟩

theorem linked_new (hb : b ≠ 0) (hi : i < ptrFmt.fanout) (hnull : ptrFmt.ptr (σ.mem b) i = 0)
    (ho : Owns (taken σ.lfs c) (c ::ₘ blk ::ₘ (ptrFmt.blocks σ.mem (h + 2) b + M))) :
    let m := update σ.mem c zero
    let σ' : Fs := ⟨taken σ.lfs c, update m b (ptrFmt.setPtr (m b) i c)⟩
    ptrFmt.ptr (σ'.mem b) i = c ∧ Owns σ'.lfs (blk ::ₘ (ptrFmt.blocks σ'.mem (h + 2) b + M)) ∧
      (∀ j, ptrFmt.lookup σ'.mem (h + 1) c j = 0) ∧
      Keeps (blk ::ₘ (ptrFmt.leaves σ.mem (h + 2) b + M)) σ σ' ∧
      ptrFmt.leaves σ'.mem (h + 2) b = ptrFmt.leaves σ.mem (h + 2) b ∧
      ∀ j, ptrFmt.lookup σ'.mem (h + 2) b j = ptrFmt.lookup σ.mem (h + 2) b j := by
  intro m σ'
  have hkeeps : Keeps _ σ ⟨taken σ.lfs c, m⟩ := .update_fresh ho (sameMeta_taken _ _) zero
  obtain ⟨htree, hnodes, hleaves, hlook⟩ := hkeeps.tree (h := h + 2) (b := b) fun x hx => by
    simp [blocks, hx]
  have hroot : m b = σ.mem b := hkeeps.kept b (by simp [blocks, mem_nodes_self hb])
  have ho' : Owns (taken σ.lfs c) (c ::ₘ (ptrFmt.blocks m (h + 2) b + (blk ::ₘ M))) := by
    rw [htree, add_cons]
    exact ho
  have hnull' : ptrFmt.ptr (m b) i = 0 := hroot ▸ hnull
  obtain ⟨hptr, hempty, hblocks, hleaves', hlook'⟩ := linked_mid (σ := ⟨taken σ.lfs c, m⟩) hb hi hnull'
    (update_self _ _ _) ho'
  refine ⟨hptr, ?_, hempty, ?_, hleaves'.trans hleaves, fun j => (hlook' j).trans (hlook j)⟩
  · rw [hblocks, ← add_cons, cons_add]
    exact ho'
  · have hnode := Keeps.update_node (σ := ⟨taken σ.lfs c, m⟩) ho' (mem_nodes_self hb) (ptrFmt.setPtr (m b) i c)
    rw [hleaves] at hnode
    refine (hkeeps.mono fun x hx => ?_).trans (hnode.mono fun x hx => ?_)
    · simp only [mem_cons, mem_add, blocks] at hx ⊢
      tauto
    · simp only [mem_cons, mem_add] at hx ⊢
      tauto

theorem PathLinked.of_keeps {σ1 : Fs} (hk : Keeps (blk ::ₘ (ptrFmt.leaves σ.mem h b + M)) σ σ1)
    (hleaves : ptrFmt.leaves σ1.mem h b = ptrFmt.leaves σ.mem h b)
    (hlook : ∀ j, ptrFmt.lookup σ1.mem h b j = ptrFmt.lookup σ.mem h b j) (hl : PathLinked σ1 σ' M blk h b n ok) :
    PathLinked σ σ' M blk h b n ok :=
  ⟨hk.trans (hleaves ▸ hl.keeps), hl.owns, fun j => by rw [hl.lookup, hlook]⟩

section Steps
variable {j : Nat} {path : List Nat} {scratch : Block}

theorem exec_linkPath_descend (hc : ptrFmt.ptr (σ.mem b) i ≠ 0) :
    exec (linkPath blk b (i :: j :: path) scratch : LfsM ρ true Bool) σ =
      exec (linkPath blk (ptrFmt.ptr (σ.mem b) i) (j :: path) (σ.mem b) : LfsM ρ true Bool) σ := by
  rw [ptr_eq] at hc ⊢
  rw [linkPath, exec_read_bind]
  · simp only [getD_some, if_pos hc]
  · simp

theorem exec_linkPath_full (hc : ptrFmt.ptr (σ.mem b) i = 0) (halloc : exec (allocZeroed : LfsM ρ true Nat) σ = (0, σ))
    (hfree : exec (limnfsFreeBlock blk : LfsM ρ true Unit) σ = ((), σ')) :
    exec (linkPath blk b (i :: j :: path) scratch : LfsM ρ true Bool) σ = (false, σ') := by
  rw [ptr_eq] at hc
  rw [linkPath, exec_read_bind]
  · simp only [getD_some, if_neg (not_not.mpr hc), exec_bind_of halloc, if_true, exec_bind_of hfree, exec_pure]
  · simp

theorem exec_linkPath_new (hc : ptrFmt.ptr (σ.mem b) i = 0)
    (halloc : exec (allocZeroed : LfsM ρ true Nat) σ = (c, σ')) (hc0 : c ≠ 0) :
    exec (linkPath blk b (i :: j :: path) scratch : LfsM ρ true Bool) σ =
      exec (linkPath blk c (j :: path) (ptrFmt.setPtr (σ'.mem b) i c) : LfsM ρ true Bool)
        { σ' with mem := update σ'.mem b (ptrFmt.setPtr (σ'.mem b) i c) } := by
  rw [ptr_eq] at hc
  rw [linkPath, exec_read_bind]
  · simp only [getD_some, if_neg (not_not.mpr hc), exec_bind_of halloc, if_neg hc0, exec_read_bind,
      exec_write_bind, setPtr_eq]
  · simp

end Steps

theorem exec_linkPath (hb : b ≠ 0) (hn : n < ptrFmt.fanout ^ (h + 1)) (hnull : ptrFmt.lookup σ.mem (h + 1) b n = 0)
    (ho : Owns σ.lfs (blk ::ₘ (ptrFmt.blocks σ.mem (h + 1) b + M))) (scratch : Block) :
    ∃ ok σ', exec (linkPath blk b (digits (h + 1) n) scratch : LfsM ρ true Bool) σ = (ok, σ') ∧
      PathLinked σ σ' M blk (h + 1) b n ok ∧ (h ≤ σ.lfs.super.freeBlocks → ok) := by
  induction h generalizing b n σ M scratch with
  | zero =>
    have hn : n < ptrFmt.fanout := by simpa using hn
    have hnull : ptrFmt.ptr (σ.mem b) n = 0 := by simpa [lookup, hb] using hnull
    refine ⟨true, _, ?_, linked_single hb hn hnull ho, fun _ => rfl⟩
    simp only [digits, pow_zero, Nat.div_one, linkPath, exec_read_bind, exec_write_bind, exec_pure, getD_some, setPtr_eq]
  | succ h ih =>
    have hi : n / ptrFmt.fanout ^ (h + 1) < ptrFmt.fanout := div_lt_fanout hn
    have hn' : n % ptrFmt.fanout ^ (h + 1) < ptrFmt.fanout ^ (h + 1) := Nat.mod_lt _ (Nat.pow_pos ptrFmt.fanout_pos)
    rw [lookup_succ hb] at hnull
    generalize hni : n / ptrFmt.fanout ^ (h + 1) = i at hi hnull
    obtain ⟨j, path, hpath⟩ : ∃ j path, digits (h + 1) (n % ptrFmt.fanout ^ (h + 1)) = j :: path := ⟨_, _, rfl⟩
    rw [digits, hni, hpath]
    -- below an entry that exists, the induction hypothesis applies
    have descend : ∀ (σ : Fs) (scratch : Block), ptrFmt.ptr (σ.mem b) i ≠ 0 →
        ptrFmt.lookup σ.mem (h + 1) (ptrFmt.ptr (σ.mem b) i) (n % ptrFmt.fanout ^ (h + 1)) = 0 →
        Owns σ.lfs (blk ::ₘ (ptrFmt.blocks σ.mem (h + 2) b + M)) →
        ∃ ok σ', exec (linkPath blk (ptrFmt.ptr (σ.mem b) i) (j :: path) scratch : LfsM ρ true Bool) σ = (ok, σ') ∧
          PathLinked σ σ' M blk (h + 2) b n ok ∧ (h ≤ σ.lfs.super.freeBlocks → ok) := by
      intro σ scratch hc hnull ho
      have hrest := rest_nodup hb hi ho.blocks_nodup
      rw [blocks_split hb hi, add_comm (ptrFmt.rest _ _ _ _), add_assoc] at ho
      obtain ⟨ok, σ', he, hl, hok⟩ := ih hc hn' hnull ho scratch
      exact ⟨ok, σ', hpath ▸ he, hl.parent hb hi hni rfl hrest, hok⟩
    by_cases hc : ptrFmt.ptr (σ.mem b) i = 0
    · rcases exec_allocZeroed (ρ := ρ) ho with ⟨hfree, he⟩ | ⟨c, hfree, ho1, he⟩
      · obtain ⟨hf, hof⟩ := exec_freeBlock (ρ := ρ) (ω := true) ho
        refine ⟨false, _, exec_linkPath_full hc he hf, ⟨⟨sameMeta_released _ _, fun _ _ => rfl, fun _ _ => rfl⟩, hof,
          fun j => ?_⟩, fun h => ?_⟩
        · simp
        · omega
      · have hc0 := ho1.ne_zero (mem_cons_self c _)
        obtain ⟨hptr, ho2, hempty, hkeeps, hleaves, hlook⟩ := linked_new hb hi hc ho1
        rw [exec_linkPath_new hc he hc0]
        obtain ⟨ok, σ', he', hl, hok⟩ := descend _ _ (hptr.symm ▸ hc0) (by rw [hptr]; exact hempty _) ho2
        rw [hptr] at he'
        exact ⟨ok, σ', he', .of_keeps hkeeps hleaves hlook hl, fun hf => hok (by dsimp only; omega)⟩
    · rw [exec_linkPath_descend hc]
      obtain ⟨ok, σ', he, hl, hok⟩ := descend σ (σ.mem b) hc hnull ho
      exact ⟨ok, σ', he, hl, fun hf => hok (by omega)⟩

end Link

end Limnx
