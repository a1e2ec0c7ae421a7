import Mathlib.Data.List.Perm.Subperm
import Limnx.Bcache

/-! What a read sees (`Bcache.view`) is the entry on the chain or, where there is none, the disk. -/

namespace Limnx
namespace Bcache
open Function IntrusiveList List

attribute [local irreducible] bcacheEntries hashBuckets

variable (s : Bcache)

def view (b : Nat) : Block :=
  match hashFind b s with
  | some i => (s.cache i).data
  | none => s.dev.disk b

/-- `l` is the list of recent use and `ch` gives the hash chains. A valid entry on no chain has nothing to write back,
    and a clean entry on a chain is as on disk. -/
structure Shape (s : Bcache) (l : List Nat) (ch : Nat → List Nat) : Prop where
  lru : s.lru.Holds l
  perm : l.Perm (List.range bcacheEntries)
  chain : ∀ k, Chain s.hashNext (s.hashTable k) (ch k)
  nodup : ∀ k, (ch k).Nodup
  bucket : ∀ k i, i ∈ ch k → i < bcacheEntries ∧ (s.cache i).valid = true ∧ hashFn (s.cache i).tag = k
  tags : ∀ k i j, i ∈ ch k → j ∈ ch k → (s.cache i).tag = (s.cache j).tag → i = j
  stray : ∀ i, i < bcacheEntries → (s.cache i).valid = true → i ∉ ch (hashFn (s.cache i).tag) → (s.cache i).dirty = false
  clean : ∀ k i, i ∈ ch k → (s.cache i).dirty = false → s.dev.disk (s.cache i).tag = (s.cache i).data

def Full (ch : Nat → List Nat) : Prop :=
  ∀ i, i < bcacheEntries → (s.cache i).valid = true → i ∈ ch (hashFn (s.cache i).tag)

def written (i : Nat) : Bcache :=
  { s with
    cache := update s.cache i { s.cache i with dirty := false }
    dev := { s.dev with
      disk := update s.dev.disk (s.cache i).tag (s.cache i).data
      requests := s.dev.requests + 1 } }

def refused : Bcache := { s with dev := { s.dev with requests := s.dev.requests + 1 } }

theorem writebackEntry_eq {s : Bcache} {i : Nat} (hv : (s.cache i).valid) (hd : (s.cache i).dirty) :
    writebackEntry i s = if s.dev.fails s.dev.requests then s.refused else s.written i := by
  unfold writebackEntry
  rw [if_neg (by simp [hv, hd])]
  simp only [virtioBlkWriteMulti]
  by_cases hf : s.dev.fails s.dev.requests
  · simp only [if_pos hf]
    rfl
  · simp only [if_neg hf]
    rfl

namespace Shape
variable {s s' : Bcache} {l l' : List Nat} {ch : Nat → List Nat} {i j b k : Nat} {e : BcacheEntry}

section
variable (h : Shape s l ch)
include h

theorem mem_lru : i ∈ l ↔ i < bcacheEntries := by
  rw [h.perm.mem_iff, mem_range]

theorem length_le (k : Nat) : (ch k).length ≤ bcacheEntries := by
  have hsub : ch k ⊆ range bcacheEntries := fun i hi => mem_range.mpr (h.bucket k i hi).1
  have := (subperm_of_subset (h.nodup k) hsub).length_le
  rwa [length_range] at this

theorem mem_chain (hi : i ∈ ch k) : i ∈ ch (hashFn (s.cache i).tag) := by
  rwa [(h.bucket k i hi).2.2]

theorem hashFind_eq (b : Nat) :
    hashFind b s = (ch (hashFn b)).find? fun i => (s.cache i).valid && (s.cache i).tag == b :=
  (h.chain _).find_eq (h.length_le _)

theorem hashFind_some : hashFind b s = some i ↔ i ∈ ch (hashFn b) ∧ (s.cache i).tag = b := by
  rw [h.hashFind_eq]
  constructor
  · intro hf
    have hp := find?_some hf
    simp only [Bool.and_eq_true, beq_iff_eq] at hp
    exact ⟨mem_of_find?_eq_some hf, hp.2⟩
  · rintro ⟨hi, htag⟩
    cases hf : (ch (hashFn b)).find? fun i => (s.cache i).valid && (s.cache i).tag == b with
    | none =>
      have := find?_eq_none.mp hf i hi
      simp [(h.bucket _ i hi).2.1, htag] at this
    | some j =>
      have hp := find?_some hf
      simp only [Bool.and_eq_true, beq_iff_eq] at hp
      rw [h.tags _ i j hi (mem_of_find?_eq_some hf) (htag.trans hp.2.symm)]

theorem hashFind_none : hashFind b s = none ↔ ∀ i ∈ ch (hashFn b), (s.cache i).tag ≠ b := by
  rw [Option.eq_none_iff_forall_ne_some]
  constructor
  · intro hn i hi htag
    exact hn i (h.hashFind_some.mpr ⟨hi, htag⟩)
  · intro hall i hf
    obtain ⟨hi, htag⟩ := h.hashFind_some.mp hf
    exact hall i hi htag

theorem view_hit (hi : i ∈ ch (hashFn b)) (htag : (s.cache i).tag = b) : s.view b = (s.cache i).data := by
  rw [view, h.hashFind_some.mpr ⟨hi, htag⟩]

theorem view_miss (hall : ∀ i ∈ ch (hashFn b), (s.cache i).tag ≠ b) : s.view b = s.dev.disk b := by
  rw [view, h.hashFind_none.mpr hall]

theorem view_congr {ch' : Nat → List Nat} (h' : Shape s' l' ch')
    (hmem : ∀ i, i ∈ ch' (hashFn b) ∧ (s'.cache i).tag = b ↔ i ∈ ch (hashFn b) ∧ (s.cache i).tag = b)
    (hdata : ∀ i ∈ ch (hashFn b), (s.cache i).tag = b → (s'.cache i).data = (s.cache i).data)
    (hdisk : s'.dev.disk b = s.dev.disk b) : s'.view b = s.view b := by
  by_cases hex : ∃ i, i ∈ ch (hashFn b) ∧ (s.cache i).tag = b
  · obtain ⟨i, hi, htag⟩ := hex
    obtain ⟨hi', htag'⟩ := (hmem i).mpr ⟨hi, htag⟩
    rw [h.view_hit hi htag, h'.view_hit hi' htag', hdata i hi htag]
  · rw [h.view_miss fun i hi htag => hex ⟨i, hi, htag⟩, h'.view_miss fun i hi htag => hex ⟨i, (hmem i).mp ⟨hi, htag⟩⟩, hdisk]

theorem relink {d : Links} (hd : d.Holds l') (hp : l'.Perm (List.range bcacheEntries)) :
    Shape { s with lru := d } l' ch :=
  { h with lru := hd, perm := hp }

theorem unlink (hi : i < bcacheEntries) :
    (s.lru.unlink i).Holds (l.erase i) ∧ i ∉ l.erase i ∧ (i :: l.erase i).Perm (List.range bcacheEntries) := by
  have hmem := h.mem_lru.mpr hi
  obtain ⟨a, b, hab⟩ := append_of_mem hmem
  have hnd := h.lru.nodup
  have hia : i ∉ a := by
    rw [hab] at hnd
    exact fun hia => (nodup_append.mp hnd).2.2 i hia i mem_cons_self rfl
  have herase : l.erase i = a ++ b := by
    rw [hab, erase_append_right _ hia, erase_cons_head]
  refine ⟨?_, fun hmem' => (hnd.mem_erase_iff.mp hmem').1 rfl, (perm_cons_erase hmem).symm.trans h.perm⟩
  rw [herase]
  exact (hab ▸ h.lru).unlink

theorem promote (hi : i < bcacheEntries) : Shape (promote i s) (i :: l.erase i) ch := by
  obtain ⟨hd, hnot, hp⟩ := h.unlink hi
  exact h.relink (hd.pushHead hnot) hp

theorem setEntry (hi : i ∈ ch k) (htag : e.tag = (s.cache i).tag) (hvalid : e.valid)
    (hclean : e.dirty = false → s.dev.disk e.tag = e.data) :
    Shape (s.setEntry i e) l ch ∧ (s.setEntry i e).view = update s.view e.tag e.data := by
  have hat : ∀ j ≠ i, (s.setEntry i e).cache j = s.cache j := fun j hj => update_of_ne hj _ _
  have hself : (s.setEntry i e).cache i = e := update_self _ _ _
  have htags : ∀ j, ((s.setEntry i e).cache j).tag = (s.cache j).tag := fun j => by
    by_cases hj : j = i
    · rw [hj, hself, htag]
    · rw [hat j hj]
  have hval : ∀ j, (s.cache j).valid → ((s.setEntry i e).cache j).valid := fun j hj => by
    by_cases hji : j = i
    · rw [hji, hself, hvalid]
    · rw [hat j hji, hj]
  have hshape : Shape (s.setEntry i e) l ch := by
    refine ⟨h.lru, h.perm, h.chain, h.nodup, fun k j hj => ?_, fun k j j' hj hj' heq => ?_, fun j hj hv hstray => ?_,
      fun k j hj hd => ?_⟩
    · obtain ⟨hlt, hv, hk⟩ := h.bucket k j hj
      exact ⟨hlt, hval j hv, by rw [htags, hk]⟩
    · rw [htags, htags] at heq
      exact h.tags k j j' hj hj' heq
    · rw [htags] at hstray
      obtain rfl | hji := eq_or_ne j i
      · exact absurd (h.mem_chain hi) hstray
      · rw [hat j hji] at hv ⊢
        exact h.stray j hj hv hstray
    · obtain rfl | hji := eq_or_ne j i
      · rw [hself] at hd ⊢
        exact hclean hd
      · rw [hat j hji] at hd ⊢
        exact h.clean k j hj hd
  refine ⟨hshape, funext fun b => ?_⟩
  obtain rfl | hb := eq_or_ne b e.tag
  · rw [update_self, hshape.view_hit (i := i) (by rw [htag]; exact h.mem_chain hi) (by rw [hself]), hself]
  rw [update_of_ne hb]
  refine h.view_congr hshape (fun j => by rw [htags]) (fun j _ hj => ?_) rfl
  rw [hat]
  rintro rfl
  exact hb (htag ▸ hj.symm)

theorem refused : Shape s.refused l ch ∧ s.refused.view = s.view := ⟨{ h with }, rfl⟩

theorem written (hi : i ∈ ch k) : Shape (s.written i) l ch ∧ (s.written i).view = s.view := by
  have hat : ∀ j ≠ i, (s.written i).cache j = s.cache j := fun j hj => update_of_ne hj _ _
  have hself : (s.written i).cache i = { s.cache i with dirty := false } := update_self _ _ _
  have hsame : ∀ j, ((s.written i).cache j).tag = (s.cache j).tag ∧ ((s.written i).cache j).valid = (s.cache j).valid ∧
      ((s.written i).cache j).data = (s.cache j).data := fun j => by
    by_cases hj : j = i
    · rw [hj, hself]
      exact ⟨rfl, rfl, rfl⟩
    · rw [hat j hj]
      exact ⟨rfl, rfl, rfl⟩
  have hshape : Shape (s.written i) l ch := by
    refine ⟨h.lru, h.perm, h.chain, h.nodup, fun k j hj => ?_, fun k j j' hj hj' heq => ?_, fun j hj hv hstray => ?_,
      fun k' j hj hd => ?_⟩
    · rw [(hsame j).1, (hsame j).2.1]
      exact h.bucket k j hj
    · rw [(hsame j).1, (hsame j').1] at heq
      exact h.tags k j j' hj hj' heq
    · rw [(hsame j).1] at hstray
      rw [(hsame j).2.1] at hv
      by_cases hji : j = i
      · rw [hji, hself]
      · rw [hat j hji]
        exact h.stray j hj hv hstray
    · rw [(hsame j).1, (hsame j).2.2]
      by_cases htag : (s.cache j).tag = (s.cache i).tag
      · -- the entry itself
        have hk : k' = k := by rw [← (h.bucket k' j hj).2.2, htag, (h.bucket k i hi).2.2]
        obtain rfl : j = i := h.tags k j i (hk ▸ hj) hi htag
        exact update_self _ _ _
      · rw [hat j (fun hji => htag (hji ▸ rfl))] at hd
        exact (update_of_ne htag _ _).trans (h.clean k' j hj hd)
  refine ⟨hshape, funext fun b => ?_⟩
  by_cases hb : b = (s.cache i).tag
  · rw [hshape.view_hit (i := i) (b := b) (by rw [hb]; exact h.mem_chain hi) (by rw [hb, (hsame i).1]), (hsame i).2.2,
      h.view_hit (i := i) (by rw [hb]; exact h.mem_chain hi) hb.symm]
  · exact h.view_congr hshape (fun j => by rw [(hsame j).1]) (fun j _ _ => (hsame j).2.2) (update_of_ne hb _ _)

theorem flushEntry_cases (hi : i < bcacheEntries) : (flushEntry i s = s ∧ ¬ ((s.cache i).valid ∧ (s.cache i).dirty)) ∨
    (i ∈ ch (hashFn (s.cache i).tag) ∧ (s.cache i).valid ∧ (s.cache i).dirty ∧
      flushEntry i s = if s.dev.fails s.dev.requests then s.refused else s.written i) := by
  unfold flushEntry
  by_cases hvd : (s.cache i).valid ∧ (s.cache i).dirty
  · rw [if_pos (by simp [hvd.1, hvd.2]), writebackEntry_eq hvd.1 hvd.2]
    refine .inr ⟨?_, hvd.1, hvd.2, rfl⟩
    by_contra hstray
    have := h.stray i hi hvd.1 hstray
    rw [hvd.2] at this
    cases this
  · rw [if_neg (by simpa using hvd)]
    exact .inl ⟨rfl, hvd⟩

theorem flushEntry (hi : i < bcacheEntries) : Shape (flushEntry i s) l ch ∧ (flushEntry i s).view = s.view := by
  rcases h.flushEntry_cases hi with ⟨he, -⟩ | ⟨hmem, -, -, he⟩
  · rw [he]
    exact ⟨h, rfl⟩
  rw [he]
  split
  · exact h.refused
  · exact h.written hmem

theorem flushEntry_disk (hi : i < bcacheEntries) (c : Nat) :
    (Bcache.flushEntry i s).dev.disk c = s.dev.disk c ∨ (Bcache.flushEntry i s).dev.disk c = s.view c := by
  rcases h.flushEntry_cases hi with ⟨he, -⟩ | ⟨hmem, -, -, he⟩
  · rw [he]
    exact .inl rfl
  rw [he]
  split
  · exact .inl rfl
  by_cases hc : c = (s.cache i).tag
  · refine .inr ?_
    rw [hc, h.view_hit hmem rfl]
    exact update_self _ _ _
  · exact .inl (update_of_ne hc _ _)

theorem chain_hashRemove (i k : Nat) :
    Chain (hashRemove i s).hashNext ((hashRemove i s).hashTable k)
      (update ch (hashFn (s.cache i).tag) ((ch (hashFn (s.cache i).tag)).erase i) k) := by
  have hown := h.chain (hashFn (s.cache i).tag)
  by_cases hk : k = hashFn (s.cache i).tag
  · subst hk
    simp only [hashRemove, update_self]
    by_cases hi : i ∈ ch (hashFn (s.cache i).tag)
    · exact hown.remove (h.nodup _) hi (h.length_le _)
    · rw [erase_of_not_mem hi]
      exact hown.remove_absent hi (h.length_le _)
  · simp only [hashRemove, update_of_ne hk]
    refine (h.chain k).congr fun j hj => ?_
    have hjk : j ∉ ch (hashFn (s.cache i).tag) := fun hj' => hk ((h.bucket k j hj).2.2.symm.trans (h.bucket _ j hj').2.2)
    have hji : j ≠ i := fun hji => hk ((h.bucket k j hj).2.2.symm.trans (by rw [hji]))
    exact remove_of_not_mem _ hown (h.length_le _) hjk hji

theorem mem_erase_chain :
    j ∈ update ch (hashFn (s.cache i).tag) ((ch (hashFn (s.cache i).tag)).erase i) k ↔ j ≠ i ∧ j ∈ ch k := by
  by_cases hk : k = hashFn (s.cache i).tag
  · subst hk
    rw [update_self, (h.nodup _).mem_erase_iff]
  · rw [update_of_ne hk]
    exact ⟨fun hj => ⟨fun hji => hk ((h.bucket k j hj).2.2.symm.trans (by rw [hji])), hj⟩, And.right⟩

theorem hashRemove (hd : (s.cache i).dirty = false) :
    Shape (hashRemove i s) l (update ch (hashFn (s.cache i).tag) ((ch (hashFn (s.cache i).tag)).erase i)) ∧
      (Bcache.hashRemove i s).view = s.view := by
  have hshape : Shape (Bcache.hashRemove i s) l
      (update ch (hashFn (s.cache i).tag) ((ch (hashFn (s.cache i).tag)).erase i)) := by
    refine ⟨h.lru, h.perm, h.chain_hashRemove i, fun k => ?_, fun k j hj => ?_, fun k j j' hj hj' heq => ?_,
      fun j hj hv hstray => ?_, fun k j hj hd => ?_⟩
    · by_cases hk : k = hashFn (s.cache i).tag
      · rw [hk, update_self]
        exact (h.nodup _).erase i
      · rw [update_of_ne hk]
        exact h.nodup k
    · exact h.bucket k j (h.mem_erase_chain.mp hj).2
    · exact h.tags k j j' (h.mem_erase_chain.mp hj).2 (h.mem_erase_chain.mp hj').2 heq
    · by_cases hji : j = i
      · rw [hji]
        exact hd
      · exact h.stray j hj hv fun hmem => hstray (h.mem_erase_chain.mpr ⟨hji, hmem⟩)
    · exact h.clean k j (h.mem_erase_chain.mp hj).2 hd
  refine ⟨hshape, funext fun b => ?_⟩
  by_cases hb : i ∈ ch (hashFn b) ∧ (s.cache i).tag = b
  · -- its block is now read from the disk, which is the same
    obtain ⟨hi, htag⟩ := hb
    rw [h.view_hit hi htag, ← h.clean _ i hi hd, htag]
    refine hshape.view_miss fun j hj hjtag => ?_
    obtain ⟨hji, hj⟩ := h.mem_erase_chain.mp hj
    exact hji (h.tags _ j i hj hi (hjtag.trans htag.symm))
  · refine h.view_congr hshape (fun j => ?_) (fun _ _ _ => rfl) rfl
    rw [h.mem_erase_chain]
    exact ⟨fun hj => ⟨hj.1.2, hj.2⟩, fun hj => ⟨⟨fun hji => hb (hji ▸ hj), hj.1⟩, hj.2⟩⟩

theorem setStray (hoff : ∀ k, i ∉ ch k) (hd : e.valid → e.dirty = false) :
    Shape (s.setEntry i e) l ch ∧ (s.setEntry i e).view = s.view := by
  have hat : ∀ k j, j ∈ ch k → (s.setEntry i e).cache j = s.cache j := fun k j hj =>
    update_of_ne (ne_of_mem_of_not_mem hj (hoff k)) _ _
  have hshape : Shape (s.setEntry i e) l ch := by
    refine ⟨h.lru, h.perm, h.chain, h.nodup, fun k j hj => ?_, fun k j j' hj hj' heq => ?_, fun j hj hv hstray => ?_,
      fun k j hj hd => ?_⟩
    · rw [hat k j hj]
      exact h.bucket k j hj
    · rw [hat k j hj, hat k j' hj'] at heq
      exact h.tags k j j' hj hj' heq
    · by_cases hji : j = i
      · have hself : (s.setEntry i e).cache j = e := by rw [hji]; exact update_self _ _ _
        rw [hself] at hv ⊢
        exact hd hv
      · have hsame : (s.setEntry i e).cache j = s.cache j := update_of_ne hji _ _
        rw [hsame] at hv hstray ⊢
        exact h.stray j hj hv hstray
    · rw [hat k j hj] at hd ⊢
      exact h.clean k j hj hd
  refine ⟨hshape, funext fun b => h.view_congr hshape (fun j => ?_) (fun j hj _ => by rw [hat _ j hj]) rfl⟩
  exact and_congr_right fun hj => by rw [hat _ j hj]

theorem install (hi : i < bcacheEntries) (hoff : ∀ k, i ∉ ch k) (hvalid : e.valid)
    (hnew : ∀ j ∈ ch (hashFn e.tag), (s.cache j).tag ≠ e.tag) (hclean : e.dirty = false → s.dev.disk e.tag = e.data) :
    Shape (hashInsert i (s.setEntry i e)) l (update ch (hashFn e.tag) (i :: ch (hashFn e.tag))) ∧
      (hashInsert i (s.setEntry i e)).view = update s.view e.tag e.data := by
  have hself : (hashInsert i (s.setEntry i e)).cache i = e := update_self _ _ _
  have hat : ∀ j ≠ i, (hashInsert i (s.setEntry i e)).cache j = s.cache j := fun j hj => update_of_ne hj _ _
  have hkept : ∀ {k j}, j ∈ ch k → (hashInsert i (s.setEntry i e)).cache j = s.cache j := fun hj =>
    hat _ (ne_of_mem_of_not_mem hj (hoff _))
  have hbucket : hashFn ((s.setEntry i e).cache i).tag = hashFn e.tag := by
    rw [show (s.setEntry i e).cache i = e from update_self _ _ _]
  have hmem : ∀ k j, j ∈ update ch (hashFn e.tag) (i :: ch (hashFn e.tag)) k ↔ (j = i ∧ k = hashFn e.tag) ∨ j ∈ ch k :=
    fun k j => by
      by_cases hk : k = hashFn e.tag
      · subst hk
        simp
      · rw [update_of_ne hk]
        simp [hk]
  have hshape : Shape (hashInsert i (s.setEntry i e)) l (update ch (hashFn e.tag) (i :: ch (hashFn e.tag))) := by
    refine ⟨h.lru, h.perm, fun k => ?_, fun k => ?_, fun k j hj => ?_, fun k j j' hj hj' heq => ?_,
      fun j hj hv hstray => ?_, fun k j hj hd => ?_⟩
    · simp only [hashInsert, hbucket]
      by_cases hk : k = hashFn e.tag
      · subst hk
        rw [update_self, update_self]
        exact (h.chain _).cons (hoff _)
      · rw [update_of_ne hk, update_of_ne hk]
        exact (h.chain k).congr fun j hj => update_of_ne (ne_of_mem_of_not_mem hj (hoff k)) _ _
    · by_cases hk : k = hashFn e.tag
      · rw [hk, update_self]
        exact nodup_cons.mpr ⟨hoff _, h.nodup _⟩
      · rw [update_of_ne hk]
        exact h.nodup k
    · rcases (hmem k j).mp hj with ⟨rfl, rfl⟩ | hj
      · rw [hself]
        exact ⟨hi, hvalid, rfl⟩
      · rw [hkept hj]
        exact h.bucket k j hj
    · rcases (hmem k j).mp hj with ⟨hji, hk⟩ | hjc <;> rcases (hmem k j').mp hj' with ⟨hji', hk'⟩ | hjc'
      · rw [hji, hji']
      · rw [hji, hself, hkept hjc'] at heq
        exact absurd heq.symm (hnew j' (hk ▸ hjc'))
      · rw [hji', hself, hkept hjc] at heq
        exact absurd heq (hnew j (hk' ▸ hjc))
      · rw [hkept hjc, hkept hjc'] at heq
        exact h.tags k j j' hjc hjc' heq
    · obtain rfl | hji := eq_or_ne j i
      · rw [hself] at hstray
        exact absurd ((hmem _ _).mpr (.inl ⟨rfl, rfl⟩)) hstray
      · rw [hat j hji] at hv hstray ⊢
        exact h.stray j hj hv fun hj => hstray ((hmem _ _).mpr (.inr hj))
    · rcases (hmem k j).mp hj with ⟨rfl, rfl⟩ | hj
      · rw [hself] at hd ⊢
        exact hclean hd
      · rw [hkept hj] at hd ⊢
        exact h.clean k j hj hd
  refine ⟨hshape, funext fun b => ?_⟩
  by_cases hb : b = e.tag
  · rw [hb, update_self, hshape.view_hit ((hmem _ i).mpr (.inl ⟨rfl, rfl⟩)) (by rw [hself]), hself]
  rw [update_of_ne hb]
  refine h.view_congr hshape (fun j => ?_) (fun j hj _ => by rw [hkept hj]) rfl
  rw [hmem]
  constructor
  · rintro ⟨⟨rfl, -⟩ | hj, htag⟩
    · rw [hself] at htag
      exact absurd htag.symm hb
    · rw [hkept hj] at htag
      exact ⟨hj, htag⟩
  · rintro ⟨hj, htag⟩
    rw [hkept hj]
    exact ⟨.inr hj, htag⟩

end

end Shape

end Bcache
end Limnx
