import Limnx.Lib.GuardedRun
import Limnx.Theorems.CacheShape

/-! Each call keeps the shape of the cache and does to its view what it does to a plain array, as long as no write-back
    of an entry given up fails. -/

namespace Limnx
namespace Bcache
open Function IntrusiveList GuardedRun List Option Bcache

attribute [local irreducible] bcacheEntries hashBuckets

/-- Writing the entry back now, if it has to be, does not fail. -/
def Backed (s : Bcache) (i : Nat) : Prop :=
  (s.cache i).valid = true → (s.cache i).dirty = true → s.dev.fails s.dev.requests = false

theorem evict_eq (i : Nat) (s : Bcache) :
    evict i s = if ((flushEntry i s).cache i).valid then hashRemove i (flushEntry i s) else flushEntry i s := rfl

theorem evict_dev (i : Nat) (s : Bcache) : (evict i s).dev = (flushEntry i s).dev := by
  rw [evict_eq]
  split <;> rfl

theorem flushEntry_fails (i : Nat) (s : Bcache) : (flushEntry i s).dev.fails = s.dev.fails := by
  unfold flushEntry writebackEntry virtioBlkWriteMulti
  dsimp only
  split_ifs <;> rfl

namespace Shape
variable {s s' : Bcache} {l l' : List Nat} {ch : Nat → List Nat} {i j k b v : Nat} {d : Block}

section
variable (h : Shape s l ch)
include h

theorem flushEntry_cache (hi : i < bcacheEntries) (hj : j ≠ i) : (s.flushEntry i).cache j = s.cache j := by
  rcases h.flushEntry_cases hi with ⟨he, -⟩ | ⟨-, -, -, he⟩
  · rw [he]
  rw [he]
  split
  · rfl
  · exact update_of_ne hj _ _

theorem flushEntry_clean (hi : i < bcacheEntries) (hok : s.Backed i)
    (hv : ((s.flushEntry i).cache i).valid) : ((s.flushEntry i).cache i).dirty = false := by
  rcases h.flushEntry_cases hi with ⟨he, hvd⟩ | ⟨-, hval, hd, he⟩
  · rw [he] at hv ⊢
    exact Bool.eq_false_iff.mpr fun hd => hvd ⟨hv, hd⟩
  · rw [he, if_neg (by rw [hok hval hd]; exact Bool.false_ne_true)]
    exact congrArg BcacheEntry.dirty (update_self i _ s.cache)

theorem evict (hi : i < bcacheEntries) (hok : s.Backed i) :
    ∃ ch', Shape (evict i s) l ch' ∧ (s.evict i).view = s.view ∧ (∀ k j, j ∈ ch' k ↔ j ≠ i ∧ j ∈ ch k) ∧
      (∀ j ≠ i, (s.evict i).cache j = s.cache j) ∧
      (((s.evict i).cache i).valid → ((s.evict i).cache i).dirty = false) := by
  obtain ⟨hf, hview⟩ := h.flushEntry hi
  have hclean := h.flushEntry_clean hi hok
  rw [evict_eq]
  by_cases hv : ((s.flushEntry i).cache i).valid
  · rw [if_pos hv]
    obtain ⟨hr, hrview⟩ := hf.hashRemove (hclean hv)
    refine ⟨_, hr, hrview.trans hview, fun k j => hf.mem_erase_chain, fun j hj => ?_, hclean⟩
    exact h.flushEntry_cache hi hj
  · rw [if_neg hv]
    refine ⟨ch, hf, hview, fun k j => ⟨fun hj => ⟨?_, hj⟩, And.right⟩, fun j hj => h.flushEntry_cache hi hj, hclean⟩
    rintro rfl
    exact hv (hf.bucket k j hj).2.1

theorem tail_lt (hv : s.lru.tail = some v) : v < bcacheEntries := by
  rw [h.lru.tail] at hv
  exact h.mem_lru.mp (mem_of_getLast? hv)

theorem tail_some : ∃ v, s.lru.tail = some v := by
  rw [h.lru.tail]
  cases hl : l.getLast? with
  | some v => exact ⟨v, rfl⟩
  | none =>
    have hnil := getLast?_eq_none_iff.mp hl
    have := h.perm.length_eq
    rw [hnil, length_range] at this
    unfold bcacheEntries at this
    cases this

theorem evict_miss (hi : i < bcacheEntries) (hmiss : hashFind b s = none) : (s.evict i).dev.disk b = s.view b := by
  have hall := h.hashFind_none.mp hmiss
  rw [evict_dev]
  rcases h.flushEntry_disk hi b with hd | hd
  · rw [hd, h.view_miss hall]
  · exact hd

theorem withDev {dev : BlkDevice} (hd : dev.disk = s.dev.disk) :
    Shape { s with dev } l ch ∧ ({ s with dev } : Bcache).view = s.view := by
  refine ⟨{ h with clean := ?_ }, funext fun b => ?_⟩
  · rw [hd]
    exact h.clean
  · unfold view
    dsimp only
    rw [hd]
    rfl

theorem replace {e : BcacheEntry} {t : Bcache} (dev : BlkDevice) (hmiss : hashFind e.tag s = none)
    (htail : s.lru.tail = some v) (hok : s.Backed v) (hdev : dev.disk = (s.evict v).dev.disk)
    (hvalid : e.valid) (hclean : e.dirty = false → s.view e.tag = e.data)
    (ht : t = Bcache.promote v (hashInsert v (({ s.evict v with dev } : Bcache).setEntry v e))) :
    ∃ l' ch', Shape t l' ch' ∧ t.view = update s.view e.tag e.data ∧ (Full s ch → Full t ch') := by
  have hentry : t.cache = update (s.evict v).cache v e := by
    rw [ht]
    rfl
  have hv := h.tail_lt htail
  obtain ⟨ch', he, heview, hmem, hcache, -⟩ := h.evict hv hok
  obtain ⟨hd, hdview⟩ := he.withDev hdev
  have hnew : ∀ j ∈ ch' (hashFn e.tag), ((s.evict v).cache j).tag ≠ e.tag := fun j hj => by
    obtain ⟨hjv, hj⟩ := (hmem _ j).mp hj
    rw [hcache j hjv]
    exact h.hashFind_none.mp hmiss j hj
  obtain ⟨hinst, hiview⟩ := hd.install hv (fun k hk => ((hmem k v).mp hk).1 rfl) hvalid hnew fun hdirty =>
    ((congrFun hdev _).trans (h.evict_miss hv hmiss)).trans (hclean hdirty)
  refine ⟨_, _, ht ▸ hinst.promote hv, ?_, fun hfull j hj hval => ?_⟩
  · rw [ht, ← heview, ← hdview, ← hiview]
    rfl
  · rw [hentry] at hval ⊢
    by_cases hjv : j = v
    · rw [hjv, update_self, update_self]
      exact mem_cons_self
    · rw [update_of_ne hjv, hcache j hjv] at hval ⊢
      have hj' := (hmem _ j).mpr ⟨hjv, hfull j hj hval⟩
      by_cases hk : hashFn (s.cache j).tag = hashFn e.tag
      · rw [hk] at hj' ⊢
        rw [update_self]
        exact mem_cons_of_mem _ hj'
      · rwa [update_of_ne hk]

theorem read (hok : hashFind b s = none → ∀ v, s.lru.tail = some v → s.Backed v) :
    ∃ l' ch', Shape (read b s).2 l' ch' ∧ (s.read b).2.view = s.view ∧
      (Full s ch → (∀ n, s.dev.fails n = false) →
        Full (s.read b).2 ch' ∧ (s.read b).1 = some (s.view b)) := by
  unfold Bcache.read
  cases hfind : hashFind b s with
  | some i =>
    obtain ⟨hi, htag⟩ := h.hashFind_some.mp hfind
    refine ⟨_, ch, h.promote (h.bucket _ i hi).1, rfl, fun hfull _ => ⟨hfull, ?_⟩⟩
    rw [h.view_hit hi htag]
  | none =>
    obtain ⟨v, htail⟩ := h.tail_some
    simp only [htail]
    have hback := hok hfind v htail
    have hv := h.tail_lt htail
    have hmiss := h.evict_miss hv hfind
    by_cases hf : (s.evict v).dev.fails (s.evict v).dev.requests
    · -- the victim stays off its chain, with whatever the request left in it
      obtain ⟨ch', he, heview, hmem, -, hclean⟩ := h.evict hv hback
      obtain ⟨hd, hdview⟩ := he.withDev
        (show (virtioBlkReadMulti b 1 (s.evict v).dev).2.disk = (s.evict v).dev.disk from rfl)
      simp only [virtioBlkReadMulti, if_pos hf, bind_none] at hd hdview ⊢
      obtain ⟨hs, hsview⟩ := hd.setStray (i := v)
        (e := ⟨((s.evict v).dev.leaves (s.evict v).dev.requests).getD ((s.evict v).cache v).data,
          ((s.evict v).cache v).tag, ((s.evict v).cache v).valid, ((s.evict v).cache v).dirty⟩)
        (fun k hk => ((hmem k v).mp hk).1 rfl) hclean
      refine ⟨l, ch', hs, hsview.trans (hdview.trans heview), fun _ hnf => ?_⟩
      rw [evict_dev, flushEntry_fails, hnf] at hf
      cases hf
    · simp only [virtioBlkReadMulti, if_neg hf, Handler.blocksAt, bind_some, range_one, map_cons,
        head?_cons, Nat.add_zero, hmiss]
      obtain ⟨l', ch', hs, hview, hfull⟩ := h.replace (e := ⟨s.view b, b, true, false⟩)
        { (s.evict v).dev with requests := (s.evict v).dev.requests + 1 }
        hfind htail hback rfl rfl (fun _ => rfl) rfl
      exact ⟨l', ch', hs, hview.trans (update_eq_self b s.view), fun hf _ => ⟨hfull hf, trivial⟩⟩

theorem read_value (hr : (s.read b).1 = some d) : d = s.view b := by
  unfold Bcache.read at hr
  cases hfind : hashFind b s with
  | some i =>
    obtain ⟨hi, htag⟩ := h.hashFind_some.mp hfind
    simp only [hfind, some.injEq] at hr
    rw [← hr, h.view_hit hi htag]
  | none =>
    obtain ⟨v, htail⟩ := h.tail_some
    have hmiss := h.evict_miss (h.tail_lt htail) hfind
    simp only [hfind, htail] at hr
    by_cases hf : (s.evict v).dev.fails (s.evict v).dev.requests
    · simp [virtioBlkReadMulti, if_pos hf] at hr
    simp only [virtioBlkReadMulti, if_neg hf, Handler.blocksAt, bind_some, range_one, map_cons,
      head?_cons, Nat.add_zero, hmiss, some.injEq] at hr
    exact hr.symm

theorem write (hok : hashFind b s = none → ∀ v, s.lru.tail = some v → s.Backed v) :
    ∃ l' ch', Shape (write b d s).2 l' ch' ∧ (s.write b d).2.view = update s.view b d ∧
      (Full s ch → Full (s.write b d).2 ch') := by
  unfold Bcache.write
  cases hfind : hashFind b s with
  | some i =>
    obtain ⟨hi, rfl⟩ := h.hashFind_some.mp hfind
    obtain ⟨hs, hview⟩ := h.setEntry (e := { s.cache i with data := d, dirty := true }) hi rfl (h.bucket _ i hi).2.1
      fun hd => by cases hd
    refine ⟨_, ch, hs.promote (h.bucket _ i hi).1, hview, fun hfull j hj hv => ?_⟩
    obtain rfl | hji := eq_or_ne j i
    · have : ((Bcache.promote j (s.setEntry j { s.cache j with data := d, dirty := true })).cache j).tag = (s.cache j).tag :=
        (congrArg BcacheEntry.tag (update_self j { s.cache j with data := d, dirty := true } s.cache) :)
      rw [this]
      exact hi
    · have : (Bcache.promote i (s.setEntry i { s.cache i with data := d, dirty := true })).cache j = s.cache j :=
        update_of_ne hji _ _
      rw [this] at hv ⊢
      exact hfull j hj hv
  | none =>
    obtain ⟨v, htail⟩ := h.tail_some
    simp only [htail]
    exact h.replace (e := ⟨d, b, true, true⟩) (s.evict v).dev hfind htail (hok hfind v htail) rfl rfl nofun rfl

theorem writeback_flushEntry (hi : i ∈ ch k) :
    (if (s.cache i).dirty then writebackEntry i s else s) = s.flushEntry i := by
  unfold Bcache.flushEntry
  rw [(h.bucket k i hi).2.1, Bool.true_and]

theorem invalidate (hok : ∀ i, hashFind b s = some i → s.Backed i) :
    ∃ l' ch', Shape (invalidate b s) l' ch' ∧ (s.invalidate b).view = s.view ∧
      (Full s ch → Full (s.invalidate b) ch') := by
  unfold Bcache.invalidate
  cases hfind : hashFind b s with
  | none => exact ⟨l, ch, h, rfl, id⟩
  | some i =>
    obtain ⟨hi, -⟩ := h.hashFind_some.mp hfind
    have hlt := (h.bucket _ i hi).1
    simp only [h.writeback_flushEntry hi]
    obtain ⟨hf, hfview⟩ := h.flushEntry hlt
    obtain ⟨hr, hrview⟩ := hf.hashRemove (h.flushEntry_clean hlt (hok i hfind) (hf.bucket _ i hi).2.1)
    obtain ⟨hs, hsview⟩ := hr.setStray
      (e := { ((s.flushEntry i).hashRemove i).cache i with valid := false, dirty := false })
      (fun k hk => (hf.mem_erase_chain.mp hk).1 rfl) fun hv => by cases hv
    obtain ⟨hd, hnot, hp⟩ := hs.unlink hlt
    refine ⟨_, _, hs.relink (hd.pushTail hnot) ((perm_append_singleton i (l.erase i)).trans hp), ?_, fun hfull j hj hv => ?_⟩
    · exact hsview.trans (hrview.trans hfview)
    · obtain rfl | hji := eq_or_ne j i
      · simp [dllUnlink, Bcache.setEntry] at hv
      have hsame : (((s.flushEntry i).hashRemove i).setEntry i
          { ((s.flushEntry i).hashRemove i).cache i with valid := false, dirty := false }).cache j =
          s.cache j := (update_of_ne hji _ _).trans (h.flushEntry_cache hlt hji)
      simp only [dllUnlink] at hv ⊢
      rw [hsame] at hv ⊢
      exact hf.mem_erase_chain.mpr ⟨hji, hfull j hj hv⟩

theorem flushEntry_same (hi : i < bcacheEntries) (j : Nat) :
    ((s.flushEntry i).cache j).valid = (s.cache j).valid ∧ ((s.flushEntry i).cache j).tag = (s.cache j).tag := by
  rcases h.flushEntry_cases hi with ⟨he, -⟩ | ⟨-, -, -, he⟩
  · rw [he]
    exact ⟨rfl, rfl⟩
  rw [he]
  split
  · exact ⟨rfl, rfl⟩
  by_cases hj : j = i
  · rw [hj, show (s.written i).cache i = { s.cache i with dirty := false } from update_self _ _ _]
    exact ⟨rfl, rfl⟩
  · rw [show (s.written i).cache j = s.cache j from update_of_ne hj _ _]
    exact ⟨rfl, rfl⟩

end

theorem flushEntries : ∀ {s t : Bcache}, Shape s l ch → ∀ is : List Nat, (∀ i ∈ is, i < bcacheEntries) →
    is.foldl (fun s i => s.flushEntry i) s = t →
    Shape t l ch ∧ t.view = s.view ∧ (∀ c, t.dev.disk c = s.dev.disk c ∨ t.dev.disk c = s.view c) ∧
    (Full s ch → Full t ch) ∧
    ((∀ n, s.dev.fails n = false) → ∀ j, (j ∈ is ∨ ((s.cache j).valid → (s.cache j).dirty = false)) →
      (t.cache j).valid → (t.cache j).dirty = false)
  | s, _, h, [], _, rfl => ⟨h, rfl, fun _ => .inl rfl, id, fun _ j hj => by simpa using hj⟩
  | s, t, h, i :: is, his, ht => by
    have hi := his i mem_cons_self
    obtain ⟨hf, hview⟩ := h.flushEntry hi
    obtain ⟨ihs, ihview, ihdisk, ihfull, ihclean⟩ := hf.flushEntries is (fun j hj => his j (mem_cons_of_mem _ hj)) ht
    rw [hview] at ihview ihdisk
    refine ⟨ihs, ihview, fun c => ?_, fun hfull => ihfull fun j hj hv => ?_, fun hnf j hj => ihclean ?_ j ?_⟩
    · rcases ihdisk c with hc | hc
      · rcases h.flushEntry_disk hi c with hc' | hc'
        · exact .inl (hc.trans hc')
        · exact .inr (hc.trans hc')
      · exact .inr hc
    · rw [(h.flushEntry_same hi j).1] at hv
      rw [(h.flushEntry_same hi j).2]
      exact hfull j hj hv
    · rwa [flushEntry_fails]
    · obtain rfl | hji := eq_or_ne j i
      · exact .inr (h.flushEntry_clean hi fun _ _ => hnf _)
      · rw [h.flushEntry_cache hi hji]
        exact hj.imp_left fun hj => (mem_cons.mp hj).resolve_left hji

section
variable (h : Shape s l ch)
include h

theorem flush : Shape (flush s) l ch ∧ s.flush.view = s.view ∧
    (∀ c, s.flush.dev.disk c = s.dev.disk c ∨ s.flush.dev.disk c = s.view c) ∧
    (Full s ch → Full s.flush ch) := by
  obtain ⟨hs, hview, hdisk, hfull, -⟩ := h.flushEntries (range bcacheEntries) (fun i hi => mem_range.mp hi) rfl
  exact ⟨hs, hview, hdisk, hfull⟩

theorem flush_disk (hnf : ∀ n, s.dev.fails n = false) : s.flush.dev.disk = s.view := by
  obtain ⟨hs, hview, -, -, hclean⟩ := h.flushEntries (range bcacheEntries) (fun i hi => mem_range.mp hi) rfl
  funext b
  rw [← hview]
  by_cases hex : ∃ i, i ∈ ch (hashFn b) ∧ (s.flush.cache i).tag = b
  · obtain ⟨i, hi, rfl⟩ := hex
    obtain ⟨hlt, hv, -⟩ := hs.bucket _ i hi
    exact (hs.clean _ i hi (hclean hnf i (.inl (mem_range.mpr hlt)) hv)).trans (hs.view_hit hi rfl).symm
  · exact (hs.view_miss fun i hi htag => hex ⟨i, hi, htag⟩).symm

theorem read_disk (b c : Nat) : (s.read b).2.dev.disk c = s.dev.disk c ∨ (s.read b).2.dev.disk c = s.view c := by
  unfold Bcache.read
  cases hfind : hashFind b s with
  | some i => exact .inl rfl
  | none =>
    obtain ⟨v, htail⟩ := h.tail_some
    have hd := h.flushEntry_disk (h.tail_lt htail) c
    rw [← evict_dev] at hd
    simp only [htail]
    split <;> exact hd

theorem write_disk (b : Nat) (d : Block) (c : Nat) :
    (s.write b d).2.dev.disk c = s.dev.disk c ∨ (s.write b d).2.dev.disk c = s.view c := by
  unfold Bcache.write
  cases hfind : hashFind b s with
  | some i => exact .inl rfl
  | none =>
    obtain ⟨v, htail⟩ := h.tail_some
    have hd := h.flushEntry_disk (h.tail_lt htail) c
    rw [← evict_dev] at hd
    simp only [htail]
    exact hd

theorem invalidate_disk (b c : Nat) :
    (s.invalidate b).dev.disk c = s.dev.disk c ∨ (s.invalidate b).dev.disk c = s.view c := by
  unfold Bcache.invalidate
  cases hfind : hashFind b s with
  | none => exact .inl rfl
  | some i =>
    obtain ⟨hi, -⟩ := h.hashFind_some.mp hfind
    simp only [h.writeback_flushEntry hi]
    exact h.flushEntry_disk (h.bucket _ i hi).1 c

end

end Shape

theorem foldl_dllPushHead (xs : List Nat) (s : Bcache) :
    xs.foldl (fun s i => dllPushHead i s) s = { s with lru := xs.foldl Links.pushHead s.lru } := by
  induction xs generalizing s with
  | nil => rfl
  | cons x xs ih => exact ih _

theorem init_shape (s : Bcache) :
    Shape (init s) (range bcacheEntries).reverse (fun _ => []) ∧ (init s).view = s.dev.disk ∧
      Full (init s) fun _ => [] := by
  have hlru := (Links.Holds.nil (d := ⟨none, none, fun _ => none, fun _ => none⟩) rfl rfl).foldl_pushHead
    (nodup_range (n := bcacheEntries)) fun x _ => not_mem_nil
  rw [append_nil] at hlru
  unfold init
  rw [foldl_dllPushHead]
  refine ⟨⟨hlru, reverse_perm _, fun _ => rfl, fun _ => nodup_nil, fun _ _ hi => ?_, fun _ _ _ hi => ?_,
    fun _ _ hv => ?_, fun _ _ hi => ?_⟩, ?_, fun _ _ hv => ?_⟩
  · cases hi
  · cases hi
  · cases hv
  · cases hi
  · funext b
    have hnone : ∀ n p, find (fun _ => none) p n none = none := fun n p => by cases n <;> rfl
    simp only [view, hashFind, hnone]
  · cases hv

inductive CacheOp where
  | read (b : Nat)
  | write (b : Nat) (d : Block)
  | invalidate (b : Nat)
  | flush
  | flushEntry (i : Fin bcacheEntries)

def step (s : Bcache) : CacheOp → Bcache
  | .read b => (s.read b).2
  | .write b d => (s.write b d).2
  | .invalidate b => s.invalidate b
  | .flush => s.flush
  | .flushEntry i => s.flushEntry i

def plainStep (m : Disk) : CacheOp → Disk
  | .write b d => update m b d
  | _ => m

/-- The call gives up no entry whose write-back fails. -/
def Backs (s : Bcache) : CacheOp → Prop
  | .read b | .write b _ => hashFind b s = none → ∀ v, s.lru.tail = some v → s.Backed v
  | .invalidate b => ∀ i, hashFind b s = some i → s.Backed i
  | .flush | .flushEntry _ => True

section Run
variable {s : Bcache} {l : List Nat} {ch : Nat → List Nat} {op : CacheOp}

theorem Shape.step (h : Shape s l ch) (hok : s.Backs op) :
    ∃ l' ch', Shape (step s op) l' ch' ∧ (s.step op).view = plainStep s.view op ∧
      (Full s ch → (∀ n, s.dev.fails n = false) → Full (s.step op) ch') := by
  cases op with
  | read b =>
    obtain ⟨l', ch', hs, hview, hfull⟩ := h.read hok
    exact ⟨l', ch', hs, hview, fun hf hnf => (hfull hf hnf).1⟩
  | write b d =>
    obtain ⟨l', ch', hs, hview, hfull⟩ := h.write hok
    exact ⟨l', ch', hs, hview, fun hf _ => hfull hf⟩
  | invalidate b =>
    obtain ⟨l', ch', hs, hview, hfull⟩ := h.invalidate hok
    exact ⟨l', ch', hs, hview, fun hf _ => hfull hf⟩
  | flush =>
    obtain ⟨hs, hview, -, hfull⟩ := h.flush
    exact ⟨l, ch, hs, hview, fun hf _ => hfull hf⟩
  | flushEntry i =>
    obtain ⟨hs, hview⟩ := h.flushEntry i.isLt
    refine ⟨l, ch, hs, hview, fun hfull _ j hj hv => ?_⟩
    rw [show (step s (.flushEntry i)).cache = (s.flushEntry i).cache from rfl] at hv ⊢
    rw [(h.flushEntry_same i.isLt j).1] at hv
    rw [(h.flushEntry_same i.isLt j).2]
    exact hfull j hj hv

theorem Shape.step_disk (h : Shape s l ch) (op : CacheOp) (c : Nat) :
    (s.step op).dev.disk c = s.dev.disk c ∨ (s.step op).dev.disk c = s.view c := by
  cases op with
  | read b => exact h.read_disk b c
  | write b d => exact h.write_disk b d c
  | invalidate b => exact h.invalidate_disk b c
  | flush => exact h.flush.2.2.1 c
  | flushEntry i => exact h.flushEntry_disk i.isLt c

theorem step_fails (s : Bcache) (op : CacheOp) : (s.step op).dev.fails = s.dev.fails := by
  have hevict : ∀ v, (evict v s).dev.fails = s.dev.fails := fun v => by rw [evict_dev, flushEntry_fails]
  cases op with
  | read b =>
    show (s.read b).2.dev.fails = _
    unfold read
    split
    · rfl
    split
    · rfl
    · dsimp only
      split <;> exact hevict _
  | write b d =>
    show (s.write b d).2.dev.fails = _
    unfold write
    split
    · rfl
    split
    · unfold virtioBlkWriteMulti
      split <;> rfl
    · exact hevict _
  | invalidate b =>
    show (s.invalidate b).dev.fails = _
    unfold invalidate
    split
    · rfl
    unfold writebackEntry virtioBlkWriteMulti
    dsimp only
    split_ifs <;> rfl
  | flush =>
    have hfold : ∀ (is : List Nat) (t : Bcache), (is.foldl (fun s i => s.flushEntry i) t).dev.fails = t.dev.fails := by
      intro is
      induction is with
      | nil => exact fun _ => rfl
      | cons i is ih => exact fun t => (ih _).trans (flushEntry_fails i t)
    exact hfold _ s
  | flushEntry i => exact flushEntry_fails i s

end Run

/-- The list of recent use holds every entry once; a chain holds the valid entries of its bucket, and no two of
    them are for one block. -/
structure Coherent (s : Bcache) : Prop where
  lru : ∃ l, s.lru.Holds l ∧ l.Perm (range bcacheEntries)
  chains : ∀ k, ∃ c, Chain s.hashNext (s.hashTable k) c ∧ c.Nodup ∧
    ∀ i, i ∈ c ↔ i < bcacheEntries ∧ (s.cache i).valid = true ∧ hashFn (s.cache i).tag = k
  tags : ∀ i j, i < bcacheEntries → j < bcacheEntries → (s.cache i).valid = true → (s.cache j).valid = true →
    (s.cache i).tag = (s.cache j).tag → i = j

theorem Shape.coherent {s : Bcache} {l : List Nat} {ch : Nat → List Nat} (h : Shape s l ch) (hfull : Full s ch) :
    s.Coherent where
  lru := ⟨l, h.lru, h.perm⟩
  chains k := by
    refine ⟨ch k, h.chain k, h.nodup k, fun i => ⟨h.bucket k i, ?_⟩⟩
    rintro ⟨hi, hv, rfl⟩
    exact hfull i hi hv
  tags i j hi hj hvi hvj heq := h.tags _ i j (hfull i hi hvi) (heq ▸ hfull j hj hvj) heq

/-- The cache is in order and shows `m`, and its device does not fail. -/
structure Refines (s : Bcache) (m : Disk) : Prop where
  shape : ∃ l ch, Shape s l ch ∧ Full s ch
  view : s.view = m
  sure : ∀ n, s.dev.fails n = false

variable {m : Disk} {s : Bcache}

theorem Refines.step (h : Refines s m) (op : CacheOp) : Refines (s.step op) (plainStep m op) := by
  obtain ⟨l, ch, hs, hfull⟩ := h.shape
  have hok : s.Backs op := by
    cases op with
    | read b | write b d => exact fun _ _ _ _ _ => h.sure _
    | invalidate b => exact fun _ _ _ _ => h.sure _
    | flush | flushEntry i => trivial
  obtain ⟨l', ch', hs', hview, hfull'⟩ := hs.step hok
  refine ⟨⟨l', ch', hs', hfull' hfull h.sure⟩, by rw [hview, h.view], fun n => ?_⟩
  rw [step_fails, h.sure]

theorem Refines.run (h : Refines s m) (ops : List CacheOp) : Refines (run Bcache.step s ops) (run plainStep m ops) := by
  induction ops generalizing s m with
  | nil => exact h
  | cons op ops ih => exact ih (h.step op)

theorem init_refines (s : Bcache) (hdev : ∀ n, s.dev.fails n = false) : Refines (init s) s.dev.disk := by
  obtain ⟨hs, hview, hfull⟩ := init_shape s
  refine ⟨⟨_, _, hs, hfull⟩, hview, ?_⟩
  unfold init
  rw [foldl_dllPushHead]
  exact hdev

theorem Shape.write_acked {l : List Nat} {ch : Nat → List Nat} (h : Shape s l ch) (b : Nat) (d : Block) :
    (s.write b d).1 := by
  unfold Bcache.write
  split
  · rfl
  · obtain ⟨v, htail⟩ := h.tail_some
    rw [htail]

theorem blank_refines : Refines blank fun _ => Bytes.zero := init_refines _ fun _ => rfl

/-- The cache refines what it shows. -/
def Good (s : Bcache) : Prop := Refines s s.view

theorem Refines.good (h : Refines s m) : s.Good := ⟨h.shape, rfl, h.sure⟩

theorem Good.read_value (h : s.Good) (b : Nat) : (s.read b).1 = some (s.view b) := by
  obtain ⟨l, ch, hs, hfull⟩ := h.shape
  obtain ⟨_, _, -, -, hread⟩ := hs.read (b := b) fun _ _ _ _ _ => h.sure _
  exact (hread hfull h.sure).2

theorem Good.flush (h : s.Good) : s.flush.Good ∧ s.flush.view = s.view ∧ s.flush.dev.disk = s.view := by
  obtain ⟨l, ch, hs, -⟩ := h.shape
  have hf := Refines.step h .flush
  exact ⟨hf.good, hf.view, hs.flush_disk h.sure⟩

theorem bcacheHandler_lawful : bcacheHandler.Lawful Good view fun s => s.dev.disk where
  read_val h := h.read_value _
  read_inv h := (Refines.step h (.read _)).good
  read_view h := (Refines.step h (.read _)).view
  read_disk h c := by
    obtain ⟨l, ch, hs, -⟩ := h.shape
    exact hs.read_disk _ c
  write_val h := by
    obtain ⟨l, ch, hs, -⟩ := h.shape
    exact hs.write_acked _ _
  write_inv h := (Refines.step h (.write _ _)).good
  write_view h := (Refines.step h (.write _ _)).view
  readRaw_val h := by
    simp only [bcacheHandler, readRaw, virtioBlkReadMulti, h.sure]
    rfl
  readRaw_inv {s b n} h := by
    obtain ⟨l, ch, hs, hfull⟩ := h.shape
    have hdev := hs.withDev (show (virtioBlkReadMulti b n s.dev).2.disk = s.dev.disk from rfl)
    exact ⟨⟨l, ch, hdev.1, hfull⟩, rfl, h.sure⟩
  readRaw_view _ := rfl
  readRaw_disk _ := rfl

/-- Over a device that does not fail, the cache is a plain disk, and the lists stay in order. -/
theorem cache_refines_disk (s : Bcache) (hdev : ∀ n, s.dev.fails n = false) (ops : List CacheOp) :
    (∀ b, (read b (run step (init s) ops)).1 = some (run plainStep s.dev.disk ops b)) ∧
    (flush (run step (init s) ops)).dev.disk = run plainStep s.dev.disk ops ∧
    (run step (init s) ops).Coherent := by
  have h := (init_refines s hdev).run ops
  obtain ⟨l, ch, hs, hfull⟩ := h.shape
  refine ⟨fun b => ?_, ?_, hs.coherent hfull⟩
  · rw [h.good.read_value, h.view]
  · rw [hs.flush_disk h.sure, h.view]

theorem blank_refines_disk :
    (read 7 (run step blank [.write 7 (fun _ => 1), .write 263 (fun _ => 2), .invalidate 7])).1 = some fun _ => 1 :=
  (cache_refines_disk
    { cache := fun _ => ⟨fun _ => 0, 0, false, false⟩
      lru := ⟨none, none, fun _ => none, fun _ => none⟩
      hashTable := fun _ => none
      hashNext := fun _ => none
      dev := { disk := fun _ _ => 0, requests := 0, fails := fun _ => false } } (fun _ => rfl) _).1 7

/-! ### Failing devices -/

structure Acked where
  cache : Bcache
  acked : Nat → Option Block

def Acked.step (t : Acked) (op : CacheOp) : Acked where
  cache := t.cache.step op
  acked := match op with
    | .write b d => if (write b d t.cache).1 then update t.acked b (some d) else t.acked
    | _ => t.acked

/-- A block reads as it was last acknowledged, or as it is on disk. -/
structure Acked.Sound (t : Acked) : Prop where
  shape : ∃ l ch, Shape t.cache l ch
  acked : ∀ b d, t.acked b = some d → t.cache.view b = d
  initial : ∀ b, t.acked b = none → t.cache.view b = t.cache.dev.disk b

theorem Acked.Sound.step {t : Acked} (h : t.Sound) {op : CacheOp} (hok : t.cache.Backs op) : (t.step op).Sound := by
  obtain ⟨l, ch, hs⟩ := h.shape
  obtain ⟨l', ch', hs', hview, -⟩ := hs.step hok
  refine ⟨⟨l', ch', hs'⟩, fun b d hb => ?_, fun b hb => ?_⟩
  · show (t.cache.step op).view b = d
    rw [hview]
    cases op with
    | write b' d' =>
      simp only [Acked.step, hs.write_acked, if_true] at hb
      obtain rfl | hbb := eq_or_ne b b'
      · rw [update_self] at hb
        exact (update_self _ _ _).trans (some.inj hb)
      · rw [update_of_ne hbb] at hb
        exact (update_of_ne hbb _ _).trans (h.acked b d hb)
    | _ => exact h.acked b d hb
  · show (t.cache.step op).view b = (t.cache.step op).dev.disk b
    have hdisk := hs.step_disk op b
    rw [hview]
    cases op with
    | write b' d' =>
      simp only [Acked.step, hs.write_acked, if_true] at hb
      obtain rfl | hbb := eq_or_ne b b'
      · rw [update_self] at hb
        cases hb
      · rw [update_of_ne hbb] at hb
        have hold := h.initial b hb
        exact (update_of_ne hbb _ _).trans (by rcases hdisk with hd | hd <;> rw [hd, hold])
    | _ =>
      have hold := h.initial b hb
      rcases hdisk with hd | hd
      · exact hold.trans hd.symm
      · exact hd.symm

/-- As long as no call gives up an entry whose write-back fails, reads return the acknowledged data and only
    such data reaches the disk. -/
theorem acknowledged_kept (s : Bcache) (ops : List CacheOp)
    (hops : Guarded Acked.step (fun t op => t.cache.Backs op) ⟨init s, fun _ => none⟩ ops) :
    (∀ b v d, (read b (run Acked.step ⟨init s, fun _ => none⟩ ops).cache).1 = some v →
      (run Acked.step ⟨init s, fun _ => none⟩ ops).acked b = some d → v = d) ∧
    (∀ op c, ((run Acked.step ⟨init s, fun _ => none⟩ ops).cache.step op).dev.disk c ≠
        (run Acked.step ⟨init s, fun _ => none⟩ ops).cache.dev.disk c →
      (run Acked.step ⟨init s, fun _ => none⟩ ops).acked c =
        some (((run Acked.step ⟨init s, fun _ => none⟩ ops).cache.step op).dev.disk c)) := by
  obtain ⟨hs, hview, -⟩ := init_shape s
  have hinit : Acked.Sound ⟨init s, fun _ => none⟩ := by
    refine ⟨⟨_, _, hs⟩, fun b d hb => ?_, fun b _ => ?_⟩
    · cases hb
    · rw [hview]
      unfold init
      rw [foldl_dllPushHead]
  have h : Acked.Sound (run Acked.step ⟨init s, fun _ => none⟩ ops) :=
    hops.invariant (fun t op ht hok => ht.step hok) hinit
  obtain ⟨l, ch, hs⟩ := h.shape
  refine ⟨fun b v d hv hd => ?_, fun op c hne => ?_⟩
  · rw [hs.read_value hv, h.acked b d hd]
  · have hd := (hs.step_disk op c).resolve_left hne
    cases ha : (run Acked.step ⟨init s, fun _ => none⟩ ops).acked c with
    | none => exact absurd (hd.trans (h.initial c ha)) hne
    | some d => rw [hd, h.acked c d ha]

def flaky : Bcache where
  cache := fun _ => ⟨fun _ => 0, 0, false, false⟩
  lru := ⟨none, none, fun _ => none, fun _ => none⟩
  hashTable := fun _ => none
  hashNext := fun _ => none
  dev := { disk := fun _ _ => 0, requests := 0, fails := fun n => n == 0 }

theorem flaky_acked (d : Block) (ops : List CacheOp) (hops : ∀ t, (run Acked.step t ops).acked = t.acked) :
    (run Acked.step ⟨init flaky, fun _ => none⟩ (.write 5 d :: ops)).acked 5 = some d := by
  rw [run_cons, hops]
  exact (congrFun (if_pos ((init_shape flaky).1.write_acked 5 d)) 5).trans (update_self _ _ _)

theorem flaky_flush_keeps :
    (run Acked.step ⟨init flaky, fun _ => none⟩ [.write 5 fun _ => 1, .flush, .read 5]).acked 5 = some (fun _ => 1) ∧
    ∀ v, (read 5 (run Acked.step ⟨init flaky, fun _ => none⟩ [.write 5 fun _ => 1, .flush, .read 5]).cache).1 = some v →
      v = fun _ => 1 := by
  have hacked := flaky_acked (fun _ => 1) [.flush, .read 5] fun _ => rfl
  refine ⟨hacked, fun v hv => (acknowledged_kept flaky [.write 5 fun _ => 1, .flush, .read 5] ?_).1 5 v _ hv hacked⟩
  refine ⟨fun _ v htail hvalid => ?_, trivial, fun hmiss => ?_, trivial⟩
  · have hzero : (init flaky).lru.tail = some 0 := by decide +kernel
    obtain rfl : v = 0 := some.inj (htail.symm.trans hzero)
    exact absurd hvalid (by decide +kernel)
  · exact absurd hmiss (by decide +kernel)

/-- The write-back of an entry that is invalidated fails: the acknowledged data is gone. -/
theorem flaky_invalidate_loses :
    (run Acked.step ⟨init flaky, fun _ => none⟩ [.write 5 fun _ => 1, .invalidate 5]).acked 5 = some (fun _ => 1) ∧
    (read 5 (run Acked.step ⟨init flaky, fun _ => none⟩ [.write 5 fun _ => 1, .invalidate 5]).cache).1.map
      (fun v => v ⟨0, by decide⟩) = some 0 :=
  ⟨flaky_acked _ _ fun _ => rfl, by decide +kernel⟩

end Bcache
end Limnx
