import Mathlib.Data.List.Range

/-! # Programs over a cached block device

A `BlockProg` reads and writes blocks through the cache, and may read runs of blocks past it; the indices `raw` and `wr`
say which. A device has two contents, the `view` of cached reads and the `disk`. -/

open List

/-- A program over a block device of blocks `β` with result `α`. A failed call answers `none` or `false`. -/
inductive BlockProg (raw wr : Bool) (β : Type) (α : Type) : Type
  | done (a : α)
  | read (b : Nat) (k : Option β → BlockProg raw wr β α)
  | write (h : wr = true) (b : Nat) (d : β) (k : Bool → BlockProg raw wr β α)
  | readRaw (h : raw = true) (b n : Nat) (k : Option (List β) → BlockProg raw wr β α)

namespace BlockProg
variable {raw wr : Bool} {β α γ δ σ : Type}

def bind : BlockProg raw wr β α → (α → BlockProg raw wr β γ) → BlockProg raw wr β γ
  | done a, f => f a
  | read b k, f => read b fun o => (k o).bind f
  | write h b d k, f => write h b d fun o => (k o).bind f
  | readRaw h b n k, f => readRaw h b n fun o => (k o).bind f

instance : Monad (BlockProg raw wr β) where
  pure := done
  bind := bind

theorem bind_done (p : BlockProg raw wr β α) : p.bind done = p := by
  induction p with
  | done a => rfl
  | read b k ih | write h b d k ih | readRaw h b n k ih => simp only [bind, ih]

theorem bind_assoc (p : BlockProg raw wr β α) (f : α → BlockProg raw wr β γ) (g : γ → BlockProg raw wr β δ) :
    (p.bind f).bind g = p.bind fun a => (f a).bind g := by
  induction p with
  | done a => rfl
  | read b k ih | write h b d k ih | readRaw h b n k ih => simp only [bind, ih]

instance : LawfulMonad (BlockProg raw wr β) :=
  LawfulMonad.mk' _ (fun p => bind_done p) (fun _ _ => rfl) (fun p f g => bind_assoc p f g)

end BlockProg

/-! ## Handlers -/

structure Handler (β σ : Type) where
  read : Nat → σ → Option β × σ
  write : Nat → β → σ → Bool × σ
  readRaw : Nat → Nat → σ → Option (List β) × σ

namespace BlockProg
variable {raw wr : Bool} {β α γ σ : Type}

def run (H : Handler β σ) : BlockProg raw wr β α → σ → α × σ
  | done a, s => (a, s)
  | read b k, s => (k (H.read b s).1).run H (H.read b s).2
  | write _ b d k, s => (k (H.write b d s).1).run H (H.write b d s).2
  | readRaw _ b n k, s => (k (H.readRaw b n s).1).run H (H.readRaw b n s).2

@[simp] theorem run_pure (H : Handler β σ) (a : α) (s : σ) : run H (pure a : BlockProg raw wr β α) s = (a, s) := rfl

theorem run_bind' (H : Handler β σ) (p : BlockProg raw wr β α) (f : α → BlockProg raw wr β γ) :
    ∀ s, run H (p.bind f) s = run H (f (run H p s).1) (run H p s).2 := by
  induction p with
  | done a => intro s; rfl
  | read b k ih | write h b d k ih | readRaw h b n k ih => intro s; exact ih _ _

@[simp] theorem run_bind (H : Handler β σ) (p : BlockProg raw wr β α) (f : α → BlockProg raw wr β γ) (s : σ) :
    run H (p >>= f) s = run H (f (run H p s).1) (run H p s).2 := run_bind' H p f s

end BlockProg

namespace Handler
variable {β σ : Type}

def blocksAt (m : Nat → β) (b n : Nat) : List β := (List.range n).map fun i => m (b + i)

def plain : Handler β (Nat → β) where
  read b m := (some (m b), m)
  write b d m := (true, Function.update m b d)
  readRaw b n m := (some (blocksAt m b n), m)

/-- Under `inv`, cached calls act on `view` as on a plain array, raw reads return the `disk`, and a call
    changes the disk copy of a block it does not write only to the block's current contents. -/
structure Lawful (H : Handler β σ) (inv : σ → Prop) (view disk : σ → Nat → β) : Prop where
  read_val : ∀ {s b}, inv s → (H.read b s).1 = some (view s b)
  read_inv : ∀ {s b}, inv s → inv (H.read b s).2
  read_view : ∀ {s b}, inv s → view (H.read b s).2 = view s
  read_disk : ∀ {s b}, inv s → ∀ c, disk (H.read b s).2 c = disk s c ∨ disk (H.read b s).2 c = view s c
  write_val : ∀ {s b d}, inv s → (H.write b d s).1 = true
  write_inv : ∀ {s b d}, inv s → inv (H.write b d s).2
  write_view : ∀ {s b d}, inv s → view (H.write b d s).2 = Function.update (view s) b d
  readRaw_val : ∀ {s b n}, inv s → (H.readRaw b n s).1 = some (blocksAt (disk s) b n)
  readRaw_inv : ∀ {s b n}, inv s → inv (H.readRaw b n s).2
  readRaw_view : ∀ {s b n}, inv s → view (H.readRaw b n s).2 = view s
  readRaw_disk : ∀ {s b n}, inv s → disk (H.readRaw b n s).2 = disk s

end Handler

namespace BlockProg
variable {raw wr : Bool} {β α γ σ : Type} {H : Handler β σ} {inv : σ → Prop} {view disk : σ → Nat → β}

/-- Without raw reads, a program on a lawful device does what it does on the plain array of the view. -/
theorem run_view (L : H.Lawful inv view disk) (p : BlockProg false wr β α) :
    ∀ {s}, inv s → (run H p s).1 = (run Handler.plain p (view s)).1 ∧
      view (run H p s).2 = (run Handler.plain p (view s)).2 ∧ inv (run H p s).2 := by
  induction p with
  | done a => intro s hs; exact ⟨rfl, rfl, hs⟩
  | read b k ih =>
    intro s hs
    have hk := ih (some (view s b)) (L.read_inv (b := b) hs)
    rw [L.read_view hs] at hk
    simpa only [run, L.read_val hs, Handler.plain] using hk
  | write h b d k ih =>
    intro s hs
    have hk := ih true (L.write_inv (b := b) (d := d) hs)
    rw [L.write_view hs] at hk
    simpa only [run, L.write_val hs, Handler.plain] using hk
  | readRaw h => cases h

/-- The blocks that a program reads past the cache when it runs on the array `m`. -/
def rawReads : BlockProg raw wr β α → (Nat → β) → List Nat
  | done _, _ => []
  | read b k, m => (k (some (m b))).rawReads m
  | write _ b d k, m => (k true).rawReads (Function.update m b d)
  | readRaw _ b n k, m => (List.range n).map (b + ·) ++ (k (some (Handler.blocksAt m b n))).rawReads m

theorem rawReads_bind (p : BlockProg raw wr β α) (f : α → BlockProg raw wr β γ) :
    ∀ m, (p >>= f).rawReads m =
      p.rawReads m ++ (f (run Handler.plain p m).1).rawReads (run Handler.plain p m).2 := by
  induction p with
  | done a => intro m; rfl
  | read b k ih => intro m; exact ih _ m
  | write h b d k ih => intro m; exact ih _ _
  | readRaw h b n k ih =>
    intro m
    show _ ++ ((k _).bind f).rawReads m = _
    rw [show (k _).bind f = (k _ >>= f) from rfl, ih, ← append_assoc]
    rfl

/-- Without writes, a program whose raw reads meet only current disk copies does what it does on the plain array of the
    view, which it keeps. -/
theorem run_readOnly (L : H.Lawful inv view disk) (p : BlockProg raw false β α) :
    ∀ {s}, inv s → (∀ b ∈ p.rawReads (view s), disk s b = view s b) →
      (run H p s).1 = (run Handler.plain p (view s)).1 ∧ view (run H p s).2 = view s ∧ inv (run H p s).2 := by
  induction p with
  | done a => intro s hs _; exact ⟨rfl, rfl, hs⟩
  | read b k ih =>
    intro s hs hraw
    have hk := ih (some (view s b)) (L.read_inv (b := b) hs)
    rw [L.read_view hs] at hk
    -- A block whose disk copy was current keeps a current one when others are written back.
    have hk' := hk fun c hc => by
      rcases L.read_disk (b := b) hs c with h | h
      · rw [h]; exact hraw c hc
      · exact h
    simpa only [run, L.read_val hs, Handler.plain] using hk'
  | write h => cases h
  | readRaw h b n k ih =>
    intro s hs hraw
    have hval : Handler.blocksAt (disk s) b n = Handler.blocksAt (view s) b n := by
      refine map_congr_left fun i hi => hraw (b + i) ?_
      exact mem_append_left _ (mem_map.mpr ⟨i, hi, rfl⟩)
    have hk := ih (some (Handler.blocksAt (view s) b n)) (L.readRaw_inv (b := b) (n := n) hs)
    rw [L.readRaw_view hs, L.readRaw_disk hs] at hk
    have hk' := hk fun c hc => hraw c (mem_append_right _ hc)
    simpa only [run, L.readRaw_val hs, hval, Handler.plain] using hk'

theorem run_keeps_view (L : H.Lawful inv view disk) (p : BlockProg raw false β α) :
    ∀ {s}, inv s → view (run H p s).2 = view s ∧ inv (run H p s).2 := by
  induction p with
  | done a => intro s hs; exact ⟨rfl, hs⟩
  | read b k ih =>
    intro s hs
    obtain ⟨hview, hinv⟩ := ih (H.read b s).1 (L.read_inv (b := b) hs)
    exact ⟨hview.trans (L.read_view hs), hinv⟩
  | write h => cases h
  | readRaw h b n k ih =>
    intro s hs
    obtain ⟨hview, hinv⟩ := ih (H.readRaw b n s).1 (L.readRaw_inv (b := b) (n := n) hs)
    exact ⟨hview.trans (L.readRaw_view hs), hinv⟩

end BlockProg
