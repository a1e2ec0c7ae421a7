import Mathlib.Data.List.Nodup

/-! # Intrusive lists

Lists whose links are kept in the elements, which are numbers: doubly linked with a head and a tail (`Links`), or singly
linked from `s` and walked with a bound on the steps (`Chain next s l`). -/

namespace IntrusiveList
open Function List

/-! ## Doubly linked lists -/

structure Links where
  head : Option Nat
  tail : Option Nat
  prev : Nat → Option Nat
  next : Nat → Option Nat

namespace Links
variable (d : Links)

def unlink (x : Nat) : Links where
  head := if d.prev x = none then d.next x else d.head
  tail := if d.next x = none then d.prev x else d.tail
  next := update (match d.prev x with | some p => update d.next p (d.next x) | none => d.next) x none
  prev := update (match d.next x with | some n => update d.prev n (d.prev x) | none => d.prev) x none

def pushHead (x : Nat) : Links where
  head := some x
  tail := if d.tail = none then some x else d.tail
  next := update d.next x d.head
  prev := match d.head with
    | some h => update (update d.prev x none) h (some x)
    | none => update d.prev x none

def pushTail (x : Nat) : Links where
  head := if d.head = none then some x else d.head
  tail := some x
  prev := update d.prev x d.tail
  next := match d.tail with
    | some t => update (update d.next x none) t (some x)
    | none => update d.next x none

structure Holds (d : Links) (l : List Nat) : Prop where
  nodup : l.Nodup
  head : d.head = l.head?
  tail : d.tail = l.getLast?
  next : ∀ {a x b}, l = a ++ x :: b → d.next x = b.head?
  prev : ∀ {a x b}, l = a ++ x :: b → d.prev x = a.getLast?

def flip : Links := ⟨d.tail, d.head, d.next, d.prev⟩

variable {d : Links} {l a b : List Nat} {x y : Nat}

theorem Holds.nil (hh : d.head = none) (ht : d.tail = none) : d.Holds [] where
  nodup := nodup_nil
  head := hh
  tail := ht
  next h := by simp at h
  prev h := by simp at h

theorem Holds.flip (h : d.Holds l) : d.flip.Holds l.reverse where
  nodup := nodup_reverse.mpr h.nodup
  head := by simpa [Links.flip] using h.tail
  tail := by simpa [Links.flip] using h.head
  next {a x b} hs := by
    have : l = b.reverse ++ x :: a.reverse := by simpa using congrArg reverse hs
    simpa [Links.flip] using h.prev this
  prev {a x b} hs := by
    have : l = b.reverse ++ x :: a.reverse := by simpa using congrArg reverse hs
    simpa [Links.flip] using h.next this

theorem flip_unlink (x : Nat) : (d.unlink x).flip = d.flip.unlink x := rfl

theorem flip_pushHead (x : Nat) : (d.pushHead x).flip = d.flip.pushTail x := rfl

/-- In a list without repetitions, an element with elements after it is not the last one. -/
private theorem ne_getLast {a c : List Nat} (hnd : (a ++ y :: c).Nodup) (hc : c ≠ []) :
    (a ++ y :: c).getLast? ≠ some y := by
  intro h
  rw [getLast?_append_of_ne_nil _ (by simp), getLast?_cons_of_ne_nil hc] at h
  exact (nodup_cons.mp (nodup_append.mp hnd).2.1).1 (mem_of_getLast? h)

private theorem unlink_head (h : d.Holds (a ++ x :: b)) : (d.unlink x).head = (a ++ b).head? := by
  have hn : d.next x = b.head? := h.next rfl
  have hp : d.prev x = a.getLast? := h.prev rfl
  have hh := h.head
  cases a <;> simp_all [Links.unlink]

/-- Only the element before `x` gets a new successor. -/
private theorem unlink_next (h : d.Holds (a ++ x :: b)) {a' b' : List Nat} (hs : a ++ b = a' ++ y :: b') :
    (d.unlink x).next y = b'.head? := by
  have hn : d.next x = b.head? := h.next rfl
  have hp : d.prev x = a.getLast? := h.prev rfl
  obtain ⟨hnda, hndx, hdisj⟩ := nodup_append.mp h.nodup
  have hyx : y ≠ x := by
    rintro rfl
    have hy : y ∈ a ++ b := hs ▸ mem_append_right _ mem_cons_self
    rcases mem_append.mp hy with hy | hy
    · exact hdisj y hy y mem_cons_self rfl
    · exact (nodup_cons.mp hndx).1 hy
  have hab : y ∈ b → y ∉ a := fun hy hy' => hdisj y hy' y (mem_cons_of_mem _ hy) rfl
  -- An element of `b` keeps its successor, since it is not the last one of `a`.
  have hkeep : y ∈ b → (d.unlink x).next y = d.next y := by
    intro hy
    simp only [Links.unlink, update_of_ne hyx, hp]
    cases hl : a.getLast? with
    | none => rfl
    | some p => exact update_of_ne (fun hyp : y = p => hab hy (hyp ▸ mem_of_getLast? hl)) _ _
  rcases append_eq_append_iff.mp hs with ⟨c, rfl, rfl⟩ | ⟨c, rfl, hc⟩
  · rw [hkeep (by simp)]
    exact h.next (a := a ++ x :: c) (by simp)
  rcases cons_eq_append_iff.mp hc with ⟨rfl, rfl⟩ | ⟨c, rfl, rfl⟩
  · rw [hkeep (by simp)]
    exact h.next (a := a' ++ x :: []) (by simp)
  have hold : d.next y = (c ++ x :: b).head? := h.next (a := a') (by simp)
  simp only [Links.unlink, update_of_ne hyx, hp]
  obtain rfl | hcn := eq_or_ne c []
  · simp [hn]
  have hne := ne_getLast hnda hcn
  cases hl : (a' ++ y :: c).getLast? with
  | none => simp at hl
  | some p =>
    simp only [update_of_ne (fun hyp : y = p => hne (hyp ▸ hl)), hold]
    cases c <;> simp_all

theorem Holds.unlink (h : d.Holds (a ++ x :: b)) : (d.unlink x).Holds (a ++ b) := by
  have hf : d.flip.Holds (b.reverse ++ x :: a.reverse) := by simpa using h.flip
  refine ⟨?_, unlink_head h, ?_, fun hs => unlink_next h hs, fun {a' y b'} hs => ?_⟩
  · exact h.nodup.sublist (List.Sublist.append_left (sublist_cons_self x b) a)
  · have := unlink_head hf
    rwa [← reverse_append, head?_reverse, ← flip_unlink] at this
  · have hs' : b.reverse ++ a.reverse = b'.reverse ++ y :: a'.reverse := by
      simpa using congrArg reverse hs
    have := unlink_next hf hs'
    rwa [head?_reverse, ← flip_unlink] at this

theorem Holds.pushHead (h : d.Holds l) (hx : x ∉ l) : (d.pushHead x).Holds (x :: l) := by
  refine ⟨nodup_cons.mpr ⟨hx, h.nodup⟩, rfl, ?_, fun {a y b} hs => ?_, fun {a y b} hs => ?_⟩
  · have ht := h.tail
    rcases eq_nil_or_concat l with rfl | ⟨c, z, rfl⟩
    · simp_all [Links.pushHead]
    · simp_all [Links.pushHead, getLast?_cons]
  · rcases cons_eq_append_iff.mp hs with ⟨rfl, hs⟩ | ⟨a, rfl, rfl⟩
    · cases hs
      simp [Links.pushHead, h.head]
    have hyx : y ≠ x := fun hyx => hx (hyx ▸ by simp)
    simp only [Links.pushHead, update_of_ne hyx]
    exact h.next rfl
  · rcases cons_eq_append_iff.mp hs with ⟨rfl, hs⟩ | ⟨a, rfl, rfl⟩
    · cases hs
      cases hh : d.head with
      | none => simp [Links.pushHead, hh]
      | some z =>
        have hzx : x ≠ z := fun hzx => hx (by
          rw [h.head] at hh
          exact hzx ▸ mem_of_mem_head? hh)
        simp [Links.pushHead, hh, update_of_ne hzx]
    · have hyx : y ≠ x := fun hyx => hx (hyx ▸ by simp)
      cases a with
      | nil => simp [Links.pushHead, h.head]
      | cons z a =>
        have hyz : y ≠ z := by
          rintro rfl
          exact (nodup_cons.mp h.nodup).1 (by simp)
        have hold : d.prev y = (z :: a).getLast? := h.prev rfl
        simp [Links.pushHead, h.head, update_of_ne hyz, update_of_ne hyx, hold, getLast?_cons]

theorem Holds.foldl_pushHead : ∀ {xs l : List Nat} {d : Links}, d.Holds l → xs.Nodup → (∀ x ∈ xs, x ∉ l) →
    (xs.foldl Links.pushHead d).Holds (xs.reverse ++ l)
  | [], _, _, h, _, _ => h
  | x :: xs, l, d, h, hnd, hdisj => by
    obtain ⟨hx, hnd⟩ := nodup_cons.mp hnd
    have ih := (h.pushHead (hdisj x mem_cons_self)).foldl_pushHead hnd fun y hy hmem => by
      rcases mem_cons.mp hmem with rfl | hmem
      · exact hx hy
      · exact hdisj y (mem_cons_of_mem _ hy) hmem
    rw [reverse_cons, append_assoc]
    exact ih

theorem Holds.pushTail (h : d.Holds l) (hx : x ∉ l) : (d.pushTail x).Holds (l ++ [x]) := by
  have := (h.flip.pushHead (by simpa using hx)).flip
  rwa [flip_pushHead, reverse_cons, reverse_reverse] at this

end Links

/-! ## Chains -/

/-- `l` is the list that starts at `s` and follows `next`. -/
def Chain (next : Nat → Option Nat) : Option Nat → List Nat → Prop
  | s, [] => s = none
  | s, x :: l => s = some x ∧ Chain next (next x) l

/-- The first element with `p` within `n` steps from `s`. -/
def find (next : Nat → Option Nat) (p : Nat → Bool) : Nat → Option Nat → Option Nat
  | n + 1, some x => if p x then some x else find next p n (next x)
  | _, _ => none

/-- Take `x` out of the chain at `s`: the new start and the new links. The walk to the element before `x` takes at most
    `n` steps. -/
def remove (next : Nat → Option Nat) (n : Nat) (s : Option Nat) (x : Nat) : Option Nat × (Nat → Option Nat) :=
  if s = some x then (next x, update next x none)
  else match find next (fun p => next p == some x) n s with
    | some p => (s, update (update next p (next x)) x none)
    | none => (s, update next x none)

section Chain
variable {next next' : Nat → Option Nat} {s : Option Nat} {l : List Nat} {x y : Nat}

theorem Chain.congr : ∀ {s l}, Chain next s l → (∀ x ∈ l, next' x = next x) → Chain next' s l
  | _, [], h, _ => h
  | _, x :: l, ⟨hs, h⟩, hn => ⟨hs, by
      rw [hn x mem_cons_self]
      exact h.congr fun y hy => hn y (mem_cons_of_mem _ hy)⟩

theorem Chain.cons (h : Chain next s l) (hx : x ∉ l) : Chain (update next x s) (some x) (x :: l) := by
  refine ⟨rfl, ?_⟩
  rw [update_self]
  exact h.congr fun y hy => update_of_ne (fun hyx : y = x => hx (hyx ▸ hy)) _ _

theorem Chain.find_eq {p : Nat → Bool} : ∀ {n s l}, Chain next s l → l.length ≤ n → find next p n s = l.find? p
  | 0, _, [], _, _ => rfl
  | n + 1, _, [], hs, _ => by
    rw [show _ = none from hs]
    rfl
  | n + 1, _, x :: l, ⟨hs, h⟩, hl => by
    subst hs
    simp only [find, find?_cons]
    cases p x
    · exact h.find_eq (by simpa using hl)
    · rfl

theorem remove_of_not_mem (n : Nat) (hc : Chain next s l) (hn : l.length ≤ n) (hy : y ∉ l) (hyx : y ≠ x) :
    (remove next n s x).2 y = next y := by
  simp only [remove, hc.find_eq hn]
  split
  · exact update_of_ne hyx _ _
  split
  next p hp =>
    have hyp : y ≠ p := fun hyp => hy (hyp ▸ mem_of_find?_eq_some hp)
    show update (update next p (next x)) x none y = next y
    rw [update_of_ne hyx, update_of_ne hyp]
  · exact update_of_ne hyx _ _

theorem Chain.remove : ∀ {n s l}, Chain next s l → l.Nodup → x ∈ l → l.length ≤ n →
    Chain (remove next n s x).2 (remove next n s x).1 (l.erase x)
  | _, _, [], _, _, hx, _ => by simp at hx
  | 0, _, y :: l, _, _, _, hn => by simp at hn
  | n + 1, _, y :: l, ⟨hs, h⟩, hnd, hx, hn => by
    subst hs
    obtain ⟨hyl, hndl⟩ := nodup_cons.mp hnd
    have hn' : l.length ≤ n := by simpa using hn
    by_cases hyx : y = x
    · -- The first element goes: the chain starts at its successor.
      subst hyx
      simp only [IntrusiveList.remove, if_true, erase_cons_head]
      exact h.congr fun z hz => update_of_ne (fun hzy : z = y => hyl (hzy ▸ hz)) _ _
    have hxl : x ∈ l := (mem_cons.mp hx).resolve_left (Ne.symm hyx)
    rw [erase_cons_tail (by simpa using hyx)]
    have hsome : some y ≠ some x := fun he => hyx (Option.some.inj he)
    by_cases hnx : next y = some x
    · -- The second one goes: the first one gets its successor.
      cases l with
      | nil => simp at hxl
      | cons z l =>
        obtain ⟨hz, h⟩ := h
        obtain rfl : x = z := Option.some.inj (hnx.symm.trans hz)
        obtain ⟨hxl', -⟩ := nodup_cons.mp hndl
        simp only [IntrusiveList.remove, if_neg hsome, find, hnx, beq_self_eq_true, if_true, erase_cons_head]
        refine ⟨rfl, ?_⟩
        rw [update_of_ne hyx, update_self]
        refine h.congr fun w hw => ?_
        rw [update_of_ne (fun hwx : w = x => hxl' (hwx ▸ hw)),
          update_of_ne (fun hwy : w = y => hyl (hwy ▸ mem_cons_of_mem _ hw))]
    · -- One further on goes: it is taken out of the chain from the second element.
      have ih := h.remove hndl hxl hn'
      have heq : IntrusiveList.remove next (n + 1) (some y) x = (some y, (IntrusiveList.remove next n (next y) x).2) := by
        simp only [IntrusiveList.remove, if_neg hsome, if_neg hnx, find, beq_iff_eq]
        split <;> rfl
      have hstart : (IntrusiveList.remove next n (next y) x).1 = next y := by
        simp only [IntrusiveList.remove, if_neg hnx]
        split <;> rfl
      rw [hstart] at ih
      rw [heq]
      refine ⟨rfl, ?_⟩
      rw [remove_of_not_mem n h hn' hyl hyx]
      exact ih

theorem Chain.next_mem : ∀ {s l}, Chain next s l → ∀ {p}, p ∈ l → next p = some x → x ∈ l
  | _, [], _, _, hp, _ => by simp at hp
  | _, y :: l, ⟨_, h⟩, p, hp, hx => by
    rcases mem_cons.mp hp with rfl | hp
    · cases l with
      | nil => rw [show next p = none from h] at hx; cases hx
      | cons z l => exact mem_cons_of_mem _ (mem_cons.mpr (.inl (Option.some.inj (hx.symm.trans h.1))))
    · exact mem_cons_of_mem _ (h.next_mem hp hx)

theorem Chain.remove_absent {n : Nat} (h : Chain next s l) (hx : x ∉ l) (hn : l.length ≤ n) :
    Chain (IntrusiveList.remove next n s x).2 (IntrusiveList.remove next n s x).1 l := by
  have hs : s ≠ some x := by
    rintro rfl
    cases l with
    | nil => cases h
    | cons y l => exact hx (mem_cons.mpr (.inl (Option.some.inj h.1)))
  have hnone : find next (fun p => next p == some x) n s = none := by
    rw [h.find_eq hn, find?_eq_none]
    intro p hp hpx
    exact hx (h.next_mem hp (beq_iff_eq.mp hpx))
  simp only [IntrusiveList.remove, if_neg hs, hnone]
  exact h.congr fun y hy => update_of_ne (fun hyx : y = x => hx (hyx ▸ hy)) _ _

end Chain
end IntrusiveList
