import Mathlib.Data.List.Induction
import Limnx.VecStore

/-! The entries found are the last ones of all slots in order, and those given up come before them. -/

namespace Limnx.VecStore
open List
variable {V S : Type} [LinearOrder S] {vs : VecStore V} {sim : Fin 64 → S} {x y z : S × Fin 64} {out : List (S × Fin 64)} {k : Nat}

def Below (x y : S × Fin 64) : Prop := x.1 < y.1 ∨ x.1 = y.1 ∧ y.2 < x.2

theorem Below.trans (hxy : Below x y) (hyz : Below y z) : Below x z := by
  rcases hxy with h | ⟨h, hn⟩ <;> rcases hyz with h' | ⟨h', hn'⟩
  · exact .inl (lt_trans h h')
  · exact .inl (lt_of_lt_of_eq h h')
  · exact .inl (lt_of_eq_of_lt h h')
  · exact .inr ⟨h.trans h', lt_trans hn' hn⟩

theorem place_perm (x : S × Fin 64) (out : List (S × Fin 64)) : place x out ~ x :: out := by
  induction out with
  | nil => rfl
  | cons y out ih =>
    rw [place]
    split
    · exact (ih.cons y).trans (.swap x y out)
    · rfl

theorem place_sorted (hout : ∀ y ∈ out, y.2 < x.2) (h : out.Pairwise Below) : (place x out).Pairwise Below := by
  induction out with
  | nil => exact pairwise_singleton _ _
  | cons y out ih =>
    obtain ⟨hy, hsorted⟩ := pairwise_cons.mp h
    rw [place]
    split
    next hlt =>
      refine pairwise_cons.mpr ⟨fun z hz => ?_, ih (fun z hz => hout z (mem_cons_of_mem _ hz)) hsorted⟩
      rcases mem_cons.mp ((place_perm x out).mem_iff.mp hz) with rfl | hz
      · exact .inl hlt
      · exact hy z hz
    next hle =>
      have hxy : Below x y := (lt_or_eq_of_le (not_lt.mp hle)).imp_right fun heq => ⟨heq, hout y mem_cons_self⟩
      exact pairwise_cons.mpr ⟨forall_mem_cons.mpr ⟨hxy, fun z hz => hxy.trans (hy z hz)⟩, h⟩

/-- `out` has the best `k` of the slots `done`. -/
structure Ranked (sim : Fin 64 → S) (k : Nat) (done : List (Fin 64)) (out : List (S × Fin 64)) : Prop where
  length : out.length = min k done.length
  slot : ∀ x ∈ out, x.2 ∈ done ∧ x.1 = sim x.2
  all : out.length < k → ∀ i ∈ done, (sim i, i) ∈ out
  sorted : out.Pairwise Below
  best : ∀ i ∈ done, (sim i, i) ∉ out → ∀ x ∈ out, Below (sim i, i) x

theorem Ranked.round {done : List (Fin 64)} {i : Fin 64} (h : Ranked sim k done out) (hk : 1 ≤ k) (hi : ∀ j ∈ done, j < i)
    (hused : (vs.entries i).used) : Ranked sim k (done ++ [i]) (vs.topkRound sim k out i) := by
  have hlt : ∀ y ∈ out, y.2 < i := fun y hy => hi _ (h.slot y hy).1
  have hlen := h.length
  have hslot : ∀ x ∈ (sim i, i) :: out, x.2 ∈ done ++ [i] ∧ x.1 = sim x.2 :=
    forall_mem_cons.mpr ⟨⟨mem_append_right _ mem_cons_self, rfl⟩, fun x hx => (h.slot x hx).imp_left (mem_append_left _)⟩
  rw [topkRound, hused, if_neg (by simp)]
  split
  next hroom =>
    have hperm := place_perm (sim i, i) out
    have hall : ∀ j ∈ done ++ [i], (sim j, j) ∈ place (sim i, i) out := fun j hj => by
      rcases mem_append.mp hj with hj | hj
      · exact hperm.mem_iff.mpr (mem_cons_of_mem _ (h.all hroom j hj))
      · exact hperm.mem_iff.mpr (mem_singleton.mp hj ▸ mem_cons_self)
    refine ⟨?_, fun x hx => hslot x (hperm.mem_iff.mp hx), fun _ => hall, place_sorted hlt h.sorted,
      fun j hj hnot => absurd (hall j hj) hnot⟩
    rw [hperm.length_eq, length_cons, length_append, length_singleton]
    omega
  rename_i hfull
  obtain ⟨y, out, rfl⟩ : ∃ y l, out = y :: l := exists_cons_of_length_pos (by omega)
  obtain ⟨hy, hsorted⟩ := pairwise_cons.mp h.sorted
  have hnum : (y :: out).length = min k (done ++ [i]).length := by
    rw [length_append, length_singleton]
    omega
  split
  next hlow =>
    have hlow : y.1 < sim i := by simpa using hlow
    have hperm := place_perm (sim i, i) out
    have hmem {x} := hperm.mem_iff (a := x)
    refine ⟨hperm.length_eq.trans hnum, fun x hx => hslot x ?_, fun hless => ?_,
      place_sorted (fun z hz => hlt z (mem_cons_of_mem _ hz)) hsorted, fun j hj hnot x hx => ?_⟩
    · exact (mem_cons.mp (hmem.mp hx)).elim (· ▸ mem_cons_self) fun hx => mem_cons_of_mem _ (mem_cons_of_mem _ hx)
    · exact absurd (hperm.length_eq ▸ hless) hfull
    · have hyx : Below y x := by
        rcases mem_cons.mp (hmem.mp hx) with rfl | hx
        · exact .inl hlow
        · exact hy x hx
      have hj : j ∈ done := (mem_append.mp hj).resolve_right fun hj => hnot (hmem.mpr (mem_singleton.mp hj ▸ mem_cons_self))
      by_cases hjy : (sim j, j) = y
      · exact hjy ▸ hyx
      · refine (h.best j hj (fun hj => ?_) y mem_cons_self).trans hyx
        exact hnot (hmem.mpr (mem_cons_of_mem _ ((mem_cons.mp hj).resolve_left hjy)))
  next hlow =>
    have hxy : Below (sim i, i) y := by
      have hle : sim i ≤ y.1 := by simpa using hlow
      exact (lt_or_eq_of_le hle).imp_right fun heq => ⟨heq, hlt y mem_cons_self⟩
    refine ⟨hnum, fun x hx => hslot x (mem_cons_of_mem _ hx), fun hless => absurd hless hfull, h.sorted, fun j hj hnot => ?_⟩
    rcases mem_append.mp hj with hj | hj
    · exact h.best j hj hnot
    · obtain rfl := mem_singleton.mp hj
      exact forall_mem_cons.mpr ⟨hxy, fun b hb => hxy.trans (hy b hb)⟩

def slots (vs : VecStore V) : List (Fin 64) := (finRange 64).filter fun i => (vs.entries i).used

theorem ranked_foldl {l : List (Fin 64)} (vs : VecStore V) (sim : Fin 64 → S) (hk : 1 ≤ k) (hl : l.Pairwise (· < ·)) :
    Ranked sim k (l.filter fun i => (vs.entries i).used) (l.foldl (vs.topkRound sim k) []) := by
  induction l using reverseRecOn with
  | nil => exact ⟨(Nat.min_zero k).symm, nofun, nofun, .nil, nofun⟩
  | append_singleton l i ih =>
    obtain ⟨hl, -, hlt⟩ := pairwise_append.mp hl
    have ih := ih hl
    rw [foldl_append, filter_append, filter_cons, foldl_cons, foldl_nil, filter_nil]
    cases hused : (vs.entries i).used with
    | true => exact ih.round hk (fun j hj => hlt j (mem_filter.mp hj).1 i mem_cons_self) hused
    | false =>
      rw [if_neg Bool.false_ne_true, append_nil, topkRound, hused]
      exact ih

theorem query_round {lowest : S} {r : (S × Fin 64) × Bool} {i : Fin 64} (hr : r.2 = false → r.1.1 = lowest)
    (hi : (vs.entries i).used → lowest < sim i) :
    ((vs.queryRound sim r i).2 = false → (vs.queryRound sim r i).1.1 = lowest) ∧
      vs.topkRound sim 1 (if r.2 then [r.1] else []) i =
        if (vs.queryRound sim r i).2 then [(vs.queryRound sim r i).1] else [] := by
  obtain ⟨best, found⟩ := r
  rw [queryRound, topkRound]
  cases hused : (vs.entries i).used with
  | false => exact ⟨hr, rfl⟩
  | true =>
    cases found with
    | false =>
      obtain rfl : best.1 = lowest := hr rfl
      simp [hi hused, place]
    | true =>
      by_cases hlt : best.1 < sim i <;> simp [hlt, place]

/-- What a search for the `k` best slots is to return. -/
structure TopK (vs : VecStore V) (sim : Fin 64 → S) (k : Nat) (found : List (S × Fin 64)) : Prop where
  number : found.length = min k vs.slots.length
  slot : ∀ x ∈ found, x.2 ∈ vs.slots ∧ x.1 = sim x.2
  distinct : found.Pairwise (·.2 ≠ ·.2)
  sorted : found.Pairwise fun x y => y.1 < x.1 ∨ y.1 = x.1 ∧ x.2 < y.2
  best : ∀ i ∈ vs.slots, (sim i, i) ∉ found → ∀ x ∈ found, sim i ≤ x.1

theorem query_topk_best (vs : VecStore V) (sim : Fin 64 → S) (k : Nat) (hk : 1 ≤ k) :
    TopK vs sim k (vs.queryTopk sim k) ∧ ∀ lowest, (∀ i ∈ vs.slots, lowest < sim i) →
      vs.queryTopk sim 1 = (vs.query sim lowest).toList := by
  refine ⟨?_, ?_⟩
  · have h : Ranked sim k vs.slots _ := ranked_foldl vs sim hk (pairwise_lt_finRange 64)
    rw [queryTopk]
    generalize (finRange 64).foldl _ _ = out at h
    refine ⟨length_reverse.trans h.length, fun x hx => h.slot x (mem_reverse.mp hx), ?_, pairwise_reverse.mpr h.sorted,
      fun i hi hnot x hx => ?_⟩
    · refine pairwise_reverse.mpr (h.sorted.imp_of_mem fun {x y} hx hy hxy heq => ?_)
      rcases hxy with hlt | ⟨-, hlt⟩
      · rw [(h.slot x hx).2, (h.slot y hy).2, heq] at hlt
        exact lt_irrefl _ hlt
      · exact lt_irrefl _ (heq ▸ hlt)
    · have hbelow := h.best i hi (fun hout => hnot (mem_reverse.mpr hout)) x (mem_reverse.mp hx)
      exact hbelow.elim le_of_lt fun heq => le_of_eq heq.1
  · intro lowest hlowest
    have hsim (l : List (Fin 64)) :
        let r := l.foldl (vs.queryRound sim) ((lowest, 0), false)
        (r.2 = false → r.1.1 = lowest) ∧ l.foldl (vs.topkRound sim 1) [] = if r.2 then [r.1] else [] := by
      induction l using reverseRecOn with
      | nil => exact ⟨fun _ => rfl, rfl⟩
      | append_singleton l i ih =>
        simp only [foldl_append, foldl_cons, foldl_nil, ih.2]
        exact query_round ih.1 fun hused => hlowest i (mem_filter.mpr ⟨mem_finRange i, hused⟩)
    rw [queryTopk, (hsim _).2, query]
    generalize (finRange 64).foldl (vs.queryRound sim) _ = r
    obtain ⟨best, _ | _⟩ := r <;> rfl

/-- Of the slots of equal scores the first ones are found. -/
theorem query_topk_best_two : let vs : VecStore (Fin 64) := ⟨64, fun _ => ⟨true, []⟩, id⟩
    TopK vs (·.1 % 3) 2 [(2, 2), (2, 5)] := by
  intro vs
  have hrun : vs.queryTopk (·.1 % 3) 2 = [(2, 2), (2, 5)] := by decide +kernel
  exact hrun ▸ (query_topk_best vs (·.1 % 3) 2 (by decide)).1

end Limnx.VecStore
