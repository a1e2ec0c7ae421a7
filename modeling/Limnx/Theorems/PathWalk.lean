import Mathlib.Data.List.TakeWhile
import Limnx.Vfs

/-! The walk goes up to the first symbolic link. A path that goes on after another one is walked by walking the first
    and then the rest (`walk_append`). -/

namespace Limnx
open List
namespace Vfs
variable {v : Vfs} {cur cur' : Nat} {p q r u : CStr}

/-- No component spans `r` and `u`. -/
def Separated (r u : CStr) : Prop := r = [] ∨ r.getLast? = some slash ∨ u = [] ∨ u.head? = some slash

theorem Separated.of_suffix (h : Separated r u) (hq : q <:+ r) : Separated q u := by
  rcases h with rfl | hlast | hu
  · exact .inl (suffix_nil.mp hq)
  · by_cases hnil : q = []
    · exact .inl hnil
    obtain ⟨a, rfl⟩ := hq
    rw [getLast?_append_of_ne_nil _ hnil] at hlast
    exact .inr (.inl hlast)
  · exact .inr (.inr hu)

theorem skipSlash_suffix (p : CStr) : skipSlash p <:+ p := by
  unfold skipSlash
  split
  · exact tail_suffix p
  · exact suffix_rfl

theorem component_rest_suffix (p : CStr) : (component p).2 <:+ p := drop_suffix _ p

theorem component_append (hr : r ≠ []) (h : Separated r u) :
    component (r ++ u) = ((component r).1, (component r).2 ++ u) := by
  have hc : ((r ++ u).take (maxPath - 1)).takeWhile (· != slash) = (r.take (maxPath - 1)).takeWhile (· != slash) := by
    rw [take_append, takeWhile_append]
    split
    next hfull =>
      have hall := ( takeWhile_prefix (· != slash)).eq_of_length hfull
      rw [hall, append_right_eq_self]
      rcases h with rfl | hlast | rfl | hu
      · exact absurd rfl hr
      · -- `r` ends in a slash, so that the cut is inside `r`
        have hcut : maxPath - 1 < r.length := by
          by_contra hle
          rw [take_of_length_le (Nat.le_of_not_lt hle), takeWhile_eq_self_iff] at hall
          simpa using hall slash (mem_of_getLast? hlast)
        rw [Nat.sub_eq_zero_of_le hcut.le]
        rfl
      · simp
      · obtain ⟨a, rfl⟩ := head?_eq_some_iff.mp hu
        cases maxPath - 1 - r.length with
        | zero => rfl
        | succ n => simp
    · rfl
  have hlen : ((r.take (maxPath - 1)).takeWhile (· != slash)).length ≤ r.length :=
    ( takeWhile_prefix _).length_le.trans (length_take_le' _ _)
  simp only [component, hc]
  rw [drop_append_of_le_length hlen]

theorem component_fst_nil (hp : p ≠ []) (h : (component p).1 = []) : ∃ p', p = slash :: p' ∧ (component p).2 = p := by
  obtain ⟨x, p', rfl⟩ := exists_cons_of_ne_nil hp
  obtain rfl | hx := eq_or_ne x slash
  · exact ⟨p', rfl, by simp [component, maxPath]⟩
  · simp [component, maxPath, hx] at h

def afterComponent (p : CStr) : CStr := skipSlash (component p).2

theorem afterComponent_suffix (p : CStr) : afterComponent p <:+ p :=
  (skipSlash_suffix _).trans (component_rest_suffix p)

theorem afterComponent_length (hp : p ≠ []) : (afterComponent p).length < p.length := by
  by_cases hc : (component p).1 = []
  · obtain ⟨p', rfl, hrest⟩ := component_fst_nil hp hc
    simp [afterComponent, hrest, skipSlash]
  have hpos := length_pos_iff.mpr hc
  have hlen := length_pos_iff.mpr hp
  have hskip := (skipSlash_suffix (component p).2).length_le
  have hdrop : (component p).2.length = p.length - (component p).1.length := length_drop
  simp only [afterComponent]
  omega

theorem afterComponent_append (hr : r ≠ []) (h : Separated r u) :
    afterComponent (r ++ u) = afterComponent r ++ u ∨
      afterComponent r = [] ∧ afterComponent (r ++ u) = skipSlash u := by
  simp only [afterComponent, component_append hr h]
  by_cases hnil : (component r).2 = []
  · exact .inr ⟨by simp [hnil, skipSlash], by simp [hnil]⟩
  obtain ⟨x, rest, hx⟩ := exists_cons_of_ne_nil hnil
  refine .inl ?_
  rw [hx]
  by_cases hslash : x = slash <;> simp [skipSlash, hslash]

inductive Round
  | done
  | missing
  | move (cur : Nat)
  | link (node : Nat) (data : Buf)

def enter (v : Vfs) (child : Nat) : Round :=
  match (v.nodes child).type, (v.nodes child).data with
  | .symlink, some data => .link child data
  | _, _ => .move child

def round (v : Vfs) (cur : Nat) (p : CStr) : Round :=
  if p = [] then .done
  else if (component p).1 = [] ∨ (component p).1 = [dot] then .move cur
  else if (component p).1 = [dot, dot] then .move ((v.nodes cur).parent.getD cur)
  else
    match v.findChild cur (component p).1 with
    | none => .missing
    | some child => v.enter child

theorem enter_cases (v : Vfs) (child : Nat) : v.enter child = .move child ∨ ∃ data, v.enter child = .link child data := by
  unfold enter
  split
  · exact .inr ⟨_, rfl⟩
  · exact .inl rfl

inductive Outcome
  | arrives (node : Nat)
  | missing
  | link (node : Nat) (data : Buf) (rest : CStr)

def walk (v : Vfs) : Nat → Nat → CStr → Outcome
  | 0, cur, _ => .arrives cur
  | fuel + 1, cur, p =>
    match v.round cur p with
    | .done => .arrives cur
    | .missing => .missing
    | .move cur' => v.walk fuel cur' (afterComponent p)
    | .link node data => .link node data (component p).2

theorem resolveLoop_eq (v : Vfs) (follow : CStr → VfsResult) : ∀ (fuel cur : Nat) (p : CStr),
    v.resolveLoop follow fuel cur p =
      match v.walk fuel cur p with
      | .arrives n => .ok n
      | .missing => .error (-ENOENT)
      | .link n data rest => follow (v.expandLink (v.nodes n) (linkTarget (v.nodes n) data) rest)
  | 0, _, _ => rfl
  | fuel + 1, cur, p => by
    rw [resolveLoop, walk]
    by_cases hp : p = []
    · simp [round, hp]
    by_cases hc : (component p).1 = []
    · simp only [round, hp, hc, if_false, if_true, true_or, resolveLoop_eq v follow fuel]
      rfl
    by_cases hd : (component p).1 = [dot]
    · simp only [round, hp, hd, if_false, if_true, or_true, resolveLoop_eq v follow fuel]
      rfl
    by_cases hdd : (component p).1 = [dot, dot]
    · simp only [round, hp, hdd, if_false, if_true, resolveLoop_eq v follow fuel]
      rfl
    simp only [round, hp, hc, hd, hdd, if_false, or_self, resolveLoop_eq v follow fuel]
    cases v.findChild cur (component p).1 with
    | none => rfl
    | some child =>
      dsimp only [enter]
      cases (v.nodes child).type <;> cases (v.nodes child).data <;> rfl

theorem walk_fuel : ∀ {fuel fuel' cur : Nat} {p : CStr}, p.length ≤ fuel → p.length ≤ fuel' →
    v.walk fuel cur p = v.walk fuel' cur p
  | 0, 0, _, _, _, _ => rfl
  | 0, fuel' + 1, _, p, h, _ | fuel + 1, 0, _, p, _, h => by
    rw [length_eq_zero_iff.mp (Nat.le_zero.mp h)]
    simp [walk, round]
  | fuel + 1, fuel' + 1, cur, p, h, h' => by
    rw [walk, walk]
    by_cases hp : p = []
    · simp [round, hp]
    have hlt := afterComponent_length hp
    cases v.round cur p with
    | done => rfl
    | missing => rfl
    | move cur' => exact walk_fuel (by omega) (by omega)
    | link node data => rfl

def walkAll (v : Vfs) (cur : Nat) (p : CStr) : Outcome := v.walk p.length cur p

theorem walk_eq_walkAll {fuel : Nat} (h : p.length ≤ fuel) : v.walk fuel cur p = v.walkAll cur p := walk_fuel h le_rfl

theorem walkAll_of_ne_nil (hp : p ≠ []) :
    v.walkAll cur p =
      match v.round cur p with
      | .done => .arrives cur
      | .missing => .missing
      | .move cur' => v.walkAll cur' (afterComponent p)
      | .link node data => .link node data (component p).2 := by
  have hlt := afterComponent_length hp
  obtain ⟨n, hn⟩ := Nat.exists_eq_add_one.mpr (length_pos_iff.mpr hp)
  rw [walkAll, hn, walk]
  cases v.round cur p with
  | done => rfl
  | missing => rfl
  | move cur' => exact walk_eq_walkAll (by omega)
  | link node data => rfl

@[simp] theorem walkAll_slash : v.walkAll cur (slash :: p) = v.walkAll cur p := by
  rw [walkAll_of_ne_nil (cons_ne_nil _ _)]
  simp [round, component, afterComponent, skipSlash, maxPath]

theorem walkAll_skipSlash : v.walkAll cur (skipSlash p) = v.walkAll cur p := by
  cases p with
  | nil => rfl
  | cons x p => by_cases hx : x = slash <;> simp [skipSlash, hx]

theorem round_ne_done (hp : p ≠ []) : v.round cur p ≠ .done := by
  rw [round, if_neg hp]
  split_ifs
  · nofun
  · nofun
  split
  · nofun
  next c _ => rcases v.enter_cases c with h | ⟨data, h⟩ <;> rw [h] <;> nofun

theorem walkAll_append (h : Separated r u) :
    v.walkAll cur (r ++ u) =
      match v.walkAll cur r with
      | .arrives n => v.walkAll n u
      | .missing => .missing
      | .link n data rest => .link n data (rest ++ u) := by
  induction hn : r.length using Nat.strong_induction_on generalizing r cur with | _ n ih => ?_
  subst hn
  by_cases hr : r = []
  · rw [hr]
    rfl
  have hlt := afterComponent_length hr
  have hru : r ++ u ≠ [] := by simp [hr]
  have hsame : v.round cur (r ++ u) = v.round cur r := by simp [round, component_append hr h, hr]
  rw [walkAll_of_ne_nil hru, walkAll_of_ne_nil hr, hsame]
  cases hround : v.round cur r with
  | done => exact absurd hround (round_ne_done hr)
  | missing => rfl
  | move cur' =>
    dsimp only
    rcases afterComponent_append hr h with ha | ⟨hnil, ha⟩
    · rw [ha, ih _ hlt (h.of_suffix (afterComponent_suffix r)) rfl]
    · rw [ha, hnil, walkAll_skipSlash]
      rfl
  | link n data => rw [component_append hr h]

theorem walkAll_link {n : Nat} {data : Buf} {rest : CStr} (h : v.walkAll cur p = .link n data rest) :
    rest <:+ p ∧ rest.length < p.length := by
  induction hn : p.length using Nat.strong_induction_on generalizing p cur with | _ m ih => ?_
  subst hn
  by_cases hp : p = []
  · rw [hp] at h
    cases h
  have hlt := afterComponent_length hp
  rw [walkAll_of_ne_nil hp] at h
  split at h
  · cases h
  · cases h
  · obtain ⟨hsuffix, hlen⟩ := ih _ hlt h rfl
    exact ⟨hsuffix.trans (afterComponent_suffix p), hlen.trans hlt⟩
  rename_i hround
  cases h
  unfold round at hround
  split_ifs at hround with hc
  have hpos := length_pos_iff.mpr fun hnil => hc (.inl hnil)
  have hdrop : (component p).2.length = p.length - (component p).1.length := length_drop
  exact ⟨component_rest_suffix p, by omega⟩

/-- `n` is `top` or lies below it. -/
def Below (v : Vfs) (top n : Nat) : Prop := Relation.ReflTransGen (fun a b => (v.nodes b).parent = some a) top n

inductive StepsBelow (v : Vfs) (top : Nat) : Nat → Nat → Prop
  | here : StepsBelow v top 0 top
  | child {k n c : Nat} (hn : StepsBelow v top k n) (hc : (v.nodes c).parent = some n) : StepsBelow v top (k + 1) c

theorem StepsBelow.toBelow {top k n : Nat} (h : StepsBelow v top k n) : v.Below top n := by
  induction h with
  | here => exact .refl
  | child _ hc ih => exact ih.tail hc

/-- Along the components of `p`, from `k` steps below some directory, no `..` leads out of it. -/
def staysBelow : Nat → Nat → CStr → Bool
  | 0, _, _ => true
  | fuel + 1, k, p =>
    if p = [] then true
    else if (component p).1 = [] ∨ (component p).1 = [dot] then staysBelow fuel k (afterComponent p)
    else if (component p).1 = [dot, dot] then k ≠ 0 && staysBelow fuel (k - 1) (afterComponent p)
    else staysBelow fuel (k + 1) (afterComponent p)

theorem walkAll_below {fuel k top n : Nat} (hfuel : p.length ≤ fuel) (hcur : StepsBelow v top k cur)
    (hstays : staysBelow fuel k p) (h : v.walkAll cur p = .arrives n) : v.Below top n := by
  induction fuel generalizing p cur k with
  | zero =>
    rw [length_eq_zero_iff.mp (Nat.le_zero.mp hfuel)] at h
    cases h
    exact hcur.toBelow
  | succ fuel ih =>
    by_cases hp : p = []
    · rw [hp] at h
      cases h
      exact hcur.toBelow
    have hlt := afterComponent_length hp
    rw [walkAll_of_ne_nil hp] at h
    rw [staysBelow, if_neg hp] at hstays
    by_cases hc : (component p).1 = [] ∨ (component p).1 = [dot]
    · rw [if_pos hc] at hstays
      rw [round, if_neg hp, if_pos hc] at h
      exact ih (by omega) hcur hstays h
    rw [if_neg hc] at hstays
    rw [round, if_neg hp, if_neg hc] at h
    by_cases hdd : (component p).1 = [dot, dot]
    · rw [if_pos hdd] at hstays h
      simp only [Bool.and_eq_true, decide_eq_true_eq] at hstays
      cases hcur with
      | here => exact absurd rfl hstays.1
      | child hn hpar =>
        rw [hpar] at h
        exact ih (by omega) hn hstays.2 h
    rw [if_neg hdd] at hstays h
    cases hchild : v.findChild cur (component p).1 with
    | none =>
      rw [hchild] at h
      cases h
    | some c =>
      have hfound := find?_some hchild
      simp only [Bool.and_eq_true, beq_iff_eq] at hfound
      have hnext := StepsBelow.child hcur hfound.1.2
      rw [hchild] at h
      dsimp only at h
      rcases v.enter_cases c with he | ⟨data, he⟩ <;> rw [he] at h
      · exact ih (by omega) hnext hstays h
      · cases h

end Vfs
end Limnx
