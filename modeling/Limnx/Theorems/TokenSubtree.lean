import Limnx.SysFs
import Limnx.Theorems.PathWalk

/-! The node reached lies under the resource's node when the resource ends where a component ends, no `..` leads above
    it, and every link on the way belongs to the resource. -/

namespace Limnx
open List
namespace Vfs
variable {v : Vfs} {n : VfsNode} {target r u rest : CStr}

def linkBase (v : Vfs) (n : VfsNode) (target : CStr) : CStr :=
  if target.head? = some slash then target else withSlash (v.parentPath n.parent) ++ target

def expansion (v : Vfs) (n : VfsNode) (target rest : CStr) : CStr :=
  if rest = [] then v.linkBase n target else withSlash (v.linkBase n target) ++ rest

theorem withSlash_cases (p : CStr) :
    withSlash p = p ∧ (p = [] ∨ p.getLast? = some slash) ∨ withSlash p = p ++ [slash] := by
  unfold withSlash
  split
  next h => exact .inl ⟨rfl, h⟩
  · exact .inr rfl

theorem length_le_withSlash (p : CStr) : p.length ≤ (withSlash p).length := by
  rcases withSlash_cases p with ⟨h, _⟩ | h <;> rw [h]
  simp

theorem expandLink_eq_expansion (hbase : (v.linkBase n target).length < maxPath - 1)
    (hfits : (v.expansion n target rest).length < maxPath) : v.expandLink n target rest = v.expansion n target rest := by
  by_cases habs : target.head? = some slash
  · simp only [linkBase, habs, if_true, expansion] at hbase hfits
    simp only [expandLink, expansion, linkBase, habs, if_true]
    split
    · rfl
    rename_i hrest
    rw [if_neg hrest] at hfits
    rw [take_of_length_le (l := target) (by simp only [maxPath] at *; omega),
      take_of_length_le (by simp only [maxPath] at *; omega)]
  · simp only [linkBase, habs, if_false, expansion] at hbase hfits
    simp only [expandLink, expansion, linkBase, habs, if_false]
    have hparent : (v.parentPath n.parent).length ≤ maxPath - 2 := by
      have := length_le_withSlash (v.parentPath n.parent)
      simp only [length_append, maxPath] at *
      omega
    rw [take_of_length_le hparent, take_of_length_le hbase.le, if_pos hbase]
    split
    · rfl
    rename_i hrest
    rw [if_neg hrest] at hfits
    exact take_of_length_le (by simp only [maxPath] at *; omega)

theorem expansion_append (v : Vfs) (n : VfsNode) (target : CStr) (hu : u ≠ []) (h : Separated r u) :
    ∃ s, (s = [] ∨ s = [slash]) ∧ v.expansion n target (r ++ u) = v.expansion n target r ++ (s ++ u) ∧
      Separated (v.expansion n target r) (s ++ u) := by
  have hru : r ++ u ≠ [] := by simp [hu]
  simp only [expansion, if_neg hru]
  obtain rfl | hr := eq_or_ne r []
  · rcases withSlash_cases (v.linkBase n target) with ⟨hw, hb⟩ | hw <;> rw [hw]
    · exact ⟨[], .inl rfl, rfl, hb.elim .inl fun h => .inr (.inl h)⟩
    · exact ⟨[slash], .inr rfl, by simp, .inr (.inr (.inr rfl))⟩
  · rw [if_neg hr]
    refine ⟨[], .inl rfl, by simp, ?_⟩
    rcases h with h | h | h
    · exact absurd h hr
    · exact .inr (.inl (by rw [getLast?_append_of_ne_nil _ hr, h]))
    · exact .inr (.inr h)

theorem parentPath_ne_nil (v : Vfs) (n : Option Nat) : v.parentPath n ≠ [] := by
  unfold parentPath
  dsimp only
  split
  · simp
  · assumption

theorem linkBase_ne_nil (v : Vfs) (n : VfsNode) (target : CStr) : v.linkBase n target ≠ [] := by
  unfold linkBase
  split
  next h =>
    rintro rfl
    cases h
  · have := length_le_withSlash (v.parentPath n.parent)
    have := length_pos_iff.mpr (v.parentPath_ne_nil n.parent)
    refine length_pos_iff.mp ?_
    simp only [length_append]
    omega

theorem expansion_ne_nil (v : Vfs) (n : VfsNode) (target rest : CStr) : v.expansion n target rest ≠ [] := by
  unfold expansion
  split
  · exact v.linkBase_ne_nil n target
  · simp_all

theorem expandLink_append (hu : u ≠ []) (h : Separated r u) (hfits : (v.expansion n target (r ++ u)).length < maxPath) :
    ∃ e s, e ≠ [] ∧ (s = [] ∨ s = [slash]) ∧ v.expandLink n target r = e ∧
      v.expandLink n target (r ++ u) = e ++ (s ++ u) ∧ Separated e (s ++ u) := by
  have hpos := length_pos_iff.mpr hu
  have hbase : (v.linkBase n target).length < maxPath - 1 := by
    have := length_le_withSlash (v.linkBase n target)
    rw [expansion, if_neg (by simp [hu])] at hfits
    simp only [length_append] at hfits
    omega
  obtain ⟨s, hs, happ, hsep⟩ := expansion_append v n target hu h
  refine ⟨v.expansion n target r, s, v.expansion_ne_nil n target r, hs, expandLink_eq_expansion hbase ?_,
    (expandLink_eq_expansion hbase hfits).trans happ, hsep⟩
  rw [happ] at hfits
  simp only [length_append] at hfits
  omega

/-! ### Resolution -/

/-- Every link that is met while `path` is resolved is met with at least `m` bytes to go, and the path that
    it is replaced by fits into the buffer. -/
def linksBefore (v : Vfs) (m : Nat) : Nat → CStr → Prop
  | 0, _ => True
  | depth + 1, path =>
    match v.walkAll 0 path.tail with
    | .link n data rest =>
      m ≤ rest.length ∧ (v.expansion (v.nodes n) (linkTarget (v.nodes n) data) rest).length < maxPath ∧
        v.linksBefore m depth (v.expandLink (v.nodes n) (linkTarget (v.nodes n) data) rest)
    | _ => True

theorem resolvePathDepth_slash (v : Vfs) (depth : Nat) (p : CStr) :
    v.resolvePathDepth (depth + 1) (slash :: p) =
      match v.walkAll 0 p with
      | .arrives n => .ok n
      | .missing => .error (-ENOENT)
      | .link n data rest =>
        v.resolvePathDepth depth (v.expandLink (v.nodes n) (linkTarget (v.nodes n) data) rest) := by
  rw [← walk_eq_walkAll (Nat.le_succ p.length)]
  exact (if_neg (by simp)).trans (resolveLoop_eq ..)

theorem head_of_resolved {depth i : Nat} {p : CStr} (h : v.resolvePathDepth depth p = .ok i) :
    p.head? = some slash := by
  by_contra hne
  cases depth <;> simp [resolvePathDepth, hne] at h

def behind (resource path : CStr) : CStr := (path.drop resource.length).dropWhile (· == slash)

theorem walkAll_dropWhile_slash (cur : Nat) (u : CStr) : v.walkAll cur (u.dropWhile (· == slash)) = v.walkAll cur u := by
  induction u with
  | nil => rfl
  | cons x u ih =>
    by_cases hx : x = slash
    · simp [hx, ih]
    · simp [hx]

theorem resolvePathDepth_below {depth i : Nat} (hr : r.head? = some slash) (hsep : Separated r u)
    (hstays : staysBelow (u.dropWhile (· == slash)).length 0 (u.dropWhile (· == slash)))
    (hlinks : v.linksBefore (u.dropWhile (· == slash)).length depth (r ++ u))
    (h : v.resolvePathDepth depth (r ++ u) = .ok i) : ∃ top, v.resolvePathDepth depth r = .ok top ∧ v.Below top i := by
  by_cases hu : u = []
  · rw [hu, append_nil] at h
    exact ⟨i, h, .refl⟩
  induction depth generalizing r u with
  | zero =>
    have := head_of_resolved h
    simp [resolvePathDepth, this] at h
  | succ depth ih =>
    obtain ⟨p, rfl⟩ := head?_eq_some_iff.mp hr
    have hp : Separated p u := hsep.of_suffix (suffix_cons _ _)
    rw [linksBefore, cons_append, tail_cons, walkAll_append hp] at hlinks
    rw [cons_append, resolvePathDepth_slash, walkAll_append hp] at h
    rw [resolvePathDepth_slash]
    cases hwalk : v.walkAll 0 p with
    | arrives top =>
      rw [hwalk] at h hlinks
      refine ⟨top, rfl, ?_⟩
      dsimp only at h hlinks
      rw [← walkAll_dropWhile_slash] at h hlinks
      cases htail : v.walkAll top (u.dropWhile (· == slash)) with
      | arrives j =>
        rw [htail] at h
        cases h
        exact walkAll_below le_rfl .here hstays htail
      | missing =>
        rw [htail] at h
        cases h
      | link j data rest =>
        rw [htail] at hlinks
        exact absurd hlinks.1 (Nat.not_le.mpr (walkAll_link htail).2)
    | missing =>
      rw [hwalk] at h
      cases h
    | link j data rest =>
      rw [hwalk] at h hlinks
      dsimp only at h hlinks ⊢
      obtain ⟨e, s, hne, hs, he, happ, hsep'⟩ := expandLink_append hu (hp.of_suffix (walkAll_link hwalk).1) hlinks.2.1
      have hdrop : (s ++ u).dropWhile (· == slash) = u.dropWhile (· == slash) := by
        rcases hs with rfl | rfl <;> simp
      rw [happ] at h hlinks
      rw [he]
      refine ih ?_ hsep' (hdrop ▸ hstays) (hdrop ▸ hlinks.2.2) h (by simp [hu])
      have hhead := head_of_resolved h
      rwa [head?_append_of_ne_nil _ hne] at hhead

/-- The path stays inside the directory that `resource` names. -/
structure StaysInside (v : Vfs) (resource path : CStr) : Prop where
  /-- The resource ends where a component of the path ends. -/
  separated : Separated resource (path.drop resource.length)
  /-- No `..` behind the resource leads above it. -/
  stays : staysBelow (behind resource path).length 0 (behind resource path)
  /-- Links are met only on the way to the resource, and following them cuts nothing off. -/
  links : v.linksBefore (behind resource path).length (maxSymlinkDepth + 1) path

end Vfs

/-! ### Tokens -/

/-- The calls that take a path; `open` with its access mode. -/
inductive PathCall
  | open (acc : U64)
  | unlink
  | truncate

namespace PathCall

def needs : PathCall → List U32
  | .open acc =>
    (if acc = oRdonly ∨ acc = oRdwr then [capFsRead] else []) ++ (if acc = oWronly ∨ acc = oRdwr then [capFsWrite] else [])
  | .unlink | .truncate => [capFsWrite]

def accepted (k : FsKernel) (t : Nat) (path : CStr) : PathCall → Bool
  | .open acc => k.openAllowed t path acc
  | .unlink | .truncate => fsAllowed k.tokens (k.tasks t).proc capFsWrite path

theorem accepted_iff (k : FsKernel) (t : Nat) (path : CStr) (call : PathCall) :
    call.accepted k t path ↔ ∀ cap ∈ call.needs, fsAllowed k.tokens (k.tasks t).proc cap path := by
  cases call with
  | «open» acc =>
    simp only [accepted, FsKernel.openAllowed, needs]
    split_ifs <;> simp_all
  | unlink | truncate => simp [accepted, needs]

end PathCall

/-- A process that lacks a capability is let through by a token; if the path stays inside the token's directory, so does
    the node it is resolved to. -/
theorem token_confines_to_subtree (k : FsKernel) (t : Nat) (path : CStr) (call : PathCall) (cap : U32)
    (hcap : cap ∈ call.needs) (hlacks : (k.tasks t).proc.capabilities &&& cap = 0)
    (habs : ∀ x ∈ k.tokens, x.used → (x.targetPid = 0 ∨ x.targetPid = (k.tasks t).proc.pid) → x.perms &&& cap ≠ 0 →
      x.resource.head? = some slash) (hacc : call.accepted k t path) :
    ∃ x, grantingToken k.tokens (k.tasks t).proc.pid cap (some path) = some x ∧
      (k.vfs.StaysInside x.resource path → ∀ i, k.vfs.resolvePath path = .ok i →
        ∃ top, k.vfs.resolvePath x.resource = .ok top ∧ k.vfs.Below top i) := by
  have hallowed := (PathCall.accepted_iff k t path call).mp hacc cap hcap
  simp only [fsAllowed, hlacks, bne_self_eq_false, Bool.false_or] at hallowed
  obtain ⟨x, hx⟩ := Option.isSome_iff_exists.mp hallowed
  refine ⟨x, hx, fun hin i hi => ?_⟩
  have hgrants := find?_some hx
  simp only [CapToken.grants, Bool.and_eq_true, Bool.or_eq_true, beq_iff_eq, bne_iff_ne, Option.all_some,
    List.isEmpty_iff] at hgrants
  obtain ⟨⟨⟨hused, htarget⟩, hperms⟩, hres⟩ := hgrants
  have hhead := habs x (mem_of_find?_eq_some hx) hused htarget hperms
  rcases hres with hnil | hprefix
  · rw [hnil] at hhead
    cases hhead
  obtain ⟨u, rfl⟩ := isPrefixOf_iff_prefix.mp hprefix
  obtain ⟨hsep, hstays, hlinks⟩ := hin
  simp only [Vfs.behind, drop_left] at hsep hstays hlinks
  exact Vfs.resolvePathDepth_below hhead hsep hstays hlinks hi

/-- The directory `/foo` with the file `x` and the link `ln` to `/foobar`, the file `/foobar`, the link `/l` to `foo`,
    and one bearer token for reading. Processes have no capabilities. -/
def fooKernel (resource : CStr) : FsKernel where
  cache := .blank
  tokens := [{ used := true, perms := capFsRead, resource }]
  vfs :=
    { nodeCount := 6
      nodes := fun
        | 0 => { name := [slash], type := .directory }
        | 1 => { name := [102, 111, 111], type := .directory, parent := some 0 }
        | 2 => { name := [102, 111, 111, 98, 97, 114], parent := some 0 }
        | 3 => { name := [108, 110], type := .symlink, parent := some 1, size := 7,
                 data := some fun i => [slash, 102, 111, 111, 98, 97, 114].getD i 0 }
        | 4 => { name := [120], parent := some 1 }
        | 5 => { name := [108], type := .symlink, parent := some 0, size := 3, data := some fun i => [102, 111, 111].getD i 0 }
        | _ => {} }

/-- With a token for `/foo`, the paths `/foobar`, `/foo/../foobar` and `/foo/ln` are accepted and lead to
    `/foobar`. -/
theorem foo_token_opens_foobar : let k := fooKernel [slash, 102, 111, 111]
    (∀ path ∈ [[slash, 102, 111, 111, 98, 97, 114],
        [slash, 102, 111, 111, slash, dot, dot, slash, 102, 111, 111, 98, 97, 114], [slash, 102, 111, 111, slash, 108, 110]],
      (PathCall.open oRdonly).accepted k 0 path ∧ k.vfs.resolvePath path = .ok 2) ∧
    k.vfs.resolvePath [slash, 102, 111, 111] = .ok 1 ∧ ¬k.vfs.Below 1 2 := by
  refine ⟨by simp only [forall_mem_cons]; exact ⟨⟨rfl, rfl⟩, ⟨rfl, rfl⟩, ⟨rfl, rfl⟩, nofun⟩, rfl, fun h => ?_⟩
  rcases Relation.ReflTransGen.cases_tail h with h | ⟨a, ha, hpar⟩
  · cases h
  cases hpar
  rcases Relation.ReflTransGen.cases_tail ha with h | ⟨b, _, hpar⟩
  · cases h
  · cases hpar

theorem fooKernel_staysInside : (fooKernel [slash, 108]).vfs.StaysInside [slash, 108] [slash, 108, slash, 120] := by
  refine ⟨.inr (.inr (.inr rfl)), by decide, ?_⟩
  have hmet : (fooKernel [slash, 108]).vfs.walkAll 0 [108, slash, 120] =
      .link 5 (fun i => [102, 111, 111].getD i 0) [slash, 120] := rfl
  have hexpand : (fooKernel [slash, 108]).vfs.expandLink ((fooKernel [slash, 108]).vfs.nodes 5)
      (Vfs.linkTarget ((fooKernel [slash, 108]).vfs.nodes 5) fun i => [102, 111, 111].getD i 0) [slash, 120] =
      [slash, 102, 111, 111, slash, slash, 120] := by decide
  have hwalk : (fooKernel [slash, 108]).vfs.walkAll 0 [102, 111, 111, slash, slash, 120] = .arrives 4 := rfl
  rw [Vfs.linksBefore, tail_cons, hmet]
  refine ⟨by decide, by decide, ?_⟩
  trivial

theorem link_token_confines :
    ∃ x, grantingToken (fooKernel [slash, 108]).tokens 0 capFsRead (some [slash, 108, slash, 120]) = some x ∧
      ∃ top, (fooKernel [slash, 108]).vfs.resolvePath x.resource = .ok top ∧ (fooKernel [slash, 108]).vfs.Below top 4 := by
  obtain ⟨x, hx, hin⟩ := token_confines_to_subtree (fooKernel [slash, 108]) 0 [slash, 108, slash, 120] (.open oRdonly)
    capFsRead (by decide) (by decide) (by decide) (by decide)
  have hres : x.resource = [slash, 108] := by
    cases hx
    rfl
  exact ⟨x, hx, hin (hres ▸ fooKernel_staysInside) 4 rfl⟩

end Limnx
