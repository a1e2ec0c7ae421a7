import Limnx.Theorems.SuperOwners

/-! `supervisor_create` and `supervisor_add_child` copy a text without its end, so it ends where an older and longer one
    in the same slot ends. -/

open Option

namespace Limnx
open GuardedRun List Kernel
variable {k : Kernel} {sv : Supervisor} {s i : Nat}

def Kernel.loadPath (k : Kernel) (superId childIdx : Nat) : Option (List UInt8) :=
  ((k.supervisor? superId).bind (·.path? childIdx)).map cString

def Kernel.pathBuffer (k : Kernel) (s i : Nat) : List UInt8 :=
  (((k.supervisors[s]?).bind (·.children[i]?)).map (·.elfPath)).getD []

def Kernel.nameBuffer (k : Kernel) (s : Nat) : List UInt8 := ((k.supervisors[s]?).map (·.name)).getD []

/-- The array ends after `n` bytes, or what stands there does. -/
def EndsAt (max n : Nat) (buf : List UInt8) : Prop := n + 1 = max ∨ buf[n]?.getD 0 = 0

theorem cString_copyOver_iff (src buf : List UInt8) {max : Nat} (hmax : 0 < max) :
    cString (copyOver max src buf) = (cString src).take (max - 1) ↔
      EndsAt max ((cString src).take (max - 1)).length buf := by
  have hnz : ∀ b ∈ (cString src).take (max - 1), (b != 0) := fun b hb =>
    all_eq_true.mp (all_takeWhile (p := (· != 0)) (l := src)) b (mem_of_mem_take hb)
  obtain ⟨d, hd⟩ := Nat.exists_eq_add_of_le (length_take_le (max - 1) (cString src))
  unfold copyOver EndsAt
  generalize (cString src).take (max - 1) = t at hnz hd ⊢
  have hhead : (buf.drop t.length)[0]? = buf[t.length]? := by simp
  rw [cString, hd, set_append_right _ _ (Nat.le_add_right ..), Nat.add_sub_cancel_left,
    takeWhile_append_of_pos hnz, ← hhead]
  cases buf.drop t.length with
  | nil => simp
  | cons b r =>
    cases d with
    | zero => simp [show t.length + 1 = max by omega]
    | succ d => simp [show t.length + 1 ≠ max by omega, takeWhile_cons]

/-- The loader is asked for this path and for no other. -/
theorem restartChild_loads {proc : Process} {env env' : Env} (hs : (k.supervisor? s).isSome)
    (h : ∀ p ∈ k.loadPath s i, env.loads p = env'.loads p) :
    supervisorRestartChild proc env s k i = supervisorRestartChild proc env' s k i := by
  obtain ⟨sv, hsv⟩ := isSome_iff_exists.mp hs
  obtain ⟨hget, -⟩ := supervisor?_eq.mp hsv
  simp only [loadPath, hsv, bind_some] at h
  unfold supervisorRestartChild supervisorLoadElf
  cases hch : sv.children[i]? with
  | none => simp [hget, hch]
  | some ch =>
    cases hu : ch.used with
    | false => simp [hget, hch, hu]
    | true => simp [hget, hch, hu, h (cString ch.elfPath) (by simp [Supervisor.path?, hch, hu])]

theorem kept_run {later : List (Nat × KernelOp)} (hsv : k.supervisor? s = some sv)
    (h : Guarded step (fun k op => ¬Stops s k op) k later) :
    ∃ sv', (run step k later).supervisor? s = some sv' ∧ sv.Kept sv' := by
  induction later generalizing k sv with
  | nil => exact ⟨sv, hsv, .refl sv⟩
  | cons op later ih =>
    obtain ⟨hget, hused⟩ := supervisor?_eq.mp hsv
    have hstep : ∃ sv', (k.step op).supervisors[s]? = some sv' ∧ sv.Kept sv' := by
      obtain ⟨j, honly, -, hkept⟩ := supervisor_step k op.1 op.2
      obtain rfl | hs := eq_or_ne s j
      · exact (hkept h.1).kept sv hget hused
      · exact ⟨sv, (honly s hs).trans hget, .refl sv⟩
    obtain ⟨sv1, hsv1, hkept1⟩ := hstep
    obtain ⟨sv', hsv', hkept'⟩ := ih (supervisor?_eq.mpr ⟨hsv1, hkept1.used hused⟩) h.2
    exact ⟨sv', hsv', hkept1.trans hkept'⟩

theorem kept_restarts (hsv : k.supervisor? s = some sv) (proc : Process) (env : Env) (is : List Nat) :
    ∃ sv', (is.foldl (supervisorRestartChild proc env s) k).supervisor? s = some sv' ∧ sv.Kept sv' := by
  obtain ⟨hget, hused⟩ := supervisor?_eq.mp hsv
  obtain ⟨sv', hsv', hkept⟩ := (restartChildren_kept is).kept sv hget hused
  exact ⟨sv', supervisor?_eq.mpr ⟨hsv', hkept.used hused⟩, hkept⟩

theorem mem_supervisorList {m : Nat} {info : SuperInfo} (h : info ∈ supervisorList k m) :
    ∃ sv, k.supervisor? info.id = some sv ∧ info.name = sv.name := by
  obtain ⟨⟨sv, j⟩, hmem, rfl⟩ := mem_map.mp h
  obtain ⟨hmem, hused⟩ := mem_filter.mp (mem_of_mem_take hmem)
  exact ⟨sv, supervisor?_eq.mpr ⟨mem_zipIdx_iff_getElem?.mp hmem, hused⟩, rfl⟩

theorem supervisorList_mem (hsv : k.supervisor? s = some sv) :
    ∃ info ∈ supervisorList k k.supervisors.length, info.id = s ∧ info.name = sv.name := by
  obtain ⟨hget, hused⟩ := supervisor?_eq.mp hsv
  refine ⟨_, mem_map.mpr ⟨(sv, s), ?_, rfl⟩, rfl, rfl⟩
  have hlen := length_filter_le (fun x : Supervisor × Nat => x.1.used) k.supervisors.zipIdx
  rw [length_zipIdx] at hlen
  rw [take_of_length_le hlen]
  exact mem_filter.mpr ⟨mem_zipIdx_iff_getElem?.mpr hget, hused⟩

theorem addChild_slot {path : CStr} {nsId caps : U64} (h : (supervisorAddChild k s path nsId caps).1 = (i : Nat)) :
    ∃ sv, (supervisorAddChild k s path nsId caps).2.supervisor? s = some sv ∧
      sv.path? i = some (copyOver 64 path (k.pathBuffer s i)) := by
  unfold supervisorAddChild at h ⊢
  split at h
  · omega
  rename_i sv hsv
  obtain ⟨hget, hused⟩ := supervisor?_eq.mp hsv
  split at h
  · omega
  rename_i j hj
  obtain rfl := Int.ofNat_inj.mp h
  obtain ⟨hlt, -⟩ := findIdx?_eq_some_iff_getElem.mp hj
  obtain ⟨hs, rfl⟩ := List.getElem?_eq_some_iff.mp hget
  simp [supervisor?, Supervisor.path?, hs, hused, hlt, pathBuffer, elfPathMax]

theorem create_slot {pid : Nat} {name : CStr} (h : (supervisorCreate k pid name).1 = (s : Nat)) :
    ∃ sv, (supervisorCreate k pid name).2.supervisor? s = some sv ∧ sv.name = copyOver 32 name (k.nameBuffer s) := by
  unfold supervisorCreate at h ⊢
  split at h
  · omega
  rename_i j hj
  obtain rfl := Int.ofNat_inj.mp h
  obtain ⟨hlt, -⟩ := findIdx?_eq_some_iff_getElem.mp hj
  simp [supervisor?, hlt, nameBuffer, superNameMax]

/-- Until the supervisor is stopped, a child is started with the path it was added with and the supervisor is listed
    with its name, exactly if the older text in the slot ended where the new one ends. -/
theorem texts_as_given_iff (k : Kernel) :
    (∀ s path nsId caps (i : Nat), (supervisorAddChild k s path nsId caps).1 = i → (cString path).length ≤ 63 →
      ((∀ later, Guarded step (fun k op => ¬Stops s k op) (supervisorAddChild k s path nsId caps).2 later →
          ∀ proc env is, (foldl (supervisorRestartChild proc env s)
            (run step (supervisorAddChild k s path nsId caps).2 later) is).loadPath s i = some (cString path)) ↔
        EndsAt 64 (cString path).length (k.pathBuffer s i))) ∧
    ∀ pid name (s : Nat), (supervisorCreate k pid name).1 = s →
      ((∀ later, Guarded step (fun k op => ¬Stops s k op) (supervisorCreate k pid name).2 later →
          ∀ m, ∀ info ∈ supervisorList (run step (supervisorCreate k pid name).2 later) m, info.id = s →
            cString info.name = (cString name).take 31) ↔
        EndsAt 32 ((cString name).take 31).length (k.nameBuffer s)) := by
  refine ⟨fun s path nsId caps i hret hlen => ?_, fun pid name s hret => ?_⟩
  · obtain ⟨sv, hsv, hpath⟩ := addChild_slot hret
    have hcopy := cString_copyOver_iff path (k.pathBuffer s i) (show 0 < 64 by decide)
    rw [take_of_length_le hlen] at hcopy
    refine ⟨fun h => ?_, fun h later hlater proc env is => ?_⟩
    · have hnow := h [] trivial {} ⟨0, fun _ => none, fun _ => false⟩ []
      simp only [foldl_nil, run_nil, loadPath, hsv, bind_some, hpath, map_some] at hnow
      exact hcopy.mp (some_inj.mp hnow)
    · obtain ⟨sv1, hsv1, hkept1⟩ := kept_run hsv hlater
      obtain ⟨sv', hsv', hkept'⟩ := kept_restarts hsv1 proc env is
      rw [loadPath, hsv', bind_some, (hkept1.trans hkept').path i _ hpath, map_some, hcopy.mpr h]
  · obtain ⟨sv, hsv, hname⟩ := create_slot hret
    have hcopy := cString_copyOver_iff name (k.nameBuffer s) (show 0 < 32 by decide)
    rw [← hname] at hcopy
    refine ⟨fun h => ?_, fun h later hlater m info hinfo hid => ?_⟩
    · obtain ⟨info, hinfo, hid, hsame⟩ := supervisorList_mem hsv
      exact hcopy.mp (hsame ▸ h [] trivial _ info hinfo hid)
    · obtain ⟨sv', hsv', hkept⟩ := kept_run hsv hlater
      obtain ⟨sv1, hsv1, hsame⟩ := mem_supervisorList hinfo
      rw [hid, hsv'] at hsv1
      obtain rfl := some_inj.mp hsv1
      rw [hsame, hkept.name, hcopy.mpr h]

def Kernel.supervise (k : Kernel) (name path : CStr) : Kernel :=
  (supervisorAddChild (supervisorCreate k 1 name).2 0 path 0 0).2

/-- A supervisor "ab" with a child "/b" is stopped, and the next one "c" with a child "/" gets its slot. -/
theorem old_tail_loaded :
    let k := (supervisorStop (supervise {} [0x61, 0x62] [0x2f, 0x62]) ⟨0, fun _ => none, fun _ => false⟩ 0 1).2
    (k.supervise [0x63] [0x2f]).loadPath 0 0 = some [0x2f, 0x62] ∧
      (supervisorList (k.supervise [0x63] [0x2f]) 1).map (fun info => cString info.name) = [[0x63, 0x62]] := by
  decide

end Limnx
