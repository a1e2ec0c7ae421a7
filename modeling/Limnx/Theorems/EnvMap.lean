import Limnx.ProcEnv
import Limnx.Lib.GuardedRun

/-! `sys_setenv` takes the old entry out before it looks for room for the new one. -/

open Prod Option

namespace Limnx
open GuardedRun Function List

structure EnvKey where
  name : List UInt8
  ne_nil : name ≠ []
  mem : ∀ b ∈ name, b ≠ 0 ∧ b ≠ 61
  length_le : name.length ≤ 127
  deriving DecidableEq

structure EnvValue where
  bytes : List UInt8
  mem : ∀ b ∈ bytes, b ≠ 0
  length_le : bytes.length ≤ 255

variable {k k' : EnvKey} {v : EnvValue} {vars : List (EnvKey × EnvValue)} {rest : List UInt8} {n : Nat}

def envEntry (k : EnvKey) (v : EnvValue) : List UInt8 := k.name ++ 61 :: (v.bytes ++ [0])

theorem isPrefixOf_key {a b : List UInt8} (ha : ∀ c ∈ a, c ≠ 61) (hb : ∀ c ∈ b, c ≠ 61) :
    (a ++ [61]).isPrefixOf (b ++ 61 :: rest) = decide (a = b) := by
  induction a generalizing b with
  | nil =>
    cases b with
    | nil => simp
    | cons c b =>
      have hne : (61 == c) = false := beq_eq_false_iff_ne.mpr (hb c mem_cons_self).symm
      simp [isPrefixOf_cons_cons, hne]
  | cons d a ih =>
    have ha' := fun c hc => ha c (mem_cons_of_mem d hc)
    cases b with
    | nil =>
      have hne : (d == 61) = false := beq_eq_false_iff_ne.mpr (ha d mem_cons_self)
      simp [isPrefixOf_cons_cons, hne]
    | cons c b =>
      rw [cons_append, cons_append, isPrefixOf_cons_cons, ih ha' fun c' hc => hb c' (mem_cons_of_mem c hc)]
      simp [Bool.beq_eq_decide_eq]

theorem entryMatches_entry : entryMatches k.name (envEntry k' v ++ rest) = decide (k = k') := by
  rw [entryMatches, envEntry, append_assoc, cons_append,
    isPrefixOf_key (fun c hc => (k.mem c hc).2) fun c hc => (k'.mem c hc).2]
  cases k
  cases k'
  simp

theorem takeWhile_zero {a : List UInt8} (ha : ∀ b ∈ a, b ≠ 0) : (a ++ 0 :: rest).takeWhile (· != 0) = a := by
  rw [takeWhile_append_of_pos (by simpa using ha)]
  simp

theorem entryEnd_entry : entryEnd (envEntry k v ++ rest) = (envEntry k v).length := by
  have hmem : ∀ b ∈ k.name ++ 61 :: v.bytes, b ≠ 0 := by
    intro b hb
    rcases mem_append.mp hb with hb | hb
    · exact (k.mem b hb).1
    rcases mem_cons.mp hb with rfl | hb
    · decide
    · exact v.mem b hb
  have heq : envEntry k v ++ rest = (k.name ++ 61 :: v.bytes) ++ 0 :: rest := by simp [envEntry]
  rw [entryEnd, heq, takeWhile_zero hmem]
  simp only [envEntry, length_append, length_cons, length_nil]
  omega

def packEnv (vars : List (EnvKey × EnvValue)) : List UInt8 := vars.flatMap fun x => envEntry x.1 x.2

theorem entry_ne_nil : envEntry k v ++ rest ≠ [] := by simp [envEntry]

theorem packEnv_cons (x : EnvKey × EnvValue) : packEnv (x :: vars) = envEntry x.1 x.2 ++ packEnv vars := rfl

theorem findValue_packEnv (hn : vars.length ≤ n) :
    findValue k.name n (packEnv vars) = ((vars.find? fun x => x.1 = k).map fun x => x.2.bytes) := by
  induction vars generalizing n with
  | nil => cases n <;> rfl
  | cons x vars ih =>
    obtain ⟨n, rfl⟩ : ∃ m, n = m + 1 := ⟨n - 1, by simp at hn; omega⟩
    rw [packEnv_cons, findValue, if_neg entry_ne_nil, entryMatches_entry, entryEnd_entry, drop_left,
      ih (by simpa using hn)]
    rcases eq_or_ne k x.1 with rfl | hne
    · have hdrop : (envEntry x.1 x.2 ++ packEnv vars).drop (x.1.name.length + 1) = x.2.bytes ++ 0 :: packEnv vars := by
        rw [envEntry, append_assoc, cons_append, ← drop_drop, drop_left]
        simp
      simp [hdrop, takeWhile_zero x.2.mem]
    · simp [hne, hne.symm]

theorem removeKey_packEnv (hn : vars.length ≤ n) :
    removeKey k.name n (packEnv vars) = (packEnv (vars.filter fun x => x.1 ≠ k), vars.countP fun x => x.1 = k) := by
  induction vars generalizing n with
  | nil => cases n <;> rfl
  | cons x vars ih =>
    obtain ⟨n, rfl⟩ : ∃ m, n = m + 1 := ⟨n - 1, by simp at hn; omega⟩
    rw [packEnv_cons, removeKey, if_neg entry_ne_nil, entryMatches_entry, entryEnd_entry, drop_left, take_left,
      ih (by simpa using hn)]
    rcases eq_or_ne k x.1 with rfl | hne
    · simp
    · simp [hne, hne.symm, packEnv_cons]

theorem length_le_packEnv : vars.length ≤ (packEnv vars).length := by
  induction vars with
  | nil => exact Nat.zero_le _
  | cons x vars ih =>
    have : 0 < (envEntry x.1 x.2).length := by
      rw [envEntry, length_append, length_cons]
      omega
    rw [packEnv_cons, length_append, length_cons]
    omega

structure SetCall where
  key : EnvKey
  value : EnvValue

structure EnvSys where
  env : ProcEnv := {}
  vars : EnvKey → Option EnvValue := fun _ => none

namespace EnvSys
variable {s : EnvSys} {c : SetCall} {calls : List SetCall} {size : U64}

def step (s : EnvSys) (c : SetCall) : EnvSys :=
  let r := sysSetenv s.env (some c.key.name) (some c.value.bytes)
  ⟨r.2, if r.1 = 0 then update s.vars c.key (some c.value) else s.vars⟩

/-- A variable that is set gets a value for which there is room once the old one is gone. -/
def Fits (s : EnvSys) (c : SetCall) : Prop :=
  ∀ old ∈ s.vars c.key, s.env.buf.length + c.value.bytes.length ≤ procEnvBufSize + old.bytes.length

def answer (v : Option EnvValue) (size : U64) : Int × Option (List UInt8 × Int) :=
  match v with
  | none => (-ENOENT, none)
  | some v =>
    let n := min v.bytes.length (size.toNat - 1)
    (v.bytes.length, if 0 < size then some (v.bytes.take n, n) else none)

/-- `sys_getenv` answers as the map `vars` has it, and `count` is its size. -/
structure IsMap (s : EnvSys) : Prop where
  get : ∀ k size, size.toNat < 2 ^ 31 → sysGetenv s.env (some k.name) true size = answer (s.vars k) size
  count : ∃ keys : List EnvKey, keys.Nodup ∧ (∀ k, k ∈ keys ↔ s.vars k ≠ none) ∧ s.env.count = keys.length

structure Packs (s : EnvSys) (l : List (EnvKey × EnvValue)) : Prop where
  buf : s.env.buf = packEnv l
  nodup : (l.map Prod.fst).Nodup
  vars : ∀ k v, s.vars k = some v ↔ (k, v) ∈ l
  count : s.env.count = l.length

theorem Packs.find (h : s.Packs vars) (k : EnvKey) : (vars.find? fun x => x.1 = k).map snd = s.vars k := by
  cases hf : vars.find? fun x => x.1 = k with
  | none =>
    symm
    refine eq_none_iff_forall_ne_some.mpr fun v hv => ?_
    have := find?_eq_none.mp hf _ ((h.vars k v).mp hv)
    simp at this
  | some x =>
    have hx : x.1 = k := by simpa using find?_some hf
    exact ((h.vars k x.2).mpr (hx ▸ mem_of_find?_eq_some hf)).symm

theorem Packs.isMap (h : s.Packs vars) : s.IsMap where
  get k size hsize := by
    have hfind : findValue (k.name.take 127) s.env.buf.length s.env.buf = (s.vars k).map EnvValue.bytes := by
      rw [take_of_length_le k.length_le, h.buf, findValue_packEnv length_le_packEnv, ← h.find k, Option.map_map]
      rfl
    simp only [sysGetenv, hfind, Bool.not_true, Bool.false_eq_true, and_false, if_false]
    cases s.vars k with
    | none => rfl
    | some v =>
      have hroom : (size.setWidth 32).toInt = size.toNat := by
        rw [BitVec.toInt_eq_toNat_of_lt] <;> rw [BitVec.toNat_setWidth] <;> omega
      simp only [map_some, answer, hroom]
      split
      next hpos =>
        have hpos' : 0 < size.toNat := hpos
        have hcopy : (if (v.bytes.length : Int) < size.toNat - 1 then (v.bytes.length : Int) else size.toNat - 1) =
            (min v.bytes.length (size.toNat - 1) : Nat) := by
          split <;> omega
        rw [hcopy]
        rfl
      · rfl
  count := by
    refine ⟨vars.map fst, h.nodup, fun k => ?_, by rw [h.count, length_map]⟩
    rw [List.mem_map, ne_none_iff_exists']
    constructor
    · rintro ⟨x, hx, rfl⟩
      exact ⟨x.2, (h.vars x.1 x.2).mpr hx⟩
    · rintro ⟨v, hv⟩
      exact ⟨(k, v), (h.vars k v).mp hv, rfl⟩

theorem packEnv_length (hnodup : (vars.map fst).Nodup) (h : (k, v) ∈ vars) :
    (packEnv vars).length = (packEnv (vars.filter fun x => x.1 ≠ k)).length + (k.name.length + v.bytes.length + 2) := by
  have hentry : (envEntry k v).length = k.name.length + v.bytes.length + 2 := by
    simp only [envEntry, length_append, length_cons, length_nil]
    omega
  induction vars with
  | nil => exact absurd h not_mem_nil
  | cons x vars ih =>
    rw [map_cons, nodup_cons] at hnodup
    rcases mem_cons.mp h with rfl | h
    · have hkeep : vars.filter (fun x => x.1 ≠ k) = vars := by
        refine filter_eq_self.mpr fun x hx => ?_
        have : x.1 ≠ k := by
          rintro rfl
          exact hnodup.1 (mem_map.mpr ⟨x, hx, rfl⟩)
        simp [this]
      rw [filter_cons_of_neg (by simp), hkeep, packEnv_cons, length_append, hentry]
      omega
    · have hne : x.1 ≠ k := by
        rintro rfl
        exact hnodup.1 (mem_map.mpr ⟨_, h, rfl⟩)
      rw [filter_cons_of_pos (by simpa using hne), packEnv_cons, packEnv_cons, length_append, length_append,
        ih hnodup.2 h]
      omega

theorem Packs.set (h : s.Packs vars) : Packs
    ⟨⟨packEnv (vars.filter fun x => x.1 ≠ c.key) ++ envEntry c.key c.value,
      s.env.count - (vars.countP fun x => x.1 = c.key) + 1⟩, update s.vars c.key (some c.value)⟩
    (vars.filter (fun x => x.1 ≠ c.key) ++ [(c.key, c.value)]) where
  buf := by simp [packEnv]
  nodup := by
    have hsub := (vars.filter_sublist (p := fun x => x.1 ≠ c.key)).map fst
    rw [map_append, nodup_append]
    refine ⟨h.nodup.sublist hsub, by simp, fun k hk k' hk' => ?_⟩
    obtain ⟨x, hx, rfl⟩ := mem_map.mp hk
    have hne : x.1 ≠ c.key := by simpa using (mem_filter.mp hx).2
    obtain rfl : k' = c.key := by simpa using hk'
    exact hne
  vars k v := by
    rcases eq_or_ne k c.key with rfl | hne
    · simp [eq_comm]
    · simp [hne, h.vars k v]
  count := by
    have hlen := length_eq_countP_add_countP (fun x : EnvKey × EnvValue => decide (x.1 = c.key)) (l := vars)
    have hfilter : (vars.filter fun x => x.1 ≠ c.key).length =
        vars.countP fun x => ¬(decide (x.1 = c.key)) := by
      rw [countP_eq_length_filter]
      simp
    have hcount := h.count
    rw [length_append, hfilter, length_singleton]
    dsimp only
    omega

theorem Packs.step (h : s.Packs vars) (hfits : s.Fits c) : ∃ vars', (s.step c).Packs vars' := by
  have hset : sysSetenv s.env (some c.key.name) (some c.value.bytes) =
      if procEnvBufSize < (packEnv (vars.filter fun x => x.1 ≠ c.key)).length +
          (c.key.name.length + 1 + c.value.bytes.length + 1) then
        (-ENOMEM, ⟨packEnv (vars.filter fun x => x.1 ≠ c.key), s.env.count - (vars.countP fun x => x.1 = c.key)⟩)
      else (0, ⟨packEnv (vars.filter fun x => x.1 ≠ c.key) ++ envEntry c.key c.value,
        s.env.count - (vars.countP fun x => x.1 = c.key) + 1⟩) := by
    simp only [sysSetenv, take_of_length_le c.key.length_le, take_of_length_le c.value.length_le, h.buf,
      removeKey_packEnv length_le_packEnv]
    rfl
  simp only [EnvSys.step, hset]
  split
  next hfull =>
    -- The key is not set: its old entry would have left room.
    have hunset : ∀ x ∈ vars, x.1 ≠ c.key := by
      rintro ⟨k, old⟩ hx rfl
      have := packEnv_length h.nodup hx
      have := hfits old ((h.vars _ _).mpr hx)
      rw [h.buf] at this
      omega
    have hkeep : vars.filter (fun x => x.1 ≠ c.key) = vars := filter_eq_self.mpr (by simpa using hunset)
    have hcount : vars.countP (fun x => x.1 = c.key) = 0 := countP_eq_zero.mpr (by simpa using hunset)
    refine ⟨vars, ?_⟩
    rw [hkeep, hcount, if_neg (show ¬-ENOMEM = 0 by decide)]
    exact ⟨rfl, h.nodup, h.vars, by simpa using h.count⟩
  · exact ⟨_, h.set⟩

/-- In every run of `sys_setenv` in which a new value of a variable finds room, the environment is a map. -/
theorem environment_is_map (hcalls : Guarded step Fits {} calls) : (run step {} calls).IsMap := by
  have hstep : ∀ s c, (∃ vars, Packs s vars) → Fits s c → ∃ vars, Packs (step s c) vars := by
    rintro s c ⟨vars, h⟩ hfits
    exact h.step hfits
  obtain ⟨vars, h⟩ := hcalls.invariant hstep ⟨[], rfl, nodup_nil, by simp, rfl⟩
  exact h.isMap

def setLetter (c : UInt8) (n : Nat) (hc : c ≠ 0 ∧ c ≠ 61) (hn : n ≤ 255) : SetCall :=
  ⟨⟨[c], by simp, by simpa using hc, by simp⟩, ⟨List.replicate n 120, by simp, by simpa using hn⟩⟩

theorem environment_is_map_twice :
    (run step {} [setLetter 65 3 (by decide) (by decide), setLetter 65 4 (by decide) (by decide)]).IsMap := by
  refine environment_is_map ⟨fun _ h => (nomatch h), fun old h => ?_, trivial⟩
  obtain rfl : _ = old := Option.some.inj h
  decide

/-- The buffer is nearly full: setting `A` to a longer value fails, and `A` is gone. -/
theorem variable_lost :
    let s := run step {} [setLetter 65 200 (by decide) (by decide), setLetter 66 255 (by decide) (by decide),
      setLetter 67 255 (by decide) (by decide), setLetter 68 255 (by decide) (by decide)]
    let c := setLetter 65 255 (by decide) (by decide)
    (sysSetenv s.env (some c.key.name) (some c.value.bytes)).1 = -ENOMEM ∧
      sysGetenv (s.step c).env (some c.key.name) true 0 = (-ENOENT, none) ∧ ¬(s.step c).IsMap := by
  refine ⟨by decide +kernel, by decide +kernel, fun h => ?_⟩
  exact absurd (h.get (setLetter 65 255 (by decide) (by decide)).key 0 (by decide)) (by decide +kernel)

end EnvSys
end Limnx
