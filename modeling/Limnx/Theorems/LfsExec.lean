import Limnx.LimnFs

/-! `exec` runs an operation on the statics and an array of blocks in place of the cached device; `exec_foldlM` is the
    rule for the loops. -/

open List

namespace Limnx
open Function

structure Fs where
  lfs : Lfs
  mem : Disk

def exec {ρ ω : Bool} {α : Type} (p : LfsM ρ ω α) (σ : Fs) : α × Fs :=
  let r := BlockProg.run Handler.plain (p.run σ.lfs) σ.mem
  (r.1.1, ⟨r.1.2, r.2⟩)

section Exec
variable {ρ ω : Bool} {α β γ ι : Type} {σ : Fs}

@[simp] theorem exec_pure (a : α) : exec (pure a : LfsM ρ ω α) σ = (a, σ) := rfl

theorem exec_bind (p : LfsM ρ ω α) (f : α → LfsM ρ ω β) : exec (p >>= f) σ = exec (f (exec p σ).1) (exec p σ).2 := by
  simp only [exec, StateT.run_bind, BlockProg.run_bind]

@[simp] theorem exec_get_bind (f : Lfs → LfsM ρ ω β) : exec (get >>= f) σ = exec (f σ.lfs) σ := exec_bind get f

@[simp] theorem exec_modify (g : Lfs → Lfs) :
    exec (modify g : LfsM ρ ω PUnit) σ = (⟨⟩, { σ with lfs := g σ.lfs }) := rfl

@[simp] theorem exec_modify_bind (g : Lfs → Lfs) (f : PUnit → LfsM ρ ω β) :
    exec (modify g >>= f) σ = exec (f ⟨⟩) { σ with lfs := g σ.lfs } := exec_bind (modify g) f

@[simp] theorem exec_read_bind (b : Nat) (f : Option Block → LfsM ρ ω β) :
    exec (bcacheRead b >>= f) σ = exec (f (some (σ.mem b))) σ := exec_bind (bcacheRead b) f

@[simp] theorem exec_write_bind (b : Nat) (d : Block) (f : Bool → LfsM ρ true β) :
    exec (bcacheWrite b d >>= f) σ = exec (f true) { σ with mem := update σ.mem b d } := exec_bind (bcacheWrite b d) f

@[simp] theorem exec_ite (c : Prop) [Decidable c] (p q : LfsM ρ ω α) :
    exec (if c then p else q) σ = if c then exec p σ else exec q σ := by
  split <;> rfl

theorem exec_bind_of {p : LfsM ρ ω α} {a : α} {σ' : Fs} (h : exec p σ = (a, σ')) (f : α → LfsM ρ ω β) :
    exec (p >>= f) σ = exec (f a) σ' := by
  rw [exec_bind, h]

theorem exec_ite_bind (c : Prop) [Decidable c] (p q : LfsM ρ ω α) (f : α → LfsM ρ ω β) :
    exec (if c then p >>= f else q >>= f) σ = exec ((if c then p else q) >>= f) σ := by
  split <;> rfl

theorem exec_foldlM {f : γ → ι → LfsM ρ ω γ} (inv : List ι → γ → Fs → Prop)
    (hstep : ∀ i l a σ, inv (i :: l) a σ → inv l (exec (f a i) σ).1 (exec (f a i) σ).2) :
    ∀ {l : List ι} {a : γ} {σ : Fs}, inv l a σ → inv [] (exec (l.foldlM f a) σ).1 (exec (l.foldlM f a) σ).2
  | [], _, _, h => h
  | i :: l, a, σ, h => by
    rw [foldlM_cons, exec_bind]
    exact exec_foldlM inv hstep (hstep i l a σ h)

theorem exec_forM {f : ι → LfsM ρ ω PUnit} (inv : List ι → Fs → Prop)
    (hstep : ∀ i l σ, inv (i :: l) σ → inv l (exec (f i) σ).2) :
    ∀ {l : List ι} {σ : Fs}, inv l σ → inv [] (exec (l.forM f) σ).2
  | [], _, h => h
  | i :: l, σ, h => by
    show inv [] (exec (f i >>= fun _ => l.forM f) σ).2
    rw [exec_bind]
    exact exec_forM inv hstep (hstep i l σ h)

theorem exec_foldlM_range {n : Nat} {f : γ → Nat → LfsM ρ ω γ} (inv : Nat → γ → Fs → Prop) {a : γ}
    (h0 : inv 0 a σ) (hstep : ∀ i a σ, i < n → inv i a σ → inv (i + 1) (exec (f a i) σ).1 (exec (f a i) σ).2) :
    inv n (exec ((range n).foldlM f a) σ).1 (exec ((range n).foldlM f a) σ).2 := by
  -- what is left to do after `i` rounds is `i .. n - 1`
  let inv' : List Nat → γ → Fs → Prop := fun l a σ => ∃ i, l = range' i (n - i) ∧ i ≤ n ∧ inv i a σ
  have hstep' : ∀ j l a σ, inv' (j :: l) a σ → inv' l (exec (f a j) σ).1 (exec (f a j) σ).2 := by
    rintro j l a σ ⟨i, hl, hi, h⟩
    have hlt : i < n := by
      by_contra hge
      rw [show n - i = 0 by omega] at hl
      cases hl
    rw [show n - i = (n - (i + 1)) + 1 by omega, range'_succ] at hl
    obtain ⟨rfl, rfl⟩ := cons.inj hl
    exact ⟨j + 1, rfl, hlt, hstep j a σ hlt h⟩
  have hstart : inv' (range n) a σ := ⟨0, by simp [range_eq_range'], Nat.zero_le n, h0⟩
  obtain ⟨i, hl, hi, h⟩ := exec_foldlM inv' hstep' hstart
  have hlen := congrArg length hl
  simp only [length_nil, length_range'] at hlen
  rwa [show i = n by omega] at h

theorem exec_allM_bcacheWrite {b : ι → Nat} {d : ι → Block} : ∀ {l : List ι} {σ : Fs},
    exec (l.allM fun i => (bcacheWrite (b i) (d i) : LfsM ρ true _)) σ =
      (true, { σ with mem := l.foldl (fun m i => update m (b i) (d i)) σ.mem })
  | [], _ => rfl
  | i :: l, σ => by
    rw [allM, exec_write_bind]
    exact exec_allM_bcacheWrite

end Exec

end Limnx
