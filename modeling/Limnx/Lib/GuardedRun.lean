import Mathlib.Data.List.Basic

/-! # Runs of a state machine under a guard

A run is a list of operations. An invariant that a guarded step keeps holds in every state that a guarded run reaches
(`Guarded.invariant`). -/

open List

namespace GuardedRun
variable {σ ι : Type} (step : σ → ι → σ) (ok : σ → ι → Prop)

def run (s : σ) (ops : List ι) : σ := ops.foldl step s

/-- Every operation of `ops` meets `ok` in the state in which it is taken. -/
def Guarded : σ → List ι → Prop
  | _, [] => True
  | s, op :: ops => ok s op ∧ Guarded (step s op) ops

instance decidableGuarded [∀ s op, Decidable (ok s op)] : ∀ s ops, Decidable (Guarded step ok s ops)
  | _, [] => isTrue trivial
  | s, op :: ops =>
    have := decidableGuarded (step s op) ops
    inferInstanceAs (Decidable (ok s op ∧ Guarded step ok (step s op) ops))

variable {step ok} {s : σ} {op : ι} {ops ops' : List ι} {inv : σ → Prop}

@[simp] theorem run_nil : run step s [] = s := rfl

@[simp] theorem run_cons : run step s (op :: ops) = run step (step s op) ops := rfl

theorem run_append : run step s (ops ++ ops') = run step (run step s ops) ops' := foldl_append ..

@[simp] theorem guarded_nil : Guarded step ok s [] := trivial

@[simp] theorem guarded_cons : Guarded step ok s (op :: ops) ↔ ok s op ∧ Guarded step ok (step s op) ops := Iff.rfl

theorem guarded_append :
    Guarded step ok s (ops ++ ops') ↔ Guarded step ok s ops ∧ Guarded step ok (run step s ops) ops' := by
  induction ops generalizing s with
  | nil => simp
  | cons op ops ih => simp [ih, and_assoc]

theorem run_invariant (hstep : ∀ s op, inv s → inv (step s op)) (hs : inv s) : inv (run step s ops) := by
  induction ops generalizing s with
  | nil => exact hs
  | cons op ops ih => exact ih (hstep s op hs)

theorem Guarded.invariant (hstep : ∀ s op, inv s → ok s op → inv (step s op)) (hs : inv s)
    (hops : Guarded step ok s ops) : inv (run step s ops) := by
  induction ops generalizing s with
  | nil => exact hs
  | cons op ops ih => exact ih (hstep s op hs hops.1) hops.2

/-- If a step to a state with `P` meets the guard, then `P` holds after every part of a run exactly if it is guarded. -/
theorem prefixes_iff_guarded {P : σ → Prop} (hP : ∀ s, inv s → P s) (hok : ∀ s op, inv s → P (step s op) → ok s op)
    (hstep : ∀ s op, inv s → ok s op → inv (step s op)) (hs : inv s) :
    (∀ pre, pre <+: ops → P (run step s pre)) ↔ Guarded step ok s ops := by
  constructor
  · intro h
    induction ops generalizing s with
    | nil => exact trivial
    | cons op ops ih =>
      have hop := hok s op hs (h [op] ⟨ops, rfl⟩)
      refine ⟨hop, ih (hstep s op hs hop) fun pre hpre => ?_⟩
      exact h (op :: pre) (prefix_cons_inj op |>.mpr hpre)
  · rintro hops pre ⟨rest, rfl⟩
    exact hP _ ((guarded_append.mp hops).1.invariant hstep hs)

/-- Two guards that agree wherever an invariant holds agree on whole runs. -/
theorem guarded_congr {ok' : σ → ι → Prop} (hiff : ∀ s op, inv s → (ok' s op ↔ ok s op))
    (hstep : ∀ s op, inv s → ok s op → inv (step s op)) (hs : inv s) :
    Guarded step ok' s ops ↔ Guarded step ok s ops := by
  induction ops generalizing s with
  | nil => exact Iff.rfl
  | cons op ops ih =>
    rw [guarded_cons, guarded_cons, hiff s op hs]
    exact and_congr_right fun hop => ih (hstep s op hs hop)

theorem Guarded.and_forall {P : ι → Prop} (hP : ∀ op ∈ ops, P op) (hops : Guarded step ok s ops) :
    Guarded step (fun s op => P op ∧ ok s op) s ops := by
  induction ops generalizing s with
  | nil => exact trivial
  | cons op ops ih =>
    exact ⟨⟨hP op mem_cons_self, hops.1⟩, ih (fun o ho => hP o (mem_cons_of_mem _ ho)) hops.2⟩

end GuardedRun
