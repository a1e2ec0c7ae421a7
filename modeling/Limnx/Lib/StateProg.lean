import Mathlib.Logic.Basic

/-! # Programs over a state

A `StateProg σ α` reads and changes a state and gives an answer. `Ends m s Q`: started in `s`, `m` ends in an answer and
a state that `Q` relates. -/

def StateProg (σ α : Type) : Type := σ → α × σ

namespace StateProg
variable {σ α β : Type}

instance : Monad (StateProg σ) where
  pure a := fun s => (a, s)
  bind m f := fun s => f (m s).1 (m s).2

def gets (f : σ → α) : StateProg σ α := fun s => (f s, s)

def modify (f : σ → σ) : StateProg σ Unit := fun s => ((), f s)

def Ends (m : StateProg σ α) (s : σ) (Q : α → σ → Prop) : Prop := Q (m s).1 (m s).2

variable {m : StateProg σ α} {s : σ} {f : α → StateProg σ β} {Q : α → σ → Prop}

theorem Ends.mono {Q R : α → σ → Prop} (h : Ends m s Q) (hQR : ∀ a t, Q a t → R a t) : Ends m s R := hQR _ _ h

theorem Ends.and {Q R : α → σ → Prop} (h : Ends m s Q) (h' : Ends m s R) : Ends m s fun a t => Q a t ∧ R a t := ⟨h, h'⟩

theorem Ends.run (h : Ends m s Q) : Q (m s).1 (m s).2 := h

theorem ends_self : Ends m s fun _ t => t = (m s).2 := rfl

@[simp] theorem ends_pure {a : α} : Ends (pure a : StateProg σ α) s Q ↔ Q a s := Iff.rfl

@[simp] theorem ends_bind {Q : β → σ → Prop} : Ends (m >>= f) s Q ↔ Ends m s fun a t => Ends (f a) t Q := Iff.rfl

/-- A program is followed by another: what is known of the end of the first is all that the second needs. -/
theorem Ends.bind {R : β → σ → Prop} (h : Ends m s Q)
    (hf : ∀ a t, Q a t → Ends (f a) t R) : Ends (m >>= f) s R := hf _ _ h

@[simp] theorem ends_gets {f : σ → α} : Ends (gets f) s Q ↔ Q (f s) s := Iff.rfl

@[simp] theorem ends_modify {f : σ → σ} {Q : Unit → σ → Prop} : Ends (modify f) s Q ↔ Q () (f s) := Iff.rfl

theorem pure_run (a : α) : (pure a : StateProg σ α) s = (a, s) := rfl

variable {γ : Type} {g : σ → γ}

/-- The program does not change what `g` sees of the state. -/
def Stable (g : σ → γ) (m : StateProg σ α) : Prop := ∀ s, g (m s).2 = g s

theorem Stable.pure {a : α} : Stable g (Pure.pure a : StateProg σ α) := fun _ => rfl

theorem Stable.bind (hm : Stable g m) (hf : ∀ a, Stable g (f a)) : Stable g (m >>= f) := fun s => (hf _ _).trans (hm s)

theorem Stable.ends_bind {Q : β → σ → Prop} (h : Stable g m)
    (hf : ∀ a t, g t = g s → Ends (f a) t Q) : Ends (m >>= f) s Q := hf _ _ (h s)

theorem Stable.ends (h : Stable g m) : Ends m s fun _ t => g t = g s := h s

theorem Stable.gets {f : σ → α} : Stable g (StateProg.gets f) := fun _ => rfl

theorem Stable.modify {f : σ → σ} (h : ∀ s, g (f s) = g s) : Stable g (StateProg.modify f) := h

theorem Stable.ite {c : Prop} [Decidable c] {m' : StateProg σ α} (h : Stable g m) (h' : Stable g m') :
    Stable g (if c then m else m') := by
  split
  · exact h
  · exact h'

end StateProg
