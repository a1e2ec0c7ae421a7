import Mathlib.Data.List.Basic

/-! # Interrupted code

A machine that makes calls and is interrupted at their ends. The interrupted code goes on a stack with its place and
result, or with its call if that is to be made again; a handler that leaves takes the top. -/

namespace Interrupts
variable {Place Result Call : Type}

/-- Interrupted code: where it goes on, the result of its call, and the call if it is made again. -/
structure Suspended (Place Result Call : Type) where
  place : Place
  result : Result
  rerun : Option Call
deriving DecidableEq

/-- Code is running, a call is being made, or a call is over. One that was over before an interruption is not known any
    more. -/
inductive Phase (Result Call : Type)
  | running
  | calling (call : Call)
  | ended (call : Option Call) (result : Result)
deriving DecidableEq

/-- `seen` is the result with which code was last resumed, until something else happens. -/
structure Machine (Place Result Call : Type) where
  place : Place
  stack : List (Suspended Place Result Call) := []
  phase : Phase Result Call := .running
  seen : Option Result := none
deriving DecidableEq

inductive Event (Place Result Call : Type)
  | move (place : Place)
  | call (call : Call)
  | done (result : Result)
  | interrupt (place : Place) (again : Bool)
  | resume
  | leave
deriving DecidableEq

namespace Machine

open List

variable (m : Machine Place Result Call)

def done (result : Result) : Machine Place Result Call :=
  match m.phase with
  | .calling call => { m with phase := .ended (some call) result }
  | _ => m

def interrupt (place : Place) (again : Bool) : Machine Place Result Call :=
  match m.phase with
  | .ended call result => { place, stack := ⟨m.place, result, if again then call else none⟩ :: m.stack }
  | _ => m

def resume : Machine Place Result Call :=
  match m.phase with
  | .ended _ result => { m with phase := .running, seen := some result }
  | _ => m

/-- A handler leaves: the interrupted code is back at the end of its call, or makes it again. Without one, leaving is a
    call that fails. -/
def leave (fail : Result) : Machine Place Result Call :=
  match m.stack with
  | [] => { m with phase := .ended none fail, seen := none }
  | ⟨place, _, some call⟩ :: stack => { place, stack, phase := .calling call }
  | ⟨place, result, none⟩ :: stack => { place, stack, phase := .ended none result }

def step (fail : Result) : Event Place Result Call → Machine Place Result Call
  | .move place => { m with place, seen := none }
  | .call call => { m with phase := .calling call, seen := none }
  | .done result => m.done result
  | .interrupt place again => m.interrupt place again
  | .resume => m.resume
  | .leave => m.leave fail

def run (fail : Result) (evs : List (Event Place Result Call)) : Machine Place Result Call := evs.foldl (step · fail) m

variable {fail : Result} {m} {evs : List (Event Place Result Call)}
  {stack : List (Suspended Place Result Call)} {result : Result}

theorem run_append (evs' : List (Event Place Result Call)) :
    m.run fail (evs ++ evs') = (m.run fail evs).run fail evs' := foldl_append ..

theorem leave_stack : (m.leave fail).stack = m.stack.tail := by
  unfold leave
  split
  next hnil =>
    rw [hnil]
    rfl
  next hcons =>
    rw [hcons]
    rfl
  next hcons =>
    rw [hcons]
    rfl

theorem step_stack (e : Event Place Result Call) :
    (m.step fail e).stack = m.stack ∨ (∃ i, (m.step fail e).stack = i :: m.stack) ∨
      (m.step fail e).stack = m.stack.tail := by
  cases e with
  | move | call => exact .inl rfl
  | done result =>
    left
    change (m.done result).stack = m.stack
    unfold done
    split <;> rfl
  | interrupt place again =>
    change (m.interrupt place again).stack = _ ∨ (∃ i, (m.interrupt place again).stack = _) ∨ _
    unfold interrupt
    split
    · exact .inr (.inl ⟨_, rfl⟩)
    · exact .inl rfl
  | resume =>
    left
    change m.resume.stack = m.stack
    unfold resume
    split <;> rfl
  | leave => exact .inr (.inr leave_stack)

/-- What lies at the bottom of the stack stays there while the stack does not get shorter than that. -/
theorem run_stack {base : List (Suspended Place Result Call)}
    (h : ∀ pre, pre <+: evs → base.length ≤ (m.run fail pre).stack.length) (hm : base <:+ m.stack) :
    base <:+ (m.run fail evs).stack := by
  induction evs generalizing m with
  | nil => exact hm
  | cons e evs ih =>
    refine ih (fun pre hpre => h (e :: pre) (prefix_cons_inj e |>.mpr hpre)) ?_
    have hlen : base.length ≤ (m.step fail e).stack.length := h [e] ⟨evs, rfl⟩
    have hstack : (m.step fail e).stack = m.stack ∨ (∃ i, (m.step fail e).stack = i :: m.stack) ∨
      (m.step fail e).stack = m.stack.tail := step_stack e
    obtain hsame | ⟨i, hpush⟩ | hpop := hstack
    · rw [hsame]
      exact hm
    · rw [hpush]
      exact hm.trans (suffix_cons i _)
    rw [hpop] at hlen ⊢
    cases hst : m.stack with
    | nil =>
      rw [hst] at hm
      exact hm
    | cons i rest =>
      rw [hst] at hm hlen
      rcases suffix_cons_iff.mp hm with rfl | hrest
      · exact absurd hlen (Nat.not_succ_le_self _)
      · exact hrest

/-- When the handler that interrupted a call leaves, and with it all that were entered in between, the code is again at
    its place, at the end of the call with its result, or making it again. -/
theorem leave_resumes {call : Option Call} (hm : m.phase = .ended call result) (place : Place) (again : Bool)
    (habove : ∀ pre, pre <+: evs → m.stack.length < ((m.interrupt place again).run fail pre).stack.length)
    (hlast : ((m.interrupt place again).run fail evs).stack.length = m.stack.length + 1) :
    let t := ((m.interrupt place again).run fail evs).leave fail
    t.place = m.place ∧ t.stack = m.stack ∧
      t.phase = match (if again then call else none) with
        | some call => .calling call
        | none => .ended none result := by
  have hpush : (m.interrupt place again).stack = ⟨m.place, result, if again then call else none⟩ :: m.stack := by
    rw [interrupt, hm]
  have hbase : (⟨m.place, result, if again then call else none⟩ :: m.stack) <:+
      ((m.interrupt place again).run fail evs).stack :=
    run_stack habove (hpush ▸ suffix_refl _)
  have hstack := (hbase.eq_of_length (by rw [hlast]; rfl)).symm
  intro t
  unfold t leave
  rw [hstack]
  cases hrerun : (if again then call else none) with
  | none | some c => exact ⟨rfl, rfl, rfl⟩

end Machine

end Interrupts
