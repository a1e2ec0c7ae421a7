import Mathlib.Data.List.FinRange

/-! # The vector store (`user/libc/vecstore.c`)

A vector is copied as a whole, and the similarity of a slot to the query is a parameter. -/

namespace Limnx
open Function

structure VecEntry where
  used : Bool := false
  key : List UInt8 := []

structure VecStore (V : Type) where
  count : Nat := 0
  entries : Fin 64 → VecEntry := fun _ => {}
  vectors : Fin 64 → V

namespace VecStore
variable {V S : Type}

def find (vs : VecStore V) (key : List UInt8) : Option (Fin 64) :=
  (List.finRange 64).find? fun i => (vs.entries i).used && (vs.entries i).key == key

/-- A key is stored cut to `VECSTORE_MAX_KEY` bytes. -/
def store (vs : VecStore V) (key : List UInt8) (vec : V) : Bool × VecStore V :=
  match vs.find key with
  | some i => (true, { vs with vectors := update vs.vectors i vec })
  | none =>
    match (List.finRange 64).find? fun i => !(vs.entries i).used with
    | some i => (true, ⟨vs.count + 1, update vs.entries i ⟨true, key.take 31⟩, update vs.vectors i vec⟩)
    | none => (false, vs)

def get (vs : VecStore V) (key : List UInt8) : Option V := (vs.find key).map vs.vectors

def delete [Zero V] (vs : VecStore V) (key : List UInt8) : Bool × VecStore V :=
  match vs.find key with
  | some i => (true, ⟨vs.count - 1, update vs.entries i {}, update vs.vectors i 0⟩)
  | none => (false, vs)

section
variable [LinearOrder S] (vs : VecStore V) (sim : Fin 64 → S)

/-- The best score with its slot, and whether there is one. -/
def queryRound (r : (S × Fin 64) × Bool) (i : Fin 64) : (S × Fin 64) × Bool :=
  if !(vs.entries i).used then r else if r.1.1 < sim i then ((sim i, i), true) else r

def query (lowest : S) : Option (S × Fin 64) :=
  let (best, found) := (List.finRange 64).foldl (vs.queryRound sim) ((lowest, 0), false)
  if found then some best else none

/-- The loop that moves entries up, from the last one on. -/
def place (x : S × Fin 64) : List (S × Fin 64) → List (S × Fin 64)
  | [] => [x]
  | y :: out => if y.1 < x.1 then y :: place x out else x :: y :: out

/-- A round for slot `i`. The arrays are the list of the entries found, the last one first. -/
def topkRound (k : Nat) (out : List (S × Fin 64)) (i : Fin 64) : List (S × Fin 64) :=
  if !(vs.entries i).used then out
  else if out.length < k then place (sim i, i) out
  else if out.head?.any (·.1 < sim i) then place (sim i, i) out.tail
  else out

def queryTopk (k : Nat) : List (S × Fin 64) := ((List.finRange 64).foldl (vs.topkRound sim k) []).reverse

end

end VecStore

end Limnx
