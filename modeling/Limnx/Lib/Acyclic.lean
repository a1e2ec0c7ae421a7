import Mathlib.Data.Fintype.Card
import Mathlib.Order.WellFounded

/-! # Acyclic relations

An edge can be added to an acyclic relation exactly where its end does not lead to its start, and of finitely many
points one leads to no other. -/

namespace Acyclic

open Relation

variable {α ι : Type*} {r r' : α → α → Prop} {a b x y : α}

def IsAcyclic (r : α → α → Prop) : Prop := ∀ a, ¬ TransGen r a a

theorem IsAcyclic.mono (h : IsAcyclic r) (hle : ∀ x y, r' x y → r x y) : IsAcyclic r' :=
  fun a ha => h a (TransGen.mono hle _ _ ha)

def AddsEdge (r r' : α → α → Prop) (a b : α) : Prop := ∀ x y, r' x y ↔ r x y ∨ (x = a ∧ y = b)

theorem AddsEdge.path (h : AddsEdge r r' a b) (hp : TransGen r' x y) :
    TransGen r x y ∨ (ReflTransGen r x a ∧ ReflTransGen r b y) := by
  induction hp with
  | single hxy =>
    rcases (h _ _).mp hxy with hxy | ⟨rfl, rfl⟩
    · exact .inl (.single hxy)
    · exact .inr ⟨.refl, .refl⟩
  | tail _ hyz ih =>
    rcases (h _ _).mp hyz with hyz | ⟨rfl, rfl⟩
    · rcases ih with ih | ⟨hxa, hby⟩
      · exact .inl (ih.tail hyz)
      · exact .inr ⟨hxa, hby.tail hyz⟩
    · rcases ih with ih | ⟨hxa, -⟩
      · exact .inr ⟨ih.to_reflTransGen, .refl⟩
      · exact .inr ⟨hxa, .refl⟩

theorem AddsEdge.acyclic_iff (h : AddsEdge r r' a b) (hr : IsAcyclic r) : IsAcyclic r' ↔ ¬ ReflTransGen r b a := by
  constructor
  · intro hr' hba
    have hle : ∀ x y, r x y → r' x y := fun x y hxy => (h x y).mpr (.inl hxy)
    exact hr' a (.head' ((h a b).mpr (.inr ⟨rfl, rfl⟩)) (ReflTransGen.mono hle _ _ hba))
  · intro hba x hx
    rcases h.path hx with hx | ⟨hxa, hbx⟩
    · exact hr x hx
    · exact hba (hbx.trans hxa)

theorem IsAcyclic.exists_last [Finite ι] (h : IsAcyclic r) (f : ι → α) {p : ι → Prop} (hp : ∃ i, p i) :
    ∃ i, p i ∧ ∀ j, p j → ¬ r (f i) (f j) := by
  let later : ι → ι → Prop := fun j i => TransGen r (f i) (f j)
  have : Std.Irrefl later := ⟨fun i => h (f i)⟩
  have hwf : WellFounded later := Finite.wellFounded_of_trans_of_irrefl later
  obtain ⟨i, hi, hmin⟩ := hwf.has_min {i | p i} hp
  exact ⟨i, hi, fun j hj hij => hmin j hj (.single hij)⟩

end Acyclic
