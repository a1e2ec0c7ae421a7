import Mathlib.Logic.Relation
import Mathlib.Logic.Function.Basic

/-! # Trees given by parent pointers

`Up parent a b` says that the way up from `a` meets `b`. -/

open Relation Function ReflTransGen

namespace ParentTree
variable {α : Type} {parent parent' : α → Option α} {a b c i p root : α}

/-- `Up parent a b`: `b` is `a` or above it. -/
def Up (parent : α → Option α) : α → α → Prop := Relation.ReflTransGen fun a b => parent a = some b

theorem Up.refl (parent : α → Option α) (a : α) : Up parent a a := ReflTransGen.refl

theorem Up.step (h : parent a = some b) (hb : Up parent b c) : Up parent a c := head h hb

theorem Up.trans (h : Up parent a b) (h' : Up parent b c) : Up parent a c := ReflTransGen.trans h h'

theorem Up.mem {S : α → Prop} (h : Up parent a b) (ha : S a) (hS : ∀ x y, S x → parent x = some y → S y) : S b := by
  induction h with
  | refl => exact ha
  | tail _ hxy ih => exact hS _ _ ih hxy

theorem Up.of_closed {S : α → Prop} (h : Up parent a b) (ha : S a) (hS : ∀ x y, S x → parent x = some y → S y)
    (hkeep : ∀ x, S x → parent' x = parent x) : Up parent' a b := by
  induction h with
  | refl => exact .refl parent' a
  | tail hay hxy ih => exact ih.trans (.step ((hkeep _ (Up.mem hay ha hS)).trans hxy) (.refl parent' _))

theorem Up.reparent [DecidableEq α] (h : Up parent a root) (hp : Up parent p root) (hnot : ¬Up parent p i) :
    Up (update parent i (some p)) a root := by
  -- the way up of `p` does not meet the node
  have hkeep : ∀ x, ¬Up parent x i → update parent i (some p) x = parent x := fun x hx => by
    refine update_of_ne ?_ _ _
    rintro rfl
    exact hx (.refl parent x)
  have hp' : Up (update parent i (some p)) p root := hp.of_closed hnot (fun x y hx hxy hy => hx (.step hxy hy)) hkeep
  induction h using head_induction_on with
  | refl => exact .refl _ root
  | @head x y hab _ ih =>
    obtain rfl | hx := eq_or_ne x i
    · exact .step (update_self x (some p) parent) hp'
    · exact .step ((update_of_ne hx _ _).trans hab) ih

end ParentTree
