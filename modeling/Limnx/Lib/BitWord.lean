import Mathlib.Data.Nat.Notation

/-! # Words as sets of bits

`Within a s`: every bit of `a` is a bit of `s`, tested as programs test it, by `a & ~s`. It is the subset
order of the bits (`within_iff`). -/

open BitVec

namespace BitWord
variable {w : ℕ} {a b s : BitVec w}

/-- Every bit of `a` is set in `s`. -/
def Within (a s : BitVec w) : Prop := a &&& ~~~s = 0

instance : Decidable (Within a s) := inferInstanceAs (Decidable (_ = _))

theorem within_iff : Within a s ↔ ∀ i, a.getLsbD i → s.getLsbD i := by
  constructor
  · intro h i hi
    have hbit : (a &&& ~~~s).getLsbD i = false := by simp [show a &&& ~~~s = 0 from h]
    have hlt := lt_of_getLsbD hi
    simpa [hi, hlt] using hbit
  · intro h
    refine eq_of_getLsbD_eq fun i hi => ?_
    have := h i
    simp only [getLsbD_and, getLsbD_not, hi, decide_true, Bool.true_and, ofNat_eq_ofNat,
      getLsbD_zero, Bool.and_eq_false_iff, Bool.not_eq_false']
    cases hb : a.getLsbD i with
    | false => exact .inl rfl
    | true => exact .inr (this hb)

@[simp] theorem Within.refl (a : BitVec w) : Within a a := within_iff.mpr fun _ => id

@[simp] theorem Within.zero (s : BitVec w) : Within 0 s := within_iff.mpr fun i hi => by simp at hi

theorem Within.trans (hab : Within a b) (hbs : Within b s) : Within a s :=
  within_iff.mpr fun i hi => within_iff.mp hbs i (within_iff.mp hab i hi)

theorem within_setWidth {v : ℕ} {c : BitVec v} (hw : w ≤ v) (h : c &&& (~~~s).setWidth v = 0) :
    Within (c.setWidth w) s := by
  refine within_iff.mpr fun i hi => ?_
  have hlt := lt_of_getLsbD hi
  have hbit : (c &&& (~~~s).setWidth v).getLsbD i = false := by simp [h]
  simp only [getLsbD_setWidth, hlt, decide_true, Bool.true_and] at hi
  simpa [hi, hlt, Nat.lt_of_lt_of_le hlt hw] using hbit

end BitWord
