import Mathlib.Algebra.Order.Group.Abs
import Mathlib.Algebra.Order.Group.MinMax
import Mathlib.Data.Set.Basic

/-!
# Weighted truth values

A truth value and a positive weight, carried together by one signed value: the
sign tells the truth and the magnitude is the weight. The Boolean connectives
can be computed on such values with comparisons only, and each of them passes
on the weight of one of its arguments.
-/
namespace SignedTruth

variable {α : Type} [AddCommGroup α] [LinearOrder α]

/-- `value` carries the truth value, with a positive weight among `weights`. -/
def Carries (weights : Set α) (truth : Bool) (value : α) : Prop :=
  ∃ weight ∈ weights, 0 < weight ∧ value = if truth then weight else -weight

namespace Carries

variable {weights more : Set α} {truth a b : Bool} {value v w : α}

theorem of_weight {weight : α} (member : weight ∈ weights) (positive : 0 < weight) :
    Carries weights truth (if truth then weight else -weight) :=
  ⟨weight, member, positive, rfl⟩

theorem mono (carries : Carries weights truth value) (sub : weights ⊆ more) :
    Carries more truth value := by
  obtain ⟨weight, member, positive, rfl⟩ := carries
  exact ⟨weight, sub member, positive, rfl⟩

theorem neg (carries : Carries weights truth value) : Carries weights (!truth) (-value) := by
  obtain ⟨weight, member, positive, rfl⟩ := carries
  refine ⟨weight, member, positive, ?_⟩
  cases truth <;> simp

section Ordered

variable [IsOrderedAddMonoid α]

theorem pos_iff (carries : Carries weights truth value) : 0 < value ↔ truth = true := by
  obtain ⟨weight, -, positive, rfl⟩ := carries
  cases truth with
  | true => simpa using positive
  | false => simpa using positive.le

theorem neg_iff (carries : Carries weights truth value) : value < 0 ↔ truth = false := by
  obtain ⟨weight, -, positive, rfl⟩ := carries
  cases truth with
  | true => simpa using positive.le
  | false => simpa using positive

theorem ne_zero (carries : Carries weights truth value) : value ≠ 0 := by
  rintro rfl
  cases truth with
  | true => exact lt_irrefl 0 (carries.pos_iff.mpr rfl)
  | false => exact lt_irrefl 0 (carries.neg_iff.mpr rfl)

theorem abs_mem (carries : Carries weights truth value) : |value| ∈ weights := by
  obtain ⟨weight, member, positive, rfl⟩ := carries
  cases truth with
  | true => simpa [abs_of_pos positive] using member
  | false => simpa [abs_of_pos positive] using member

/-- The larger of two values is true when either is. -/
theorem max (left : Carries weights a v) (right : Carries weights b w) :
    Carries weights (a || b) (max v w) := by
  -- the larger value is one of the two, and a false value is below a true one
  rcases le_total v w with below | above
  · rw [max_eq_right below]
    have implied : a = true → b = true := fun holds =>
      right.pos_iff.mp ((left.pos_iff.mpr holds).trans_le below)
    have same : (a || b) = b := by cases a <;> cases b <;> simp_all
    rwa [same]
  · rw [max_eq_left above]
    have implied : b = true → a = true := fun holds =>
      left.pos_iff.mp ((right.pos_iff.mpr holds).trans_le above)
    have same : (a || b) = a := by cases a <;> cases b <;> simp_all
    rwa [same]

/-- The smaller of two values is true when both are. -/
theorem min (left : Carries weights a v) (right : Carries weights b w) :
    Carries weights (a && b) (min v w) := by
  -- the least value is the negation of the largest negated one
  have dual := (left.neg.max right.neg).neg
  rwa [max_neg_neg, neg_neg, ← Bool.not_and, Bool.not_not] at dual

end Ordered

end Carries

end SignedTruth
