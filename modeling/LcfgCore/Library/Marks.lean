import Mathlib.Data.List.Sort
import Mathlib.Data.List.Dedup

/-!
# Sets of small numbers

A set of numbers below a bound: an array with a mark for each number, and how many of
them are marked. Its numbers are read off the array in ascending order.

## Main results

`mem_numbers_markAll`, `pairwise_numbers`, `length_numbers`: what is read off the marks.
-/

structure MarkSet (bound : Nat) where
  marked : List Bool
  count : Nat
  size : marked.length = bound
  counted : count = marked.countP id

namespace MarkSet

section Operations

variable {bound : Nat}

def unmarked (bound : Nat) : MarkSet bound where
  marked := List.replicate bound false
  count := 0
  size := List.length_replicate
  counted := (List.countP_eq_zero.mpr fun mark member => by
    rw [List.eq_of_mem_replicate member]
    decide).symm

/-- One number more; what is out of bounds or has its mark already is passed over. -/
def mark (m : MarkSet bound) (i : Nat) : MarkSet bound :=
  if fresh : m.marked[i]? = some false then
    { marked := m.marked.set i true
      count := m.count + 1
      size := List.length_set.trans m.size
      counted := by
        obtain ⟨below, value⟩ := List.getElem?_eq_some_iff.mp fresh
        rw [m.counted, List.countP_set below, value]
        rfl }
  else m

def markAll (m : MarkSet bound) (numbers : List Nat) : MarkSet bound := numbers.foldl mark m

/-- The numbers with a mark. -/
def numbers (m : MarkSet bound) : List Nat := m.marked.findIdxs id

end Operations

variable {bound : Nat} {m : MarkSet bound} {i j : Nat}

theorem mem_numbers : i ∈ numbers m ↔ m.marked[i]? = some true := by
  rw [numbers, List.mem_findIdxs_iff_exists_getElem_pos, List.getElem?_eq_some_iff]
  rfl

theorem numbers_unmarked : numbers (unmarked bound) = [] := by
  apply List.findIdxs_eq_nil_iff.mpr
  intro mark member
  exact List.eq_of_mem_replicate member

theorem pairwise_numbers : (numbers m).Pairwise (· < ·) := List.pairwise_findIdxs

/-- The count is that of the numbers. -/
theorem length_numbers : (numbers m).length = m.count := by
  rw [numbers, List.length_findIdxs, m.counted]

theorem mem_numbers_mark (below : i < bound) : j ∈ numbers (mark m i) ↔ j = i ∨ j ∈ numbers m := by
  rw [mem_numbers, mem_numbers, mark]
  have inside : i < m.marked.length := below.trans_eq m.size.symm
  split
  case isTrue fresh =>
    by_cases same : j = i
    · subst same
      simp [inside]
    · rw [List.getElem?_set_ne (Ne.symm same)]
      simp [same]
  case isFalse stale =>
    -- the number has its mark
    have here : m.marked[i]? = some true := by
      rw [List.getElem?_eq_getElem inside] at stale ⊢
      simpa using stale
    constructor
    · exact Or.inr
    · rintro (rfl | there)
      · exact here
      · exact there

theorem mem_numbers_markAll {marks : List Nat} (below : ∀ i ∈ marks, i < bound) :
    j ∈ numbers (markAll m marks) ↔ j ∈ marks ∨ j ∈ numbers m := by
  induction marks generalizing m with
  | nil => simp [markAll]
  | cons i rest ih =>
    have step := ih (m := mark m i) fun k member => below k (List.mem_cons_of_mem i member)
    rw [markAll, List.foldl_cons]
    rw [markAll] at step
    rw [step, mem_numbers_mark (below i List.mem_cons_self), List.mem_cons]
    tauto

/-- The numbers of marks which stand for other things, in the order of their codes. -/
theorem numbers_markAll_unmarked {marks : List Nat} (below : ∀ i ∈ marks, i < bound) :
    j ∈ numbers (markAll (unmarked bound) marks) ↔ j ∈ marks := by
  rw [mem_numbers_markAll below, numbers_unmarked]
  simp

end MarkSet
