import Mathlib.Data.Multiset.AddSub
import Mathlib.Data.Multiset.Count

/-!
# Reference counting

A heap of cells, each with the number of references to it. A cell whose last
reference is given up is destroyed. `Counts heap held` says that the counts are
right for a multiset `held` of all the references which exist; each operation
adds references to `held` or takes some away, and the cells of the references
that remain are unchanged.
-/
namespace RefCount

structure Heap (β : Type) where
  cell : Nat → β
  count : Nat → Nat
  /-- The address which the allocator hands out next. -/
  fresh : Nat

variable {β : Type}

def alloc (heap : Heap β) (value : β) : Nat × Heap β :=
  (heap.fresh, {
    cell := Function.update heap.cell heap.fresh value
    count := Function.update heap.count heap.fresh 1
    fresh := heap.fresh + 1 })

def acquire (heap : Heap β) (a : Nat) : Heap β :=
  { heap with count := Function.update heap.count a (heap.count a + 1) }

/-- Gives up a reference; without the last one the cell is destroyed. -/
def relinquish (dead : β) (heap : Heap β) (a : Nat) : Heap β :=
  { heap with
    cell := if heap.count a ≤ 1 then Function.update heap.cell a dead else heap.cell
    count := Function.update heap.count a (heap.count a - 1) }

def write (heap : Heap β) (a : Nat) (value : β) : Heap β :=
  { heap with cell := Function.update heap.cell a value }

def isShared (heap : Heap β) (a : Nat) : Bool := heap.count a > 1

/-- The counts are those of the references `held`, which are to allocated cells. -/
structure Counts (heap : Heap β) (held : Multiset Nat) : Prop where
  count_eq : ∀ a, heap.count a = held.count a
  allocated : ∀ a ∈ held, a < heap.fresh

/-- The cells at some addresses are the same in both heaps. -/
def Agree (held : Multiset Nat) (heap heap' : Heap β) : Prop :=
  ∀ a ∈ held, heap'.cell a = heap.cell a

theorem Agree.refl (held : Multiset Nat) (heap : Heap β) : Agree held heap heap := fun _ _ => rfl

theorem Agree.trans {held : Multiset Nat} {first second third : Heap β}
    (left : Agree held first second) (right : Agree held second third) :
    Agree held first third :=
  fun a member => (right a member).trans (left a member)

theorem Agree.mono {held more : Multiset Nat} {heap heap' : Heap β} (agree : Agree more heap heap')
    (sub : held ⊆ more) : Agree held heap heap' :=
  fun a member => agree a (sub member)

namespace Counts

variable {heap : Heap β} {held : Multiset Nat} {a : Nat}

theorem fresh_notMem (counts : Counts heap held) : heap.fresh ∉ held := fun member =>
  absurd (counts.allocated _ member) (lt_irrefl _)

theorem alloc (counts : Counts heap held) (value : β) :
    Counts (alloc heap value).2 (heap.fresh ::ₘ held) ∧ Agree held heap (RefCount.alloc heap value).2 ∧
      (RefCount.alloc heap value).2.cell heap.fresh = value := by
  have new := counts.fresh_notMem
  refine ⟨⟨fun b => ?_, fun b member => ?_⟩, fun b member => ?_, ?_⟩
  · by_cases same : b = heap.fresh
    · subst same
      simp [RefCount.alloc, Multiset.count_eq_zero.mpr new]
    · simp [RefCount.alloc, same, counts.count_eq b]
  · change b < heap.fresh + 1
    rcases Multiset.mem_cons.mp member with rfl | old
    · omega
    · have bound := counts.allocated b old
      omega
  · have other : b ≠ heap.fresh := fun same => new (same ▸ member)
    simp [RefCount.alloc, other]
  · simp [RefCount.alloc]

theorem acquire (counts : Counts heap held) (inside : a < heap.fresh) :
    Counts (acquire heap a) (a ::ₘ held) := by
  refine ⟨fun b => ?_, fun b member => ?_⟩
  · by_cases same : b = a
    · subst same
      simp [RefCount.acquire, counts.count_eq b]
    · simp [RefCount.acquire, same, counts.count_eq b]
  · rcases Multiset.mem_cons.mp member with rfl | old
    · exact inside
    · exact counts.allocated b old

/-- Giving up one of the references leaves the cells of the others alone. -/
theorem relinquish (counts : Counts heap (a ::ₘ held)) (dead : β) :
    Counts (relinquish dead heap a) held ∧ Agree held heap (RefCount.relinquish dead heap a) := by
  refine ⟨⟨fun b => ?_, fun b member => ?_⟩, fun b member => ?_⟩
  · by_cases same : b = a
    · subst same
      simp [RefCount.relinquish, counts.count_eq b]
    · simp [RefCount.relinquish, same, counts.count_eq b]
  · exact counts.allocated b (Multiset.mem_cons_of_mem member)
  · by_cases last : heap.count a ≤ 1
    · -- the last reference to a cell is none of those which remain
      have other : b ≠ a := by
        rintro rfl
        have positive := Multiset.one_le_count_iff_mem.mpr member
        rw [counts.count_eq, Multiset.count_cons_self] at last
        omega
      simp [RefCount.relinquish, last, other]
    · simp [RefCount.relinquish, last]

/-- A cell which is not shared may be written to through its only reference. -/
theorem write (counts : Counts heap (a ::ₘ held)) (alone : isShared heap a = false) (value : β) :
    Counts (write heap a value) (a ::ₘ held) ∧ Agree held heap (RefCount.write heap a value) := by
  refine ⟨⟨counts.count_eq, counts.allocated⟩, fun b member => ?_⟩
  have other : b ≠ a := by
    rintro rfl
    have positive := Multiset.one_le_count_iff_mem.mpr member
    have count := counts.count_eq b
    rw [Multiset.count_cons_self] at count
    simp only [isShared, decide_eq_false_iff_not] at alone
    omega
  simp [RefCount.write, other]

end Counts

end RefCount
