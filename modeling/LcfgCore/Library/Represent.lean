import Mathlib.Data.List.Basic

/-!
# Representatives

A list represents another one up to an equivalence: it has nothing but elements of the other
one, and an equivalent one for each of them.

## Main results

`Represents.trans`, `Represents.append`: representatives are found step by step, and part by
part. `Represents.swap`: an element may be replaced by an equivalent one.
-/

variable {α : Type} {r : α → α → Prop} {xs ys zs us : List α}

structure Represents (r : α → α → Prop) (xs ys : List α) : Prop where
  sound : ∀ y ∈ ys, y ∈ xs
  complete : ∀ x ∈ xs, ∃ y ∈ ys, r x y

namespace Represents

theorem refl (equiv : Equivalence r) (xs : List α) : Represents r xs xs :=
  ⟨fun _ => id, fun x member => ⟨x, member, equiv.refl x⟩⟩

theorem trans (equiv : Equivalence r) (first : Represents r xs ys) (second : Represents r ys zs) :
    Represents r xs zs := by
  constructor
  · intro z member
    exact first.sound z (second.sound z member)
  · intro x member
    obtain ⟨y, inside, here⟩ := first.complete x member
    obtain ⟨z, last, there⟩ := second.complete y inside
    exact ⟨z, last, equiv.trans here there⟩

theorem append (first : Represents r xs ys) (second : Represents r zs us) :
    Represents r (xs ++ zs) (ys ++ us) := by
  constructor
  · intro y member
    rcases List.mem_append.mp member with left | right
    · exact List.mem_append_left _ (first.sound y left)
    · exact List.mem_append_right _ (second.sound y right)
  · intro x member
    rcases List.mem_append.mp member with left | right
    · obtain ⟨y, inside, here⟩ := first.complete x left
      exact ⟨y, List.mem_append_left _ inside, here⟩
    · obtain ⟨y, inside, here⟩ := second.complete x right
      exact ⟨y, List.mem_append_right _ inside, here⟩

/-- Only the elements count. -/
theorem of_mem_iff (represents : Represents r xs ys) (left : ∀ x, x ∈ xs ↔ x ∈ zs)
    (right : ∀ y, y ∈ ys ↔ y ∈ us) : Represents r zs us := by
  constructor
  · intro y member
    exact (left y).mp (represents.sound y ((right y).mpr member))
  · intro x member
    obtain ⟨y, inside, here⟩ := represents.complete x ((left x).mpr member)
    exact ⟨y, (right y).mp inside, here⟩

/-- A part in the middle is represented by what has taken in some new elements too. -/
theorem within (equiv : Equivalence r) (before after : List α) {inner inner' new : List α}
    (represents : Represents r (inner ++ new) inner') :
    Represents r (before ++ (inner ++ after) ++ new) (before ++ (inner' ++ after)) := by
  have whole := ((refl equiv before).append represents).append (refl equiv after)
  refine whole.of_mem_iff (fun x => ?_) fun x => ?_
  · simp only [List.mem_append]
    tauto
  · rw [List.append_assoc]

/-- What is represented by another element may be left out. -/
theorem swap (equiv : Equivalence r) {before after : List α} {old new : α} (same : r old new) :
    Represents r (before ++ old :: after ++ [new]) (before ++ after ++ [new]) := by
  constructor
  · intro y member
    rcases List.mem_append.mp member with here | last
    · refine List.mem_append_left _ ?_
      rcases List.mem_append.mp here with left | right
      · exact List.mem_append_left _ left
      · exact List.mem_append_right _ (List.mem_cons_of_mem _ right)
    · exact List.mem_append_right _ last
  · intro x member
    have kept : x = old ∨ x ∈ before ++ after ++ [new] := by
      simp only [List.mem_append, List.mem_cons] at member ⊢
      tauto
    rcases kept with rfl | kept
    · exact ⟨new, by simp, same⟩
    · exact ⟨x, kept, equiv.refl x⟩

end Represents
