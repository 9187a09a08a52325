import Mathlib.Data.List.Dedup
import Mathlib.Data.List.Perm.Subperm

/-!
# Selections from a list

The elements of a list which are wanted, each of them once and in the order in which they are
first seen.

## Main results

* `Selects.add`, `Selects.skip`: a selection grows with its list.
* `Selects.partition`: what is in both of two lists, and what is in one of them only, are the
  parts of what is in any of them.
-/

/-- The selection from a list of the elements which are wanted. -/
structure Selects {α : Type} [DecidableEq α] (wanted : α → Prop) (source selected : List α) :
    Prop where
  nodup : selected.Nodup
  mem_iff : ∀ x, x ∈ selected ↔ x ∈ source ∧ wanted x
  ordered : selected.Pairwise fun x y => source.idxOf x < source.idxOf y

namespace Selects

variable {α : Type} [DecidableEq α] {wanted : α → Prop} {source selected : List α} {x : α}

theorem nil : Selects wanted [] [] := ⟨List.nodup_nil, by simp, .nil⟩

/-- The order does not change when the list goes on. -/
theorem ordered_append (selects : Selects wanted source selected) (more : List α) :
    selected.Pairwise fun x y => (source ++ more).idxOf x < (source ++ more).idxOf y := by
  refine selects.ordered.imp_of_mem fun {x y} memberX memberY before => ?_
  rw [List.idxOf_append_of_mem ((selects.mem_iff x).mp memberX).1,
    List.idxOf_append_of_mem ((selects.mem_iff y).mp memberY).1]
  exact before

/-- An element which is wanted and has not been seen. -/
theorem add (selects : Selects wanted source selected) (kept : wanted x) (new : x ∉ selected) :
    Selects wanted (source ++ [x]) (selected ++ [x]) := by
  have unseen : x ∉ source := fun seen => new ((selects.mem_iff x).mpr ⟨seen, kept⟩)
  refine ⟨?_, fun y => ?_, ?_⟩
  · rw [List.nodup_append]
    refine ⟨selects.nodup, List.nodup_singleton x, ?_⟩
    rintro y member _ last rfl
    exact new (List.mem_singleton.mp last ▸ member)
  · simp only [List.mem_append, List.mem_singleton, selects.mem_iff]
    constructor
    · rintro (⟨seen, kept⟩ | rfl)
      · exact ⟨.inl seen, kept⟩
      · exact ⟨.inr rfl, kept⟩
    · rintro ⟨seen | rfl, kept⟩
      · exact .inl ⟨seen, kept⟩
      · exact .inr rfl
  · rw [List.pairwise_append]
    refine ⟨selects.ordered_append [x], List.pairwise_singleton _ x, fun y member z last => ?_⟩
    obtain rfl := List.mem_singleton.mp last
    have seen := ((selects.mem_iff y).mp member).1
    rw [List.idxOf_append_of_mem seen, List.idxOf_append_of_notMem unseen, List.idxOf_cons_self]
    exact Nat.lt_of_lt_of_le (List.idxOf_lt_length_of_mem seen) (Nat.le_add_right _ 0)

/-- An element which is not wanted, or has been seen before. -/
theorem skip (selects : Selects wanted source selected) (old : wanted x → x ∈ selected) :
    Selects wanted (source ++ [x]) selected := by
  refine ⟨selects.nodup, fun y => ?_, selects.ordered_append [x]⟩
  rw [List.mem_append, List.mem_singleton, selects.mem_iff]
  constructor
  · exact fun ⟨seen, kept⟩ => ⟨.inl seen, kept⟩
  · rintro ⟨seen | rfl, kept⟩
    · exact ⟨seen, kept⟩
    · exact (selects.mem_iff y).mp (old kept)

theorem length_le (selects : Selects wanted source selected) : selected.length ≤ source.length :=
  (List.subperm_of_subset selects.nodup fun x member => ((selects.mem_iff x).mp member).1).length_le

/-- As many elements are selected as there are different ones, if all are wanted. -/
theorem length_eq (selects : Selects (fun _ => True) source selected) :
    selected.length = source.dedup.length := by
  apply List.Perm.length_eq
  apply (List.perm_ext_iff_of_nodup selects.nodup (List.nodup_dedup source)).mpr
  intro y
  rw [selects.mem_iff, List.mem_dedup, and_true]

theorem partition {one other both first second all : List α}
    (inBoth : Selects (· ∈ other) one both) (inFirst : Selects (· ∉ other) one first)
    (inSecond : Selects (· ∉ one) other second)
    (inAny : Selects (fun _ => True) (one ++ other) all) :
    (both ++ first ++ second).Perm all := by
  have distinct : (both ++ first ++ second).Nodup := by
    rw [List.append_assoc, List.nodup_append]
    refine ⟨inBoth.nodup, ?_, ?_⟩
    · rw [List.nodup_append]
      refine ⟨inFirst.nodup, inSecond.nodup, ?_⟩
      rintro x left _ right rfl
      exact ((inFirst.mem_iff x).mp left).2 ((inSecond.mem_iff x).mp right).1
    · rintro x left _ right rfl
      have member := (inBoth.mem_iff x).mp left
      rcases List.mem_append.mp right with alone | alone
      · exact ((inFirst.mem_iff x).mp alone).2 member.2
      · exact ((inSecond.mem_iff x).mp alone).2 member.1
  apply (List.perm_ext_iff_of_nodup distinct inAny.nodup).mpr
  intro x
  simp only [List.mem_append, inBoth.mem_iff, inFirst.mem_iff, inSecond.mem_iff, inAny.mem_iff,
    and_true]
  tauto

end Selects
