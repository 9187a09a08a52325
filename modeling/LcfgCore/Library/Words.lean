import Mathlib.Data.List.Basic

/-!
# Words which commute

Two lists are the same in both orders just when they repeat one list.

## Main results

`Words.append_comm_iff`
-/

namespace Words

section Lists

variable {α : Type*}

/-- The list is a number of copies of one word. -/
def Repeats (word whole : List α) : Prop := ∃ n, whole = (List.replicate n word).flatten

theorem Repeats.nil (word : List α) : Repeats word [] := ⟨0, rfl⟩

theorem Repeats.self (word : List α) : Repeats word word := ⟨1, by simp⟩

theorem Repeats.append {word first second : List α} (left : Repeats word first)
    (right : Repeats word second) : Repeats word (first ++ second) := by
  obtain ⟨i, rfl⟩ := left
  obtain ⟨j, rfl⟩ := right
  refine ⟨i + j, ?_⟩
  rw [← List.flatten_append, List.replicate_append_replicate]

theorem Repeats.append_comm {word first second : List α} (left : Repeats word first)
    (right : Repeats word second) : first ++ second = second ++ first := by
  obtain ⟨i, rfl⟩ := left
  obtain ⟨j, rfl⟩ := right
  rw [← List.flatten_append, ← List.flatten_append, List.replicate_append_replicate,
    List.replicate_append_replicate, Nat.add_comm]

/-- Of two lists which commute the shorter one is the beginning of the longer one, and
commutes with the rest of it. -/
private theorem rest_of_comm {first second : List α} (comm : first ++ second = second ++ first)
    (shorter : first.length ≤ second.length) :
    ∃ rest, second = first ++ rest ∧ first ++ rest = rest ++ first := by
  have before : first <+: second :=
    List.prefix_of_prefix_length_le (List.prefix_append first second)
      ⟨first, comm.symm⟩ shorter
  obtain ⟨rest, rfl⟩ := before
  refine ⟨rest, rfl, ?_⟩
  rw [List.append_assoc] at comm
  exact List.append_cancel_left comm

/-- The induction is on the length of both lists: the shorter one is taken off the
longer one, as in the Euclidean algorithm. -/
private theorem word_of_comm (size : Nat) : ∀ {first second : List α},
    first.length + second.length ≤ size → first ++ second = second ++ first →
      ∃ word, Repeats word first ∧ Repeats word second := by
  induction size with
  | zero =>
    intro first second bound _
    have empty1 : first = [] := List.length_eq_zero_iff.mp (by omega)
    have empty2 : second = [] := List.length_eq_zero_iff.mp (by omega)
    subst empty1 empty2
    exact ⟨[], .nil [], .nil []⟩
  | succ size ih =>
    intro first second bound comm
    by_cases empty1 : first = []
    · exact ⟨second, empty1 ▸ .nil second, .self second⟩
    by_cases empty2 : second = []
    · exact ⟨first, .self first, empty2 ▸ .nil first⟩
    have some1 : 0 < first.length := List.length_pos_iff.mpr empty1
    have some2 : 0 < second.length := List.length_pos_iff.mpr empty2
    -- what is left of the longer list commutes with the shorter one
    rcases Nat.le_total first.length second.length with shorter | shorter
    · obtain ⟨rest, rfl, restComm⟩ := rest_of_comm comm shorter
      rw [List.length_append] at bound
      obtain ⟨word, whole, part⟩ := ih (by omega) restComm
      exact ⟨word, whole, whole.append part⟩
    · obtain ⟨rest, rfl, restComm⟩ := rest_of_comm comm.symm shorter
      rw [List.length_append] at bound
      obtain ⟨word, whole, part⟩ := ih (by omega) restComm
      exact ⟨word, whole.append part, whole⟩

theorem append_comm_iff {first second : List α} :
    first ++ second = second ++ first ↔ ∃ word, Repeats word first ∧ Repeats word second := by
  constructor
  · exact word_of_comm (first.length + second.length) (Nat.le_refl _)
  · rintro ⟨word, left, right⟩
    exact left.append_comm right

end Lists

end Words
