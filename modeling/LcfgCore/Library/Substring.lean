import Mathlib.Data.List.Basic

/-!
# Substrings

Where one text occurs in another for the first time.
-/
namespace Substring

variable {α : Type} [DecidableEq α]

/-- The first position of a needle in a text. -/
def find (needle : List α) : List α → Option Nat
  | [] => if needle = [] then some 0 else none
  | x :: rest =>
    if needle.isPrefixOf (x :: rest) then some 0 else (find needle rest).map (· + 1)

theorem find_append_right (needle rest : List α) : find needle (needle ++ rest) = some 0 := by
  have first : needle.isPrefixOf (needle ++ rest) = true :=
    List.isPrefixOf_iff_prefix.mpr (List.prefix_append needle rest)
  cases text : needle ++ rest with
  | nil => rw [find, if_pos (List.append_eq_nil_iff.mp text).1]
  | cons x more => rw [find, ← text, if_pos first]

/-- What has nothing of the needle's beginning is walked over. -/
theorem find_append_of_free {needle before : List α} (some_ : needle ≠ [])
    (free : ∀ x ∈ before, needle.head? ≠ some x) (rest : List α) :
    find needle (before ++ rest) = (find needle rest).map (· + before.length) := by
  induction before with
  | nil => simp
  | cons x before ih =>
    have other : ¬ needle.isPrefixOf (x :: (before ++ rest)) = true := by
      intro starts
      obtain ⟨more, same⟩ := List.isPrefixOf_iff_prefix.mp starts
      cases needle with
      | nil => exact some_ rfl
      | cons y needle =>
        rw [List.cons_append, List.cons.injEq] at same
        exact free x List.mem_cons_self (by rw [same.1, List.head?_cons])
    have later := ih fun y member => free y (List.mem_cons_of_mem _ member)
    rw [List.cons_append, find, if_neg other, later, Option.map_map]
    rfl

end Substring
