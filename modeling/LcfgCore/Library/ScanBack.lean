import Mathlib.Data.List.DropRight

/-!
# Scanning backwards

A pointer moves back over a text while a predicate holds, and stops at the first element at
the latest, which it does not test.

## Main result

`take_scanBack`: what lies in front of the pointer in the end, with the element it points to.
-/
namespace ScanBack

variable {α : Type} {p : α → Bool} {text : List α} {i : Nat}

/-- `while ( ptr != start && p(*ptr) ) ptr--`, from some position on. -/
def scanBack (p : α → Bool) (text : List α) : Nat → Nat
  | 0 => 0
  | i + 1 => if text[i + 1]?.any p then scanBack p text i else i + 1

/-- A text without the elements at its end which satisfy `p`, the first one apart. -/
def trimBack (p : α → Bool) : List α → List α
  | [] => []
  | first :: rest => first :: rest.rdropWhile p

theorem trimBack_ne_nil (some_ : text ≠ []) : trimBack p text ≠ [] := by
  cases text with
  | nil => exact absurd rfl some_
  | cons first rest => exact List.cons_ne_nil _ _

theorem trimBack_concat_of_pos (some_ : text ≠ []) {last : α} (passes : p last = true) :
    trimBack p (text ++ [last]) = trimBack p text := by
  cases text with
  | nil => exact absurd rfl some_
  | cons first rest =>
    rw [List.cons_append, trimBack, trimBack, List.rdropWhile_concat_pos _ _ _ passes]

theorem trimBack_concat_of_neg {last : α} (stops : p last = false) :
    trimBack p (text ++ [last]) = text ++ [last] := by
  cases text with
  | nil => rfl
  | cons first rest =>
    rw [List.cons_append, trimBack, List.rdropWhile_concat_neg _ _ _ (by simp [stops])]

theorem trimBack_append (some_ : text ≠ []) {back : List α} (all : ∀ x ∈ back, p x = true) :
    trimBack p (text ++ back) = trimBack p text := by
  induction back using List.reverseRecOn with
  | nil => rw [List.append_nil]
  | append_singleton back last ih =>
    have some' : text ++ back ≠ [] := fun nothing => some_ (List.append_eq_nil_iff.mp nothing).1
    rw [← List.append_assoc, trimBack_concat_of_pos some' (all last (by simp))]
    exact ih fun x member => all x (List.mem_append_left _ member)

theorem trimBack_eq_self (last : ∀ x ∈ text.getLast?, p x = false) : trimBack p text = text := by
  rcases List.eq_nil_or_concat text with rfl | ⟨front, x, rfl⟩
  · rfl
  · rw [List.concat_eq_append] at last ⊢
    exact trimBack_concat_of_neg (last x (by simp))

/-- What is cut off the end, and what is left. -/
theorem exists_cut (p : α → Bool) (text : List α) : ∃ back, text = trimBack p text ++ back ∧
    (∀ x ∈ back, p x = true) ∧
    ((trimBack p text).length ≤ 1 ∨ ∀ x ∈ (trimBack p text).getLast?, p x = false) := by
  induction text using List.reverseRecOn with
  | nil => exact ⟨[], rfl, by simp, .inl (Nat.zero_le 1)⟩
  | append_singleton front last ih =>
    by_cases single : front = []
    · subst single
      exact ⟨[], rfl, by simp, .inl (Nat.le_refl 1)⟩
    · cases passes : p last with
      | true =>
        obtain ⟨back, whole, all, ends⟩ := ih
        rw [trimBack_concat_of_pos single passes]
        refine ⟨back ++ [last], ?_, ?_, ends⟩
        · rw [← List.append_assoc, ← whole]
        · intro x member
          rcases List.mem_append.mp member with inside | here
          · exact all x inside
          · rw [List.mem_singleton.mp here, passes]
      | false =>
        rw [trimBack_concat_of_neg passes]
        exact ⟨[], (List.append_nil _).symm, by simp, .inr (by simp [passes])⟩

theorem take_scanBack (inside : i < text.length) :
    text.take (scanBack p text i + 1) = trimBack p (text.take (i + 1)) := by
  induction i with
  | zero =>
    obtain ⟨first, rest, rfl⟩ := List.exists_cons_of_length_pos inside
    rfl
  | succ i ih =>
    have before : text.take (i + 1) ≠ [] := by
      intro nothing
      have length := congrArg List.length nothing
      rw [List.length_take, List.length_nil] at length
      omega
    rw [List.take_succ_eq_append_getElem inside, scanBack, List.getElem?_eq_getElem inside,
      Option.any_some]
    cases passes : p text[i + 1] with
    | true =>
      rw [if_pos rfl, trimBack_concat_of_pos before passes]
      exact ih (Nat.lt_of_succ_lt inside)
    | false =>
      rw [if_neg Bool.false_ne_true, trimBack_concat_of_neg passes]
      exact List.take_succ_eq_append_getElem inside

theorem scanBack_le (p : α → Bool) (text : List α) (i : Nat) : scanBack p text i ≤ i := by
  induction i with
  | zero => exact Nat.le_refl 0
  | succ i ih =>
    rw [scanBack]
    split
    · exact Nat.le_succ_of_le ih
    · exact Nat.le_refl _

/-- The position is known when the text in front of it is. -/
theorem scanBack_eq (inside : i < text.length) :
    scanBack p text i + 1 = (trimBack p (text.take (i + 1))).length := by
  have below := scanBack_le p text i
  rw [← take_scanBack inside, List.length_take_of_le (by omega)]

end ScanBack
