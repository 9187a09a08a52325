import LcfgCore.Library.Substring

/-!
# Pieces of a text

A text is cut at the occurrences of a needle, each found behind the one before it. There may
be a limit on the cuts. What follows a final needle is no piece.

## Main results

* `intercalate_pieces`: the pieces with the needle between them are the text, up to a final
  needle.
* `free_of_mem_dropLast`: only the last piece may have the needle in it.
* `length_pieces`: how many pieces there are with a limit, and without one.
-/
namespace Substring

variable {α : Type} [DecidableEq α] {needle text : List α} {p k fuel : Nat}

theorem find_spec (some_ : needle ≠ []) (found : find needle text = some p) :
    text = text.take p ++ needle ++ text.drop (p + needle.length) ∧
      ¬ needle <:+: text.take p := by
  induction text generalizing p with
  | nil =>
    rw [find, if_neg some_] at found
    cases found
  | cons x rest ih =>
    rw [find] at found
    split at found
    case isTrue starts =>
      obtain rfl := Option.some.inj found
      obtain ⟨more, same⟩ := List.isPrefixOf_iff_prefix.mp starts
      refine ⟨?_, fun inside => some_ (List.infix_nil.mp inside)⟩
      rw [← same, List.take_zero, List.nil_append, Nat.zero_add, List.drop_left]
    case isFalse other =>
      obtain ⟨q, later, rfl⟩ := Option.map_eq_some_iff.mp found
      obtain ⟨whole, free⟩ := ih later
      constructor
      · rw [List.take_succ_cons, Nat.add_right_comm, List.drop_succ_cons, List.cons_append,
          List.cons_append, ← whole]
      · rw [List.take_succ_cons, List.infix_cons_iff]
        rintro (first | inside)
        · apply other
          rw [List.isPrefixOf_iff_prefix]
          exact first.trans (List.take_prefix (q + 1) (x :: rest))
        · exact free inside

/-- The pieces between the occurrences, with at most `k` cuts. -/
def pieces (needle : List α) : Nat → List α → List (List α)
  | 0, text => if text = [] then [] else [text]
  | k + 1, text =>
    match find needle text with
    | none => if text = [] then [] else [text]
    | some p => text.take p :: pieces needle k (text.drop (p + needle.length))

theorem pieces_of_none (none_ : find needle text = none) (k : Nat) :
    pieces needle k text = if text = [] then [] else [text] := by
  cases k with
  | zero => rfl
  | succ k => rw [pieces, none_]

theorem pieces_of_some (found : find needle text = some p) (k : Nat) :
    pieces needle (k + 1) text =
      text.take p :: pieces needle k (text.drop (p + needle.length)) := by
  rw [pieces, found]

/-- What is left behind an occurrence is shorter. -/
theorem length_drop_lt (some_ : needle ≠ []) (found : find needle text = some p) :
    (text.drop (p + needle.length)).length < text.length := by
  have whole := congrArg List.length (find_spec some_ found).1
  have pos := List.length_pos_iff.mpr some_
  rw [List.length_append, List.length_append] at whole
  omega

theorem find_nil (some_ : needle ≠ []) : find needle ([] : List α) = none := if_neg some_

theorem pieces_eq_nil_iff (some_ : needle ≠ []) : pieces needle k text = [] ↔ text = [] := by
  constructor
  · intro nothing
    cases found : find needle text with
    | none =>
      rw [pieces_of_none found] at nothing
      by_contra more
      rw [if_neg more] at nothing
      cases nothing
    | some p =>
      cases k with
      | zero =>
        by_contra more
        rw [pieces, if_neg more] at nothing
        cases nothing
      | succ k =>
        rw [pieces_of_some found] at nothing
        cases nothing
  · rintro rfl
    rw [pieces_of_none (find_nil some_), if_pos rfl]

theorem intercalate_pieces (some_ : needle ≠ []) (k : Nat) (text : List α) :
    text = needle.intercalate (pieces needle k text) ∨
      text = needle.intercalate (pieces needle k text) ++ needle := by
  have uncut (text : List α) : text = needle.intercalate (if text = [] then [] else [text]) := by
    split
    case isTrue empty => exact empty
    case isFalse => exact (List.intercalate_singleton ..).symm
  induction k generalizing text with
  | zero => exact .inl (uncut text)
  | succ k ih =>
    cases found : find needle text with
    | none =>
      rw [pieces_of_none found]
      exact .inl (uncut text)
    | some p =>
      have whole := (find_spec some_ found).1
      have later := ih (text.drop (p + needle.length))
      rw [pieces_of_some found]
      -- a needle at the very end is followed by no piece
      by_cases last : text.drop (p + needle.length) = []
      · rw [last, List.append_nil] at whole
        rw [last, (pieces_eq_nil_iff some_).mpr rfl, List.intercalate_singleton]
        exact .inr whole
      · have more : pieces needle k (text.drop (p + needle.length)) ≠ [] :=
          fun nothing => last ((pieces_eq_nil_iff some_).mp nothing)
        obtain ⟨piece, others, same⟩ := List.exists_cons_of_ne_nil more
        rw [same] at later ⊢
        rw [List.intercalate_cons_cons]
        refine later.imp (fun back => ?_) (fun back => ?_)
        · rw [← back]
          exact whole
        · rw [List.append_assoc, ← back]
          exact whole

theorem free_of_mem_dropLast (some_ : needle ≠ []) {piece : List α}
    (member : piece ∈ (pieces needle k text).dropLast) : ¬ needle <:+: piece := by
  have uncut (text : List α) : (if text = [] then [] else [text]).dropLast = [] := by
    split <;> rfl
  induction k generalizing text with
  | zero =>
    rw [pieces, uncut] at member
    cases member
  | succ k ih =>
    cases found : find needle text with
    | none =>
      rw [pieces_of_none found, uncut] at member
      cases member
    | some p =>
      rw [pieces_of_some found] at member
      cases later : pieces needle k (text.drop (p + needle.length)) with
      | nil =>
        rw [later] at member
        cases member
      | cons next others =>
        rw [later, List.dropLast_cons_cons, List.mem_cons] at member
        rcases member with rfl | member
        · exact (find_spec some_ found).2
        · exact ih (later ▸ member)

/-- With enough cuts there are all the pieces, and a limit bounds them. -/
theorem length_pieces (some_ : needle ≠ []) (enough : text.length ≤ fuel) (k : Nat) :
    (pieces needle k text).length = min (k + 1) (pieces needle fuel text).length := by
  induction k generalizing text fuel with
  | zero =>
    rw [pieces]
    split
    case isTrue empty =>
      rw [(pieces_eq_nil_iff some_).mpr empty]
      rfl
    case isFalse more =>
      have some' : 0 < (pieces needle fuel text).length :=
        List.length_pos_iff.mpr fun nothing => more ((pieces_eq_nil_iff some_).mp nothing)
      rw [List.length_singleton]
      omega
  | succ k ih =>
    cases found : find needle text with
    | none =>
      rw [pieces_of_none found, pieces_of_none found]
      split
      · rfl
      · rw [List.length_singleton]
        omega
    | some p =>
      have shorter := length_drop_lt some_ found
      obtain ⟨fuel, rfl⟩ : ∃ m, fuel = m + 1 := ⟨fuel - 1, by omega⟩
      rw [pieces_of_some found, pieces_of_some found, List.length_cons, List.length_cons,
        ih (by omega : _ ≤ fuel), Nat.add_min_add_right]

end Substring
