import LcfgCore.Context.Combine
import LcfgCore.Library.Words

/-!
# The order of the combined expressions

`lcfgcontext_combine_expressions` sorts the two expressions, so that they give the same
string in both orders. It looks for the result -1 of `strcmp`, though any negative number
says that the first one is less.

## Main results

`combineExpressions_self`, `combineExpressions_comm_of_sign`, `combineExpressions_comm_iff`
-/
namespace Lcfg.Context

/-- A `strcmp` as in the C standard, which specifies the sign of the result only. -/
def Conforming (compare : String → String → Int) : Prop :=
  ∀ a b, (compare a b).sign = (strcmp a b).sign

namespace Conforming

variable {compare : String → String → Int}

theorem eq_zero_iff (conforming : Conforming compare) (a b : String) :
    compare a b = 0 ↔ a = b := by
  rw [← Int.sign_eq_zero_iff_zero, conforming, Int.sign_eq_zero_iff_zero, strcmp_eq_zero]

theorem neg_iff (conforming : Conforming compare) (a b : String) :
    compare a b < 0 ↔ strcmp a b < 0 := by
  rw [← Int.sign_neg_iff, conforming, Int.sign_neg_iff]

/-- Of two strings at most one is less than the other. -/
theorem not_neg_both (conforming : Conforming compare) {a b : String}
    (less : compare a b = -1) : compare b a ≠ -1 := by
  intro also
  have forth : strcmp a b < 0 := (conforming.neg_iff a b).mp (by omega)
  have back : strcmp b a < 0 := (conforming.neg_iff b a).mp (by omega)
  rw [strcmp_swap] at back
  omega

theorem neg_or_neg (conforming : Conforming compare) {a b : String} (differ : a ≠ b) :
    compare a b < 0 ∨ compare b a < 0 := by
  rw [conforming.neg_iff, conforming.neg_iff, strcmp_swap a b]
  have nonzero : strcmp a b ≠ 0 := fun same => differ ((strcmp_eq_zero a b).mp same)
  omega

end Conforming

/-- The lesser one of two strings is the one for which the result is -1. -/
def Sorts (compare : String → String → Int) (a b : String) : Prop :=
  compare a b = -1 ∨ compare b a = -1

/-- An expression as it stands before the other one. -/
def leading (expr : String) : List Char := (bracketed expr ++ " & ").toList

/-- The combinations in both orders are the same when nothing has to be joined, when
the expressions are sorted, or when they repeat one text, so that sorting them does
not matter. -/
def OrderFree (compare : String → String → Int) (expr1 expr2 : String) : Prop :=
  expr1 = "" ∨ expr2 = "" ∨ bracketed expr1 = bracketed expr2 ∨
    Sorts compare (bracketed expr1) (bracketed expr2) ∨
    ∃ word, Words.Repeats word (leading expr1) ∧ Words.Repeats word (leading expr2)

/-! ## What is combined -/

section Combination

variable {compare : String → String → Int}

theorem combineExpressions_empty_left (expr : String) :
    combineExpressions compare (some "") (some expr) = expr := by
  unfold combineExpressions isEmpty
  by_cases empty : expr = "" <;> simp [empty]

theorem combineExpressions_empty_right (expr : String) :
    combineExpressions compare (some expr) (some "") = expr := by
  unfold combineExpressions isEmpty
  by_cases empty : expr = "" <;> simp [empty]

theorem combineExpressions_self (conforming : Conforming compare) (expr : String) :
    combineExpressions compare (some expr) (some expr) = expr := by
  unfold combineExpressions isEmpty
  by_cases empty : expr = ""
  · simp [empty]
  · simp [empty, (conforming.eq_zero_iff expr expr).mpr rfl]

/-- Two expressions which are not empty, and not the same. -/
theorem combineExpressions_differ (conforming : Conforming compare) {expr1 expr2 : String}
    (some1 : expr1 ≠ "") (some2 : expr2 ≠ "") (differ : expr1 ≠ expr2) :
    combineExpressions compare (some expr1) (some expr2) =
      if compare (bracketed expr1) (bracketed expr2) = 0 then bracketed expr1
      else if compare (bracketed expr1) (bracketed expr2) = -1 then
        stringJoin " & " (bracketed expr1) (bracketed expr2)
      else stringJoin " & " (bracketed expr2) (bracketed expr1) := by
  have empty1 : ¬isEmpty (some expr1) = true := fun same => some1 (beq_iff_eq.mp same)
  have empty2 : ¬isEmpty (some expr2) = true := fun same => some2 (beq_iff_eq.mp same)
  have unequal : compare expr1 expr2 ≠ 0 := fun same =>
    differ ((conforming.eq_zero_iff expr1 expr2).mp same)
  rw [combineExpressions, if_neg empty1, if_neg empty2, Option.getD_some, Option.getD_some,
    if_neg unequal]
  rfl

theorem combineExpressions_bracketed (conforming : Conforming compare) {expr1 expr2 : String}
    (some1 : expr1 ≠ "") (some2 : expr2 ≠ "") (differ : expr1 ≠ expr2)
    (safe : bracketed expr1 = bracketed expr2) :
    combineExpressions compare (some expr1) (some expr2) = bracketed expr1 := by
  rw [combineExpressions_differ conforming some1 some2 differ]
  exact if_pos ((conforming.eq_zero_iff _ _).mpr safe)

theorem combineExpressions_join (conforming : Conforming compare) {expr1 expr2 : String}
    (some1 : expr1 ≠ "") (some2 : expr2 ≠ "") (safe : bracketed expr1 ≠ bracketed expr2) :
    combineExpressions compare (some expr1) (some expr2) =
      if compare (bracketed expr1) (bracketed expr2) = -1 then
        stringJoin " & " (bracketed expr1) (bracketed expr2)
      else stringJoin " & " (bracketed expr2) (bracketed expr1) := by
  have differ : expr1 ≠ expr2 := fun same => safe (congrArg bracketed same)
  rw [combineExpressions_differ conforming some1 some2 differ]
  exact if_neg fun same => safe ((conforming.eq_zero_iff _ _).mp same)

/-- A joined string does not depend on the order just when its two parts commute. -/
theorem stringJoin_comm_iff (expr1 expr2 : String) :
    stringJoin " & " (bracketed expr1) (bracketed expr2) =
        stringJoin " & " (bracketed expr2) (bracketed expr1) ↔
      ∃ word, Words.Repeats word (leading expr1) ∧ Words.Repeats word (leading expr2) := by
  have ends (a b : String) : (stringJoin " & " a b ++ " & ").toList =
      (a ++ " & ").toList ++ (b ++ " & ").toList := by
    simp only [stringJoin, String.toList_append, List.append_assoc]
  -- with the separator behind both parts, the two strings are two words in either order
  rw [← Words.append_comm_iff, leading, leading, ← ends, ← ends, String.toList_inj]
  constructor
  · intro same
    rw [same]
  · intro same
    apply String.toList_inj.mp
    have chars := congrArg String.toList same
    rw [String.toList_append, String.toList_append] at chars
    exact List.append_cancel_right chars

/-- Both combinations in one order of the operands, when these are not the same. -/
private theorem joined_comm_iff (conforming : Conforming compare) {expr1 expr2 : String}
    (some1 : expr1 ≠ "") (some2 : expr2 ≠ "") (safe : bracketed expr1 ≠ bracketed expr2) :
    combineExpressions compare (some expr1) (some expr2) =
        combineExpressions compare (some expr2) (some expr1) ↔
      Sorts compare (bracketed expr1) (bracketed expr2) ∨
        ∃ word, Words.Repeats word (leading expr1) ∧ Words.Repeats word (leading expr2) := by
  rw [combineExpressions_join conforming some1 some2 safe,
    combineExpressions_join conforming some2 some1 (Ne.symm safe), Sorts]
  by_cases less : compare (bracketed expr1) (bracketed expr2) = -1
  · rw [if_pos less, if_neg (conforming.not_neg_both less)]
    exact iff_of_true rfl (.inl (.inl less))
  rw [if_neg less]
  by_cases greater : compare (bracketed expr2) (bracketed expr1) = -1
  · rw [if_pos greater]
    exact iff_of_true rfl (.inl (.inr greater))
  -- neither is taken for the lesser one, so that the operands are swapped both times
  rw [if_neg greater, eq_comm, stringJoin_comm_iff]
  constructor
  · exact Or.inr
  · rintro ((sorted | sorted) | repeated)
    · exact absurd sorted less
    · exact absurd sorted greater
    · exact repeated

private theorem comm_iff_orderFree (conforming : Conforming compare) (expr1 expr2 : String) :
    combineExpressions compare (some expr1) (some expr2) =
        combineExpressions compare (some expr2) (some expr1) ↔
      OrderFree compare expr1 expr2 := by
  rw [OrderFree]
  by_cases empty1 : expr1 = ""
  · subst empty1
    rw [combineExpressions_empty_left, combineExpressions_empty_right]
    exact iff_of_true rfl (.inl rfl)
  by_cases empty2 : expr2 = ""
  · subst empty2
    rw [combineExpressions_empty_left, combineExpressions_empty_right]
    exact iff_of_true rfl (.inr (.inl rfl))
  rw [or_iff_right empty1, or_iff_right empty2]
  -- neither is empty: they may still be the same in their brackets
  by_cases safe : bracketed expr1 = bracketed expr2
  · refine iff_of_true ?_ (.inl safe)
    by_cases differ : expr1 = expr2
    · rw [differ]
    · rw [combineExpressions_bracketed conforming empty1 empty2 differ safe,
        combineExpressions_bracketed conforming empty2 empty1 (Ne.symm differ) safe.symm, safe]
  · rw [or_iff_right safe]
    exact joined_comm_iff conforming empty1 empty2 safe

/-- With a `strcmp` whose results are -1, 0 and 1 the order never matters. -/
theorem combineExpressions_comm_of_sign (conforming : Conforming compare)
    (signs : ∀ a b, compare a b < 0 → compare a b = -1) (expr1 expr2 : String) :
    combineExpressions compare (some expr1) (some expr2) =
      combineExpressions compare (some expr2) (some expr1) := by
  apply (comm_iff_orderFree conforming expr1 expr2).mpr
  by_cases safe : bracketed expr1 = bracketed expr2
  · exact .inr (.inr (.inl safe))
  · refine .inr (.inr (.inr (.inl ?_)))
    rcases conforming.neg_or_neg safe with less | greater
    · exact .inl (signs _ _ less)
    · exact .inr (signs _ _ greater)

end Combination

theorem combineExpressions_comm_iff (compare : String → String → Int)
    (conforming : Conforming compare) (expr1 expr2 : String) :
    combineExpressions compare (some expr1) (some expr2) =
        combineExpressions compare (some expr2) (some expr1) ↔
      OrderFree compare expr1 expr2 :=
  comm_iff_orderFree conforming expr1 expr2

theorem doubledStrcmp_conforming : Conforming doubledStrcmp := by
  intro a b
  rw [doubledStrcmp, Int.sign_mul]
  exact one_mul _

theorem combineExpressions_comm_iff_strcmp :
    combineExpressions strcmp (some "a") (some "b") =
        combineExpressions strcmp (some "b") (some "a") ↔
      OrderFree strcmp "a" "b" :=
  combineExpressions_comm_iff strcmp (fun _ _ => rfl) "a" "b"

theorem combineExpressions_not_comm :
    Conforming doubledStrcmp ∧
      (validExpression true (some "a")).1 = true ∧ (validExpression true (some "b")).1 = true ∧
      combineExpressions doubledStrcmp (some "a") (some "b") = "(b) & (a)" ∧
      combineExpressions doubledStrcmp (some "b") (some "a") = "(a) & (b)" := by
  refine ⟨doubledStrcmp_conforming, ?_⟩
  decide +kernel

end Lcfg.Context
