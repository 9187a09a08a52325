import LcfgCore.Resources.Resource

/-!
# Comparing resources

The order of resources, and the order of values which are integers (`resources/resource.c`).

## Main results

`compare_documented_iff`: resources are ordered as documented, but for their contexts.
`compareValues_numeric_iff`: integers are compared as numbers, unless both are out of the
range of a `long int` on the same side.
-/
namespace Lcfg

namespace Resource

open ResList (mergeAction MergeAction)

/-- The same in all fields which the order is documented to look at; a missing text is empty. -/
structure Alike (res1 res2 : LCFGResource) : Prop where
  name : res1.name.getD "" = res2.name.getD ""
  priority : res1.priority = res2.priority
  value : res1.value.getD "" = res2.value.getD ""
  context : res1.context.getD "" = res2.context.getD ""

/-- Different contexts, and no other difference. -/
structure ContextsOnly (res1 res2 : LCFGResource) : Prop where
  name : res1.name.getD "" = res2.name.getD ""
  priority : res1.priority = res2.priority
  value : res1.value.getD "" = res2.value.getD ""
  context : res1.context.getD "" ≠ res2.context.getD ""

/-- First the names, then the priorities, then the values, and then the values once more. -/
theorem compare_preorder : QSort.Preorder compare := by
  have names : QSort.Preorder compareNames :=
    strcmp_preorder.comap fun res : LCFGResource => orDefault res.name ""
  have values := strcmp_preorder.comap fun res : LCFGResource => orDefault res.value ""
  have priorities : QSort.Preorder fun res1 res2 : LCFGResource =>
      if res1.priority = res2.priority then 0
      else if res1.priority < res2.priority then -1 else 1 := by
    apply (QSort.preorder_sub.comap LCFGResource.priority).of_sign
    · intro res1 res2
      split_ifs <;> omega
    · intro res1 res2
      split_ifs <;> omega
  exact ((names.thenBy priorities).thenBy values).thenBy values

theorem compare_eq_zero_iff (res1 res2 : LCFGResource) : compare res1 res2 = 0 ↔
    res1.name.getD "" = res2.name.getD "" ∧ res1.priority = res2.priority ∧
      res1.value.getD "" = res2.value.getD "" := by
  simp only [compare, compareNames, orDefault_empty]
  constructor
  · intro zero
    split_ifs at zero <;> simp_all
  · rintro ⟨name, priority, value⟩
    simp [name, priority, value]

theorem equals_iff (res1 res2 : LCFGResource) :
    equals res1 res2 = true ↔ compare res1 res2 = 0 := decide_eq_true_iff

/-- The rule for identical resources replaces the current one where the order calls them equal. -/
theorem squash_iff (res : Addr → LCFGResource) {cur new : Addr} (other : cur ≠ new) :
    mergeAction res { squashIdentical := true } (some cur) new = .swap ↔
      compare (res cur) (res new) = 0 := by
  have apart : some cur ≠ some new := fun same => other (Option.some_inj.mp same)
  rw [mergeAction, if_neg apart]
  by_cases zero : compare (res cur) (res new) = 0
  · simp [equals, zero]
  · simp [equals, zero, MergeAction.swap]

theorem compare_eq_zero_iff_alike {res1 res2 : LCFGResource} (differ : ¬ContextsOnly res1 res2) :
    compare res1 res2 = 0 ↔ Alike res1 res2 := by
  rw [compare_eq_zero_iff]
  constructor
  · rintro ⟨name, priority, value⟩
    refine ⟨name, priority, value, ?_⟩
    by_contra context
    exact differ ⟨name, priority, value, context⟩
  · intro alike
    exact ⟨alike.name, alike.priority, alike.value⟩

/-- The order is a total preorder. It tells two resources apart by the documented fields, and
the rule for identical resources keeps their contexts, if and only if they do not differ in
their contexts only. -/
theorem compare_documented_iff (res1 res2 : LCFGResource) :
    (compare res1 res2).sign = -(compare res2 res1).sign ∧
    (∀ res3, compare res1 res2 ≤ 0 → compare res2 res3 ≤ 0 → compare res1 res3 ≤ 0) ∧
    (((compare res1 res2 = 0 ↔ Alike res1 res2) ∧ (equals res1 res2 = true ↔ Alike res1 res2) ∧
      ∀ (res : Addr → LCFGResource) (cur new : Addr), cur ≠ new → res cur = res1 →
        res new = res2 → mergeAction res { squashIdentical := true } (some cur) new = .swap →
        res1.context.getD "" = res2.context.getD "") ↔ ¬ContextsOnly res1 res2) := by
  refine ⟨compare_preorder.sign_eq res1 res2, compare_preorder.trans res1 res2, ?_⟩
  constructor
  · rintro ⟨documented, -, -⟩ only
    have zero := (compare_eq_zero_iff res1 res2).mpr ⟨only.name, only.priority, only.value⟩
    exact only.context (documented.mp zero).context
  · intro differ
    have documented := compare_eq_zero_iff_alike differ
    refine ⟨documented, (equals_iff res1 res2).trans documented, ?_⟩
    rintro res cur new other rfl rfl squashed
    exact (documented.mp ((squash_iff res other).mp squashed)).context

/-- Two resources for different machines. -/
def laptopSample : LCFGResource := ⟨some "suspend", some "yes", some "laptop", 0⟩

def serverSample : LCFGResource := { laptopSample with context := some "server" }

/-- They compare equal, and the rule for identical resources replaces one by the other. -/
theorem compare_contexts_lost : compare laptopSample serverSample = 0 ∧
    equals laptopSample serverSample = true ∧ ¬Alike laptopSample serverSample ∧
    mergeAction (fun a => if a = 0 then laptopSample else serverSample)
      { squashIdentical := true } (some 0) 1 = .swap := by
  refine ⟨by decide, by decide, fun alike => ?_, by decide⟩
  exact absurd alike.context (by decide)

end Resource

namespace TypedResource

/-! ## Integers -/

/-- The number which digits stand for, with its sign. -/
def integerOf (value : String) : Int :=
  match value.toList with
  | '-' :: digits => -digits.foldl (fun (n : Int) c => 10 * n + digitVal c) 0
  | digits => digits.foldl (fun (n : Int) c => 10 * n + digitVal c) 0

/-- Two numbers which are no `long int`, or the same end of the range. -/
def Saturated (m n : Int) : Prop :=
  (2 ^ 63 - 1 ≤ m ∧ 2 ^ 63 - 1 ≤ n) ∨ (m ≤ -2 ^ 63 ∧ n ≤ -2 ^ 63)

instance (m n : Int) : Decidable (Saturated m n) := inferInstanceAs (Decidable (_ ∨ _))

theorem digits_nonneg (digits : List Char) {n : Int} (nonneg : 0 ≤ n) :
    0 ≤ digits.foldl (fun (n : Int) c => 10 * n + digitVal c) n := by
  induction digits generalizing n with
  | nil => exact nonneg
  | cons c digits ih =>
    have next : 0 ≤ 10 * n + (digitVal c : Int) := by omega
    exact ih next

private theorem takeWhile_digits {digits : List Char} (all : ∀ c ∈ digits, c.isDigit = true) :
    digits.takeWhile Char.isDigit = digits := List.takeWhile_eq_self_iff.mpr all

private theorem strtol10_digits {digits : List Char} (all : ∀ c ∈ digits, c.isDigit = true)
    (some_ : digits ≠ []) : strtol10 digits =
      min (2 ^ 63 - 1) (digits.foldl (fun (n : Int) c => 10 * n + digitVal c) 0) := by
  obtain ⟨c, rest, rfl⟩ := List.exists_cons_of_ne_nil some_
  obtain ⟨unspaced, minus, plus, -⟩ := isSpace_digit (all c List.mem_cons_self)
  have unsigned : strtoulSign (c :: rest) = (false, c :: rest) := by
    rw [strtoulSign.eq_3 _ (by simp [minus]) (by simp [plus])]
  rw [strtol10, List.dropWhile_cons_of_neg (by simp [unspaced]), unsigned]
  simp only [takeWhile_digits all, Bool.false_eq_true, if_false]

private theorem strtol10_minus {digits : List Char} (all : ∀ c ∈ digits, c.isDigit = true) :
    strtol10 ('-' :: digits) =
      max (-2 ^ 63) (-digits.foldl (fun (n : Int) c => 10 * n + digitVal c) 0) := by
  have signed : strtoulSign ('-' :: digits) = (true, digits) := rfl
  rw [strtol10, List.dropWhile_cons_of_neg (by decide), signed]
  simp only [takeWhile_digits all, if_true]

private theorem integerOf_minus {value : String} {digits : List Char}
    (text : value.toList = '-' :: digits) :
    integerOf value = -digits.foldl (fun (n : Int) c => 10 * n + digitVal c) 0 := by
  simp only [integerOf, text]

private theorem integerOf_plain {value : String}
    (other : ∀ digits, value.toList = '-' :: digits → False) :
    integerOf value = value.toList.foldl (fun (n : Int) c => 10 * n + digitVal c) 0 := by
  unfold integerOf
  split
  case h_1 digits begins => exact absurd begins (other digits)
  case h_2 => rfl

/-- `strtol` gives the number of a valid integer, or the end of the range next to it. -/
theorem strtol10_eq {value : String} (valid : validInteger value = true) :
    strtol10 value.toList = max (-2 ^ 63) (min (2 ^ 63 - 1) (integerOf value)) := by
  unfold validInteger at valid
  split at valid
  case h_1 digits text =>
    simp only [Bool.and_eq_true, List.all_eq_true, decide_eq_true_eq] at valid
    have nonneg := digits_nonneg digits (Int.le_refl 0)
    rw [text, strtol10_minus valid.2, integerOf_minus text]
    omega
  case h_2 text other =>
    simp only [Bool.and_eq_true, List.all_eq_true, decide_eq_true_eq] at valid
    have nonneg := digits_nonneg value.toList (Int.le_refl 0)
    rw [strtol10_digits valid.2 valid.1.1, integerOf_plain other]
    omega

/-- The comparison has the order of the numbers, and calls only equal numbers equal, if and only
if different ones are not saturated on the same side. -/
theorem compareValues_numeric_iff {res1 res2 : TypedResource} {value1 value2 : String}
    (integer1 : res1.type = .integer) (integer2 : res2.type = .integer)
    (given1 : res1.value = some value1) (given2 : res2.value = some value2)
    (valid1 : validInteger value1 = true) (valid2 : validInteger value2 = true) :
    ((compareValues res1 res2).sign = (integerOf value1 - integerOf value2).sign ∧
      (sameValue res1 res2 = true → integerOf value1 = integerOf value2)) ↔
        (integerOf value1 = integerOf value2 ∨ ¬Saturated (integerOf value1) (integerOf value2)) := by
  have read1 := strtol10_eq valid1
  have read2 := strtol10_eq valid2
  have compared : compareValues res1 res2 =
      if strtol10 value1.toList = strtol10 value2.toList then 0
      else if strtol10 value1.toList > strtol10 value2.toList then 1 else -1 := by
    simp [compareValues, integer1, integer2, given1, given2]
  rw [sameValue, decide_eq_true_iff, compared, read1, read2, Saturated]
  generalize integerOf value1 = m
  generalize integerOf value2 = n
  rcases Int.lt_trichotomy m n with less | same | greater
  · rw [Int.sign_eq_neg_one_of_neg (by omega : m - n < 0)]
    split_ifs <;> simp <;> omega
  · subst same
    simp
  · rw [Int.sign_eq_one_of_pos (by omega : 0 < m - n)]
    split_ifs <;> simp <;> omega

/-- An integer resource with a value. -/
def integerSample (value : String) : TypedResource :=
  { TypedResource.new with name := some "size", value := some value, type := .integer }

theorem integerSample_numeric :
    (compareValues (integerSample "-7") (integerSample "12")).sign = (-7 - 12 : Int).sign := by
  have numeric := (@compareValues_numeric_iff (integerSample "-7") (integerSample "12") "-7" "12"
    rfl rfl rfl rfl (by decide) (by decide)).mpr (.inr (by decide))
  exact numeric.1

/-- The least number which is no `long int` is taken for the greatest which is one. -/
theorem integerSample_not_numeric : validInteger "9223372036854775807" = true ∧
    validInteger "9223372036854775808" = true ∧
    sameValue (integerSample "9223372036854775807") (integerSample "9223372036854775808") = true ∧
    integerOf "9223372036854775807" < integerOf "9223372036854775808" := by
  decide

end TypedResource

end Lcfg
