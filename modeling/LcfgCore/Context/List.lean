import LcfgCore.Common
import LcfgCore.Library.SignedTruth
import Mathlib.Algebra.Order.Group.Int

/-!
# Contexts

A context is a named value with a priority. A query about a single context is
answered by one integer, which is positive when the condition holds and whose
magnitude is the priority of the context.
-/
namespace Lcfg

open SignedTruth

structure LCFGContext where
  name : Option String
  value : Option String
  priority : Int
deriving DecidableEq, Repr

inductive LCFGTest where
  | isTrue | isFalse | isEq | isNe
deriving DecidableEq, Repr

namespace LCFGContext

def isValid (ctx : LCFGContext) : Bool := !isEmpty ctx.name

def «match» (ctx : LCFGContext) (wantName : String) : Bool :=
  strcmp (orDefault ctx.name "") wantName = 0

def validFalseValues : List String := ["false", "no", "off", "0", ""]

/-- A missing context, or one without a value, is false. -/
def isFalse : Option LCFGContext → Bool
  | none => true
  | some ctx =>
    match ctx.value with
    | none => true
    | some value => value == "" || validFalseValues.any fun known => strcasecmp value known = 0

def isTrue (ctx : Option LCFGContext) : Bool := !isFalse ctx

end LCFGContext

/-- The contexts in the order of the list nodes; `none` is a missing list. -/
abbrev LCFGContextList := Option (List LCFGContext)

namespace LCFGContextList

def findContext (ctxlist : LCFGContextList) (name : String) : Option LCFGContext :=
  (ctxlist.getD []).find? fun ctx => ctx.isValid && ctx.match name

/-- Priorities are positive, so `-1 * priority` is again an `int`. -/
def simpleQuery (ctxlist : LCFGContextList) (name : String) (value : Option String)
    (cmp : LCFGTest) : Int :=
  let ctx := ctxlist.findContext name
  let priority := (ctx.map LCFGContext.priority).getD 1
  let ctxValue := ctx.bind LCFGContext.value
  let sameValue : Bool :=
    if isEmpty value || isEmpty ctxValue then isEmpty value && isEmpty ctxValue
    else strcmp (value.getD "") (ctxValue.getD "") = 0
  let queryIsTrue : Bool :=
    match cmp with
    | .isTrue => LCFGContext.isTrue ctx
    | .isFalse => LCFGContext.isFalse ctx
    | .isEq | .isNe => (sameValue && cmp == .isEq) || (!sameValue && cmp == .isNe)
  if queryIsTrue then priority else -1 * priority

/-! ## The meaning of a single query -/

/-- The value which the list assigns to a name; a missing context counts as empty. -/
def valueOf (ctxlist : LCFGContextList) (name : String) : String :=
  ((ctxlist.findContext name).bind LCFGContext.value).getD ""

/-- The condition which a query about one context stands for. -/
def test (ctxlist : LCFGContextList) (name : String) (value : Option String) : LCFGTest → Bool
  | .isTrue => LCFGContext.isTrue (ctxlist.findContext name)
  | .isFalse => LCFGContext.isFalse (ctxlist.findContext name)
  | .isEq => ctxlist.valueOf name = value.getD ""
  | .isNe => ctxlist.valueOf name ≠ value.getD ""

/-- The magnitudes that a query which mentions these names can have. -/
def weights (ctxlist : LCFGContextList) (names : List String) : Set Int :=
  {weight | weight = 1 ∨
    ∃ name ∈ names, ∃ ctx, ctxlist.findContext name = some ctx ∧ weight = ctx.priority}

theorem weights_mono (ctxlist : LCFGContextList) {names more : List String}
    (sub : names ⊆ more) : ctxlist.weights names ⊆ ctxlist.weights more := by
  rintro weight (one | ⟨name, member, found⟩)
  · exact .inl one
  · exact .inr ⟨name, sub member, found⟩

theorem findContext_mem {ctxlist : LCFGContextList} {name : String} {ctx : LCFGContext}
    (found : ctxlist.findContext name = some ctx) : ctx ∈ ctxlist.getD [] :=
  List.mem_of_find?_eq_some found

/-- Values are compared as if a missing one were the empty string. -/
private theorem sameValue_iff (value ctxValue : Option String) :
    (if isEmpty value || isEmpty ctxValue then isEmpty value && isEmpty ctxValue
      else strcmp (value.getD "") (ctxValue.getD "") = 0) =
      decide (ctxValue.getD "" = value.getD "") := by
  rw [Bool.eq_iff_iff]
  by_cases empty : isEmpty value || isEmpty ctxValue
  · rw [if_pos empty]
    rw [Bool.or_eq_true, isEmpty_iff, isEmpty_iff] at empty
    rw [Bool.and_eq_true, isEmpty_iff, isEmpty_iff, decide_eq_true_iff]
    rcases empty with empty | empty
    · rw [empty]
      exact and_iff_right rfl
    · rw [empty]
      exact (and_iff_left rfl).trans eq_comm
  · rw [if_neg empty, decide_eq_true_iff, decide_eq_true_iff, strcmp_eq_zero]
    exact eq_comm

theorem simpleQuery_eq (ctxlist : LCFGContextList) (name : String) (value : Option String)
    (cmp : LCFGTest) :
    ctxlist.simpleQuery name value cmp =
      if ctxlist.test name value cmp then
        ((ctxlist.findContext name).map LCFGContext.priority).getD 1
      else -((ctxlist.findContext name).map LCFGContext.priority).getD 1 := by
  simp only [simpleQuery, sameValue_iff, Int.neg_mul, Int.one_mul]
  rw [← valueOf]
  cases cmp with
  | isTrue => rfl
  | isFalse => rfl
  | isEq => simp [test]
  | isNe => simp [test]

variable {ctxlist : LCFGContextList}

/-- The sign of a query is its truth, and its magnitude is 1 or the priority of
the context. -/
theorem simpleQuery_carries (positive : ∀ ctx ∈ ctxlist.getD [], 1 ≤ ctx.priority)
    (name : String) (value : Option String) (cmp : LCFGTest) :
    Carries (ctxlist.weights [name]) (ctxlist.test name value cmp)
      (ctxlist.simpleQuery name value cmp) := by
  rw [simpleQuery_eq]
  cases found : ctxlist.findContext name with
  | none => exact .of_weight (.inl rfl) Int.one_pos
  | some ctx =>
    have priority := positive ctx (findContext_mem found)
    refine .of_weight (.inr ⟨name, List.mem_singleton_self name, ctx, found, rfl⟩) ?_
    exact priority

end LCFGContextList

end Lcfg
