import LcfgCore.Context.List
import Mathlib.Data.List.Basic

/-!
# The grammar of context expressions

The productions of `parser.y` with their actions, and the Boolean meaning of the
expressions they derive. The connectives associate to the left and have one
common precedence, since every one of them is a production of `expression`.
-/
namespace Lcfg.Context

open SignedTruth

/-! ## Tokens and productions -/

inductive Connective where
  | or | xor | and
deriving DecidableEq, Repr

inductive Comparison where
  | eq | ne
deriving DecidableEq, Repr

/-- The tokens of the scanner; `END` is the end of the token list. A character
which the scanner does not know is passed on, and is no token of the grammar. -/
inductive Token where
  | ctxName (name : String)
  | valueString (value : String)
  | valueBool (value : Bool)
  | cmp (comparison : Comparison)
  | op (connective : Connective)
  | opNot
  | parenLeft
  | parenRight
  | invalid (character : Char)
deriving DecidableEq, Repr

/-- What may stand to the right of a comparison. -/
inductive Operand where
  | string (value : String)
  | name (value : String)
  | bool (value : Bool)
deriving DecidableEq, Repr

mutual

/-- The productions of `expression`. -/
inductive Expression where
  | binary (left : Expression) (connective : Connective) (right : Term)
  | term (term : Term)

/-- The productions of `term`. -/
inductive Term where
  | paren (expression : Expression)
  | notParen (expression : Expression)
  | name (name : String)
  | notName (name : String)
  | compare (name : String) (comparison : Comparison) (operand : Operand)

end

/-- The productions of `query`. -/
inductive Query where
  | empty
  | expression (tree : Expression)

/-! ## The sentence of a derivation -/

def Operand.token : Operand → Token
  | .string value => .valueString value
  | .name value => .ctxName value
  | .bool value => .valueBool value

mutual

def Expression.yield : Expression → List Token
  | .binary left connective right => left.yield ++ .op connective :: right.yield
  | .term term => term.yield

def Term.yield : Term → List Token
  | .paren expression => .parenLeft :: (expression.yield ++ [.parenRight])
  | .notParen expression => .opNot :: .parenLeft :: (expression.yield ++ [.parenRight])
  | .name name => [.ctxName name]
  | .notName name => [.opNot, .ctxName name]
  | .compare name comparison operand => [.ctxName name, .cmp comparison, operand.token]

end

def Query.yield : Query → List Token
  | .empty => []
  | .expression tree => tree.yield

/-! ## The actions -/

def greater (a b : Int) : Int := if a > b then a else b

def lesser (a b : Int) : Int := if a < b then a else b

def Connective.action (left right : Int) : Connective → Int
  | .or => if left < 0 ∧ right < 0 then lesser left right else greater left right
  | .xor =>
    if left < 0 ∧ right < 0 then lesser left right
    else if left > 0 ∧ right > 0 then greater left right * -1
    else greater left right
  | .and => if left > 0 ∧ right > 0 then greater left right else lesser left right

/-- The test which a comparison with a Boolean constant makes, for either sign. -/
def boolTest (value : Bool) : LCFGTest := if value then .isTrue else .isFalse

def compareAction (ctxlist : LCFGContextList) (name : String) : Comparison → Operand → Int
  | .eq, .string value => ctxlist.simpleQuery name (some value) .isEq
  | .ne, .string value => ctxlist.simpleQuery name (some value) .isNe
  | .eq, .name value => ctxlist.simpleQuery name (some value) .isEq
  | .ne, .name value => ctxlist.simpleQuery name (some value) .isNe
  | .eq, .bool value => ctxlist.simpleQuery name none (boolTest value)
  | .ne, .bool value => ctxlist.simpleQuery name none (boolTest value) * -1

mutual

def Expression.value (ctxlist : LCFGContextList) : Expression → Int
  | .binary left connective right =>
    connective.action (left.value ctxlist) (right.value ctxlist)
  | .term term => term.value ctxlist

def Term.value (ctxlist : LCFGContextList) : Term → Int
  | .paren expression => expression.value ctxlist
  | .notParen expression => -1 * expression.value ctxlist
  | .name name => ctxlist.simpleQuery name none .isTrue
  | .notName name => ctxlist.simpleQuery name none .isFalse
  | .compare name comparison operand => compareAction ctxlist name comparison operand

end

def Query.value (ctxlist : LCFGContextList) : Query → Int
  | .empty => 0
  | .expression tree => tree.value ctxlist

/-! ## The meaning of an expression -/

def Connective.truth (left right : Bool) : Connective → Bool
  | .or => left || right
  | .xor => left ^^ right
  | .and => left && right

def Operand.truth (ctxlist : LCFGContextList) (name : String) : Operand → Bool
  | .string value => ctxlist.valueOf name = value
  | .name value => ctxlist.valueOf name = value
  | .bool true => LCFGContext.isTrue (ctxlist.findContext name)
  | .bool false => LCFGContext.isFalse (ctxlist.findContext name)

mutual

/-- The Boolean reading of an expression under the assignment of the list. -/
def Expression.truth (ctxlist : LCFGContextList) : Expression → Bool
  | .binary left connective right =>
    connective.truth (left.truth ctxlist) (right.truth ctxlist)
  | .term term => term.truth ctxlist

def Term.truth (ctxlist : LCFGContextList) : Term → Bool
  | .paren expression => expression.truth ctxlist
  | .notParen expression => !expression.truth ctxlist
  | .name name => LCFGContext.isTrue (ctxlist.findContext name)
  | .notName name => !LCFGContext.isTrue (ctxlist.findContext name)
  | .compare name .eq operand => operand.truth ctxlist name
  | .compare name .ne operand => !operand.truth ctxlist name

end

mutual

/-- The contexts mentioned, in the order of the query. -/
def Expression.names : Expression → List String
  | .binary left _ right => left.names ++ right.names
  | .term term => term.names

def Term.names : Term → List String
  | .paren expression => expression.names
  | .notParen expression => expression.names
  | .name name => [name]
  | .notName name => [name]
  | .compare name _ _ => [name]

end

/-! ## The value of an expression carries its truth -/

theorem greater_eq_max (a b : Int) : greater a b = max a b := by
  unfold greater
  split <;> omega

theorem lesser_eq_min (a b : Int) : lesser a b = min a b := by
  unfold lesser
  split <;> omega

section Carried

variable {weights : Set Int} {a b : Bool} {v w : Int}

/-- Whichever of the two values an action picks, when their truth settles the
choice, its weight is one of theirs. -/
theorem Connective.action_carries (left : Carries weights a v) (right : Carries weights b w)
    (connective : Connective) :
    Carries weights (connective.truth a b) (connective.action v w) := by
  have highest := left.max right
  have lowest := left.min right
  cases connective with
  | or =>
    simp only [truth, action, left.neg_iff, right.neg_iff, lesser_eq_min, greater_eq_max]
    split
    next both =>
      obtain ⟨rfl, rfl⟩ := both
      exact lowest
    next => exact highest
  | xor =>
    simp only [truth, action, gt_iff_lt, left.neg_iff, right.neg_iff, left.pos_iff,
      right.pos_iff, lesser_eq_min, greater_eq_max, Int.mul_neg, Int.mul_one]
    split
    next both =>
      obtain ⟨rfl, rfl⟩ := both
      exact lowest
    next mixed =>
      split
      next both =>
        obtain ⟨rfl, rfl⟩ := both
        exact highest.neg
      next other =>
        -- exactly one side holds, where "or" and "xor" agree
        have same : (a ^^ b) = (a || b) := by cases a <;> cases b <;> simp_all
        rw [same]
        exact highest
  | and =>
    simp only [truth, action, gt_iff_lt, left.pos_iff, right.pos_iff, lesser_eq_min,
      greater_eq_max]
    split
    next both =>
      obtain ⟨rfl, rfl⟩ := both
      exact highest
    next => exact lowest

end Carried

section Soundness

variable {ctxlist : LCFGContextList}

theorem compareAction_carries (positive : ∀ ctx ∈ ctxlist.getD [], 1 ≤ ctx.priority)
    (name : String) (comparison : Comparison) (operand : Operand) :
    Carries (ctxlist.weights [name]) ((Term.compare name comparison operand).truth ctxlist)
      (compareAction ctxlist name comparison operand) := by
  have query := LCFGContextList.simpleQuery_carries positive name
  cases comparison with
  | eq =>
    cases operand with
    | string value => exact query (some value) .isEq
    | name value => exact query (some value) .isEq
    | bool value =>
      cases value with
      | true => exact query none .isTrue
      | false => exact query none .isFalse
  | ne =>
    cases operand with
    | string value =>
      have differs := query (some value) .isNe
      simpa [Term.truth, Operand.truth, LCFGContextList.test, compareAction] using differs
    | name value =>
      have differs := query (some value) .isNe
      simpa [Term.truth, Operand.truth, LCFGContextList.test, compareAction] using differs
    | bool value =>
      -- the test is made for the constant itself and its result negated
      simp only [compareAction, Int.mul_neg, Int.mul_one]
      cases value with
      | true => exact (query none .isTrue).neg
      | false => exact (query none .isFalse).neg

mutual

/-- Soundness of the actions, by recursion on the derivation: the value is never
zero, its sign is the truth and its magnitude belongs to a context mentioned. -/
theorem Expression.value_carries (positive : ∀ ctx ∈ ctxlist.getD [], 1 ≤ ctx.priority) :
    ∀ expression : Expression, Carries (ctxlist.weights expression.names)
      (expression.truth ctxlist) (expression.value ctxlist)
  | .binary left connective right => by
    have onLeft := (left.value_carries positive).mono
      (ctxlist.weights_mono (List.subset_append_left left.names right.names))
    have onRight := (right.value_carries positive).mono
      (ctxlist.weights_mono (List.subset_append_right left.names right.names))
    simp only [Expression.names, Expression.truth, Expression.value]
    exact connective.action_carries onLeft onRight
  | .term term => by
    simp only [Expression.names, Expression.truth, Expression.value]
    exact term.value_carries positive

theorem Term.value_carries (positive : ∀ ctx ∈ ctxlist.getD [], 1 ≤ ctx.priority) :
    ∀ term : Term, Carries (ctxlist.weights term.names) (term.truth ctxlist)
      (term.value ctxlist)
  | .paren expression => by
    simp only [Term.names, Term.truth, Term.value]
    exact expression.value_carries positive
  | .notParen expression => by
    simp only [Term.names, Term.truth, Term.value, Int.neg_mul, Int.one_mul]
    exact (expression.value_carries positive).neg
  | .name name => LCFGContextList.simpleQuery_carries positive name none .isTrue
  | .notName name => by
    have query := LCFGContextList.simpleQuery_carries positive name none .isFalse
    simpa [Term.names, Term.truth, Term.value, LCFGContextList.test, LCFGContext.isTrue] using query
  | .compare name comparison operand => compareAction_carries positive name comparison operand

end

end Soundness

end Lcfg.Context
