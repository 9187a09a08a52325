import LcfgCore.Library.QSort
import Mathlib.Algebra.Group.Int.Defs
import Mathlib.Algebra.Order.Ring.Nat
import Mathlib.Data.List.Basic

/-!
# Common types

The status codes, merge rules and string helpers which every part of the
library shares (`common.h` and the C string functions).
-/
namespace Lcfg

/-- The address of a structure on the heap. -/
abbrev Addr := Nat

inductive LCFGChange where
  | error | none | modified | added | replaced | removed
deriving DecidableEq, Repr

def LCFGChange.isOk (c : LCFGChange) : Bool := c ≠ .error

/-- The merge rules are a set of bits, `LCFG_MERGE_RULE_NONE` being the empty set. -/
structure LCFGMergeRule where
  keepAll : Bool := false
  squashIdentical : Bool := false
  usePriority : Bool := false
  usePrefix : Bool := false
  replace : Bool := false
deriving DecidableEq, Repr

/-- The options of the functions that read and write, `LCFG_OPT_NONE` being the empty set. -/
structure LCFGOption where
  noContext : Bool := false
  noPrefix : Bool := false
  newline : Bool := false
  noValue : Bool := false
  noTemplates : Bool := false
  allowNoExist : Bool := false
  encode : Bool := false
  allContexts : Bool := false
  allPriorities : Bool := false
  useMeta : Bool := false
  allValues : Bool := false
  compat : Bool := false
  legacy : Bool := false
  new : Bool := false
deriving DecidableEq, Repr

/-- A diagnostic message: a plain text, or a text about a package or resource,
which the library prints together with its specification and derivation. -/
inductive Message where
  | plain (text : String)
  | about (item : Option Addr) (text : String)
  | caused (item : Addr) (text : String) (cause : Message)
deriving DecidableEq, Repr

/-- `isempty`: a missing string counts as empty. -/
def isEmpty : Option String → Bool
  | none => true
  | some s => s == ""

def orDefault (s : Option String) (default : String) : String :=
  match s with
  | none => default
  | some v => if v == "" then default else v

@[simp] theorem orDefault_empty (s : Option String) : orDefault s "" = s.getD "" := by
  cases s with
  | none => rfl
  | some v =>
    simp only [orDefault, Option.getD_some, beq_iff_eq, ite_eq_right_iff]
    exact Eq.symm

theorem isEmpty_iff (s : Option String) : isEmpty s = true ↔ s.getD "" = "" := by
  cases s <;> simp [isEmpty]

/-- A C string has no NUL among its characters. -/
def NoNul (string : String) : Prop := ∀ c ∈ string.toList, c.toNat ≠ 0

/-- The `isspace` of the C locale. -/
def isSpace (c : Char) : Bool := c == ' ' || (9 ≤ c.toNat && c.toNat ≤ 13)

def isWord (c : Char) : Bool := c.isAlphanum || c == '_'

theorem isSpace_of_word {c : Char} (word : isWord c = true) : isSpace c = false := by
  have value : 48 ≤ c.toNat := by
    rw [isWord, Bool.or_eq_true, beq_iff_eq] at word
    rcases word with alnum | rfl
    · have range : 48 ≤ c.val.toNat := by
        have digit : '0'.val.toNat = 48 := rfl
        have upper : 'A'.val.toNat = 65 := rfl
        have lower : 'a'.val.toNat = 97 := rfl
        unfold Char.isAlphanum Char.isAlpha Char.isUpper Char.isLower Char.isDigit at alnum
        simp only [Bool.or_eq_true, Bool.and_eq_true, decide_eq_true_eq, UInt32.le_iff_toNat_le,
          ge_iff_le] at alnum
        omega
      exact range
    · decide
  have blank : c ≠ ' ' := by
    rintro rfl
    exact absurd value (by decide)
  simp [isSpace, blank]
  omega

def compareChars : List Char → List Char → Int
  | [], [] => 0
  | [], _ :: _ => -1
  | _ :: _, [] => 1
  | a :: as, b :: bs => if a = b then compareChars as bs else if a.toNat < b.toNat then -1 else 1

/-- Only the sign of the result is specified in C. -/
def strcmp (a b : String) : Int := compareChars a.toList b.toList

def strcasecmp (a b : String) : Int :=
  compareChars (a.toList.map Char.toLower) (b.toList.map Char.toLower)

/-- `lcfgutils_string_djbhash` of a single string, in an `unsigned long`. -/
def djbhash (string : String) : Nat :=
  string.toList.foldl (fun hash p => (hash * 33 + p.toNat) % 2 ^ 64) 5381

theorem compareChars_eq_zero (a b : List Char) : compareChars a b = 0 ↔ a = b := by
  induction a generalizing b with
  | nil => cases b <;> simp [compareChars]
  | cons x xs ih =>
    cases b with
    | nil => simp [compareChars]
    | cons y ys =>
      by_cases same : x = y
      · simp [compareChars, same, ih]
      · simp only [compareChars, same, if_false, List.cons.injEq, false_and, iff_false]
        split <;> simp

theorem compareChars_swap (a b : List Char) : compareChars b a = -compareChars a b := by
  induction a generalizing b with
  | nil => cases b <;> rfl
  | cons x xs ih =>
    cases b with
    | nil => rfl
    | cons y ys =>
      by_cases same : x = y
      · simp [compareChars, same, ih]
      · have other : x.toNat ≠ y.toNat := fun equal => same (Char.toNat_inj.mp equal)
        simp only [compareChars, same, Ne.symm same, if_false]
        rcases Nat.lt_or_gt_of_ne other with less | more
        · simp [less, Nat.not_lt.mpr (Nat.le_of_lt less)]
        · simp [more, Nat.not_lt.mpr (Nat.le_of_lt more)]

theorem compareChars_trans {a b c : List Char} (left : compareChars a b ≤ 0)
    (right : compareChars b c ≤ 0) : compareChars a c ≤ 0 := by
  induction a generalizing b c with
  | nil => cases c <;> simp [compareChars]
  | cons x xs ih =>
    cases b with
    | nil => simp [compareChars] at left
    | cons y ys =>
      cases c with
      | nil => simp [compareChars] at right
      | cons z zs =>
        rw [compareChars] at left right ⊢
        by_cases xy : x = y
        · subst xy
          by_cases xz : x = z
          · rw [if_pos rfl] at left
            rw [if_pos xz] at right ⊢
            exact ih left right
          · rwa [if_neg xz] at right ⊢
        · -- the first characters decide
          by_cases yz : y = z
          · subst yz
            rwa [if_neg xy] at left ⊢
          · rw [if_neg xy] at left
            rw [if_neg yz] at right
            have less : x.toNat < y.toNat := by
              by_contra more
              simp [more] at left
            have less' : y.toNat < z.toNat := by
              by_contra more
              simp [more] at right
            have differ : x ≠ z := by
              rintro rfl
              omega
            rw [if_neg differ, if_pos (Nat.lt_trans less less')]
            decide

@[simp] theorem strcmp_eq_zero (a b : String) : strcmp a b = 0 ↔ a = b := by
  rw [strcmp, compareChars_eq_zero, String.toList_inj]

@[simp] theorem strcasecmp_eq_zero (a b : String) :
    strcasecmp a b = 0 ↔ a.toList.map Char.toLower = b.toList.map Char.toLower :=
  compareChars_eq_zero _ _

theorem strcmp_swap (a b : String) : strcmp b a = -strcmp a b := compareChars_swap _ _

theorem strcmp_trans {a b c : String} (left : strcmp a b ≤ 0) (right : strcmp b c ≤ 0) :
    strcmp a c ≤ 0 := compareChars_trans left right

theorem strcasecmp_swap (a b : String) : strcasecmp b a = -strcasecmp a b := compareChars_swap _ _

theorem strcasecmp_trans {a b c : String} (left : strcasecmp a b ≤ 0)
    (right : strcasecmp b c ≤ 0) : strcasecmp a c ≤ 0 := compareChars_trans left right

theorem strcmp_preorder : QSort.Preorder strcmp :=
  ⟨fun a b => by rw [strcmp_swap a b]; omega, fun _ _ _ => strcmp_trans⟩

theorem strcasecmp_preorder : QSort.Preorder strcasecmp :=
  ⟨fun a b => by rw [strcasecmp_swap a b]; omega, fun _ _ _ => strcasecmp_trans⟩

/-- As many different names as are needed. -/
def longName (i : Nat) : String := String.ofList (List.replicate (i + 1) 'a')

theorem longName_ne_empty (i : Nat) : longName i ≠ "" := by
  intro same
  have same := congrArg String.toList same
  rw [longName, String.toList_ofList] at same
  cases same

theorem longName_word (i : Nat) : (longName i).toList.all isWord = true := by
  rw [longName, String.toList_ofList, List.all_replicate]
  simp [isWord]

theorem longName_injective : Function.Injective longName := by
  intro i j same
  have same := congrArg List.length (congrArg String.toList same)
  rw [longName, longName, String.toList_ofList, String.toList_ofList, List.length_replicate,
    List.length_replicate] at same
  exact Nat.succ.inj same

end Lcfg
