import LcfgCore.Library.QSort
import Mathlib.Data.List.Perm.Basic
import Mathlib.Data.List.Count
import Mathlib.Data.List.Chain

/-!
# Bubble sort

The loop which swaps neighbours in the wrong order until a whole pass makes no swap.
`after a b` says that `a` may not stand directly before `b`. Each swap takes away
one inversion, so the loop ends if no two elements are each after the other.
-/
namespace BubbleSort

variable {α : Type} (after : α → α → Bool)

/-- The rest of a pass, with `a` at the present position, and whether anything was swapped. -/
def passFrom (a : α) : List α → List α × Bool
  | [] => ([a], false)
  | b :: rest =>
    if after a b then (b :: (passFrom a rest).1, true)
    else (a :: (passFrom b rest).1, (passFrom b rest).2)

def pass : List α → List α × Bool
  | [] => ([], false)
  | a :: rest => passFrom after a rest

/-- At most `n` passes, until one swaps nothing. -/
def rounds : Nat → List α → List α
  | 0, l => l
  | n + 1, l => if (pass after l).2 then rounds n (pass after l).1 else (pass after l).1

/-- There are fewer swaps than pairs, so this many passes are enough. -/
def sort (l : List α) : List α := rounds after (l.length * l.length + 1) l

/-- The loop, without a limit: passes until one swaps nothing. -/
inductive Loop : List α → List α → Prop where
  | done {l : List α} (unswapped : (pass after l).2 = false) : Loop l (pass after l).1
  | again {l l' : List α} (swapped : (pass after l).2 = true) (next : Loop (pass after l).1 l') :
    Loop l l'

def inversions : List α → Nat
  | [] => 0
  | a :: rest => rest.countP (after a) + inversions rest

variable {after}

theorem passFrom_perm (a : α) (l : List α) : (passFrom after a l).1.Perm (a :: l) := by
  induction l generalizing a with
  | nil => exact .refl _
  | cons b rest ih =>
    rw [passFrom]
    split
    · exact ((ih a).cons b).trans (.swap a b rest)
    · exact (ih b).cons a

theorem pass_perm (l : List α) : (pass after l).1.Perm l := by
  cases l with
  | nil => exact .refl _
  | cons a rest => exact passFrom_perm a rest

theorem rounds_perm (n : Nat) (l : List α) : (rounds after n l).Perm l := by
  induction n generalizing l with
  | zero => exact .refl _
  | succ n ih =>
    rw [rounds]
    split
    · exact (ih _).trans (pass_perm l)
    · exact pass_perm l

theorem sort_perm (l : List α) : (sort after l).Perm l := rounds_perm _ l

/-- A pass without a swap changes nothing, and finds no neighbours in the wrong order. -/
theorem passFrom_unswapped (a : α) (l : List α) (none_ : (passFrom after a l).2 = false) :
    (passFrom after a l).1 = a :: l ∧ (a :: l).IsChain fun a b => after a b = false := by
  induction l generalizing a with
  | nil => exact ⟨rfl, .singleton a⟩
  | cons b rest ih =>
    rw [passFrom] at none_ ⊢
    split at none_
    · cases none_
    case isFalse ordered =>
      obtain ⟨same, chain⟩ := ih b none_
      rw [if_neg ordered, same]
      exact ⟨rfl, .cons_cons (Bool.eq_false_iff.mpr ordered) chain⟩

theorem pass_unswapped {l : List α} (none_ : (pass after l).2 = false) :
    (pass after l).1 = l ∧ l.IsChain fun a b => after a b = false := by
  cases l with
  | nil => exact ⟨rfl, .nil⟩
  | cons a rest => exact passFrom_unswapped a rest none_

/-- Only what is compared counts. -/
theorem sort_map {β : Type} {seen : β → β → Bool} (f : α → β)
    (same : ∀ a b, after a b = seen (f a) (f b)) (l : List α) :
    (sort after l).map f = sort seen (l.map f) := by
  have passFrom_map (a : α) (l : List α) : passFrom seen (f a) (l.map f) =
      ((passFrom after a l).1.map f, (passFrom after a l).2) := by
    induction l generalizing a with
    | nil => rfl
    | cons b rest ih =>
      rw [List.map_cons, passFrom, passFrom, ← same]
      split
      · rw [ih a, List.map_cons]
      · rw [ih b, List.map_cons]
  have pass_map (l : List α) : pass seen (l.map f) = ((pass after l).1.map f, (pass after l).2) := by
    cases l with
    | nil => rfl
    | cons a rest => exact passFrom_map a rest
  have rounds_map (n : Nat) (l : List α) :
      rounds seen n (l.map f) = (rounds after n l).map f := by
    induction n generalizing l with
    | zero => rfl
    | succ n ih =>
      rw [rounds, rounds, pass_map]
      split
      · exact ih _
      · rfl
  rw [sort, sort, List.length_map, rounds_map]

/-! ### Elements which are not swapped -/

section Stable

variable {keep : α → Bool} (tied : ∀ a b, keep a = true → keep b = true → after a b = false)
include tied

/-- A swap takes place between two elements of which at least one is not kept. -/
private theorem passFrom_filter (a : α) (l : List α) :
    (passFrom after a l).1.filter keep = (a :: l).filter keep := by
  induction l generalizing a with
  | nil => rfl
  | cons b rest ih =>
    rw [passFrom]
    split
    case isTrue swapped =>
      have one : ¬(keep a = true ∧ keep b = true) := fun both =>
        absurd swapped (by rw [tied a b both.1 both.2]; exact Bool.false_ne_true)
      rw [List.filter_cons, ih a]
      cases keepA : keep a <;> cases keepB : keep b <;> simp_all [List.filter_cons]
    case isFalse => rw [List.filter_cons, ih b, ← List.filter_cons]

/-- What is never out of order keeps its order. -/
theorem sort_filter (l : List α) : (sort after l).filter keep = l.filter keep := by
  have pass_filter (l : List α) : (pass after l).1.filter keep = l.filter keep := by
    cases l with
    | nil => rfl
    | cons a rest => exact passFrom_filter tied a rest
  have rounds_filter (n : Nat) (l : List α) : (rounds after n l).filter keep = l.filter keep := by
    induction n generalizing l with
    | zero => rfl
    | succ n ih =>
      rw [rounds]
      split
      · rw [ih, pass_filter]
      · exact pass_filter l
  exact rounds_filter _ l

end Stable

section Asymmetric

variable (asymm : ∀ a b, after a b = true → after b a = false)
include asymm

/-- Swapping two neighbours takes away their inversion and no other one. -/
private theorem passFrom_inversions (a : α) (l : List α) :
    inversions after (passFrom after a l).1 + (if (passFrom after a l).2 then 1 else 0) ≤
      inversions after (a :: l) := by
  induction l generalizing a with
  | nil => simp [passFrom, inversions]
  | cons b rest ih =>
    rw [passFrom]
    split
    case isTrue wrong =>
      have fewer := ih a
      have moved := (@passFrom_perm _ after a rest).countP_eq (after b)
      rw [List.countP_cons_of_neg (by simp [asymm a b wrong])] at moved
      simp only [inversions, if_true, List.countP_cons_of_pos wrong] at fewer ⊢
      omega
    case isFalse right =>
      have fewer := ih b
      have moved := (@passFrom_perm _ after b rest).countP_eq (after a)
      simp only [inversions] at fewer ⊢
      omega

theorem pass_inversions {l : List α} (swapped : (pass after l).2 = true) :
    inversions after (pass after l).1 < inversions after l := by
  cases l with
  | nil => cases swapped
  | cons a rest =>
    have fewer := passFrom_inversions asymm a rest
    rw [pass] at swapped ⊢
    rw [if_pos swapped] at fewer
    omega

/-- The loop ends with a pass that swaps nothing, however many more passes are allowed. -/
theorem rounds_spec {n : Nat} {l : List α} (enough : inversions after l < n) :
    (rounds after n l).IsChain (fun a b => after a b = false) ∧
      ∀ m, inversions after l < m → rounds after m l = rounds after n l := by
  induction n generalizing l with
  | zero => omega
  | succ n ih =>
    rw [rounds]
    split
    case isTrue swapped =>
      have fewer := pass_inversions asymm swapped
      obtain ⟨chain, same⟩ := ih (by omega : inversions after (pass after l).1 < n)
      refine ⟨chain, fun m enough' => ?_⟩
      obtain ⟨m, rfl⟩ : ∃ k, m = k + 1 := ⟨m - 1, by omega⟩
      rw [rounds, if_pos swapped]
      exact same m (by omega)
    case isFalse unswapped =>
      obtain ⟨same, chain⟩ := pass_unswapped (Bool.eq_false_iff.mpr unswapped)
      rw [same]
      refine ⟨chain, fun m enough' => ?_⟩
      obtain ⟨m, rfl⟩ : ∃ k, m = k + 1 := ⟨m - 1, by omega⟩
      rw [rounds, if_neg unswapped, same]

omit asymm in
theorem inversions_le (l : List α) : inversions after l ≤ l.length * l.length := by
  induction l with
  | nil => simp [inversions]
  | cons a rest ih =>
    have few := List.countP_le_length (p := after a) (l := rest)
    rw [inversions, List.length_cons, Nat.succ_mul, Nat.mul_succ]
    omega

theorem sort_chain (l : List α) : (sort after l).IsChain fun a b => after a b = false :=
  (rounds_spec asymm (Nat.lt_succ_of_le (inversions_le l))).1

private theorem loop_rounds {n : Nat} {l : List α} (enough : inversions after l < n) :
    Loop after l (rounds after n l) := by
  induction n generalizing l with
  | zero => omega
  | succ n ih =>
    rw [rounds]
    split
    case isTrue swapped =>
      have fewer := pass_inversions asymm swapped
      exact .again swapped (ih (by omega))
    case isFalse unswapped => exact .done (Bool.eq_false_iff.mpr unswapped)

/-- The loop ends. -/
theorem loop_sort (l : List α) : Loop after l (sort after l) :=
  loop_rounds asymm (Nat.lt_succ_of_le (inversions_le l))

/-- With a transitive order no element stands anywhere before one it is after. -/
theorem sort_pairwise (trans : ∀ a b c, after a b = false → after b c = false → after a c = false)
    (l : List α) : (sort after l).Pairwise fun a b => after a b = false := by
  have : IsTrans α fun a b => after a b = false := ⟨trans⟩
  exact List.isChain_iff_pairwise.mp (sort_chain asymm l)

end Asymmetric

/-! ### Sorting by a comparison -/

section Compare

variable {cmp : α → α → Int} (preorder : QSort.Preorder cmp)
include preorder

theorem compare_asymm (a b : α) (later : decide (cmp a b > 0) = true) :
    decide (cmp b a > 0) = false := by
  have swap := preorder.swap a b
  rw [decide_eq_true_eq] at later
  rw [decide_eq_false_iff_not]
  omega

theorem sort_ordered (l : List α) :
    (sort (fun a b => cmp a b > 0) l).Pairwise fun a b => cmp a b ≤ 0 := by
  refine (sort_pairwise (compare_asymm preorder) (fun a b c ab bc => ?_) l).imp fun ordered => ?_
  · simp only [gt_iff_lt, decide_eq_false_iff_not, not_lt] at ab bc ⊢
    exact preorder.trans a b c ab bc
  · simpa using ordered

/-- What compares equal is never swapped. -/
theorem sort_tied (l : List α) (p : α) :
    (sort (fun a b => cmp a b > 0) l).filter (fun a => cmp a p = 0) =
      l.filter fun a => cmp a p = 0 := by
  refine sort_filter (fun a b tiedA tiedB => ?_) l
  have tiedA := ((preorder.eq_zero_iff _ _).mp (of_decide_eq_true tiedA)).1
  have tiedB := ((preorder.eq_zero_iff _ _).mp (of_decide_eq_true tiedB)).2
  simp only [gt_iff_lt, decide_eq_false_iff_not, not_lt]
  exact preorder.trans _ p _ tiedA tiedB

end Compare

end BubbleSort
