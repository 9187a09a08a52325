import Mathlib.Data.List.Perm.Basic
import Mathlib.Data.List.Sort

/-!
# Sorting with `qsort`

The C library promises a permutation in which no entry stands before one which compares
less; the order of entries which compare equal is not specified. `cmp` is the comparison.
-/
namespace QSort

variable {α : Type} (cmp : α → α → Int)

/-- One of the results which `qsort` may leave. -/
structure Sorts (list sorted : List α) : Prop where
  perm : sorted.Perm list
  ordered : sorted.Pairwise fun a b => cmp a b ≤ 0

/-- What the C standard asks of a comparison. -/
structure Preorder : Prop where
  swap : ∀ a b, cmp b a ≤ 0 ↔ 0 ≤ cmp a b
  trans : ∀ a b c, cmp a b ≤ 0 → cmp b c ≤ 0 → cmp a c ≤ 0

variable {cmp}

namespace Preorder

variable (preorder : Preorder cmp)
include preorder

theorem refl (a : α) : cmp a a ≤ 0 := by
  rcases le_total (cmp a a) 0 with here | here
  · exact here
  · exact (preorder.swap a a).mpr here

theorem total (a b : α) : cmp a b ≤ 0 ∨ cmp b a ≤ 0 := by
  rw [preorder.swap]
  exact le_total _ _

theorem eq_zero_iff (a b : α) : cmp a b = 0 ↔ cmp a b ≤ 0 ∧ cmp b a ≤ 0 := by
  rw [preorder.swap a b, le_antisymm_iff]

theorem self (a : α) : cmp a a = 0 :=
  (preorder.eq_zero_iff a a).mpr ⟨preorder.refl a, preorder.refl a⟩

theorem symm {a b : α} (tied : cmp a b = 0) : cmp b a = 0 :=
  (preorder.eq_zero_iff b a).mpr ((preorder.eq_zero_iff a b).mp tied).symm

/-- What compares equal compares alike. -/
theorem tied_iff {a b : α} (tied : cmp a b = 0) (x : α) : cmp x a = 0 ↔ cmp x b = 0 := by
  have both := (preorder.eq_zero_iff a b).mp tied
  rw [preorder.eq_zero_iff, preorder.eq_zero_iff]
  exact ⟨fun same => ⟨preorder.trans _ _ _ same.1 both.1, preorder.trans _ _ _ both.2 same.2⟩,
    fun same => ⟨preorder.trans _ _ _ same.1 both.2, preorder.trans _ _ _ both.1 same.2⟩⟩

/-- The other way round the sign is the opposite. -/
theorem sign_eq (a b : α) : (cmp a b).sign = -(cmp b a).sign := by
  have ab := preorder.swap a b
  have ba := preorder.swap b a
  rcases lt_trichotomy (cmp a b) 0 with less | tied | greater
  · rw [Int.sign_eq_neg_one_of_neg less, Int.sign_eq_one_of_pos (by omega)]
  · rw [tied, preorder.symm tied]
    rfl
  · rw [Int.sign_eq_one_of_pos greater, Int.sign_eq_neg_one_of_neg (by omega)]
    rfl

/-- There is always a result. -/
theorem exists_sorts (list : List α) : ∃ sorted, Sorts cmp list sorted := by
  classical
  have : Std.Total fun a b => cmp a b ≤ 0 := ⟨preorder.total⟩
  have : IsTrans α fun a b => cmp a b ≤ 0 := ⟨preorder.trans⟩
  exact ⟨list.insertionSort fun a b => cmp a b ≤ 0, List.perm_insertionSort _ list,
    List.pairwise_insertionSort _ list⟩

/-- What compares less than `a` may stand before it, and everything else after it. -/
private theorem exists_around (a : α) (others : List α) : ∃ before after : List α,
    (before ++ after).Perm others ∧ before.Pairwise (fun x y => cmp x y ≤ 0) ∧
      after.Pairwise (fun x y => cmp x y ≤ 0) ∧ (∀ x ∈ before, cmp x a < 0) ∧
      ∀ x ∈ after, cmp a x ≤ 0 := by
  obtain ⟨rest, perm, ordered⟩ := preorder.exists_sorts others
  refine ⟨rest.filter fun x => decide (cmp x a < 0), rest.filter fun x => !decide (cmp x a < 0),
    (List.filter_append_perm _ rest).trans perm, ordered.filter _, ordered.filter _,
    fun x member => of_decide_eq_true (List.mem_filter.mp member).2, fun x member => ?_⟩
  have greater := (List.mem_filter.mp member).2
  rw [Bool.not_eq_true', decide_eq_false_iff_not, not_lt] at greater
  exact (preorder.swap x a).mpr greater

/-- With elements between which compare equal to `a` the whole list is in order. -/
private theorem pairwise_around (a : α) (middle : List α) {before after : List α}
    (sortedBefore : before.Pairwise fun x y => cmp x y ≤ 0)
    (sortedAfter : after.Pairwise fun x y => cmp x y ≤ 0) (less : ∀ x ∈ before, cmp x a < 0)
    (greater : ∀ x ∈ after, cmp a x ≤ 0) (tied : ∀ x ∈ middle, cmp x a = 0) :
    (before ++ (middle ++ after)).Pairwise fun x y => cmp x y ≤ 0 := by
  have back : ∀ x ∈ middle, cmp a x ≤ 0 := fun x member =>
    (preorder.swap x a).mpr (tied x member).ge
  refine List.pairwise_append.mpr ⟨sortedBefore, List.pairwise_append.mpr
    ⟨List.pairwise_of_forall_mem_list fun x here y there => ?_, sortedAfter, fun x here y there => ?_⟩,
    fun x here y there => ?_⟩
  · exact preorder.trans x a y (tied x here).le (back y there)
  · exact preorder.trans x a y (tied x here).le (greater y there)
  · rcases List.mem_append.mp there with there | there
    · exact preorder.trans x a y (less x here).le (back y there)
    · exact preorder.trans x a y (less x here).le (greater y there)

/-- What compares equal may be left in any order. -/
theorem exists_arranged {list tied : List α} {a : α}
    (perm : tied.Perm (list.filter fun x => decide (cmp x a = 0))) :
    ∃ sorted, Sorts cmp list sorted ∧ sorted.filter (fun x => decide (cmp x a = 0)) = tied := by
  obtain ⟨before, after, parts, sortedBefore, sortedAfter, less, greater⟩ :=
    preorder.exists_around a (list.filter fun x => !decide (cmp x a = 0))
  have inTied : ∀ x ∈ tied, cmp x a = 0 := fun x member =>
    of_decide_eq_true (List.mem_filter.mp (perm.mem_iff.mp member)).2
  have others : ∀ x ∈ before ++ after, cmp x a ≠ 0 := fun x member => by
    simpa using (List.mem_filter.mp (parts.mem_iff.mp member)).2
  refine ⟨before ++ (tied ++ after), ⟨?_, ?_⟩, ?_⟩
  · have moved : (before ++ (tied ++ after)).Perm (tied ++ (before ++ after)) := by
      rw [← List.append_assoc, ← List.append_assoc]
      exact List.perm_append_comm.append_right after
    exact moved.trans ((perm.append parts).trans (List.filter_append_perm _ list))
  · exact preorder.pairwise_around a tied sortedBefore sortedAfter less greater inTied
  · rw [List.filter_append, List.filter_append,
      List.filter_eq_nil_iff.mpr fun x member => by simpa using others x (by simp [member]),
      List.filter_eq_self.mpr fun x member => decide_eq_true (inTied x member),
      List.filter_eq_nil_iff.mpr fun x member => by simpa using others x (by simp [member]),
      List.nil_append, List.append_nil]

/-- Two entries which compare equal may be left in either order, before all others which
compare equal. -/
theorem exists_swapped {list : List α} {a b : α} {others : List α}
    (perm : list.Perm (a :: b :: others)) (tied : cmp a b = 0) :
    ∃ before after, Sorts cmp list (before ++ a :: b :: after) ∧
      Sorts cmp list (before ++ b :: a :: after) ∧ ∀ x ∈ before, cmp x a < 0 := by
  obtain ⟨before, after, parts, sortedBefore, sortedAfter, less, greater⟩ :=
    preorder.exists_around a others
  have same := preorder.self a
  have back := preorder.symm tied
  have counted : (before ++ a :: b :: after).Perm list := by
    refine List.Perm.trans ?_ perm.symm
    refine List.perm_middle.trans (List.Perm.cons a ?_)
    exact List.perm_middle.trans (parts.cons b)
  refine ⟨before, after, ⟨counted, ?_⟩, ⟨?_, ?_⟩, less⟩
  · exact preorder.pairwise_around a [a, b] sortedBefore sortedAfter less greater
      (by simp [same, back])
  · exact (List.Perm.append_left before (List.Perm.swap a b after)).trans counted
  · exact preorder.pairwise_around a [b, a] sortedBefore sortedAfter less greater
      (by simp [same, back])

/-! ### Building comparisons -/

/-- Compare what `f` gives. -/
theorem comap {β : Type} (f : β → α) : Preorder fun a b => cmp (f a) (f b) :=
  ⟨fun a b => preorder.swap (f a) (f b), fun a b c => preorder.trans (f a) (f b) (f c)⟩

/-- Only the signs count. -/
theorem of_sign {cmp' : α → α → Int} (le : ∀ a b, cmp' a b ≤ 0 ↔ cmp a b ≤ 0)
    (ge : ∀ a b, 0 ≤ cmp' a b ↔ 0 ≤ cmp a b) : Preorder cmp' where
  swap a b := by rw [le, ge, preorder.swap]
  trans a b c := by
    rw [le, le, le]
    exact preorder.trans a b c

/-- A second comparison decides where the first one finds no difference. -/
theorem thenBy {cmp' : α → α → Int} (second : Preorder cmp') :
    Preorder fun a b => if cmp a b = 0 then cmp' a b else cmp a b where
  swap a b := by
    by_cases tied : cmp a b = 0
    · simp only [tied, preorder.symm tied, if_true]
      exact second.swap a b
    · have other : cmp b a ≠ 0 := fun zero => tied (preorder.symm zero)
      simp only [tied, other, if_false]
      exact preorder.swap a b
  trans a b c le le' := by
    have first {a b : α} (le : (if cmp a b = 0 then cmp' a b else cmp a b) ≤ 0) :
        cmp a b ≤ 0 := by
      split at le
      · omega
      · exact le
    have ac := preorder.trans a b c (first le) (first le')
    split
    case isTrue tied =>
      -- all three compare equal
      have back := ((preorder.eq_zero_iff a c).mp tied).2
      have ab : cmp a b = 0 :=
        (preorder.eq_zero_iff a b).mpr ⟨first le, preorder.trans b c a (first le') back⟩
      have bc : cmp b c = 0 :=
        (preorder.eq_zero_iff b c).mpr ⟨first le', preorder.trans c a b back (first le)⟩
      rw [if_pos ab] at le
      rw [if_pos bc] at le'
      exact second.trans a b c le le'
    case isFalse => exact ac

end Preorder

/-- Numbers, in their order. -/
theorem preorder_sub : Preorder fun a b : Int => a - b :=
  ⟨fun a b => by omega, fun a b c => by omega⟩

/-- What is compared may be sorted in the place of the entries. -/
theorem sorts_map_iff {β : Type} {seen : β → β → Int} (f : α → β)
    (compared : ∀ a b, cmp a b = seen (f a) (f b)) (list : List α) (sorted : List β) :
    Sorts seen (list.map f) sorted ↔ ∃ entries, Sorts cmp list entries ∧ entries.map f = sorted := by
  constructor
  · rintro ⟨perm, ordered⟩
    have views : List.Forall₂ (fun b a => b = f a) (list.map f) list := by
      rw [List.forall₂_map_left_iff]
      exact List.forall₂_same.mpr fun _ _ => rfl
    obtain ⟨entries, seenAs, permEntries⟩ := List.perm_comp_forall₂ perm views
    obtain rfl : entries.map f = sorted := by
      have := List.forall₂_map_right_iff.mpr seenAs
      rw [List.forall₂_eq_eq_eq] at this
      exact this.symm
    exact ⟨entries, ⟨permEntries, (List.pairwise_map.mp ordered).imp fun {a b} le =>
      (compared a b).trans_le le⟩, rfl⟩
  · rintro ⟨entries, ⟨perm, ordered⟩, rfl⟩
    exact ⟨perm.map f, List.pairwise_map.mpr (ordered.imp fun {a b} le =>
      (compared a b).symm.trans_le le)⟩

/-- Two results for lists with the same entries, as far as the entries can be seen: if what
compares equal looks the same, so do the results. -/
theorem Sorts.map_eq {β : Type} {list list' sorted sorted' : List α} (look : α → β)
    (sorts : Sorts cmp list sorted) (sorts' : Sorts cmp list' sorted') (seen : β → β → Int)
    (compared : ∀ a b, seen (look a) (look b) = cmp a b)
    (same : (list.map look).Perm (list'.map look))
    (tied : ∀ a ∈ list, ∀ b ∈ list, cmp a b ≤ 0 → cmp b a ≤ 0 → look a = look b) :
    sorted.map look = sorted'.map look := by
  have perm : (sorted.map look).Perm (sorted'.map look) :=
    (sorts.perm.map look).trans (same.trans (sorts'.perm.map look).symm)
  have order {list sorted : List α} (sorts : Sorts cmp list sorted) :
      (sorted.map look).Pairwise fun x y => seen x y ≤ 0 :=
    List.pairwise_map.mpr (sorts.ordered.imp fun {a b} le => (compared a b).trans_le le)
  refine perm.eq_of_pairwise (fun x y here there le ge => ?_) (order sorts) (order sorts')
  obtain ⟨a, inA, rfl⟩ := List.mem_map.mp here
  obtain ⟨b, inB, rfl⟩ := List.mem_map.mp (perm.mem_iff.mpr there)
  rw [compared] at le ge
  exact tied a (sorts.perm.mem_iff.mp inA) b (sorts.perm.mem_iff.mp inB) le ge

end QSort
