import LcfgCore.Library.KeepBest
import LcfgCore.Packages.MergeRuns
import LcfgCore.Packages.VersionOrder
import Mathlib.Data.List.Induction
import Mathlib.Data.List.Pairwise

/-!
# Merges in any order

With the rules `LCFG_MERGE_RULE_USE_PRIORITY`, and with the prefix `>`, a merge keeps the
better one of two packages. Then the order in which packages are merged does not matter.

## Main results

- `run_priority`: packages of different priorities never conflict, and the list holds the
  one with the greatest priority for each key.
- `run_min`: of packages with the prefix `>` the list holds a newest one for each key.
-/
namespace Lcfg.PkgList

open KeepBest (offer Holds)

/-- Merge packages one after another. -/
def mergeAll (vercmp : VersionOrder) (pkg : Addr → LCFGPackage) (primaryKey : LCFGPkgListPK)
    (rules : LCFGMergeRule) (derivs : DerivStore) (packages : List Addr) :
    LCFGPackageList × DerivStore :=
  run vercmp pkg ({ new with primaryKey, mergeRules := rules }, derivs)
    (packages.map fun a => ⟨some a, none⟩)

variable {vercmp : VersionOrder} {pkg : Addr → LCFGPackage}

theorem findKey_eq_find (primaryKey : LCFGPkgListPK) (xs : List Addr) (new : Addr) :
    findKey pkg primaryKey xs new =
      xs.find? fun a => key primaryKey (pkg a) = key primaryKey (pkg new) := by
  rw [findKey]
  congr 1
  funext a
  rw [Bool.eq_iff_iff, sameKey_iff, decide_eq_true_eq]

/-- A merge which takes the better one of two packages is an offer. -/
private theorem mergeItems_offer {primaryKey : LCFGPkgListPK} {rules : LCFGMergeRule}
    {cmp : Addr → Addr → Int} {xs : List Addr} {new : Addr}
    (missing : mergeAction vercmp pkg rules none new = .appendOnly ∨
      mergeAction vercmp pkg rules none new = .swap)
    (decided : ∀ cur ∈ findKey pkg primaryKey xs new,
      ((mergeAction vercmp pkg rules (some cur) new).accept = true ∧
        (mergeAction vercmp pkg rules (some cur) new).removeOld = decide (cmp new cur > 0) ∧
        (mergeAction vercmp pkg rules (some cur) new).appendNew = decide (cmp new cur > 0))) :
    (mergeItems vercmp pkg primaryKey rules xs new).1 =
        offer (fun a => key primaryKey (pkg a)) cmp xs new ∧
      (mergeItems vercmp pkg primaryKey rules xs new).2 ≠ .error := by
  have samePred : (fun a => sameKey primaryKey (pkg new) (pkg a)) =
      fun a => decide (key primaryKey (pkg a) = key primaryKey (pkg new)) := by
    funext a
    rw [Bool.eq_iff_iff, sameKey_iff, decide_eq_true_eq]
  unfold mergeItems applyItems offer
  rw [← findKey_eq_find, samePred]
  cases found : findKey pkg primaryKey xs new with
  | none =>
    rcases missing with appends | swaps
    · simp [appends, MergeAction.appendOnly]
    · simp [swaps, MergeAction.swap]
  | some cur =>
    obtain ⟨accepts, removes, appends⟩ := decided cur found
    by_cases better : cmp new cur > 0 <;> simp [accepts, removes, appends, better]

/-- The packages in the list after a run in which each merge of a valid package is an offer;
the other ones are refused. -/
private theorem mergeAll_offers (vercmp : VersionOrder) (primaryKey : LCFGPkgListPK)
    (rules : LCFGMergeRule) (derivs : DerivStore) {cmp : Addr → Addr → Int} (preorder : QSort.Preorder cmp)
    (packages : List Addr)
    (offers : ∀ before new after held, packages = before ++ new :: after →
      (∀ a ∈ held, a ∈ before) → (mergeItems vercmp pkg primaryKey rules held new).1 =
        offer (fun a => key primaryKey (pkg a)) cmp held new) :
    Holds (fun a => key primaryKey (pkg a)) cmp
      (packages.filter fun a => Package.isValid (pkg a))
      (items (mergeAll vercmp pkg primaryKey rules derivs packages).1) := by
  -- an invalid package changes nothing, and every other one is offered
  have same (before after : List Addr) (split : packages = before ++ after) :
      (before.map fun a => (⟨some a, none⟩ : MergeCall)).foldl
          (stepItems vercmp pkg primaryKey rules) [] =
        (before.filter fun a => Package.isValid (pkg a)).foldl
          (offer (fun a => key primaryKey (pkg a)) cmp) [] := by
    induction before using List.reverseRecOn generalizing after with
    | nil => rfl
    | append_singleton before new ih =>
      have whole : packages = before ++ new :: after := by simp [split]
      rw [List.map_append, List.foldl_append, ih (new :: after) whole, List.filter_append,
        List.foldl_append]
      by_cases valid : Package.isValid (pkg new) = true
      · simp only [List.map_cons, List.map_nil, List.foldl_cons, List.foldl_nil, stepItems,
          Option.filter_some, valid, if_true, List.filter_cons, List.filter_nil]
        refine offers before new after _ whole fun a member => ?_
        exact List.mem_of_mem_filter ((KeepBest.foldl_holds preorder _).among a member)
      · simp [stepItems, Option.filter_some, valid]
  rw [mergeAll, (runs_refine vercmp pkg primaryKey rules derivs _).items_eq,
    same packages [] (List.append_nil _).symm]
  exact KeepBest.foldl_holds preorder _

/-! ### Priorities -/

/-- Packages with the same key have different priorities. -/
def DistinctPriorities (pkg : Addr → LCFGPackage) (primaryKey : LCFGPkgListPK)
    (packages : List Addr) : Prop :=
  packages.Pairwise fun a b => key primaryKey (pkg a) = key primaryKey (pkg b) →
    (pkg a).priority ≠ (pkg b).priority

def comparePriorities (pkg : Addr → LCFGPackage) (a b : Addr) : Int :=
  (pkg a).priority - (pkg b).priority

private theorem mergeItems_priority {primaryKey : LCFGPkgListPK} {before after held : List Addr}
    {new : Addr} (distinct : DistinctPriorities pkg primaryKey (before ++ new :: after))
    (among : ∀ a ∈ held, a ∈ before) :
    (mergeItems vercmp pkg primaryKey { usePriority := true } held new).1 =
        offer (fun a => key primaryKey (pkg a)) (comparePriorities pkg) held new ∧
      (mergeItems vercmp pkg primaryKey { usePriority := true } held new).2 ≠ .error := by
  refine mergeItems_offer (Or.inl (by simp [mergeAction])) fun cur found => ?_
  obtain ⟨member, same⟩ := findKey_spec found
  have differ := (List.pairwise_append.mp distinct).2.2 cur (among cur member) new (by simp) same
  have other : cur ≠ new := fun equal => differ (by rw [equal])
  simp only [mergeAction, Option.some.injEq, other, if_false, Bool.false_and, Bool.false_eq_true,
    if_true, comparePriorities]
  rcases lt_trichotomy (pkg cur).priority (pkg new).priority with greater | tied | less
  · have := Int.sub_pos.mpr greater
    simp [greater, MergeAction.swap]
  · exact absurd tied differ
  · have := not_lt.mpr less.le
    simp [less, this, MergeAction.keep]

/-- With priorities only, packages of which no two have the same key and the same priority
may be merged in any order: no merge fails, and those with the greatest priority for their
key are in the list, one for each key. -/
theorem run_priority (vercmp : VersionOrder) (pkg : Addr → LCFGPackage)
    (primaryKey : LCFGPkgListPK) (derivs : DerivStore) (packages : List Addr)
    (valid : ∀ a ∈ packages, Package.isValid (pkg a) = true)
    (distinct : DistinctPriorities pkg primaryKey packages) (order : List Addr)
    (perm : order.Perm packages) :
    let merged := mergeAll vercmp pkg primaryKey { usePriority := true } derivs
    (∀ before new after, order = before ++ new :: after →
      (mergePackage vercmp pkg (merged before).2 (merged before).1 (some new) none).change ≠
        .error) ∧
      (keys pkg primaryKey (items (merged order).1)).Nodup ∧
      (∀ b ∈ packages, ∃ a ∈ items (merged order).1,
        key primaryKey (pkg a) = key primaryKey (pkg b)) ∧
      ∀ a, a ∈ items (merged order).1 ↔ a ∈ packages ∧
        ∀ b ∈ packages, key primaryKey (pkg b) = key primaryKey (pkg a) →
          (pkg b).priority ≤ (pkg a).priority := by
  have preorder : QSort.Preorder (comparePriorities pkg) :=
    QSort.preorder_sub.comap fun a => (pkg a).priority
  have validOrder : ∀ a ∈ order, Package.isValid (pkg a) = true := fun a member =>
    valid a (perm.mem_iff.mp member)
  have distinctOrder : DistinctPriorities pkg primaryKey order :=
    (perm.pairwise_iff fun differ same => (differ same.symm).symm).mpr distinct
  have upTo (before after : List Addr) (split : order = before ++ after) :
      Holds (fun a => key primaryKey (pkg a)) (comparePriorities pkg) before
        (items (mergeAll vercmp pkg primaryKey { usePriority := true } derivs before).1) := by
    have all : before.filter (fun a => Package.isValid (pkg a)) = before :=
      List.filter_eq_self.mpr fun a member => validOrder a (by simp [split, member])
    rw [← all]
    have held := mergeAll_offers vercmp primaryKey { usePriority := true } derivs
      preorder before fun before' new after' held whole among => by
        rw [split, whole, List.append_assoc, List.cons_append] at distinctOrder
        exact (mergeItems_priority distinctOrder among).1
    rwa [all] at held ⊢
  have holds := upTo order [] (List.append_nil _).symm
  intro merged
  refine ⟨fun before new after whole => ?_, holds.unique, fun b member => ?_, fun a => ?_⟩
  · have refines := runs_refine vercmp pkg primaryKey { usePriority := true } derivs
      (before.map fun a => ⟨some a, none⟩)
    obtain ⟨-, same, -, -⟩ := mergePackage_spec vercmp (merged before).2 (merged before).1 new none
      refines.wf (validOrder new (by simp [whole]))
    have among := (upTo before (new :: after) whole).among
    rw [whole] at distinctOrder
    rw [show (merged before).1.primaryKey = primaryKey from refines.key_eq,
      show (merged before).1.mergeRules = { usePriority := true } from refines.rules_eq] at same
    rw [show (mergePackage vercmp pkg (merged before).2 (merged before).1 (some new) none).change =
      _ from congrArg Prod.snd same]
    exact (mergeItems_priority distinctOrder among).2
  · obtain ⟨a, held, same, -⟩ := holds.best b (perm.mem_iff.mpr member)
    exact ⟨a, held, same⟩
  · have apart : order.Pairwise fun a b => key primaryKey (pkg a) = key primaryKey (pkg b) →
        comparePriorities pkg a b ≠ 0 :=
      distinctOrder.imp fun differ same tied => differ same (Int.sub_eq_zero.mp tied)
    rw [holds.mem_iff preorder apart]
    simp only [perm.mem_iff]
    exact and_congr_right fun _ => forall₃_congr fun _ _ _ =>
      ⟨Int.le_of_sub_nonpos, Int.sub_nonpos_of_le⟩

/-- Packages which differ in their priorities only. -/
def ranked (a : Addr) : LCFGPackage := { foo .none "1.0" with priority := a }

theorem ranked_merged :
    let merged := mergeAll Version.debvercmp ranked {} { usePriority := true } fun _ => []
    (∀ before new after, [2, 3, 1] = before ++ new :: after →
      (mergePackage Version.debvercmp ranked (merged before).2 (merged before).1 (some new)
        none).change ≠ .error) ∧
      (keys ranked {} (items (merged [2, 3, 1]).1)).Nodup ∧
      (∀ b ∈ [1, 2, 3], ∃ a ∈ items (merged [2, 3, 1]).1,
        key {} (ranked a) = key {} (ranked b)) ∧
      ∀ a, a ∈ items (merged [2, 3, 1]).1 ↔ a ∈ [1, 2, 3] ∧
        ∀ b ∈ [1, 2, 3], key {} (ranked b) = key {} (ranked a) →
          (ranked b).priority ≤ (ranked a).priority :=
  run_priority Version.debvercmp ranked {} (fun _ => []) [1, 2, 3] (by decide)
    (by unfold DistinctPriorities; decide) [2, 3, 1] (by decide)

/-! ### The newest version -/

private theorem mergeItems_min {primaryKey : LCFGPkgListPK} {rules : LCFGMergeRule}
    (usesPrefix : rules.usePrefix = true) {held : List Addr} {new : Addr}
    (pfx : (pkg new).pfx = .min) (unpinned : ∀ a ∈ held, (pkg a).pfx = .min)
    (lawful : QSort.Preorder vercmp) :
    (mergeItems vercmp pkg primaryKey rules held new).1 =
      offer (fun a => key primaryKey (pkg a))
        (fun a b => Package.compareVersions vercmp (pkg a) (pkg b)) held new := by
  refine (mergeItems_offer (Or.inr ?_) fun cur found => ?_).1
  · simp [mergeAction, prefixAction, usesPrefix, pfx, MergeAction.swap]
  · have notPinned := unpinned cur (findKey_spec found).1
    have self := (Package.compareVersions_preorder lawful).self (pkg new)
    by_cases same : cur = new
    · simp [mergeAction, same, self, MergeAction.keep]
    · by_cases newer : Package.compareVersions vercmp (pkg new) (pkg cur) > 0 <;>
        simp [mergeAction, prefixAction, usesPrefix, pfx, same, newer, notPinned, MergeAction.swap,
          MergeAction.keep]

/-- Of packages with the prefix `>` the list holds, for each key, one which is at least as
new as all others. In another order a version may be held which compares equal. -/
theorem run_min (vercmp : VersionOrder) (lawful : QSort.Preorder vercmp)
    (pkg : Addr → LCFGPackage) (primaryKey : LCFGPkgListPK) (rules : LCFGMergeRule)
    (usesPrefix : rules.usePrefix = true) (derivs : DerivStore) (packages : List Addr)
    (pfx : ∀ a ∈ packages, (pkg a).pfx = .min) (order : List Addr) (perm : order.Perm packages) :
    let merged order := items (mergeAll vercmp pkg primaryKey rules derivs order).1
    (keys pkg primaryKey (merged packages)).Nodup ∧ (∀ a ∈ merged packages, a ∈ packages) ∧
      (∀ b ∈ packages, Package.isValid (pkg b) = true →
        ∃ a ∈ merged packages, key primaryKey (pkg a) = key primaryKey (pkg b) ∧
          0 ≤ Package.compareVersions vercmp (pkg a) (pkg b)) ∧
      ∀ a ∈ merged packages, ∀ b ∈ merged order,
        key primaryKey (pkg a) = key primaryKey (pkg b) →
          Package.compareVersions vercmp (pkg a) (pkg b) = 0 := by
  have preorder := (Package.compareVersions_preorder lawful).comap pkg
  have held (packages : List Addr) (pfx : ∀ a ∈ packages, (pkg a).pfx = .min) :
      Holds (fun a => key primaryKey (pkg a))
        (fun a b => Package.compareVersions vercmp (pkg a) (pkg b))
        (packages.filter fun a => Package.isValid (pkg a))
        (items (mergeAll vercmp pkg primaryKey rules derivs packages).1) := by
    refine mergeAll_offers vercmp primaryKey rules derivs preorder packages
      fun before new after held whole among => ?_
    refine mergeItems_min usesPrefix (pfx new (by simp [whole])) (fun a member => ?_) lawful
    exact pfx a (by simp [whole, among a member])
  have holds := held packages pfx
  have holds' := held order fun a member => pfx a (perm.mem_iff.mp member)
  intro merged
  refine ⟨holds.unique, fun a member => List.mem_of_mem_filter (holds.among a member),
    fun b member valid => ?_, fun a inHeld b inHeld' same =>
      holds.tied holds' (perm.symm.filter _) preorder inHeld inHeld' same⟩
  obtain ⟨a, inHeld, same, le⟩ := holds.best b (List.mem_filter.mpr ⟨member, valid⟩)
  exact ⟨a, inHeld, same, (preorder.swap a b).mp le⟩

/-- Versions 1.0, 2.0 and 2.00, the last two of which compare equal. -/
def atLeast : Addr → LCFGPackage
  | 0 => foo .min "1.0"
  | 1 => foo .min "2.0"
  | _ => foo .min "2.00"

theorem atLeast_merged :
    let merged order :=
      items (mergeAll Version.debvercmp atLeast {} { usePrefix := true } (fun _ => []) order).1
    (keys atLeast {} (merged [0, 1, 2])).Nodup ∧ (∀ a ∈ merged [0, 1, 2], a ∈ [0, 1, 2]) ∧
      (∀ b ∈ [0, 1, 2], Package.isValid (atLeast b) = true →
        ∃ a ∈ merged [0, 1, 2], key {} (atLeast a) = key {} (atLeast b) ∧
          0 ≤ Package.compareVersions Version.debvercmp (atLeast a) (atLeast b)) ∧
      ∀ a ∈ merged [0, 1, 2], ∀ b ∈ merged [2, 0, 1], key {} (atLeast a) = key {} (atLeast b) →
        Package.compareVersions Version.debvercmp (atLeast a) (atLeast b) = 0 :=
  run_min Version.debvercmp Version.debvercmp_preorder atLeast {} { usePrefix := true } rfl
    (fun _ => []) [0, 1, 2] (by decide) [2, 0, 1] (by decide)

end Lcfg.PkgList
