import LcfgCore.Packages.MergeResult
import LcfgCore.Packages.SetRuns

/-!
# Merging package sets

`lcfgpkgset_merge_set` merges the lists of a second set one after the other and goes on
where `lcfgpkgset_merge_list` has failed (`packages/set.c`).

## Main result

`mergeSet_reports_iff`: the result says what has happened exactly if no package of the
second set is in conflict with the first set when its turn comes.
-/
namespace Lcfg

namespace PkgList

variable {vercmp : VersionOrder} {pkg : Addr → LCFGPackage}

/-- The rules leave no way to merge `new` where `cur` is the package with its key. -/
def Conflict (vercmp : VersionOrder) (pkg : Addr → LCFGPackage) (rules : LCFGMergeRule)
    (cur : Option Addr) (new : Addr) : Prop :=
  cur ≠ some new ∧
    if rules.usePrefix = true ∧ (pkg new).pfx ≠ .none then
      (∃ c, (pkg new).pfx = .invalid c) ∨
        ∃ c, cur = some c ∧ (pkg c).pfx = .pin ∧
          ((pkg new).pfx ∈ [.remove, .add, .pin] ∨
            (pkg new).pfx = .min ∧ Package.compareVersions vercmp (pkg new) (pkg c) > 0)
    else
      ∃ c, cur = some c ∧
        ¬(rules.squashIdentical = true ∧ Package.equals vercmp (pkg c) (pkg new) = true) ∧
        rules.keepAll = false ∧ rules.replace = false ∧
        (rules.usePriority = true → (pkg new).priority = (pkg c).priority)

theorem prefixAction_refuses_iff (vercmp : VersionOrder) (pkg : Addr → LCFGPackage)
    (cur : Option Addr) (new : Addr) (given : (pkg new).pfx ≠ .none) :
    (prefixAction vercmp pkg cur new).accept = false ↔
      (∃ c, (pkg new).pfx = .invalid c) ∨
        ∃ c, cur = some c ∧ (pkg c).pfx = .pin ∧
          ((pkg new).pfx ∈ [.remove, .add, .pin] ∨
            (pkg new).pfx = .min ∧ Package.compareVersions vercmp (pkg new) (pkg c) > 0) := by
  unfold prefixAction
  cases cur with
  | none => cases pfx : (pkg new).pfx <;> simp_all [MergeAction.keep, MergeAction.swap]
  | some c =>
    by_cases pinned : (pkg c).pfx = .pin
    · cases pfx : (pkg new).pfx <;> simp_all [MergeAction.keep, MergeAction.swap]
      split <;> simp_all
    · cases pfx : (pkg new).pfx <;> simp_all [MergeAction.keep, MergeAction.swap]
      split <;> simp_all

theorem mergeAction_refuses_iff (vercmp : VersionOrder) (pkg : Addr → LCFGPackage)
    (rules : LCFGMergeRule) (cur : Option Addr) (new : Addr) :
    (mergeAction vercmp pkg rules cur new).accept = false ↔
      Conflict vercmp pkg rules cur new := by
  unfold mergeAction Conflict
  by_cases same : cur = some new
  · simp [same, MergeAction.keep]
  · by_cases byPrefix : rules.usePrefix = true ∧ (pkg new).pfx ≠ .none
    · rw [if_neg same, if_pos (by simpa using byPrefix), if_pos byPrefix,
        prefixAction_refuses_iff vercmp pkg cur new byPrefix.2]
      simp [same]
    · rw [if_neg same, if_neg (by simpa using byPrefix), if_neg byPrefix]
      cases cur with
      | none => simp [MergeAction.appendOnly]
      | some c =>
        simp only [ne_eq, same, not_false_eq_true, true_and, Option.some.injEq, exists_eq_left']
        grind [MergeAction.keep, MergeAction.swap, MergeAction.appendOnly]

instance (rules : LCFGMergeRule) (cur : Option Addr) (new : Addr) :
    Decidable (Conflict vercmp pkg rules cur new) :=
  decidable_of_iff _ (mergeAction_refuses_iff vercmp pkg rules cur new)

theorem mergeItems_error_iff (vercmp : VersionOrder) (pkg : Addr → LCFGPackage)
    (primaryKey : LCFGPkgListPK) (rules : LCFGMergeRule) (xs : List Addr) (new : Addr) :
    (mergeItems vercmp pkg primaryKey rules xs new).2 = .error ↔
      Conflict vercmp pkg rules (findKey pkg primaryKey xs new) new := by
  rw [← mergeAction_refuses_iff, mergeItems, applyItems]
  cases (mergeAction vercmp pkg rules (findKey pkg primaryKey xs new) new).accept with
  | false => simp
  | true =>
    rw [if_pos rfl]
    split <;> simp

/-- With an error, or without a change, the derivations are kept too. -/
theorem mergePackage_kept (vercmp : VersionOrder) (derivs : DerivStore) (list : LCFGPackageList)
    (new : Addr) (msg : Option Message) (wf : Wf pkg list)
    (valid : Package.isValid (pkg new) = true) :
    let result := mergePackage vercmp pkg derivs list (some new) msg
    result.change = .error ∨ result.change = .none →
      result.list = list ∧ result.derivs = derivs := by
  intro result kept
  refine ⟨mergePackage_unchanged vercmp derivs list new msg wf valid kept, ?_⟩
  rcases mergePackage_derivs vercmp derivs list new msg wf valid with
    ⟨same, -⟩ | ⟨old, found, merges, -⟩
  · exact same
  · -- the derivation is extended only where a package is replaced
    obtain ⟨accepts, removes, appends, some_⟩ := mergeAction_derivation vercmp pkg list.mergeRules
      (findKey pkg list.primaryKey (items list) new) new merges
    have spec := (mergePackage_spec vercmp derivs list new msg wf valid).2.1
    simp only [mergeItems, applyItems, accepts, removes, appends, some_, if_true, Bool.and_self]
      at spec
    have replaced : result.change = .replaced := congrArg Prod.snd spec
    rw [replaced] at kept
    simp at kept

end PkgList

namespace PkgSet

section Merge

variable (hash : String → Nat) (vercmp : VersionOrder) (pkg : Addr → LCFGPackage)

/-- The loop over the buckets in `lcfgpkgset_merge_set`. -/
def mergeSetLoop (depth : Nat) (derivs : DerivStore) (set : LCFGPackageSet) (change : LCFGChange)
    (msg : Option Message) : List (Option LCFGPackageList) → Except Exit MergeResult
  | [] => .ok ⟨set, derivs, change, msg⟩
  | entry :: rest =>
    if change = .error then .ok ⟨set, derivs, change, msg⟩
    else
      match entry with
      | none => mergeSetLoop depth derivs set change msg rest
      | some pkglistForName =>
        match mergeListWith hash vercmp pkg (resizeAt hash vercmp pkg (depth + 1)) derivs set
            pkglistForName msg with
        | .error exit => .error exit
        | .ok r =>
          -- an error is no change here
          let change := if r.change.isOk && r.change ≠ .none then .modified else change
          mergeSetLoop depth r.derivs r.set change r.msg rest

/-- `lcfgpkgset_merge_set` -/
def mergeSet (depth : Nat) (derivs : DerivStore) (pkgset1 pkgset2 : LCFGPackageSet)
    (msg : Option Message) : Except Exit MergeResult :=
  if isEmpty pkgset2 then .ok ⟨pkgset1, derivs, .none, msg⟩
  else mergeSetLoop hash vercmp pkg depth derivs pkgset1 .none msg pkgset2.packages

/-- The package of the set which has the key of the new one. -/
def current (set : LCFGPackageSet) (new : Addr) : Option Addr :=
  (slotOf hash pkg set (nameOf pkg new)).bind fun slot =>
    PkgList.findKey pkg set.primaryKey (bucketItems set slot) new

/-- The package is not in conflict with the set into which it is merged. -/
def Accepted : State → SetCall → Prop
  | .ok (set, _), .merge (some new) _ =>
    ¬PkgList.Conflict vercmp pkg set.mergeRules (current hash pkg set new) new
  | _, _ => True

instance : ∀ (state : State) (call : SetCall), Decidable (Accepted hash vercmp pkg state call)
  | .ok _, .merge (some _) _ => inferInstanceAs (Decidable (¬_))
  | .ok _, .merge none _ => isTrue trivial
  | .ok _, .setMergeRules _ => isTrue trivial
  | .error _, _ => isTrue trivial

/-- The merge gives an error. -/
def Fails (depth : Nat) : State → SetCall → Prop
  | .ok (set, derivs), .merge new msg =>
    ∃ r, mergePackage hash vercmp pkg depth derivs set new msg = .ok r ∧ r.change = .error
  | _, _ => False

/-- The packages of a set, in the order in which they are merged into another one. -/
def merges (set : LCFGPackageSet) : List SetCall :=
  ((LinearProbe.stored set.packages).flatMap PkgList.items).map fun p => .merge (some p) none

/-- What the result of merging two sets is to say: an error if some package cannot be
merged, and no change only where nothing has been changed. -/
structure Faithful (depth : Nat) (derivs : DerivStore) (pkgset1 pkgset2 : LCFGPackageSet)
    (r : MergeResult) : Prop where
  error : (∃ before call after, merges pkgset2 = before ++ call :: after ∧
    Fails hash vercmp pkg depth
      (before.foldl (step hash vercmp pkg depth) (.ok (pkgset1, derivs))) call) →
    r.change = .error
  none : r.change = .none → r.set = pkgset1 ∧ r.derivs = derivs

end Merge

variable {pkg : Addr → LCFGPackage}

/-- Where the list for the name is not changed, nothing is. -/
theorem place_kept (hash : String → Nat) (vercmp : VersionOrder) (derivs : DerivStore) {set : LCFGPackageSet} (sound : Sound pkg set)
    (light : overloaded set = false) (new : Addr) (msg : Option Message)
    (valid : Package.isValid (pkg new) = true) :
    let result := place hash vercmp pkg derivs set new msg
    result.1.change = .error ∨ result.1.change = .none →
      result.1.set = set ∧ result.1.derivs = derivs := by
  obtain ⟨slot, stop⟩ := sound.exists_slot hash (nameOf pkg new) light
  have fits := sound.bucket_fits stop
  have inside := sound.slot_inside stop
  rw [slotOf] at stop
  simp only [place, stop]
  -- a new list which stays empty is not stored
  cases content : set.packages[slot]?.join with
  | none =>
    simp only [Option.getD_none, Option.isNone_none, storeList, if_true]
    intro kept
    have same := PkgList.mergePackage_kept vercmp derivs _ new msg
      (PkgList.new_wf pkg set.primaryKey set.mergeRules) valid kept
    refine ⟨?_, same.2⟩
    rw [if_neg]
    rcases kept with failed | unchanged
    · simp [failed, LCFGChange.isOk]
    · simp [unchanged]
  -- an old list is stored again as it was
  | some list =>
    have listFor := fits list content
    simp only [Option.getD_some, Option.isNone_some, storeList, Bool.false_eq_true, if_false]
    intro kept
    have same := PkgList.mergePackage_kept vercmp derivs list new msg listFor.wf valid kept
    refine ⟨?_, same.2⟩
    have here : set.packages[slot] = some list := by
      rwa [List.getElem?_eq_getElem inside, Option.join_some] at content
    rw [same.1, listFor.isEmpty, if_neg Bool.false_ne_true, ← here, List.set_getElem_self]

section Step

variable (hash : String → Nat) (vercmp : VersionOrder) (depth : Nat) (derivs : DerivStore)
  {set : LCFGPackageSet} (sound : Sound pkg set)
  (light : overloaded set = false) (new : Addr) (msg : Option Message)
  (valid : Package.isValid (pkg new) = true)
include sound light valid

theorem place_error_iff : (place hash vercmp pkg derivs set new msg).1.change = .error ↔
    PkgList.Conflict vercmp pkg set.mergeRules (current hash pkg set new) new := by
  obtain ⟨slot, entry, stop, -, spec, -⟩ := place_spec hash vercmp derivs sound light new msg valid
  rw [current, stop, Option.bind_some, ← PkgList.mergeItems_error_iff, ← spec]

/-- What the change says which a merge into a set returns. -/
theorem mergePackage_outcome {r : MergeResult}
    (merged : mergePackage hash vercmp pkg depth derivs set (some new) msg = .ok r) :
    (r.change = .error ↔ PkgList.Conflict vercmp pkg set.mergeRules (current hash pkg set new) new) ∧
      (r.change = .error ∨ r.change = .none → r.set = set ∧ r.derivs = derivs) := by
  have placed := place_error_iff hash vercmp derivs sound light new msg valid
  have kept := place_kept hash vercmp derivs sound light new msg valid
  rw [mergePackage_eq depth derivs sound light new msg valid] at merged
  dsimp only at merged kept
  split at merged
  case isTrue heavy =>
    have same : r.change = (place hash vercmp pkg derivs set new msg).1.change := by
      cases grown : resizeAt hash vercmp pkg (depth + 1)
          (place hash vercmp pkg derivs set new msg).1.derivs
          (place hash vercmp pkg derivs set new msg).1.set with
      | error exit =>
        rw [grown] at merged
        cases merged
      | ok final =>
        rw [grown] at merged
        cases merged
        rfl
    rw [same]
    refine ⟨placed, fun unchanged => ?_⟩
    rw [(kept unchanged).1, light] at heavy
    cases heavy
  case isFalse =>
    cases merged
    exact ⟨placed, kept⟩

/-- A conflict is always reported. -/
theorem fails_iff : Fails hash vercmp pkg depth (.ok (set, derivs)) (.merge (some new) msg) ↔
    ¬Accepted hash vercmp pkg (.ok (set, derivs)) (.merge (some new) msg) := by
  rw [Accepted, not_not]
  constructor
  · rintro ⟨r, merged, failed⟩
    exact (mergePackage_outcome hash vercmp depth derivs sound light new msg valid merged).1.mp failed
  · intro conflict
    have failed := (place_error_iff hash vercmp derivs sound light new msg valid).mpr conflict
    have same := (place_kept hash vercmp derivs sound light new msg valid (Or.inl failed)).1
    refine ⟨_, ?_, failed⟩
    rw [mergePackage_eq depth derivs sound light new msg valid]
    simp only [same, light, Bool.false_eq_true, if_false]

end Step

section Loops

variable {hash : String → Nat} {vercmp : VersionOrder} {depth : Nat}

/-- What a loop leaves which has met no conflict: the state of the run, and no change only
where there is none. -/
structure Done (hash : String → Nat) (vercmp : VersionOrder) (pkg : Addr → LCFGPackage)
    (depth : Nat) (derivs : DerivStore) (set : LCFGPackageSet) (change : LCFGChange)
    (calls : List SetCall) (r : MergeResult) : Prop where
  final : calls.foldl (step hash vercmp pkg depth) (.ok (set, derivs)) = .ok (r.set, r.derivs)
  ok : r.change = .none ∨ r.change = .modified
  unchanged : r.change = .none → change = .none ∧ r.set = set ∧ r.derivs = derivs

theorem Done.trans {derivs : DerivStore} {set : LCFGPackageSet} {change : LCFGChange}
    {calls rest : List SetCall} {mid r : MergeResult}
    (first : Done hash vercmp pkg depth derivs set change calls mid)
    (second : Done hash vercmp pkg depth mid.derivs mid.set mid.change rest r) :
    Done hash vercmp pkg depth derivs set change (calls ++ rest) r := by
  refine ⟨?_, second.ok, fun none_ => ?_⟩
  · rw [List.foldl_append, first.final, second.final]
  · obtain ⟨none', sameSet, sameDerivs⟩ := second.unchanged none_
    obtain ⟨none'', sameSet', sameDerivs'⟩ := first.unchanged none'
    exact ⟨none'', sameSet.trans sameSet', sameDerivs.trans sameDerivs'⟩

/-- The loop over the packages of a list. -/
theorem mergeLoop_done (xs : List Addr) (valid : ∀ p ∈ xs, Package.isValid (pkg p) = true)
    (derivs : DerivStore) (set : LCFGPackageSet) (change : LCFGChange) (msg : Option Message)
    (fine : Fine pkg (.ok (set, derivs))) (ok : change = .none ∨ change = .modified)
    {r : MergeResult} (ends : mergeLoop hash vercmp pkg (resizeAt hash vercmp pkg (depth + 1))
      derivs set change msg xs = .ok r)
    (accepted : Run.Every (step hash vercmp pkg depth) (Accepted hash vercmp pkg)
      (.ok (set, derivs)) (xs.map fun p => .merge (some p) none)) :
    Done hash vercmp pkg depth derivs set change (xs.map fun p => .merge (some p) none) r := by
  induction xs generalizing derivs set change with
  | nil =>
    cases ends
    exact ⟨rfl, ok, fun none_ => ⟨none_, rfl, rfl⟩⟩
  | cons p rest ih =>
    rw [List.forall_mem_cons] at valid
    rw [mergeLoop, valid.1, Bool.not_true, if_neg Bool.false_ne_true] at ends
    cases merged : mergePackageWith hash vercmp pkg (resizeAt hash vercmp pkg (depth + 1)) derivs
        set (some p) none with
    | error exit =>
      rw [merged] at ends
      cases ends
    | ok mid =>
      have outcome := mergePackage_outcome hash vercmp depth derivs fine.1 fine.2 p none valid.1 merged
      -- the package is accepted, and so the merge is no error
      have noError : mid.change ≠ .error := fun failed => accepted.1 (outcome.1.mp failed)
      have next : step hash vercmp pkg depth (.ok (set, derivs)) (.merge (some p) none) =
          .ok (mid.set, mid.derivs) := by
        rw [step, mergePackage, merged]
        rfl
      have fine' := step_fine hash vercmp depth _ (.merge (some p) none) fine
      rw [List.map_cons, Run.Every] at accepted
      rw [next] at accepted fine'
      simp only [merged, noError, if_false] at ends
      -- the loop reports the change of this round, or that of the rounds before
      have first : Done hash vercmp pkg depth derivs set change [.merge (some p) none]
          { mid with change := if mid.change ≠ .none then .modified else change } := by
        refine ⟨next, ?_, fun none_ => ?_⟩
        · dsimp only
          split
          · exact Or.inr rfl
          · exact ok
        · dsimp only at none_
          split at none_
          · cases none_
          case isFalse same =>
            exact ⟨none_, outcome.2 (Or.inr (not_not.mp same))⟩
      exact first.trans (ih valid.2 mid.derivs mid.set _ fine' first.ok ends accepted.2)

theorem mergeList_done {list : LCFGPackageList} (wf : PkgList.Wf pkg list) (derivs : DerivStore)
    (set : LCFGPackageSet) (msg : Option Message) (fine : Fine pkg (.ok (set, derivs)))
    {r : MergeResult} (ends : mergeListWith hash vercmp pkg (resizeAt hash vercmp pkg (depth + 1))
      derivs set list msg = .ok r)
    (accepted : Run.Every (step hash vercmp pkg depth) (Accepted hash vercmp pkg)
      (.ok (set, derivs)) ((PkgList.items list).map fun p => .merge (some p) none)) :
    Done hash vercmp pkg depth derivs set .none
      ((PkgList.items list).map fun p => .merge (some p) none) r := by
  rw [mergeListWith] at ends
  split at ends
  case isTrue empty =>
    cases ends
    have none_ : PkgList.items list = [] := wf.chain.isEmpty_iff.mp empty
    rw [none_]
    exact ⟨rfl, Or.inl rfl, fun _ => ⟨rfl, rfl, rfl⟩⟩
  case isFalse =>
    exact mergeLoop_done _ wf.valid derivs set .none msg fine (Or.inl rfl) ends accepted

/-- The loop over the buckets never ends with an error. -/
theorem mergeSetLoop_ok (entries : List (Option LCFGPackageList)) (derivs : DerivStore)
    (set : LCFGPackageSet) (change : LCFGChange) (msg : Option Message)
    (ok : change = .none ∨ change = .modified) {r : MergeResult}
    (ends : mergeSetLoop hash vercmp pkg depth derivs set change msg entries = .ok r) :
    r.change = .none ∨ r.change = .modified := by
  induction entries generalizing derivs set change msg with
  | nil =>
    cases ends
    exact ok
  | cons entry rest ih =>
    have noError : change ≠ .error := by rcases ok with rfl | rfl <;> decide
    cases entry with
    | none =>
      rw [mergeSetLoop, if_neg noError] at ends
      exact ih _ _ _ _ ok ends
    | some list =>
      rw [mergeSetLoop, if_neg noError] at ends
      split at ends
      · cases ends
      · refine ih _ _ _ _ ?_ ends
        split
        · exact Or.inr rfl
        · exact ok

theorem mergeSetLoop_done (entries : List (Option LCFGPackageList))
    (wf : ∀ list ∈ LinearProbe.stored entries, PkgList.Wf pkg list) (derivs : DerivStore)
    (set : LCFGPackageSet) (change : LCFGChange) (msg : Option Message)
    (fine : Fine pkg (.ok (set, derivs))) (ok : change = .none ∨ change = .modified)
    {r : MergeResult}
    (ends : mergeSetLoop hash vercmp pkg depth derivs set change msg entries = .ok r)
    (accepted : Run.Every (step hash vercmp pkg depth) (Accepted hash vercmp pkg)
      (.ok (set, derivs)) (((LinearProbe.stored entries).flatMap PkgList.items).map
        fun p => .merge (some p) none)) :
    Done hash vercmp pkg depth derivs set change
      (((LinearProbe.stored entries).flatMap PkgList.items).map fun p => .merge (some p) none) r := by
  induction entries generalizing derivs set change msg with
  | nil =>
    cases ends
    exact ⟨rfl, ok, fun none_ => ⟨none_, rfl, rfl⟩⟩
  | cons entry rest ih =>
    have noError : change ≠ .error := by rcases ok with rfl | rfl <;> decide
    cases entry with
    | none =>
      rw [mergeSetLoop, if_neg noError] at ends
      rw [LinearProbe.stored_none] at wf accepted ⊢
      exact ih wf derivs set change msg fine ok ends accepted
    | some list =>
      rw [LinearProbe.stored_some, List.forall_mem_cons] at wf
      rw [LinearProbe.stored_some, List.flatMap_cons, List.map_append] at accepted ⊢
      obtain ⟨here, later⟩ := (Run.every_append _ _ _).mp accepted
      rw [mergeSetLoop, if_neg noError] at ends
      split at ends
      case h_1 => cases ends
      case h_2 mid merged =>
        have first := mergeList_done wf.1 derivs set msg fine merged here
        have fine' : Fine pkg (.ok (mid.set, mid.derivs)) := by
          rw [← first.final]
          exact Run.invariant (fun state call fine _ => step_fine hash vercmp depth state call fine)
            fine (Run.every_true _ _)
        rw [first.final] at later
        -- and the same for the lists of the set
        have reported : Done hash vercmp pkg depth derivs set change
            ((PkgList.items list).map fun p => .merge (some p) none)
            { mid with
              change := if mid.change.isOk && mid.change ≠ .none then .modified else change } := by
          refine ⟨first.final, ?_, fun none_ => ?_⟩
          · dsimp only
            split
            · exact Or.inr rfl
            · exact ok
          · dsimp only at none_
            split at none_
            · cases none_
            case isFalse same =>
              refine ⟨none_, (first.unchanged ?_).2⟩
              rcases first.ok with unchanged | modified
              · exact unchanged
              · simp [modified, LCFGChange.isOk] at same
        exact reported.trans (ih wf.2 mid.derivs mid.set _ mid.msg fine' reported.ok ends later)

end Loops

/-- For every merge of two sets which returns: it reports errors and changes faithfully if
and only if no package is in conflict with the first set when its turn comes. -/
theorem mergeSet_reports_iff (hash : String → Nat) (vercmp : VersionOrder) (depth : Nat)
    (derivs : DerivStore) (pkgset1 pkgset2 : LCFGPackageSet) (msg : Option Message)
    (sound1 : Sound pkg pkgset1) (light : overloaded pkgset1 = false)
    (sound2 : Sound pkg pkgset2) (r : MergeResult)
    (returns : mergeSet hash vercmp pkg depth derivs pkgset1 pkgset2 msg = .ok r) :
    Faithful hash vercmp pkg depth derivs pkgset1 pkgset2 r ↔
      Run.Every (step hash vercmp pkg depth) (Accepted hash vercmp pkg) (.ok (pkgset1, derivs))
        (merges pkgset2) := by
  have fine : Fine pkg (.ok (pkgset1, derivs)) := ⟨sound1, light⟩
  -- a merge fails exactly where the package is not accepted
  have exact (before : List SetCall) (call : SetCall) (member : call ∈ merges pkgset2) :
      Fails hash vercmp pkg depth
          (before.foldl (step hash vercmp pkg depth) (.ok (pkgset1, derivs))) call ↔
        ¬Accepted hash vercmp pkg
          (before.foldl (step hash vercmp pkg depth) (.ok (pkgset1, derivs))) call := by
    have fine' : Fine pkg (before.foldl (step hash vercmp pkg depth) (.ok (pkgset1, derivs))) :=
      Run.invariant (fun state call fine _ => step_fine hash vercmp depth state call fine) fine
        (Run.every_true _ _)
    obtain ⟨p, inLists, rfl⟩ := List.mem_map.mp member
    obtain ⟨list, stored, inList⟩ := List.mem_flatMap.mp inLists
    obtain ⟨name, listFor⟩ := sound2.lists list stored
    cases state : before.foldl (step hash vercmp pkg depth) (.ok (pkgset1, derivs)) with
    | error exit => simp [Fails, Accepted]
    | ok current =>
      rw [state] at fine'
      exact fails_iff hash vercmp depth current.2 fine'.1 fine'.2 p none (listFor.wf.valid p inList)
  have noError : r.change = .none ∨ r.change = .modified := by
    rw [mergeSet] at returns
    split at returns
    · cases returns
      exact Or.inl rfl
    · exact mergeSetLoop_ok _ _ _ _ _ (Or.inl rfl) returns
  constructor
  · intro faithful
    by_contra refused
    rw [Run.every_iff] at refused
    push Not at refused
    obtain ⟨before, call, after, split, conflict⟩ := refused
    have failed := faithful.error ⟨before, call, after, split,
      (exact before call (by simp [split])).mpr conflict⟩
    rw [failed] at noError
    simp at noError
  · intro accepted
    refine ⟨?_, fun none_ => ?_⟩
    · rintro ⟨before, call, after, split, fails⟩
      have accepts := (Run.every_iff _ _).mp accepted before call after split
      exact absurd accepts ((exact before call (by simp [split])).mp fails)
    · rw [mergeSet] at returns
      split at returns
      · cases returns
        exact ⟨rfl, rfl⟩
      · have wf : ∀ list ∈ LinearProbe.stored pkgset2.packages, PkgList.Wf pkg list :=
          fun list stored => by
            obtain ⟨name, listFor⟩ := sound2.lists list stored
            exact listFor.wf
        have done := mergeSetLoop_done _ wf derivs pkgset1 .none msg fine (Or.inl rfl) returns accepted
        exact (done.unchanged none_).2

/-! ### A list which is merged in part -/

def mergeSample : Addr → LCFGPackage
  | 0 => { name := some "foo", arch := some "x86_64", version := some "1.0" }
  | 1 => { name := some "foo", arch := some "i386", version := some "1.0" }
  | 2 => { name := some "foo", arch := some "x86_64", version := some "2.0" }
  | _ => {}

def mergeSampleSet (packages : List Addr) : LCFGPackageSet :=
  built djbhash Version.debvercmp mergeSample {} {} packages

def mergeSampleSets (packages1 packages2 : List Addr) : Except Exit MergeResult :=
  mergeSet djbhash Version.debvercmp mergeSample 0 (fun _ => []) (mergeSampleSet packages1)
    (mergeSampleSet packages2) none

/-- Another architecture is merged without a conflict. -/
theorem mergeSample_faithful : ∃ r, mergeSampleSets [0] [1] = .ok r ∧
    Faithful djbhash Version.debvercmp mergeSample 0 (fun _ => []) (mergeSampleSet [0])
      (mergeSampleSet [1]) r := by
  have fine (packages : List Addr) : Sound mergeSample (mergeSampleSet packages) ∧
      overloaded (mergeSampleSet packages) = false :=
    built_fine djbhash Version.debvercmp {} {} packages
  have returns : (mergeSampleSets [0] [1]).isOk = true := by decide
  cases result : mergeSampleSets [0] [1] with
  | error exit => simp [result, Except.isOk, Except.toBool] at returns
  | ok r =>
    refine ⟨r, rfl, (mergeSet_reports_iff djbhash Version.debvercmp 0 (fun _ => [])
      (mergeSampleSet [0]) (mergeSampleSet [1]) none (fine [0]).1 (fine [0]).2 (fine [1]).1 r
      result).mpr ?_⟩
    decide

/-- Behind it another version is in conflict: the result is that nothing was changed. -/
theorem mergeSample_not_faithful : ∃ r, mergeSampleSets [0] [1, 2] = .ok r ∧ r.change = .none ∧
    r.set ≠ mergeSampleSet [0] ∧
    ¬Faithful djbhash Version.debvercmp mergeSample 0 (fun _ => []) (mergeSampleSet [0])
      (mergeSampleSet [1, 2]) r := by
  have reported : (mergeSampleSets [0] [1, 2]).toOption.any (fun r =>
      decide (r.change = .none) && decide (r.set ≠ mergeSampleSet [0])) = true := by decide
  cases result : mergeSampleSets [0] [1, 2] with
  | error exit => simp [result, Except.toOption] at reported
  | ok r =>
    simp only [result, Except.toOption, Option.any_some, Bool.and_eq_true, decide_eq_true_eq]
      at reported
    exact ⟨r, rfl, reported.1, reported.2, fun faithful =>
      reported.2 (faithful.none reported.1).1⟩

end PkgSet

end Lcfg
