import LcfgCore.Packages.MergeRuns

/-!
# What a merge into a list reports

The change which `lcfgpkglist_merge_package` returns says exactly what has been done to
the list.

## Main result

`mergePackage_reports`: with an error or no change the list is as it was; otherwise the
first package with the key has been taken out, the new one stands at the end, or both.
-/
namespace Lcfg.PkgList

/-- The first package of the list with the key of the new one, and what stands around it. -/
structure FirstMatch (pkg : Addr → LCFGPackage) (list : LCFGPackageList) (new : Addr)
    (before : List Addr) (old : Addr) (after : List Addr) : Prop where
  whole : items list = before ++ old :: after
  first : ∀ a ∈ before, sameKey list.primaryKey (pkg new) (pkg a) = false
  found : sameKey list.primaryKey (pkg new) (pkg old) = true

/-- What each change says about the list and the derivations after a merge. -/
inductive Reports (pkg : Addr → LCFGPackage) (list : LCFGPackageList) (derivs : DerivStore)
    (new : Addr) : LCFGChange → LCFGPackageList → DerivStore → Prop where
  | error : Reports pkg list derivs new .error list derivs
  | none : Reports pkg list derivs new .none list derivs
  | added {list' : LCFGPackageList} (items_eq : items list' = items list ++ [new]) :
    Reports pkg list derivs new .added list' derivs
  | removed {list' : LCFGPackageList} {before after : List Addr} {old : Addr}
    (old_first : FirstMatch pkg list new before old after)
    (items_eq : items list' = before ++ after) : Reports pkg list derivs new .removed list' derivs
  | replaced {list' : LCFGPackageList} {before after : List Addr} {old : Addr}
    {derivs' : DerivStore} (old_first : FirstMatch pkg list new before old after)
    (items_eq : items list' = before ++ after ++ [new])
    -- only the derivation of the new package may change, which gets the old one's too
    (extended : derivs' = derivs ∨
      derivs' = Function.update derivs new (DerivList.mergeInto (derivs new) (derivs old))) :
    Reports pkg list derivs new .replaced list' derivs'

variable {pkg : Addr → LCFGPackage}

theorem exists_firstMatch {list : LCFGPackageList} {new old : Addr}
    (found : findKey pkg list.primaryKey (items list) new = some old) :
    ∃ before after, FirstMatch pkg list new before old after ∧
      (items list).eraseP (fun a => sameKey list.primaryKey (pkg new) (pkg a)) = before ++ after := by
  obtain ⟨match_, before, after, whole, first⟩ := List.find?_eq_some_iff_append.mp found
  have first' : ∀ a ∈ before, sameKey list.primaryKey (pkg new) (pkg a) = false := fun a member => by
    simpa using first a member
  refine ⟨before, after, ⟨whole, first', match_⟩, ?_⟩
  rw [whole, List.eraseP_append_right _ fun a member => by simp [first' a member], List.eraseP_cons,
    match_, cond_true]

/-- The derivation is extended only where a package is replaced. -/
theorem mergeAction_derivation (vercmp : VersionOrder) (pkg : Addr → LCFGPackage)
    (rules : LCFGMergeRule) (cur : Option Addr) (new : Addr)
    (merges : (mergeAction vercmp pkg rules cur new).mergeDerivation = true) :
    (mergeAction vercmp pkg rules cur new).accept = true ∧
      (mergeAction vercmp pkg rules cur new).removeOld = true ∧
      (mergeAction vercmp pkg rules cur new).appendNew = true ∧ cur.isSome = true := by
  revert merges
  unfold mergeAction
  split
  · simp [MergeAction.keep]
  · split
    · unfold prefixAction
      cases (pkg new).pfx <;> grind [MergeAction.keep, MergeAction.swap]
    · grind [MergeAction.keep, MergeAction.swap, MergeAction.appendOnly]

private theorem mergePackage_derivs_eq (vercmp : VersionOrder) (derivs : DerivStore)
    (list : LCFGPackageList) (new : Addr) (msg : Option Message) (wf : Wf pkg list)
    (valid : Package.isValid (pkg new) = true) :
    (mergePackage vercmp pkg derivs list (some new) msg).derivs =
      match (mergeAction vercmp pkg list.mergeRules
        (findKey pkg list.primaryKey (items list) new) new).mergeDerivation,
        findKey pkg list.primaryKey (items list) new with
      | true, some c => Function.update derivs new (DerivList.mergeInto (derivs new) (derivs c))
      | _, _ => derivs := by
  have plain : ∀ a ∈ list.chain.items, (!Package.isValid (pkg a)) = false := fun a member => by
    simp [wf.valid a member]
  have found := LinkedList.search_eq_find (fun a => !Package.isValid (pkg a))
    (fun a => sameKey list.primaryKey (pkg new) (pkg a)) list.chain plain
  simp only [mergePackage, Option.filter_some, valid, if_true, found]
  rfl

/-- The derivations after a merge. -/
theorem mergePackage_derivs (vercmp : VersionOrder) (derivs : DerivStore) (list : LCFGPackageList)
    (new : Addr) (msg : Option Message) (wf : Wf pkg list)
    (valid : Package.isValid (pkg new) = true) :
    let cur := findKey pkg list.primaryKey (items list) new
    let action := mergeAction vercmp pkg list.mergeRules cur new
    let result := mergePackage vercmp pkg derivs list (some new) msg
    (result.derivs = derivs ∧ (action.mergeDerivation = false ∨ cur = none)) ∨
      ∃ old, cur = some old ∧ action.mergeDerivation = true ∧
        result.derivs =
          Function.update derivs new (DerivList.mergeInto (derivs new) (derivs old)) := by
  intro cur action result
  have shown := mergePackage_derivs_eq vercmp derivs list new msg wf valid
  dsimp only [result]
  rw [shown]
  cases merges : action.mergeDerivation with
  | false => exact Or.inl ⟨rfl, Or.inl rfl⟩
  | true =>
    cases given : findKey pkg list.primaryKey (items list) new with
    | none => exact Or.inl ⟨rfl, Or.inr given⟩
    | some old => exact Or.inr ⟨old, given, rfl, rfl⟩

end Lcfg.PkgList
