import LcfgCore.Packages.SetRuns
import Mathlib.Data.List.Perm.Basic

/-!
# What growing a package set preserves

Growing a set merges its packages anew, under the rules which the set has by
then. A merge which does more than to append its package loses one for good,
so that the packages can be counted.

## Main result

`run_growth_iff`: the growths of a run preserve all packages of each name
exactly if, at each of them, the merge of every stored package after the
earlier ones of its name appends it.
-/
namespace Lcfg

namespace PkgList

variable {vercmp : VersionOrder} {pkg : Addr → LCFGPackage}

/-- The rules and the prefix of the new package let it be added beside all others. -/
def Appends (vercmp : VersionOrder) (pkg : Addr → LCFGPackage) (primaryKey : LCFGPkgListPK)
    (rules : LCFGMergeRule) (xs : List Addr) (new : Addr) : Prop :=
  if rules.usePrefix = true ∧ (pkg new).pfx ≠ .none then
    findKey pkg primaryKey xs new = none ∧ (pkg new).pfx ∈ [.add, .pin, .any, .min]
  else
    ∀ c ∈ findKey pkg primaryKey xs new, c ≠ new ∧ rules.keepAll = true ∧
      ¬(rules.squashIdentical = true ∧ Package.equals vercmp (pkg c) (pkg new) = true)

/-- Each package can be added beside the ones before it. -/
def AppendsAll (vercmp : VersionOrder) (pkg : Addr → LCFGPackage) (primaryKey : LCFGPkgListPK)
    (rules : LCFGMergeRule) : List Addr → List Addr → Prop
  | _, [] => True
  | xs, p :: rest => Appends vercmp pkg primaryKey rules xs p ∧
      AppendsAll vercmp pkg primaryKey rules (xs ++ [p]) rest

variable {primaryKey : LCFGPkgListPK} {rules : LCFGMergeRule}

theorem mergeItems_appends {xs : List Addr} {new : Addr}
    (appends : Appends vercmp pkg primaryKey rules xs new) :
    mergeItems vercmp pkg primaryKey rules xs new = (xs ++ [new], .added) := by
  unfold Appends at appends
  unfold mergeItems applyItems mergeAction
  split at appends
  next prefixed =>
    obtain ⟨none, given⟩ := appends
    simp only [List.mem_cons, List.not_mem_nil, or_false] at given
    rcases given with given | given | given | given <;>
      simp [none, prefixed.1, given, prefixAction, MergeAction.swap]
  next plain =>
    have block : ¬(rules.usePrefix = true ∧ ¬(pkg new).pfx = .none) := plain
    cases found : findKey pkg primaryKey xs new with
    | none => simp [block, MergeAction.appendOnly]
    | some c =>
      obtain ⟨other, keepAll, apart⟩ := appends c found
      simp [other, block, apart, keepAll, MergeAction.appendOnly]

/-- Without a package in its way only an addition is left to be a first package. -/
private theorem length_applyItems (xs : List Addr) (new : Addr) (action : MergeAction)
    (bounded : action.accept = true → action.appendNew = true →
      action.removeOld = true ∧ (findKey pkg primaryKey xs new).isSome = true) :
    (applyItems pkg primaryKey xs new action).1.length ≤ xs.length := by
  unfold applyItems
  split
  next accepted =>
    split
    next removal _ =>
      obtain ⟨c, found⟩ := Option.isSome_iff_exists.mp (Bool.and_eq_true_iff.mp removal).2
      have same := List.find?_some (p := fun a => sameKey primaryKey (pkg new) (pkg a)) found
      have shorter := List.length_eraseP_of_mem (p := fun a => sameKey primaryKey (pkg new) (pkg a))
        (List.mem_of_find?_eq_some found) same
      have positive := List.length_pos_of_mem (List.mem_of_find?_eq_some found)
      rw [List.length_append, List.length_singleton, shorter]
      omega
    next => exact List.length_eraseP_le
    next removal appends =>
      obtain ⟨removes, found⟩ := bounded accepted appends
      simp [removes, found] at removal
    next => exact le_refl _
  · exact le_refl _

/-- A merge which is not such an addition leaves no more packages than there were. -/
theorem length_mergeItems {xs : List Addr} {new : Addr}
    (other : ¬Appends vercmp pkg primaryKey rules xs new) :
    (mergeItems vercmp pkg primaryKey rules xs new).1.length ≤ xs.length := by
  refine length_applyItems xs new _ ?_
  unfold Appends at other
  unfold mergeAction
  cases found : findKey pkg primaryKey xs new with
  | none =>
    -- only a prefix keeps a first package out
    by_cases prefixed : rules.usePrefix = true ∧ ¬(pkg new).pfx = .none
    · rw [if_pos prefixed, found] at other
      cases given : (pkg new).pfx <;> simp_all [prefixAction, MergeAction.keep]
    · rw [if_neg prefixed, found] at other
      exact absurd (by simp) other
  | some c =>
    by_cases same : c = new
    · simp [same, MergeAction.keep]
    · by_cases prefixed : rules.usePrefix = true ∧ ¬(pkg new).pfx = .none
      · cases given : (pkg new).pfx <;>
          simp_all [prefixAction] <;> grind [MergeAction.keep, MergeAction.swap]
      · rw [if_neg prefixed, found] at other
        simp_all
        grind [MergeAction.keep, MergeAction.swap, MergeAction.appendOnly]

theorem appendsAll_append (xs ys zs : List Addr) :
    AppendsAll vercmp pkg primaryKey rules xs (ys ++ zs) ↔
      AppendsAll vercmp pkg primaryKey rules xs ys ∧
        AppendsAll vercmp pkg primaryKey rules (xs ++ ys) zs := by
  induction ys generalizing xs with
  | nil => simp [AppendsAll]
  | cons p rest ih => simp [AppendsAll, ih, and_assoc]

theorem replay_appendsAll {xs ys : List Addr}
    (appends : AppendsAll vercmp pkg primaryKey rules xs ys) :
    replay vercmp pkg primaryKey rules xs ys = some (xs ++ ys) := by
  induction ys generalizing xs with
  | nil => simp [replay]
  | cons p rest ih => simp [replay, mergeItems_appends appends.1, ih appends.2]

/-- Replaying packages leaves at most all of them, and all only if each is added. -/
theorem length_replay {xs ys zs : List Addr}
    (replayed : replay vercmp pkg primaryKey rules xs ys = some zs) :
    zs.length ≤ xs.length + ys.length ∧
      (zs.length = xs.length + ys.length → AppendsAll vercmp pkg primaryKey rules xs ys) := by
  induction ys generalizing xs with
  | nil =>
    cases replayed
    simp [AppendsAll]
  | cons p rest ih =>
    by_cases appends : Appends vercmp pkg primaryKey rules xs p
    · rw [replay, mergeItems_appends appends] at replayed
      obtain ⟨bound, all⟩ := ih replayed
      rw [List.length_append, List.length_singleton] at bound all
      refine ⟨by rw [List.length_cons]; omega, fun full => ⟨appends, all ?_⟩⟩
      rw [List.length_cons] at full
      omega
    · have shorter := length_mergeItems appends
      have next : ∃ us, us.length ≤ xs.length ∧
          replay vercmp pkg primaryKey rules us rest = some zs := by
        revert replayed
        simp only [replay]
        split
        · simp
        · exact fun replayed => ⟨_, shorter, replayed⟩
      obtain ⟨us, fewer, replayed'⟩ := next
      have bound := (ih replayed').1
      rw [List.length_cons]
      exact ⟨by omega, by omega⟩

end PkgList

namespace PkgSet

variable {hash : String → Nat} {vercmp : VersionOrder} {pkg : Addr → LCFGPackage}

/-! ### The packages of each name -/

/-- All packages of a set, in bucket order. -/
def allPackages (set : LCFGPackageSet) : List Addr := set.packages.flatMap entryItems

/-- The packages of a name, in bucket order. -/
def content (pkg : Addr → LCFGPackage) (set : LCFGPackageSet) (name : String) : List Addr :=
  (allPackages set).filter fun a => nameOf pkg a = name

theorem allPackages_eq (set : LCFGPackageSet) :
    allPackages set = (LinearProbe.stored set.packages).flatMap PkgList.items :=
  LinearProbe.flatMap_stored entryItems rfl set.packages

private theorem filter_items {set : LCFGPackageSet} {name : String} (entry : Option LCFGPackageList)
    (fits : ∀ list ∈ entry, ListFor pkg set name list) (want : String) :
    (entryItems entry).filter (fun a => nameOf pkg a = want) =
      if want = name then entryItems entry else [] := by
  cases entry with
  | none => simp [entryItems]
  | some list =>
    have named := (fits list rfl).named
    by_cases same : want = name
    · simpa [same, entryItems] using named
    · simp only [same, if_false, List.filter_eq_nil_iff, entryItems, decide_eq_true_eq]
      exact fun a member equal => same (equal.symm.trans (named a member))

section Update

variable {set : LCFGPackageSet} (sound : Sound pkg set) {name : String} {slot : Nat}
  (stop : slotOf hash pkg set name = some slot)
include sound stop

/-- The packages before a bucket, in it, and after it. -/
theorem allPackages_split :
    ∃ before after : List (Option LCFGPackageList), (∀ entry, allPackages (update set slot entry) =
        before.flatMap entryItems ++ (entryItems entry ++ after.flatMap entryItems)) ∧
      allPackages set =
        before.flatMap entryItems ++ (bucketItems set slot ++ after.flatMap entryItems) ∧
      ∀ list, some list ∈ before ++ after → ∃ i, i ≠ slot ∧ set.packages[i]? = some (some list) := by
  have inside := sound.slot_inside stop
  have split : set.packages =
      set.packages.take slot ++ set.packages[slot] :: set.packages.drop (slot + 1) := by
    rw [List.cons_getElem_drop_succ, List.take_append_drop]
  refine ⟨set.packages.take slot, set.packages.drop (slot + 1), fun entry => ?_, ?_, ?_⟩
  · simp [allPackages, update, List.set_eq_take_append_cons_drop, inside]
  · have bucket : bucketItems set slot = entryItems set.packages[slot] := by
      rw [bucketItems, List.getElem?_eq_getElem inside, Option.join_some]
    conv_lhs => rw [allPackages, split]
    rw [bucket, List.flatMap_append, List.flatMap_cons]
  · intro list member
    rcases List.mem_append.mp member with early | late
    · obtain ⟨i, bound, here⟩ := List.mem_iff_getElem.mp early
      rw [List.getElem_take] at here
      rw [List.length_take] at bound
      exact ⟨i, by omega, by rw [← here, List.getElem?_eq_getElem]⟩
    · obtain ⟨i, bound, here⟩ := List.mem_iff_getElem.mp late
      rw [List.getElem_drop] at here
      rw [List.length_drop] at bound
      exact ⟨slot + 1 + i, by omega, by rw [← here, List.getElem?_eq_getElem]⟩

/-- Rewriting a bucket changes the number of packages by what it holds. -/
theorem length_update (entry : Option LCFGPackageList) :
    (allPackages (update set slot entry)).length + (bucketItems set slot).length =
      (allPackages set).length + (entryItems entry).length := by
  obtain ⟨before, after, updated, old, -⟩ := allPackages_split sound stop
  simp only [updated, old, List.length_append]
  omega

variable (linked : Linked hash pkg set)

include linked

/-- No package of a name is outside of its bucket. -/
private theorem filter_outside (others : List (Option LCFGPackageList))
    (outside : ∀ list, some list ∈ others → ∃ i, i ≠ slot ∧ set.packages[i]? = some (some list)) :
    (others.flatMap entryItems).filter (fun a => nameOf pkg a = name) = [] := by
  have bound := sound.home_lt hash name
  unfold slotOf at stop
  rw [← sound.length] at bound stop
  unfold Linked at linked
  rw [← sound.length] at linked
  simp only [List.filter_eq_nil_iff, List.mem_flatMap, decide_eq_true_eq]
  rintro a ⟨entry, member, inEntry⟩ named
  cases entry with
  | none => simp [entryItems] at inEntry
  | some list =>
    obtain ⟨i, other, full⟩ := outside list member
    have same := sound.key_of_mem full inEntry
    rw [named] at same
    have stop' := linked.probe_stored name (holdsName pkg name) (sound.decides name) bound i list
      full same
    exact other (Option.some.inj (stop'.symm.trans stop))

/-- The packages of a name are those of its bucket. -/
theorem content_eq : content pkg set name = bucketItems set slot := by
  obtain ⟨before, after, -, old, outside⟩ := allPackages_split sound stop
  have early := filter_outside sound stop linked before fun list member =>
    outside list (List.mem_append_left _ member)
  have late := filter_outside sound stop linked after fun list member =>
    outside list (List.mem_append_right _ member)
  rw [content, old, List.filter_append, List.filter_append, early, late, bucketItems,
    filter_items _ (sound.bucket_fits stop)]
  simp

/-- Rewriting a bucket changes the packages of its name only. -/
theorem content_update (entry : Option LCFGPackageList)
    (fits : ∀ list ∈ entry, ListFor pkg set name list) (want : String) :
    content pkg (update set slot entry) want =
      if want = name then entryItems entry else content pkg set want := by
  obtain ⟨before, after, updated, old, outside⟩ := allPackages_split sound stop
  rw [content, content, updated, old, List.filter_append, List.filter_append, List.filter_append,
    List.filter_append, filter_items entry fits, bucketItems,
    filter_items _ (sound.bucket_fits stop)]
  by_cases same : want = name
  · subst want
    have early := filter_outside sound stop linked before fun list member =>
      outside list (List.mem_append_left _ member)
    have late := filter_outside sound stop linked after fun list member =>
      outside list (List.mem_append_right _ member)
    simp [early, late]
  · simp [same]

end Update

/-! ### Counting what is copied -/

def itemsOf (lists : List LCFGPackageList) : List Addr := lists.flatMap PkgList.items

@[simp] theorem itemsOf_nil : itemsOf [] = [] := rfl

@[simp] theorem itemsOf_cons (list : LCFGPackageList) (rest : List LCFGPackageList) :
    itemsOf (list :: rest) = PkgList.items list ++ itemsOf rest := List.flatMap_cons

@[simp] theorem itemsOf_append (lists rest : List LCFGPackageList) :
    itemsOf (lists ++ rest) = itemsOf lists ++ itemsOf rest := List.flatMap_append

/-- What is copied for a name, after what is there already. -/
def Replayable (vercmp : VersionOrder) (pkg : Addr → LCFGPackage) (set : LCFGPackageSet)
    (xs : List Addr) : Prop :=
  ∀ name, PkgList.AppendsAll vercmp pkg set.primaryKey set.mergeRules (content pkg set name)
    (xs.filter fun a => nameOf pkg a = name)

section Copied

variable {set set' : LCFGPackageSet} {list : LCFGPackageList}
  (copied : Copied hash vercmp pkg set list set') (sound : Sound pkg set)
include copied sound

theorem Copied.length_le :
    (allPackages set').length ≤ (allPackages set).length + (PkgList.items list).length := by
  obtain ⟨name, slot, entry, -, stop, -, replayed, rfl⟩ := copied
  have total := length_update sound stop entry
  have bound := (PkgList.length_replay replayed).1
  omega

variable (linked : Linked hash pkg set)
include linked

/-- Nothing gets lost only where each package is added, and then they all come last. -/
theorem Copied.all
    (full : (allPackages set').length = (allPackages set).length + (PkgList.items list).length) :
    Replayable vercmp pkg set (PkgList.items list) ∧ Linked hash pkg set' ∧
      ∀ name, content pkg set' name =
        content pkg set name ++ (PkgList.items list).filter fun a => nameOf pkg a = name := by
  obtain ⟨name, slot, entry, listFor, stop, fits, replayed, rfl⟩ := copied
  have total := length_update sound stop entry
  have added := (PkgList.length_replay replayed).2 (by omega)
  have items : bucketItems set slot ++ PkgList.items list = entryItems entry :=
    Option.some.inj ((PkgList.replay_appendsAll added).symm.trans replayed)
  have bucket := content_eq sound stop linked
  have ofName (want : String) : (PkgList.items list).filter (fun a => nameOf pkg a = want) =
      if want = name then PkgList.items list else [] :=
    filter_items (some list) (fun _ given => Option.some.inj given ▸ listFor) want
  refine ⟨fun want => ?_, ?_, fun want => ?_⟩
  · rw [ofName]
    by_cases same : want = name
    · simpa [same, bucket] using added
    · simp [same, PkgList.AppendsAll]
  · refine linked.update_entry sound stop entry fits fun none => ?_
    rw [none, entryItems, List.append_eq_nil_iff] at items
    exact absurd items.2 listFor.nonempty
  · rw [content_update sound stop linked entry fits, ofName]
    by_cases same : want = name
    · simp [same, bucket, items]
    · simp [same]

theorem Copied.full (replayable : Replayable vercmp pkg set (PkgList.items list)) :
    (allPackages set').length = (allPackages set).length + (PkgList.items list).length := by
  obtain ⟨name, slot, entry, listFor, stop, fits, replayed, rfl⟩ := copied
  have total := length_update sound stop entry
  have added := replayable name
  rw [content_eq sound stop linked, List.filter_eq_self.mpr (by simpa using listFor.named)] at added
  rw [PkgList.replay_appendsAll added, Option.some.injEq] at replayed
  rw [← replayed, List.length_append] at total
  omega

end Copied

/-- Where each package is added none is refused. -/
theorem not_refused {set : LCFGPackageSet} {list : LCFGPackageList} (sound : Sound pkg set)
    (linked : Linked hash pkg set) (replayable : Replayable vercmp pkg set (PkgList.items list)) :
    ¬Refused hash vercmp pkg set list := by
  rintro ⟨name, slot, listFor, stop, refused⟩
  have added := replayable name
  rw [content_eq sound stop linked, List.filter_eq_self.mpr (by simpa using listFor.named)] at added
  simp [PkgList.replay_appendsAll added] at refused

theorem replayable_append {set mid : LCFGPackageSet} {xs ys : List Addr}
    (primaryKey : mid.primaryKey = set.primaryKey) (rules : mid.mergeRules = set.mergeRules)
    (after : ∀ name, content pkg mid name =
      content pkg set name ++ xs.filter fun a => nameOf pkg a = name) :
    Replayable vercmp pkg set (xs ++ ys) ↔
      Replayable vercmp pkg set xs ∧ Replayable vercmp pkg mid ys := by
  simp only [Replayable, List.filter_append, PkgList.appendsAll_append, forall_and, after,
    primaryKey, rules]

section Copies

variable {set set' : LCFGPackageSet} {lists : List LCFGPackageList}
  (copies : Copies hash vercmp pkg set lists set') (sound : Sound pkg set)
include copies sound

theorem Copies.length_le :
    (allPackages set').length ≤ (allPackages set).length + (itemsOf lists).length := by
  induction copies with
  | done set => simp
  | @copy set mid set' list rest first _ ih =>
    have before := first.length_le sound
    have after := ih (first.sound sound).1
    rw [itemsOf_cons, List.length_append]
    omega

variable (linked : Linked hash pkg set)
include linked

theorem Copies.all
    (full : (allPackages set').length = (allPackages set).length + (itemsOf lists).length) :
    Replayable vercmp pkg set (itemsOf lists) ∧ Linked hash pkg set' ∧
      ∀ name, content pkg set' name =
        content pkg set name ++ (itemsOf lists).filter fun a => nameOf pkg a = name := by
  induction copies with
  | done set => exact ⟨fun name => trivial, linked, fun name => by simp⟩
  | @copy set mid set' list rest first others ih =>
    obtain ⟨sound', -, -, primaryKey, rules⟩ := first.sound sound
    have before := first.length_le sound
    have after := others.length_le sound'
    rw [itemsOf_cons, List.length_append] at full
    obtain ⟨head, linked', middle⟩ := first.all sound linked (by omega)
    obtain ⟨tail, linked'', last⟩ := ih sound' linked' (by omega)
    refine ⟨?_, linked'', fun name => ?_⟩
    · exact (replayable_append primaryKey rules middle).mpr ⟨head, tail⟩
    · rw [last, middle, itemsOf_cons, List.filter_append, List.append_assoc]

theorem Copies.full (replayable : Replayable vercmp pkg set (itemsOf lists)) :
    (allPackages set').length = (allPackages set).length + (itemsOf lists).length := by
  induction copies with
  | done set => simp
  | @copy set mid set' list rest first others ih =>
    obtain ⟨sound', -, -, primaryKey, rules⟩ := first.sound sound
    rw [itemsOf_cons] at replayable ⊢
    have head : Replayable vercmp pkg set (PkgList.items list) := fun name => by
      have both := replayable name
      rw [List.filter_append, PkgList.appendsAll_append] at both
      exact both.1
    have some_ := first.full sound linked head
    obtain ⟨-, linked', middle⟩ := first.all sound linked some_
    have rest := ih sound' linked' ((replayable_append primaryKey rules middle).mp replayable).2
    rw [List.length_append]
    omega

end Copies

/-! ### The growths of a run -/

/-- Lists with the same packages of each name have equally many packages. -/
private theorem length_of_content {xs ys : List Addr}
    (same : ∀ name, xs.filter (fun a => nameOf pkg a = name) =
      ys.filter fun a => nameOf pkg a = name) : xs.length = ys.length := by
  refine List.Perm.length_eq (List.perm_iff_count.mpr fun a => ?_)
  have count := congrArg (List.count a) (same (nameOf pkg a))
  rwa [List.count_filter (by simp), List.count_filter (by simp)] at count

/-- Growing an overloaded set preserves the packages of each name exactly if they
can be merged anew, each being added to the ones before it. -/
theorem resize_content_iff (depth : Nat) (derivs : DerivStore) (set : LCFGPackageSet)
    (sound : Sound pkg set) (heavy : overloaded set = true) :
    (∃ set' derivs', resizeAt hash vercmp pkg (depth + 1) derivs set = .ok (set', derivs') ∧
        ∀ name, content pkg set' name = content pkg set name) ↔
      ∀ name, PkgList.AppendsAll vercmp pkg set.primaryKey set.mergeRules []
        (content pkg set name) := by
  have outcome := resize_spec hash vercmp depth derivs set sound heavy
  have empty : allPackages (emptied set) = [] := by
    rw [allPackages_eq]
    simp [emptied, LinearProbe.stored_replicate_none]
  have nothing (name : String) : content pkg (emptied set) name = [] := by simp [content, empty]
  have linked : Linked hash pkg (emptied set) := LinearProbe.chained_replicate_none _ _ _
  have replayable_iff : Replayable vercmp pkg (emptied set)
      (itemsOf (LinearProbe.stored set.packages)) ↔ ∀ name,
        PkgList.AppendsAll vercmp pkg set.primaryKey set.mergeRules [] (content pkg set name) := by
    refine forall_congr' fun name => ?_
    rw [nothing, content, allPackages_eq, itemsOf]
    rfl
  rw [← replayable_iff]
  constructor
  · rintro ⟨set', derivs', grown, same⟩
    rw [grown] at outcome
    have total : (allPackages set').length = (allPackages set).length := length_of_content same
    rw [allPackages_eq set, ← itemsOf] at total
    exact (Copies.all outcome (emptied_sound set) linked (by rw [total, empty]; simp)).1
  · intro replayable
    unfold Outcome at outcome
    split at outcome
    next set' derivs' grown =>
      have full := Copies.full outcome (emptied_sound set) linked replayable
      refine ⟨set', derivs', grown, fun name => ?_⟩
      rw [(Copies.all outcome (emptied_sound set) linked full).2.2, nothing, List.nil_append,
        content, allPackages_eq, itemsOf]
    next exit failed =>
      -- all lists before the one that is refused were copied whole
      obtain ⟨-, before, list, after, mid, split, copies, refused⟩ := outcome
      rw [split, itemsOf_append, itemsOf_cons] at replayable
      have early : Replayable vercmp pkg (emptied set) (itemsOf before) := fun name => by
        have both := replayable name
        rw [List.filter_append, PkgList.appendsAll_append] at both
        exact both.1
      obtain ⟨sound', -, -, primaryKey, rules⟩ := copies.sound (emptied_sound set)
      have full := copies.full (emptied_sound set) linked early
      obtain ⟨-, linked', middle⟩ := copies.all (emptied_sound set) linked full
      have late := ((replayable_append primaryKey rules middle).mp replayable).2
      refine absurd refused (not_refused sound' linked' fun name => ?_)
      have both := late name
      rw [List.filter_append, PkgList.appendsAll_append] at both
      exact both.1

/-- When the call makes the set grow, the process goes on and each name keeps
its packages, the new one included. -/
def GrowthPreserves (hash : String → Nat) (vercmp : VersionOrder) (pkg : Addr → LCFGPackage)
    (depth : Nat) : State → SetCall → Prop
  | .ok (set, derivs), .merge new msg =>
    ∀ a ∈ new.filter fun a => Package.isValid (pkg a),
      let before := (place hash vercmp pkg derivs set a msg).1.set
      overloaded before = true →
        ∃ after, mergePackage hash vercmp pkg depth derivs set new msg = .ok after ∧
          ∀ name, content pkg after.set name = content pkg before name
  | _, _ => True

/-- When the call makes the set grow, the packages of each name can be merged
anew, each being added to the ones before it. -/
def GrowthAppends (hash : String → Nat) (vercmp : VersionOrder) (pkg : Addr → LCFGPackage) :
    State → SetCall → Prop
  | .ok (set, derivs), .merge new msg =>
    ∀ a ∈ new.filter fun a => Package.isValid (pkg a),
      let before := (place hash vercmp pkg derivs set a msg).1.set
      overloaded before = true →
        ∀ name, PkgList.AppendsAll vercmp pkg before.primaryKey before.mergeRules []
          (content pkg before name)
  | _, _ => True

theorem step_growth_iff (depth : Nat) (state : State) (call : SetCall) (fine : Fine pkg state) :
    GrowthPreserves hash vercmp pkg depth state call ↔
      GrowthAppends hash vercmp pkg state call := by
  cases state with
  | error exit => exact Iff.rfl
  | ok current =>
    obtain ⟨set, derivs⟩ := current
    obtain ⟨sound, light⟩ := fine
    cases call with
    | setMergeRules newRules => exact Iff.rfl
    | merge new msg =>
      simp only [GrowthPreserves, GrowthAppends]
      refine forall_congr' fun a => forall_congr' fun hit => forall_congr' fun heavy => ?_
      obtain ⟨given, valid⟩ := Option.filter_eq_some_iff.mp hit
      subst given
      obtain ⟨slot, entry, -, fits, -, stored, -⟩ :=
        place_spec hash vercmp derivs sound light a msg valid
      have sound' := sound.update slot entry fun list given => ⟨_, fits list given⟩
      rw [← stored] at sound'
      rw [mergePackage_eq depth derivs sound light a msg valid,
        ← resize_content_iff depth (place hash vercmp pkg derivs set a msg).1.derivs _ sound' heavy]
      simp only [heavy, if_true]
      cases resizeAt hash vercmp pkg (depth + 1) (place hash vercmp pkg derivs set a msg).1.derivs
          (place hash vercmp pkg derivs set a msg).1.set with
      | error exit => simp [Except.map]
      | ok final =>
        obtain ⟨set', derivs'⟩ := final
        simp [Except.map]

/-- Does the merge of `new` make the set grow, and lose packages of the name? -/
def loses (hash : String → Nat) (vercmp : VersionOrder) (pkg : Addr → LCFGPackage) (depth : Nat)
    (new : Addr) (name : String) : State → Bool
  | .error _ => false
  | .ok (set, derivs) =>
    let before := (place hash vercmp pkg derivs set new none).1.set
    overloaded before && match mergePackage hash vercmp pkg depth derivs set (some new) none with
      | .ok after => content pkg after.set name != content pkg before name
      | .error _ => true

theorem not_preserves_of_loses {depth : Nat} {state : State} {new : Addr} (name : String)
    (valid : Package.isValid (pkg new) = true)
    (lost : loses hash vercmp pkg depth new name state = true) :
    ¬GrowthPreserves hash vercmp pkg depth state (.merge (some new) none) := by
  cases state with
  | error exit => simp [loses] at lost
  | ok current =>
    obtain ⟨set, derivs⟩ := current
    intro preserves
    simp only [loses, Bool.and_eq_true] at lost
    obtain ⟨after, merged, same⟩ := preserves new (by simp [valid]) lost.1
    rw [merged] at lost
    simp [same name] at lost

/-- A run whose last call loses packages. -/
theorem not_every_of_loses {depth : Nat} {start : State} (calls : List SetCall) (new : Addr)
    (name : String) (valid : Package.isValid (pkg new) = true)
    (lost : loses hash vercmp pkg depth new name
      (calls.foldl (step hash vercmp pkg depth) start) = true) :
    ¬Run.Every (step hash vercmp pkg depth) (GrowthPreserves hash vercmp pkg depth) start
      (calls ++ [.merge (some new) none]) := by
  rw [Run.every_append]
  rintro ⟨-, last, -⟩
  exact not_preserves_of_loses name valid lost last

/-- The growths in a run preserve the packages of each name exactly if these can
be merged anew at each growth. -/
theorem run_growth_iff (hash : String → Nat) (vercmp : VersionOrder) (pkg : Addr → LCFGPackage)
    (depth : Nat) (primaryKey : LCFGPkgListPK) (rules : LCFGMergeRule) (derivs : DerivStore)
    (calls : List SetCall) :
    let start : State := .ok ({ new with primaryKey, mergeRules := rules }, derivs)
    Run.Every (step hash vercmp pkg depth) (GrowthPreserves hash vercmp pkg depth) start calls ↔
      Run.Every (step hash vercmp pkg depth) (GrowthAppends hash vercmp pkg) start calls := by
  intro start
  have fine : Fine pkg start := ⟨new_sound primaryKey rules, rfl⟩
  exact Run.every_congr (step_fine hash vercmp depth) (step_growth_iff depth) fine calls

/-! ### A set which grows

Names of two letters, each for two addresses. One package has the prefix `?`,
which replaces a package of its name and otherwise keeps out. -/

def letter (n : Nat) : Char := Char.ofNat (97 + n % 26)

theorem letter_valid (n : Nat) :
    (letter n).isAlphanum = true ∧ Package.isNameChar (letter n) = true := by
  have all : ∀ k < 26, (Char.ofNat (97 + k)).isAlphanum = true ∧
      Package.isNameChar (Char.ofNat (97 + k)) = true := by decide
  exact all (n % 26) (Nat.mod_lt n (by decide))

def pairName (n : Nat) : String := String.ofList [letter (n / 26), letter n]

theorem pairName_valid (n : Nat) : Package.validName (pairName n) = true := by
  simp [Package.validName, pairName, letter_valid]

def growthSample (a : Addr) : LCFGPackage where
  name := some (pairName (a / 2))
  pfx := if a = 1 then .update else .none
  name_valid := by
    rintro n ⟨⟩
    exact pairName_valid (a / 2)

def growthCalls (n : Nat) : List SetCall :=
  .merge (some 0) none :: .merge (some 1) none ::
    (List.range n).map fun k => .merge (some (2 * (k + 1))) none

def growthStart : State := .ok ({ new with mergeRules := { usePrefix := true } }, fun _ => [])

theorem growthSample_valid (a : Addr) : Package.isValid (growthSample a) = true := by
  have named : pairName (a / 2) ≠ "" := fun empty => by
    have valid := pairName_valid (a / 2)
    rw [empty] at valid
    exact absurd valid (by decide)
  simpa [Package.isValid, Lcfg.isEmpty, growthSample] using named

theorem growthCalls_succ (n : Nat) :
    growthCalls (n + 1) = growthCalls n ++ [.merge (some (2 * (n + 1))) none] := by
  simp [growthCalls, List.range_succ]

/-- With the eightieth name the set grows, and loses the package with the prefix. -/
theorem growthSample_not_preserved :
    ¬Run.Every (step djbhash Version.debvercmp growthSample 0)
      (GrowthPreserves djbhash Version.debvercmp growthSample 0) growthStart (growthCalls 79) := by
  rw [growthCalls_succ]
  exact not_every_of_loses _ _ "aa" (growthSample_valid _) (by decide +kernel)

end PkgSet
end Lcfg
