import LcfgCore.Packages.Set

/-!
# Growing a package set

Growing a set merges every stored package again, list by list, into a table
twice as large as needed. The nested merges never have to grow that table, so
each list goes into a single bucket.

## Main result

`resize_spec`: growing a set either copies each list in turn, as merging its
packages on plain lists does, or ends the process because such a merge fails.
-/
namespace Lcfg

namespace PkgList

/-- Merge packages one after the other, until one is refused. -/
def replay (vercmp : VersionOrder) (pkg : Addr → LCFGPackage) (primaryKey : LCFGPkgListPK)
    (rules : LCFGMergeRule) : List Addr → List Addr → Option (List Addr)
  | xs, [] => some xs
  | xs, p :: rest =>
    let merged := mergeItems vercmp pkg primaryKey rules xs p
    if merged.2 = .error then none else replay vercmp pkg primaryKey rules merged.1 rest

end PkgList

namespace PkgSet

variable {hash : String → Nat} {vercmp : VersionOrder} {pkg : Addr → LCFGPackage}

/-! ### Merges which need no growth -/

theorem resizeAt_light (depth : Nat) (derivs : DerivStore) (set : LCFGPackageSet)
    (some_ : set.packages ≠ []) (light : overloaded set = false) :
    resizeAt hash vercmp pkg depth derivs set = .ok (set, derivs) := by
  cases depth with
  | zero => simp [resizeAt, light]
  | succ depth => simp [resizeAt, resizeWith, wantBuckets, light, some_]

theorem mergePackageWith_light (depth : Nat) (derivs : DerivStore) (set : LCFGPackageSet)
    (new : Addr) (msg : Option Message) (valid : Package.isValid (pkg new) = true)
    (some_ : (place hash vercmp pkg derivs set new msg).1.set.packages ≠ [])
    (light : overloaded (place hash vercmp pkg derivs set new msg).1.set = false) :
    mergePackageWith hash vercmp pkg (resizeAt hash vercmp pkg depth) derivs set (some new) msg =
      .ok (place hash vercmp pkg derivs set new msg).1 := by
  simp only [mergePackageWith, Option.filter_some, valid, if_true]
  split
  next r same =>
    rw [same] at some_ light
    simp only [resizeAt_light depth _ _ some_ light, Except.map, same]
  next r same => rw [same]

/-! ### One list goes into one bucket -/

theorem Sound.packages_ne_nil {set : LCFGPackageSet} (sound : Sound pkg set) :
    set.packages ≠ [] := by
  intro empty
  have positive := sound.positive
  rw [← sound.length, empty] at positive
  exact absurd positive (by simp)

theorem update_update (set : LCFGPackageSet) (slot : Nat) (e e' : Option LCFGPackageList) :
    update (update set slot e) slot e' = update set slot e' := by
  simp [update]

theorem entries_update (set : LCFGPackageSet) (slot : Nat) (entry : Option LCFGPackageList)
    (sound : Sound pkg set) (inside : slot < set.packages.length) :
    (update set slot entry).entries ≤ set.entries + 1 := by
  have count := LinearProbe.occupied_set set.packages slot inside entry
  rw [sound.entries]
  simp only [update]
  split at count <;> split at count <;> omega

/-- There is room for one more entry below the limit of the load. -/
def Roomy (set : LCFGPackageSet) : Prop := 10 * (set.entries + 1) < 7 * set.buckets

/-- The message of a merge which failed within a growth: some package was
refused, and not for want of a free bucket. -/
def Refusal (msg : Option Message) : Prop :=
  ∃ p cause, msg = some (.caused p "Failed to merge package: " cause) ∧ cause ≠ noFreeSpace

theorem ListFor.congr {set set' : LCFGPackageSet} {name : String} {list : LCFGPackageList}
    (listFor : ListFor pkg set name list) (primaryKey : set.primaryKey = set'.primaryKey)
    (rules : set.mergeRules = set'.mergeRules) : ListFor pkg set' name list :=
  ⟨listFor.wf, listFor.nonempty, listFor.named, listFor.primaryKey.trans primaryKey,
    listFor.mergeRules.trans rules⟩

section OneList

variable {set : LCFGPackageSet} (sound : Sound pkg set) (name : String) (slot : Nat)
  (stop : slotOf hash pkg set name = some slot)

include sound stop in
/-- The probe stops at the same bucket after it was rewritten. -/
private theorem slotOf_update (entry : Option LCFGPackageList)
    (fits : ∀ list ∈ entry, ListFor pkg set name list) :
    slotOf hash pkg (update set slot entry) name = some slot := by
  unfold slotOf at stop ⊢
  have bound := sound.home_lt hash name
  simp only [update]
  rw [← sound.length] at bound stop ⊢
  exact LinearProbe.probe_set _ _ _ bound slot entry stop fun list given =>
    ((fits list given).holdsName_iff name).mpr (fits list given).key_eq

variable (roomy : Roomy set)

include sound roomy in
private theorem update_light (inside : slot < set.packages.length)
    (entry : Option LCFGPackageList) : overloaded (update set slot entry) = false := by
  have grows := entries_update set slot entry sound inside
  simp only [Roomy] at roomy
  have same : (update set slot entry).buckets = set.buckets := rfl
  simp only [overloaded, ge_iff_le, decide_eq_false_iff_not, Nat.not_le, same]
  omega

include sound stop roomy

/-- Merging a package where all the others of its name went. -/
private theorem mergePackage_again (vercmp : VersionOrder) (depth : Nat) (derivs : DerivStore)
    (entry : Option LCFGPackageList) (fits : ∀ list ∈ entry, ListFor pkg set name list)
    (p : Addr) (valid : Package.isValid (pkg p) = true) (named : nameOf pkg p = name) :
    ∃ r entry', mergePackageWith hash vercmp pkg (resizeAt hash vercmp pkg depth) derivs
        (update set slot entry) (some p) none = .ok r ∧
      r.set = update set slot entry' ∧ (∀ list ∈ entry', ListFor pkg set name list) ∧
      (entryItems entry', r.change) = PkgList.mergeItems vercmp pkg set.primaryKey
        set.mergeRules (entryItems entry) p ∧ r.msg ≠ some noFreeSpace := by
  subst name
  have inside := sound.slot_inside stop
  have sound' := sound.update slot entry fun list given => ⟨_, fits list given⟩
  have light := update_light sound slot roomy inside entry
  obtain ⟨slot', entry', stop', fits', spec, stored, -, said⟩ := place_spec hash vercmp
    derivs sound' light p none valid
  have same : slot' = slot := Option.some.inj
    (stop'.symm.trans (slotOf_update sound _ slot stop entry fits))
  subst slot'
  have bucket : bucketItems (update set slot entry) slot = entryItems entry := by
    simp only [bucketItems, update, List.getElem?_set_self inside, Option.join_some]
  rw [update_update] at stored
  rw [bucket] at spec
  have light' := update_light sound slot roomy inside entry'
  refine ⟨_, entry', mergePackageWith_light depth derivs _ p none valid ?_ ?_, stored,
    fun list given => (fits' list given).congr rfl rfl, spec, said (by simp)⟩
  · rw [stored]
    exact (sound.update slot entry' fun list given =>
      ⟨_, (fits' list given).congr rfl rfl⟩).packages_ne_nil
  · rw [stored]
    exact light'

/-- The loop over the packages of one name replays them in their bucket. -/
private theorem mergeLoop_spec (vercmp : VersionOrder) (depth : Nat) (xs : List Addr)
    (valid : ∀ p ∈ xs, Package.isValid (pkg p) = true) (named : ∀ p ∈ xs, nameOf pkg p = name)
    (derivs : DerivStore) (entry : Option LCFGPackageList)
    (fits : ∀ list ∈ entry, ListFor pkg set name list) (change : LCFGChange)
    (ok : change ≠ .error) (msg : Option Message) :
    ∃ r, mergeLoop hash vercmp pkg (resizeAt hash vercmp pkg depth) derivs
        (update set slot entry) change msg xs = .ok r ∧
      match PkgList.replay vercmp pkg set.primaryKey set.mergeRules (entryItems entry) xs with
      | none => r.change = .error ∧ Refusal r.msg
      | some ys => r.change ≠ .error ∧ ∃ entry', r.set = update set slot entry' ∧
          (∀ list ∈ entry', ListFor pkg set name list) ∧ entryItems entry' = ys := by
  induction xs generalizing derivs entry change with
  | nil => exact ⟨_, rfl, ok, entry, rfl, fits, rfl⟩
  | cons p rest ih =>
    have validP := valid p (by simp)
    obtain ⟨r, entry', merged, stored, fits', spec, said⟩ := mergePackage_again sound name slot
      stop roomy vercmp depth derivs entry fits p validP (named p (by simp))
    simp only [mergeLoop, validP, Bool.not_true, Bool.false_eq_true, if_false, merged,
      PkgList.replay, ← spec]
    -- the first refused package ends the loop with its message
    by_cases failed : r.change = .error
    · simp only [failed, if_true]
      refine ⟨_, rfl, rfl, p, _, rfl, ?_⟩
      cases text : r.msg with
      | none => decide
      | some m => simpa [text] using said
    · simp only [failed, if_false, stored]
      have ok' : (if r.change ≠ .none then .modified else change) ≠ LCFGChange.error := by
        split
        · decide
        · exact ok
      exact ih (fun p member => valid p (by simp [member])) (fun p member => named p (by simp [member]))
        r.derivs entry' fits' _ ok'

/-- Merging a list of one name into the set replays its packages in their bucket. -/
private theorem mergeList_spec (vercmp : VersionOrder) (depth : Nat) (derivs : DerivStore)
    (list : LCFGPackageList) (listFor : ListFor pkg set name list) :
    ∃ r, mergeListWith hash vercmp pkg (resizeAt hash vercmp pkg depth) derivs set list none =
        .ok r ∧
      match PkgList.replay vercmp pkg set.primaryKey set.mergeRules (bucketItems set slot)
          (PkgList.items list) with
      | none => r.change = .error ∧ Refusal r.msg
      | some ys => r.change ≠ .error ∧ ∃ entry', r.set = update set slot entry' ∧
          (∀ list ∈ entry', ListFor pkg set name list) ∧ entryItems entry' = ys := by
  have loop := mergeLoop_spec sound name slot stop roomy vercmp depth (PkgList.items list)
    listFor.wf.valid listFor.named derivs _ (sound.bucket_fits stop) .none (by decide) none
  rw [sound.update_bucket stop] at loop
  simp only [mergeListWith, listFor.isEmpty, Bool.false_eq_true, if_false]
  exact loop

end OneList

/-! ### All lists -/

/-- The set after all the packages of a list went into the bucket for their name. -/
def Copied (hash : String → Nat) (vercmp : VersionOrder) (pkg : Addr → LCFGPackage)
    (set : LCFGPackageSet) (list : LCFGPackageList) (set' : LCFGPackageSet) : Prop :=
  ∃ name slot entry, ListFor pkg set name list ∧ slotOf hash pkg set name = some slot ∧
    (∀ list ∈ entry, ListFor pkg set name list) ∧
    PkgList.replay vercmp pkg set.primaryKey set.mergeRules (bucketItems set slot)
      (PkgList.items list) = some (entryItems entry) ∧
    set' = update set slot entry

/-- A package of the list is refused. -/
def Refused (hash : String → Nat) (vercmp : VersionOrder) (pkg : Addr → LCFGPackage)
    (set : LCFGPackageSet) (list : LCFGPackageList) : Prop :=
  ∃ name slot, ListFor pkg set name list ∧ slotOf hash pkg set name = some slot ∧
    PkgList.replay vercmp pkg set.primaryKey set.mergeRules (bucketItems set slot)
      (PkgList.items list) = none

/-- The set after the lists were copied one after the other. -/
inductive Copies (hash : String → Nat) (vercmp : VersionOrder) (pkg : Addr → LCFGPackage) :
    LCFGPackageSet → List LCFGPackageList → LCFGPackageSet → Prop
  | done (set : LCFGPackageSet) : Copies hash vercmp pkg set [] set
  | copy {set mid set' : LCFGPackageSet} {list : LCFGPackageList} {rest : List LCFGPackageList}
      (first : Copied hash vercmp pkg set list mid) (others : Copies hash vercmp pkg mid rest set') :
      Copies hash vercmp pkg set (list :: rest) set'

theorem Copied.sound {set set' : LCFGPackageSet} {list : LCFGPackageList}
    (copied : Copied hash vercmp pkg set list set') (sound : Sound pkg set) :
    Sound pkg set' ∧ set'.entries ≤ set.entries + 1 ∧ set'.buckets = set.buckets ∧
      set'.primaryKey = set.primaryKey ∧ set'.mergeRules = set.mergeRules := by
  obtain ⟨name, slot, entry, _, stop, fits, _, rfl⟩ := copied
  exact ⟨sound.update slot entry fun list given => ⟨name, fits list given⟩,
    entries_update set slot entry sound (sound.slot_inside stop), rfl, rfl, rfl⟩

theorem Copies.sound {set set' : LCFGPackageSet} {lists : List LCFGPackageList}
    (copies : Copies hash vercmp pkg set lists set') (sound : Sound pkg set) :
    Sound pkg set' ∧ set'.entries ≤ set.entries + lists.length ∧ set'.buckets = set.buckets ∧
      set'.primaryKey = set.primaryKey ∧ set'.mergeRules = set.mergeRules := by
  induction copies with
  | done set => exact ⟨sound, by simp, rfl, rfl, rfl⟩
  | copy first _ ih =>
    obtain ⟨sound', entries, buckets, primaryKey, rules⟩ := first.sound sound
    obtain ⟨sound'', entries', buckets', primaryKey', rules'⟩ := ih sound'
    refine ⟨sound'', ?_, buckets'.trans buckets, primaryKey'.trans primaryKey, rules'.trans rules⟩
    rw [List.length_cons]
    omega

/-- What the loop over the old buckets comes to. -/
def Outcome (hash : String → Nat) (vercmp : VersionOrder) (pkg : Addr → LCFGPackage)
    (set : LCFGPackageSet) (lists : List LCFGPackageList)
    (result : Except Exit (LCFGPackageSet × DerivStore)) : Prop :=
  match result with
  | .ok (set', _) => Copies hash vercmp pkg set lists set'
  | .error exit => (∃ msg, exit = .resizeFailed msg ∧ Refusal msg) ∧
      ∃ before list after mid, lists = before ++ list :: after ∧
        Copies hash vercmp pkg set before mid ∧ Refused hash vercmp pkg mid list

private theorem copyLists_spec (depth : Nat) (old : List (Option LCFGPackageList))
    (derivs : DerivStore) (set : LCFGPackageSet) (sound : Sound pkg set)
    (lists : ∀ list ∈ LinearProbe.stored old, ∃ name, ListFor pkg set name list)
    (roomy : 10 * (set.entries + LinearProbe.occupied old) < 7 * set.buckets) :
    Outcome hash vercmp pkg set (LinearProbe.stored old)
      (copyLists hash vercmp pkg (resizeAt hash vercmp pkg depth) derivs set old) := by
  induction old generalizing derivs set with
  | nil => exact .done set
  | cons entry rest ih =>
    cases entry with
    | none =>
      simp only [LinearProbe.stored_none, LinearProbe.occupied_none] at lists roomy ⊢
      exact ih derivs set sound lists roomy
    | some list =>
      simp only [LinearProbe.stored_some, LinearProbe.occupied_some, List.forall_mem_cons]
        at lists roomy ⊢
      obtain ⟨⟨name, listFor⟩, others⟩ := lists
      -- the old table has at most as many lists as the new one has room for
      have light : overloaded set = false := by
        simp only [overloaded, ge_iff_le, decide_eq_false_iff_not, Nat.not_le]
        omega
      obtain ⟨slot, stop⟩ := sound.exists_slot hash name light
      obtain ⟨r, merged, outcome⟩ := mergeList_spec sound name slot stop
        (show 10 * (set.entries + 1) < 7 * set.buckets by omega) vercmp depth derivs list listFor
      simp only [copyLists, listFor.isEmpty, Bool.false_eq_true, if_false, merged]
      cases replayed : PkgList.replay vercmp pkg set.primaryKey set.mergeRules (bucketItems set slot)
          (PkgList.items list) with
      -- the list cannot be copied
      | none =>
        rw [replayed] at outcome
        simp only [outcome.1, if_true]
        exact ⟨⟨r.msg, rfl, outcome.2⟩, [], list, _, set, rfl, .done set, name, slot, listFor, stop,
          replayed⟩
      -- the list is copied, and the rest goes on from there
      | some ys =>
        rw [replayed] at outcome
        obtain ⟨ok, entry', stored, fits, same⟩ := outcome
        have first : Copied hash vercmp pkg set list r.set :=
          ⟨name, slot, entry', listFor, stop, fits, same ▸ replayed, stored⟩
        obtain ⟨sound', grows, buckets, primaryKey, rules⟩ := first.sound sound
        simp only [ok, if_false]
        have tail := ih r.derivs r.set sound' (fun list' member => by
          obtain ⟨name', listFor'⟩ := others list' member
          exact ⟨name', listFor'.congr primaryKey.symm rules.symm⟩) (by rw [buckets]; omega)
        cases result : copyLists hash vercmp pkg (resizeAt hash vercmp pkg depth) r.derivs r.set rest with
        | ok final =>
          rw [result] at tail
          exact .copy first tail
        | error exit =>
          rw [result] at tail
          obtain ⟨said, before, list', after, mid, split, copies, refused⟩ := tail
          exact ⟨said, list :: before, list', after, mid, by rw [split, List.cons_append],
            .copy first copies, refused⟩

/-- The table which a growth fills, before anything is in it. -/
def emptied (set : LCFGPackageSet) : LCFGPackageSet :=
  { set with
    packages := List.replicate (2 * set.entries + 1) none
    entries := 0
    buckets := 2 * set.entries + 1 }

theorem emptied_sound (set : LCFGPackageSet) : Sound pkg (emptied set) where
  length := by simp [emptied]
  positive := by simp [emptied]
  entries := by simp [emptied, LinearProbe.occupied_replicate_none]
  lists := by simp [emptied, LinearProbe.stored_replicate_none]

/-- Growing an overloaded set copies its lists, or ends the process because a
package is refused. -/
theorem resize_spec (hash : String → Nat) (vercmp : VersionOrder) (depth : Nat)
    (derivs : DerivStore) (set : LCFGPackageSet) (sound : Sound pkg set) (heavy : overloaded set = true) :
    Outcome hash vercmp pkg (emptied set) (LinearProbe.stored set.packages)
      (resizeAt hash vercmp pkg (depth + 1) derivs set) := by
  have grow : ¬(set.packages ≠ [] ∧ wantBuckets set ≤ set.buckets) := by
    simp only [wantBuckets, heavy, if_true, not_and, Nat.not_le]
    simp only [overloaded, ge_iff_le, decide_eq_true_eq] at heavy
    omega
  simp only [resizeAt, resizeWith, grow, if_false]
  simp only [wantBuckets, heavy, if_true]
  refine copyLists_spec depth set.packages derivs (emptied set) (emptied_sound set)
    (fun list member => ?_) ?_
  · obtain ⟨name, listFor⟩ := sound.lists list member
    exact ⟨name, listFor.congr rfl rfl⟩
  · rw [← sound.entries]
    simp only [emptied]
    omega

/-- The grown set is sound again and has room. -/
theorem Copies.light {set set' : LCFGPackageSet} (sound : Sound pkg set)
    (copies : Copies hash vercmp pkg (emptied set) (LinearProbe.stored set.packages) set') :
    Sound pkg set' ∧ overloaded set' = false := by
  obtain ⟨sound', entries, buckets, -, -⟩ := copies.sound (emptied_sound set)
  refine ⟨sound', ?_⟩
  rw [LinearProbe.length_stored, ← sound.entries] at entries
  simp only [emptied] at entries buckets
  simp only [overloaded, buckets, ge_iff_le, decide_eq_false_iff_not, Nat.not_le]
  omega

end PkgSet
end Lcfg
