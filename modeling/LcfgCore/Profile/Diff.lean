import LcfgCore.Components.Store
import LcfgCore.Components.Diff
import LcfgCore.Resources.Tags

/-!
# Differences between profiles

The quick diff of two component sets collects the names of the components which are
new, gone or modified, and the diff of two profiles lists the component diffs for these
names (`lcfgcompset_quickdiff`, `profile/diff.c`).

## Main results

`diff_spec`: the diff of two profiles has one entry for each component of which a
resource differs. `diffs_agree_iff`: when a change is reported if and only if there are
entries.
-/
namespace Lcfg

/-- The part of a profile which is compared. -/
structure LCFGProfile where
  components : Option LCFGComponentSet
deriving DecidableEq

/-- Entries for the components with differences. -/
abbrev LCFGDiffProfile := List LCFGDiffComponent

namespace CompSet

/-- The names of components which `lcfgcompset_quickdiff` returns. -/
structure ChangedNames where
  modified : LCFGTagList
  added : LCFGTagList
  removed : LCFGTagList
deriving DecidableEq

/-- The loop over the buckets stops at a name which is no tag. -/
def addNames (comp : Addr → LCFGComponent) (names : LCFGTagList) :
    List (Option Addr) → Option LCFGTagList
  | [] => some names
  | none :: rest => addNames comp names rest
  | some a :: rest =>
    match TagList.mutateAdd names (nameOf comp a) with
    | (_, .error) => none
    | (names, _) => addNames comp names rest

def getComponentsAsTaglist (comp : Addr → LCFGComponent) (set : LCFGComponentSet) :
    Option LCFGTagList :=
  if isEmpty set then some [] else (addNames comp [] set.components).map TagList.sort

variable (hash : String → Nat) (store : Store)

/-- The component found in a set which may be missing. -/
def componentIn (set : Option LCFGComponentSet) (name : String) : Option PlainComponent :=
  (set.bind fun set => findComponent hash store.comp set name).map fun a =>
    Component.value ⟨store.heap, store.comp a⟩

/-- `lcfgcompset_quickdiff`; it does not return (`none`) if there is no list of names. -/
def quickdiff (compset1 compset2 : Option LCFGComponentSet) : Option (LCFGChange × ChangedNames) := do
  let names1 ← (compset1.map (getComponentsAsTaglist store.comp)).getD (some [])
  let names2 ← (compset2.map (getComponentsAsTaglist store.comp)).getD (some [])
  let added := TagList.setSubtract names2 names1
  let removed := TagList.setSubtract names1 names2
  let modified := (TagList.setIntersection names1 names2).filter fun name =>
    DiffComponent.quickdiff hash store.res (componentIn hash store compset1 name)
      (componentIn hash store compset2 name) = .modified
  let change := if added ≠ [] ∨ removed ≠ [] ∨ modified ≠ [] then .modified else .none
  some (change, ⟨modified, added, removed⟩)

end CompSet

namespace Profile

def hasComponents (profile : Option LCFGProfile) : Bool :=
  profile.any fun profile => !profile.components.all CompSet.isEmpty

/-- The components of a profile, if there are any. -/
def compsOf (profile : Option LCFGProfile) : Option LCFGComponentSet :=
  if hasComponents profile then profile.bind fun profile => profile.components else none

section Diff

variable (hash : String → Nat) (store : Store)

/-- `lcfgprofile_quickdiff` -/
def quickdiff (profile1 profile2 : Option LCFGProfile) : Option (LCFGChange × CompSet.ChangedNames) :=
  CompSet.quickdiff hash store (compsOf profile1) (compsOf profile2)

/-- Compares the components of one name, if there was no error before. -/
def diffComponents (comps1 comps2 : Option LCFGComponentSet) (s : LCFGChange × LCFGDiffProfile)
    (name : String) : LCFGChange × LCFGDiffProfile :=
  if s.1 = .error then s
  else
    match DiffComponent.diff hash store.res (CompSet.componentIn hash store comps1 name)
        (CompSet.componentIn hash store comps2 name) with
    | (.error, _) => (.error, s.2)
    | (.none, _) => s
    | (_, compdiff) => (.modified, s.2 ++ compdiff.toList)

/-- `lcfgprofile_diff` -/
def diff (profile1 profile2 : Option LCFGProfile) : Option (LCFGChange × Option LCFGDiffProfile) := do
  let comps1 := compsOf profile1
  let comps2 := compsOf profile2
  let (change, names) ← CompSet.quickdiff hash store comps1 comps2
  if change = .none then some (change, some [])
  else
    let (change, profdiff) := (names.modified ++ names.added ++ names.removed).foldl
      (diffComponents hash store comps1 comps2) (change, [])
    some (change, if change = .error then none else some profdiff)

end Diff

end Profile

/-! ## Names of components -/

namespace CompSet

variable {hash : String → Nat} {store : Store} {set : LCFGComponentSet}

theorem addNames_eq {comp : Addr → LCFGComponent} (slots : List (Option Addr))
    (names : LCFGTagList)
    (valid : ∀ a ∈ LinearProbe.stored slots, Resource.validName (comp a).name = true)
    (distinct : (names ++ (LinearProbe.stored slots).map (nameOf comp)).Nodup) :
    addNames comp names slots = some (names ++ (LinearProbe.stored slots).map (nameOf comp)) := by
  induction slots generalizing names with
  | nil => simp [addNames, LinearProbe.stored]
  | cons entry rest ih =>
    cases entry with
    | none => exact ih names valid distinct
    | some a =>
      rw [LinearProbe.stored_some, List.forall_mem_cons] at valid
      rw [LinearProbe.stored_some, List.map_cons] at distinct ⊢
      have tag : TagList.validTag (nameOf comp a) = true := by
        have ok := valid.1
        rw [nameOf_eq ok] at ok
        exact TagList.validTag_of_validName ok
      have isNew : ¬ TagList.contains names (nameOf comp a) = true := by
        rw [TagList.contains_iff]
        intro old
        exact (List.nodup_append.mp distinct).2.2 _ old _ List.mem_cons_self rfl
      rw [List.append_cons] at distinct ⊢
      simp only [addNames, TagList.mutateAdd, isNew, TagList.mutateAppend_valid _ tag]
      exact ih _ valid.2 distinct

/-- The names of a set, each of them once. -/
theorem Loaded.taglist_spec (loaded : Loaded hash store set) :
    ∃ names, getComponentsAsTaglist store.comp set = some names ∧ names.Nodup ∧
      ∀ name, name ∈ names ↔ entry store.comp set name ≠ none := by
  have distinct : ((LinearProbe.stored set.components).map (nameOf store.comp)).Nodup := by
    have keys := loaded.chained.pairwise
    exact List.pairwise_map.mpr (keys.imp fun differ same => differ (by rw [key, key, same]))
  have members : ∀ name, name ∈ (LinearProbe.stored set.components).map (nameOf store.comp) ↔
      entry store.comp set name ≠ none := by
    intro name
    rw [List.mem_map, Option.ne_none_iff_exists']
    refine exists_congr fun a => ?_
    rw [entry, loaded.chained.entry_eq_some_iff, key, Option.some_inj]
  rw [getComponentsAsTaglist]
  split
  case isTrue empty =>
    have nothing : LinearProbe.stored set.components = [] := by
      rw [← List.length_eq_zero_iff, LinearProbe.length_stored, ← loaded.entries_eq]
      simpa [isEmpty] using empty
    rw [nothing] at members
    exact ⟨[], rfl, List.nodup_nil, members⟩
  case isFalse =>
    have added := addNames_eq set.components [] loaded.named (by simpa using distinct)
    rw [List.nil_append] at added
    have sorted := TagList.sort_perm ((LinearProbe.stored set.components).map (nameOf store.comp))
    refine ⟨_, by rw [added]; rfl, sorted.nodup_iff.mpr distinct, fun name => ?_⟩
    rw [sorted.mem_iff, members]

end CompSet

namespace Profile

open DiffComponent (Differs Comparable Readable)
open PlainComponent (active)

variable {hash : String → Nat} {store : Store} {profile profile1 profile2 : Option LCFGProfile}

/-- The set of components of a profile. -/
def compsetOf (profile : Option LCFGProfile) : Option LCFGComponentSet :=
  profile.bind fun profile => profile.components

/-- A profile as a map from names to components. -/
def component (store : Store) (profile : Option LCFGProfile) (name : String) :
    Option PlainComponent :=
  ((compsetOf profile).bind fun set => CompSet.entry store.comp set name).map fun a =>
    Component.value ⟨store.heap, store.comp a⟩

/-- A profile of which the components are well formed and have valid names. -/
def Loaded (hash : String → Nat) (store : Store) (profile : Option LCFGProfile) : Prop :=
  ∀ set ∈ compsetOf profile, CompSet.Loaded hash store set

theorem compsOf_eq (profile : Option LCFGProfile) :
    compsOf profile = (compsetOf profile).filter fun set => !CompSet.isEmpty set := by
  rcases profile with _ | ⟨_ | set⟩
  · rfl
  · rfl
  · cases empty : CompSet.isEmpty set <;> simp [compsOf, compsetOf, hasComponents, empty, Option.filter_some]

/-- An empty set has no component of any name, as a missing one. -/
theorem componentIn_compsOf (loaded : Loaded hash store profile) (name : String) :
    CompSet.componentIn hash store (compsOf profile) name = component store profile name := by
  rw [CompSet.componentIn, component, compsOf_eq]
  cases here : compsetOf profile with
  | none => rfl
  | some set =>
    have found := (loaded set here).findComponent_eq name
    rw [Option.bind_some, ← found]
    cases empty : CompSet.isEmpty set with
    | true => simp [CompSet.findComponent, empty, Option.filter_some]
    | false => simp [empty, Option.filter_some]

theorem component_readable (loaded : Loaded hash store profile) (name : String) :
    Readable hash store.res (component store profile name) ∧
      ∀ c ∈ component store profile name, c.name = some name ∧
        Resource.validName (some name) = true := by
  have held : ∀ c ∈ component store profile name, ∃ set ∈ compsetOf profile,
      ∃ a ∈ LinearProbe.stored set.components, CompSet.nameOf store.comp a = name ∧
        Component.value ⟨store.heap, store.comp a⟩ = c := by
    intro c there
    obtain ⟨a, found, value⟩ := Option.map_eq_some_iff.mp there
    obtain ⟨set, here, entry⟩ := Option.bind_eq_some_iff.mp found
    obtain ⟨member, named⟩ := LinearProbe.mem_stored_of_entry entry
    exact ⟨set, here, a, member, Option.some_inj.mp named, value⟩
  have named : ∀ c ∈ component store profile name, c.name = some name ∧
      Resource.validName (some name) = true := by
    intro c there
    obtain ⟨set, here, a, member, same, rfl⟩ := held c there
    have valid := (loaded set here).named a member
    have isName := CompSet.nameOf_eq valid
    rw [same] at isName
    exact ⟨isName, isName ▸ valid⟩
  refine ⟨⟨fun c there => ?_, fun c there name' isName _ => ?_⟩, named⟩
  · obtain ⟨set, here, a, member, -, rfl⟩ := held c there
    exact (loaded set here).tabled a member
  · obtain ⟨same, valid⟩ := named c there
    rw [same, Option.some_inj] at isName
    exact isName ▸ valid

/-- The names which `lcfgcompset_quickdiff` collects for one profile. -/
theorem names_spec (loaded : Loaded hash store profile) :
    ∃ names, ((compsOf profile).map (CompSet.getComponentsAsTaglist store.comp)).getD (some []) =
      some names ∧ names.Nodup ∧ ∀ name, name ∈ names ↔ component store profile name ≠ none := by
  rw [compsOf_eq]
  cases here : compsetOf profile with
  | none => exact ⟨[], rfl, List.nodup_nil, by simp [component, here]⟩
  | some set =>
    obtain ⟨names, taglist, distinct, members⟩ := (loaded set here).taglist_spec
    refine ⟨names, ?_, distinct, fun name => ?_⟩
    · cases empty : CompSet.isEmpty set with
      | false => simp [empty, taglist, Option.filter_some]
      | true =>
        simp only [CompSet.getComponentsAsTaglist, empty, if_true, Option.some_inj] at taglist
        simp [empty, taglist, Option.filter_some]
    · rw [members, component, here]
      simp

/-- Main lemma on the quick diff: its lists have the names, each once, of the components
which it finds to be changed. -/
theorem quickdiff_spec (loaded1 : Loaded hash store profile1) (loaded2 : Loaded hash store profile2) :
    ∃ change names, quickdiff hash store profile1 profile2 = some (change, names) ∧
      (change = .modified ∨ change = .none) ∧
      (change = .none ↔ names.modified ++ names.added ++ names.removed = []) ∧
      (names.modified ++ names.added ++ names.removed).Nodup ∧
      ∀ name, name ∈ names.modified ++ names.added ++ names.removed ↔
        DiffComponent.quickdiff hash store.res (component store profile1 name)
          (component store profile2 name) ≠ .none := by
  obtain ⟨names1, taglist1, -, members1⟩ := names_spec loaded1
  obtain ⟨names2, taglist2, -, members2⟩ := names_spec loaded2
  let modified := (TagList.setIntersection names1 names2).filter fun name =>
    DiffComponent.quickdiff hash store.res (CompSet.componentIn hash store (compsOf profile1) name)
      (CompSet.componentIn hash store (compsOf profile2) name) = .modified
  let added := TagList.setSubtract names2 names1
  let removed := TagList.setSubtract names1 names2
  have inModified : ∀ name, name ∈ modified ↔ (component store profile1 name ≠ none ∧
      component store profile2 name ≠ none) ∧ DiffComponent.quickdiff hash store.res
        (component store profile1 name) (component store profile2 name) = .modified := by
    intro name
    rw [List.mem_filter, TagList.mem_setIntersection, members1, members2,
      componentIn_compsOf loaded1, componentIn_compsOf loaded2, decide_eq_true_iff]
  have inAdded : ∀ name, name ∈ added ↔ component store profile2 name ≠ none ∧
      ¬ component store profile1 name ≠ none := by
    intro name
    rw [TagList.mem_setSubtract, members1, members2]
  have inRemoved : ∀ name, name ∈ removed ↔ component store profile1 name ≠ none ∧
      ¬ component store profile2 name ≠ none := by
    intro name
    rw [TagList.mem_setSubtract, members1, members2]
  refine ⟨_, ⟨modified, added, removed⟩, by rw [quickdiff, CompSet.quickdiff, taglist1, taglist2]; rfl,
    ?_, ?_, ?_, fun name => ?_⟩
  · split <;> simp
  · simp only [List.append_eq_nil_iff]
    split <;> tauto
  · -- the three lists have no name in common
    refine List.nodup_append.mpr ⟨List.nodup_append.mpr
      ⟨(TagList.setIntersection_nodup _ _).filter _, TagList.setSubtract_nodup _ _, ?_⟩,
      TagList.setSubtract_nodup _ _, ?_⟩
    · rintro name old _ new rfl
      exact ((inAdded name).mp new).2 ((inModified name).mp old).1.1
    · rintro name old _ new rfl
      have gone := (inRemoved name).mp new
      rcases List.mem_append.mp old with old | old
      · exact gone.2 ((inModified name).mp old).1.2
      · exact gone.2 ((inAdded name).mp old).1
  -- a component which is missing on one side, or on both
  · rw [List.mem_append, List.mem_append, inModified, inAdded, inRemoved]
    cases component store profile1 name with
    | none => cases component store profile2 name <;> simp [DiffComponent.quickdiff]
    | some c1 =>
      cases component store profile2 name with
      | none => simp [DiffComponent.quickdiff]
      | some c2 =>
        rcases @DiffComponent.quickdiff_some hash store.res c1 c2 with same | same <;>
          simp [same]

/-! ## The full diff -/

/-- The entries of a profile diff: one for each component of which a resource differs,
under its name, with an exact list. -/
structure Exact (store : Store) (profile1 profile2 : Option LCFGProfile)
    (profdiff : LCFGDiffProfile) : Prop where
  nodup : (profdiff.map fun compdiff => compdiff.name).Nodup
  listed : ∀ name, some name ∈ profdiff.map (fun compdiff => compdiff.name) ↔
    ∃ resName, Differs (active store.res (component store profile1 name) resName)
      (active store.res (component store profile2 name) resName)
  entries : ∀ compdiff ∈ profdiff, ∃ name, compdiff.name = some name ∧
    DiffComponent.Exact store.res (component store profile1 name) (component store profile2 name)
      compdiff.resdiffs

/-- The component diff for a name has this name. -/
theorem nameOf_component (loaded1 : Loaded hash store profile1) (loaded2 : Loaded hash store profile2)
    {name resName : String}
    (differs : Differs (active store.res (component store profile1 name) resName)
      (active store.res (component store profile2 name) resName)) :
    DiffComponent.nameOf (component store profile1 name) (component store profile2 name) =
      some name := by
  have some_ (valid : Resource.validName (some name) = true) : name ≠ "" := by
    rintro rfl
    cases valid
  cases here1 : component store profile1 name with
  | some c1 =>
    obtain ⟨named, valid⟩ := (component_readable loaded1 name).2 c1 here1
    simp [DiffComponent.nameOf, named, Option.filter_some, some_ valid]
  | none =>
    cases here2 : component store profile2 name with
    | some c2 =>
      obtain ⟨named, valid⟩ := (component_readable loaded2 name).2 c2 here2
      simp [DiffComponent.nameOf, named, Option.filter_some, some_ valid]
    | none =>
      rw [here1, here2] at differs
      exact differs.elim

/-- The component diff for a name, if it says that something has changed. -/
def compdiffAt (hash : String → Nat) (store : Store) (profile1 profile2 : Option LCFGProfile)
    (name : String) : Option LCFGDiffComponent :=
  let (change, compdiff) := DiffComponent.diff hash store.res (component store profile1 name)
    (component store profile2 name)
  if change = .none then none else compdiff

theorem compdiffAt_spec (loaded1 : Loaded hash store profile1)
    (loaded2 : Loaded hash store profile2) (name : String) :
    let comp1 := component store profile1 name
    let comp2 := component store profile2 name
    (compdiffAt hash store profile1 profile2 name = none ↔
      ∀ resName, ¬ Differs (active store.res comp1 resName) (active store.res comp2 resName)) ∧
    ∀ compdiff, compdiffAt hash store profile1 profile2 name = some compdiff →
      compdiff.name = some name ∧ DiffComponent.Exact store.res comp1 comp2 compdiff.resdiffs := by
  intro comp1 comp2
  have readable1 := (component_readable loaded1 name).1
  have readable2 := (component_readable loaded2 name).1
  have full := DiffComponent.diff_eq readable1 readable2
  have same := DiffComponent.diff_none_iff readable1 readable2
  rw [← same, compdiffAt]
  simp only [full]
  refine ⟨by split <;> simp_all, fun compdiff found => ?_⟩
  split at found
  case isTrue => cases found
  case isFalse changed =>
    rw [full] at same
    rw [same, not_forall_not] at changed
    obtain ⟨resName, differs⟩ := changed
    cases found
    exact ⟨nameOf_component loaded1 loaded2 differs,
      DiffComponent.exact_filterMap readable1 readable2⟩

/-- One step of the loop appends what is found for a name. -/
theorem diffComponents_eq (loaded1 : Loaded hash store profile1)
    (loaded2 : Loaded hash store profile2) {s : LCFGChange × LCFGDiffProfile}
    (changed : s.1 = .modified) (name : String) :
    diffComponents hash store (compsOf profile1) (compsOf profile2) s name =
      (.modified, s.2 ++ (compdiffAt hash store profile1 profile2 name).toList) := by
  have readable1 := (component_readable loaded1 name).1
  have readable2 := (component_readable loaded2 name).1
  have full := DiffComponent.diff_eq readable1 readable2
  have fine := DiffComponent.changeFor_ne_error (component store profile1 name)
    (component store profile2 name) ((DiffComponent.allNames store.res
      (component store profile1 name) (component store profile2 name)).filterMap
        (DiffComponent.entryAt store.res (component store profile1 name)
          (component store profile2 name)))
  rw [diffComponents, changed, if_neg (by simp), componentIn_compsOf loaded1,
    componentIn_compsOf loaded2, compdiffAt, full]
  -- no error is found, and nothing is appended if there is no change
  generalize DiffComponent.changeFor _ _ _ = change at fine
  cases change <;> simp_all [Prod.ext_iff]

private theorem foldl_diffComponents (loaded1 : Loaded hash store profile1)
    (loaded2 : Loaded hash store profile2) (names : List String) (profdiff : LCFGDiffProfile) :
    names.foldl (diffComponents hash store (compsOf profile1) (compsOf profile2))
        (.modified, profdiff) =
      (.modified, profdiff ++ names.filterMap (compdiffAt hash store profile1 profile2)) := by
  induction names generalizing profdiff with
  | nil => simp
  | cons name rest ih =>
    rw [List.foldl_cons, diffComponents_eq loaded1 loaded2 rfl, ih, List.append_assoc,
      List.filterMap_cons]
    cases compdiffAt hash store profile1 profile2 name <;> rfl

/-- A change which the full diff finds is found by the quick diff. -/
theorem quickdiff_of_differs (loaded1 : Loaded hash store profile1)
    (loaded2 : Loaded hash store profile2) {name resName : String}
    (differs : Differs (active store.res (component store profile1 name) resName)
      (active store.res (component store profile2 name) resName)) :
    DiffComponent.quickdiff hash store.res (component store profile1 name)
      (component store profile2 name) ≠ .none := by
  have readable1 := (component_readable loaded1 name).1
  have readable2 := (component_readable loaded2 name).1
  intro same
  cases here1 : component store profile1 name with
  | none =>
    cases here2 : component store profile2 name with
    | none =>
      rw [here1, here2] at differs
      exact differs
    | some c2 => simp [here1, here2, DiffComponent.quickdiff] at same
  | some c1 =>
    cases here2 : component store profile2 name with
    | none => simp [here1, here2, DiffComponent.quickdiff] at same
    | some c2 =>
      rw [here1] at readable1
      rw [here2] at readable2
      rw [here1, here2] at same differs
      exact ((DiffComponent.quickdiff_none_iff readable1 readable2).mp same).2 resName differs

/-- Main lemma: the diff of two profiles succeeds with an exact list, and it reports a
change if the quick diff has found one. -/
theorem diff_spec (loaded1 : Loaded hash store profile1) (loaded2 : Loaded hash store profile2) :
    ∃ change profdiff, diff hash store profile1 profile2 = some (change, some profdiff) ∧
      Exact store profile1 profile2 profdiff ∧
      (change = .none ↔ ∀ name, DiffComponent.quickdiff hash store.res
        (component store profile1 name) (component store profile2 name) = .none) := by
  obtain ⟨quick, names, found, kinds, none_iff, distinct, members⟩ := quickdiff_spec loaded1 loaded2
  rw [quickdiff] at found
  set changed := names.modified ++ names.added ++ names.removed with isChanged
  have listed : ∀ name compdiff, compdiffAt hash store profile1 profile2 name = some compdiff →
      compdiff.name = some name ∧ DiffComponent.Exact store.res (component store profile1 name)
        (component store profile2 name) compdiff.resdiffs :=
    fun name => (compdiffAt_spec loaded1 loaded2 name).2
  have exact_ : Exact store profile1 profile2
      (changed.filterMap (compdiffAt hash store profile1 profile2)) := by
    -- each entry has its own name
    refine ⟨?_, fun name => ?_, fun compdiff member => ?_⟩
    · rw [List.map_filterMap]
      refine List.Nodup.filterMap ?_ distinct
      intro name name' shown here here'
      rw [Option.mem_def, Option.map_eq_some_iff] at here here'
      obtain ⟨compdiff, there, rfl⟩ := here
      obtain ⟨compdiff', there', same⟩ := here'
      rw [(listed _ _ there).1, (listed _ _ there').1, Option.some_inj] at same
      exact same.symm
    · rw [List.mem_map]
      constructor
      · rintro ⟨compdiff, member, shown⟩
        obtain ⟨name', -, there⟩ := List.mem_filterMap.mp member
        rw [(listed _ _ there).1, Option.some_inj] at shown
        have differs := (compdiffAt_spec loaded1 loaded2 name').1
        rw [there] at differs
        exact shown ▸ not_forall_not.mp fun same => by cases differs.mpr same
      · rintro ⟨resName, differs⟩
        have member := (members name).mpr (quickdiff_of_differs loaded1 loaded2 differs)
        -- a component with a difference has an entry
        have some_ : compdiffAt hash store profile1 profile2 name ≠ none := fun none_ =>
          (compdiffAt_spec loaded1 loaded2 name).1.mp none_ resName differs
        obtain ⟨compdiff, there⟩ := Option.ne_none_iff_exists'.mp some_
        exact ⟨compdiff, List.mem_filterMap.mpr ⟨name, member, there⟩, (listed _ _ there).1⟩
    · obtain ⟨name, -, there⟩ := List.mem_filterMap.mp member
      exact ⟨name, listed _ _ there⟩
  have quick_iff : quick = .none ↔ ∀ name, DiffComponent.quickdiff hash store.res
      (component store profile1 name) (component store profile2 name) = .none := by
    rw [none_iff, List.eq_nil_iff_forall_not_mem]
    simp only [members, ne_eq, not_not]
  -- with a change the entries are made one after another; without one there are none
  obtain rfl | rfl := kinds
  · refine ⟨.modified, _, ?_, exact_, quick_iff⟩
    have looped := foldl_diffComponents loaded1 loaded2 changed []
    simp only [diff, found, Option.bind_eq_bind, Option.bind_some, ← isChanged, looped,
      List.nil_append]
    rfl
  · rw [none_iff.mp rfl, List.filterMap_nil] at exact_
    refine ⟨.none, [], ?_, exact_, quick_iff⟩
    simp [diff, found]

/-- A change is reported if and only if there are entries, unless only the quick diff has
found one. -/
theorem diff_reports_iff (loaded1 : Loaded hash store profile1)
    (loaded2 : Loaded hash store profile2) :
    ∃ change profdiff, diff hash store profile1 profile2 = some (change, some profdiff) ∧
      Exact store profile1 profile2 profdiff ∧
      ((change ≠ .none ↔ profdiff ≠ []) ↔
        (∀ name, Comparable store.res (component store profile1 name)
          (component store profile2 name)) ∨
        ∃ name resName, Differs (active store.res (component store profile1 name) resName)
          (active store.res (component store profile2 name) resName)) := by
  obtain ⟨change, profdiff, result, exact_, none_iff⟩ := diff_spec loaded1 loaded2
  refine ⟨change, profdiff, result, exact_, ?_⟩
  have entries : profdiff ≠ [] ↔
      ∃ name resName, Differs (active store.res (component store profile1 name) resName)
        (active store.res (component store profile2 name) resName) := by
    simp only [← exact_.listed]
    constructor
    · intro some_
      obtain ⟨compdiff, member⟩ := List.exists_mem_of_ne_nil _ some_
      obtain ⟨name, named, -⟩ := exact_.entries compdiff member
      exact ⟨name, List.mem_map.mpr ⟨compdiff, member, named⟩⟩
    · rintro ⟨name, member⟩ rfl
      cases member
  have quick : ∀ name, DiffComponent.quickdiff hash store.res (component store profile1 name)
        (component store profile2 name) = .none →
      ∀ resName, ¬ Differs (active store.res (component store profile1 name) resName)
        (active store.res (component store profile2 name) resName) :=
    fun name same resName differs => quickdiff_of_differs loaded1 loaded2 differs same
  have agree := fun name => DiffComponent.quickdiff_agrees_iff
    (component_readable loaded1 name).1 (component_readable loaded2 name).1
  simp only [DiffComponent.diff_none_iff (component_readable loaded1 _).1
    (component_readable loaded2 _).1] at agree
  rw [entries, ne_eq, none_iff]
  by_cases differs : ∃ name resName, Differs (active store.res (component store profile1 name) resName)
      (active store.res (component store profile2 name) resName)
  · obtain ⟨name, resName, there⟩ := differs
    refine iff_of_true (iff_of_true ?_ ⟨name, resName, there⟩) (.inr ⟨name, resName, there⟩)
    exact fun none_ => quick name (none_ name) resName there
  · have same : ∀ name resName, ¬ Differs (active store.res (component store profile1 name) resName)
        (active store.res (component store profile2 name) resName) :=
      fun name resName there => differs ⟨name, resName, there⟩
    -- without differences a change is reported where the short cuts find one
    simp only [← agree, same, not_false_eq_true, implies_true, iff_true, exists_false, or_false,
      iff_false, not_not]

section Sample

def sampleName (a : Addr) : String := if a = 0 then "a" else "b"

/-- Component `a` has one resource and `b` has none. -/
def sampleStore : Store where
  heap := ⟨fun _ => ⟨⟨[⟨0, 0⟩], some 0, 1⟩, {}, {}⟩, fun _ => 1, 1⟩
  comp a := if a = 0 then
      { Component.new with
        name := some (sampleName a)
        resources := Component.new.resources.set 57 (some 0)
        entries := 1 }
    else { Component.new with name := some (sampleName a) }
  res _ := { TypedResource.new with name := some "x", value := some "1" }

def samplePlain (a : Addr) : PlainComponent :=
  Component.value ⟨sampleStore.heap, sampleStore.comp a⟩

def sampleProfile (a : Addr) : LCFGProfile :=
  ⟨some (CompSet.insertAll djbhash sampleStore.comp CompSet.new [a]).1⟩

theorem samplePlain_emptied {a : Addr} (other : a ≠ 0) :
    samplePlain a = PlainComponent.emptied (samplePlain a) Component.defaultSize := by
  simp [samplePlain, sampleStore, other, PlainComponent.emptied, Component.value,
    ComponentTable.map, Component.new, Component.blank]

theorem samplePlain_tabled (a : Addr) :
    PlainComponent.Tabled djbhash (base sampleStore.res) (samplePlain a) := by
  by_cases zero : a = 0
  · subst zero
    have empty : PlainComponent.Tabled djbhash (base sampleStore.res)
        (PlainComponent.emptied (samplePlain 0) Component.defaultSize) :=
      PlainComponent.Tabled.emptied_tabled _ (by decide)
    have holds : PlainComponent.ListFor (base sampleStore.res) "x" ⟨[0], {}, {}⟩ :=
      ⟨by decide, by decide, by simp [base, sampleStore]⟩
    exact (empty.put_spec holds (i := 57) (by decide)).1
  · rw [samplePlain_emptied zero]
    exact PlainComponent.Tabled.emptied_tabled _ (by decide)

theorem active_samplePlain (resName : String) :
    active sampleStore.res (some (samplePlain 1)) resName = none := by
  rw [samplePlain_emptied (by decide), active, Option.bind_some, PlainComponent.lists,
    PlainComponent.emptied, LinearProbe.entry_replicate_none, Option.bind_none]

theorem sampleStore_name (a : Addr) : (sampleStore.comp a).name = some (sampleName a) := by
  by_cases zero : a = 0 <;> simp [sampleStore, zero]

theorem sampleName_valid (a : Addr) : Resource.validName (some (sampleName a)) = true := by
  rw [sampleName]
  split <;> decide

theorem samplePlain_readable (a : Addr) : Readable djbhash sampleStore.res (some (samplePlain a)) where
  tabled c same := Option.some_inj.mp same ▸ samplePlain_tabled a
  named c same name named _ := by
    rw [← Option.some_inj.mp same, samplePlain, Component.value_name, sampleStore_name] at named
    exact named ▸ sampleName_valid a

theorem none_readable : Readable djbhash sampleStore.res none := ⟨by simp, by simp⟩

theorem sampleProfile_loaded (a : Addr) : Loaded djbhash sampleStore (some (sampleProfile a)) := by
  intro set here
  obtain rfl := Option.some_inj.mp here
  refine CompSet.insertAll_loaded [a] ?_ ?_ (by simp [CompSet.names, CompSet.defaultSize])
  · rw [List.forall_mem_singleton, sampleStore_name]
    exact sampleName_valid a
  · rw [List.forall_mem_singleton]
    exact samplePlain_tabled a

theorem component_sampleProfile (a : Addr) (name : String) :
    component sampleStore (some (sampleProfile a)) name =
      if sampleName a = name then some (samplePlain a) else none := by
  have fits : (CompSet.names sampleStore.comp [a]).length ≤ CompSet.defaultSize := by
    simp [CompSet.names, CompSet.defaultSize]
  have valid : ∀ b ∈ [a], Component.isValid (sampleStore.comp b) = true := by
    rw [List.forall_mem_singleton, Component.isValid, sampleStore_name, sampleName]
    split <;> decide
  have holds := (@CompSet.insertAll_spec djbhash sampleStore.comp [a] valid fits).2
  have shown : CompSet.nameOf sampleStore.comp a = sampleName a := by
    rw [CompSet.nameOf, sampleStore_name, Option.getD_some]
  rw [component, compsetOf, Option.bind_some, sampleProfile, Option.bind_some, holds,
    CompSet.lastInserted, List.reverse_singleton, List.find?_singleton, shown]
  simp only [decide_eq_true_eq]
  split <;> rfl

theorem none_loaded : Loaded djbhash sampleStore none := by
  rintro set ⟨⟩

end Sample

end Profile

end Lcfg
