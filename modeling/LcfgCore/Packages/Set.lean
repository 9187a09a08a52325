import LcfgCore.Library.LinearProbe
import LcfgCore.Packages.List

/-!
# Package sets

A package set is a hash table with one package list for each name
(`packages/set.c`). The hash function is a parameter. Merging a package into a
set may grow the table, which merges every stored package again.

## Main result

`place_spec`: apart from the growth, merging a package into a set rewrites the
one bucket at which the probe for its name stops.
-/
namespace Lcfg

structure LCFGPackageSet where
  packages : List (Option LCFGPackageList)
  entries : Nat
  buckets : Nat
  primaryKey : LCFGPkgListPK
  mergeRules : LCFGMergeRule
deriving DecidableEq, Repr

namespace PkgSet

/-- `LCFG_PKGSET_DEFAULT_SIZE`. -/
def defaultSize : Nat := 113

/-- The structure which `lcfgpkgset_new` fills in, before any buckets are allocated. -/
def blank : LCFGPackageSet := ⟨[], 0, defaultSize, {}, {}⟩

def new : LCFGPackageSet := { blank with packages := List.replicate defaultSize none }

def size (set : LCFGPackageSet) : Nat :=
  if set.entries = 0 then 0
  else ((LinearProbe.stored set.packages).map fun list => list.chain.size).sum

def isEmpty (set : LCFGPackageSet) : Bool := size set == 0

/-- Is the load factor at or over `LCFG_PKGSET_LOAD_MAX`? -/
def overloaded (set : LCFGPackageSet) : Bool := 10 * set.entries ≥ 7 * set.buckets

/-- The number of buckets for a load factor below `LCFG_PKGSET_LOAD_INIT`. -/
def wantBuckets (set : LCFGPackageSet) : Nat :=
  if overloaded set then 2 * set.entries + 1 else set.buckets

/-- How the process may end within a merge. The recursion between growing and
merging is unrolled to some depth, and the second reason is that it did not do. -/
inductive Exit where
  | resizeFailed (msg : Option Message)
  | tooDeep
deriving DecidableEq, Repr

structure MergeResult where
  set : LCFGPackageSet
  derivs : DerivStore
  change : LCFGChange
  msg : Option Message

def noFreeSpace : Message := .plain "No free space for new entries in package set"

section Merge

variable (hash : String → Nat) (vercmp : VersionOrder) (pkg : Addr → LCFGPackage)

def nameOf (a : Addr) : String := (pkg a).name.getD ""

/-- The bucket where the probe for a name starts. -/
def home (buckets : Nat) (name : String) : Nat := hash name % buckets

/-- Has the first package of the list this name? -/
def headMatches (name : String) (list : LCFGPackageList) : Bool :=
  (PkgList.firstPackage list).any fun a => Package.isMatch (pkg a) name (some Package.wildcard)

/-- Does the list hold the packages of this name? -/
def holdsName (name : String) (list : LCFGPackageList) : Bool :=
  !PkgList.isEmpty list && headMatches pkg name list

/-- Keep the list for a name after a merge into it, or drop it. Says also if it
is a new entry of the set. -/
def storeList (set : LCFGPackageSet) (slot : Nat) (newEntry : Bool)
    (r : PkgList.MergeResult) : LCFGPackageSet × Bool :=
  if newEntry then
    if r.change.isOk && r.change ≠ .none then
      ({ set with packages := set.packages.set slot (some r.list), entries := set.entries + 1 }, true)
    else (set, false)
  else if PkgList.isEmpty r.list then
    ({ set with packages := set.packages.set slot none, entries := set.entries - 1 }, false)
  else ({ set with packages := set.packages.set slot (some r.list) }, false)

/-- Merge a package into the list for its name, up to the growth of the table. -/
def place (derivs : DerivStore) (set : LCFGPackageSet) (new : Addr) (msg : Option Message) :
    MergeResult × Bool :=
  let name := nameOf pkg new
  match LinearProbe.probe set.packages set.buckets (home hash set.buckets name)
      (holdsName pkg name) with
  | none => (⟨set, derivs, .error, some noFreeSpace⟩, false)
  | some slot =>
    let current := set.packages[slot]?.join
    let pkglist := current.getD
      { PkgList.new with mergeRules := set.mergeRules, primaryKey := set.primaryKey }
    let r := PkgList.mergePackage vercmp pkg derivs pkglist (some new) msg
    let (set, grown) := storeList set slot current.isNone r
    (⟨set, r.derivs, r.change, r.msg⟩, grown)

abbrev Resize := DerivStore → LCFGPackageSet → Except Exit (LCFGPackageSet × DerivStore)

/-- `lcfgpkgset_merge_package`, over what it calls to grow the table. -/
def mergePackageWith (resize : Resize) (derivs : DerivStore) (set : LCFGPackageSet)
    (new : Option Addr) (msg : Option Message) : Except Exit MergeResult :=
  match new.filter fun a => Package.isValid (pkg a) with
  | none => .ok ⟨set, derivs, .error, msg⟩
  | some new =>
    match place hash vercmp pkg derivs set new msg with
    | (r, true) =>
      (resize r.derivs r.set).map fun grown => { r with set := grown.1, derivs := grown.2 }
    | (r, false) => .ok r

/-- The loop over the packages in `lcfgpkgset_merge_list`. -/
def mergeLoop (resize : Resize) (derivs : DerivStore) (set : LCFGPackageSet)
    (change : LCFGChange) (msg : Option Message) : List Addr → Except Exit MergeResult
  | [] => .ok ⟨set, derivs, change, msg⟩
  | p :: rest =>
    if !Package.isValid (pkg p) then mergeLoop resize derivs set change msg rest
    else
      match mergePackageWith hash vercmp pkg resize derivs set (some p) none with
      | .error e => .error e
      | .ok r =>
        if r.change = .error then
          let cause := r.msg.getD (.plain "(null)")
          .ok { r with msg := some (.caused p "Failed to merge package: " cause) }
        else
          let change := if r.change ≠ .none then .modified else change
          mergeLoop resize r.derivs r.set change msg rest

def mergeListWith (resize : Resize) (derivs : DerivStore) (set : LCFGPackageSet)
    (pkglist : LCFGPackageList) (msg : Option Message) : Except Exit MergeResult :=
  if PkgList.isEmpty pkglist then .ok ⟨set, derivs, .none, msg⟩
  else mergeLoop hash vercmp pkg resize derivs set .none msg (PkgList.items pkglist)

/-- The loop over the old buckets in `lcfgpkgset_resize`. -/
def copyLists (resize : Resize) (derivs : DerivStore) (set : LCFGPackageSet) :
    List (Option LCFGPackageList) → Except Exit (LCFGPackageSet × DerivStore)
  | [] => .ok (set, derivs)
  | none :: rest => copyLists resize derivs set rest
  | some pkgsForName :: rest =>
    if PkgList.isEmpty pkgsForName then copyLists resize derivs set rest
    else
      match mergeListWith hash vercmp pkg resize derivs set pkgsForName none with
      | .error e => .error e
      | .ok r =>
        if r.change = .error then .error (.resizeFailed r.msg)
        else copyLists resize r.derivs r.set rest

/-- `lcfgpkgset_resize`, over what the merges call in turn. -/
def resizeWith (resize : Resize) : Resize := fun derivs set =>
  let wantBuckets := wantBuckets set
  if set.packages ≠ [] ∧ wantBuckets ≤ set.buckets then .ok (set, derivs)
  else
    let newSet := { set with
      packages := List.replicate wantBuckets none, entries := 0, buckets := wantBuckets }
    copyLists hash vercmp pkg resize derivs newSet set.packages

def resizeAt : Nat → Resize
  | 0 => fun derivs set => if overloaded set then .error .tooDeep else .ok (set, derivs)
  | depth + 1 => resizeWith hash vercmp pkg (resizeAt depth)

/-- The recursion is as deep as in C: the tables which a growth fills never
have to grow themselves, see `resizeAt_succ`. -/
def mergePackage (depth : Nat) : DerivStore → LCFGPackageSet → Option Addr → Option Message →
    Except Exit MergeResult :=
  mergePackageWith hash vercmp pkg (resizeAt hash vercmp pkg (depth + 1))

def setMergeRules (set : LCFGPackageSet) (newRules : LCFGMergeRule) : LCFGPackageSet :=
  { set with
    mergeRules := newRules
    packages := set.packages.map fun entry =>
      entry.map fun list => { list with mergeRules := newRules } }

/-- `lcfgpkgset_find_list`: unlike a merge it looks at the head of each list only. -/
def findList (set : LCFGPackageSet) (wantName : String) : Option LCFGPackageList :=
  if isEmpty set then none
  else
    LinearProbe.lookup set.packages set.buckets (home hash set.buckets wantName)
      (headMatches pkg wantName)

def findPackage (set : LCFGPackageSet) (wantName : String) (wantArch : Option String) :
    Option Addr :=
  (findList hash pkg set wantName).bind fun list =>
    if PkgList.isEmpty list then none else PkgList.findPackage pkg list wantName wantArch

end Merge

/-! ### Sound sets -/

/-- A list as a set keeps it for a name: some packages, all of that name. -/
structure ListFor (pkg : Addr → LCFGPackage) (set : LCFGPackageSet) (name : String)
    (list : LCFGPackageList) : Prop where
  wf : PkgList.Wf pkg list
  nonempty : PkgList.items list ≠ []
  named : ∀ a ∈ PkgList.items list, nameOf pkg a = name
  primaryKey : list.primaryKey = set.primaryKey
  mergeRules : list.mergeRules = set.mergeRules

/-- What every merge keeps, even when the probe chains are broken. -/
structure Sound (pkg : Addr → LCFGPackage) (set : LCFGPackageSet) : Prop where
  length : set.packages.length = set.buckets
  positive : 0 < set.buckets
  entries : set.entries = LinearProbe.occupied set.packages
  lists : ∀ list ∈ LinearProbe.stored set.packages, ∃ name, ListFor pkg set name list

/-- The name of the packages in a list. -/
def key (pkg : Addr → LCFGPackage) (list : LCFGPackageList) : Option String :=
  (PkgList.firstPackage list).map (nameOf pkg)

def entryItems : Option LCFGPackageList → List Addr
  | none => []
  | some list => PkgList.items list

/-- Rewrite one bucket, and count the entries anew. -/
def update (set : LCFGPackageSet) (slot : Nat) (entry : Option LCFGPackageList) :
    LCFGPackageSet :=
  let packages := set.packages.set slot entry
  { set with packages, entries := LinearProbe.occupied packages }

variable {hash : String → Nat} {pkg : Addr → LCFGPackage}

theorem ListFor.key_eq {set : LCFGPackageSet} {name : String} {list : LCFGPackageList}
    (listFor : ListFor pkg set name list) : key pkg list = some name := by
  cases packages : PkgList.items list with
  | nil => exact absurd packages listFor.nonempty
  | cons a rest =>
    have named := listFor.named a (by simp [packages])
    rw [PkgList.items] at packages
    simp [key, PkgList.firstPackage, LinkedList.head?, packages, named]

theorem ListFor.isEmpty {set : LCFGPackageSet} {name : String} {list : LCFGPackageList}
    (listFor : ListFor pkg set name list) : PkgList.isEmpty list = false := by
  rw [PkgList.isEmpty, Bool.eq_false_iff, ne_eq, listFor.wf.chain.isEmpty_iff]
  exact listFor.nonempty

theorem headMatches_iff (want : String) (list : LCFGPackageList) :
    headMatches pkg want list = true ↔ key pkg list = some want := by
  unfold headMatches key
  cases PkgList.firstPackage list <;> simp [Package.isMatch_wildcard, nameOf]

theorem ListFor.holdsName_iff {set : LCFGPackageSet} {name : String} {list : LCFGPackageList}
    (listFor : ListFor pkg set name list) (want : String) :
    holdsName pkg want list = true ↔ key pkg list = some want := by
  simp only [holdsName, listFor.isEmpty, Bool.not_false, Bool.true_and, headMatches_iff]

theorem ListFor.of_update {set : LCFGPackageSet} {name : String} {list : LCFGPackageList}
    {slot : Nat} {entry : Option LCFGPackageList} (listFor : ListFor pkg set name list) :
    ListFor pkg (update set slot entry) name list :=
  ⟨listFor.wf, listFor.nonempty, listFor.named, listFor.primaryKey, listFor.mergeRules⟩

namespace Sound

variable {set : LCFGPackageSet} (sound : Sound pkg set)
include sound

theorem decides (name : String) (list : LCFGPackageList)
    (member : list ∈ LinearProbe.stored set.packages) :
    holdsName pkg name list = true ↔ key pkg list = some name := by
  obtain ⟨_, listFor⟩ := sound.lists list member
  exact listFor.holdsName_iff name

theorem home_lt (hash : String → Nat) (name : String) : home hash set.buckets name < set.packages.length := by
  rw [sound.length]
  exact Nat.mod_lt _ sound.positive

/-- Rewriting a bucket with a list that it may keep is sound. -/
theorem update (slot : Nat) (entry : Option LCFGPackageList)
    (fits : ∀ list ∈ entry, ∃ name, ListFor pkg set name list) :
    Sound pkg (update set slot entry) := by
  refine ⟨?_, sound.positive, rfl, fun list member => ?_⟩
  · simpa [PkgSet.update] using sound.length
  · rcases LinearProbe.mem_stored_set _ _ _ _ member with old | rfl
    · obtain ⟨name, listFor⟩ := sound.lists list old
      exact ⟨name, listFor.of_update⟩
    · obtain ⟨name, listFor⟩ := fits list rfl
      exact ⟨name, listFor.of_update⟩

/-- Below the limit of the load some bucket is empty. -/
theorem exists_empty (light : overloaded set = false) :
    ∃ i : Nat, set.packages[i]? = some none := by
  refine LinearProbe.exists_empty set.packages ?_
  rw [← sound.entries, sound.length]
  simp only [overloaded, ge_iff_le, decide_eq_false_iff_not, Nat.not_le] at light
  omega

end Sound

/-! ### Merging into one bucket -/

def bucketItems (set : LCFGPackageSet) (slot : Nat) : List Addr :=
  entryItems set.packages[slot]?.join

private theorem update_self {set : LCFGPackageSet} (sound : Sound pkg set) {slot : Nat}
    (empty : set.packages[slot]? = some none) : update set slot none = set := by
  obtain ⟨inside, here⟩ := List.getElem?_eq_some_iff.mp empty
  have same : set.packages.set slot none = set.packages := by
    rw [← here, List.set_getElem_self]
  simp only [update, same, ← sound.entries]

private theorem merged_listFor (vercmp : VersionOrder) (derivs : DerivStore)
    (set : LCFGPackageSet) (list : LCFGPackageList) (new : Addr) (msg : Option Message)
    (wf : PkgList.Wf pkg list) (named : ∀ a ∈ PkgList.items list, nameOf pkg a = nameOf pkg new)
    (primaryKey : list.primaryKey = set.primaryKey) (rules : list.mergeRules = set.mergeRules)
    (valid : Package.isValid (pkg new) = true) :
    let r := PkgList.mergePackage vercmp pkg derivs list (some new) msg
    (PkgList.items r.list, r.change) = PkgList.mergeItems vercmp pkg set.primaryKey
      set.mergeRules (PkgList.items list) new ∧
    (PkgList.isEmpty r.list = true ↔ PkgList.items r.list = []) ∧
    (PkgList.items r.list ≠ [] → ListFor pkg set (nameOf pkg new) r.list) := by
  obtain ⟨wf', same, primaryKey', rules'⟩ :=
    PkgList.mergePackage_spec vercmp derivs list new msg wf valid
  rw [primaryKey, rules] at same
  refine ⟨same, wf'.chain.isEmpty_iff, fun nonempty =>
    ⟨wf', nonempty, fun a member => ?_, primaryKey'.trans primaryKey, rules'.trans rules⟩⟩
  have items := congrArg Prod.fst same
  simp only at items
  rw [items] at member
  rcases PkgList.mem_mergeItems vercmp member with old | rfl
  · exact named a old
  · rfl

/-- Storing the merged list rewrites the bucket. -/
private theorem storeList_spec {set : LCFGPackageSet} (sound : Sound pkg set) (name : String)
    (slot : Nat) (inside : slot < set.packages.length) (r : PkgList.MergeResult)
    (empty : PkgList.isEmpty r.list = true ↔ PkgList.items r.list = [])
    (listFor : PkgList.items r.list ≠ [] → ListFor pkg set name r.list)
    (fresh : set.packages[slot]? = some none →
      (PkgList.items r.list ≠ [] ↔ (r.change.isOk && r.change ≠ .none) = true)) :
    let stored := storeList set slot set.packages[slot]?.join.isNone r
    ∃ entry, (∀ list ∈ entry, ListFor pkg set name list) ∧ entryItems entry = PkgList.items r.list ∧
      stored.1 = update set slot entry ∧ (stored.2 = false → stored.1.entries ≤ set.entries) := by
  have count := LinearProbe.occupied_set set.packages slot inside
  have here : set.packages[slot]? = some set.packages[slot] := List.getElem?_eq_getElem inside
  rw [here, Option.join_some]
  cases content : set.packages[slot] with
  | none =>
    rw [content] at here
    by_cases nonempty : PkgList.items r.list ≠ []
    · have grows := count (some r.list)
      simp only [content, Option.isSome_none, Option.isSome_some, Bool.false_eq_true, if_false,
        if_true, Nat.add_zero, ← sound.entries] at grows
      have stored : storeList set slot true r = (update set slot (some r.list), true) := by
        simp only [storeList, if_true, (fresh here).mp nonempty, update, grows]
      refine ⟨some r.list, fun list given => ?_, rfl, ?_⟩
      · cases given
        exact listFor nonempty
      · simp [stored]
    -- an empty list was not merged into, and is not stored
    · have kept : (r.change.isOk && r.change ≠ .none) = false :=
        Bool.eq_false_iff.mpr fun ok => nonempty ((fresh here).mpr ok)
      have stored : storeList set slot true r = (set, false) := by
        simp only [storeList, if_true, kept, Bool.false_eq_true, if_false]
      refine ⟨none, by simp, (not_not.mp nonempty).symm, ?_⟩
      simp [stored, update_self sound here]
  | some old =>
    -- the last package has gone, and the list with it
    by_cases gone : PkgList.items r.list = []
    · have shrinks := count none
      simp only [content, Option.isSome_none, Option.isSome_some, Bool.false_eq_true, if_false,
        if_true, Nat.add_zero, ← sound.entries] at shrinks
      have stored : storeList set slot false r = (update set slot none, false) := by
        simp only [storeList, Bool.false_eq_true, if_false, empty.mpr gone, if_true, update,
          ← shrinks, Nat.add_sub_cancel]
      refine ⟨none, by simp, gone.symm, ?_⟩
      simp [stored, update]
      omega
    · have stays := count (some r.list)
      simp only [content, Option.isSome_some, if_true, ← sound.entries, Nat.add_right_cancel_iff]
        at stays
      have full : PkgList.isEmpty r.list = false := Bool.eq_false_iff.mpr fun e => gone (empty.mp e)
      have stored : storeList set slot false r = (update set slot (some r.list), false) := by
        simp only [storeList, Bool.false_eq_true, if_false, full, update, stays]
      refine ⟨some r.list, fun list given => ?_, rfl, ?_⟩
      · cases given
        exact listFor gone
      · simp [stored, update, stays]

/-- Where the merge of a package with this name goes. -/
def slotOf (hash : String → Nat) (pkg : Addr → LCFGPackage) (set : LCFGPackageSet)
    (name : String) : Option Nat :=
  LinearProbe.probe set.packages set.buckets (home hash set.buckets name) (holdsName pkg name)

namespace Sound

variable {set : LCFGPackageSet} (sound : Sound pkg set) {name : String} {slot : Nat}
  (stop : slotOf hash pkg set name = some slot)
include sound stop

theorem slot_inside : slot < set.packages.length := by
  have bound := sound.home_lt hash name
  unfold slotOf at stop
  rw [← sound.length] at bound stop
  exact LinearProbe.probe_inside _ _ _ bound slot stop

/-- The bucket where the probe for a name stops has no other packages. -/
theorem bucket_fits : ∀ list ∈ set.packages[slot]?.join, ListFor pkg set name list := by
  intro list given
  have bound := sound.home_lt hash name
  unfold slotOf at stop
  rw [← sound.length] at bound stop
  have full : set.packages[slot]? = some (some list) := Option.join_eq_some_iff.mp given
  rcases ((LinearProbe.probe_eq_some_iff _ _ _ bound slot).mp stop).1 with empty | ⟨a, here, yes⟩
  · simp [full] at empty
  · rw [full] at here
    cases here
    obtain ⟨name', listFor⟩ :=
      sound.lists list ((LinearProbe.mem_stored set.packages list).mpr ⟨slot, full⟩)
    have same : name' = name := Option.some.inj
      (listFor.key_eq.symm.trans ((listFor.holdsName_iff _).mp yes))
    exact same ▸ listFor

theorem update_bucket : PkgSet.update set slot set.packages[slot]?.join = set := by
  have inside := sound.slot_inside stop
  have same : set.packages.set slot set.packages[slot]?.join = set.packages := by
    rw [List.getElem?_eq_getElem inside, Option.join_some, List.set_getElem_self]
  simp only [PkgSet.update, same, ← sound.entries]

end Sound

theorem Sound.exists_slot {set : LCFGPackageSet} (sound : Sound pkg set) (hash : String → Nat)
    (name : String) (light : overloaded set = false) :
    ∃ slot, slotOf hash pkg set name = some slot := by
  obtain ⟨i, empty⟩ := sound.exists_empty light
  have bound := sound.home_lt hash name
  have stop := LinearProbe.probe_isSome _ _ (holdsName pkg name) bound i empty
  rw [sound.length] at stop
  exact stop

/-- The merge of a package into the list for its name rewrites the bucket where
the probe stops with what the merge on plain lists leaves. -/
theorem place_spec (hash : String → Nat) (vercmp : VersionOrder) (derivs : DerivStore)
    {set : LCFGPackageSet} (sound : Sound pkg set) (light : overloaded set = false) (new : Addr)
    (msg : Option Message) (valid : Package.isValid (pkg new) = true) :
    ∃ slot entry, slotOf hash pkg set (nameOf pkg new) = some slot ∧
      (∀ list ∈ entry, ListFor pkg set (nameOf pkg new) list) ∧
      let result := place hash vercmp pkg derivs set new msg
      (entryItems entry, result.1.change) = PkgList.mergeItems vercmp pkg set.primaryKey
        set.mergeRules (bucketItems set slot) new ∧
      result.1.set = update set slot entry ∧
      (result.2 = false → result.1.set.entries ≤ set.entries) ∧
      (msg ≠ some noFreeSpace → result.1.msg ≠ some noFreeSpace) := by
  obtain ⟨slot, stop⟩ := sound.exists_slot hash (nameOf pkg new) light
  have inside := sound.slot_inside stop
  have fits := sound.bucket_fits stop
  let pkglist := set.packages[slot]?.join.getD
    { PkgList.new with mergeRules := set.mergeRules, primaryKey := set.primaryKey }
  -- the list of the slot, or a new one, takes packages of this name only
  obtain ⟨wf, named, primaryKey, rules, items⟩ : PkgList.Wf pkg pkglist ∧
      (∀ a ∈ PkgList.items pkglist, nameOf pkg a = nameOf pkg new) ∧
      pkglist.primaryKey = set.primaryKey ∧ pkglist.mergeRules = set.mergeRules ∧
      PkgList.items pkglist = bucketItems set slot := by
    unfold bucketItems
    cases content : set.packages[slot]?.join with
    | none =>
      simp only [pkglist, content, Option.getD_none]
      exact ⟨PkgList.new_wf pkg set.primaryKey set.mergeRules, by simp [PkgList.items, PkgList.new],
        trivial, trivial, rfl⟩
    | some list =>
      have listFor := fits list content
      simp only [pkglist, content, Option.getD_some]
      exact ⟨listFor.wf, listFor.named, listFor.primaryKey, listFor.mergeRules, rfl⟩
  obtain ⟨spec, isEmpty, listFor⟩ :=
    merged_listFor vercmp derivs set pkglist new msg wf named primaryKey rules valid
  rw [items] at spec
  obtain ⟨entry, fits', same, stored, light'⟩ := storeList_spec sound (nameOf pkg new) slot inside _
    isEmpty listFor fun empty => by
      rw [bucketItems, empty, Option.join_some, entryItems] at spec
      rcases PkgList.mergeItems_nil vercmp set.primaryKey set.mergeRules new with h | h | h <;>
        rw [h] at spec <;> obtain ⟨left, change⟩ := Prod.mk.inj spec <;>
        simp [left, change, LCFGChange.isOk]
  refine ⟨slot, entry, stop, fits', ?_⟩
  rw [slotOf] at stop
  simp only [place, stop, same]
  exact ⟨spec, stored, light', PkgList.mergePackage_msg vercmp derivs pkglist _ msg _ (by decide)⟩

end PkgSet
end Lcfg
