import LcfgCore.Library.Run
import LcfgCore.Packages.Resize
import Mathlib.Algebra.Order.BigOperators.Group.List
import Mathlib.Algebra.Order.Group.Nat

/-!
# Runs of package sets

A package set goes through merges and changes of its merge rules. What is
`Sound` holds in every state; the probe chains may break when a merge removes
the last package of a name.

## Main result

`run_coherent_iff`: the table is coherent in all states of a run exactly if no
merge empties a bucket which the probe for another stored name passes.
-/
namespace Lcfg.PkgSet

inductive SetCall where
  | merge (new : Option Addr) (msg : Option Message)
  | setMergeRules (newRules : LCFGMergeRule)

abbrev State := Except Exit (LCFGPackageSet × DerivStore)

/-- A call on a set, unless the process has ended. -/
def step (hash : String → Nat) (vercmp : VersionOrder) (pkg : Addr → LCFGPackage) (depth : Nat) :
    State → SetCall → State
  | .error exit, _ => .error exit
  | .ok (set, derivs), .merge new msg =>
    (mergePackage hash vercmp pkg depth derivs set new msg).map fun r => (r.set, r.derivs)
  | .ok (set, derivs), .setMergeRules newRules => .ok (setMergeRules set newRules, derivs)

variable {hash : String → Nat} {vercmp : VersionOrder} {pkg : Addr → LCFGPackage}

/-! ### Every step keeps a set sound -/

theorem new_sound (primaryKey : LCFGPkgListPK) (rules : LCFGMergeRule) :
    Sound pkg { new with primaryKey, mergeRules := rules } where
  length := by simp [new, blank]
  positive := by simp [new, blank, defaultSize]
  entries := by simp [new, blank, LinearProbe.occupied_replicate_none]
  lists := by simp [new, LinearProbe.stored_replicate_none]

theorem setMergeRules_sound {set : LCFGPackageSet} (sound : Sound pkg set)
    (newRules : LCFGMergeRule) : Sound pkg (setMergeRules set newRules) := by
  have packages : (setMergeRules set newRules).packages =
      set.packages.map (Option.map fun list => { list with mergeRules := newRules }) := rfl
  refine ⟨?_, sound.positive, ?_, fun list member => ?_⟩
  · rw [packages, List.length_map]
    exact sound.length
  · rw [packages, LinearProbe.occupied_map]
    exact sound.entries
  · rw [packages, LinearProbe.stored_map] at member
    obtain ⟨old, stored, rfl⟩ := List.mem_map.mp member
    obtain ⟨name, listFor⟩ := sound.lists old stored
    exact ⟨name, ⟨listFor.wf.chain, listFor.wf.valid⟩, listFor.nonempty, listFor.named,
      listFor.primaryKey, rfl⟩

/-- A merge places the package, and then grows the set if that overloads it. -/
theorem mergePackage_eq (depth : Nat) (derivs : DerivStore) {set : LCFGPackageSet}
    (sound : Sound pkg set) (light : overloaded set = false) (new : Addr) (msg : Option Message)
    (valid : Package.isValid (pkg new) = true) :
    mergePackage hash vercmp pkg depth derivs set (some new) msg =
      let r := (place hash vercmp pkg derivs set new msg).1
      if overloaded r.set then
        (resizeAt hash vercmp pkg (depth + 1) r.derivs r.set).map fun grown =>
          { r with set := grown.1, derivs := grown.2 }
      else .ok r := by
  obtain ⟨slot, entry, stop, fits, -, stored, grown, -⟩ :=
    place_spec hash vercmp derivs sound light new msg valid
  have sound' := sound.update slot entry fun list given => ⟨_, fits list given⟩
  rw [← stored] at sound'
  have buckets : (place hash vercmp pkg derivs set new msg).1.set.buckets = set.buckets := by
    rw [stored]
    rfl
  cases heavy : overloaded (place hash vercmp pkg derivs set new msg).1.set with
  | false =>
    simp only [heavy, Bool.false_eq_true, if_false]
    exact mergePackageWith_light (depth + 1) derivs set new msg valid sound'.packages_ne_nil heavy
  | true =>
    simp only [mergePackage, mergePackageWith, Option.filter_some, valid, if_true]
    split
    next r same =>
      rw [same] at heavy
      simp only [same, heavy, if_true]
    -- only a new list can make the set too full
    next r same =>
      have few := grown (by rw [same])
      simp only [overloaded, buckets, ge_iff_le, decide_eq_true_eq, decide_eq_false_iff_not,
        Nat.not_le] at heavy light
      omega

/-- The states of a run: a sound set with some room, or the end of the process
over a package that was refused. -/
def Fine (pkg : Addr → LCFGPackage) : State → Prop
  | .ok (set, _) => Sound pkg set ∧ overloaded set = false
  | .error exit => ∃ msg, exit = .resizeFailed msg ∧ Refusal msg

theorem step_fine (hash : String → Nat) (vercmp : VersionOrder) (depth : Nat) (state : State)
    (call : SetCall) (fine : Fine pkg state) :
    Fine pkg (step hash vercmp pkg depth state call) := by
  cases state with
  | error exit => exact fine
  | ok current =>
    obtain ⟨set, derivs⟩ := current
    obtain ⟨sound, light⟩ := fine
    cases call with
    | setMergeRules newRules => exact ⟨setMergeRules_sound sound newRules, light⟩
    | merge new msg =>
      -- an invalid package changes nothing
      cases hit : new.filter fun a => Package.isValid (pkg a) with
      | none =>
        simp only [step, mergePackage, mergePackageWith, hit, Except.map]
        exact ⟨sound, light⟩
      | some a =>
        obtain ⟨given, valid⟩ := Option.filter_eq_some_iff.mp hit
        subst given
        obtain ⟨slot, entry, -, fits, -, stored, -⟩ :=
          place_spec hash vercmp derivs sound light a msg valid
        have sound' := sound.update slot entry fun list given => ⟨_, fits list given⟩
        rw [← stored] at sound'
        simp only [step, mergePackage_eq depth derivs sound light a msg valid]
        split
        next heavy =>
          have outcome := resize_spec hash vercmp depth
            (place hash vercmp pkg derivs set a msg).1.derivs _ sound' heavy
          cases grown : resizeAt hash vercmp pkg (depth + 1)
              (place hash vercmp pkg derivs set a msg).1.derivs
              (place hash vercmp pkg derivs set a msg).1.set with
          | ok final =>
            rw [grown] at outcome
            exact outcome.light sound'
          | error exit =>
            rw [grown] at outcome
            exact outcome.1
        next heavy => exact ⟨sound', by simpa using heavy⟩

/-- A new set into which the packages are merged. -/
def built (hash : String → Nat) (vercmp : VersionOrder) (pkg : Addr → LCFGPackage)
    (primaryKey : LCFGPkgListPK) (rules : LCFGMergeRule) (packages : List Addr) : LCFGPackageSet :=
  let empty : LCFGPackageSet := { new with primaryKey, mergeRules := rules }
  match (packages.map fun a => SetCall.merge (some a) none).foldl (step hash vercmp pkg 0)
      (.ok (empty, fun _ => [])) with
  | .ok (set, _) => set
  | .error _ => empty

theorem built_fine (hash : String → Nat) (vercmp : VersionOrder) (primaryKey : LCFGPkgListPK)
    (rules : LCFGMergeRule) (packages : List Addr) :
    Sound pkg (built hash vercmp pkg primaryKey rules packages) ∧
      overloaded (built hash vercmp pkg primaryKey rules packages) = false := by
  have start : Fine pkg (.ok ({ new with primaryKey, mergeRules := rules }, fun _ => [])) :=
    ⟨new_sound primaryKey rules, rfl⟩
  have fine := Run.invariant (fun state call fine _ => step_fine hash vercmp 0 state call fine) start
    (Run.every_true _ (packages.map fun a => SetCall.merge (some a) none))
  rw [built]
  dsimp only
  split
  case h_1 set derivs final =>
    rw [final] at fine
    exact fine
  case h_2 => exact start

/-! ### Probe chains -/

/-- The probe for each name in the set reaches its bucket. -/
def Linked (hash : String → Nat) (pkg : Addr → LCFGPackage) (set : LCFGPackageSet) : Prop :=
  LinearProbe.Chained set.packages (home hash set.buckets) (key pkg)

theorem new_linked (primaryKey : LCFGPkgListPK) (rules : LCFGMergeRule) :
    Linked hash pkg { new with primaryKey, mergeRules := rules } :=
  LinearProbe.chained_replicate_none _ _ _

theorem setMergeRules_linked {set : LCFGPackageSet} (linked : Linked hash pkg set)
    (newRules : LCFGMergeRule) : Linked hash pkg (setMergeRules set newRules) :=
  linked.map _ fun _ _ => rfl

section Update

variable {set : LCFGPackageSet} (sound : Sound pkg set) (linked : Linked hash pkg set)
  {name : String} {slot : Nat} (stop : slotOf hash pkg set name = some slot)
include sound linked stop

/-- Rewriting the bucket for a name with packages of that name keeps the chains. -/
theorem Linked.update_some (list : LCFGPackageList) (fits : ListFor pkg set name list) :
    Linked hash pkg (update set slot (some list)) := by
  have bound := sound.home_lt hash name
  unfold slotOf at stop
  rw [← sound.length] at bound stop
  unfold Linked at linked ⊢
  rw [← sound.length] at linked
  have chained := linked.set_some name (holdsName pkg name) (sound.decides name) bound slot stop
    list fits.key_eq
  rw [sound.length] at chained
  exact chained

/-- Emptying it keeps them unless the probe for another name passes. -/
theorem Linked.update_none_iff :
    Linked hash pkg (update set slot none) ↔
      ¬LinearProbe.Chained.Through set.packages (home hash set.buckets) (key pkg) slot :=
  linked.set_none_iff slot (sound.slot_inside stop)

/-- An empty bucket which stays empty is no change. -/
theorem Linked.update_entry (entry : Option LCFGPackageList)
    (fits : ∀ list ∈ entry, ListFor pkg set name list)
    (safe : entry = none → set.packages[slot]?.join = none) :
    Linked hash pkg (update set slot entry) := by
  cases entry with
  | some list => exact linked.update_some sound stop list (fits list rfl)
  | none =>
    rw [← safe rfl, sound.update_bucket stop]
    exact linked

end Update

/-- Copying a list for a name that is not there yet keeps the chains. -/
theorem Copied.linked {set set' : LCFGPackageSet} {list : LCFGPackageList}
    (copied : Copied hash vercmp pkg set list set') (sound : Sound pkg set)
    (linked : Linked hash pkg set)
    (absent : ∀ old ∈ LinearProbe.stored set.packages, key pkg old ≠ key pkg list) :
    Linked hash pkg set' ∧ ∀ kept ∈ LinearProbe.stored set'.packages,
      kept ∈ LinearProbe.stored set.packages ∨ key pkg kept = key pkg list := by
  obtain ⟨name, slot, entry, listFor, stop, fits, -, rfl⟩ := copied
  have empty : set.packages[slot]?.join = none := by
    cases content : set.packages[slot]?.join with
    | none => rfl
    | some old =>
      have stored : old ∈ LinearProbe.stored set.packages :=
        (LinearProbe.mem_stored _ _).mpr ⟨slot, Option.join_eq_some_iff.mp content⟩
      have same := (sound.bucket_fits stop old content).key_eq.trans listFor.key_eq.symm
      exact absurd same (absent old stored)
  refine ⟨linked.update_entry sound stop entry fits fun _ => empty, fun kept member => ?_⟩
  rcases LinearProbe.mem_stored_set _ _ _ _ member with old | rfl
  · exact Or.inl old
  · exact Or.inr ((fits kept rfl).key_eq.trans listFor.key_eq.symm)

theorem Copies.linked {set set' : LCFGPackageSet} {lists : List LCFGPackageList}
    (copies : Copies hash vercmp pkg set lists set') (sound : Sound pkg set)
    (linked : Linked hash pkg set) (apart : lists.Pairwise fun l l' => key pkg l ≠ key pkg l')
    (absent : ∀ list ∈ lists, ∀ old ∈ LinearProbe.stored set.packages,
      key pkg old ≠ key pkg list) : Linked hash pkg set' := by
  induction copies with
  | done set => exact linked
  | copy first _ ih =>
    obtain ⟨later, apart'⟩ := List.pairwise_cons.mp apart
    obtain ⟨linked', kept⟩ := first.linked sound linked (absent _ (by simp))
    refine ih (first.sound sound).1 linked' apart' fun list member old stored => ?_
    rcases kept old stored with before | same
    · exact absent list (by simp [member]) old before
    · rw [same]
      exact later list member

/-- Growing a set whose chains are whole leaves whole chains. -/
theorem Copies.linked_of_linked {set set' : LCFGPackageSet}
    (copies : Copies hash vercmp pkg (emptied set) (LinearProbe.stored set.packages) set')
    (linked : Linked hash pkg set) : Linked hash pkg set' :=
  copies.linked (emptied_sound set) (LinearProbe.chained_replicate_none _ _ _) linked.pairwise
    (by simp [emptied, LinearProbe.stored_replicate_none])

/-! ### Coherence -/

/-- What the callers of a package set rely on. -/
structure Coherent (hash : String → Nat) (pkg : Addr → LCFGPackage) (set : LCFGPackageSet) :
    Prop where
  found : ∀ (slot : Nat) (list : LCFGPackageList), set.packages[slot]? = some (some list) →
    ∀ a ∈ PkgList.items list, findList hash pkg set (nameOf pkg a) = some list ∧
      ∃ b ∈ PkgList.items list, findPackage hash pkg set (nameOf pkg a) (pkg a).arch = some b
  unique : ∀ (i j : Nat) (list list' : LCFGPackageList), set.packages[i]? = some (some list) →
    set.packages[j]? = some (some list') → ∀ a ∈ PkgList.items list,
      ∀ b ∈ PkgList.items list', nameOf pkg a = nameOf pkg b → i = j
  counted : set.entries = LinearProbe.occupied set.packages
  free : ∃ i < set.buckets, set.packages[i]? = some none
  placed : ∀ name, ∃ slot, slotOf hash pkg set name = some slot

theorem Sound.key_of_mem {set : LCFGPackageSet} (sound : Sound pkg set) {slot : Nat}
    {list : LCFGPackageList} (full : set.packages[slot]? = some (some list)) {a : Addr}
    (member : a ∈ PkgList.items list) : key pkg list = some (nameOf pkg a) := by
  obtain ⟨name, listFor⟩ := sound.lists list ((LinearProbe.mem_stored _ _).mpr ⟨slot, full⟩)
  rw [listFor.named a member]
  exact listFor.key_eq

theorem Sound.exists_item {set : LCFGPackageSet} (sound : Sound pkg set) {slot : Nat}
    {list : LCFGPackageList} (full : set.packages[slot]? = some (some list)) :
    ∃ a, a ∈ PkgList.items list := by
  obtain ⟨name, listFor⟩ := sound.lists list ((LinearProbe.mem_stored _ _).mpr ⟨slot, full⟩)
  exact List.exists_mem_of_ne_nil _ listFor.nonempty

theorem Sound.not_isEmpty {set : LCFGPackageSet} (sound : Sound pkg set) {list : LCFGPackageList}
    (member : list ∈ LinearProbe.stored set.packages) : isEmpty set = false := by
  obtain ⟨name, listFor⟩ := sound.lists list member
  have positive : 0 < list.chain.size := by
    rw [listFor.wf.chain.size_items]
    exact List.length_pos_iff.mpr listFor.nonempty
  have counted : set.entries ≠ 0 := by
    rw [sound.entries, ← LinearProbe.length_stored]
    exact Nat.pos_iff_ne_zero.mp (List.length_pos_of_mem member)
  have total : list.chain.size ≤
      ((LinearProbe.stored set.packages).map fun list => list.chain.size).sum :=
    List.le_sum_of_mem (List.mem_map_of_mem member)
  simp only [isEmpty, size, counted, if_false, beq_eq_false_iff_ne]
  omega

/-- In a sound set with some room, coherence is a matter of the chains. -/
theorem coherent_iff {set : LCFGPackageSet} (sound : Sound pkg set)
    (light : overloaded set = false) : Coherent hash pkg set ↔ Linked hash pkg set := by
  have decides (name : String) (list : LCFGPackageList)
      (_ : list ∈ LinearProbe.stored set.packages) :
      headMatches pkg name list = true ↔ key pkg list = some name := headMatches_iff name list
  have lookup (name : String) (list : LCFGPackageList)
      (member : list ∈ LinearProbe.stored set.packages) : findList hash pkg set name =
        LinearProbe.lookup set.packages set.packages.length (home hash set.buckets name)
          (headMatches pkg name) := by
    simp only [findList, sound.not_isEmpty member, Bool.false_eq_true, if_false, sound.length]
  constructor
  · intro coherent
    refine ⟨fun i list full => ?_, fun i j list list' name hi hj keyI keyJ => ?_,
      fun i list name full same j hj earlier => ?_⟩
    · obtain ⟨name, listFor⟩ := sound.lists list ((LinearProbe.mem_stored _ _).mpr ⟨i, full⟩)
      exact ⟨name, listFor.key_eq⟩
    · obtain ⟨a, memberA⟩ := sound.exists_item hi
      obtain ⟨b, memberB⟩ := sound.exists_item hj
      have nameA := (sound.key_of_mem hi memberA).symm.trans keyI
      have nameB := (sound.key_of_mem hj memberB).symm.trans keyJ
      exact coherent.unique i j list list' hi hj a memberA b memberB
        (Option.some.inj (nameA.trans nameB.symm))
    · obtain ⟨a, member⟩ := sound.exists_item full
      have named := Option.some.inj ((sound.key_of_mem full member).symm.trans same)
      -- the search finds the list at its own slot, so that it has passed all earlier ones
      have found := (coherent.found i list full a member).1
      rw [named, lookup name list ((LinearProbe.mem_stored _ _).mpr ⟨i, full⟩)] at found
      obtain ⟨k, stop, entry⟩ := Option.bind_eq_some_iff.mp found
      have here := Option.join_eq_some_iff.mp entry
      obtain rfl := coherent.unique k i list list here full a member a member rfl
      obtain ⟨b, passed, -⟩ := ((LinearProbe.probe_eq_some_iff _ _ _ (sound.home_lt hash name) k).mp
        stop).2 j hj earlier
      exact ⟨b, passed⟩
  · intro linked
    refine ⟨fun slot list full a member => ?_, fun i j list list' hi hj a memberA b memberB same => ?_,
      sound.entries, ?_, fun name => sound.exists_slot hash name light⟩
    · have stored := (LinearProbe.mem_stored _ _).mpr ⟨slot, full⟩
      have found : findList hash pkg set (nameOf pkg a) = some list := by
        rw [lookup _ list stored]
        exact (linked.lookup_eq_some_iff _ _ (decides _) (sound.home_lt hash _) list).mpr
          ⟨stored, sound.key_of_mem full member⟩
      refine ⟨found, ?_⟩
      obtain ⟨name, listFor⟩ := sound.lists list stored
      have isMatch : Package.isMatch (pkg a) (nameOf pkg a) (pkg a).arch = true := by
        simp [Package.isMatch, nameOf]
      cases hit : PkgList.findPackage pkg list (nameOf pkg a) (pkg a).arch with
      | none =>
        rw [PkgList.findPackage, listFor.isEmpty] at hit
        have missed := List.find?_eq_none.mp hit a member
        simp [listFor.wf.valid a member, isMatch] at missed
      | some b =>
        have inList : b ∈ PkgList.items list := by
          rw [PkgList.findPackage, listFor.isEmpty] at hit
          exact List.mem_of_find?_eq_some hit
        exact ⟨b, inList, by simp [findPackage, found, listFor.isEmpty, hit]⟩
    · exact linked.unique i j list list' _ hi hj (sound.key_of_mem hi memberA)
        (same ▸ sound.key_of_mem hj memberB)
    -- there is always an empty slot left to stop at
    · obtain ⟨i, empty⟩ := sound.exists_empty light
      have inside := (List.getElem?_eq_some_iff.mp empty).1
      rw [sound.length] at inside
      exact ⟨i, inside, empty⟩

/-! ### Which merges keep the chains -/

/-- The merge of `new` removes the last package of the list, which is not pinned. -/
def Empties (pkg : Addr → LCFGPackage) (set : LCFGPackageSet) (list : LCFGPackageList)
    (new : Addr) : Prop :=
  set.mergeRules.usePrefix = true ∧ (pkg new).pfx = .remove ∧
    ∃ c, PkgList.items list = [c] ∧ c ≠ new ∧
      PkgList.sameKey set.primaryKey (pkg new) (pkg c) = true ∧ (pkg c).pfx ≠ .pin

/-- The call does not empty a bucket which the probe for another stored name passes. -/
def KeepsChains (hash : String → Nat) (pkg : Addr → LCFGPackage) (set : LCFGPackageSet) :
    SetCall → Prop
  | .setMergeRules _ => True
  | .merge new _ => ∀ a ∈ new.filter fun a => Package.isValid (pkg a),
      ∀ slot ∈ slotOf hash pkg set (nameOf pkg a), ∀ list ∈ set.packages[slot]?.join,
        Empties pkg set list a →
          ¬LinearProbe.Chained.Through set.packages (home hash set.buckets) (key pkg) slot

/-- After placing a package the chains are whole exactly if it did not break them. -/
theorem place_linked_iff (vercmp : VersionOrder) (derivs : DerivStore) {set : LCFGPackageSet}
    (sound : Sound pkg set) (light : overloaded set = false) (linked : Linked hash pkg set) (new : Addr)
    (msg : Option Message) (valid : Package.isValid (pkg new) = true) :
    Linked hash pkg (place hash vercmp pkg derivs set new msg).1.set ↔
      KeepsChains hash pkg set (.merge (some new) msg) := by
  obtain ⟨slot, entry, stop, fits, spec, stored, -⟩ :=
    place_spec hash vercmp derivs sound light new msg valid
  -- the slot is emptied exactly where the merge removes its only package
  have emptied_iff (list : LCFGPackageList) (content : set.packages[slot]?.join = some list) :
      entry = none ↔ Empties pkg set list new := by
    have listFor := sound.bucket_fits stop list content
    have items := congrArg Prod.fst spec
    simp only [bucketItems, content, entryItems] at items
    have gone : entry = none ↔ entryItems entry = [] := by
      cases entry with
      | none => simp [entryItems]
      | some list => simpa [entryItems] using (fits list rfl).nonempty
    rw [gone, entryItems.eq_def, items, PkgList.mergeItems_eq_nil_iff vercmp _ _ _ _ listFor.nonempty]
    rfl
  have keeps : KeepsChains hash pkg set (.merge (some new) msg) ↔
      ∀ list ∈ set.packages[slot]?.join, Empties pkg set list new →
        ¬LinearProbe.Chained.Through set.packages (home hash set.buckets) (key pkg) slot := by
    simp [KeepsChains, valid, stop]
  rw [stored, keeps]
  cases content : set.packages[slot]?.join with
  | none =>
    have linked' := linked.update_entry sound stop entry fits fun _ => content
    simp [linked']
  | some list =>
    simp only [Option.mem_some_iff, forall_eq', ← emptied_iff list content]
    cases entry with
    | none => simp [linked.update_none_iff sound stop]
    | some list => simp [linked.update_some sound stop list (fits list rfl)]

/-- A set which has to grow got a new entry, and that breaks no chain. -/
theorem place_linked_of_heavy (derivs : DerivStore) {set : LCFGPackageSet}
    (sound : Sound pkg set) (light : overloaded set = false) (linked : Linked hash pkg set)
    (new : Addr) (msg : Option Message) (valid : Package.isValid (pkg new) = true)
    (heavy : overloaded (place hash vercmp pkg derivs set new msg).1.set = true) :
    Linked hash pkg (place hash vercmp pkg derivs set new msg).1.set := by
  obtain ⟨slot, entry, stop, fits, -, stored, -⟩ :=
    place_spec hash vercmp derivs sound light new msg valid
  rw [stored] at heavy ⊢
  cases entry with
  | some list => exact linked.update_some sound stop list (fits list rfl)
  | none =>
    have count := LinearProbe.occupied_set set.packages slot (sound.slot_inside stop) none
    simp only [Option.isSome_none, Bool.false_eq_true, if_false] at count
    simp only [overloaded, update, sound.entries, ge_iff_le, decide_eq_true_eq,
      decide_eq_false_iff_not, Nat.not_le] at heavy light
    omega

/-- A state of a run in which the table is coherent; a run does not end for
want of a free bucket, or of depth. -/
def Good (hash : String → Nat) (pkg : Addr → LCFGPackage) : State → Prop
  | .ok (set, _) => Coherent hash pkg set
  | .error exit => exit ≠ .tooDeep ∧
      ∀ p text, exit ≠ .resizeFailed (some (.caused p text noFreeSpace))

def StepKeepsChains (hash : String → Nat) (pkg : Addr → LCFGPackage) : State → SetCall → Prop
  | .ok (set, _), call => KeepsChains hash pkg set call
  | .error _, _ => True

/-- A step from a coherent state leads to a coherent state exactly if it keeps the chains. -/
theorem step_good_iff (depth : Nat) (state : State) (call : SetCall) (fine : Fine pkg state)
    (good : Good hash pkg state) :
    Good hash pkg (step hash vercmp pkg depth state call) ↔
      StepKeepsChains hash pkg state call := by
  have next := step_fine hash vercmp depth state call fine
  cases state with
  | error exit => simpa [step, StepKeepsChains] using good
  | ok current =>
    obtain ⟨set, derivs⟩ := current
    obtain ⟨sound, light⟩ := fine
    have linked := (coherent_iff sound light).mp good
    cases call with
    | setMergeRules newRules =>
      simp only [StepKeepsChains, KeepsChains, iff_true]
      exact (coherent_iff next.1 next.2).mpr (setMergeRules_linked linked newRules)
    | merge new msg =>
      cases hit : new.filter fun a => Package.isValid (pkg a) with
      | none =>
        simp only [StepKeepsChains, KeepsChains, hit]
        simpa [step, mergePackage, mergePackageWith, hit, Except.map] using good
      | some a =>
        obtain ⟨given, valid⟩ := Option.filter_eq_some_iff.mp hit
        subst given
        have placed := place_linked_iff vercmp derivs sound light linked a msg valid
        simp only [step, mergePackage_eq depth derivs sound light a msg valid] at next ⊢
        simp only [StepKeepsChains]
        rw [← placed]
        cases heavy : overloaded (place hash vercmp pkg derivs set a msg).1.set with
        | false =>
          simp only [heavy, Bool.false_eq_true, if_false, Except.map] at next ⊢
          exact coherent_iff next.1 next.2
        | true =>
          -- the set got a new entry and grew
          have whole := place_linked_of_heavy derivs sound light linked a msg valid heavy
          obtain ⟨slot, entry, -, fits, -, stored, -⟩ :=
            place_spec hash vercmp derivs sound light a msg valid
          have sound' := sound.update slot entry fun list given => ⟨_, fits list given⟩
          rw [← stored] at sound'
          have outcome := resize_spec hash vercmp depth
            (place hash vercmp pkg derivs set a msg).1.derivs _ sound' heavy
          simp only [heavy, if_true] at next ⊢
          rw [iff_true_right whole]
          cases grown : resizeAt hash vercmp pkg (depth + 1)
              (place hash vercmp pkg derivs set a msg).1.derivs
              (place hash vercmp pkg derivs set a msg).1.set with
          | ok final =>
            rw [grown] at outcome next
            exact (coherent_iff next.1 next.2).mpr (outcome.linked_of_linked whole)
          | error exit =>
            rw [grown] at next
            obtain ⟨text, rfl, p, cause, rfl, other⟩ := next
            refine ⟨by simp, fun p' text' same => other ?_⟩
            cases same
            rfl

def chainSample : Addr → LCFGPackage
  | 0 => { name := some "foo" }
  | 1 => { name := some "zip" }
  | 2 => { name := some "foo", pfx := .remove }
  | _ => {}

def chainRun : State :=
  let start : State := .ok ({ new with mergeRules := { usePrefix := true } }, fun _ => [])
  [.merge (some 0) none, .merge (some 1) none, .merge (some 2) none].foldl
    (step djbhash Version.debvercmp chainSample 0) start

end Lcfg.PkgSet
