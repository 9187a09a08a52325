import LcfgCore.Components.View
import Mathlib.Logic.Function.Basic

/-!
# Loading components

A component which is built from a file, a database or the environment: its resources are
new ones, each of which is merged into it once, and may be changed in place later.

## Main results

`Holds.mergeResource`, `Holds.change`: on a component with at most one resource of each
name these are updates of a map from the names to the resources.
-/
namespace Lcfg

open ResList (Plain)

namespace PlainComponent

variable {hash : String → Nat} {res : Addr → LCFGResource} {comp : PlainComponent}

/-- Only the names of the resources of a table matter for its shape. -/
theorem Tabled.congr (tabled : Tabled hash res comp) (res' : Addr → LCFGResource)
    (same : ∀ list ∈ LinearProbe.stored comp.resources, ∀ a ∈ list.items,
      (res' a).name = (res a).name) :
    Tabled hash res' comp ∧ lists res' comp = lists res comp := by
  have keys : ∀ list ∈ LinearProbe.stored comp.resources, key res' list = key res list := by
    intro list member
    rw [key, key]
    cases items : list.items with
    | nil => rfl
    | cons a rest => exact same list member a (by rw [items]; exact List.mem_cons_self)
  have chained := tabled.chained.congr keys
  refine ⟨⟨tabled.buckets_eq, tabled.pos, tabled.entries_eq, fun list member => ?_, chained⟩, ?_⟩
  · obtain ⟨name, holds⟩ := tabled.named list member
    refine ⟨name, holds.name_ne, holds.items_ne, fun a inside => ?_⟩
    rw [same list member a inside]
    exact holds.named a inside
  · funext name
    refine Option.ext fun list => ?_
    rw [lists, lists, chained.entry_eq_some_iff, tabled.chained.entry_eq_some_iff]
    exact and_congr_right fun member => by rw [keys list member]

end PlainComponent

/-- `lcfgresource_new` and `lcfgresource_set_name` with a valid name. -/
def TypedResource.newNamed (name : String) : TypedResource :=
  { TypedResource.new with name := some name }

/-- A component under construction with its resources; the addresses from `next` on are free. -/
structure Loading where
  res : Addr → TypedResource
  comp : PlainComponent
  next : Addr

namespace Loading

open PlainComponent (active lists Sound Tabled ListFor)

/-- `lcfgcomponent_new` and `lcfgcomponent_set_name` with a valid name. -/
def new (compName : String) : Loading where
  res := fun _ => TypedResource.new
  comp := { Component.new with
    name := some compName, resources := List.replicate Component.defaultSize none }
  next := 0

variable (hash : String → Nat)

/-- `lcfgcomponent_merge_resource` for a resource which has just been made. -/
def mergeResource (l : Loading) (new : TypedResource) : Loading × LCFGChange :=
  let res := Function.update l.res l.next new
  let (comp, change) :=
    if Resource.isValid new.toLCFGResource then
      PlainComponent.merge hash (base res) l.comp (new.name.getD "") fun list =>
        list.mergeResource (base res) l.next
    else (l.comp, .error)
  ({ res, comp, next := l.next + 1 }, change)

/-- `lcfgcomponent_find_resource`, which gives the resource itself. -/
def findResource (l : Loading) (wantName : String) : Option Addr :=
  if PlainComponent.isEmpty (some l.comp) then none
  else
    (LinearProbe.lookup l.comp.resources l.comp.buckets
      (Component.home hash l.comp.buckets wantName)
      (PlainComponent.accepts (base l.res) wantName)).bind fun list => list.items.head?

/-- `lcfgcomponent_find_or_create_resource`; no resource is given if that fails. -/
def findOrCreateResource (l : Loading) (name : String) : Loading × LCFGChange × Option Addr :=
  match findResource hash l name with
  | some a => (l, .none, some a)
  | none =>
    if Resource.validName (some name) then
      let (l', change) := mergeResource hash l (TypedResource.newNamed name)
      (l', change, if change.isOk then some l.next else none)
    else (l, .error, none)

/-- A resource is changed where it is. -/
def change (l : Loading) (a : Addr) (r : TypedResource) : Loading :=
  { l with res := Function.update l.res a r }

/-! ## What is loaded -/

/-- One resource at most for each name, as in a map. -/
structure Holds (compName : String) (l : Loading) (contents : String → Option TypedResource) :
    Prop where
  named : l.comp.name = some compName
  sound : Sound hash (base l.res) l.comp
  single : ∀ name list, lists (base l.res) l.comp name = some list →
    ∃ a, list.items = [a] ∧ a < l.next
  shows : ∀ name, active l.res (some l.comp) name = contents name

variable {hash} {compName : String} {l : Loading} {contents : String → Option TypedResource}

theorem new_holds (compName : String) : Holds hash compName (new compName) fun _ => none := by
  have resources : (new compName).comp.resources = List.replicate Component.defaultSize none := rfl
  have empty : lists (base (new compName).res) (new compName).comp = fun _ => none := by
    rw [lists, resources]
    exact LinearProbe.entry_replicate_none _ _
  refine ⟨rfl, ⟨?_, rfl⟩, fun name list found => ?_, fun name => ?_⟩
  · refine ⟨?_, ?_, ?_, ?_, ?_⟩
    · rw [resources, List.length_replicate]
      rfl
    · rw [resources, List.length_replicate]
      decide
    · rw [resources]
      exact (LinearProbe.occupied_replicate_none _).symm
    · rw [resources, LinearProbe.stored_replicate_none]
      simp
    · rw [resources]
      exact LinearProbe.chained_replicate_none _ _ _
  · rw [empty] at found
    cases found
  · rw [active, Option.bind_some, empty]
    rfl

namespace Holds

/-- The addresses in the table are in use. -/
theorem used (holds : Holds hash compName l contents) {list : Plain}
    (member : list ∈ LinearProbe.stored l.comp.resources) {a : Addr} (inside : a ∈ list.items) :
    a < l.next := by
  obtain ⟨name, listFor⟩ := holds.sound.named list member
  have found := (holds.sound.chained.entry_eq_some_iff name list).mpr ⟨member, listFor.key_eq⟩
  obtain ⟨a', items, below⟩ := holds.single name list found
  rw [items, List.mem_singleton] at inside
  exact inside ▸ below

theorem name_eq (holds : Holds hash compName l contents) {name : String} {r : TypedResource}
    (here : contents name = some r) : r.name = some name :=
  PlainComponent.active_name holds.sound.toTabled ((holds.shows name).trans here)

end Holds

/-- The address of a resource is the first one in the list for its name. -/
theorem findResource_lists (sound : Sound hash (base l.res) l.comp) (name : String) :
    findResource hash l name =
      (lists (base l.res) l.comp name).bind fun list => list.items.head? := by
  rw [findResource, sound.lookup_eq]
  split
  case isFalse => rfl
  case isTrue none_ =>
    -- nothing is stored in an empty component
    have nothing := (PlainComponent.size_eq_zero_iff sound.toTabled).mp
      (by simpa [PlainComponent.isEmpty] using none_)
    cases found : lists (base l.res) l.comp name with
    | none => rfl
    | some list =>
      obtain ⟨r, here, -⟩ := (sound.toTabled.listFor found).first_eq
      have member := (PlainComponent.mem_firsts sound.toTabled r).mpr
        ⟨name, by rw [active, Option.bind_some, found, Option.bind_some, here]⟩
      rw [nothing] at member
      cases member

namespace Holds

/-- What is found under a name is the resource which the map shows there. -/
theorem findResource (holds : Holds hash compName l contents) (name : String) :
    (findResource hash l name).map l.res = contents name := by
  rw [findResource_lists holds.sound, ← holds.shows, active, Option.bind_some, Option.map_bind]
  rfl

/-- The resources in the table are not affected by a new one. -/
theorem update_eq (holds : Holds hash compName l contents) (r : TypedResource) {list : Plain}
    (member : list ∈ LinearProbe.stored l.comp.resources) {a : Addr} (inside : a ∈ list.items) :
    Function.update l.res l.next r a = l.res a :=
  Function.update_of_ne (Nat.ne_of_lt (holds.used member inside)) _ _

/-- A new resource is merged into the map from the names to the lists. -/
theorem mergeResource_map (holds : Holds hash compName l contents) {name : String}
    {r : TypedResource} (named : r.name = some name) (some_ : name ≠ "") :
    Sound hash (base (Loading.mergeResource hash l r).1.res)
        (Loading.mergeResource hash l r).1.comp ∧
      (PlainComponent.toMap (base (Loading.mergeResource hash l r).1.res)
          (Loading.mergeResource hash l r).1.comp, (Loading.mergeResource hash l r).2) =
        (PlainComponent.toMap (base l.res) l.comp).merge name fun list =>
          list.mergeResource (base (Function.update l.res l.next r)) l.next := by
  have valid : Resource.isValid r.toLCFGResource = true := by
    simpa [Resource.isValid, named, isEmpty] using some_
  have here : Function.update l.res l.next r l.next = r := Function.update_self ..
  obtain ⟨tabled, same⟩ := holds.sound.toTabled.congr (base (Function.update l.res l.next r))
    fun list member a inside => by rw [base, base, holds.update_eq r member inside]
  have sound : Sound hash (base (Function.update l.res l.next r)) l.comp := ⟨tabled, holds.sound.load⟩
  have validHere : Resource.isValid (base (Function.update l.res l.next r) l.next) = true := by
    rw [base, here]
    exact valid
  have merges := PlainComponent.mergesFor_mergeResource validHere
  rw [base, here, named, Option.getD_some] at merges
  obtain ⟨sound', maps⟩ := sound.merge_spec merges
  have before : PlainComponent.toMap (base (Function.update l.res l.next r)) l.comp =
      PlainComponent.toMap (base l.res) l.comp := by
    rw [PlainComponent.toMap, PlainComponent.toMap, same]
  rw [before] at maps
  rw [Loading.mergeResource, if_pos valid, named, Option.getD_some]
  exact ⟨sound', maps⟩

/-- There is no list for a name which the map does not show. -/
theorem lists_none (holds : Holds hash compName l contents) {name : String}
    (missing : contents name = none) : lists (base l.res) l.comp name = none := by
  have shown := (holds.shows name).trans missing
  rw [active, Option.bind_some] at shown
  cases found : lists (base l.res) l.comp name with
  | none => rfl
  | some list =>
    obtain ⟨a, items, -⟩ := holds.single name list found
    rw [found] at shown
    simp [PlainComponent.first, items] at shown

/-- A resource with a new name gets a list of its own. -/
theorem mergeResource_lists (holds : Holds hash compName l contents) {name : String}
    {r : TypedResource} (named : r.name = some name) (some_ : name ≠ "")
    (fresh : contents name = none) :
    PlainComponent.toMap (base (Loading.mergeResource hash l r).1.res)
        (Loading.mergeResource hash l r).1.comp =
      { PlainComponent.toMap (base l.res) l.comp with
        lists := Function.update (lists (base l.res) l.comp) name
          (some ⟨[l.next], l.comp.primaryKey, l.comp.mergeRules⟩) } ∧
      (Loading.mergeResource hash l r).2 = .added := by
  obtain ⟨-, maps⟩ := holds.mergeResource_map named some_
  have validHere :
      Resource.isValid (base (Function.update l.res l.next r) l.next) = true := by
    rw [base, Function.update_self]
    simpa [Resource.isValid, named, isEmpty] using some_
  have appended : (⟨[], l.comp.primaryKey, l.comp.mergeRules⟩ : Plain).mergeResource
      (base (Function.update l.res l.next r)) l.next =
        (⟨[l.next], l.comp.primaryKey, l.comp.mergeRules⟩, .added) := by
    rw [Plain.mergeResource, if_pos validHere]
    rfl
  rw [PlainComponent.MapComponent.merge, PlainComponent.toMap_lists, holds.lists_none fresh,
    Option.getD_none, PlainComponent.toMap_primaryKey, PlainComponent.toMap_mergeRules,
    appended] at maps
  simp only [reduceCtorEq, and_false, if_false, Prod.mk.injEq] at maps
  exact maps

/-- A resource with a new name is added. -/
theorem mergeResource (holds : Holds hash compName l contents) {name : String} {r : TypedResource}
    (named : r.name = some name) (some_ : name ≠ "") (fresh : contents name = none) :
    Holds hash compName (mergeResource hash l r).1 (Function.update contents name (some r)) ∧
      (Loading.mergeResource hash l r).2 = .added ∧
      Loading.findResource hash (Loading.mergeResource hash l r).1 name = some l.next := by
  have valid : Resource.isValid r.toLCFGResource = true := by
    simpa [Resource.isValid, named, isEmpty] using some_
  obtain ⟨sound', -⟩ := holds.mergeResource_map named some_
  obtain ⟨maps, added⟩ := holds.mergeResource_lists named some_ fresh
  have updated := congrArg PlainComponent.MapComponent.lists maps
  have name_eq := congrArg PlainComponent.MapComponent.name maps
  rw [PlainComponent.toMap_lists] at updated
  rw [Loading.mergeResource, if_pos valid, named, Option.getD_some] at sound' updated added name_eq ⊢
  dsimp only at sound' updated added name_eq ⊢
  refine ⟨⟨name_eq.trans holds.named, sound', fun name' list found => ?_, fun name' => ?_⟩, added, ?_⟩
  -- the new list holds the new resource only; the other lists have not changed
  · dsimp only at found
    rw [updated] at found
    by_cases equal : name' = name
    · subst equal
      rw [Function.update_self, Option.some_inj] at found
      exact ⟨l.next, by rw [← found], Nat.lt_succ_self _⟩
    · rw [Function.update_of_ne equal] at found
      obtain ⟨a, items, below⟩ := holds.single name' list found
      exact ⟨a, items, Nat.lt_succ_of_lt below⟩
  · rw [active, Option.bind_some, updated]
    by_cases equal : name' = name
    · subst equal
      rw [Function.update_self, Function.update_self, Option.bind_some, PlainComponent.first]
      simp
    · rw [Function.update_of_ne equal, Function.update_of_ne equal, ← holds.shows, active,
        Option.bind_some]
      -- the resources of other names keep what they are
      cases found : lists (base l.res) l.comp name' with
      | none => rfl
      | some list =>
        obtain ⟨a, items, -⟩ := holds.single name' list found
        have member := (LinearProbe.mem_stored_of_entry found).1
        have kept := holds.update_eq r member (by simp [items] : a ∈ list.items)
        simp [PlainComponent.first, items, kept]
  · rw [findResource_lists sound']
    dsimp only
    rw [updated, Function.update_self]
    rfl

/-- A resource which has been found is changed, its name apart. -/
theorem change (holds : Holds hash compName l contents) {name : String} {a : Addr} {r : TypedResource}
    (found : Loading.findResource hash l name = some a) (named : r.name = some name) :
    Holds hash compName (change l a r) (Function.update contents name (some r)) ∧
      Loading.findResource hash (Loading.change l a r) = Loading.findResource hash l := by
  have before := holds.findResource name
  rw [found, Option.map_some] at before
  have nameA : (l.res a).name = some name := holds.name_eq before.symm
  have names (b : Addr) : (Function.update l.res a r b).name = (l.res b).name := by
    by_cases equal : b = a
    · rw [equal, Function.update_self, named, nameA]
    · rw [Function.update_of_ne equal]
  -- the names stay, so that every list stays at its place
  obtain ⟨tabled, same⟩ := holds.sound.toTabled.congr (base (Function.update l.res a r))
    fun list _ b _ => names b
  have sound : Sound hash (base (Loading.change l a r).res) (Loading.change l a r).comp :=
    ⟨tabled, holds.sound.load⟩
  have places : Loading.findResource hash (Loading.change l a r) =
      Loading.findResource hash l := by
    funext name'
    rw [findResource_lists sound, findResource_lists holds.sound, Loading.change]
    dsimp only
    rw [same]
  refine ⟨⟨holds.named, sound, fun name' list there => ?_, fun name' => ?_⟩, places⟩
  · rw [Loading.change] at there
    rw [same] at there
    exact holds.single name' list there
  · rw [Loading.change, active, Option.bind_some]
    dsimp only
    rw [same]
    have old := holds.shows name'
    rw [active, Option.bind_some] at old
    -- a list shows its only resource, which is the changed one only under this name
    cases there : lists (base l.res) l.comp name' with
    | none =>
      rw [there] at old
      have other : name' ≠ name := by
        rintro rfl
        rw [← old] at before
        cases before
      rw [Function.update_of_ne other, ← old]
      rfl
    | some list =>
      obtain ⟨b, items, -⟩ := holds.single name' list there
      rw [there] at old
      have shown : contents name' = some (l.res b) := by
        rw [← old]
        simp [PlainComponent.first, items]
      simp only [Option.bind_some, PlainComponent.first, items, List.head?_cons, Option.map_some]
      by_cases equal : name' = name
      · subst equal
        have alone : b = a := by
          rw [findResource_lists holds.sound, there, Option.bind_some, items,
            List.head?_cons] at found
          exact Option.some_inj.mp found
        rw [alone, Function.update_self, Function.update_self]
      · have apart : b ≠ a := by
          rintro rfl
          exact equal (Option.some_inj.mp ((holds.name_eq shown).symm.trans nameA))
        rw [Function.update_of_ne equal, Function.update_of_ne apart, shown]

/-- The resource of a name is found, or a new one is made for it. -/
theorem findOrCreateResource (holds : Holds hash compName l contents) {name : String}
    (valid : Resource.validName (some name) = true) :
    let r := (contents name).getD (TypedResource.newNamed name)
    ∃ l' change a, Loading.findOrCreateResource hash l name = (l', change, some a) ∧
      change.isOk = true ∧ Loading.findResource hash l' name = some a ∧ l'.res a = r ∧
      Holds hash compName l' (Function.update contents name (some r)) := by
  intro r
  have shown := holds.findResource name
  rw [Loading.findOrCreateResource]
  cases found : Loading.findResource hash l name with
  | some a =>
    rw [found, Option.map_some] at shown
    have same : r = l.res a := by
      simp only [r, ← shown, Option.getD_some]
    refine ⟨l, .none, a, rfl, rfl, found, same.symm, ?_⟩
    rw [same, shown, Function.update_eq_self]
    exact holds
  -- a resource which is not found is made, and merged into an empty list
  | none =>
    rw [found, Option.map_none] at shown
    have same : r = TypedResource.newNamed name := by
      simp only [r, ← shown, Option.getD_none]
    have notEmpty : name ≠ "" := by
      rintro rfl
      cases valid
    obtain ⟨added, change, place⟩ := holds.mergeResource (r := r) (by rw [same]; rfl) notEmpty shown.symm
    have made : (Loading.mergeResource hash l r).1.res l.next = r := by
      rw [Loading.mergeResource]
      split
      exact Function.update_self ..
    rw [if_pos valid]
    rw [same] at change place
    rw [same] at made added ⊢
    have whole : (Loading.mergeResource hash l (TypedResource.newNamed name)) =
        ((Loading.mergeResource hash l (TypedResource.newNamed name)).1, .added) := by
      rw [← change]
    rw [whole]
    exact ⟨_, .added, l.next, rfl, rfl, place, made, added⟩

end Holds

/-! ## Components without merge rules -/

/-- The lists are as those of a new component: two resources of one name are in conflict. -/
structure Strict (l : Loading) : Prop where
  primaryKey : l.comp.primaryKey = {}
  mergeRules : l.comp.mergeRules = {}
  lists : ∀ name list, lists (base l.res) l.comp name = some list →
    list.primaryKey = {} ∧ list.mergeRules = {}

theorem new_strict (compName : String) : Strict (new compName) := by
  refine ⟨rfl, rfl, fun name list found => ?_⟩
  have holds := @new_holds djbhash compName
  rw [holds.lists_none rfl] at found
  cases found

theorem Strict.mergeResource (strict : Strict l) (holds : Holds hash compName l contents)
    {name : String} {r : TypedResource} (named : r.name = some name) (some_ : name ≠ "")
    (fresh : contents name = none) : Strict (Loading.mergeResource hash l r).1 := by
  obtain ⟨maps, -⟩ := holds.mergeResource_lists named some_ fresh
  have primaryKey := congrArg PlainComponent.MapComponent.primaryKey maps
  have mergeRules := congrArg PlainComponent.MapComponent.mergeRules maps
  have updated := congrArg PlainComponent.MapComponent.lists maps
  refine ⟨primaryKey.trans strict.primaryKey, mergeRules.trans strict.mergeRules, ?_⟩
  intro name' list found
  rw [PlainComponent.toMap_lists] at updated
  rw [updated] at found
  dsimp only at found
  by_cases equal : name' = name
  · rw [equal, Function.update_self, Option.some_inj] at found
    rw [← found]
    exact ⟨strict.primaryKey, strict.mergeRules⟩
  · rw [Function.update_of_ne equal] at found
    exact strict.lists name' list found

/-- A second resource of a name is refused. -/
theorem Strict.conflict (strict : Strict l) (holds : Holds hash compName l contents)
    {name : String} {r old : TypedResource} (named : r.name = some name) (some_ : name ≠ "")
    (here : contents name = some old) : (Loading.mergeResource hash l r).2 = .error := by
  obtain ⟨-, maps⟩ := holds.mergeResource_map named some_
  have shown := (holds.shows name).trans here
  rw [active, Option.bind_some] at shown
  obtain ⟨list, found, first⟩ := Option.bind_eq_some_iff.mp shown
  obtain ⟨a, items, below⟩ := holds.single name list found
  obtain ⟨primaryKey, mergeRules⟩ := strict.lists name list found
  -- the old resource has the same key, and no rule says which one to keep
  have refused : (list.mergeResource (base (Function.update l.res l.next r)) l.next).2 = .error := by
    have member := (LinearProbe.mem_stored_of_entry found).1
    have kept := holds.update_eq r member (by simp [items] : a ∈ list.items)
    have oldName : (l.res a).name = some name := by
      rw [PlainComponent.first, items, List.head?_cons, Option.map_some, Option.some_inj] at first
      rw [first]
      exact holds.name_eq here
    have same : ResList.sameKey {} (base (Function.update l.res l.next r) l.next)
        (base (Function.update l.res l.next r) a) = true := by
      simp [ResList.sameKey, base, kept, oldName, named, Resource.sameName, Resource.compareNames]
    have key : list.findKey (base (Function.update l.res l.next r)) l.next = some a := by
      rw [Plain.findKey, items, primaryKey, List.find?_cons, same]
    have other : some a ≠ some l.next := fun equal =>
      absurd (Option.some_inj.mp equal) (Nat.ne_of_lt below)
    rw [Plain.mergeResource, key, mergeRules, ResList.mergeAction, if_neg other]
    split
    · rfl
    · rfl
  have result := congrArg Prod.snd maps
  rw [PlainComponent.MapComponent.merge, PlainComponent.toMap_lists, found,
    Option.getD_some] at result
  rw [result, if_neg (by simp)]
  exact refused

end Loading

end Lcfg
