import LcfgCore.Components.Effects
import Mathlib.Algebra.Order.BigOperators.Group.Finset
import Mathlib.Algebra.Order.Group.Multiset

/-!
# Families of components

Any number of components on one heap, into which resources and each other are
merged, and which are emptied, in any order. A second, abstract machine does the
same merges of lists on maps from names to lists.

## Main result

`run_refines`: no sequence of operations faults, and after it each table holds
what the map for it holds.
-/
namespace Lcfg
namespace Component

open RefCount (Counts Agree)
open ResList (Plain)
open PlainComponent (Tabled Sound ListFor MapComponent lists toMap)

/-- What is set on a component before any resources are merged. -/
structure Header where
  name : Option String := none
  primaryKey : LCFGComponentPK := {}
  mergeRules : LCFGMergeRule := {}

structure Family (ι : Type) where
  heap : ListHeap
  comps : ι → LCFGComponent

inductive Operation (ι : Type) where
  | mergeResource (comp : ι) (resource : Option Addr)
  | mergeComponent (comp1 comp2 : ι)
  | removeAllResources (comp : ι)

/-! ### The operations -/

namespace Family

variable {ι : Type} [DecidableEq ι] (hash : String → Nat) (res : Addr → LCFGResource)

def new (headers : ι → Header) : Family ι where
  heap := ⟨fun _ => ResList.new, fun _ => 0, 0⟩
  comps i := { Component.new with
    name := (headers i).name
    primaryKey := (headers i).primaryKey
    mergeRules := (headers i).mergeRules }

def state (w : Family ι) (i : ι) : CompState := ⟨w.heap, w.comps i⟩

def set (w : Family ι) (i : ι) (s : CompState) : Family ι :=
  ⟨s.heap, Function.update w.comps i s.comp⟩

theorem set_comps_self (w : Family ι) (i : ι) (s : CompState) : (w.set i s).comps i = s.comp := by
  simp [set]

theorem set_comps_of_ne (w : Family ι) {i j : ι} (other : j ≠ i) (s : CompState) :
    (w.set i s).comps j = w.comps j := by
  simp [set, other]

/-- Each operation with the change it returns; emptying a component returns nothing. -/
def step (w : Family ι) : Operation ι → Except Fault (Family ι × LCFGChange)
  | .mergeResource i resource => do
    let (s, change, _) ← Component.mergeResource hash res (w.state i) resource none
    .ok (w.set i s, change)
  | .mergeComponent i j =>
    -- a component is not merged into itself
    if i = j then .ok (w, .none)
    else do
      let (s, change, _) ← Component.mergeComponent hash res (w.state i) (w.comps j) none
      .ok (w.set i s, change)
  | .removeAllResources i => do
    let s ← Component.removeAllResources (w.state i)
    .ok (w.set i s, .none)

def run (w : Family ι) : List (Operation ι) → Except Fault (Family ι × List LCFGChange)
  | [] => .ok (w, [])
  | op :: ops => do
    let (w, change) ← step hash res w op
    let (w, changes) ← run w ops
    .ok (w, change :: changes)

end Family

/-! ### The same merges on maps -/

section Maps

variable {ι : Type} [DecidableEq ι] (res : Addr → LCFGResource)

/-- One operation on maps. The lists of a component are merged in some order. -/
inductive MapStep : (ι → MapComponent) → Operation ι → (ι → MapComponent) → LCFGChange → Prop where
  | mergeResource (maps : ι → MapComponent) (i : ι) (resource : Option Addr) :
    MapStep maps (.mergeResource i resource)
      (Function.update maps i ((maps i).mergeResource res resource).1)
      ((maps i).mergeResource res resource).2
  | mergeSelf (maps : ι → MapComponent) (i : ι) : MapStep maps (.mergeComponent i i) maps .none
  | mergeComponent (maps : ι → MapComponent) (i j : ι) (different : i ≠ j)
      (order : List (String × Plain)) (all : (maps j).Enumerates order) :
    MapStep maps (.mergeComponent i j)
      (Function.update maps i ((maps i).mergeAll res .none order).1)
      ((maps i).mergeAll res .none order).2
  | removeAllResources (maps : ι → MapComponent) (i : ι) :
    MapStep maps (.removeAllResources i)
      (Function.update maps i { maps i with lists := fun _ => none }) .none

inductive MapRun :
    (ι → MapComponent) → List (Operation ι) → (ι → MapComponent) → List LCFGChange → Prop where
  | nil (maps : ι → MapComponent) : MapRun maps [] maps []
  | cons {first second third : ι → MapComponent} {op : Operation ι} {ops : List (Operation ι)}
      {change : LCFGChange} {changes : List LCFGChange} (step : MapStep res first op second change)
      (rest : MapRun second ops third changes) :
    MapRun first (op :: ops) third (change :: changes)

def emptyMaps (headers : ι → Header) (i : ι) : MapComponent :=
  ⟨(headers i).name, (headers i).primaryKey, (headers i).mergeRules, fun _ => none⟩

end Maps

/-! ### A table for a map -/

/-- The table is well formed, and what is found in it is what the map holds. -/
structure TableFor (hash : String → Nat) (res : Addr → LCFGResource) (s : CompState)
    (m : MapComponent) : Prop where
  findList : ∀ name, (findList hash res s name).map (Option.map (plainAt s.heap)) =
    .ok (m.lists name)
  findResource : ∀ name, findResource hash res s name =
    .ok ((m.lists name).bind fun list => list.items.head?)
  buckets : s.comp.buckets = s.comp.resources.length
  entries : s.comp.entries = s.comp.resources.countP Option.isSome
  free : none ∈ s.comp.resources
  named : ∀ a ∈ s.comp.resources.reduceOption, ∃ name ≠ "", (plainAt s.heap a).items ≠ [] ∧
    ∀ r ∈ (plainAt s.heap a).items, (res r).name = some name
  unique : ∀ (i j : Nat) (a b : Addr), s.comp.resources[i]? = some (some a) →
    s.comp.resources[j]? = some (some b) →
    ResList.getName res (s.heap.cell a) = ResList.getName res (s.heap.cell b) → i = j

variable {hash : String → Nat} {res : Addr → LCFGResource} {rest : Multiset Addr}

theorem tableFor {s : CompState} (owned : Owned rest s) (sound : Sound hash res (value s)) :
    TableFor hash res s (toMap res (value s)) where
  findList name := by
    obtain ⟨found, run, same, -⟩ := findList_spec owned sound.toTabled name
    rw [run, PlainComponent.toMap_lists, ← same]
    rfl
  findResource name := findResource_spec owned sound.toTabled name
  buckets := buckets_eq sound.toTabled
  entries := by
    have entries := sound.entries_eq
    rwa [value_entries, value_resources, LinearProbe.occupied_map] at entries
  free := by
    have room := sound.room
    rw [sound.entries_eq, value_resources, LinearProbe.occupied_map, List.length_map] at room
    obtain ⟨j, empty⟩ := LinearProbe.exists_empty s.comp.resources room
    exact List.mem_of_getElem? empty
  named a member := by
    obtain ⟨name, holds⟩ := listFor_of_held sound.toTabled (mem_held.mpr member)
    exact ⟨name, holds.name_ne, holds.items_ne, holds.named⟩
  unique i j a b atI atJ same := by
    have valueAt (k : Nat) (c : Addr) (there : s.comp.resources[k]? = some (some c)) :
        (value s).resources[k]? = some (some (plainAt s.heap c)) := by
      simp [value_resources, there]
    obtain ⟨name, keyed⟩ := sound.chained.keyed i _ (valueAt i a atI)
    rw [getName_eq, getName_eq] at same
    exact sound.chained.unique i j _ _ name (valueAt i a atI) (valueAt j b atJ) keyed
      (same ▸ keyed)

/-! ### Families of sound tables -/

namespace Family

variable {ι : Type} [Fintype ι] [DecidableEq ι] {w : Family ι} {maps : ι → MapComponent}

/-- The references of all the components but one. -/
def others (w : Family ι) (i : ι) : Multiset Addr :=
  ∑ j ∈ Finset.univ.erase i, held (w.comps j)

theorem held_add_others (w : Family ι) (i : ι) :
    held (w.comps i) + w.others i = ∑ j, held (w.comps j) :=
  Finset.add_sum_erase _ (fun j => held (w.comps j)) (Finset.mem_univ i)

theorem others_set (w : Family ι) (i : ι) (s : CompState) : (w.set i s).others i = w.others i := by
  refine Finset.sum_congr rfl fun j member => ?_
  rw [set_comps_of_ne w (Finset.ne_of_mem_erase member)]

theorem held_le_others {i j : ι} (different : i ≠ j) (w : Family ι) :
    held (w.comps j) ≤ w.others i :=
  Finset.single_le_sum (f := fun k => held (w.comps k)) (fun _ _ => Multiset.zero_le _)
    (Finset.mem_erase.mpr ⟨different.symm, Finset.mem_univ j⟩)

/-- The components stand for the maps, and no list is in two buckets. -/
structure StandsFor (hash : String → Nat) (res : Addr → LCFGResource) (w : Family ι)
    (maps : ι → MapComponent) : Prop where
  counts : Counts w.heap (∑ i, held (w.comps i))
  wf : ∀ a ∈ ∑ i, held (w.comps i), (w.heap.cell a).chain.Wf
  distinct : (∑ i, held (w.comps i)).Nodup
  sound : ∀ i, Sound hash res (value (w.state i))
  same : ∀ i, toMap res (value (w.state i)) = maps i

theorem StandsFor.owned (stands : StandsFor hash res w maps) (i : ι) :
    Owned (w.others i) (w.state i) where
  counts := by
    rw [state, held_add_others]
    exact stands.counts
  wf := by
    rw [state, held_add_others]
    exact stands.wf

theorem StandsFor.disjoint (stands : StandsFor hash res w maps) (i : ι) {a : Addr}
    (here : a ∈ held (w.comps i)) : a ∉ w.others i := by
  have distinct := stands.distinct
  rw [← held_add_others w i, Multiset.nodup_add] at distinct
  exact Multiset.disjoint_left.mp distinct.2.2 here

/-- What is left to show for an operation on one component. -/
theorem StandsFor.set (stands : StandsFor hash res w maps) {i : ι} {s : CompState}
    (step : Step (w.others i) (w.state i) s) (sound : Sound hash res (value s)) :
    StandsFor hash res (w.set i s) (Function.update maps i (toMap res (value s))) := by
  have total : ∑ j, held ((w.set i s).comps j) = held s.comp + w.others i := by
    rw [← held_add_others, others_set, set_comps_self]
  -- the lists of the other components are held apart from this step
  have kept (j : ι) (other : j ≠ i) : value ((w.set i s).state j) = value (w.state j) := by
    have moved : (w.set i s).state j = ⟨s.heap, (w.state j).comp⟩ := by
      rw [state, set_comps_of_ne w other]
      rfl
    rw [moved]
    exact value_congr (step.agree.mono (Multiset.subset_of_le (held_le_others other.symm w)))
  have here : (w.set i s).state i = s := by
    rw [state, set_comps_self]
    rfl
  refine ⟨?_, ?_, ?_, fun j => ?_, fun j => ?_⟩
  · rw [total]
    exact step.owned.counts
  · rw [total]
    exact step.owned.wf
  -- no list is held twice, neither by one component nor by two
  · rw [total, Multiset.nodup_add]
    have distinct := stands.distinct
    rw [← held_add_others w i, Multiset.nodup_add] at distinct
    refine ⟨held_nodup sound.toTabled, distinct.2.1, Multiset.disjoint_left.mpr ?_⟩
    intro a member other
    exact stands.disjoint i (step.own a member other) other
  · by_cases equal : j = i
    · rw [equal, here]
      exact sound
    · rw [kept j equal]
      exact stands.sound j
  · by_cases equal : j = i
    · rw [equal, here, Function.update_self]
    · rw [kept j equal, Function.update_of_ne equal]
      exact stands.same j

/-- Step lemma: each operation on the tables is one on the maps. -/
theorem StandsFor.step (stands : StandsFor hash res w maps) (op : Operation ι) :
    ∃ w' change maps', w.step hash res op = .ok (w', change) ∧
      MapStep res maps op maps' change ∧ StandsFor hash res w' maps' := by
  cases op with
  | mergeResource i resource =>
    obtain ⟨s, change, msg, run, values, step⟩ := mergeResource_spec (stands.owned i)
      (stands.sound i) resource (fun a here other => absurd other (stands.disjoint i here)) none
    have spec := (stands.sound i).mergeResource_spec resource
    rw [← values, stands.same i] at spec
    refine ⟨w.set i s, change, _, ?_, ?_, stands.set step spec.1⟩
    · simp only [Family.step, run, bind, Except.bind]
    · have done : MapStep res maps _ _ _ := .mergeResource maps i resource
      rwa [← spec.2] at done
  | mergeComponent i j =>
    -- a component merged into itself does not change
    by_cases same : i = j
    · subst same
      exact ⟨w, .none, maps, by simp [Family.step], .mergeSelf maps i, stands⟩
    · obtain ⟨s, change, msg, run, values, step⟩ := mergeComponent_spec (stands.owned i)
        (stands.sound i) (held_le_others same w) (stands.sound j).toTabled
        (fun a here other => absurd other (stands.disjoint i here)) none
      have enumerates := (stands.sound j).enumerates
      have spec := (stands.sound i).mergeLists_spec .none _ (stands.sound j).named
      rw [← PlainComponent.mergeComponent] at spec
      have values' : (value s, change) = PlainComponent.mergeComponent hash res (value (w.state i))
        (value (w.state j)) := values
      rw [← values', stands.same i] at spec
      rw [stands.same j] at enumerates
      refine ⟨w.set i s, change, _, ?_, ?_, stands.set step spec.1⟩
      · simp only [Family.step, same, if_false, run, bind, Except.bind]
      · have done : MapStep res maps _ _ _ := .mergeComponent maps i j same _ enumerates
        rwa [← spec.2] at done
  | removeAllResources i =>
    obtain ⟨s, run, values, step⟩ := removeAllResources_spec (stands.owned i)
      (stands.sound i).toTabled
    have pos := (stands.sound i).pos
    rw [← (stands.sound i).buckets_eq] at pos
    have sound : Sound hash res (value s) := by
      rw [values]
      refine ⟨Tabled.emptied_tabled _ pos, ?_⟩
      exact decide_eq_false (by simp only [PlainComponent.emptied]; omega)
    -- and the map which the empty table stands for is empty
    have emptied : toMap res (value s) = { maps i with lists := fun _ => none } := by
      rw [values, ← stands.same i]
      unfold toMap
      congr 1
      funext name
      rw [lists, PlainComponent.emptied, LinearProbe.entry_replicate_none]
    refine ⟨w.set i s, .none, _, ?_, ?_, stands.set step sound⟩
    · simp only [Family.step, run, bind, Except.bind]
    · rw [emptied]
      exact .removeAllResources maps i

/-- Run lemma, by induction over the operations. -/
theorem StandsFor.run (stands : StandsFor hash res w maps) (ops : List (Operation ι)) :
    ∃ w' changes maps', w.run hash res ops = .ok (w', changes) ∧
      MapRun res maps ops maps' changes ∧ StandsFor hash res w' maps' := by
  induction ops generalizing w maps with
  | nil => exact ⟨w, [], maps, rfl, .nil maps, stands⟩
  | cons op ops ih =>
    obtain ⟨w₁, change, maps₁, step, mapStep, stands₁⟩ := stands.step op
    obtain ⟨w', changes, maps', run, mapRun, stands'⟩ := ih stands₁
    refine ⟨w', change :: changes, maps', ?_, .cons mapStep mapRun, stands'⟩
    simp only [Family.run, step, run, bind, Except.bind]

omit [DecidableEq ι] in
theorem new_standsFor (headers : ι → Header) :
    StandsFor hash res (Family.new headers) (emptyMaps headers) := by
  have nothing (i : ι) : held ((Family.new headers).comps i) = 0 := by
    simp [held, Family.new, Component.new, LinearProbe.stored_replicate_none]
  have total : ∑ i, held ((Family.new headers).comps i) = 0 :=
    Finset.sum_eq_zero fun i _ => nothing i
  have values (i : ι) : value ((Family.new headers).state i) =
      PlainComponent.emptied (value ((Family.new headers).state i)) defaultSize := by
    simp [value, ComponentTable.map, state, Family.new, Component.new, PlainComponent.emptied,
      blank]
  refine ⟨?_, ?_, ?_, fun i => ?_, fun i => ?_⟩
  · rw [total]
    exact ⟨fun a => (Multiset.count_zero a).symm, by simp⟩
  · rw [total]
    simp
  · rw [total]
    exact Multiset.nodup_zero
  · rw [values i]
    exact ⟨Tabled.emptied_tabled _ (by decide), by rfl⟩
  · rw [values i]
    have nothing :
        lists res (PlainComponent.emptied (value ((Family.new headers).state i)) defaultSize) =
          fun _ => none := LinearProbe.entry_replicate_none _ _
    rw [toMap, nothing]
    rfl

end Family
end Component
end Lcfg
