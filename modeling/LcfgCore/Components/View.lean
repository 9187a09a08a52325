import LcfgCore.Components.Effects
import LcfgCore.Resources.Resource

/-!
# Reading components

What the functions see which only read a component: its size, the first resource of
each name, in the order of the buckets, and the resource of a name.

## Main results

`findResource_eq`, `mem_firsts`: on a well-formed table both show the map from names to
first resources. `findResource_value`: the search on the heap is this one.
-/
namespace Lcfg

open ResList (Plain)

/-- The fields of the resources at their addresses which a merge reads. -/
def base (res : Addr → TypedResource) (a : Addr) : LCFGResource := (res a).toLCFGResource

namespace PlainComponent

open Component (home)

variable (hash : String → Nat) (res : Addr → TypedResource)

/-- `lcfgcomponent_size`: the resources are counted if there may be some of one name. -/
def size (comp : PlainComponent) : Nat :=
  if comp.entries = 0 then 0
  else if comp.primaryKey = {} then comp.entries
  else ((LinearProbe.stored comp.resources).map fun list => list.items.length).sum

def isEmpty : Option PlainComponent → Bool
  | none => true
  | some comp => size comp == 0

/-- The first resource of a list. -/
def first (list : Plain) : Option TypedResource := list.items.head?.map res

/-- What a loop over the buckets finds: the first resource of each list. -/
def firsts (comp : PlainComponent) : List TypedResource :=
  (LinearProbe.stored comp.resources).filterMap (first res)

/-- `lcfgcomponent_find_resource` -/
def findResource (comp : Option PlainComponent) (wantName : String) : Option TypedResource :=
  if isEmpty comp then none
  else
    comp.bind fun comp =>
      (LinearProbe.lookup comp.resources comp.buckets (home hash comp.buckets wantName)
        (accepts (base res) wantName)).bind (first res)

def hasResource (comp : Option PlainComponent) (wantName : String) : Bool :=
  (findResource hash res comp wantName).isSome

/-- The map from the names to their first resources. -/
def active (comp : Option PlainComponent) (name : String) : Option TypedResource :=
  comp.bind fun comp => (lists (base res) comp name).bind (first res)

variable {hash res} {comp : PlainComponent}

theorem ListFor.first_eq {name : String} {list : Plain} (holds : ListFor (base res) name list) :
    ∃ r, first res list = some r ∧ r.name = some name := by
  cases items : list.items with
  | nil => exact absurd items holds.items_ne
  | cons a rest =>
    refine ⟨res a, by simp [first, items], ?_⟩
    exact holds.named a (by simp [items])

/-- Each list has a first resource, whose name is the key of the list. -/
private theorem filterMap_first {lists : List Plain}
    (named : ∀ list ∈ lists, ∃ name, ListFor (base res) name list) :
    (lists.filterMap (first res)).length = lists.length ∧
      (lists.filterMap (first res)).map (fun r => r.name) = lists.map (key (base res)) := by
  induction lists with
  | nil => exact ⟨rfl, rfl⟩
  | cons list rest ih =>
    obtain ⟨name, holds⟩ := named list List.mem_cons_self
    obtain ⟨r, here, rName⟩ := holds.first_eq
    obtain ⟨length_eq, names_eq⟩ := ih fun other member =>
      named other (List.mem_cons_of_mem _ member)
    rw [List.filterMap_cons_some here]
    refine ⟨by rw [List.length_cons, List.length_cons, length_eq], ?_⟩
    rw [List.map_cons, List.map_cons, names_eq, rName, holds.key_eq]

theorem firsts_length (tabled : Tabled hash (base res) comp) :
    (firsts res comp).length = comp.entries := by
  rw [firsts, (filterMap_first tabled.named).1, LinearProbe.length_stored, tabled.entries_eq]

theorem firsts_nodup (tabled : Tabled hash (base res) comp) :
    ((firsts res comp).map fun r => r.name).Nodup := by
  rw [firsts, (filterMap_first tabled.named).2]
  exact List.pairwise_map.mpr tabled.chained.pairwise

theorem size_eq_zero_iff (tabled : Tabled hash (base res) comp) :
    size comp = 0 ↔ firsts res comp = [] := by
  rw [← List.length_eq_zero_iff, firsts_length tabled, size]
  split
  case isTrue none_ => simp [none_]
  case isFalse some_ =>
    split
    · rfl
    · refine iff_of_false (fun zero => some_ ?_) some_
      -- a list which is counted is not empty
      rw [List.sum_eq_zero_iff_forall_eq_nat] at zero
      rw [tabled.entries_eq, ← LinearProbe.length_stored, List.length_eq_zero_iff]
      refine List.eq_nil_iff_forall_not_mem.mpr fun list member => ?_
      obtain ⟨name, holds⟩ := tabled.named list member
      exact holds.items_ne (List.length_eq_zero_iff.mp (zero _ (List.mem_map_of_mem member)))

theorem active_name (tabled : Tabled hash (base res) comp) {name : String} {r : TypedResource}
    (found : active res (some comp) name = some r) : r.name = some name := by
  rw [active, Option.bind_some] at found
  obtain ⟨list, there, here⟩ := Option.bind_eq_some_iff.mp found
  obtain ⟨r', here', named⟩ := (tabled.listFor there).first_eq
  rw [here', Option.some_inj] at here
  exact here ▸ named

theorem mem_firsts (tabled : Tabled hash (base res) comp) (r : TypedResource) :
    r ∈ firsts res comp ↔ ∃ name, active res (some comp) name = some r := by
  simp only [firsts, List.mem_filterMap, active, Option.bind_some, Option.bind_eq_some_iff]
  constructor
  · rintro ⟨list, member, here⟩
    obtain ⟨name, holds⟩ := tabled.named list member
    have found := (tabled.chained.entry_eq_some_iff name list).mpr ⟨member, holds.key_eq⟩
    exact ⟨name, list, found, here⟩
  · rintro ⟨name, list, found, here⟩
    exact ⟨list, (LinearProbe.mem_stored_of_entry found).1, here⟩

theorem findResource_eq {comp : Option PlainComponent}
    (tabled : ∀ c ∈ comp, Tabled hash (base res) c) (name : String) :
    findResource hash res comp name = active res comp name := by
  cases comp with
  | none => rfl
  | some c =>
    have good := tabled c rfl
    rw [findResource]
    split
    case isTrue none_ =>
      have nothing := (size_eq_zero_iff good).mp (by simpa [isEmpty] using none_)
      cases found : active res (some c) name with
      | none => rfl
      | some r =>
        have member := (mem_firsts good r).mpr ⟨name, found⟩
        rw [nothing] at member
        cases member
    case isFalse =>
      rw [active, Option.bind_some, Option.bind_some, good.lookup_eq]

end PlainComponent

/-! ### On the heap -/

namespace Component

variable {hash : String → Nat} {rest : Multiset Addr}

/-- The sizes of the lists on the heap are added up. -/
private theorem forBuckets_size {heap : ListHeap} (slots : List (Option Addr)) (i total : Nat)
    (wf : ∀ a ∈ LinearProbe.stored slots, (heap.cell a).chain.Wf) :
    forBuckets (fun size _ list => .ok (size + (list.map fun a =>
        ResList.size (heap.cell a)).getD 0)) (fun _ => true) i slots.length slots total =
      .ok (total + ((LinearProbe.stored slots).map fun a => (plainAt heap a).items.length).sum) := by
  induction slots generalizing i total with
  | nil => rfl
  | cons entry slots ih =>
    cases entry with
    | none => simpa [forBuckets, bind, Except.bind] using ih (i + 1) total (by simpa using wf)
    | some a =>
      rw [LinearProbe.stored_some, List.forall_mem_cons] at wf
      have next := ih (i + 1) (total + ResList.size (heap.cell a)) wf.2
      have here : ResList.size (heap.cell a) = (plainAt heap a).items.length := by
        simp [plainAt, ResList.plain, ResList.items, LinkedList.items, ResList.size, wf.1.size_eq]
      rw [LinearProbe.stored_some, List.map_cons, List.sum_cons, ← Nat.add_assoc, ← here]
      simpa [forBuckets, bind, Except.bind] using next

theorem size_value {res : Addr → LCFGResource} {s : CompState} (owned : Owned rest s)
    (tabled : PlainComponent.Tabled hash res (value s)) :
    size s = .ok (PlainComponent.size (value s)) := by
  have wf : ∀ a ∈ LinearProbe.stored s.comp.resources, (s.heap.cell a).chain.Wf :=
    fun a member => owned.wf a (Multiset.mem_add.mpr (.inl (mem_held.mpr member)))
  rw [size, PlainComponent.size, value_entries, value_primaryKey]
  split
  · rfl
  · split
    · rfl
    · have counted := forBuckets_size s.comp.resources 0 0 wf
      have buckets := tabled.buckets_eq
      rw [value_buckets, value_length] at buckets
      rw [stored_value, List.map_map, buckets, counted, Nat.zero_add]
      rfl

theorem findResource_value {res : Addr → TypedResource} {s : CompState} (owned : Owned rest s)
    (tabled : PlainComponent.Tabled hash (base res) (value s)) (name : String) :
    (findResource hash (base res) s name).map (Option.map res) =
      .ok (PlainComponent.findResource hash res (some (value s)) name) := by
  have good : ∀ c ∈ some (value s), PlainComponent.Tabled hash (base res) c :=
    fun c same => Option.some_inj.mp same ▸ tabled
  rw [findResource_spec owned tabled, PlainComponent.findResource_eq good]
  simp only [Except.map, PlainComponent.active, Option.bind_some, Option.map_bind]
  rfl

end Component

end Lcfg
