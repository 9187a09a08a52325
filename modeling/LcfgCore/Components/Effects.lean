import LcfgCore.Components.Sharing

/-!
# What the operations do to a component

The operations of a component that go through its whole table (`component.c`):
merging a component into it, emptying it and looking names up. Each is compared
with the same operation on a table without a heap, and that with one on the map
from names to lists.

## Main results

`mergeResource_spec`, `mergeComponent_spec`, `removeAllResources_spec`: the
operations on shared lists have the effect which they have on the values.
`Sound.mergeLists_spec`: merging all lists of a component is merging into the map.
-/
namespace Lcfg

open ResList (Plain)

/-! ### Operations on tables -/

namespace PlainComponent

variable (hash : String → Nat) (res : Addr → LCFGResource)

def mergeResource (comp : PlainComponent) (resource : Option Addr) :
    PlainComponent × LCFGChange :=
  match resource.filter fun a => Resource.isValid (res a) with
  | none => (comp, .error)
  | some a => merge hash res comp ((res a).name.getD "") fun list => list.mergeResource res a

/-- The lists are merged in turn, up to the first conflict. The change is that of
the last merge. -/
def mergeLists (comp : PlainComponent) (change : LCFGChange) :
    List Plain → PlainComponent × LCFGChange
  | [] => (comp, change)
  | list :: rest =>
    let r := merge hash res comp ((key res list).getD "") fun l => l.mergeList res list
    if r.2 = .error then r else mergeLists r.1 r.2 rest

def mergeComponent (comp1 comp2 : PlainComponent) : PlainComponent × LCFGChange :=
  mergeLists hash res comp1 .none (LinearProbe.stored comp2.resources)

end PlainComponent

namespace PlainComponent.MapComponent

variable (res : Addr → LCFGResource)

def mergeResource (comp : MapComponent) (resource : Option Addr) : MapComponent × LCFGChange :=
  match resource.filter fun a => Resource.isValid (res a) with
  | none => (comp, .error)
  | some a => comp.merge ((res a).name.getD "") fun list => list.mergeResource res a

/-- Merges named lists in turn, up to the first conflict. -/
def mergeAll (comp : MapComponent) (change : LCFGChange) :
    List (String × Plain) → MapComponent × LCFGChange
  | [] => (comp, change)
  | (name, list) :: rest =>
    let r := comp.merge name fun l => l.mergeList res list
    if r.2 = .error then r else r.1.mergeAll r.2 rest

/-- The lists of a component in some order, each with its name. -/
structure Enumerates (comp : MapComponent) (order : List (String × Plain)) : Prop where
  distinct : (order.map Prod.fst).Nodup
  mem_iff : ∀ name list, (name, list) ∈ order ↔ comp.lists name = some list

end PlainComponent.MapComponent

namespace PlainComponent

variable {hash : String → Nat} {res : Addr → LCFGResource} {comp : PlainComponent}

theorem Sound.mergeResource_spec (sound : Sound hash res comp) (resource : Option Addr) :
    Sound hash res (mergeResource hash res comp resource).1 ∧
      (toMap res (mergeResource hash res comp resource).1,
        (mergeResource hash res comp resource).2) =
        (toMap res comp).mergeResource res resource := by
  unfold mergeResource MapComponent.mergeResource
  cases accepted : resource.filter fun a => Resource.isValid (res a) with
  | none => exact ⟨sound, rfl⟩
  | some a =>
    have valid := (Option.filter_eq_some_iff.mp accepted).2
    exact sound.merge_spec (mergesFor_mergeResource valid)

/-- A list together with its name. -/
def labelled (res : Addr → LCFGResource) (list : Plain) : String × Plain :=
  ((key res list).getD "", list)

theorem Sound.mergeLists_spec (sound : Sound hash res comp) (change : LCFGChange)
    (more : List Plain) (named : ∀ list ∈ more, ∃ name, ListFor res name list) :
    Sound hash res (mergeLists hash res comp change more).1 ∧
      (toMap res (mergeLists hash res comp change more).1,
        (mergeLists hash res comp change more).2) =
        (toMap res comp).mergeAll res change (more.map (labelled res)) := by
  induction more generalizing comp change with
  | nil => exact ⟨sound, rfl⟩
  | cons list more ih =>
    obtain ⟨name, holds⟩ := named list (by simp)
    have rest := fun other member => named other (List.mem_cons_of_mem list member)
    obtain ⟨good, same⟩ := sound.merge_spec (mergesFor_mergeList holds)
    have label : labelled res list = (name, list) := by simp [labelled, holds.key_eq]
    simp only [mergeLists, holds.key_eq, Option.getD_some, List.map_cons, label,
      MapComponent.mergeAll, ← same]
    split
    · exact ⟨good, rfl⟩
    · exact ih good _ rest

/-- The lists of a table, each with its name, are those of its map. -/
theorem Tabled.enumerates (tabled : Tabled hash res comp) :
    (toMap res comp).Enumerates ((LinearProbe.stored comp.resources).map (labelled res)) := by
  constructor
  · rw [List.map_map]
    refine (List.nodup_map_iff_inj_on ?_).mpr ?_
    · exact tabled.chained.pairwise.imp fun differ same => differ (by rw [same])
    · intro list member list' member' same
      obtain ⟨name, holds⟩ := tabled.named list member
      obtain ⟨name', holds'⟩ := tabled.named list' member'
      simp only [Function.comp_apply, labelled, holds.key_eq, holds'.key_eq,
        Option.getD_some] at same
      subst same
      have found := (tabled.chained.entry_eq_some_iff name list).mpr
        ⟨member, holds.key_eq⟩
      have found' := (tabled.chained.entry_eq_some_iff name list').mpr
        ⟨member', holds'.key_eq⟩
      exact Option.some.inj (found.symm.trans found')
  · intro name list
    rw [toMap_lists]
    constructor
    · intro member
      obtain ⟨list', stored, same⟩ := List.mem_map.mp member
      obtain ⟨name', holds⟩ := tabled.named list' stored
      rw [labelled, holds.key_eq, Option.getD_some, Prod.mk.injEq] at same
      obtain ⟨rfl, rfl⟩ := same
      exact (tabled.chained.entry_eq_some_iff _ _).mpr ⟨stored, holds.key_eq⟩
    · intro found
      obtain ⟨stored, named⟩ := LinearProbe.mem_stored_of_entry found
      exact List.mem_map.mpr ⟨list, stored, by rw [labelled, named, Option.getD_some]⟩

end PlainComponent

/-! ### Operations on shared lists -/

namespace Component

open RefCount (Counts Agree)
open PlainComponent (Tabled Sound ListFor MergesFor lists mergesFor_mergeResource
  mergesFor_mergeList)

variable {hash : String → Nat} {res : Addr → LCFGResource} {rest : Multiset Addr}

theorem buckets_eq {s : CompState} (tabled : Tabled hash res (value s)) :
    s.comp.buckets = s.comp.resources.length := by
  rw [← value_length, ← tabled.buckets_eq, value_buckets]

theorem listFor_of_held {s : CompState} (tabled : Tabled hash res (value s)) {a : Addr}
    (member : a ∈ held s.comp) : ∃ name, ListFor res name (plainAt s.heap a) := by
  apply tabled.named
  rw [stored_value]
  exact List.mem_map_of_mem (mem_held.mp member)

theorem mergeResource_spec {s : CompState} (owned : Owned rest s)
    (sound : Sound hash res (value s)) (resource : Option Addr)
    (clean : ∀ a ∈ held s.comp, a ∈ rest → ∀ r ∈ resource,
      PlainComponent.key res (plainAt s.heap a) = (res r).name →
        Clean (fun list => list.mergeResource res r) (plainAt s.heap a))
    (msg : Option Message) :
    ∃ s' change msg', mergeResource hash res s resource msg = .ok (s', change, msg') ∧
      (value s', change) = PlainComponent.mergeResource hash res (value s) resource ∧
      Step rest s s' := by
  unfold mergeResource PlainComponent.mergeResource
  cases accepted : resource.filter fun a => Resource.isValid (res a) with
  | none => exact ⟨s, .error, msg, rfl, rfl, Step.refl owned⟩
  | some r =>
    obtain ⟨given, valid⟩ := Option.filter_eq_some_iff.mp accepted
    have merges := mergesFor_mergeResource valid
    refine mergeBucket_spec owned sound
      (fun list msg wf => ResList.mergeResource_spec list r msg wf) merges ?_ msg
    intro a member other named
    refine clean a member other r given ?_
    cases name : (res r).name with
    | none => simp [Resource.isValid, Lcfg.isEmpty, name] at valid
    | some n => rw [named, name, Option.getD_some]

/-! #### Looking up -/

theorem size_spec {s : CompState} (owned : Owned rest s) (tabled : Tabled hash res (value s)) :
    ∃ n, size s = .ok n ∧ (n = 0 → LinearProbe.stored s.comp.resources = []) := by
  have count : s.comp.entries = (LinearProbe.stored s.comp.resources).length := by
    have entries := tabled.entries_eq
    rwa [← LinearProbe.length_stored, stored_value, List.length_map, value_entries] at entries
  -- the sizes are added up; each list has some resources
  have summed : ∀ (slots : List (Option Addr)) (i total : Nat),
      (∀ a ∈ LinearProbe.stored slots, a ∈ held s.comp) →
      ∃ n, forBuckets (fun size _ list => .ok (size + (list.map fun a =>
          ResList.size (s.heap.cell a)).getD 0)) (fun _ => true) i slots.length slots total =
          .ok n ∧ total ≤ n ∧ (n = total → LinearProbe.stored slots = []) := by
    intro slots
    induction slots with
    | nil => exact fun i total _ => ⟨total, rfl, le_refl _, fun _ => rfl⟩
    | cons entry slots ih =>
      intro i total inside
      cases entry with
      | none =>
        obtain ⟨n, run, grown, none_⟩ := ih (i + 1) total (by simpa using inside)
        exact ⟨n, by simpa [forBuckets, bind, Except.bind] using run, grown, by simpa using none_⟩
      | some a =>
        rw [LinearProbe.stored_some, List.forall_mem_cons] at inside
        obtain ⟨n, run, grown, -⟩ := ih (i + 1) (total + ResList.size (s.heap.cell a)) inside.2
        obtain ⟨name, holds⟩ := listFor_of_held tabled inside.1
        have wf := owned.wf a (Multiset.mem_add.mpr (.inl inside.1))
        have positive : 0 < ResList.size (s.heap.cell a) := by
          have items := List.length_pos_of_ne_nil holds.items_ne
          simpa [plainAt, ResList.plain, ResList.items, LinkedList.items, ResList.size,
            wf.size_eq] using items
        refine ⟨n, by simpa [forBuckets, bind, Except.bind] using run, by omega, ?_⟩
        intro same
        omega
  unfold size
  by_cases none_ : s.comp.entries = 0
  · refine ⟨0, if_pos none_, fun _ => ?_⟩
    rw [none_] at count
    exact List.eq_nil_of_length_eq_zero count.symm
  · rw [if_neg none_]
    by_cases keyed : s.comp.primaryKey = {}
    · exact ⟨_, if_pos keyed, fun same => absurd same none_⟩
    · rw [if_neg keyed, buckets_eq tabled]
      obtain ⟨n, run, -, nothing⟩ := summed s.comp.resources 0 0 fun a member =>
        mem_held.mpr member
      exact ⟨n, run, nothing⟩

theorem isEmpty_spec {s : CompState} (owned : Owned rest s) (tabled : Tabled hash res (value s)) :
    ∃ b, isEmpty s = .ok b ∧ (b = true → LinearProbe.stored s.comp.resources = []) := by
  obtain ⟨n, counted, nothing⟩ := size_spec owned tabled
  exact ⟨n == 0, by rw [isEmpty, counted]; rfl, by simpa using nothing⟩

theorem lists_eq_none {s : CompState} (nothing : LinearProbe.stored s.comp.resources = [])
    (name : String) : lists res (value s) name = none := by
  cases found : lists res (value s) name with
  | none => rfl
  | some list =>
    have member := (LinearProbe.mem_stored_of_entry found).1
    rw [stored_value, nothing] at member
    exact absurd member List.not_mem_nil

/-- The list found for a name is that of the map. -/
theorem findList_spec {s : CompState} (owned : Owned rest s) (tabled : Tabled hash res (value s))
    (name : String) :
    ∃ found, findList hash res s name = .ok found ∧
      found.map (plainAt s.heap) = lists res (value s) name ∧ ∀ a ∈ found, a ∈ held s.comp := by
  obtain ⟨b, empty, nothing⟩ := isEmpty_spec owned tabled
  cases b with
  | true =>
    refine ⟨none, by simp [findList, empty, bind, Except.bind], ?_, by simp⟩
    rw [lists_eq_none (nothing rfl)]
    rfl
  | false =>
    have searched := findBucket_eq tabled name
    cases found : PlainComponent.bucketOf hash res (value s) name with
    | none =>
      rw [found] at searched
      refine ⟨none, by simp [findList, empty, searched, bind, Except.bind], ?_, by simp⟩
      rw [← tabled.lookup_eq, LinearProbe.lookup]
      unfold PlainComponent.bucketOf at found
      rw [found]
      rfl
    | some i =>
      rw [found] at searched
      obtain ⟨inside, content⟩ := tabled.bucketOf_spec found
      rw [value_length] at inside
      refine ⟨s.comp.resources[i]?.join, by simp [findList, empty, searched, bind, Except.bind],
        ?_, fun a here => mem_held_of_bucket here⟩
      rw [← content]
      simp only [value_resources, List.getElem?_map, List.getElem?_eq_getElem inside]
      cases s.comp.resources[i] <;> rfl

theorem findResource_spec {s : CompState} (owned : Owned rest s)
    (tabled : Tabled hash res (value s)) (name : String) :
    findResource hash res s name =
      .ok ((lists res (value s) name).bind fun list => list.items.head?) := by
  obtain ⟨found, run, same, member⟩ := findList_spec owned tabled name
  rw [← same]
  cases found with
  | none => simp [findResource, run, bind, Except.bind]
  | some a =>
    have inside := member a rfl
    obtain ⟨name', holds⟩ := listFor_of_held tabled inside
    have wf := owned.wf a (Multiset.mem_add.mpr (.inl inside))
    have some_ : ResList.isEmpty (s.heap.cell a) = false := by
      rw [Bool.eq_false_iff, ne_eq, listIsEmpty_iff wf]
      exact holds.items_ne
    simp [findResource, run, some_, bind, Except.bind]
    rfl

/-! #### Merging a component -/

/-- Merging some lists does not change a shared list of their names before it fails. -/
def CleanAll (res : Addr → LCFGResource) (rest : Multiset Addr) (s : CompState)
    (lists : List Addr) : Prop :=
  ∀ a ∈ held s.comp, a ∈ rest → ∀ b ∈ lists,
    PlainComponent.key res (plainAt s.heap a) = PlainComponent.key res (plainAt s.heap b) →
      Clean (fun list => list.mergeList res (plainAt s.heap b)) (plainAt s.heap a)

/-- The loop over the lists of a component which are held elsewhere. -/
private theorem mergeRounds_outcome (slots : List (Option Addr)) {s : CompState}
    (owned : Owned rest s) (sound : Sound hash res (value s))
    (elsewhere : ∀ a ∈ LinearProbe.stored slots, a ∈ rest)
    (named : ∀ a ∈ LinearProbe.stored slots, ∃ name, ListFor res name (plainAt s.heap a))
    (i : Nat) (change : LCFGChange) (ok : change.isOk = true) (msg : Option Message) :
    ∃ s' change' msg', forBuckets (mergeRound hash res) (fun s => s.2.1.isOk) i slots.length slots
        (s, change, msg) = .ok (s', change', msg') ∧
      change' = (PlainComponent.mergeLists hash res (value s) change
        ((LinearProbe.stored slots).map (plainAt s.heap))).2 ∧
      (change' ≠ .error ∨ CleanAll res rest s (LinearProbe.stored slots) →
        value s' = (PlainComponent.mergeLists hash res (value s) change
          ((LinearProbe.stored slots).map (plainAt s.heap))).1) ∧
      Step rest s s' := by
  induction slots generalizing s i change msg with
  | nil => exact ⟨s, change, msg, rfl, rfl, fun _ => rfl, Step.refl owned⟩
  | cons entry slots ih =>
    cases entry with
    | none =>
      obtain ⟨s', change', msg', run, same⟩ := ih owned sound (by simpa using elsewhere)
        (by simpa using named) (i + 1) change ok msg
      exact ⟨s', change', msg',
        by simpa [forBuckets, ok, mergeRound, bind, Except.bind] using run, by simpa using same⟩
    | some b =>
      rw [LinearProbe.stored_some] at elsewhere named ⊢
      have other := elsewhere b (by simp)
      obtain ⟨name, holds⟩ := named b (by simp)
      -- a list in a table is never empty, so that no round skips it
      have some_ : ResList.isEmpty (s.heap.cell b) = false := by
        rw [Bool.eq_false_iff, ne_eq, listIsEmpty_iff (owned.wf_rest other)]
        exact holds.items_ne
      obtain ⟨s₁, change₁, msg₁, merged, changed, values, step⟩ := mergeBucket_outcome owned sound
        (fun list msg wf => ResList.mergeList_spec list (s.heap.cell b) msg wf)
        (mergesFor_mergeList holds) msg
      have round : mergeRound hash res (s, change, msg) i (some b) = .ok (s₁, change₁, msg₁) := by
        simp only [mergeRound, some_, Bool.false_eq_true, if_false, getName_eq, holds.key_eq,
          Option.getD_some, merged]
      change change₁ = (PlainComponent.merge hash res (value s) name
        fun l => l.mergeList res (plainAt s.heap b)).2 at changed
      -- the condition on shared lists holds for each list of the other component
      have cleanFor (clean : CleanAll res rest s (b :: LinearProbe.stored slots)) :
          CleanFor res rest s name fun l => l.mergeList res (plainAt s.heap b) :=
        fun a member shared keyed => clean a member shared b (by simp) (by rw [keyed, holds.key_eq])
      rw [List.map_cons, PlainComponent.mergeLists, holds.key_eq, Option.getD_some]
      by_cases failed : change₁ = .error
      · -- the loop ends with the first conflict
        rw [← changed, if_pos failed]
        refine ⟨s₁, change₁, msg₁, ?_, changed, fun sure => ?_, step⟩
        · simp only [forBuckets, List.length_cons, ok, if_true, round, bind, Except.bind]
          cases slots with
          | nil => rfl
          | cons entry slots => simp [forBuckets, failed, LCFGChange.isOk]
        · exact values (sure.imp_right cleanFor)
      -- the list was merged, and the others are as they were
      · have values : value s₁ = (PlainComponent.merge hash res (value s) name
            fun l => l.mergeList res (plainAt s.heap b)).1 := values (.inl failed)
        rw [← changed, if_neg failed, ← values]
        have ok₁ : change₁.isOk = true := by simpa [LCFGChange.isOk] using failed
        have kept : ∀ a ∈ rest, plainAt s₁.heap a = plainAt s.heap a := fun a member => by
          rw [plainAt, step.agree a member]
          rfl
        have sound₁ : Sound hash res (value s₁) := by
          rw [values]
          exact (sound.merge_spec (mergesFor_mergeList holds)).1
        have later : ∀ a ∈ LinearProbe.stored slots, a ∈ rest := fun a member =>
          elsewhere a (List.mem_cons_of_mem b member)
        obtain ⟨s', change', msg', run, changed', values', step'⟩ := ih step.owned sound₁ later
          (fun a member => by
            rw [kept a (later a member)]
            exact named a (List.mem_cons_of_mem b member))
          (i + 1) change₁ ok₁ msg₁
        have lists : (LinearProbe.stored slots).map (plainAt s₁.heap) =
            (LinearProbe.stored slots).map (plainAt s.heap) :=
          List.map_congr_left fun a member => kept a (later a member)
        rw [lists] at changed' values'
        refine ⟨s', change', msg', ?_, changed', fun sure => values' ?_, step.trans step'⟩
        · simpa [forBuckets, ok, round, bind, Except.bind] using run
        · refine sure.imp_right fun clean a member shared b' member' => ?_
          rw [kept a shared, kept b' (later b' member')]
          exact clean a (step.own a member shared) shared b' (List.mem_cons_of_mem b member')

/-- Merging a component whose lists are held elsewhere: the change is that of the merge of
the values, and so are the lists unless a failing merge has changed a shared one. -/
theorem mergeComponent_outcome {s : CompState} {comp2 : LCFGComponent} (owned : Owned rest s)
    (sound : Sound hash res (value s)) (elsewhere : held comp2 ≤ rest)
    (tabled : Tabled hash res (value ⟨s.heap, comp2⟩)) (msg : Option Message) :
    ∃ s' change msg', mergeComponent hash res s comp2 msg = .ok (s', change, msg') ∧
      change = (PlainComponent.mergeComponent hash res (value s) (value ⟨s.heap, comp2⟩)).2 ∧
      (change ≠ .error ∨ CleanAll res rest s (LinearProbe.stored comp2.resources) →
        value s' =
          (PlainComponent.mergeComponent hash res (value s) (value ⟨s.heap, comp2⟩)).1) ∧
      Step rest s s' := by
  -- the other component owns its lists as well
  have others : held comp2 + (held s.comp + (rest - held comp2)) = held s.comp + rest := by
    rw [← Multiset.add_assoc, Multiset.add_comm (held comp2), Multiset.add_assoc,
      Multiset.add_comm (held comp2), Multiset.sub_add_cancel elsewhere]
  have owned2 : Owned (held s.comp + (rest - held comp2)) ⟨s.heap, comp2⟩ :=
    ⟨by rw [others]; exact owned.counts, by rw [others]; exact owned.wf⟩
  obtain ⟨b, empty, nothing⟩ := isEmpty_spec owned2 tabled
  unfold mergeComponent PlainComponent.mergeComponent
  rw [stored_value]
  cases b with
  | true =>
    refine ⟨s, .none, msg, by simp [empty, bind, Except.bind], ?_, fun _ => ?_, Step.refl owned⟩
    all_goals
      rw [nothing rfl]
      rfl
  | false =>
    obtain ⟨s', change', msg', run, rest_⟩ := mergeRounds_outcome comp2.resources owned sound
      (fun a member => Multiset.mem_of_le elsewhere (mem_held.mpr member))
      (fun a member => listFor_of_held tabled (mem_held.mpr member)) 0 .none rfl msg
    refine ⟨s', change', msg', ?_, rest_⟩
    have buckets := buckets_eq tabled
    dsimp only at buckets
    simp only [empty, bind, Except.bind, buckets, Bool.false_eq_true, if_false, run]

/-- Merging a component whose lists are held elsewhere. -/
theorem mergeComponent_spec {s : CompState} {comp2 : LCFGComponent} (owned : Owned rest s)
    (sound : Sound hash res (value s)) (elsewhere : held comp2 ≤ rest)
    (tabled : Tabled hash res (value ⟨s.heap, comp2⟩))
    (clean : ∀ a ∈ held s.comp, a ∈ rest → ∀ b ∈ held comp2,
      PlainComponent.key res (plainAt s.heap a) = PlainComponent.key res (plainAt s.heap b) →
        Clean (fun list => list.mergeList res (plainAt s.heap b)) (plainAt s.heap a))
    (msg : Option Message) :
    ∃ s' change msg', mergeComponent hash res s comp2 msg = .ok (s', change, msg') ∧
      (value s', change) =
        PlainComponent.mergeComponent hash res (value s) (value ⟨s.heap, comp2⟩) ∧
      Step rest s s' := by
  obtain ⟨s', change, msg', run, changed, values, step⟩ :=
    mergeComponent_outcome owned sound elsewhere tabled msg
  have cleanAll : CleanAll res rest s (LinearProbe.stored comp2.resources) :=
    fun a member shared b member' => clean a member shared b (mem_held.mpr member')
  exact ⟨s', change, msg', run, Prod.ext (values (.inr cleanAll)) changed, step⟩

/-! #### Emptying -/

private theorem setBucket_none {s : CompState} (counts : Counts s.heap (held s.comp + rest))
    {i : Nat} (inside : i < s.comp.resources.length) :
    ∃ heap, setBucket s i none = .ok (⟨heap, { s.comp with
        resources := s.comp.resources.set i none
        entries := s.comp.entries - (s.comp.resources[i].toList).length }⟩,
        if s.comp.resources[i] = none then .none else .removed) ∧
      Counts heap (held { s.comp with resources := s.comp.resources.set i none } + rest) ∧
      Agree rest s.heap heap ∧ heap.fresh = s.heap.fresh := by
  obtain ⟨heap, entries, change, set_, counts', agree, fresh, -⟩ :=
    setBucket_spec counts inside none (by simp)
  have kept := agree.mono (Multiset.subset_of_le (Multiset.le_add_left rest _))
  refine ⟨heap, ?_, counts', kept, fresh⟩
  rw [set_]
  unfold setBucket at set_
  rw [List.getElem?_eq_getElem inside] at set_
  cases current : s.comp.resources[i] with
  | none =>
    simp only [current, if_true, Except.ok.injEq, Prod.mk.injEq] at set_
    obtain ⟨same, rfl⟩ := set_
    have same' := congrArg (fun t : CompState => t.comp.entries) same
    simp at same'
    simp [same']
  | some a =>
    simp only [current, reduceCtorEq, if_false, Except.ok.injEq, Prod.mk.injEq] at set_
    obtain ⟨same, rfl⟩ := set_
    have same' := congrArg (fun t : CompState => t.comp.entries) same
    simp at same'
    simp [same']

private theorem removeLoop_spec (slots : List (Option Addr)) {s : CompState}
    (counts : Counts s.heap (held s.comp + rest)) (i : Nat)
    (split : s.comp.resources = List.replicate i none ++ slots) :
    ∃ heap, forBuckets (fun s i _ => (setBucket s i none).map Prod.fst) (fun _ => true) i
        slots.length slots s = .ok ⟨heap, { s.comp with
          resources := List.replicate (i + slots.length) none
          entries := s.comp.entries - (LinearProbe.stored slots).length }⟩ ∧
      Counts heap rest ∧ Agree rest s.heap heap ∧ heap.fresh = s.heap.fresh := by
  induction slots generalizing s i with
  | nil =>
    have empty : s.comp.resources = List.replicate i none := by simpa using split
    refine ⟨s.heap, ?_, ?_, Agree.refl _ _, rfl⟩
    · simp [forBuckets, ← empty, LinearProbe.stored]
    · simpa [held, empty, LinearProbe.stored_replicate_none] using counts
  | cons entry slots ih =>
    have inside : i < s.comp.resources.length := by simp [split]
    obtain ⟨heap₁, set_, counts₁, agree₁, fresh₁⟩ := setBucket_none counts inside
    have here : s.comp.resources[i] = entry := by simp [split]
    rw [here] at set_
    have next : s.comp.resources.set i none = List.replicate (i + 1) none ++ slots := by
      simp [split, List.replicate_succ']
    obtain ⟨heap, run, counts', agree, fresh⟩ := ih (s := ⟨heap₁, { s.comp with
      resources := s.comp.resources.set i none
      entries := s.comp.entries - entry.toList.length }⟩) counts₁ (i + 1) next
    refine ⟨heap, ?_, counts', agree₁.trans agree, fresh.trans fresh₁⟩
    -- the entries go down by one for each list
    have left : s.comp.entries - entry.toList.length - (LinearProbe.stored slots).length =
        s.comp.entries - (LinearProbe.stored (entry :: slots)).length := by
      cases entry with
      | none => simp
      | some a =>
        simp only [Option.toList_some, LinearProbe.stored_some, List.length_cons, List.length_nil]
        omega
    have more : i + (slots.length + 1) = i + 1 + slots.length := by omega
    rw [List.length_cons, forBuckets, if_pos rfl, set_, more, ← left]
    exact run

theorem removeAllResources_spec {s : CompState} (owned : Owned rest s)
    (tabled : Tabled hash res (value s)) :
    ∃ s', removeAllResources s = .ok s' ∧
      value s' = PlainComponent.emptied (value s) (value s).buckets ∧ Step rest s s' := by
  obtain ⟨heap, run, counts, agree, fresh⟩ := removeLoop_spec s.comp.resources owned.counts 0 rfl
  have count : s.comp.entries = (LinearProbe.stored s.comp.resources).length := by
    have entries := tabled.entries_eq
    rwa [← LinearProbe.length_stored, stored_value, List.length_map, value_entries] at entries
  have none_ (entries : Nat) : held { s.comp with
      resources := List.replicate (0 + s.comp.resources.length) none, entries } = 0 := by
    simp [held, LinearProbe.stored_replicate_none]
  refine ⟨_, by rw [removeAllResources, buckets_eq tabled]; exact run, ?_, ⟨?_, ?_⟩, agree,
    fresh.ge, ?_⟩
  · simp [value, ComponentTable.map, PlainComponent.emptied, buckets_eq tabled, count]
  · rw [none_, Multiset.zero_add]
    exact counts
  · intro a member
    rw [none_, Multiset.zero_add] at member
    rw [agree a member]
    exact owned.wf_rest member
  · intro b member
    rw [none_] at member
    exact absurd member (Multiset.notMem_zero b)

end Component
end Lcfg
