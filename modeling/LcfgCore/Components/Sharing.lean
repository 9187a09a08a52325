import LcfgCore.Components.Table

/-!
# Components whose lists are shared

What the operations on a component do when its lists are on a heap and some of
them may be held by others as well. `rest` stands for all the references to
lists which are not in the buckets of the component.

## Main results

`mergeBucket_spec`: merging into the bucket for a name has the effect on the
values of the lists that it has without sharing, it leaves the lists of others
alone, and it keeps the reference counts right. `resize_spec` says so for the
growth of the table.
-/
namespace Lcfg
namespace Component

open RefCount (Counts Agree)
open ResList (Plain)
open PlainComponent (Tabled Sound ListFor MergesFor bucketOf put put_same grow insert lists)

/-- What is stored at the address of a list. -/
def plainAt (heap : ListHeap) (a : Addr) : Plain := ResList.plain (heap.cell a)

/-- The component with the lists themselves in its buckets. -/
def value (s : CompState) : PlainComponent := s.comp.map (plainAt s.heap)

/-- The references from the buckets of a component. -/
def held (comp : LCFGComponent) : Multiset Addr := (LinearProbe.stored comp.resources : List Addr)

/-- The counts are right for the lists of the component and those held by others,
and all these lists are well formed. -/
structure Owned (rest : Multiset Addr) (s : CompState) : Prop where
  counts : Counts s.heap (held s.comp + rest)
  wf : ∀ a ∈ held s.comp + rest, (s.heap.cell a).chain.Wf

variable {hash : String → Nat} {res : Addr → LCFGResource} {rest : Multiset Addr}

/-! ### Values -/

@[simp] theorem value_name (s : CompState) : (value s).name = s.comp.name := rfl
@[simp] theorem value_buckets (s : CompState) : (value s).buckets = s.comp.buckets := rfl
@[simp] theorem value_entries (s : CompState) : (value s).entries = s.comp.entries := rfl
@[simp] theorem value_primaryKey (s : CompState) : (value s).primaryKey = s.comp.primaryKey := rfl
@[simp] theorem value_mergeRules (s : CompState) : (value s).mergeRules = s.comp.mergeRules := rfl

@[simp] theorem value_resources (s : CompState) :
    (value s).resources = s.comp.resources.map (Option.map (plainAt s.heap)) := rfl

theorem value_length (s : CompState) :
    (value s).resources.length = s.comp.resources.length := List.length_map _

theorem mem_held {comp : LCFGComponent} {a : Addr} :
    a ∈ held comp ↔ a ∈ LinearProbe.stored comp.resources := Multiset.mem_coe

theorem stored_value (s : CompState) :
    LinearProbe.stored (value s).resources =
      (LinearProbe.stored s.comp.resources).map (plainAt s.heap) :=
  LinearProbe.stored_map _ _

/-- The value depends on the lists in the buckets only. -/
theorem value_congr {s : CompState} {heap : ListHeap} (agree : Agree (held s.comp) s.heap heap) :
    value ⟨heap, s.comp⟩ = value s := by
  unfold value ComponentTable.map
  congr 1
  refine List.map_congr_left fun entry member => ?_
  cases entry with
  | none => rfl
  | some a =>
    obtain ⟨i, here⟩ := List.mem_iff_getElem?.mp member
    have stored : a ∈ held s.comp := mem_held.mpr ((LinearProbe.mem_stored _ a).mpr ⟨i, here⟩)
    simp [plainAt, agree a stored]

theorem getName_eq (heap : ListHeap) (a : Addr) :
    ResList.getName res (heap.cell a) = PlainComponent.key res (plainAt heap a) := rfl

/-- On a well-formed table the search for a bucket stays within the array. -/
theorem findBucket_eq {s : CompState} (tabled : Tabled hash res (value s)) (name : String) :
    findBucket hash (headOf res s.heap) s.comp name = .ok (bucketOf hash res (value s) name) := by
  have mapped : bucketOf hash res (value s) name = LinearProbe.probe s.comp.resources
      s.comp.buckets (home hash s.comp.buckets name)
      (fun a => (headOf res s.heap a).any fun r => Resource.isMatch r name) :=
    LinearProbe.probe_map _ _ _ _ _
  unfold findBucket
  rw [← mapped]
  cases found : bucketOf hash res (value s) name with
  | none => rfl
  | some i =>
    have inside := (tabled.bucketOf_spec found).1
    rw [value_length] at inside
    simp [inside]

theorem listIsEmpty_iff {heap : ListHeap} {a : Addr} (wf : (heap.cell a).chain.Wf) :
    ResList.isEmpty (heap.cell a) = true ↔ (plainAt heap a).items = [] :=
  wf.isEmpty_iff

/-! ### Setting a bucket -/

/-- The references of a bucket, at most one. -/
def refs (entry : Option Addr) : Multiset Addr := (entry.toList : List Addr)

theorem refs_some_add (a : Addr) (all : Multiset Addr) : refs (some a) + all = a ::ₘ all := by
  simp [refs]

theorem held_set (comp : LCFGComponent) (i : Nat) (inside : i < comp.resources.length)
    (new : Option Addr) :
    held { comp with resources := comp.resources.set i new } + refs comp.resources[i] =
      held comp + refs new := by
  have perm := LinearProbe.stored_set_perm comp.resources i inside new
  simpa [held, refs] using Multiset.coe_eq_coe.mpr perm

theorem acquireList_spec {heap : ListHeap} {all : Multiset Addr} (counts : Counts heap all)
    (new : Option Addr) (allocated : ∀ a ∈ new, a < heap.fresh) :
    Counts (acquireList heap new) (refs new + all) := by
  cases new with
  | none => simpa [acquireList, refs] using counts
  | some a => simpa [acquireList, refs] using counts.acquire (allocated a rfl)

theorem relinquishList_spec {heap : ListHeap} {all : Multiset Addr} {old : Option Addr}
    (counts : Counts heap (refs old + all)) :
    Counts (relinquishList heap old) all ∧ Agree all heap (relinquishList heap old) := by
  cases old with
  | none => simpa [relinquishList, refs, Agree] using counts
  | some a =>
    have counts' : Counts heap (a ::ₘ all) := by simpa [refs] using counts
    exact counts'.relinquish ResList.new

@[simp] theorem acquireList_cell (heap : ListHeap) (list : Option Addr) :
    (acquireList heap list).cell = heap.cell := by
  cases list <;> rfl

@[simp] theorem acquireList_fresh (heap : ListHeap) (list : Option Addr) :
    (acquireList heap list).fresh = heap.fresh := by
  cases list <;> rfl

@[simp] theorem relinquishList_fresh (heap : ListHeap) (list : Option Addr) :
    (relinquishList heap list).fresh = heap.fresh := by
  cases list <;> rfl

/-- Setting a bucket takes a reference to the new list and gives up the old one. -/
theorem setBucket_spec {s : CompState} (counts : Counts s.heap (held s.comp + rest)) {i : Nat}
    (inside : i < s.comp.resources.length) (new : Option Addr)
    (allocated : ∀ a ∈ new, a < s.heap.fresh) :
    ∃ heap entries change, setBucket s i new =
        .ok (⟨heap, { s.comp with resources := s.comp.resources.set i new, entries }⟩, change) ∧
      Counts heap (held { s.comp with resources := s.comp.resources.set i new } + rest) ∧
      Agree (held { s.comp with resources := s.comp.resources.set i new } + rest) s.heap heap ∧
      heap.fresh = s.heap.fresh ∧ change.isOk = true ∧
      (change = .added ↔ s.comp.resources[i] = none ∧ new ≠ none) ∧
      (new ≠ none → entries =
        if s.comp.resources[i].isNone then s.comp.entries + 1 else s.comp.entries) := by
  unfold setBucket
  rw [List.getElem?_eq_getElem inside]
  by_cases same : s.comp.resources[i] = new
  · -- nothing changes
    have unchanged : s.comp.resources.set i new = s.comp.resources := by
      rw [← same, List.set_getElem_self]
    simp only [same, if_true, unchanged]
    refine ⟨s.heap, s.comp.entries, .none, rfl, counts, Agree.refl _ _, rfl, rfl, ?_, ?_⟩
    · constructor
      · intro added
        cases added
      · rintro ⟨isNone, some_⟩
        exact absurd isNone some_
    · intro some_
      rw [if_neg (by simpa using some_)]
  · simp only [same, if_false]
    -- the new list is acquired before the old one is let go
    have acquired := acquireList_spec counts new allocated
    have swapped : refs new + (held s.comp + rest) = refs s.comp.resources[i] +
        (held { s.comp with resources := s.comp.resources.set i new } + rest) := by
      rw [← Multiset.add_assoc, Multiset.add_comm (refs new), ← held_set s.comp i inside new,
        Multiset.add_comm _ (refs _), Multiset.add_assoc]
    rw [swapped] at acquired
    obtain ⟨counts', agree⟩ := relinquishList_spec acquired
    refine ⟨relinquishList (acquireList s.heap new) s.comp.resources[i], ?_⟩
    have agree' : Agree (held { s.comp with resources := s.comp.resources.set i new } + rest)
        s.heap (relinquishList (acquireList s.heap new) s.comp.resources[i]) := fun a member => by
      rw [agree a member, acquireList_cell]
    cases new with
    | none =>
      refine ⟨s.comp.entries - 1, .removed, rfl, counts', agree', by simp, rfl, ?_, ?_⟩
      · simp
      · exact fun some_ => absurd rfl some_
    | some a =>
      cases current : s.comp.resources[i] with
      | none =>
        rw [current] at counts' agree'
        exact ⟨s.comp.entries + 1, .added, rfl, counts', agree', by simp, rfl, by simp, by simp⟩
      | some b =>
        rw [current] at counts' agree'
        exact ⟨s.comp.entries, .replaced, rfl, counts', agree', by simp, rfl, by simp, by simp⟩

/-- Setting a bucket to a list puts the list into the value. -/
theorem setBucket_value {s : CompState} (owned : Owned rest s) {i : Nat}
    (inside : i < s.comp.resources.length) (a : Addr) (allocated : a < s.heap.fresh)
    (wf : (s.heap.cell a).chain.Wf) :
    ∃ s' change, setBucket s i (some a) = .ok (s', change) ∧ Owned rest s' ∧
      value s' = put (value s) i (plainAt s.heap a) ∧ Agree rest s.heap s'.heap ∧
      s'.heap.fresh = s.heap.fresh ∧ change.isOk = true ∧
      (change = .added ↔ s.comp.resources[i] = none) ∧
      ∀ b ∈ held s'.comp, s'.heap.cell b = s.heap.cell b ∧ (b ∈ held s.comp ∨ b = a) := by
  obtain ⟨heap, entries, change, set_, counts, agree, fresh, ok, added, count⟩ :=
    setBucket_spec owned.counts inside (some a) (by simpa using allocated)
  -- the component holds what it has held, and the new list
  have from_ : ∀ b ∈ held { s.comp with resources := s.comp.resources.set i (some a) },
      b ∈ held s.comp ∨ b = a := by
    intro b member
    rcases LinearProbe.mem_stored_set _ _ _ b (mem_held.mp member) with old | new
    · exact .inl (mem_held.mpr old)
    · exact .inr (Option.some.inj new).symm
  refine ⟨_, change, set_, ⟨counts, ?_⟩, ?_, ?_, fresh, ok, by simpa using added, ?_⟩
  · intro b member
    rw [agree b member]
    -- the cells are the same, and so are the chains in them
    rcases Multiset.mem_add.mp member with here | there
    · rcases from_ b here with old | rfl
      · exact owned.wf b (Multiset.mem_add.mpr (.inl old))
      · exact wf
    · exact owned.wf b (Multiset.mem_add.mpr (.inr there))
  · have kept := agree.mono (Multiset.subset_of_le (Multiset.le_add_right _ _))
    rw [value_congr (s := ⟨s.heap, { s.comp with resources := s.comp.resources.set i (some a), entries }⟩)
      kept]
    simp only [value, ComponentTable.map, put, List.map_set, Option.map_some,
      List.getElem?_map, List.getElem?_eq_getElem inside, count (by simp)]
    cases s.comp.resources[i] <;> rfl
  · exact agree.mono (Multiset.subset_of_le (Multiset.le_add_left _ _))
  · intro b member
    exact ⟨agree b (Multiset.mem_add.mpr (.inl member)), from_ b member⟩

theorem Owned.allocated {s : CompState} (owned : Owned rest s) {a : Addr} (member : a ∈ rest) :
    a < s.heap.fresh :=
  owned.counts.allocated a (Multiset.mem_add.mpr (.inr member))

theorem Owned.wf_rest {s : CompState} (owned : Owned rest s) {a : Addr} (member : a ∈ rest) :
    (s.heap.cell a).chain.Wf :=
  owned.wf a (Multiset.mem_add.mpr (.inr member))

/-- Giving up a reference which is not one of the buckets changes no value. -/
theorem Owned.relinquish {s : CompState} {list : Option Addr} (owned : Owned (refs list + rest) s) :
    Owned rest ⟨relinquishList s.heap list, s.comp⟩ ∧
      value ⟨relinquishList s.heap list, s.comp⟩ = value s ∧
      Agree (held s.comp + rest) s.heap (relinquishList s.heap list) := by
  have counts : Counts s.heap (refs list + (held s.comp + rest)) := by
    have swapped := owned.counts
    rwa [← Multiset.add_assoc, Multiset.add_comm (held s.comp), Multiset.add_assoc] at swapped
  obtain ⟨counts', agree⟩ := relinquishList_spec counts
  refine ⟨⟨counts', fun a member => ?_⟩, ?_, agree⟩
  · rw [agree a member]
    apply owned.wf
    rcases Multiset.mem_add.mp member with here | there
    · exact Multiset.mem_add.mpr (.inl here)
    · exact Multiset.mem_add.mpr (.inr (Multiset.mem_add.mpr (.inr there)))
  · exact value_congr (agree.mono (Multiset.subset_of_le (Multiset.le_add_right _ _)))

/-! ### Inserting lists -/

/-- Inserting a list which is held elsewhere inserts it into the value. -/
theorem insertList_spec {s : CompState} (owned : Owned rest s) (tabled : Tabled hash res (value s))
    {a : Addr} (elsewhere : a ∈ rest) {name : String} (holds : ListFor res name (plainAt s.heap a))
    (room : s.comp.entries < s.comp.resources.length) :
    ∃ s' change, insertList hash res s (some a) = .ok (s', change) ∧ Owned rest s' ∧
      value s' = insert hash res (value s) (plainAt s.heap a) ∧ Agree rest s.heap s'.heap ∧
      s'.heap.fresh = s.heap.fresh ∧ change.isOk = true ∧
      (change = .added ↔ lists res (value s) name = none) ∧
      ∀ b ∈ held s'.comp, s'.heap.cell b = s.heap.cell b ∧ (b ∈ held s.comp ∨ b = a) := by
  have wf := owned.wf_rest elsewhere
  have some_ : ResList.isEmpty (s.heap.cell a) = false := by
    rw [Bool.eq_false_iff, ne_eq, listIsEmpty_iff wf]
    exact holds.items_ne
  obtain ⟨i, found⟩ := tabled.bucketOf_isSome name (by rwa [value_entries, value_length])
  obtain ⟨inside, content⟩ := tabled.bucketOf_spec found
  rw [value_length] at inside
  obtain ⟨s', change, set_, owned', values, agree, fresh, ok, added, cells⟩ :=
    setBucket_value owned inside a (owned.allocated elsewhere) wf
  have searched := findBucket_eq tabled name
  rw [found] at searched
  have named : (ResList.getName res (s.heap.cell a)).getD "" = name := by
    rw [getName_eq, holds.key_eq, Option.getD_some]
  refine ⟨s', change, ?_, owned', ?_, agree, fresh, ok, ?_, cells⟩
  · simp only [insertList, some_, Bool.false_eq_true, if_false, named, searched, set_, bind,
      Except.bind]
  · simp only [values, PlainComponent.insert, holds.key_eq, Option.getD_some, found]
  · rw [added, ← content]
    simp [value_resources, List.getElem?_eq_getElem inside]

/-- The loop which moves the lists of the old buckets, `slots`, into the new ones. -/
theorem transfer_spec (slots : List (Option Addr)) {s : CompState}
    (owned : Owned ((LinearProbe.stored slots : List Addr) + rest) s)
    (tabled : Tabled hash res (value s))
    (named : ∀ a ∈ LinearProbe.stored slots, ∃ name, ListFor res name (plainAt s.heap a))
    (room : s.comp.entries + (LinearProbe.stored slots).length ≤ s.comp.resources.length)
    (i : Nat) (change : LCFGChange) (ok : change.isOk = true) :
    ∃ s' change', forBuckets (transfer hash res) (fun s => s.2.isOk) i slots.length slots
        (s, change) = .ok (s', change') ∧ change'.isOk = true ∧ Owned rest s' ∧
      value s' = ((LinearProbe.stored slots).map (plainAt s.heap)).foldl (insert hash res)
        (value s) ∧
      Agree rest s.heap s'.heap ∧ s'.heap.fresh = s.heap.fresh ∧
      ∀ b ∈ held s'.comp, b ∈ held s.comp ∨ b ∈ LinearProbe.stored slots := by
  induction slots generalizing s i change with
  | nil =>
    refine ⟨s, change, rfl, ok, ?_, rfl, Agree.refl _ _, rfl, fun b member => .inl member⟩
    simpa [LinearProbe.stored] using owned
  | cons entry slots ih =>
    cases entry with
    | none =>
      obtain ⟨s', change', run, rest_⟩ := ih (by simpa using owned) tabled
        (by simpa using named) (by simpa using room) (i + 1) .none rfl
      refine ⟨s', change', ?_, by simpa using rest_⟩
      simpa [forBuckets, ok, transfer, insertList, relinquishList, bind, Except.bind] using run
    | some a =>
      simp only [LinearProbe.stored_some, List.length_cons] at owned room named ⊢
      obtain ⟨name, holds⟩ := named a (by simp)
      have elsewhere : a ∈ ((a :: LinearProbe.stored slots : List Addr) : Multiset Addr) + rest := by
        simp
      obtain ⟨s₁, change₁, inserted, owned₁, value₁, agree₁, fresh₁, ok₁, -, cells₁⟩ :=
        insertList_spec owned tabled elsewhere holds (by omega)
      obtain ⟨good, shape, count, -⟩ := tabled.insert_spec holds
        (by rw [value_entries, value_length]; omega)
      rw [← value₁] at good shape count
      have size : s₁.comp.resources.length = s.comp.resources.length := by
        rw [← value_length, ← value_length, ← good.buckets_eq, shape.buckets_eq, tabled.buckets_eq]
      rw [value_entries, value_entries] at count
      -- the old bucket gives up its reference
      have split : ((a :: LinearProbe.stored slots : List Addr) : Multiset Addr) + rest =
          refs (some a) + ((LinearProbe.stored slots : List Addr) + rest) := by
        simp [refs, ← Multiset.cons_coe]
      rw [split] at owned₁ agree₁
      obtain ⟨owned₂, value₂, agree₂⟩ := owned₁.relinquish
      have same : ∀ b ∈ LinearProbe.stored slots,
          plainAt (relinquishList s₁.heap (some a)) b = plainAt s.heap b := by
        intro b member
        unfold plainAt
        rw [agree₂ b (by simp [member]), agree₁ b (by simp [member])]
      obtain ⟨s', change', run, ok', owned', values, agree, fresh, from_⟩ := ih owned₂
        (by rw [value₂]; exact good)
        (fun b member => by
          rw [same b member]
          exact named b (List.mem_cons_of_mem _ member))
        (by change s₁.comp.entries + _ ≤ s₁.comp.resources.length; omega)
        (i + 1) change₁ ok₁
      refine ⟨s', change', ?_, ok', owned', ?_, ?_, ?_, ?_⟩
      · simpa [forBuckets, ok, transfer, inserted, bind, Except.bind] using run
      · rw [values, value₂, value₁, List.map_cons, List.foldl_cons]
        congr 1
        exact List.map_congr_left same
      · intro b member
        rw [agree b member, agree₂ b (by simp [member]), agree₁ b (by simp [member])]
      · rw [fresh]
        simp [fresh₁]
      · intro b member
        rcases from_ b member with here | there
        · rcases (cells₁ b here).2 with old | rfl
          · exact .inl old
          · exact .inr (by simp)
        · exact .inr (by simp [there])

/-- A growth of the table is one of its value. -/
theorem resize_spec {s : CompState} (owned : Owned rest s) (tabled : Tabled hash res (value s)) :
    ∃ s', resize hash res s = .ok s' ∧ Owned rest s' ∧ value s' = grow hash res (value s) ∧
      Agree rest s.heap s'.heap ∧ s'.heap.fresh = s.heap.fresh ∧
      ∀ b ∈ held s'.comp, b ∈ held s.comp := by
  have pos := tabled.pos
  rw [value_length] at pos
  have some_ : s.comp.resources ≠ [] := List.ne_nil_of_length_pos pos
  have same : overloaded (value s) = overloaded s.comp := rfl
  cases heavy : overloaded s.comp with
  | false =>
    refine ⟨s, ?_, owned, ?_, Agree.refl _ _, rfl, fun b member => member⟩
    · simp [resize, heavy, some_]
    · simp [grow, same, heavy]
  | true =>
    have more : ¬ wantBuckets s.comp.entries ≤ s.comp.buckets := by
      simp only [overloaded, decide_eq_true_eq, wantBuckets] at heavy ⊢
      omega
    -- the loop starts with empty buckets, the references of the old ones being outside
    let start : CompState := ⟨s.heap, { s.comp with
      resources := List.replicate (wantBuckets s.comp.entries) none, entries := 0
      buckets := wantBuckets s.comp.entries }⟩
    have nothing : held start.comp = 0 := by
      simp [held, start, LinearProbe.stored_replicate_none]
    have owned' : Owned ((LinearProbe.stored s.comp.resources : List Addr) + rest) start := by
      constructor
      · rw [nothing, Multiset.zero_add]
        exact owned.counts
      · rw [nothing, Multiset.zero_add]
        exact owned.wf
    have values : value start =
        PlainComponent.emptied (value s) (wantBuckets s.comp.entries) := by
      simp [value, ComponentTable.map, start, PlainComponent.emptied]
    have count : (LinearProbe.stored s.comp.resources).length = s.comp.entries := by
      have entries := tabled.entries_eq
      rw [← LinearProbe.length_stored, stored_value, List.length_map, value_entries] at entries
      exact entries.symm
    have tabled' : Tabled hash res (value start) := by
      rw [values]
      exact Tabled.emptied_tabled _ (by simp [wantBuckets])
    have named : ∀ a ∈ LinearProbe.stored s.comp.resources,
        ∃ name, ListFor res name (plainAt start.heap a) := by
      intro a member
      apply tabled.named
      rw [stored_value]
      exact List.mem_map_of_mem member
    obtain ⟨s', change, run, ok, good, filled, agree, fresh, from_⟩ :=
      transfer_spec s.comp.resources owned' tabled' named
        (by simp [start, count, wantBuckets]; omega) 0 .none rfl
    refine ⟨s', ?_, good, ?_, agree, fresh, fun b member => ?_⟩
    · have buckets : s.comp.buckets = s.comp.resources.length := by
        rw [← value_length, ← tabled.buckets_eq, value_buckets]
      rw [← buckets] at run
      simp only [resize, heavy, if_true, more, and_false, if_false, some_]
      simp only [start] at run
      simp only [run, bind, Except.bind, ok, if_true]
    · rw [filled, values]
      simp only [grow, same, heavy, if_true, stored_value, value_entries]
      rfl
    · rcases from_ b member with none_ | old
      · rw [nothing] at none_
        exact absurd none_ (Multiset.notMem_zero b)
      · exact mem_held.mpr old

/-! ### Merging into a bucket -/

/-- A table holds each of its lists once. -/
theorem held_nodup {s : CompState} (tabled : Tabled hash res (value s)) : (held s.comp).Nodup := by
  have distinct := tabled.chained.pairwise
  rw [stored_value, List.pairwise_map] at distinct
  exact Multiset.coe_nodup.mpr (distinct.imp fun differ same => differ (by rw [same]))

/-- A list of the component is shared if and only if others hold it too. -/
theorem isShared_iff {s : CompState} (owned : Owned rest s) (tabled : Tabled hash res (value s))
    {a : Addr} (member : a ∈ held s.comp) : RefCount.isShared s.heap a = true ↔ a ∈ rest := by
  have count := owned.counts.count_eq a
  rw [Multiset.count_add, Multiset.count_eq_one_of_mem (held_nodup tabled) member] at count
  rw [RefCount.isShared, decide_eq_true_iff, ← Multiset.one_le_count_iff_mem, count]
  omega

theorem mem_held_of_bucket {s : CompState} {i : Nat} {a : Addr}
    (here : s.comp.resources[i]?.join = some a) : a ∈ held s.comp :=
  mem_held.mpr ((LinearProbe.mem_stored _ a).mpr ⟨i, Option.join_eq_some_iff.mp here⟩)

/-- A new list, which is written to at once, belongs to the one who allocated it. -/
theorem Owned.alloc {s : CompState} (owned : Owned rest s) (list merged : LCFGResourceList)
    (wf : merged.chain.Wf) :
    let a := s.heap.fresh
    let s' : CompState := ⟨RefCount.write (RefCount.alloc s.heap list).2 a merged, s.comp⟩
    Owned (refs (some a) + rest) s' ∧ value s' = value s ∧ plainAt s'.heap a = ResList.plain merged ∧
      Agree rest s.heap s'.heap ∧ s'.heap.fresh = s.heap.fresh + 1 ∧
      (RefCount.alloc s.heap list).2.cell a = list ∧ a ∉ held s.comp + rest := by
  intro a s'
  obtain ⟨counts, agree, cell⟩ := owned.counts.alloc list
  have new := owned.counts.fresh_notMem
  have alone : RefCount.isShared (RefCount.alloc s.heap list).2 a = false := by
    rw [RefCount.isShared, counts.count_eq, Multiset.count_cons_self,
      Multiset.count_eq_zero.mpr new]
    rfl
  obtain ⟨counts', agree'⟩ := counts.write alone merged
  have both := agree.trans agree'
  have written : s'.heap.cell a = merged := by simp [s', RefCount.write]
  refine ⟨⟨?_, fun b member => ?_⟩, ?_, ?_, ?_, rfl, cell, new⟩
  · rw [refs_some_add, Multiset.add_cons]
    exact counts'
  · by_cases same : b = a
    · rw [same, written]
      exact wf
    · have old : b ∈ held s.comp + rest := by simpa [refs, same, s'] using member
      rw [both b old]
      exact owned.wf b old
  · exact value_congr (both.mono (Multiset.subset_of_le (Multiset.le_add_right _ _)))
  · rw [plainAt, written]
  · exact both.mono (Multiset.subset_of_le (Multiset.le_add_left _ _))

/-- Writing to a list which nobody else holds rewrites its bucket in the value. -/
theorem Owned.write {s : CompState} (owned : Owned rest s) (tabled : Tabled hash res (value s))
    {i : Nat} {a : Addr} (here : s.comp.resources[i]?.join = some a)
    (alone : RefCount.isShared s.heap a = false) (merged : LCFGResourceList)
    (wf : merged.chain.Wf) :
    let s' : CompState := ⟨RefCount.write s.heap a merged, s.comp⟩
    Owned rest s' ∧ value s' = put (value s) i (ResList.plain merged) ∧
      Agree rest s.heap s'.heap := by
  intro s'
  have member := mem_held_of_bucket here
  have others : a ::ₘ ((held s.comp).erase a + rest) = held s.comp + rest := by
    rw [← Multiset.cons_add, Multiset.cons_erase member]
  have counts := owned.counts
  rw [← others] at counts
  obtain ⟨counts', agree⟩ := counts.write alone merged
  have written : s'.heap.cell a = merged := by simp [s', RefCount.write]
  have apart : a ∉ rest := by
    rw [← isShared_iff owned tabled member]
    simp [alone]
  refine ⟨⟨?_, fun b member => ?_⟩, ?_, ?_⟩
  · rwa [others] at counts'
  · by_cases same : b = a
    · rw [same, written]
      exact wf
    · rw [← others, Multiset.mem_cons] at member
      have old := member.resolve_left same
      rw [agree b old]
      exact owned.wf b (others ▸ Multiset.mem_cons_of_mem old)
  · have full := Option.join_eq_some_iff.mp here
    have inside := (List.getElem?_eq_some_iff.mp full).1
    have valueAt (j : Nat) (b : Addr) (there : s.comp.resources[j]? = some (some b)) :
        (value s).resources[j]? = some (some (plainAt s.heap b)) := by
      simp [value_resources, there]
    -- no other bucket holds this list
    have other (j : Nat) (b : Addr) (there : s.comp.resources[j]? = some (some b))
        (differ : i ≠ j) : b ≠ a := by
      rintro rfl
      obtain ⟨name, keyed⟩ := tabled.chained.keyed i _ (valueAt i b full)
      exact differ (tabled.chained.unique i j _ _ name (valueAt i b full) (valueAt j b there)
        keyed keyed)
    have slots : (value s').resources =
        (value s).resources.set i (some (ResList.plain merged)) := by
      refine List.ext_getElem? fun j => ?_
      by_cases same : i = j
      · subst j
        rw [List.getElem?_set_self (by rw [value_length]; exact inside)]
        simp [value_resources, s', full, plainAt, RefCount.write]
      · rw [List.getElem?_set_ne same]
        simp only [value_resources, s', List.getElem?_map]
        rcases there : s.comp.resources[j]? with _ | _ | b
        · rfl
        · rfl
        · have kept : plainAt (RefCount.write s.heap a merged) b = plainAt s.heap b := by
            simp [plainAt, RefCount.write, other j b there same]
          simp [kept]
    have content : (value s).resources[i]?.join = some (plainAt s.heap a) := by
      rw [valueAt i a full]
      rfl
    simp only [put, content, Option.isNone_some, Bool.false_eq_true, if_false, ← slots]
    rfl
  · exact agree.mono (Multiset.subset_of_le (Multiset.le_add_left _ _))

/-- The procedure `merge` does what `f` does to plain lists. -/
def Does (merge : LCFGResourceList → Option Message → ResList.MergeResult)
    (f : Plain → Plain × LCFGChange) : Prop :=
  ∀ list msg, list.chain.Wf → (merge list msg).1.chain.Wf ∧
    (ResList.plain (merge list msg).1, (merge list msg).2.1) = f (ResList.plain list)

/-- A merge that fails does not change the list before it does. -/
def Clean (f : Plain → Plain × LCFGChange) (list : Plain) : Prop :=
  (f list).2 = .error → (f list).1 = list

/-- What an operation on a component does to the heap: the counts stay right, the
lists of others stay the same, and no list of others gets into the component. -/
structure Step (rest : Multiset Addr) (s s' : CompState) : Prop where
  owned : Owned rest s'
  agree : Agree rest s.heap s'.heap
  fresh : s.heap.fresh ≤ s'.heap.fresh
  own : ∀ b ∈ held s'.comp, b ∈ rest → b ∈ held s.comp

theorem Step.refl {s : CompState} (owned : Owned rest s) : Step rest s s :=
  ⟨owned, Agree.refl _ _, le_refl _, fun _ member _ => member⟩

theorem Step.trans {first second third : CompState} (left : Step rest first second)
    (right : Step rest second third) : Step rest first third :=
  ⟨right.owned, left.agree.trans right.agree, left.fresh.trans right.fresh,
    fun b member other => left.own b (right.own b member other) other⟩

/-- The end of a merge into a list `a` that was allocated for it: the list is put
into its bucket, or given up. -/
private theorem storeNew_spec {s : CompState} {a : Addr} (owned : Owned (refs (some a) + rest) s)
    (sound : Sound hash res (value s)) {name : String} {i : Nat}
    (found : bucketOf hash res (value s) name = some i)
    (holds : ListFor res name (plainAt s.heap a)) {change : LCFGChange} (kept : change ≠ .none) :
    ∃ s' setRc, storeList hash res s i a change = .ok (s', setRc) ∧ setRc.isOk = true ∧
      Owned (refs (some a) + rest) s' ∧
      value s' = (if (value s).resources[i]?.join.isNone then
        grow hash res (put (value s) i (plainAt s.heap a)) else put (value s) i (plainAt s.heap a)) ∧
      Agree (refs (some a) + rest) s.heap s'.heap ∧ s'.heap.fresh = s.heap.fresh ∧
      ∀ b ∈ held s'.comp, b ∈ held s.comp ∨ b = a := by
  have elsewhere : a ∈ refs (some a) + rest := by
    rw [refs_some_add]
    exact Multiset.mem_cons_self a rest
  have wf := owned.wf_rest elsewhere
  obtain ⟨inside, -⟩ := sound.bucketOf_spec found
  rw [value_length] at inside
  have some_ : ResList.isEmpty (s.heap.cell a) = false := by
    rw [Bool.eq_false_iff, ne_eq, listIsEmpty_iff wf]
    exact holds.items_ne
  obtain ⟨s₁, setRc, set_, owned₁, value₁, agree₁, fresh₁, ok, added, cells⟩ :=
    setBucket_value owned inside a (owned.allocated elsewhere) wf
  -- the slot was empty exactly where the bucket is reported as added
  have slot : (value s).resources[i]?.join.isNone = true ↔ setRc = .added := by
    rw [added]
    simp only [value_resources, List.getElem?_map, List.getElem?_eq_getElem inside]
    cases s.comp.resources[i] <;> simp
  -- only a table with one list more is resized
  by_cases isNew : setRc = .added
  · have tabled := (sound.put_spec holds found).1
    rw [← value₁] at tabled
    obtain ⟨s₂, resized, owned₂, value₂, agree₂, fresh₂, from_⟩ := resize_spec owned₁ tabled
    refine ⟨s₂, setRc, ?_, ok, owned₂, ?_, agree₁.trans agree₂, fresh₂.trans fresh₁, ?_⟩
    · simp [storeList, some_, kept, set_, isNew, resized, bind, Except.bind, Except.map]
    · rw [if_pos (slot.mpr isNew), value₂, value₁]
    · exact fun b member => (cells b (from_ b member)).2
  · refine ⟨s₁, setRc, ?_, ok, owned₁, ?_, agree₁, fresh₁, fun b member => (cells b member).2⟩
    · simp [storeList, some_, kept, set_, isNew, bind, Except.bind]
    · rw [if_neg fun empty => isNew (slot.mp empty), value₁]

/-- Merging `f` into the lists of a name does not change a shared list before it fails. -/
def CleanFor (res : Addr → LCFGResource) (rest : Multiset Addr) (s : CompState) (name : String)
    (f : Plain → Plain × LCFGChange) : Prop :=
  ∀ a ∈ held s.comp, a ∈ rest →
    PlainComponent.key res (plainAt s.heap a) = some name → Clean f (plainAt s.heap a)

/-- What a merge into the bucket for a name comes to. A list which others hold too is
cloned, and the clone is dropped if the merge fails: this is the merge of the
values unless a failing merge has changed the list before. -/
theorem mergeBucket_outcome {s : CompState} (owned : Owned rest s) (sound : Sound hash res (value s))
    {merge : LCFGResourceList → Option Message → ResList.MergeResult}
    {f : Plain → Plain × LCFGChange} (does : Does merge f) {name : String}
    (merges : MergesFor res name f) (msg : Option Message) :
    ∃ s' change msg', mergeBucket hash res merge name s msg = .ok (s', change, msg') ∧
      change = (PlainComponent.merge hash res (value s) name f).2 ∧
      (change ≠ .error ∨ CleanFor res rest s name f →
        value s' = (PlainComponent.merge hash res (value s) name f).1) ∧ Step rest s s' := by
  obtain ⟨i, found⟩ := sound.bucketOf_isSome name sound.room
  obtain ⟨inside, content⟩ := sound.bucketOf_spec found
  rw [value_length] at inside
  have searched := findBucket_eq sound.toTabled name
  rw [found] at searched
  have bucket : (value s).resources[i]?.join =
      (s.comp.resources[i]?.join).map (plainAt s.heap) := by
    simp only [value_resources, List.getElem?_map, List.getElem?_eq_getElem inside]
    cases s.comp.resources[i] <;> rfl
  -- merging into a list which was allocated for it
  have intoNew (list : LCFGResourceList) (wf : list.chain.Wf)
      (opened : openList s i = ((RefCount.alloc s.heap list).2, s.heap.fresh, some s.heap.fresh))
      (fits : (f (ResList.plain list)).2 ≠ .error → ListFor res name (f (ResList.plain list)).1) :
      ∃ s' msg', mergeBucket hash res merge name s msg =
          .ok (s', (f (ResList.plain list)).2, msg') ∧ Step rest s s' ∧
        value s' =
          if (f (ResList.plain list)).2 = .error ∨ (f (ResList.plain list)).2 = .none then value s
          else if (value s).resources[i]?.join.isNone then
            grow hash res (put (value s) i (f (ResList.plain list)).1)
          else put (value s) i (f (ResList.plain list)).1 := by
    obtain ⟨wf', same⟩ := does list msg wf
    rcases outcome : merge list msg with ⟨merged, change, msg'⟩
    simp only [outcome] at wf' same
    obtain ⟨owned₁, value₁, plain₁, agree₁, fresh₁, cell, -⟩ := owned.alloc list merged wf'
    have searched₁ : bucketOf hash res (value ⟨RefCount.write (RefCount.alloc s.heap list).2
        s.heap.fresh merged, s.comp⟩) name = some i := by rw [value₁, found]
    rw [← same] at fits ⊢
    dsimp only at fits ⊢
    rw [← plain₁] at fits
    by_cases failed : change = .error
    · obtain ⟨owned₂, value₂, agree₂⟩ := owned₁.relinquish
      refine ⟨_, msg', ?_, ⟨owned₂, ?_, ?_, fun b member _ => member⟩, ?_⟩
      · simp [mergeBucket, searched, opened, cell, outcome, failed, LCFGChange.isOk, bind,
          Except.bind]
      · exact agree₁.trans (agree₂.mono (Multiset.subset_of_le (Multiset.le_add_left _ _)))
      · rw [relinquishList_fresh, fresh₁]
        exact Nat.le_succ _
      · rw [if_pos (.inl failed), value₂, value₁]
    · have ok : change.isOk = true := by simpa [LCFGChange.isOk] using failed
      have wf₁ := owned₁.wf_rest (a := s.heap.fresh) (by simp [refs_some_add])
      have some_ : ResList.isEmpty ((RefCount.write (RefCount.alloc s.heap list).2 s.heap.fresh
          merged).cell s.heap.fresh) = false := by
        rw [Bool.eq_false_iff, ne_eq, listIsEmpty_iff wf₁]
        exact (fits failed).items_ne
      by_cases idle : change = .none
      · obtain ⟨owned₂, value₂, agree₂⟩ := owned₁.relinquish
        refine ⟨_, msg', ?_, ⟨owned₂, ?_, ?_, fun b member _ => member⟩, ?_⟩
        · simp [mergeBucket, searched, opened, cell, outcome, idle, LCFGChange.isOk, storeList,
            some_, bind, Except.bind]
        · exact agree₁.trans (agree₂.mono (Multiset.subset_of_le (Multiset.le_add_left _ _)))
        · rw [relinquishList_fresh, fresh₁]
          exact Nat.le_succ _
        · rw [if_pos (.inr idle), value₂, value₁]
      · obtain ⟨s₂, setRc, stored, setOk, owned₂, value₂, agree₂, fresh₂, from_⟩ :=
          storeNew_spec owned₁ (by rw [value₁]; exact sound) searched₁ (fits failed) idle
        obtain ⟨owned₃, value₃, agree₃⟩ := owned₂.relinquish
        have sub : rest ⊆ refs (some s.heap.fresh) + rest :=
          Multiset.subset_of_le (Multiset.le_add_left _ _)
        refine ⟨_, msg', ?_, ⟨owned₃, ?_, ?_, ?_⟩, ?_⟩
        · simp [mergeBucket, searched, opened, cell, outcome, ok, stored, setOk, bind, Except.bind]
        · exact agree₁.trans ((agree₂.mono sub).trans
            (agree₃.mono (Multiset.subset_of_le (Multiset.le_add_left _ _))))
        · rw [relinquishList_fresh, fresh₂, fresh₁]
          exact Nat.le_succ _
        · intro b member other
          rcases from_ b member with old | new
          · exact old
          · -- the new list is at an address which nobody knew
            have unknown := owned.counts.fresh_notMem
            rw [← new] at unknown
            exact absurd (Multiset.mem_add.mpr (.inr other)) unknown
        · rw [if_neg (not_or.mpr ⟨failed, idle⟩), value₃, value₂, value₁, plain₁]
  cases current : s.comp.resources[i]?.join with
  | none =>
    have absent : lists res (value s) name = none := by
      rw [← content, bucket, current]
      rfl
    obtain ⟨s', msg', run, step, values⟩ := intoNew (emptyList s.comp) LinkedList.empty_wf
      (by simp [openList, current, RefCount.alloc])
      (fun accepted => merges.listFor_new _ _ accepted)
    have empty : ResList.plain (emptyList s.comp) =
      ⟨[], (value s).primaryKey, (value s).mergeRules⟩ := rfl
    rw [empty] at run values
    have slot : (value s).resources[i]?.join = none := by rw [content, absent]
    simp only [PlainComponent.merge, found, slot]
    rw [slot, Option.isNone_none, if_pos rfl] at values
    by_cases failed : (f ⟨[], (value s).primaryKey, (value s).mergeRules⟩).2 = .error
    · rw [if_pos (.inl failed)] at values
      rw [if_pos failed]
      exact ⟨s', _, msg', run, failed, fun _ => values, step⟩
    · -- a first resource is never merged without a change
      have idle : (f ⟨[], (value s).primaryKey, (value s).mergeRules⟩).2 ≠ .none := by
        intro same
        apply merges.items_ne ⟨[], (value s).primaryKey, (value s).mergeRules⟩ (.inr failed)
        rw [merges.none_eq _ same]
      rw [if_neg (not_or.mpr ⟨failed, idle⟩)] at values
      rw [if_neg failed]
      exact ⟨s', _, msg', run, rfl, fun _ => values, step⟩
  | some a =>
    have member := mem_held_of_bucket current
    have slot : (value s).resources[i]?.join = some (plainAt s.heap a) := by rw [bucket, current]; rfl
    have holds : ListFor res name (plainAt s.heap a) := sound.listFor (by rw [← content, slot])
    simp only [PlainComponent.merge, found, slot]
    have wf := owned.wf a (Multiset.mem_add.mpr (.inl member))
    cases shared : RefCount.isShared s.heap a with
    | true =>
      have other := (isShared_iff owned sound.toTabled member).mp shared
      have wfClone := (ResList.clone_spec (s.heap.cell a)).1
      have cloned : ResList.plain (ResList.clone (s.heap.cell a)) = plainAt s.heap a :=
        (ResList.clone_spec (s.heap.cell a)).2
      obtain ⟨s', msg', run, step, values⟩ := intoNew (ResList.clone (s.heap.cell a)) wfClone
        (by simp [openList, current, shared, RefCount.alloc])
        (fun _ => by rw [cloned]; exact merges.listFor holds)
      rw [cloned] at run values
      refine ⟨s', _, msg', run, rfl, fun sure => ?_, step⟩
      rw [values, slot, Option.isNone_some, if_neg Bool.false_ne_true]
      by_cases same : (f (plainAt s.heap a)).1 = plainAt s.heap a
      · rw [same, put_same slot, ite_self]
      · rw [if_neg]
        rintro (failed | idle)
        · rcases sure with ok | clean
          · exact ok failed
          · exact same (clean a member other holds.key_eq failed)
        · exact same (merges.none_eq _ idle)
    | false =>
      obtain ⟨wf', same⟩ := does (s.heap.cell a) msg wf
      rcases outcome : merge (s.heap.cell a) msg with ⟨merged, change, msg'⟩
      simp only [outcome] at wf' same
      obtain ⟨owned₁, value₁, agree₁⟩ := owned.write sound.toTabled current shared merged wf'
      have step : Step rest s ⟨RefCount.write s.heap a merged, s.comp⟩ :=
        ⟨owned₁, agree₁, le_refl _, fun b mem _ => mem⟩
      have opened : openList s i = (s.heap, a, none) := by simp [openList, current, shared]
      have fits := merges.listFor holds
      change ListFor res name (f (ResList.plain (s.heap.cell a))).1 at fits
      rw [← same] at fits
      have written : (RefCount.write s.heap a merged).cell a = merged := by simp [RefCount.write]
      have some_ : ResList.isEmpty merged = false := by
        rw [Bool.eq_false_iff]
        exact fun empty => fits.items_ne (wf'.isEmpty_iff.mp empty)
      have full := List.getElem?_eq_some_iff.mp (Option.join_eq_some_iff.mp current)
      have changed : change = (f (plainAt s.heap a)).2 := congrArg Prod.snd same
      refine ⟨_, change, msg', ?_, changed, fun _ => ?_, step⟩
      · by_cases failed : change = .error
        · simp [mergeBucket, searched, opened, outcome, failed, LCFGChange.isOk, relinquishList,
            bind, Except.bind]
        · have ok : change.isOk = true := by simpa [LCFGChange.isOk] using failed
          -- the list is in its bucket already
          have stored : storeList hash res ⟨RefCount.write s.heap a merged, s.comp⟩ i a change =
              .ok (⟨RefCount.write s.heap a merged, s.comp⟩, .none) := by
            by_cases idle : change = .none
            · simp [storeList, written, some_, idle]
            · simp [storeList, written, some_, idle, setBucket, inside, full.2, bind, Except.bind]
          simp [mergeBucket, searched, opened, outcome, stored, LCFGChange.isOk, relinquishList,
            bind, Except.bind]
      · change _ = put (value s) i (f (ResList.plain (s.heap.cell a))).1
        rw [value₁, ← same]

/-- Spec of a merge into the bucket for a name: it is the merge of the values when a
failing merge has not changed a shared list. -/
theorem mergeBucket_spec {s : CompState} (owned : Owned rest s) (sound : Sound hash res (value s))
    {merge : LCFGResourceList → Option Message → ResList.MergeResult}
    {f : Plain → Plain × LCFGChange} (does : Does merge f) {name : String}
    (merges : MergesFor res name f) (clean : CleanFor res rest s name f) (msg : Option Message) :
    ∃ s' change msg', mergeBucket hash res merge name s msg = .ok (s', change, msg') ∧
      (value s', change) = PlainComponent.merge hash res (value s) name f ∧ Step rest s s' := by
  obtain ⟨s', change, msg', run, changed, values, step⟩ :=
    mergeBucket_outcome owned sound does merges msg
  exact ⟨s', change, msg', run, Prod.ext (values (.inr clean)) changed, step⟩

end Component
end Lcfg
