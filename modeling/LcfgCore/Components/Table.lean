import LcfgCore.Components.Component

/-!
# Components without a heap

A component whose buckets hold the resource lists themselves, with the effect of
each operation on such a table, and the plain map from names to lists which the
table stands for.

## Main results

`Tabled.grow_spec`: growing the table keeps the map. `Sound.merge_spec`: merging
into the bucket for a name updates the map at this name only.
-/
namespace Lcfg

open ResList (Plain)

abbrev PlainComponent := ComponentTable Plain

namespace PlainComponent

open Component (home overloaded wantBuckets)

variable (hash : String → Nat) (res : Addr → LCFGResource)

/-! ### Operations -/

def head (list : Plain) : Option LCFGResource := list.items.head?.map res

/-- The name of the list, which is that of its first resource. -/
def key (list : Plain) : Option String := list.items.head?.bind fun a => (res a).name

def accepts (name : String) (list : Plain) : Bool :=
  (head res list).any fun r => Resource.isMatch r name

def bucketOf (comp : PlainComponent) (name : String) : Option Nat :=
  LinearProbe.probe comp.resources comp.buckets (home hash comp.buckets name) (accepts res name)

def put (comp : PlainComponent) (i : Nat) (list : Plain) : PlainComponent :=
  { comp with
    resources := comp.resources.set i (some list)
    entries := if comp.resources[i]?.join.isNone then comp.entries + 1 else comp.entries }

def insert (comp : PlainComponent) (list : Plain) : PlainComponent :=
  match bucketOf hash res comp ((key res list).getD "") with
  | none => comp
  | some i => put comp i list

def emptied (comp : PlainComponent) (buckets : Nat) : PlainComponent :=
  { comp with resources := List.replicate buckets none, entries := 0, buckets }

def grow (comp : PlainComponent) : PlainComponent :=
  if overloaded comp then
    (LinearProbe.stored comp.resources).foldl (insert hash res)
      (emptied comp (wantBuckets comp.entries))
  else comp

/-- A list for a new name starts empty, and is not kept if nothing can be merged. -/
def merge (comp : PlainComponent) (name : String) (f : Plain → Plain × LCFGChange) :
    PlainComponent × LCFGChange :=
  match bucketOf hash res comp name with
  | none => (comp, .error)
  | some i =>
    match comp.resources[i]?.join with
    | none =>
      let r := f ⟨[], comp.primaryKey, comp.mergeRules⟩
      if r.2 = .error then (comp, .error) else (grow hash res (put comp i r.1), r.2)
    | some list => (put comp i (f list).1, (f list).2)

/-- The map from names to lists. -/
def lists (comp : PlainComponent) : String → Option Plain :=
  LinearProbe.entry comp.resources (key res)

theorem put_same {comp : PlainComponent} {i : Nat} {list : Plain}
    (here : comp.resources[i]?.join = some list) : put comp i list = comp := by
  have full := Option.join_eq_some_iff.mp here
  obtain ⟨inside, entry⟩ := List.getElem?_eq_some_iff.mp full
  have unchanged : comp.resources.set i (some list) = comp.resources := by
    rw [← entry, List.set_getElem_self]
  simp [put, here, unchanged]

/-! ### Well-formed tables -/

/-- Some resources, all of one name. -/
structure ListFor (name : String) (list : Plain) : Prop where
  name_ne : name ≠ ""
  items_ne : list.items ≠ []
  named : ∀ a ∈ list.items, (res a).name = some name

structure Tabled (comp : PlainComponent) : Prop where
  buckets_eq : comp.buckets = comp.resources.length
  pos : 0 < comp.resources.length
  entries_eq : comp.entries = LinearProbe.occupied comp.resources
  named : ∀ list ∈ LinearProbe.stored comp.resources, ∃ name, ListFor res name list
  chained : LinearProbe.Chained comp.resources (home hash comp.resources.length) (key res)

/-- A table as the operations leave it, with buckets to spare. -/
structure Sound (comp : PlainComponent) : Prop extends Tabled hash res comp where
  load : overloaded comp = false

/-- A merge into the lists of one name. -/
structure MergesFor (name : String) (f : Plain → Plain × LCFGChange) : Prop where
  name_ne : name ≠ ""
  named : ∀ list : Plain, (∀ a ∈ list.items, (res a).name = some name) →
    ∀ a ∈ (f list).1.items, (res a).name = some name
  items_ne : ∀ list : Plain, list.items ≠ [] ∨ (f list).2 ≠ .error → (f list).1.items ≠ []
  none_eq : ∀ list : Plain, (f list).2 = .none → (f list).1 = list

variable {hash res}

theorem ListFor.key_eq {name : String} {list : Plain} (holds : ListFor res name list) :
    key res list = some name := by
  cases items : list.items with
  | nil => exact absurd items holds.items_ne
  | cons a rest => simpa [key, items] using holds.named a (by simp [items])

theorem accepts_iff {list : Plain} {name : String} (holds : ∃ name', ListFor res name' list) :
    accepts res name list = true ↔ key res list = some name := by
  obtain ⟨name', holds⟩ := holds
  rw [holds.key_eq, Option.some_inj]
  cases items : list.items with
  | nil => exact absurd items holds.items_ne
  | cons a rest =>
    have first := holds.named a (by simp [items])
    simp [accepts, head, items, Resource.isMatch, first]

theorem MergesFor.listFor {name : String} {f : Plain → Plain × LCFGChange}
    (merges : MergesFor res name f) {list : Plain} (holds : ListFor res name list) :
    ListFor res name (f list).1 :=
  ⟨merges.name_ne, merges.items_ne list (.inl holds.items_ne), merges.named list holds.named⟩

theorem MergesFor.listFor_new {name : String} {f : Plain → Plain × LCFGChange}
    (merges : MergesFor res name f) (primaryKey : LCFGComponentPK) (rules : LCFGMergeRule)
    (accepted : (f ⟨[], primaryKey, rules⟩).2 ≠ .error) :
    ListFor res name (f ⟨[], primaryKey, rules⟩).1 :=
  ⟨merges.name_ne, merges.items_ne _ (.inr accepted), merges.named _ (by simp)⟩

/-- What merging a valid resource can come to. -/
theorem mergeResource_cases (list : Plain) {a : Addr} (valid : Resource.isValid (res a) = true) :
    (list.mergeResource res a = (list, .none) ∧ list.items ≠ []) ∨
      list.mergeResource res a = (list, .error) ∨
      ∃ kept ⊆ list.items, (list.mergeResource res a).1 = { list with items := kept ++ [a] } ∧
        ((list.mergeResource res a).2 = .added ∨ (list.mergeResource res a).2 = .replaced) := by
  have some_ (c : Addr) (found : list.findKey res a = some c) : list.items ≠ [] :=
    List.ne_nil_of_mem (List.mem_of_find?_eq_some found)
  have appended : ∃ kept ⊆ list.items,
      { list with items := list.items ++ [a] } = { list with items := kept ++ [a] } :=
    ⟨list.items, fun _ member => member, rfl⟩
  have erased := fun (p : Addr → Bool) => (List.eraseP_sublist (p := p) (l := list.items)).subset
  unfold Plain.mergeResource
  rw [if_pos valid]
  cases found : list.findKey res a with
  | none =>
    right; right
    simp [ResList.mergeAction, ResList.MergeAction.appendOnly, Plain.applyItems, found]
  | some c =>
    have nonempty := some_ c found
    unfold ResList.mergeAction
    -- each rule either keeps, appends, swaps or refuses
    split
    · exact .inl ⟨by simp [ResList.MergeAction.keep, Plain.applyItems], nonempty⟩
    · dsimp only
      repeat' split
      · right; right
        simp [ResList.MergeAction.swap, Plain.applyItems, found, erased]
      · right; right
        simp [ResList.MergeAction.appendOnly, Plain.applyItems]
      · right; right
        simp [ResList.MergeAction.swap, Plain.applyItems, found, erased]
      · right; right
        simp [ResList.MergeAction.swap, Plain.applyItems, found, erased]
      · exact .inl ⟨by simp [ResList.MergeAction.keep, Plain.applyItems], nonempty⟩
      · right; left
        simp [Plain.applyItems]
      · right; left
        simp [Plain.applyItems]

theorem mergesFor_mergeResource {a : Addr} (valid : Resource.isValid (res a) = true) :
    MergesFor res ((res a).name.getD "") (fun list => list.mergeResource res a) := by
  have name_ne : (res a).name.getD "" ≠ "" := by
    simpa [Resource.isValid, ← isEmpty_iff] using valid
  have name_eq : (res a).name = some ((res a).name.getD "") := by
    cases name : (res a).name with
    | none => simp [name] at name_ne
    | some n => rfl
  refine ⟨name_ne, fun list named => ?_, fun list some_ => ?_, fun list same => ?_⟩
  · rcases mergeResource_cases list valid with ⟨equal, -⟩ | equal | ⟨kept, sub, equal, -⟩
    · rwa [equal]
    · rwa [equal]
    · rw [equal]
      intro b member
      rcases List.mem_append.mp member with old | new
      · exact named b (sub old)
      · rw [List.mem_singleton.mp new]
        exact name_eq
  · rcases mergeResource_cases list valid with ⟨equal, nonempty⟩ | equal | ⟨kept, -, equal, -⟩
    · rwa [equal]
    · rw [equal] at some_ ⊢
      simpa using some_
    · simp [equal]
  · rcases mergeResource_cases list valid with ⟨equal, -⟩ | equal | ⟨kept, -, -, change⟩
    · rw [equal]
    · rw [equal]
    · rw [same] at change
      simp at change

/-- The loop of a list merge, over resources of one name. -/
private theorem mergeItems_spec {name : String} {more : List Addr}
    (valid : ∀ a ∈ more, Resource.isValid (res a) = true ∧ (res a).name = some name)
    (list : Plain) (change : LCFGChange) :
    ((∀ a ∈ list.items, (res a).name = some name) →
      ∀ a ∈ (list.mergeItems res change more).1.items, (res a).name = some name) ∧
    (list.items ≠ [] ∨ (more ≠ [] ∧ (list.mergeItems res change more).2 ≠ .error) →
      (list.mergeItems res change more).1.items ≠ []) ∧
    ((list.mergeItems res change more).2 = .none →
      change = .none ∧ (list.mergeItems res change more).1 = list) := by
  induction more generalizing list change with
  | nil => exact ⟨fun named => named, by simp [Plain.mergeItems], fun same => ⟨same, rfl⟩⟩
  | cons a more ih =>
    obtain ⟨validA, nameA⟩ := valid a (by simp)
    have rest := ih fun b member => valid b (List.mem_cons_of_mem _ member)
    have merges := mergesFor_mergeResource validA
    rw [nameA, Option.getD_some] at merges
    unfold Plain.mergeItems
    rcases outcome : list.mergeResource res a with ⟨list', mergeRc⟩
    have named := merges.named list
    have nonempty := merges.items_ne list
    have unchanged := merges.none_eq list
    simp only [outcome] at named nonempty unchanged
    cases mergeRc with
    | error => exact ⟨named, fun some_ => nonempty (by simpa using some_), by simp⟩
    -- nothing has changed so far
    | none =>
      obtain rfl := unchanged rfl
      obtain ⟨named', nonempty', unchanged'⟩ := rest list' change
      refine ⟨fun start => named' (named start), fun _ => nonempty' (.inl (nonempty ?_)), ?_⟩
      · simp
      · exact unchanged'
    -- any other outcome counts as a change, whatever the later items do
    | _ =>
      obtain ⟨named', nonempty', unchanged'⟩ := rest list' .modified
      refine ⟨fun start => named' (named start), fun _ => nonempty' (.inl (nonempty ?_)), ?_⟩
      · simp
      · intro same
        exact absurd (unchanged' same).1 (by simp)

theorem ListFor.valid {name : String} {list : Plain} (holds : ListFor res name list) :
    ∀ a ∈ list.items, Resource.isValid (res a) = true ∧ (res a).name = some name := by
  intro a member
  have named := holds.named a member
  refine ⟨?_, named⟩
  simpa [Resource.isValid, named, Lcfg.isEmpty] using holds.name_ne

theorem mergesFor_mergeList {name : String} {list2 : Plain} (holds : ListFor res name list2) :
    MergesFor res name (fun list => list.mergeList res list2) := by
  have spec := fun list => mergeItems_spec holds.valid list .none
  refine ⟨holds.name_ne, fun list => (spec list).1, fun list some_ => ?_, fun list same => ?_⟩
  · exact (spec list).2.1 (some_.imp id fun accepted => ⟨holds.items_ne, accepted⟩)
  · exact ((spec list).2.2 same).2

namespace Tabled

variable {comp : PlainComponent}

theorem home_lt (tabled : Tabled hash res comp) (name : String) :
    home hash comp.resources.length name < comp.resources.length :=
  Nat.mod_lt _ tabled.pos

private theorem decides (tabled : Tabled hash res comp) (name : String) :
    ∀ list ∈ LinearProbe.stored comp.resources,
      accepts res name list = true ↔ key res list = some name :=
  fun list member => accepts_iff (tabled.named list member)

/-- The bucket for a name holds its list, or is empty if there is none. -/
theorem bucketOf_spec (tabled : Tabled hash res comp) {name : String} {i : Nat}
    (found : bucketOf hash res comp name = some i) :
    i < comp.resources.length ∧ comp.resources[i]?.join = lists res comp name := by
  unfold bucketOf at found
  rw [tabled.buckets_eq] at found
  have bound := tabled.home_lt name
  exact ⟨LinearProbe.probe_inside _ _ _ bound i found,
    tabled.chained.entry_probe name _ (tabled.decides name) bound i found⟩

theorem bucketOf_isSome (tabled : Tabled hash res comp) (name : String)
    (room : comp.entries < comp.resources.length) :
    ∃ i, bucketOf hash res comp name = some i := by
  rw [tabled.entries_eq] at room
  obtain ⟨j, empty⟩ := LinearProbe.exists_empty comp.resources room
  unfold bucketOf
  rw [tabled.buckets_eq]
  exact LinearProbe.probe_isSome _ _ _ (tabled.home_lt name) j empty

theorem lookup_eq (tabled : Tabled hash res comp) (name : String) :
    LinearProbe.lookup comp.resources comp.buckets (home hash comp.buckets name)
      (accepts res name) = lists res comp name := by
  rw [tabled.buckets_eq]
  exact tabled.chained.lookup_eq_entry name _ (tabled.decides name) (tabled.home_lt name)

theorem listFor (tabled : Tabled hash res comp) {name : String} {list : Plain}
    (found : lists res comp name = some list) : ListFor res name list := by
  obtain ⟨member, same⟩ := LinearProbe.mem_stored_of_entry found
  obtain ⟨name', holds⟩ := tabled.named list member
  rw [holds.key_eq, Option.some_inj] at same
  exact same ▸ holds

/-- Putting a list into the bucket for its name updates the map. -/
theorem put_spec (tabled : Tabled hash res comp) {name : String} {list : Plain}
    (holds : ListFor res name list) {i : Nat} (found : bucketOf hash res comp name = some i) :
    Tabled hash res (put comp i list) ∧
      lists res (put comp i list) = Function.update (lists res comp) name (some list) := by
  obtain ⟨inside, -⟩ := tabled.bucketOf_spec found
  have decides := tabled.decides name
  have bound := tabled.home_lt name
  unfold bucketOf at found
  rw [tabled.buckets_eq] at found
  have size : (put comp i list).resources.length = comp.resources.length := List.length_set
  refine ⟨⟨?_, ?_, ?_, ?_, ?_⟩, ?_⟩
  · rw [size]
    exact tabled.buckets_eq
  · rw [size]
    exact tabled.pos
  · have counted := LinearProbe.occupied_set comp.resources i inside (some list)
    simp only [put, List.getElem?_eq_getElem inside, Option.join_some, tabled.entries_eq]
    cases before : comp.resources[i] with
    | none => simp_all
    | some old => simp_all
  · intro other member
    rcases LinearProbe.mem_stored_set _ _ _ other member with old | same
    · exact tabled.named other old
    · cases same
      exact ⟨name, holds⟩
  · rw [size]
    exact tabled.chained.set_some name _ decides bound i found list holds.key_eq
  · exact tabled.chained.entry_set_some name _ decides bound i found list holds.key_eq

/-! ### Growth -/

theorem emptied_tabled (comp : PlainComponent) {buckets : Nat} (pos : 0 < buckets) :
    Tabled hash res (emptied comp buckets) where
  buckets_eq := List.length_replicate.symm
  pos := by simpa [emptied] using pos
  entries_eq := (LinearProbe.occupied_replicate_none buckets).symm
  named := by simp [emptied, LinearProbe.stored_replicate_none]
  chained := LinearProbe.chained_replicate_none _ _ _

/-- What stays the same while lists are put into a table. -/
structure SameShape (comp comp' : PlainComponent) : Prop where
  name_eq : comp'.name = comp.name
  primaryKey_eq : comp'.primaryKey = comp.primaryKey
  mergeRules_eq : comp'.mergeRules = comp.mergeRules
  buckets_eq : comp'.buckets = comp.buckets

theorem SameShape.trans {first second third : PlainComponent} (left : SameShape first second)
    (right : SameShape second third) : SameShape first third :=
  ⟨right.name_eq.trans left.name_eq, right.primaryKey_eq.trans left.primaryKey_eq,
    right.mergeRules_eq.trans left.mergeRules_eq, right.buckets_eq.trans left.buckets_eq⟩

theorem insert_spec (tabled : Tabled hash res comp) {name : String} {list : Plain}
    (holds : ListFor res name list) (room : comp.entries < comp.resources.length) :
    Tabled hash res (insert hash res comp list) ∧ SameShape comp (insert hash res comp list) ∧
      (insert hash res comp list).entries ≤ comp.entries + 1 ∧
      lists res (insert hash res comp list) =
        Function.update (lists res comp) name (some list) := by
  obtain ⟨i, found⟩ := tabled.bucketOf_isSome name room
  obtain ⟨good, updated⟩ := tabled.put_spec holds found
  have step : insert hash res comp list = put comp i list := by
    simp only [insert, holds.key_eq, Option.getD_some, found]
  rw [step]
  refine ⟨good, ⟨rfl, rfl, rfl, rfl⟩, ?_, updated⟩
  unfold put
  dsimp only
  split <;> omega

/-- Run lemma: lists of different names go into a table with enough room. -/
theorem insertAll_spec (tabled : Tabled hash res comp) (more : List Plain)
    (named : ∀ list ∈ more, ∃ name, ListFor res name list)
    (distinct : more.Pairwise fun a b => key res a ≠ key res b)
    (room : comp.entries + more.length ≤ comp.resources.length) :
    let filled := more.foldl (insert hash res) comp
    Tabled hash res filled ∧ SameShape comp filled ∧
      filled.entries ≤ comp.entries + more.length ∧
      ∀ name, lists res filled name =
        (more.find? fun list => key res list = some name).or (lists res comp name) := by
  induction more generalizing comp with
  | nil => exact ⟨tabled, ⟨rfl, rfl, rfl, rfl⟩, le_refl _, fun name => by simp⟩
  | cons list more ih =>
    obtain ⟨name, holds⟩ := named list (by simp)
    rw [List.length_cons] at room
    obtain ⟨good, shape, count, updated⟩ := tabled.insert_spec holds (by omega)
    have size : (insert hash res comp list).resources.length = comp.resources.length := by
      rw [← good.buckets_eq, shape.buckets_eq, tabled.buckets_eq]
    rw [List.pairwise_cons] at distinct
    obtain ⟨good', shape', count', content⟩ := ih good
      (fun other member => named other (List.mem_cons_of_mem _ member)) distinct.2
      (by rw [size]; omega)
    refine ⟨good', shape.trans shape', ?_, fun k => ?_⟩
    · rw [List.length_cons]
      exact count'.trans (by omega)
    · rw [List.foldl_cons, content k, updated]
      by_cases same : k = name
      · subst k
        -- no later list has the name of this one
        have unique : more.find? (fun other => key res other = some name) = none := by
          refine List.find?_eq_none.mpr fun other member equal => ?_
          have later : key res other = some name := by simpa using equal
          exact distinct.1 other member (holds.key_eq.trans later.symm)
        simp [unique, holds.key_eq]
      · have other : key res list ≠ some k := by
          rw [holds.key_eq]
          exact fun equal => same (Option.some.inj equal).symm
        simp [Function.update_of_ne same, other]

/-- Growing a table keeps its lists, and leaves buckets to spare. -/
theorem grow_spec (tabled : Tabled hash res comp) :
    Sound hash res (grow hash res comp) ∧ lists res (grow hash res comp) = lists res comp ∧
      (grow hash res comp).name = comp.name ∧
      (grow hash res comp).primaryKey = comp.primaryKey ∧
      (grow hash res comp).mergeRules = comp.mergeRules := by
  unfold grow
  cases heavy : overloaded comp with
  | false => exact ⟨⟨tabled, heavy⟩, rfl, rfl, rfl, rfl⟩
  | true =>
    have count : (LinearProbe.stored comp.resources).length = comp.entries := by
      rw [LinearProbe.length_stored, tabled.entries_eq]
    have start : Tabled hash res (emptied comp (wantBuckets comp.entries)) :=
      emptied_tabled comp (by simp [wantBuckets])
    obtain ⟨good, shape, filled, content⟩ := start.insertAll_spec
      (LinearProbe.stored comp.resources) tabled.named tabled.chained.pairwise
      (by simp [emptied, count, wantBuckets]; omega)
    refine ⟨⟨good, ?_⟩, ?_, shape.name_eq, shape.primaryKey_eq, shape.mergeRules_eq⟩
    · have buckets := shape.buckets_eq
      simp only [emptied, wantBuckets, count, overloaded, decide_eq_false_iff_not] at filled buckets ⊢
      simp only [if_true, buckets]
      omega
    · funext name
      have nothing : lists res (emptied comp (wantBuckets comp.entries)) name = none := by
        rw [lists, emptied, LinearProbe.entry_replicate_none]
      rw [if_pos rfl, content name, nothing, Option.or_none]
      rfl

end Tabled

namespace Sound

variable {comp : PlainComponent}

theorem room (sound : Sound hash res comp) : comp.entries < comp.resources.length := by
  have load := sound.load
  have pos := sound.pos
  simp only [overloaded, decide_eq_false_iff_not, sound.buckets_eq] at load
  omega

end Sound

/-! ### The plain map -/

/-- A component as a map from the names to their lists. -/
structure MapComponent where
  name : Option String
  primaryKey : LCFGComponentPK
  mergeRules : LCFGMergeRule
  lists : String → Option Plain

/-- Merges into the list for a name. A first list for a name is not kept if
nothing could be merged into it. -/
def MapComponent.merge (comp : MapComponent) (name : String) (f : Plain → Plain × LCFGChange) :
    MapComponent × LCFGChange :=
  let r := f ((comp.lists name).getD ⟨[], comp.primaryKey, comp.mergeRules⟩)
  if comp.lists name = none ∧ r.2 = .error then (comp, .error)
  else ({ comp with lists := Function.update comp.lists name (some r.1) }, r.2)

def toMap (res : Addr → LCFGResource) (comp : PlainComponent) : MapComponent :=
  ⟨comp.name, comp.primaryKey, comp.mergeRules, lists res comp⟩

@[simp] theorem toMap_name (comp : PlainComponent) : (toMap res comp).name = comp.name := rfl

@[simp] theorem toMap_primaryKey (comp : PlainComponent) :
    (toMap res comp).primaryKey = comp.primaryKey := rfl

@[simp] theorem toMap_mergeRules (comp : PlainComponent) :
    (toMap res comp).mergeRules = comp.mergeRules := rfl

@[simp] theorem toMap_lists (comp : PlainComponent) :
    (toMap res comp).lists = lists res comp := rfl

/-- A merge keeps the table well formed and is the merge into the map. -/
theorem Sound.merge_spec {comp : PlainComponent} (sound : Sound hash res comp) {name : String}
    {f : Plain → Plain × LCFGChange} (merges : MergesFor res name f) :
    Sound hash res (merge hash res comp name f).1 ∧
      (toMap res (merge hash res comp name f).1, (merge hash res comp name f).2) =
        (toMap res comp).merge name f := by
  obtain ⟨i, found⟩ := sound.bucketOf_isSome name sound.room
  obtain ⟨inside, holds⟩ := sound.bucketOf_spec found
  cases current : lists res comp name with
  -- a new list: it is put into the table unless the merge fails
  | none =>
    rw [current] at holds
    simp only [merge, MapComponent.merge, found, holds, toMap_lists, toMap_primaryKey,
      toMap_mergeRules, current, Option.getD_none, true_and]
    by_cases refused : (f ⟨[], comp.primaryKey, comp.mergeRules⟩).2 = .error
    · rw [if_pos refused, if_pos refused]
      exact ⟨sound, rfl⟩
    · rw [if_neg refused, if_neg refused]
      have fits := merges.listFor_new comp.primaryKey comp.mergeRules refused
      obtain ⟨good, updated⟩ := sound.put_spec fits found
      obtain ⟨good', same, named, keyed, ruled⟩ := good.grow_spec
      refine ⟨good', ?_⟩
      simp only [toMap, same, updated, named, keyed, ruled]
      rfl
  | some list =>
    rw [current] at holds
    simp only [merge, MapComponent.merge, found, holds, toMap_lists, current, Option.getD_some,
      reduceCtorEq, false_and, if_false]
    have fits := merges.listFor (sound.listFor current)
    obtain ⟨good, updated⟩ := sound.put_spec fits found
    refine ⟨⟨good, ?_⟩, ?_⟩
    · -- no bucket was filled
      have load := sound.load
      simp only [overloaded, put, holds] at load ⊢
      exact load
    · simp only [toMap, updated]
      rfl

end PlainComponent
end Lcfg
