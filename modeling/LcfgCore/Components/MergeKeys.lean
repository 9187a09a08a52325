import LcfgCore.Library.KeepBest
import LcfgCore.Components.MergeReport

/-!
# The keys of merged resources

What a merge of a resource into a component keeps (`component.c`, `reslist.c`): everything
where it fails, and the uniqueness of the keys where the rules do not keep all resources.

## Main result

`merges_post`: both of these, and that with priorities only the resources with the greatest
priority for their key are left, whatever the order in which they are merged.
-/
namespace Lcfg

open ResList (Plain)

namespace ResList

/-- The fields of a resource which the primary key of a component selects. -/
structure ResKey where
  name : String
  ctx : Option String
deriving DecidableEq, Repr

def keyOf (primaryKey : LCFGComponentPK) (r : LCFGResource) : ResKey where
  name := r.name.getD ""
  ctx := if primaryKey.ctx then some (r.context.getD "") else none

theorem sameKey_iff (primaryKey : LCFGComponentPK) (new cur : LCFGResource) :
    sameKey primaryKey new cur = true ↔ keyOf primaryKey cur = keyOf primaryKey new := by
  simp only [sameKey, Resource.sameName, Resource.compareNames, Resource.sameContext, keyOf,
    orDefault_empty, strcmp_eq_zero, Bool.and_eq_true, decide_eq_true_eq, Bool.or_eq_true,
    Bool.not_eq_true', ResKey.mk.injEq]
  refine and_congr_right fun _ => ?_
  cases primaryKey.ctx <;> simp

end ResList

/-! ### One list -/

namespace ResList.Plain

variable {res : Addr → LCFGResource}

theorem findKey_eq_find (list : Plain) (new : Addr) : list.findKey res new =
    list.items.find? fun a => keyOf list.primaryKey (res a) = keyOf list.primaryKey (res new) := by
  rw [findKey]
  congr 1
  funext a
  rw [Bool.eq_iff_iff, sameKey_iff, decide_eq_true_eq]

/-- What a merge does to the list: nothing, or it appends the resource where there is none
with its key, or everything is kept, or it replaces the one with its key. -/
theorem mergeResource_effect (list : Plain) (new : Addr) :
    (list.mergeResource res new).1 = list ∨
      (list.mergeResource res new).2 ≠ .error ∧
        ((list.findKey res new = none ∨ list.mergeRules.keepAll = true) ∧
            (list.mergeResource res new).1 = { list with items := list.items ++ [new] } ∨
          (list.mergeResource res new).1 = { list with
            items := list.items.eraseP (fun a =>
              keyOf list.primaryKey (res a) = keyOf list.primaryKey (res new)) ++ [new] }) := by
  have samePred : (fun a => sameKey list.primaryKey (res new) (res a)) =
      fun a => decide (keyOf list.primaryKey (res a) = keyOf list.primaryKey (res new)) := by
    funext a
    rw [Bool.eq_iff_iff, sameKey_iff, decide_eq_true_eq]
  unfold mergeResource
  split
  case isFalse => exact Or.inl rfl
  case isTrue =>
    unfold applyItems
    rw [samePred]
    cases found : list.findKey res new with
    | none => simp [mergeAction, MergeAction.appendOnly]
    | some c =>
      unfold mergeAction
      split
      · simp [MergeAction.keep]
      · dsimp only
        -- each rule either keeps, appends, swaps or refuses
        split
        · simp [MergeAction.swap]
        · split
          case isTrue all => simp [MergeAction.appendOnly, all]
          case isFalse =>
            repeat' split
            all_goals simp_all [MergeAction.swap, MergeAction.keep]

/-- Where a resource cannot be merged the list stays the same. -/
theorem mergeResource_error (list : Plain) (new : Addr)
    (failed : (list.mergeResource res new).2 = .error) : (list.mergeResource res new).1 = list := by
  rcases @mergeResource_effect res list new with same | ⟨ok, -⟩
  · exact same
  · exact absurd failed ok

/-- No two resources in the list have the same key, and the rules see to it. -/
structure Keyed (res : Addr → LCFGResource) (primaryKey : LCFGComponentPK) (list : Plain) :
    Prop where
  keepAll : list.mergeRules.keepAll = false
  key_eq : list.primaryKey = primaryKey
  unique : (list.items.map fun a => keyOf primaryKey (res a)).Nodup

variable {primaryKey : LCFGComponentPK} {list : Plain} (keyed : Keyed res primaryKey list)
include keyed

theorem Keyed.mergeResource (new : Addr) : Keyed res primaryKey (list.mergeResource res new).1 := by
  obtain ⟨keepAll, rfl, unique⟩ := keyed
  rcases @mergeResource_effect res list new with
    same | ⟨-, ⟨free | all, appended⟩ | replaced⟩
  · rw [same]
    exact ⟨keepAll, rfl, unique⟩
  · rw [appended]
    refine ⟨keepAll, rfl, KeepBest.unique_append unique ?_⟩
    rw [findKey_eq_find] at free
    simpa using free
  · rw [keepAll] at all
    cases all
  · rw [replaced]
    refine ⟨keepAll, rfl, KeepBest.unique_append ?_ (KeepBest.key_erased unique new)⟩
    exact unique.sublist (List.eraseP_sublist.map _)

theorem Keyed.mergeItems (change : LCFGChange) (more : List Addr) :
    Keyed res primaryKey (list.mergeItems res change more).1 := by
  induction more generalizing list change with
  | nil => exact keyed
  | cons a more ih =>
    have next := keyed.mergeResource a
    rw [Plain.mergeItems]
    rcases outcome : list.mergeResource res a with ⟨list', mergeRc⟩
    rw [outcome] at next
    cases mergeRc with
    | error => exact next
    | _ => exact ih next _

end ResList.Plain

/-! ### Priorities -/

/-- Resources with the same key have different priorities. -/
def DistinctPriorities (res : Addr → LCFGResource) (primaryKey : LCFGComponentPK)
    (resources : List Addr) : Prop :=
  resources.Pairwise fun a b =>
    ResList.keyOf primaryKey (res a) = ResList.keyOf primaryKey (res b) →
      (res a).priority ≠ (res b).priority

instance (res : Addr → LCFGResource) (primaryKey : LCFGComponentPK) (resources : List Addr) :
    Decidable (DistinctPriorities res primaryKey resources) :=
  inferInstanceAs (Decidable (List.Pairwise _ _))

def comparePriorities (res : Addr → LCFGResource) (a b : Addr) : Int :=
  (res a).priority - (res b).priority

theorem comparePriorities_preorder (res : Addr → LCFGResource) :
    QSort.Preorder (comparePriorities res) :=
  QSort.preorder_sub.comap fun a => (res a).priority

/-- The merge takes the resource with the greater priority. -/
theorem ResList.Plain.mergeResource_offer {res : Addr → LCFGResource} {list : Plain} {new : Addr}
    (rules : list.mergeRules = { usePriority := true })
    (valid : Resource.isValid (res new) = true)
    (differ : ∀ cur ∈ list.items, keyOf list.primaryKey (res cur) = keyOf list.primaryKey (res new) →
      (res cur).priority ≠ (res new).priority) :
    (list.mergeResource res new).1 = { list with
        items := KeepBest.offer (fun a => keyOf list.primaryKey (res a)) (comparePriorities res)
          list.items new } ∧ (list.mergeResource res new).2 ≠ .error := by
  have samePred : (fun a => sameKey list.primaryKey (res new) (res a)) =
      fun a => decide (keyOf list.primaryKey (res a) = keyOf list.primaryKey (res new)) := by
    funext a
    rw [Bool.eq_iff_iff, sameKey_iff, decide_eq_true_eq]
  unfold Plain.mergeResource applyItems KeepBest.offer
  rw [if_pos valid, samePred, ← findKey_eq_find, rules]
  cases found : list.findKey res new with
  | none => simp [mergeAction, MergeAction.appendOnly]
  | some cur =>
    rw [findKey_eq_find] at found
    have member := List.mem_of_find?_eq_some found
    have same : keyOf list.primaryKey (res cur) = keyOf list.primaryKey (res new) := by
      simpa using List.find?_some found
    -- the priorities of equal keys differ, so that the new resource is not the one held
    have other : cur ≠ new := fun equal => differ cur member same (by rw [equal])
    simp only [mergeAction, Option.some.injEq, other, if_false, Bool.false_and, Bool.false_eq_true,
      if_true, comparePriorities]
    rcases lt_trichotomy (res cur).priority (res new).priority with greater | tied | less
    · have := Int.sub_pos.mpr greater
      simp [greater, MergeAction.swap]
    · exact absurd tied (differ cur member same)
    · have := not_lt.mpr less.le
      simp [less, this, MergeAction.keep, ← rules]

/-! ### Maps of lists -/

namespace PlainComponent.MapComponent

variable {res : Addr → LCFGResource} {primaryKey : LCFGComponentPK} {comp : MapComponent}

/-- No list of the component has two resources with the same key. -/
structure Keyed (res : Addr → LCFGResource) (primaryKey : LCFGComponentPK)
    (comp : MapComponent) : Prop where
  keepAll : comp.mergeRules.keepAll = false
  key_eq : comp.primaryKey = primaryKey
  lists : ∀ name, ∀ list ∈ comp.lists name, Plain.Keyed res primaryKey list

theorem Keyed.merge (keyed : Keyed res primaryKey comp) (name : String)
    {f : Plain → Plain × LCFGChange}
    (keeps : ∀ list, Plain.Keyed res primaryKey list → Plain.Keyed res primaryKey (f list).1) :
    Keyed res primaryKey (comp.merge name f).1 := by
  have opened : Plain.Keyed res primaryKey
      ((comp.lists name).getD ⟨[], comp.primaryKey, comp.mergeRules⟩) := by
    cases found : comp.lists name with
    | none => exact ⟨keyed.keepAll, keyed.key_eq, List.nodup_nil⟩
    | some list => exact keyed.lists name list found
  unfold MapComponent.merge
  dsimp only
  split
  · exact keyed
  · refine ⟨keyed.keepAll, keyed.key_eq, fun other list found => ?_⟩
    dsimp only at found
    by_cases same : other = name
    · rw [same, Function.update_self, Option.mem_some_iff] at found
      exact found ▸ keeps _ opened
    · rw [Function.update_of_ne same] at found
      exact keyed.lists other list found

theorem Keyed.mergeResource (keyed : Keyed res primaryKey comp) (resource : Option Addr) :
    Keyed res primaryKey (comp.mergeResource res resource).1 := by
  unfold MapComponent.mergeResource
  split
  · exact keyed
  · exact keyed.merge _ fun list here => here.mergeResource _

theorem Keyed.mergeAll (keyed : Keyed res primaryKey comp) (change : LCFGChange)
    (order : List (String × Plain)) : Keyed res primaryKey (comp.mergeAll res change order).1 := by
  induction order generalizing comp change with
  | nil => exact keyed
  | cons p order ih =>
    have next := keyed.merge p.1 fun list here => here.mergeItems .none p.2.items
    rw [MapComponent.mergeAll]
    split
    · exact next
    · exact ih next _

/-- With priorities only, the map after `seen` has been merged into an empty component. -/
structure Best (res : Addr → LCFGResource) (primaryKey : LCFGComponentPK) (seen : List Addr)
    (comp : MapComponent) : Prop where
  key_eq : ∀ name, (comp.opened name).primaryKey = primaryKey
  rules : ∀ name, (comp.opened name).mergeRules = { usePriority := true }
  holds : ∀ name, KeepBest.Holds (fun a => ResList.keyOf primaryKey (res a))
    (comparePriorities res) (seen.filter fun a => (res a).name = some name) (comp.opened name).items

/-- A further resource is merged without an error. -/
theorem Best.mergeResource {seen : List Addr} (best : Best res primaryKey seen comp) {new : Addr}
    (valid : Resource.isValid (res new) = true)
    (differ : ∀ a ∈ seen, ResList.keyOf primaryKey (res a) = ResList.keyOf primaryKey (res new) →
      (res a).priority ≠ (res new).priority) :
    (comp.mergeResource res (some new)).2 ≠ .error ∧
      Best res primaryKey (seen ++ [new]) (comp.mergeResource res (some new)).1 := by
  obtain ⟨n, named⟩ : ∃ n, (res new).name = some n := by
    cases name : (res new).name with
    | none => simp [Resource.isValid, Lcfg.isEmpty, name] at valid
    | some n => exact ⟨n, rfl⟩
  have merged : comp.mergeResource res (some new) =
      comp.merge n fun list => list.mergeResource res new := by
    rw [MapComponent.mergeResource, Option.filter_some, if_pos valid]
    simp [named]
  obtain ⟨offered, ok⟩ := ResList.Plain.mergeResource_offer (best.rules n) valid
    fun cur member same => by
      rw [best.key_eq] at same
      exact differ cur (List.mem_of_mem_filter ((best.holds n).among cur member)) same
  rw [merged]
  have change := comp.merge_change n fun list => list.mergeResource res new
  have here := comp.merge_lists_self n (fun list => list.mergeResource res new) ok
  refine ⟨by rwa [change], ?_⟩
  -- the list for the name has taken the offer, all others are as before
  have self : (comp.merge n fun list => list.mergeResource res new).1.opened n =
      ((comp.opened n).mergeResource res new).1 := by
    rw [opened, here, Option.getD_some]
  have others (name : String) (other : name ≠ n) :
      (comp.merge n fun list => list.mergeResource res new).1.opened name = comp.opened name :=
    (merge_opened_of_ne other _).1
  rw [offered] at self
  refine ⟨fun name => ?_, fun name => ?_, fun name => ?_⟩
  · by_cases same : name = n
    · rw [same, self]
      exact best.key_eq n
    · rw [others name same]
      exact best.key_eq name
  · by_cases same : name = n
    · rw [same, self]
      exact best.rules n
    · rw [others name same]
      exact best.rules name
  · rw [List.filter_append]
    by_cases same : name = n
    · subst name
      rw [self, List.filter_singleton, named]
      have next := (best.holds n).offer (comparePriorities_preorder res) new
      rw [best.key_eq n]
      simpa using next
    · rw [others name same, List.filter_singleton, named]
      have apart : ¬n = name := fun equal => same equal.symm
      simpa [apart] using best.holds name

end PlainComponent.MapComponent

/-- A merge into one list which changes nothing before it fails. -/
theorem PlainComponent.merge_error {hash : String → Nat} {res : Addr → LCFGResource}
    {comp : PlainComponent} {name : String} {f : Plain → Plain × LCFGChange}
    (clean : ∀ list, (f list).2 = .error → (f list).1 = list)
    (failed : (merge hash res comp name f).2 = .error) : (merge hash res comp name f).1 = comp := by
  unfold merge at failed ⊢
  split
  next => rfl
  next i found =>
    rw [found] at failed
    dsimp only at failed
    split
    next empty =>
      rw [empty] at failed
      dsimp only at failed ⊢
      split
      · rfl
      next ok =>
        rw [if_neg ok] at failed
        exact absurd failed ok
    next list here =>
      rw [here] at failed
      dsimp only at failed ⊢
      rw [clean list failed]
      exact put_same here

namespace Component

open PlainComponent (Tabled Sound MapComponent toMap lists)

/-! ### Runs -/

section Runs

variable {ι : Type} [DecidableEq ι] {hash : String → Nat} {res : Addr → LCFGResource}
  {primaryKey : LCFGComponentPK}

theorem MapStep.keyed {maps maps' : ι → MapComponent} {op : Operation ι} {change : LCFGChange}
    (step : MapStep res maps op maps' change) {i : ι}
    (keyed : MapComponent.Keyed res primaryKey (maps i)) :
    MapComponent.Keyed res primaryKey (maps' i) := by
  have updated (j : ι) (next : MapComponent)
      (here : i = j → MapComponent.Keyed res primaryKey next) :
      MapComponent.Keyed res primaryKey (Function.update maps j next i) := by
    by_cases same : i = j
    · subst same
      rw [Function.update_self]
      exact here rfl
    · rw [Function.update_of_ne same]
      exact keyed
  cases step with
  | mergeResource j resource =>
    apply updated
    rintro rfl
    exact keyed.mergeResource resource
  | mergeSelf j => exact keyed
  | mergeComponent j k different order all =>
    apply updated
    rintro rfl
    exact keyed.mergeAll .none order
  | removeAllResources j =>
    apply updated
    rintro rfl
    exact ⟨keyed.keepAll, keyed.key_eq, by simp⟩

theorem MapRun.keyed {maps maps' : ι → MapComponent} {ops : List (Operation ι)}
    {changes : List LCFGChange} (run : MapRun res maps ops maps' changes) {i : ι}
    (keyed : MapComponent.Keyed res primaryKey (maps i)) :
    MapComponent.Keyed res primaryKey (maps' i) := by
  induction run with
  | nil maps => exact keyed
  | cons step _ ih => exact ih (step.keyed keyed)

end Runs

variable {hash : String → Nat} {res : Addr → LCFGResource} {rest : Multiset Addr}

/-- No list of the component has two resources with the same key, and the rules do not keep
all resources. -/
structure UniqueKeys (res : Addr → LCFGResource) (s : CompState) : Prop where
  keepAll : s.comp.mergeRules.keepAll = false
  lists : ∀ a ∈ held s.comp, Plain.Keyed res s.comp.primaryKey (plainAt s.heap a)

theorem uniqueKeys_iff {s : CompState} (tabled : Tabled hash res (value s)) :
    UniqueKeys res s ↔ MapComponent.Keyed res s.comp.primaryKey (toMap res (value s)) := by
  constructor
  · intro unique
    refine ⟨unique.keepAll, rfl, fun name list found => ?_⟩
    have stored := (LinearProbe.mem_stored_of_entry found).1
    rw [stored_value] at stored
    obtain ⟨a, member, rfl⟩ := List.mem_map.mp stored
    exact unique.lists a (mem_held.mpr member)
  · intro keyed
    refine ⟨keyed.keepAll, fun a member => ?_⟩
    have stored : plainAt s.heap a ∈ LinearProbe.stored (value s).resources := by
      rw [stored_value]
      exact List.mem_map_of_mem (mem_held.mp member)
    obtain ⟨name, holds⟩ := tabled.named _ stored
    exact keyed.lists name _ ((tabled.chained.entry_eq_some_iff name _).mpr ⟨stored, holds.key_eq⟩)

theorem new_best (header : Header) (rules : header.mergeRules = { usePriority := true }) :
    MapComponent.Best res header.primaryKey [] (emptyMaps (fun _ : Unit => header) ()) where
  key_eq _ := rfl
  rules _ := rules
  holds _ := KeepBest.holds_nil

/-- Merging resources one after the other, with priorities only. -/
theorem MapRun.best {primaryKey : LCFGComponentPK} {maps maps' : Unit → MapComponent}
    {seen more : List Addr} {changes : List LCFGChange}
    (run : MapRun res maps (more.map fun a => .mergeResource () (some a)) maps' changes)
    (best : MapComponent.Best res primaryKey seen (maps ()))
    (valid : ∀ a ∈ more, Resource.isValid (res a) = true)
    (distinct : DistinctPriorities res primaryKey (seen ++ more)) :
    (∀ change ∈ changes, change ≠ .error) ∧
      MapComponent.Best res primaryKey (seen ++ more) (maps' ()) := by
  induction more generalizing seen maps changes with
  | nil =>
    cases run
    exact ⟨by simp, by simpa using best⟩
  | cons a more ih =>
    rw [List.forall_mem_cons] at valid
    have differ := (List.pairwise_append.mp distinct).2.2
    obtain ⟨ok, next⟩ := best.mergeResource valid.1 fun b member same =>
      differ b member a List.mem_cons_self same
    rw [List.append_cons] at distinct ⊢
    cases run with
    | cons step rest =>
      cases step with
      | mergeResource =>
        obtain ⟨later, final⟩ := ih rest (by rwa [Function.update_self]) valid.2 distinct
        exact ⟨by rw [List.forall_mem_cons]; exact ⟨ok, later⟩, final⟩

/-- All resources of a component, bucket by bucket. -/
def resourcesOf (s : CompState) : List Addr :=
  (LinearProbe.stored s.comp.resources).flatMap fun a => ResList.items (s.heap.cell a)

theorem resourcesOf_eq (s : CompState) :
    resourcesOf s = (LinearProbe.stored (value s).resources).flatMap Plain.items := by
  rw [stored_value, List.flatMap_map]
  rfl

section Tables

variable {s : CompState} (tabled : Tabled hash res (value s))
include tabled

theorem mem_resourcesOf (a : Addr) :
    a ∈ resourcesOf s ↔ ∃ name, a ∈ ((toMap res (value s)).opened name).items := by
  rw [resourcesOf_eq, List.mem_flatMap]
  constructor
  · rintro ⟨list, stored, member⟩
    obtain ⟨name, holds⟩ := tabled.named list stored
    have found := (tabled.chained.entry_eq_some_iff name list).mpr ⟨stored, holds.key_eq⟩
    refine ⟨name, ?_⟩
    rw [MapComponent.opened, PlainComponent.toMap_lists, PlainComponent.lists, found]
    exact member
  · rintro ⟨name, member⟩
    rw [MapComponent.opened, PlainComponent.toMap_lists] at member
    cases found : lists res (value s) name with
    | none => simp [found] at member
    | some list =>
      rw [found] at member
      exact ⟨list, (LinearProbe.mem_stored_of_entry found).1, member⟩

/-- The lists have different names, so that a key is in one of them only. -/
theorem resourcesOf_nodup {primaryKey : LCFGComponentPK}
    (unique : ∀ name, (((toMap res (value s)).opened name).items.map fun r =>
      ResList.keyOf primaryKey (res r)).Nodup) :
    ((resourcesOf s).map fun r => ResList.keyOf primaryKey (res r)).Nodup := by
  rw [resourcesOf_eq, List.map_flatMap, List.nodup_flatMap]
  constructor
  · intro list stored
    obtain ⟨name, holds⟩ := tabled.named list stored
    have found := (tabled.chained.entry_eq_some_iff name list).mpr ⟨stored, holds.key_eq⟩
    have here := unique name
    rw [MapComponent.opened, PlainComponent.toMap_lists, PlainComponent.lists, found] at here
    exact here
  · refine tabled.chained.pairwise.imp_of_mem fun {list list'} stored stored' differ => ?_
    obtain ⟨name, holds⟩ := tabled.named list stored
    obtain ⟨name', holds'⟩ := tabled.named list' stored'
    rw [Function.onFun, List.disjoint_left]
    intro key inList inList'
    obtain ⟨a, member, rfl⟩ := List.mem_map.mp inList
    obtain ⟨b, member', same⟩ := List.mem_map.mp inList'
    have names := congrArg ResList.ResKey.name same
    simp only [ResList.keyOf, holds.named a member, holds'.named b member', Option.getD_some] at names
    exact differ (by rw [holds.key_eq, holds'.key_eq, names])

end Tables

/-- Merging a resource: a failure changes nothing, and the keys stay unique where the rules do
not keep all resources. Lists which others hold too are left alone in any case. -/
theorem mergeResource_post {s : CompState} (owned : Owned rest s)
    (sound : Sound hash res (value s)) (resource : Option Addr) (msg : Option Message) :
    ∃ s' change msg', mergeResource hash res s resource msg = .ok (s', change, msg') ∧
      Step rest s s' ∧ Sound hash res (value s') ∧
      (change = .error → value s' = value s) ∧ (UniqueKeys res s → UniqueKeys res s') := by
  obtain ⟨s', change, msg', run, values, step⟩ := mergeResource_spec owned sound resource
    (fun a _ _ r _ _ => Plain.mergeResource_error (plainAt s.heap a) r) msg
  obtain ⟨sound', map⟩ := sound.mergeResource_spec resource
  rw [← values] at sound' map
  refine ⟨s', change, msg', run, step, sound', fun failed => ?_, fun unique => ?_⟩
  · rw [failed] at values
    have unchanged : (PlainComponent.mergeResource hash res (value s) resource).1 = value s := by
      have outcome := congrArg Prod.snd values
      unfold PlainComponent.mergeResource at outcome ⊢
      split at outcome
      · rfl
      next r accepted =>
        exact PlainComponent.merge_error (fun list => Plain.mergeResource_error list r) outcome.symm
    exact (congrArg Prod.fst values).trans unchanged
  · have keyed := ((uniqueKeys_iff sound.toTabled).mp unique).mergeResource resource
    rw [← map] at keyed
    refine (uniqueKeys_iff sound'.toTabled).mpr ?_
    rw [show s'.comp.primaryKey = s.comp.primaryKey from keyed.key_eq]
    exact keyed

/-- What holds after merges of resources into components, with any hash:

- in every state a merge which fails leaves all lists as they were, those of others too, and
  otherwise without `LCFG_MERGE_RULE_KEEP_ALL` no list gets two resources with one key,
- so after any sequence of merges no list has them,
- with `LCFG_MERGE_RULE_USE_PRIORITY` alone, resources of which no two have the same key and
  the same priority may be merged into an empty component in any order: no merge fails, and
  for each key the one with the greatest priority is left. -/
theorem merges_post (hash : String → Nat) (res : Addr → LCFGResource) :
    (∀ (rest : Multiset Addr) (s : CompState), Owned rest s → Sound hash res (value s) →
      ∀ (resource : Option Addr) (msg : Option Message), ∃ s' change msg',
        mergeResource hash res s resource msg = .ok (s', change, msg') ∧
        Step rest s s' ∧ Sound hash res (value s') ∧
        (change = .error → value s' = value s) ∧ (UniqueKeys res s → UniqueKeys res s')) ∧
    (∀ (ι : Type) [Fintype ι] [DecidableEq ι] (headers : ι → Header) (ops : List (Operation ι)),
      ∃ w changes, (Family.new headers).run hash res ops = .ok (w, changes) ∧
        ∀ i, (headers i).mergeRules.keepAll = false → UniqueKeys res (w.state i)) ∧
    ∀ (header : Header) (resources order : List Addr),
      header.mergeRules = { usePriority := true } →
      (∀ a ∈ resources, Resource.isValid (res a) = true) →
      DistinctPriorities res header.primaryKey resources → order.Perm resources →
      ∃ w changes, (Family.new fun _ : Unit => header).run hash res
          (order.map fun a => .mergeResource () (some a)) = .ok (w, changes) ∧
        (∀ change ∈ changes, change ≠ .error) ∧
        let key r := ResList.keyOf header.primaryKey (res r)
        let merged := resourcesOf (w.state ())
        (merged.map key).Nodup ∧ (∀ b ∈ resources, ∃ a ∈ merged, key a = key b) ∧
          ∀ a, a ∈ merged ↔ a ∈ resources ∧
            ∀ b ∈ resources, key b = key a → (res b).priority ≤ (res a).priority := by
  refine ⟨fun rest s owned sound resource msg => mergeResource_post owned sound resource msg,
    fun ι _ _ headers ops => ?_, fun header resources order rules valid distinct perm => ?_⟩
  · obtain ⟨w, changes, maps, run, mapRun, stands⟩ := (Family.new_standsFor headers).run ops
    refine ⟨w, changes, run, fun i keepAll => ?_⟩
    have start : MapComponent.Keyed res (headers i).primaryKey (emptyMaps headers i) :=
      ⟨keepAll, rfl, by simp [emptyMaps]⟩
    have keyed := mapRun.keyed start
    rw [← stands.same i] at keyed
    refine (uniqueKeys_iff (stands.sound i).toTabled).mpr ?_
    -- the key of the list is the one of the component
    rw [show (w.state i).comp.primaryKey = (headers i).primaryKey from keyed.key_eq]
    exact keyed
  · obtain ⟨w, changes, maps, run, mapRun, stands⟩ :=
      (@Family.new_standsFor hash res Unit _ fun _ => header).run
        (order.map fun a => .mergeResource () (some a))
    have distinctOrder : DistinctPriorities res header.primaryKey order :=
      (perm.pairwise_iff fun differ same => (differ same.symm).symm).mpr distinct
    obtain ⟨ok, best⟩ := mapRun.best (new_best header rules)
      (fun a member => valid a (perm.mem_iff.mp member)) (by simpa using distinctOrder)
    rw [List.nil_append, ← stands.same ()] at best
    have tabled := (stands.sound ()).toTabled
    have named (a : Addr) (member : a ∈ resources) : ∃ name, (res a).name = some name := by
      have valid_ := valid a member
      cases given : (res a).name with
      | none => simp [Resource.isValid, Lcfg.isEmpty, given] at valid_
      | some name => exact ⟨name, rfl⟩
    refine ⟨w, changes, run, ok, resourcesOf_nodup tabled fun name => (best.holds name).unique,
      fun b member => ?_, fun a => ?_⟩
    · obtain ⟨name, here⟩ := named b member
      obtain ⟨a, inList, same, -⟩ := (best.holds name).best b
        (List.mem_filter.mpr ⟨perm.mem_iff.mpr member, by simp [here]⟩)
      exact ⟨a, (mem_resourcesOf tabled a).mpr ⟨name, inList⟩, same⟩
    · -- the resources with the key of `a` have its name
      have inList (name : String) : a ∈ ((toMap res (value (w.state ()))).opened name).items ↔
          (a ∈ resources ∧ (res a).name = some name) ∧ ∀ b ∈ resources,
            ResList.keyOf header.primaryKey (res b) = ResList.keyOf header.primaryKey (res a) →
              (res b).priority ≤ (res a).priority := by
        have apart := (distinctOrder.imp fun differ same tied =>
          differ same (Int.sub_eq_zero.mp tied) : order.Pairwise fun a b =>
            ResList.keyOf header.primaryKey (res a) = ResList.keyOf header.primaryKey (res b) →
              comparePriorities res a b ≠ 0)
        rw [(best.holds name).mem_iff (comparePriorities_preorder res) (apart.filter _)]
        simp only [List.mem_filter, perm.mem_iff, decide_eq_true_eq, comparePriorities]
        refine and_congr_right fun here => forall_congr' fun b => ?_
        constructor
        · intro greatest member same
          refine Int.le_of_sub_nonpos (greatest ⟨member, ?_⟩ same)
          obtain ⟨name', there⟩ := named b member
          have names := congrArg ResList.ResKey.name same
          simp only [ResList.keyOf, here.2, there, Option.getD_some] at names
          rw [there, names]
        · intro greatest member same
          exact Int.sub_nonpos_of_le (greatest member.1 same)
      rw [mem_resourcesOf tabled]
      simp only [inList]
      constructor
      · rintro ⟨name, ⟨member, -⟩, greatest⟩
        exact ⟨member, greatest⟩
      · rintro ⟨member, greatest⟩
        obtain ⟨name, here⟩ := named a member
        exact ⟨name, ⟨member, here⟩, greatest⟩

/-- Resources which differ in their priorities only. -/
def rankedRes (a : Addr) : LCFGResource := ⟨some "x", none, none, a⟩

theorem rankedRes_merged : ∃ w changes,
    (Family.new fun _ : Unit => { mergeRules := { usePriority := true } }).run reportHash rankedRes
        ([2, 3, 1].map fun a => .mergeResource () (some a)) = .ok (w, changes) ∧
      (∀ change ∈ changes, change ≠ .error) ∧ 3 ∈ resourcesOf (w.state ()) := by
  obtain ⟨w, changes, run, ok, -, -, greatest⟩ := (merges_post reportHash rankedRes).2.2
    { mergeRules := { usePriority := true } } [1, 2, 3] [2, 3, 1] rfl (by decide)
    (by decide) (by decide)
  exact ⟨w, changes, run, ok, (greatest 3).mpr (by decide)⟩

end Component

end Lcfg
