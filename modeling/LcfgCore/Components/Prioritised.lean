import LcfgCore.Components.Loading
import LcfgCore.Resources.Compare
import Mathlib.Data.List.Induction

/-!
# Merging by priority

The reader of profiles merges the resources of a component under two rules: a resource takes
the place of one which is equal to it, or of one with a smaller priority. Two different
resources of one priority are in conflict.

## Main results

`Holds.mergeByPriority`: on the table of a component this is `offer`, an update of a map from the
names to the resources. `Undisputed.best`: where no offer is in conflict, the map shows
for each name the last resource of those with the greatest priority.
-/
namespace Lcfg

open ResList (Plain)

/-- What the rules say of a new resource. -/
inductive Verdict where
  | takes | stays | conflict
deriving DecidableEq

def Resource.verdict (cur new : LCFGResource) : Verdict :=
  if Resource.equals cur new then .takes
  else if new.priority > cur.priority then .takes
  else if new.priority < cur.priority then .stays
  else .conflict

namespace TypedResource

/-- A resource is offered under its name; none of the contents if there is a conflict. -/
def offer (contents : String → Option TypedResource) (name : String) (new : TypedResource) :
    Option ((String → Option TypedResource) × LCFGChange) :=
  match contents name with
  | none => some (Function.update contents name (some new), .added)
  | some cur =>
    match Resource.verdict cur.toLCFGResource new.toLCFGResource with
    | .takes => some (Function.update contents name (some new), .replaced)
    | .stays => some (contents, .none)
    | .conflict => none

end TypedResource

open Resource (verdict)
open TypedResource (offer)

namespace Loading

open PlainComponent (active lists)

/-- The merge rules of the reader of profiles. -/
def priorityRules : LCFGMergeRule := { squashIdentical := true, usePriority := true }

/-- The lists of a component all have its rules. -/
structure Prioritised (l : Loading) : Prop where
  primaryKey : l.comp.primaryKey = {}
  mergeRules : l.comp.mergeRules = priorityRules
  lists : ∀ name list, lists (base l.res) l.comp name = some list →
    list.primaryKey = {} ∧ list.mergeRules = priorityRules

/-- `lcfgcomponent_new`, `lcfgcomponent_set_name` and `lcfgcomponent_set_merge_rules`. -/
def newPrioritised (compName : String) : Loading :=
  { new compName with comp := { (new compName).comp with mergeRules := priorityRules } }

variable {hash : String → Nat} {compName name : String} {l : Loading}
  {contents : String → Option TypedResource} {r : TypedResource}

theorem mergeAction_priority {res : Addr → LCFGResource} {a b : Addr} (other : some a ≠ some b) :
    ResList.mergeAction res priorityRules (some a) b =
      match verdict (res a) (res b) with
      | .takes => .swap
      | .stays => .keep
      | .conflict => {} := by
  rw [ResList.mergeAction, if_neg other, verdict]
  by_cases equal : Resource.equals (res a) (res b) = true
  · simp [priorityRules, equal]
  · simp only [priorityRules, equal, Bool.and_false, Bool.false_eq_true, if_false, if_true]
    split
    · rfl
    · split
      · rfl
      · rfl

theorem newPrioritised_holds (compName : String) :
    Holds hash compName (newPrioritised compName) (fun _ => none) ∧
      Prioritised (newPrioritised compName) := by
  have plain := @new_holds hash compName
  -- the rules are not looked at by a table
  have none_ : lists (base (newPrioritised compName).res) (newPrioritised compName).comp =
      fun _ => none := funext fun name => plain.lists_none rfl
  have sound := plain.sound
  refine ⟨⟨rfl, ⟨⟨sound.buckets_eq, sound.pos, sound.entries_eq, sound.named, sound.chained⟩,
    sound.load⟩, plain.single, plain.shows⟩, rfl, rfl, fun name list found => ?_⟩
  rw [none_] at found
  cases found

namespace Holds

/-- A list which is there has one resource, the one which the map shows. -/
theorem list_of_some (holds : Holds hash compName l contents) {cur : TypedResource}
    (here : contents name = some cur) :
    ∃ list a, lists (base l.res) l.comp name = some list ∧ list.items = [a] ∧ a < l.next ∧
      l.res a = cur := by
  have shown := (holds.shows name).trans here
  rw [active, Option.bind_some] at shown
  obtain ⟨list, found, first⟩ := Option.bind_eq_some_iff.mp shown
  obtain ⟨a, items, below⟩ := holds.single name list found
  refine ⟨list, a, found, items, below, ?_⟩
  rwa [PlainComponent.first, items, List.head?_cons, Option.map_some, Option.some_inj] at first

/-- What a merge makes of the list for a name, which has one resource. -/
theorem merged_list (holds : Holds hash compName l contents) (ruled : Prioritised l)
    (named : r.name = some name) (some_ : name ≠ "") {cur : TypedResource}
    (here : contents name = some cur) {list : Plain} {a : Addr}
    (found : lists (base l.res) l.comp name = some list) (items : list.items = [a])
    (below : a < l.next) (same : l.res a = cur) :
    list.mergeResource (base (Function.update l.res l.next r)) l.next =
      match verdict cur.toLCFGResource r.toLCFGResource with
      | .takes => ({ list with items := [l.next] }, .replaced)
      | .stays => (list, .none)
      | .conflict => (list, .error) := by
  obtain ⟨primaryKey, mergeRules⟩ := ruled.lists name list found
  have member := (LinearProbe.mem_stored_of_entry found).1
  have kept := holds.update_eq r member (by simp [items] : a ∈ list.items)
  have resNew : base (Function.update l.res l.next r) l.next = r.toLCFGResource := by
    rw [base, Function.update_self]
  have resOld : base (Function.update l.res l.next r) a = cur.toLCFGResource := by
    rw [base, kept, same]
  have curName : cur.name = some name := holds.name_eq here
  have sameKey : ResList.sameKey {} r.toLCFGResource cur.toLCFGResource = true := by
    simp [ResList.sameKey, curName, named, Resource.sameName, Resource.compareNames]
  have key : list.findKey (base (Function.update l.res l.next r)) l.next = some a := by
    rw [Plain.findKey, items, primaryKey, List.find?_cons, resNew, resOld, sameKey]
  have valid : Resource.isValid (base (Function.update l.res l.next r) l.next) = true := by
    rw [resNew]
    simpa [Resource.isValid, named, isEmpty] using some_
  have other : some a ≠ some l.next := fun equal =>
    absurd (Option.some_inj.mp equal) (Nat.ne_of_lt below)
  have erased : list.items.eraseP (fun a => ResList.sameKey list.primaryKey
      (base (Function.update l.res l.next r) l.next)
      (base (Function.update l.res l.next r) a)) = [] := by
    rw [items, primaryKey, List.eraseP_cons, resNew, resOld, sameKey]
    rfl
  rw [Plain.mergeResource, if_pos valid, key, mergeRules, mergeAction_priority other, resNew, resOld]
  cases verdict cur.toLCFGResource r.toLCFGResource with
  | takes => simp [Plain.applyItems, ResList.MergeAction.swap, key, erased, mergeRules]
  | stays => simp [Plain.applyItems, ResList.MergeAction.keep, key]
  | conflict => simp [Plain.applyItems]

/-- The table after a merge into one list. -/
theorem updated (holds : Holds hash compName l contents) (ruled : Prioritised l)
    (named : r.name = some name) (some_ : name ≠ "") {list : Plain}
    (maps : PlainComponent.toMap (base (Loading.mergeResource hash l r).1.res)
        (Loading.mergeResource hash l r).1.comp =
      { PlainComponent.toMap (base l.res) l.comp with
        lists := Function.update (lists (base l.res) l.comp) name (some list) })
    (primaryKey : list.primaryKey = {}) (mergeRules : list.mergeRules = priorityRules) {a : Addr}
    (items : list.items = [a]) (below : a ≤ l.next) :
    Holds hash compName (Loading.mergeResource hash l r).1 (Function.update contents name
        (some (Function.update l.res l.next r a))) ∧
      Prioritised (Loading.mergeResource hash l r).1 := by
  have valid : Resource.isValid r.toLCFGResource = true := by
    simpa [Resource.isValid, named, isEmpty] using some_
  obtain ⟨sound, -⟩ := holds.mergeResource_map named some_
  have res : (Loading.mergeResource hash l r).1.res = Function.update l.res l.next r := by
    rw [Loading.mergeResource, if_pos valid]
  have next : (Loading.mergeResource hash l r).1.next = l.next + 1 := by
    rw [Loading.mergeResource, if_pos valid]
  have named' := congrArg PlainComponent.MapComponent.name maps
  have key' := congrArg PlainComponent.MapComponent.primaryKey maps
  have rules' := congrArg PlainComponent.MapComponent.mergeRules maps
  have lists' := congrArg PlainComponent.MapComponent.lists maps
  rw [PlainComponent.toMap_lists] at lists'
  dsimp only at lists'
  refine ⟨⟨named'.trans holds.named, sound, fun name' list' found => ?_, fun name' => ?_⟩,
    key'.trans ruled.primaryKey, rules'.trans ruled.mergeRules, fun name' list' found => ?_⟩
  · rw [lists'] at found
    rw [next]
    by_cases own : name' = name
    · rw [own, Function.update_self, Option.some_inj] at found
      exact ⟨a, found ▸ items, Nat.lt_succ_of_le below⟩
    · rw [Function.update_of_ne own] at found
      obtain ⟨b, items', below'⟩ := holds.single name' list' found
      exact ⟨b, items', Nat.lt_succ_of_lt below'⟩
  · rw [active, Option.bind_some, lists', res]
    by_cases own : name' = name
    · rw [own, Function.update_self, Function.update_self, Option.bind_some, PlainComponent.first,
        items]
      rfl
    · -- the resources of other names are where they were
      rw [Function.update_of_ne own, Function.update_of_ne own, ← holds.shows, active,
        Option.bind_some]
      cases found : lists (base l.res) l.comp name' with
      | none => rfl
      | some list' =>
        obtain ⟨b, items', -⟩ := holds.single name' list' found
        have member := (LinearProbe.mem_stored_of_entry found).1
        have kept := holds.update_eq r member (by simp [items'] : b ∈ list'.items)
        simp [PlainComponent.first, items', kept]
  · rw [lists'] at found
    by_cases own : name' = name
    · rw [own, Function.update_self, Option.some_inj] at found
      exact found ▸ ⟨primaryKey, mergeRules⟩
    · rw [Function.update_of_ne own] at found
      exact ruled.lists name' list' found

/-- Step lemma: the merge into a component is the offer to the map which it holds. -/
theorem mergeByPriority (holds : Holds hash compName l contents) (ruled : Prioritised l)
    (named : r.name = some name) (some_ : name ≠ "") :
    match offer contents name r with
    | none => (Loading.mergeResource hash l r).2 = .error
    | some (contents', change) => (Loading.mergeResource hash l r).2 = change ∧
        Holds hash compName (Loading.mergeResource hash l r).1 contents' ∧
        Prioritised (Loading.mergeResource hash l r).1 := by
  cases here : contents name with
  | none =>
    obtain ⟨maps, added⟩ := holds.mergeResource_lists named some_ here
    obtain ⟨holds', ruled'⟩ := holds.updated ruled named some_ maps ruled.primaryKey
      ruled.mergeRules rfl (Nat.le_refl _)
    rw [Function.update_self] at holds'
    rw [offer, here]
    exact ⟨added, holds', ruled'⟩
  | some cur =>
    obtain ⟨list, a, found, items, below, same⟩ := holds.list_of_some here
    obtain ⟨-, maps⟩ := holds.mergeResource_map named some_
    have merged := holds.merged_list ruled named some_ here found items below same
    obtain ⟨primaryKey, mergeRules⟩ := ruled.lists name list found
    rw [PlainComponent.MapComponent.merge, PlainComponent.toMap_lists, found, Option.getD_some,
      if_neg (by simp), merged, Prod.mk.injEq] at maps
    obtain ⟨maps, change⟩ := maps
    rw [offer, here]
    dsimp only
    cases decided : verdict cur.toLCFGResource r.toLCFGResource with
    | takes =>
      rw [decided] at maps change
      obtain ⟨holds', ruled'⟩ := holds.updated ruled named some_ maps primaryKey mergeRules rfl
        (Nat.le_refl _)
      rw [Function.update_self] at holds'
      exact ⟨change, holds', ruled'⟩
    | stays =>
      rw [decided] at maps change
      obtain ⟨holds', ruled'⟩ := holds.updated ruled named some_ maps primaryKey mergeRules items
        (Nat.le_of_lt below)
      rw [Function.update_of_ne (Nat.ne_of_lt below), same, ← here, Function.update_eq_self]
        at holds'
      exact ⟨change, holds', ruled'⟩
    | conflict =>
      rw [decided] at change
      exact change

end Holds

end Loading

/-! ## All offers together -/

namespace TypedResource

/-- What the offers leave for each name, the conflicts apart. -/
def kept (offers : List TypedResource) : String → Option TypedResource :=
  offers.foldl (fun contents new =>
    ((offer contents (new.name.getD "") new).map Prod.fst).getD contents) fun _ => none

/-- No offer is in conflict with what the ones before it leave. -/
def Undisputed (offers : List TypedResource) : Prop :=
  ∀ before new after, offers = before ++ new :: after →
    offer (kept before) (new.name.getD "") new ≠ none

/-- Of all offers for a name it is one with the greatest priority, and the last of these. -/
structure Best (offers : List TypedResource) (name : String) (r : TypedResource) : Prop where
  named : r.name.getD "" = name
  last : ∃ before after, offers = before ++ r :: after ∧
    (∀ other ∈ before, other.name.getD "" = name → other.priority ≤ r.priority ∧
      (other.priority = r.priority → other.value.getD "" = r.value.getD "")) ∧
    ∀ other ∈ after, other.name.getD "" = name → other.priority < r.priority

theorem kept_concat (offers : List TypedResource) (new : TypedResource) :
    kept (offers ++ [new]) =
      ((offer (kept offers) (new.name.getD "") new).map Prod.fst).getD (kept offers) := by
  rw [kept, List.foldl_append]
  rfl

theorem undisputed_concat {offers : List TypedResource} {new : TypedResource} :
    Undisputed (offers ++ [new]) ↔
      Undisputed offers ∧ offer (kept offers) (new.name.getD "") new ≠ none := by
  constructor
  · intro undisputed
    refine ⟨fun before other after split => ?_, undisputed offers new [] rfl⟩
    exact undisputed before other (after ++ [new]) (by rw [split]; simp)
  · rintro ⟨undisputed, last⟩ before other after split
    rcases List.eq_nil_or_concat' after with rfl | ⟨after, final, rfl⟩
    · obtain ⟨rfl, same⟩ := List.append_inj' split rfl
      obtain rfl := List.head_eq_of_cons_eq same
      exact last
    · have shorter : offers ++ [new] = (before ++ other :: after) ++ [final] := by
        rw [split]
        simp
      exact undisputed before other after (List.append_inj' shorter rfl).1

/-- A resource takes the place of another one only if it has no smaller priority, and the same
value where the priorities are the same. -/
theorem verdict_takes {cur new : LCFGResource} (takes : verdict cur new = .takes) :
    cur.priority ≤ new.priority ∧
      (cur.priority = new.priority → cur.value.getD "" = new.value.getD "") := by
  rw [verdict] at takes
  split at takes
  case isTrue equal =>
    obtain ⟨-, priority, value⟩ :=
      (Resource.compare_eq_zero_iff _ _).mp ((Resource.equals_iff _ _).mp equal)
    exact ⟨Int.le_of_eq priority, fun _ => value⟩
  case isFalse =>
    split at takes
    case isTrue greater => exact ⟨Int.le_of_lt greater, fun same => by omega⟩
    case isFalse => split at takes <;> cases takes

theorem verdict_stays {cur new : LCFGResource} (stays : verdict cur new = .stays) :
    new.priority < cur.priority := by
  rw [verdict] at stays
  split at stays
  · cases stays
  · split at stays
    · cases stays
    · split at stays
      case isTrue less => exact less
      case isFalse => cases stays

namespace Best

variable {offers : List TypedResource} {name : String} {r new : TypedResource}

theorem first (alone : ∀ other ∈ offers, other.name.getD "" ≠ name)
    (named : new.name.getD "" = name) : Best (offers ++ [new]) name new := by
  refine ⟨named, offers, [], rfl, fun other before named => ?_, fun other after => ?_⟩
  · exact absurd named (alone other before)
  · cases after

/-- An offer for another name, or with a smaller priority, changes nothing. -/
theorem append (best : Best offers name r)
    (less : new.name.getD "" = name → new.priority < r.priority) :
    Best (offers ++ [new]) name r := by
  obtain ⟨before, after, rfl, greatest, last⟩ := best.last
  refine ⟨best.named, before, after ++ [new], by simp, greatest, fun other later named => ?_⟩
  rcases List.mem_append.mp later with inside | final
  · exact last other inside named
  · rw [List.mem_singleton.mp final] at named ⊢
    exact less named

theorem takes (best : Best offers name r) (named : new.name.getD "" = name)
    (takes : verdict r.toLCFGResource new.toLCFGResource = .takes) :
    Best (offers ++ [new]) name new := by
  obtain ⟨le, equalValue⟩ := verdict_takes takes
  obtain ⟨before, after, rfl, greatest, last⟩ := best.last
  refine ⟨named, before ++ r :: after, [], rfl, fun other earlier named => ?_, fun other final => ?_⟩
  · rcases List.mem_append.mp earlier with inside | inside
    · obtain ⟨le', value⟩ := greatest other inside named
      refine ⟨Int.le_trans le' le, fun same => ?_⟩
      exact (value (by omega)).trans (equalValue (by omega))
    · rcases List.mem_cons.mp inside with rfl | inside
      · exact ⟨le, equalValue⟩
      · have less := last other inside named
        exact ⟨by omega, fun same => by omega⟩
  · cases final

end Best

/-- What a name stands for once all offers have been made: nothing if none was for this name. -/
def Shown (offers : List TypedResource) (name : String) : Option TypedResource → Prop
  | none => ∀ other ∈ offers, other.name.getD "" ≠ name
  | some r => Best offers name r

theorem Shown.append_other {offers : List TypedResource} {name : String} {new : TypedResource}
    {shown : Option TypedResource} (before : Shown offers name shown)
    (named : new.name.getD "" ≠ name) : Shown (offers ++ [new]) name shown := by
  cases shown with
  | some r => exact Best.append before fun same => absurd same named
  | none =>
    intro other inside
    rcases List.mem_append.mp inside with earlier | final
    · exact before other earlier
    · rwa [List.mem_singleton.mp final]

/-- An offer is about one name. -/
theorem offer_other {contents contents' : String → Option TypedResource} {name : String}
    {new : TypedResource} {change : LCFGChange}
    (done : offer contents name new = some (contents', change)) {other : String}
    (apart : other ≠ name) : contents' other = contents other := by
  rw [offer] at done
  split at done
  · cases done
    exact Function.update_of_ne apart _ _
  · split at done
    · cases done
      exact Function.update_of_ne apart _ _
    · cases done
      rfl
    · cases done

/-- An offer for a name which is not refused. -/
theorem Shown.offered {offers : List TypedResource} {name : String} {new : TypedResource}
    {contents contents' : String → Option TypedResource} {change : LCFGChange}
    (before : Shown offers name (contents name)) (named : new.name.getD "" = name)
    (done : offer contents name new = some (contents', change)) :
    Shown (offers ++ [new]) name (contents' name) := by
  rw [offer] at done
  split at done
  case h_1 missing =>
    cases done
    rw [missing] at before
    rw [Function.update_self]
    exact Best.first before named
  case h_2 cur here =>
    rw [here] at before
    split at done
    case h_1 takes =>
      cases done
      rw [Function.update_self]
      exact Best.takes before named takes
    case h_2 stays =>
      cases done
      rw [here]
      exact Best.append before fun _ => verdict_stays stays
    case h_3 => cases done

/-- What is left where no offer was in conflict. -/
theorem Undisputed.best {offers : List TypedResource} (undisputed : Undisputed offers) (name : String) :
    Shown offers name (kept offers name) := by
  induction offers using List.reverseRecOn with
  | nil =>
    intro other inside
    cases inside
  | append_singleton offers new ih =>
    obtain ⟨earlier, last⟩ := undisputed_concat.mp undisputed
    obtain ⟨⟨contents', change⟩, done⟩ := Option.ne_none_iff_exists'.mp last
    rw [kept_concat, done, Option.map_some, Option.getD_some]
    by_cases named : new.name.getD "" = name
    · rw [named] at done
      exact (ih earlier).offered named done
    · -- nothing changes for this name
      have same := offer_other done (Ne.symm named)
      dsimp only
      rw [same]
      exact (ih earlier).append_other named

end TypedResource

end Lcfg
