import LcfgCore.Library.Run
import LcfgCore.Components.Family

/-!
# What merging a component reports

`lcfgcomponent_merge_component` merges the lists of another component one after the other
and returns what the last of these merges has returned (`component.c`).

## Main result

`mergeComponent_reports_iff`: it returns an error exactly if some resource cannot be merged,
and says that nothing was changed only where this is so, exactly if the last list is not one
that is ignored after another one was changed.
-/
namespace Lcfg

open ResList (Plain)

namespace ResList.Plain

variable {res : Addr → LCFGResource}

/-- The resources are merged one after the other, until one cannot be. -/
def SomeFails (res : Addr → LCFGResource) (list1 list2 : Plain) : Prop :=
  ∃ before r after, list2.items = before ++ r :: after ∧
    ((before.foldl (fun list a => (list.mergeResource res a).1) list1).mergeResource res r).2 = .error

/-- The resource is in the list already, or one with its key and a higher priority is. -/
def Ignored (res : Addr → LCFGResource) (list : Plain) (r : Addr) : Prop :=
  ∃ c, list.findKey res r = some c ∧ (c = r ∨
    ¬(list.mergeRules.squashIdentical = true ∧ Resource.equals (res c) (res r) = true) ∧
    list.mergeRules.keepAll = false ∧ list.mergeRules.replace = false ∧
    list.mergeRules.usePriority = true ∧ (res r).priority < (res c).priority)

theorem mergeResource_none_iff (list : Plain) {r : Addr} (valid : Resource.isValid (res r) = true) :
    (list.mergeResource res r).2 = .none ↔ list.Ignored res r := by
  unfold mergeResource Ignored
  rw [if_pos valid]
  cases found : list.findKey res r with
  | none => simp [mergeAction, MergeAction.appendOnly, applyItems, found]
  | some c =>
    simp only [Option.some.injEq, exists_eq_left']
    by_cases same : c = r
    · simp [mergeAction, same, MergeAction.keep, applyItems]
    · unfold mergeAction
      rw [if_neg (by simpa using same)]
      dsimp only
      split
      case isTrue => simp_all [MergeAction.swap, applyItems]
      split
      case isTrue => simp_all [MergeAction.appendOnly, applyItems]
      split
      case isTrue => simp_all [MergeAction.swap, applyItems]
      split
      case isTrue =>
        split
        case isTrue more =>
          have notLess : ¬(res r).priority < (res c).priority := by omega
          simp_all [MergeAction.swap, applyItems]
        split <;> simp_all [MergeAction.keep, applyItems]
      case isFalse => simp_all [applyItems]

theorem mergeItems_error_iff (list : Plain) (change : LCFGChange) (ok : change ≠ .error)
    (more : List Addr) : (list.mergeItems res change more).2 = .error ↔
      ¬Run.Every (fun list a => (list.mergeResource res a).1)
        (fun list a => (list.mergeResource res a).2 ≠ .error) list more := by
  induction more generalizing list change with
  | nil => simpa [mergeItems, Run.Every] using ok
  | cons a more ih =>
    rw [mergeItems, Run.Every]
    rcases list.mergeResource res a with ⟨list', mergeRc⟩
    cases mergeRc with
    | error => simp
    | none => simpa using ih list' change ok
    | _ => simpa using ih list' .modified (by simp)

theorem mergeList_error_iff (list1 list2 : Plain) :
    (list1.mergeList res list2).2 = .error ↔ SomeFails res list1 list2 := by
  rw [mergeList, mergeItems_error_iff _ _ (by simp), Run.every_iff, SomeFails]
  push Not
  rfl

/-- A change is not forgotten within a list. -/
theorem mergeItems_modified (list : Plain) (more : List Addr) :
    (list.mergeItems res .modified more).2 ≠ .none := by
  induction more generalizing list with
  | nil => simp [mergeItems]
  | cons a more ih =>
    rw [mergeItems]
    rcases list.mergeResource res a with ⟨list', mergeRc⟩
    cases mergeRc with
    | error => simp
    | _ => exact ih list'

theorem mergeList_none_iff (list1 list2 : Plain)
    (valid : ∀ r ∈ list2.items, Resource.isValid (res r) = true) :
    (list1.mergeList res list2).2 = .none ↔ ∀ r ∈ list2.items, list1.Ignored res r := by
  have loop (more : List Addr) (valid : ∀ r ∈ more, Resource.isValid (res r) = true) :
      (list1.mergeItems res .none more).2 = .none ↔ ∀ r ∈ more, list1.Ignored res r := by
    induction more with
    | nil => simp [mergeItems]
    | cons a more ih =>
      rw [List.forall_mem_cons] at valid
      rw [mergeItems, List.forall_mem_cons, ← mergeResource_none_iff list1 valid.1]
      rcases PlainComponent.mergeResource_cases list1 valid.1 with
        ⟨kept, -⟩ | failed | ⟨_, -, -, changed⟩
      · simpa [kept] using ih valid.2
      · simp [failed]
      · rcases outcome : list1.mergeResource res a with ⟨list', mergeRc⟩
        rw [outcome] at changed
        rcases changed with rfl | rfl <;> simp [mergeItems_modified]
  exact loop list2.items valid

end ResList.Plain

namespace PlainComponent.MapComponent

variable {res : Addr → LCFGResource} {comp : MapComponent}

/-- The list into which resources of a name are merged. -/
def opened (comp : MapComponent) (name : String) : Plain :=
  (comp.lists name).getD ⟨[], comp.primaryKey, comp.mergeRules⟩

theorem merge_opened_of_ne {name other : String} (differ : other ≠ name)
    (f : Plain → Plain × LCFGChange) : (comp.merge name f).1.opened other = comp.opened other ∧
      (comp.merge name f).1.lists other = comp.lists other := by
  unfold merge
  dsimp only
  split
  · exact ⟨rfl, rfl⟩
  · simp [opened, Function.update_of_ne differ]

theorem merge_change (name : String) (f : Plain → Plain × LCFGChange) :
    (comp.merge name f).2 = (f (comp.opened name)).2 := by
  unfold merge opened
  dsimp only
  split
  case isTrue refused => exact refused.2.symm
  case isFalse => rfl

theorem merge_lists_self (name : String) (f : Plain → Plain × LCFGChange)
    (ok : (f (comp.opened name)).2 ≠ .error) :
    (comp.merge name f).1.lists name = some (f (comp.opened name)).1 := by
  unfold merge opened at *
  dsimp only
  rw [if_neg fun both => ok both.2]
  exact Function.update_self ..

/-- Merging the lists of different names: an error is one of a list, otherwise the change is
that of the last list, and each name has got its merged list. -/
theorem mergeAll_outcome (order : List (String × Plain)) (distinct : (order.map Prod.fst).Nodup)
    (comp : MapComponent) (change : LCFGChange) (ok : change ≠ .error) :
    ((comp.mergeAll res change order).2 = .error ↔
      ∃ p ∈ order, ((comp.opened p.1).mergeList res p.2).2 = .error) ∧
    ((comp.mergeAll res change order).2 ≠ .error →
      (comp.mergeAll res change order).2 =
        order.getLast?.elim change (fun p => ((comp.opened p.1).mergeList res p.2).2) ∧
      (∀ p ∈ order, (comp.mergeAll res change order).1.lists p.1 =
        some ((comp.opened p.1).mergeList res p.2).1) ∧
      ∀ name ∉ order.map Prod.fst,
        (comp.mergeAll res change order).1.lists name = comp.lists name) := by
  induction order generalizing comp change with
  | nil => simpa [mergeAll] using ok
  | cons p order ih =>
    obtain ⟨name, list⟩ := p
    rw [List.map_cons, List.nodup_cons] at distinct
    rw [mergeAll]
    have changed : (comp.merge name fun l => l.mergeList res list).2 =
        ((comp.opened name).mergeList res list).2 := merge_change name _
    have others (q : String × Plain) (member : q ∈ order) :
        (comp.merge name fun l => l.mergeList res list).1.opened q.1 = comp.opened q.1 :=
      (merge_opened_of_ne (fun same => distinct.1 (List.mem_map.mpr ⟨q, member, same⟩)) _).1
    -- the first failure ends the loop, and no later list counts
    by_cases failed : ((comp.opened name).mergeList res list).2 = .error
    · rw [changed, if_pos failed, changed, failed]
      exact ⟨⟨fun _ => ⟨_, List.mem_cons_self, failed⟩, fun _ => rfl⟩, fun no => absurd rfl no⟩
    · rw [changed, if_neg failed]
      obtain ⟨errors, rest⟩ := ih distinct.2 (comp.merge name fun l => l.mergeList res list).1 _ failed
      refine ⟨?_, fun fine => ?_⟩
      · rw [errors, List.exists_mem_cons_iff, or_iff_right failed]
        exact exists_congr fun q => and_congr_right fun member => by rw [others q member]
      · obtain ⟨last, merged, kept⟩ := rest fine
        have here := merge_lists_self name (fun l => l.mergeList res list) failed
        -- the last list tells the change: this one only if there is no other
        refine ⟨?_, ?_, fun other absent => ?_⟩
        · rw [last]
          cases tail : order.getLast? with
          | none =>
            rw [List.getLast?_eq_none_iff.mp tail]
            rfl
          | some q =>
            rw [List.getLast?_cons, tail, Option.elim_some, others q (List.mem_of_getLast? tail)]
            rfl
        · rw [List.forall_mem_cons]
          refine ⟨by rw [kept name distinct.1, here], fun q member => ?_⟩
          rw [merged q member, others q member]
        · rw [List.map_cons, List.mem_cons, not_or] at absent
          rw [kept other absent.2]
          exact (merge_opened_of_ne absent.1 _).2

end PlainComponent.MapComponent

namespace Component

open PlainComponent (Tabled Sound lists key toMap labelled mergesFor_mergeList)

variable {hash : String → Nat} {res : Addr → LCFGResource} {rest : Multiset Addr}

/-- The lists of the other component, bucket by bucket, each behind the list of the first
component into which it is merged. -/
def merges (res : Addr → LCFGResource) (s : CompState) (comp2 : LCFGComponent) :
    List (Plain × Plain) :=
  (LinearProbe.stored comp2.resources).map fun a =>
    let list2 := plainAt s.heap a
    ((toMap res (value s)).opened ((key res list2).getD ""), list2)

/-- An error is returned if and only if some resource cannot be merged, and that nothing was
changed only where all lists are as they were. -/
def Reports (hash : String → Nat) (res : Addr → LCFGResource) (s : CompState)
    (comp2 : LCFGComponent) (msg : Option Message) : Prop :=
  ∃ s' change msg', mergeComponent hash res s comp2 msg = .ok (s', change, msg') ∧
    (change = .error ↔ ∃ p ∈ merges res s comp2, Plain.SomeFails res p.1 p.2) ∧
    (change = .none → ∀ name, lists res (value s') name = lists res (value s) name)

/-- Some resource cannot be merged, or the last list has a resource which is not ignored, or
no list is changed. -/
def LastTells (res : Addr → LCFGResource) (s : CompState) (comp2 : LCFGComponent) : Prop :=
  (∃ p ∈ merges res s comp2, Plain.SomeFails res p.1 p.2) ∨
    (∃ p, (merges res s comp2).getLast? = some p ∧ ∃ r ∈ p.2.items, ¬p.1.Ignored res r) ∨
      ∀ p ∈ merges res s comp2, (p.1.mergeList res p.2).1 = p.1

section Report

variable {s : CompState} {comp2 : LCFGComponent} (owned : Owned rest s)
  (sound : Sound hash res (value s)) (elsewhere : held comp2 ≤ rest)
  (tabled : Tabled hash res (value ⟨s.heap, comp2⟩)) (msg : Option Message)
include owned sound elsewhere tabled

/-- The change is that of the last list, unless the merge of some list fails; every list is
what its merge leaves. -/
theorem mergeComponent_changes : ∃ s' change msg',
    mergeComponent hash res s comp2 msg = .ok (s', change, msg') ∧
      (change = .error ↔ ∃ p ∈ merges res s comp2, Plain.SomeFails res p.1 p.2) ∧
      (change ≠ .error →
        change = (merges res s comp2).getLast?.elim .none (fun p => (p.1.mergeList res p.2).2) ∧
        ((∀ name, lists res (value s') name = lists res (value s) name) ↔
          ∀ p ∈ merges res s comp2, (p.1.mergeList res p.2).1 = p.1)) := by
  obtain ⟨s', change, msg', run, changed, values, -⟩ :=
    mergeComponent_outcome owned sound elsewhere tabled msg
  have spec := (sound.mergeLists_spec .none _ tabled.named).2
  rw [← PlainComponent.mergeComponent] at spec
  have distinct := tabled.enumerates.distinct
  have shown : merges res s comp2 =
      ((LinearProbe.stored (value ⟨s.heap, comp2⟩).resources).map (labelled res)).map fun p =>
        ((toMap res (value s)).opened p.1, p.2) := by
    rw [merges, stored_value, List.map_map, List.map_map]
    rfl
  have nonempty : ∀ p ∈ (LinearProbe.stored (value ⟨s.heap, comp2⟩).resources).map (labelled res),
      ∀ list : Plain, (list.mergeList res p.2).2 ≠ .error → (list.mergeList res p.2).1.items ≠ [] := by
    rintro _ member list ok
    obtain ⟨list2, stored, rfl⟩ := List.mem_map.mp member
    obtain ⟨name, holds⟩ := tabled.named list2 stored
    exact (mergesFor_mergeList holds).items_ne list (.inr ok)
  rw [shown]
  generalize (LinearProbe.stored (value ⟨s.heap, comp2⟩).resources).map (labelled res) = order
    at spec distinct nonempty
  obtain ⟨errors, rest_⟩ := PlainComponent.MapComponent.mergeAll_outcome order distinct
    (toMap res (value s)) .none (by simp)
  rw [← spec, ← changed] at errors rest_
  refine ⟨s', change, msg', run, ?_, fun ok => ?_⟩
  · rw [errors]
    simp only [List.mem_map, exists_exists_and_eq_and, Plain.mergeList_error_iff]
  · obtain ⟨last, merged, kept⟩ := rest_ ok
    dsimp only at merged kept
    rw [← values (.inl ok), PlainComponent.toMap_lists] at merged kept
    refine ⟨?_, ?_⟩
    · rw [last, List.getLast?_map]
      cases order.getLast? <;> rfl
    · rw [List.forall_mem_map]
      constructor
      · intro same p member
        have here := merged p member
        rw [same p.1] at here
        dsimp only
        generalize (((toMap res (value s)).opened p.1).mergeList res p.2).1 = list at here ⊢
        rw [PlainComponent.MapComponent.opened, PlainComponent.toMap_lists, here, Option.getD_some]
      · intro unchanged name
        by_cases member : name ∈ order.map Prod.fst
        · obtain ⟨p, inOrder, rfl⟩ := List.mem_map.mp member
          have same := unchanged p inOrder
          have some_ := nonempty p inOrder ((toMap res (value s)).opened p.1) fun failed =>
            ok (errors.mpr ⟨p, inOrder, failed⟩)
          rw [merged p inOrder, same]
          rw [same] at some_
          -- a list which was not there does not stay empty
          cases before : lists res (value s) p.1 with
          | none =>
            simp [PlainComponent.MapComponent.opened, before] at some_
          | some list =>
            simp [PlainComponent.MapComponent.opened, before]
        · exact kept name member

/-- The result says what has happened if and only if the last list tells. -/
theorem mergeComponent_reports_iff : Reports hash res s comp2 msg ↔ LastTells res s comp2 := by
  obtain ⟨s', change, msg', run, errors, rest_⟩ :=
    mergeComponent_changes owned sound elsewhere tabled msg
  have reported : Reports hash res s comp2 msg ↔
      (change = .none → ∀ name, lists res (value s') name = lists res (value s) name) := by
    constructor
    · rintro ⟨s₁, change₁, msg₁, run₁, -, none_⟩
      rw [run] at run₁
      obtain ⟨rfl, rfl, rfl⟩ : s' = s₁ ∧ change = change₁ ∧ msg' = msg₁ := by simpa using run₁
      exact none_
    · exact fun none_ => ⟨s', change, msg', run, errors, none_⟩
  rw [reported, LastTells, ← errors]
  -- an error is always reported; without one the change is that of the last list
  by_cases failed : change = .error
  · simp [failed]
  · obtain ⟨last, same⟩ := rest_ failed
    rw [or_iff_right failed, same]
    have ignored : (∃ p, (merges res s comp2).getLast? = some p ∧
        ∃ r ∈ p.2.items, ¬p.1.Ignored res r) ↔ change ≠ .none := by
      cases end_ : (merges res s comp2).getLast? with
      | none => simp [last, end_]
      | some p =>
        have valid : ∀ r ∈ p.2.items, Resource.isValid (res r) = true := fun r member => by
          obtain ⟨a, stored, rfl⟩ := List.mem_map.mp (List.mem_of_getLast? end_)
          obtain ⟨name, holds⟩ := listFor_of_held tabled (mem_held.mpr stored)
          exact (holds.valid r member).1
        simp [last, end_, Plain.mergeList_none_iff _ _ valid]
    rw [ignored]
    tauto

end Report

/-! ### A change before an ignored list

The first component has the resource x with a priority of 10. What is merged has a new
resource w and, in a later bucket, x with a priority of 0. -/

def reportRes (a : Addr) : LCFGResource :=
  ⟨some (if a = 1 then "w" else "x"), none, none, if a = 0 then 10 else 0⟩

def reportHash (name : String) : Nat := (name.toList.map Char.toNat).sum

def reportRun (resources2 : List Addr) : Except Fault (Family Bool × List LCFGChange) :=
  (Family.new fun _ => { mergeRules := { usePriority := true } }).run reportHash reportRes
    (.mergeResource true (some 0) :: resources2.map fun a => .mergeResource false (some a))

theorem reportRun_stands (resources2 : List Addr) : ∃ w changes maps,
    reportRun resources2 = .ok (w, changes) ∧
      Family.StandsFor reportHash reportRes w maps := by
  obtain ⟨w, changes, maps, run, -, stands⟩ := (@Family.new_standsFor reportHash reportRes Bool _
    fun _ => { mergeRules := { usePriority := true } }).run
      (.mergeResource true (some 0) :: resources2.map fun a => .mergeResource false (some a))
  exact ⟨w, changes, maps, run, stands⟩

/-- Merging w alone is reported. -/
theorem mergeSample_reports : ∃ w changes, reportRun [1] = .ok (w, changes) ∧
    Reports reportHash reportRes (w.state true) (w.comps false) none := by
  obtain ⟨w, changes, maps, run, stands⟩ := reportRun_stands [1]
  have lists : (reportRun [1]).map (fun r => merges reportRes (r.1.state true) (r.1.comps false)) =
      .ok [(⟨[], {}, { usePriority := true }⟩, ⟨[1], {}, { usePriority := true }⟩)] := by decide
  rw [run] at lists
  have shown := Except.ok.inj lists
  dsimp only at shown
  refine ⟨w, changes, run, (mergeComponent_reports_iff (stands.owned true) (stands.sound true)
    (Family.held_le_others (by decide) w) (stands.sound false).toTabled none).mpr ?_⟩
  rw [LastTells, shown]
  exact .inr (.inl ⟨_, rfl, 1, by simp, by simp [Plain.Ignored, Plain.findKey]⟩)

/-- With x behind it nothing is said to have changed. -/
theorem mergeSample_not_reports : ∃ w changes, reportRun [1, 2] = .ok (w, changes) ∧
    ¬Reports reportHash reportRes (w.state true) (w.comps false) none := by
  obtain ⟨w, changes, maps, run, stands⟩ := reportRun_stands [1, 2]
  have lists : (reportRun [1, 2]).map (fun r =>
      merges reportRes (r.1.state true) (r.1.comps false)) =
      .ok [(⟨[], {}, { usePriority := true }⟩, ⟨[1], {}, { usePriority := true }⟩),
        (⟨[0], {}, { usePriority := true }⟩, ⟨[2], {}, { usePriority := true }⟩)] := by decide
  rw [run] at lists
  have shown := Except.ok.inj lists
  dsimp only at shown
  obtain ⟨s', change, msg', merged, errors, rest⟩ := mergeComponent_changes (stands.owned true)
    (stands.sound true) (Family.held_le_others (by decide) w) (stands.sound false).toTabled none
  refine ⟨w, changes, run, ?_⟩
  rintro ⟨s₁, change₁, msg₁, merged₁, -, none_⟩
  rw [merged] at merged₁
  obtain ⟨rfl, rfl, rfl⟩ : s' = s₁ ∧ change = change₁ ∧ msg' = msg₁ := by simpa using merged₁
  have ok : change ≠ .error := by
    rw [ne_eq, errors, shown]
    simp only [List.mem_cons, List.not_mem_nil, or_false, exists_eq_or_imp, exists_eq_left,
      ← Plain.mergeList_error_iff]
    decide
  obtain ⟨last, same⟩ := rest ok
  rw [shown] at last same
  have unchanged := same.mp (none_ last) _ List.mem_cons_self
  revert unchanged
  decide

end Component

end Lcfg
