import LcfgCore.Components.StatusRoundTrip
import LcfgCore.Resources.Environment
import LcfgCore.Resources.Tags

/-!
# Writing components

A component is printed in one of several styles, written as commands for the shell or put
into the environment (`lcfgcomponent_print`, `lcfgcomponent_to_export`,
`lcfgcomponent_to_env`). Each text stands with the resource it was made from.

## Main results

`prints_iff`: the style for status files is the one which is read back.
`onlyActive_iff`: inactive resources are left out exactly when none of them is the first one
of its name.
-/
namespace Lcfg

open ResList (Plain)

inductive LCFGResourceStyle where
  | spec | status | summary | export | value
deriving DecidableEq, Repr

namespace PlainComponent

open TypedResource (hasValue buildEnvVar envValPfx envTypePfx)

/-- What a writer has done: the texts in their order, with the resources they come from, and the
names of the resources which have been exported. -/
structure Written (α : Type) where
  items : List (Option Addr × α) := []
  names : LCFGTagList := []
  ok : Bool := true

/-- `lcfgresource_to_string` -/
def resourceToString (r : TypedResource) (pre : Option String) (style : LCFGResourceStyle)
    (options : LCFGOption) : Option (List Char) :=
  match style with
  | .value => some (TypedResource.toValue r (specOptions options))
  | .summary => TypedResource.toSummary r pre options.useMeta
  | .status => TypedResource.toStatus r pre (specOptions options) options.useMeta
  | .spec | .export => TypedResource.toSpec r pre (specOptions options)

variable (res : Addr → TypedResource)

/-- Resources without a value are written on demand. -/
def Shown (options : LCFGOption) (r : TypedResource) : Prop :=
  options.allValues = true ∨ hasValue r = true

instance (options : LCFGOption) (r : TypedResource) : Decidable (Shown options r) :=
  inferInstanceAs (Decidable (_ ∨ _))

/-- The loop of `lcfgreslist_print`. -/
def printItems (comp : PlainComponent) (style : LCFGResourceStyle) (options : LCFGOption) :
    List Addr → Written (List Char)
  | [] => {}
  | a :: rest =>
    if Shown options (res a) then
      match resourceToString (res a) comp.name style options with
      | none => { ok := false }
      | some text =>
        let later := printItems comp style options rest
        { later with items := (some a, text) :: later.items }
    else printItems comp style options rest

/-- Usually only the head of a list is looked at. -/
def lookedAt (options : LCFGOption) (list : Plain) : List Addr :=
  if options.allPriorities then list.items else list.items.take 1

/-- The loop of `lcfgcomponent_print` over the entries. -/
def printLists (comp : PlainComponent) (style : LCFGResourceStyle) (options : LCFGOption) :
    List Plain → Written (List Char)
  | [] => {}
  | list :: rest =>
    let here := printItems res comp style options (lookedAt options list)
    if here.ok then
      let later := printLists comp style options rest
      { later with items := here.items ++ later.items }
    else here

/-- The name of the variable for the list of the resources. -/
def envListKey : String := "_RESOURCES"

/-- One round of the loop in `lcfgcomponent_to_export`. -/
def exportList (valPfx : String) (typePfx : Option String) (options : LCFGOption)
    (s : Written (List Char)) (list : Plain) : Written (List Char) :=
  match list.items.head? with
  | none => s
  | some a =>
    if Shown options (res a) then
      match TypedResource.toExport (res a) none (some valPfx) typePfx options with
      | .error _ => { s with ok := false }
      | .ok out =>
        let (names, addRc) := TagList.mutateAdd s.names ((res a).name.getD "")
        let ok := s.ok && addRc.isOk
        { items := if ok then s.items ++ [(some a, out.text)] else s.items, names, ok }
    else s

/-- The prefixes with the name of the component in them; the one for types may not be needed. -/
def expandedPfx (comp : PlainComponent) (valPfx typePfx : Option String) (options : LCFGOption) :
    String × Option String :=
  (String.ofList (buildEnvVar none comp.name envValPfx valPfx),
    if options.useMeta then some (String.ofList (buildEnvVar none comp.name envTypePfx typePfx))
    else none)

/-- `lcfgtaglist_to_string` after `lcfgtaglist_sort`. -/
def sortedNames (names : LCFGTagList) : List Char :=
  [' '].intercalate ((TagList.sort names).map String.toList)

/-- `lcfgcomponent_to_export` -/
def toExport (comp : PlainComponent) (valPfx typePfx : Option String) (options : LCFGOption) :
    Written (List Char) :=
  if Lcfg.isEmpty comp.name then { ok := false }
  else if isEmpty (some comp) then {}
  else
    let (valPfx, typePfx) := expandedPfx comp valPfx typePfx options
    let s := (LinearProbe.stored comp.resources).foldl (exportList res valPfx typePfx options) {}
    if s.ok ∧ s.names ≠ [] then
      let reslistKey := buildEnvVar (some envListKey) comp.name envValPfx (some valPfx)
      let line := "export ".toList ++ reslistKey ++ "='".toList ++ sortedNames s.names ++
        "'\n".toList
      { s with items := s.items ++ [(none, line)] }
    else s

/-- What `lcfgcomponent_print` may do; the order of the entries is the one `qsort` leaves. -/
def Writes (comp : PlainComponent) (style : LCFGResourceStyle) (options : LCFGOption)
    (out : Written (List Char)) : Prop :=
  if style = .export then out = toExport res comp none none options
  else if isEmpty (some comp) then out = {}
  else
    ∃ sorted, QSort.Sorts (listCmp res) (LinearProbe.stored comp.resources) sorted ∧
      out = printLists res comp style { options with newline := true } sorted

/-- One round of the loop in `lcfgcomponent_to_env`. The status is that of the last resource. -/
def envList (comp : PlainComponent) (valPfx : String) (typePfx : Option String)
    (options : LCFGOption) (s : Written Shell.Assignment × Option String) (list : Plain) :
    Written Shell.Assignment × Option String :=
  match list.items.head? with
  | none => s
  | some a =>
    if Shown options (res a) then
      let (vars, ok) := TypedResource.toEnv (res a) none (some valPfx) typePfx options
      let items := s.1.items ++ vars.map fun var => (some a, var)
      if ok then
        let (names, addRc) := TagList.mutateAdd s.1.names ((res a).name.getD "")
        ({ items, names, ok := addRc.isOk }, s.2)
      else
        ({ s.1 with items, ok := false }, some (TypedResource.buildMessage (some (res a)) comp.name
          "Failed to set environment variable for resource"))
    else s

/-- `lcfgcomponent_to_env`: the calls of `setenv`, the last one for the list of the names, which
fails for a name that is empty or has a `=` in it; and a message. -/
def toEnv (comp : PlainComponent) (valPfx typePfx : Option String) (options : LCFGOption) :
    Written Shell.Assignment × Option String :=
  if Lcfg.isEmpty comp.name then ({ ok := false }, none)
  else if isEmpty (some comp) then ({}, none)
  else
    let (valPfx, typePfx) := expandedPfx comp valPfx typePfx options
    let (s, msg) := (LinearProbe.stored comp.resources).foldl
      (envList res comp valPfx typePfx options) ({}, none)
    if s.ok then
      let reslistKey := buildEnvVar (some envListKey) none envValPfx (some valPfx)
      if reslistKey = [] ∨ '=' ∈ reslistKey then ({ s with ok := false }, msg)
      else ({ s with items := s.items ++ [(none, reslistKey, sortedNames s.names)] }, msg)
    else (s, msg)

/-! ## The style for status files -/

variable {res} {hash : String → Nat} {comp : PlainComponent} {style : LCFGResourceStyle}
  {options : LCFGOption}

/-- A loop which has gone well has written the texts of all resources. -/
private theorem printItems_status (items : List Addr) :
    (((items.map res).filter fun r => options.allValues || hasValue r).mapM fun r =>
        TypedResource.toStatus r comp.name (specOptions options) options.useMeta) =
      if (printItems res comp .status options items).ok then
        some ((printItems res comp .status options items).items.map Prod.snd)
      else none := by
  induction items with
  | nil => rfl
  | cons a rest ih =>
    rw [printItems, List.map_cons]
    by_cases shown : Shown options (res a)
    · have kept : (options.allValues || hasValue (res a)) = true := by simpa [Shown] using shown
      rw [List.filter_cons, if_pos kept, List.mapM_cons, ih, if_pos shown, resourceToString]
      cases TypedResource.toStatus (res a) comp.name (specOptions options) options.useMeta with
      | none => rfl
      | some text => by_cases ok : (printItems res comp .status options rest).ok = true <;> simp [ok]
    · have left : (options.allValues || hasValue (res a)) = false := by simpa [Shown] using shown
      rw [List.filter_cons, if_neg (by simp [left]), ih, if_neg shown]

theorem printList_eq (list : Plain) : printList res comp options list =
    if (printItems res comp .status options (lookedAt options list)).ok then
      some ((printItems res comp .status options (lookedAt options list)).items.flatMap Prod.snd)
    else none := by
  rw [printList]
  simp only [lookedAt, printItems_status]
  split <;> simp [List.flatMap_def]

private theorem printLists_status (lists : List Plain) :
    (lists.mapM (printList res comp options)).map List.flatten =
      if (printLists res comp .status options lists).ok then
        some ((printLists res comp .status options lists).items.flatMap Prod.snd)
      else none := by
  induction lists with
  | nil => rfl
  | cons list rest ih =>
    rw [printLists, List.mapM_cons, printList_eq]
    by_cases here : (printItems res comp .status options (lookedAt options list)).ok = true
    · simp only [here, if_true]
      cases later : rest.mapM (printList res comp options) with
      | none => 
        rw [later] at ih
        simp at ih
        simp [ih]
      | some texts => 
        rw [later] at ih
        simp at ih
        simp [ih]
    · simp [here]

theorem prints_iff {text : List Char} : Prints res comp options text ↔
    ∃ out, Writes res comp .status options out ∧ out.ok = true ∧
      text = out.items.flatMap Prod.snd := by
  rw [Prints]
  simp only [Writes, reduceCtorEq, if_false]
  split
  case isTrue =>
    constructor
    · rintro rfl
      exact ⟨{}, rfl, rfl, rfl⟩
    · rintro ⟨out, rfl, -, rfl⟩
      rfl
  case isFalse =>
    have newline : printList res comp options = printList res comp { options with newline := true } :=
      rfl
    rw [newline]
    simp only [printLists_status]
    constructor
    · rintro ⟨sorted, sorts, printed⟩
      split at printed
      case isTrue ok => exact ⟨_, ⟨sorted, sorts, rfl⟩, ok, (Option.some_inj.mp printed).symm⟩
      case isFalse => cases printed
    · rintro ⟨out, ⟨sorted, sorts, rfl⟩, ok, rfl⟩
      exact ⟨sorted, sorts, if_pos ok⟩

/-! ## Where the texts come from -/

/-- The resource at the address is the first one of its name, and shown. -/
def Source (res : Addr → TypedResource) (comp : PlainComponent) (options : LCFGOption) (a : Addr) :
    Prop :=
  ∃ list ∈ LinearProbe.stored comp.resources, list.items.head? = some a ∧ Shown options (res a)

/-- Nothing is written but the first resources, and no others are named. -/
structure FromFirsts {α : Type} (res : Addr → TypedResource) (comp : PlainComponent)
    (options : LCFGOption) (out : Written α) : Prop where
  items : ∀ a text, (some a, text) ∈ out.items → Source res comp options a
  names : ∀ name ∈ out.names, ∃ a, Source res comp options a ∧ (res a).name = some name

/-- Inactive resources are neither written nor named. -/
structure OnlyActive {α : Type} (res : Addr → TypedResource) (comp : PlainComponent)
    (out : Written α) : Prop where
  items : ∀ a text, (some a, text) ∈ out.items → 0 ≤ (res a).priority
  names : ∀ name ∈ out.names, ∀ r, active res (some comp) name = some r → 0 ≤ r.priority

variable {α : Type} {out : Written α} {a : Addr}

theorem Source.mem_firsts (source : Source res comp options a) :
    res a ∈ firsts res comp ∧ Shown options (res a) := by
  obtain ⟨list, inside, head, shown⟩ := source
  exact ⟨List.mem_filterMap.mpr ⟨list, inside, by rw [first, head, Option.map_some]⟩, shown⟩

theorem exists_source {r : TypedResource} (member : r ∈ firsts res comp) (shown : Shown options r) :
    ∃ a, Source res comp options a ∧ res a = r := by
  obtain ⟨list, inside, here⟩ := List.mem_filterMap.mp member
  obtain ⟨a, head, rfl⟩ := Option.map_eq_some_iff.mp here
  exact ⟨a, ⟨list, inside, head, shown⟩, rfl⟩

namespace FromFirsts

theorem nothing (ok : Bool) : FromFirsts res comp options ({ ok } : Written α) :=
  ⟨fun _ _ member => (nomatch member), fun _ member => (nomatch member)⟩

theorem ok (from_ : FromFirsts res comp options out) (ok : Bool) :
    FromFirsts res comp options { out with ok } :=
  ⟨from_.items, from_.names⟩

/-- Texts of one resource are added. -/
theorem write (from_ : FromFirsts res comp options out) (source : Source res comp options a)
    (texts : List α) :
    FromFirsts res comp options { out with items := out.items ++ texts.map fun text => (some a, text) } := by
  refine ⟨fun b text member => ?_, from_.names⟩
  rcases List.mem_append.mp member with before | here
  · exact from_.items b text before
  · obtain ⟨other, inside, same⟩ := List.mem_map.mp here
    cases same
    exact source

/-- The text of no resource is added. -/
theorem close (from_ : FromFirsts res comp options out) (text : α) :
    FromFirsts res comp options { out with items := out.items ++ [(none, text)] } := by
  refine ⟨fun b other member => ?_, from_.names⟩
  rcases List.mem_append.mp member with before | here
  · exact from_.items b other before
  · cases List.mem_singleton.mp here

/-- A resource is named. -/
theorem name (from_ : FromFirsts res comp options out) (source : Source res comp options a)
    (valid : Resource.validName (res a).name = true) :
    FromFirsts res comp options
      { out with names := (TagList.mutateAdd out.names ((res a).name.getD "")).1 } := by
  refine ⟨from_.items, fun tag member => ?_⟩
  cases named : (res a).name with
  | none =>
    rw [named] at valid
    cases valid
  | some own =>
    rw [named] at valid
    rw [named, Option.getD_some] at member
    rcases ((TagList.mutateAdd_valid out.names valid).2 tag).mp member with before | rfl
    · exact from_.names tag before
    · exact ⟨a, source, named⟩

/-- Where the first resources which are shown are active, no others are written. -/
theorem onlyActive (from_ : FromFirsts res comp options out)
    (tabled : Tabled hash (base res) comp)
    (all : ∀ r ∈ firsts res comp, Shown options r → 0 ≤ r.priority) : OnlyActive res comp out := by
  constructor
  · intro a text member
    obtain ⟨inside, shown⟩ := (from_.items a text member).mem_firsts
    exact all _ inside shown
  · intro tag member r found
    obtain ⟨a, source, named⟩ := from_.names tag member
    obtain ⟨inside, shown⟩ := source.mem_firsts
    -- the name belongs to one first resource only
    obtain ⟨other, found'⟩ := (PlainComponent.mem_firsts tabled _).mp inside
    have same := active_name tabled found'
    rw [named, Option.some_inj] at same
    rw [← same, found, Option.some_inj] at found'
    rw [found']
    exact all _ inside shown

end FromFirsts

/-! ## The writers -/

theorem printItems_from {items : List Addr} {text : List Char}
    (member : (some a, text) ∈ (printItems res comp style options items).items) :
    a ∈ items ∧ Shown options (res a) := by
  induction items with
  | nil => cases member
  | cons b rest ih =>
    rw [printItems] at member
    by_cases shown : Shown options (res b)
    · rw [if_pos shown] at member
      cases written : resourceToString (res b) comp.name style options with
      | none =>
        rw [written] at member
        cases member
      | some own =>
        rw [written] at member
        rcases List.mem_cons.mp member with here | later
        · cases here
          exact ⟨List.mem_cons_self, shown⟩
        · exact ⟨List.mem_cons_of_mem _ (ih later).1, (ih later).2⟩
    · rw [if_neg shown] at member
      exact ⟨List.mem_cons_of_mem _ (ih member).1, (ih member).2⟩

theorem printItems_names (items : List Addr) :
    (printItems res comp style options items).names = [] := by
  induction items with
  | nil => rfl
  | cons b rest ih =>
    rw [printItems]
    split
    · split
      · rfl
      · exact ih
    · exact ih

theorem head_of_lookedAt (noAll : options.allPriorities = false) {list : Plain}
    (member : a ∈ lookedAt options list) : list.items.head? = some a := by
  rw [lookedAt, noAll] at member
  cases items : list.items with
  | nil =>
    rw [items] at member
    cases member
  | cons b rest =>
    rw [items] at member
    rw [List.head?_cons, List.mem_singleton.mp member]

theorem printLists_from (noAll : options.allPriorities = false) {lists : List Plain}
    (among : ∀ list ∈ lists, list ∈ LinearProbe.stored comp.resources) :
    FromFirsts res comp options (printLists res comp style options lists) := by
  induction lists with
  | nil => exact FromFirsts.nothing true
  | cons list rest ih =>
    have later := ih fun other member => among other (List.mem_cons_of_mem _ member)
    have here {b : Addr} {text : List Char} (member : (some b, text) ∈
        (printItems res comp style options (lookedAt options list)).items) :
        Source res comp options b := by
      obtain ⟨looked, shown⟩ := printItems_from member
      exact ⟨list, among list List.mem_cons_self, head_of_lookedAt noAll looked, shown⟩
    rw [printLists]
    split
    case isTrue =>
      refine ⟨fun b text member => ?_, later.names⟩
      rcases List.mem_append.mp member with first | second
      · exact here first
      · exact later.items b text second
    case isFalse =>
      refine ⟨fun b text => here, fun tag member => ?_⟩
      rw [printItems_names] at member
      cases member

section Loops

variable (valid : ∀ r ∈ firsts res comp, Resource.validName r.name = true)
include valid

private theorem exportList_from {valPfx : String} {typePfx : Option String}
    {s : Written (List Char)} (from_ : FromFirsts res comp options s) {list : Plain}
    (inside : list ∈ LinearProbe.stored comp.resources) :
    FromFirsts res comp options (exportList res valPfx typePfx options s list) := by
  rw [exportList]
  cases head : list.items.head? with
  | none => exact from_
  | some a =>
    simp only
    by_cases shown : Shown options (res a)
    · have source : Source res comp options a := ⟨list, inside, head, shown⟩
      have named := from_.name source (valid _ source.mem_firsts.1)
      rw [if_pos shown]
      cases TypedResource.toExport (res a) none (some valPfx) typePfx options with
      | error msg => exact from_.ok false
      | ok out =>
        simp only
        split
        · exact (named.write source [out.text]).ok _
        · exact named.ok _
    · rw [if_neg shown]
      exact from_

theorem toExport_from (valPfx typePfx : Option String) :
    FromFirsts res comp options (toExport res comp valPfx typePfx options) := by
  have loop (valPfx : String) (typePfx : Option String) :
      FromFirsts res comp options
        ((LinearProbe.stored comp.resources).foldl (exportList res valPfx typePfx options) {}) := by
    refine List.foldlRecOn _ _ (FromFirsts.nothing true) fun s from_ list inside => ?_
    exact exportList_from valid from_ inside
  rw [toExport]
  split
  · exact FromFirsts.nothing false
  · split
    · exact FromFirsts.nothing true
    · simp only
      split
      · exact (loop _ _).close _
      · exact loop _ _

private theorem envList_from {valPfx : String} {typePfx : Option String}
    {s : Written Shell.Assignment × Option String} (from_ : FromFirsts res comp options s.1)
    {list : Plain} (inside : list ∈ LinearProbe.stored comp.resources) :
    FromFirsts res comp options (envList res comp valPfx typePfx options s list).1 := by
  rw [envList]
  cases head : list.items.head? with
  | none => exact from_
  | some a =>
    simp only
    by_cases shown : Shown options (res a)
    · have source : Source res comp options a := ⟨list, inside, head, shown⟩
      have written := from_.write source
        (TypedResource.toEnv (res a) none (some valPfx) typePfx options).1
      rw [if_pos shown]
      split
      · exact (written.name source (valid _ source.mem_firsts.1)).ok _
      · exact written.ok false
    · rw [if_neg shown]
      exact from_

theorem toEnv_from (valPfx typePfx : Option String) :
    FromFirsts res comp options (toEnv res comp valPfx typePfx options).1 := by
  have loop (valPfx : String) (typePfx : Option String) :
      FromFirsts res comp options ((LinearProbe.stored comp.resources).foldl
        (envList res comp valPfx typePfx options) ({}, none)).1 := by
    refine List.foldlRecOn (motive := fun s : Written Shell.Assignment × Option String =>
      FromFirsts res comp options s.1) _ _ (FromFirsts.nothing true) fun s from_ list inside => ?_
    exact envList_from valid from_ inside
  rw [toEnv]
  split
  · exact FromFirsts.nothing false
  · split
    · exact FromFirsts.nothing true
    · simp only
      split
      · split
        · exact (loop _ _).ok false
        · exact (loop _ _).close _
      · exact loop _ _

theorem writes_from (noAll : options.allPriorities = false) {out : Written (List Char)}
    (writes : Writes res comp style options out) : FromFirsts res comp options out := by
  rw [Writes] at writes
  split at writes
  · rw [writes]
    exact toExport_from valid none none
  · split at writes
    · rw [writes]
      exact FromFirsts.nothing true
    · obtain ⟨sorted, sorts, rfl⟩ := writes
      have printed := @printLists_from res comp style { options with newline := true } noAll sorted
        fun list member => sorts.perm.subset member
      exact ⟨printed.items, printed.names⟩

end Loops

/-! ## Inactive resources -/

theorem printItems_written {items : List Addr}
    (writable : ∀ a ∈ items, (resourceToString (res a) comp.name style options).isSome = true) :
    (printItems res comp style options items).ok = true ∧
      ∀ a ∈ items, Shown options (res a) →
        ∃ text, (some a, text) ∈ (printItems res comp style options items).items := by
  induction items with
  | nil => exact ⟨rfl, fun a member => nomatch member⟩
  | cons b rest ih =>
    obtain ⟨ok, written⟩ := ih fun a member => writable a (List.mem_cons_of_mem _ member)
    obtain ⟨own, here⟩ := Option.isSome_iff_exists.mp (writable b List.mem_cons_self)
    rw [printItems, here]
    by_cases shown : Shown options (res b)
    · rw [if_pos shown]
      refine ⟨ok, fun a member shown' => ?_⟩
      rcases List.mem_cons.mp member with rfl | later
      · exact ⟨own, List.mem_cons_self⟩
      · obtain ⟨text, inside⟩ := written a later shown'
        exact ⟨text, List.mem_cons_of_mem _ inside⟩
    · rw [if_neg shown]
      refine ⟨ok, fun a member shown' => ?_⟩
      rcases List.mem_cons.mp member with rfl | later
      · exact absurd shown' shown
      · exact written a later shown'

theorem printLists_written {lists : List Plain} (writable : ∀ list ∈ lists,
      ∀ a ∈ list.items, (resourceToString (res a) comp.name style options).isSome = true)
    {list : Plain} (inside : list ∈ lists) (head : list.items.head? = some a)
    (shown : Shown options (res a)) :
    ∃ text, (some a, text) ∈ (printLists res comp style options lists).items := by
  induction lists with
  | nil => cases inside
  | cons other rest ih =>
    have looked : ∀ b ∈ lookedAt options other, b ∈ other.items := by
      intro b member
      rw [lookedAt] at member
      split at member
      · exact member
      · exact List.mem_of_mem_take member
    obtain ⟨ok, written⟩ := printItems_written fun b member =>
      writable other List.mem_cons_self b (looked b member)
    rw [printLists, if_pos ok]
    rcases List.mem_cons.mp inside with rfl | later
    · have first : a ∈ lookedAt options list := by
        obtain ⟨more, items⟩ := List.head?_eq_some_iff.mp head
        rw [lookedAt, items]
        split <;> simp
      obtain ⟨text, here⟩ := written a first shown
      exact ⟨text, List.mem_append_left _ here⟩
    · obtain ⟨text, here⟩ := ih (fun l member => writable l (List.mem_cons_of_mem _ member)) later
      exact ⟨text, List.mem_append_right _ here⟩

/-- Specifications are written for all first resources which are shown, active or not. -/
theorem exists_writes_spec (tabled : Tabled hash (base res) comp) {a : Addr}
    (source : Source res comp options a) :
    ∃ out text, Writes res comp .spec options out ∧ (some a, text) ∈ out.items := by
  obtain ⟨list, inside, head, shown⟩ := id source
  obtain ⟨sorted, sorts⟩ := listCmp_preorder.exists_sorts (LinearProbe.stored comp.resources)
  have writable : ∀ list ∈ sorted, ∀ a ∈ list.items,
      (resourceToString (res a) comp.name .spec { options with newline := true }).isSome = true := by
    intro list member b mem
    obtain ⟨name, listFor⟩ := tabled.named list (sorts.perm.subset member)
    have named : (res b).name = some name := listFor.named b mem
    have some_ : Lcfg.isEmpty (some name) = false := by simpa [Lcfg.isEmpty] using listFor.name_ne
    simp [resourceToString, TypedResource.toSpec, TypedResource.insertKey, named, some_]
  obtain ⟨text, written⟩ := printLists_written writable (sorts.perm.symm.subset inside) head shown
  refine ⟨_, text, ?_, written⟩
  have some_ : ¬ isEmpty (some comp) = true := by
    intro empty
    have nothing := (size_eq_zero_iff tabled).mp (by simpa [isEmpty] using empty)
    have member := source.mem_firsts.1
    rw [nothing] at member
    cases member
  rw [Writes, if_neg (by decide), if_neg some_]
  exact ⟨sorted, sorts, rfl⟩

/-- No writer shows an inactive resource. -/
def AllOnlyActive (res : Addr → TypedResource) (comp : PlainComponent) (options : LCFGOption) :
    Prop :=
  (∀ style out, Writes res comp style options out → OnlyActive res comp out) ∧
  (∀ valPfx typePfx, OnlyActive res comp (toExport res comp valPfx typePfx options)) ∧
  ∀ valPfx typePfx, OnlyActive res comp (toEnv res comp valPfx typePfx options).1

theorem not_onlyActive (tabled : Tabled hash (base res) comp) {r : TypedResource}
    (member : r ∈ firsts res comp) (shown : Shown options r) (inactive : r.priority < 0) :
    ¬ AllOnlyActive res comp options := by
  rintro ⟨printed, -, -⟩
  obtain ⟨a, source, rfl⟩ := exists_source member shown
  obtain ⟨out, text, writes, inside⟩ := exists_writes_spec tabled source
  exact absurd ((printed _ _ writes).items a text inside) (by omega)

theorem onlyActive_iff (tabled : Tabled hash (base res) comp)
    (valid : ∀ r ∈ firsts res comp, Resource.validName r.name = true)
    (noAll : options.allPriorities = false) :
    AllOnlyActive res comp options ↔
      ∀ r ∈ firsts res comp, Shown options r → 0 ≤ r.priority := by
  constructor
  · intro only r member shown
    by_contra inactive
    exact not_onlyActive tabled member shown (by omega) only
  · intro all
    refine ⟨fun style out writes => ?_, fun valPfx typePfx => ?_, fun valPfx typePfx => ?_⟩
    · exact (writes_from valid noAll writes).onlyActive tabled all
    · exact (toExport_from valid valPfx typePfx).onlyActive tabled all
    · exact (toEnv_from valid valPfx typePfx).onlyActive tabled all

theorem plainSample_onlyActive :
    AllOnlyActive (withResource "auth" plainSample).res (withResource "auth" plainSample).comp
      { useMeta := true } := by
  obtain ⟨component, only⟩ := @withResource_storable true "auth" _ "users" rfl (by decide) (by decide)
    plainSample_storable
  refine (onlyActive_iff component.tabled component.names rfl).mpr fun r member _ => ?_
  rw [(only r).mp member]
  decide

/-- An inactive resource with a value. -/
def inactiveSample : TypedResource :=
  { TypedResource.newNamed "server" with value := some "ntp.example.org", priority := -1 }

theorem inactiveSample_storable : TypedResource.Storable true inactiveSample where
  valued := by decide
  bytes := Fields.of_all (by decide)
  fits := by decide
  context := fun _ none_ => by cases none_
  comment := fun _ none_ => by cases none_
  template := fun list => by cases list
  derivation := ⟨fun _ none_ => (by cases none_), by decide⟩
  files := fun _ none_ => by cases none_

/-- All three writers write the first resource of a name without a look at its priority. -/
theorem inactiveSample_written :
    StorableComponent djbhash true (withResource "ntp" inactiveSample).res
        (withResource "ntp" inactiveSample).comp "ntp" ∧
      ¬ AllOnlyActive (withResource "ntp" inactiveSample).res (withResource "ntp" inactiveSample).comp
        {} ∧
      (toExport (withResource "ntp" inactiveSample).res (withResource "ntp" inactiveSample).comp
        none none {}).items =
        [(some 0, "export LCFG_ntp_server='ntp.example.org'\n".toList),
          (none, "export LCFG_ntp__RESOURCES='server'\n".toList)] ∧
      (toEnv (withResource "ntp" inactiveSample).res (withResource "ntp" inactiveSample).comp
        none none {}).1.items =
        [(some 0, "LCFG_ntp_server".toList, "ntp.example.org".toList),
          (none, "LCFG_ntp__RESOURCES".toList, "server".toList)] := by
  obtain ⟨component, only⟩ := @withResource_storable true "ntp" _ "server" rfl (by decide) (by decide)
    inactiveSample_storable
  refine ⟨component, not_onlyActive component.tabled ((only _).mpr rfl) ?_ ?_, ?_, ?_⟩
  · decide
  · decide
  · decide +kernel
  · decide +kernel

end PlainComponent

end Lcfg
