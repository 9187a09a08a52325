import LcfgCore.Profile.Diff
import LcfgCore.Library.BubbleSort

/-!
# Hold files

The text which is written for the differences between two profiles, sorted by the names
of components and resources (`lcfgdiffprofile_to_holdfile`).

## Main results

`holdfile_canonical`: the text depends on the two profiles only as maps from the names of
components and resources to active resources, and both sorts end, with names in strictly
increasing order.
-/
namespace Lcfg

/-- The entries of two lists in the same order, by their names. -/
def nameAfter {α : Type} (name : α → Option String) (item1 item2 : α) : Bool :=
  strcmp ((name item1).getD "") ((name item2).getD "") > 0

/-- The sort of both kinds of lists: `lcfgdiffprofile_sort`, `lcfgdiffcomponent_sort`. -/
def sortByName {α : Type} (name : α → Option String) (list : List α) : List α :=
  if list.length < 2 then list else BubbleSort.sort (nameAfter name) list

namespace DiffResource

/-- The value which is shown; nothing for a resource which is missing or has no value. -/
def holdValue (res : Option TypedResource) : List Char :=
  match res.filter TypedResource.hasValue with
  | none => []
  | some res =>
    let value := (res.value.getD "").toList
    if TypedResource.needsEncode res then TypedResource.encValue value else value

/-- `lcfgdiffresource_to_hold`; there is no text for a resource without a name. -/
def toHold (resdiff : LCFGDiffResource) (pre : Option String) : Option (List Char) :=
  (getName resdiff).map fun name =>
    let oldValue := holdValue resdiff.old
    let newValue := holdValue resdiff.new
    let showChange := if oldValue = [] then newValue ≠ [] else newValue = [] ∨ oldValue ≠ newValue
    if showChange then
      ((pre.map fun pre => pre.toList ++ ['.']).getD []) ++ name.toList ++ ":\n".toList ++
        " - ".toList ++ oldValue ++ ['\n'] ++ " + ".toList ++ newValue ++ ['\n']
    else []

end DiffResource

namespace DiffComponent

def sort (compdiff : LCFGDiffComponent) : LCFGDiffComponent :=
  { compdiff with resdiffs := sortByName DiffResource.getName compdiff.resdiffs }

/-- `lcfgdiffcomponent_to_holdfile` stops at an entry for which there is no text. -/
def toHoldfile (compdiff : LCFGDiffComponent) : Option (List Char) :=
  let pre := compdiff.name.filter (· ≠ "")
  (compdiff.resdiffs.mapM fun resdiff => DiffResource.toHold resdiff pre).map List.flatten

end DiffComponent

namespace DiffProfile

def sort (profdiff : LCFGDiffProfile) : LCFGDiffProfile :=
  sortByName (fun compdiff => compdiff.name) profdiff

/-- The texts for the components, one after another. -/
def writeComponents : LCFGDiffProfile → Except String (List Char)
  | [] => .ok []
  | compdiff :: rest =>
    match DiffComponent.toHoldfile (DiffComponent.sort compdiff) with
    | none =>
      .error ("Failed to write hold file for '" ++ compdiff.name.getD "(null)" ++ "' component")
    | some text => (writeComponents rest).map fun more => text ++ more

/-- The text which `lcfgdiffprofile_to_holdfile` writes. -/
def toHoldfile (profdiff : LCFGDiffProfile) (signature : Option String) :
    Except String (List Char) :=
  (writeComponents (sort profdiff)).map fun text =>
    text ++ (signature.map fun signature =>
      "signature: ".toList ++ signature.toList ++ ['\n']).getD []

end DiffProfile

/-! ## Sorting by name -/

section Sorting

variable {α : Type} {name : α → Option String}

theorem nameAfter_asymm (item1 item2 : α) (after : nameAfter name item1 item2 = true) :
    nameAfter name item2 item1 = false := by
  have swapped := strcmp_swap ((name item1).getD "") ((name item2).getD "")
  simp only [nameAfter, gt_iff_lt, decide_eq_true_eq, decide_eq_false_iff_not] at after ⊢
  omega

theorem nameAfter_trans (item1 item2 item3 : α) (left : nameAfter name item1 item2 = false)
    (right : nameAfter name item2 item3 = false) : nameAfter name item1 item3 = false := by
  simp only [nameAfter, gt_iff_lt, decide_eq_false_iff_not, not_lt] at left right ⊢
  exact strcmp_trans left right

theorem sortByName_perm (list : List α) : (sortByName name list).Perm list := by
  rw [sortByName]
  split
  · exact .refl _
  · exact BubbleSort.sort_perm list

theorem sortByName_pairwise (list : List α) :
    (sortByName name list).Pairwise fun item1 item2 => nameAfter name item1 item2 = false := by
  rw [sortByName]
  split
  case isTrue short =>
    match list, short with
    | [], _ => exact .nil
    | [item], _ => exact List.pairwise_singleton _ item
  case isFalse => exact BubbleSort.sort_pairwise nameAfter_asymm nameAfter_trans list

/-! ## What the text depends on -/

/-- The loop which sorts a list ends, with names in strictly increasing order. -/
structure SortEnds (name : α → Option String) (list : List α) : Prop where
  ends : BubbleSort.Loop (nameAfter name) list (sortByName name list)
  named : ∀ item ∈ sortByName name list, ∃ text, name item = some text
  increasing : ((sortByName name list).map fun item => (name item).getD "").Pairwise
    fun text1 text2 => strcmp text1 text2 < 0

theorem sortByName_ends (list : List α) :
    BubbleSort.Loop (nameAfter name) list (sortByName name list) := by
  rw [sortByName]
  split
  case isTrue short =>
    match list, short with
    | [], _ => exact .done rfl
    | [item], _ => exact .done rfl
  case isFalse => exact BubbleSort.loop_sort nameAfter_asymm list

theorem sortEnds {list : List α} (named : ∀ item ∈ list, ∃ text, name item = some text)
    (nodup : (list.map name).Nodup) : SortEnds name list := by
  have perm := @sortByName_perm _ name list
  refine ⟨sortByName_ends list, fun item member => named item (perm.mem_iff.mp member), ?_⟩
  rw [List.pairwise_map]
  have distinct := List.pairwise_map.mp ((perm.map name).nodup_iff.mpr nodup)
  refine ((sortByName_pairwise list).and distinct).imp_of_mem fun {item1 item2} here there both => ?_
  obtain ⟨text1, name1⟩ := named item1 (perm.mem_iff.mp here)
  obtain ⟨text2, name2⟩ := named item2 (perm.mem_iff.mp there)
  obtain ⟨sorted, differ⟩ := both
  have unequal := (strcmp_eq_zero text1 text2).not.mpr fun same => differ (by rw [name1, name2, same])
  simp only [nameAfter, gt_iff_lt, decide_eq_false_iff_not, not_lt] at sorted
  rw [name1, name2] at sorted ⊢
  simp only [Option.getD_some] at sorted ⊢
  omega

/-- The entries of one name are found in the same order. -/
theorem sortByName_map_eq {β : Type} {list list' : List α} (view : α → Option String × β)
    (shows : ∀ item, (view item).1 = name item)
    (named : ∀ item ∈ list, ∃ text, name item = some text) (nodup : (list.map name).Nodup)
    (perm : (list.map view).Perm (list'.map view)) :
    (sortByName name list).map view = (sortByName name list').map view := by
  have sorted : ∀ list : List α, ((sortByName name list).map view).Pairwise fun pair1 pair2 =>
      strcmp (pair1.1.getD "") (pair2.1.getD "") ≤ 0 := by
    intro list
    refine List.pairwise_map.mpr ((sortByName_pairwise list).imp fun {item1 item2} ordered => ?_)
    simpa [nameAfter, shows] using ordered
  have permuted : ((sortByName name list).map view).Perm ((sortByName name list').map view) :=
    ((sortByName_perm list).map view).trans (perm.trans ((sortByName_perm list').map view).symm)
  refine permuted.eq_of_pairwise (fun pair1 pair2 here there le ge => ?_) (sorted list) (sorted list')
  obtain ⟨item1, member1, rfl⟩ := List.mem_map.mp ((((sortByName_perm list).map view).mem_iff).mp here)
  obtain ⟨item2, member2, rfl⟩ :=
    List.mem_map.mp (perm.mem_iff.mpr ((((sortByName_perm list').map view).mem_iff).mp there))
  obtain ⟨text1, name1⟩ := named item1 member1
  obtain ⟨text2, name2⟩ := named item2 member2
  have swapped := strcmp_swap text1 text2
  rw [shows, shows, name1, name2, Option.getD_some, Option.getD_some] at le ge
  have same := (strcmp_eq_zero text1 text2).mp (by omega)
  rw [List.inj_on_of_nodup_map nodup member1 member2 (by rw [name1, name2, same])]

end Sorting

namespace DiffComponent

open PlainComponent (active)

variable {res res' : Addr → TypedResource} {comp1 comp2 comp1' comp2' : Option PlainComponent}

private theorem Exact.subset {resdiffs resdiffs' : List LCFGDiffResource}
    (exact1 : Exact res comp1 comp2 resdiffs) (exact2 : Exact res' comp1' comp2' resdiffs')
    (same1 : active res comp1 = active res' comp1') (same2 : active res comp2 = active res' comp2') :
    resdiffs ⊆ resdiffs' := by
  intro resdiff member
  obtain ⟨name, named, rfl⟩ := exact1.entries resdiff member
  have differs := (exact1.listed name).mp (List.mem_map.mpr ⟨_, member, named⟩)
  rw [same1, same2] at differs
  -- the other list has an entry of this name, with the same resources
  obtain ⟨resdiff', member', named'⟩ := List.mem_map.mp ((exact2.listed name).mpr differs)
  obtain ⟨name', named'', rfl⟩ := exact2.entries resdiff' member'
  rw [named', Option.some_inj] at named''
  rw [same1, same2, named'']
  exact member'

/-- Two exact lists for the same active resources have the same entries. -/
theorem Exact.perm {resdiffs resdiffs' : List LCFGDiffResource}
    (exact1 : Exact res comp1 comp2 resdiffs) (exact2 : Exact res' comp1' comp2' resdiffs')
    (same1 : active res comp1 = active res' comp1') (same2 : active res comp2 = active res' comp2') :
    resdiffs.Perm resdiffs' :=
  (List.perm_ext_iff_of_nodup exact1.nodup.of_map exact2.nodup.of_map).mpr fun _ =>
    ⟨fun member => exact1.subset exact2 same1 same2 member,
      fun member => exact2.subset exact1 same1.symm same2.symm member⟩

/-- An exact list is sorted in one way only. -/
theorem Exact.sort_eq {resdiffs resdiffs' : List LCFGDiffResource}
    (exact1 : Exact res comp1 comp2 resdiffs) (exact2 : Exact res' comp1' comp2' resdiffs')
    (same1 : active res comp1 = active res' comp1') (same2 : active res comp2 = active res' comp2') :
    sortByName DiffResource.getName resdiffs = sortByName DiffResource.getName resdiffs' := by
  have perm := exact1.perm exact2 same1 same2
  have named : ∀ resdiff ∈ resdiffs, ∃ name, DiffResource.getName resdiff = some name :=
    fun resdiff member => (exact1.entries resdiff member).imp fun name entry => entry.1
  have views := sortByName_map_eq (fun resdiff => (DiffResource.getName resdiff, resdiff))
    (fun _ => rfl) named exact1.nodup (perm.map _)
  have back (list : List LCFGDiffResource) :
      (list.map fun resdiff => (DiffResource.getName resdiff, resdiff)).map Prod.snd = list := by
    rw [List.map_map]
    exact List.map_id list
  rw [← back (sortByName _ resdiffs), views, back]

theorem toHoldfile_isSome {compdiff : LCFGDiffComponent}
    (named : ∀ resdiff ∈ compdiff.resdiffs, ∃ name, DiffResource.getName resdiff = some name) :
    ∃ text, toHoldfile compdiff = some text := by
  have texts : ∀ list : List LCFGDiffResource, list ⊆ compdiff.resdiffs → ∃ texts,
      list.mapM (fun resdiff => DiffResource.toHold resdiff (compdiff.name.filter (· ≠ ""))) =
        some texts := by
    intro list
    induction list with
    | nil => exact fun _ => ⟨[], rfl⟩
    | cons resdiff rest ih =>
      intro among
      rw [List.cons_subset] at among
      obtain ⟨name, here⟩ := named resdiff among.1
      obtain ⟨texts, others⟩ := ih among.2
      obtain ⟨text, shown⟩ : ∃ text,
          DiffResource.toHold resdiff (compdiff.name.filter (· ≠ "")) = some text := by
        rw [DiffResource.toHold, here]
        exact ⟨_, rfl⟩
      exact ⟨text :: texts, by rw [List.mapM_cons, shown, others]; rfl⟩
  obtain ⟨texts, all⟩ := texts compdiff.resdiffs (List.Subset.refl _)
  exact ⟨texts.flatten, by rw [toHoldfile, all]; rfl⟩

end DiffComponent

namespace DiffProfile

open PlainComponent (active)
open Profile (component Exact)

variable {store store' : Store} {old new old' new' : Option LCFGProfile}

/-- What is written of a component diff: its name and its entries. -/
def view (compdiff : LCFGDiffComponent) : Option String × List LCFGDiffResource :=
  (compdiff.name, (DiffComponent.sort compdiff).resdiffs)

theorem writeComponents_view {profdiff profdiff' : LCFGDiffProfile}
    (same : profdiff.map view = profdiff'.map view) :
    writeComponents profdiff = writeComponents profdiff' := by
  induction profdiff generalizing profdiff' with
  | nil =>
    rw [List.map_nil, eq_comm, List.map_eq_nil_iff] at same
    rw [same]
  | cons compdiff rest ih =>
    cases profdiff' with
    | nil => cases same
    | cons compdiff' rest' =>
      rw [List.map_cons, List.map_cons, List.cons.injEq] at same
      obtain ⟨here, others⟩ := same
      obtain ⟨named, entries⟩ := Prod.mk.inj here
      have text : DiffComponent.toHoldfile (DiffComponent.sort compdiff) =
          DiffComponent.toHoldfile (DiffComponent.sort compdiff') := by
        rw [DiffComponent.toHoldfile, entries, DiffComponent.toHoldfile]
        simp only [DiffComponent.sort, named]
      rw [writeComponents, writeComponents, text, ih others, named]

private theorem view_subset {profdiff profdiff' : LCFGDiffProfile}
    (exact1 : Exact store old new profdiff) (exact2 : Exact store' old' new' profdiff')
    (sameOld : ∀ name, active store.res (component store old name) =
      active store'.res (component store' old' name))
    (sameNew : ∀ name, active store.res (component store new name) =
      active store'.res (component store' new' name)) :
    profdiff.map view ⊆ profdiff'.map view := by
  intro pair member
  obtain ⟨compdiff, here, rfl⟩ := List.mem_map.mp member
  obtain ⟨name, named, entries⟩ := exact1.entries compdiff here
  have differs := (exact1.listed name).mp (List.mem_map.mpr ⟨_, here, named⟩)
  rw [sameOld, sameNew] at differs
  obtain ⟨compdiff', there, named'⟩ := List.mem_map.mp ((exact2.listed name).mpr differs)
  obtain ⟨name', named'', entries'⟩ := exact2.entries compdiff' there
  rw [named', Option.some_inj] at named''
  subst named''
  refine List.mem_map.mpr ⟨compdiff', there, ?_⟩
  rw [view, view, named, named', DiffComponent.sort, DiffComponent.sort,
    entries.sort_eq entries' (sameOld name) (sameNew name)]

/-- The text depends on the active resources only. -/
theorem toHoldfile_eq {profdiff profdiff' : LCFGDiffProfile}
    (exact1 : Exact store old new profdiff) (exact2 : Exact store' old' new' profdiff')
    (sameOld : ∀ name, active store.res (component store old name) =
      active store'.res (component store' old' name))
    (sameNew : ∀ name, active store.res (component store new name) =
      active store'.res (component store' new' name)) (signature : Option String) :
    toHoldfile profdiff signature = toHoldfile profdiff' signature := by
  have nodup {store : Store} {old new : Option LCFGProfile} {profdiff : LCFGDiffProfile}
      (exact_ : Exact store old new profdiff) : (profdiff.map view).Nodup := by
    have names := exact_.nodup
    have shown : (fun compdiff : LCFGDiffComponent => compdiff.name) = Prod.fst ∘ view := rfl
    rw [shown, ← List.map_map] at names
    exact names.of_map
  have perm : (profdiff.map view).Perm (profdiff'.map view) :=
    (List.perm_ext_iff_of_nodup (nodup exact1) (nodup exact2)).mpr fun _ =>
      ⟨fun member => view_subset exact1 exact2 sameOld sameNew member,
        fun member => view_subset exact2 exact1 (fun name => (sameOld name).symm)
          (fun name => (sameNew name).symm) member⟩
  have named : ∀ compdiff ∈ profdiff, ∃ name, compdiff.name = some name :=
    fun compdiff member => (exact1.entries compdiff member).imp fun name entry => entry.1
  have sorted : (sort profdiff).map view = (sort profdiff').map view :=
    sortByName_map_eq view (fun _ => rfl) named exact1.nodup perm
  rw [toHoldfile, toHoldfile, writeComponents_view sorted]

/-- Every entry has a name, so that the text for it is written. -/
theorem toHoldfile_ok {profdiff : LCFGDiffProfile} (exact_ : Exact store old new profdiff)
    (signature : Option String) : ∃ text, toHoldfile profdiff signature = .ok text := by
  have written : ∀ list : LCFGDiffProfile, list ⊆ profdiff →
      ∃ text, writeComponents list = .ok text := by
    intro list
    induction list with
    | nil => exact fun _ => ⟨[], rfl⟩
    | cons compdiff rest ih =>
      intro among
      rw [List.cons_subset] at among
      obtain ⟨more, others⟩ := ih among.2
      obtain ⟨name, -, entries⟩ := exact_.entries compdiff among.1
      have held : ∀ resdiff ∈ (DiffComponent.sort compdiff).resdiffs, ∃ name,
          DiffResource.getName resdiff = some name := fun resdiff member =>
        (entries.entries resdiff ((sortByName_perm _).mem_iff.mp member)).imp fun _ entry => entry.1
      obtain ⟨texts, here⟩ := DiffComponent.toHoldfile_isSome held
      exact ⟨texts ++ more, by rw [writeComponents, here, others]; rfl⟩
  obtain ⟨text, all⟩ := written (sort profdiff) (sortByName_perm profdiff).subset
  rw [toHoldfile, all]
  exact ⟨_, rfl⟩

end DiffProfile

end Lcfg
