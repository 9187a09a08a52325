import LcfgCore.Components.View

/-!
# Differences between components

The full diff of two components lists the resources which differ, the quick diff only
says whether there are any (`resources/diff.c`, `resources/components/diff.c`).

## Main results

`diff_exact`: the full diff lists each name once whose first resources differ, and no
other one. `quickdiff_agrees_iff`: when both say the same about a change.
-/
namespace Lcfg

structure LCFGDiffResource where
  old : Option TypedResource
  new : Option TypedResource
deriving DecidableEq

namespace DiffResource

def getName (resdiff : LCFGDiffResource) : Option String :=
  let res := if resdiff.old.any TypedResource.isValid then resdiff.old else resdiff.new
  if res.any TypedResource.isValid then res.bind fun r => r.name else none

def getType (resdiff : LCFGDiffResource) : LCFGChange :=
  match resdiff.old, resdiff.new with
  | some old, some new => if TypedResource.sameValue old new then .none else .modified
  | some _, none => .removed
  | none, some _ => .added
  | none, none => .none

/-- `lcfgresource_diff`: resources of different names cannot be compared. -/
def diff (oldRes newRes : Option TypedResource) : LCFGChange × Option LCFGDiffResource :=
  let ok := match oldRes, newRes with
    | some oldRes, some newRes => TypedResource.sameName oldRes newRes
    | _, _ => true
  if ok then (getType ⟨oldRes, newRes⟩, some ⟨oldRes, newRes⟩) else (.error, none)

end DiffResource

structure LCFGDiffComponent where
  name : Option String
  resdiffs : List LCFGDiffResource
  changeType : LCFGChange
deriving DecidableEq

namespace DiffComponent

/-- `lcfgdiffcomponent_new` -/
def new : LCFGDiffComponent := ⟨none, [], .none⟩

def setName (compdiff : LCFGDiffComponent) (newName : String) : Option LCFGDiffComponent :=
  if Resource.validName (some newName) then some { compdiff with name := some newName } else none

/-- The loops append what has changed; the flag says that all went well. -/
def note (s : Bool × List LCFGDiffResource) (oldRes newRes : Option TypedResource) :
    Bool × List LCFGDiffResource :=
  match DiffResource.diff oldRes newRes with
  | (.error, _) => (false, s.2)
  | (.none, _) => s
  | (_, resdiff) => (s.1, s.2 ++ resdiff.toList)

section Diff

variable (hash : String → Nat) (res : Addr → TypedResource)

open PlainComponent (firsts findResource hasResource)

/-- Looks for removed and modified resources. -/
def lookForOld (comp2 : Option PlainComponent) (s : Bool × List LCFGDiffResource)
    (res1 : TypedResource) : Bool × List LCFGDiffResource :=
  match findResource hash res comp2 (res1.name.getD "") with
  | none => note s (some res1) none
  | some res2 => if TypedResource.sameValue res1 res2 then s else note s (some res1) (some res2)

/-- Looks for resources which have been added. -/
def lookForNew (comp1 : Option PlainComponent) (s : Bool × List LCFGDiffResource)
    (res2 : TypedResource) : Bool × List LCFGDiffResource :=
  if hasResource hash res comp1 (res2.name.getD "") then s else note s none (some res2)

/-- The first resources of a component which may be missing. -/
def firstsOf (comp : Option PlainComponent) : List TypedResource :=
  (comp.map (firsts res)).getD []

/-- The name of the first component which has one. -/
def nameOf (comp1 comp2 : Option PlainComponent) : Option String :=
  let named (comp : Option PlainComponent) := (comp.bind fun c => c.name).filter (· ≠ "")
  (named comp1).or (named comp2)

/-- `lcfgcomponent_diff` -/
def diff (comp1 comp2 : Option PlainComponent) : LCFGChange × Option LCFGDiffComponent :=
  let compdiff := match nameOf comp1 comp2 with
    | none => some new
    | some name => setName new name
  let s := ((firstsOf res comp1).foldl (lookForOld hash res comp2) (compdiff.isSome, []))
  let s := ((firstsOf res comp2).foldl (lookForNew hash res comp1) s)
  if s.1 then
    let changeType : LCFGChange :=
      if PlainComponent.isEmpty comp1 then
        if PlainComponent.isEmpty comp2 then .none else .added
      else if PlainComponent.isEmpty comp2 then .removed
      else if s.2 ≠ [] then .modified else .none
    (changeType, compdiff.map fun compdiff => { compdiff with resdiffs := s.2, changeType })
  else (.error, none)

/-- `lcfgcomponent_quickdiff` -/
def quickdiff (comp1 comp2 : Option PlainComponent) : LCFGChange :=
  match comp1, comp2 with
  | none, none => .none
  | none, some _ => .added
  | some _, none => .removed
  | some c1, some c2 =>
    if PlainComponent.size c1 ≠ PlainComponent.size c2 then .modified
    else if (firsts res c1).any (fun res1 =>
        match findResource hash res (some c2) (res1.name.getD "") with
        | none => true
        | some res2 => !TypedResource.sameValue res1 res2) then .modified
    else if (firsts res c2).any (fun res2 =>
        !hasResource hash res (some c1) (res2.name.getD "")) then .modified
    else .none

end Diff

/-! ## What differs -/

/-- Absent on one side, or different in value. -/
def Differs : Option TypedResource → Option TypedResource → Prop
  | none, none => False
  | some res1, some res2 => TypedResource.sameValue res1 res2 = false
  | _, _ => True

instance : ∀ old new, Decidable (Differs old new)
  | none, none => inferInstanceAs (Decidable False)
  | some _, some _ => inferInstanceAs (Decidable (_ = _))
  | none, some _ | some _, none => inferInstanceAs (Decidable True)

variable {hash : String → Nat} {res : Addr → TypedResource}

open PlainComponent (active firsts firsts_nodup mem_firsts active_name findResource_eq Tabled)

/-- A component as the library builds it; it may be missing. -/
structure Readable (hash : String → Nat) (res : Addr → TypedResource)
    (comp : Option PlainComponent) : Prop where
  tabled : ∀ c ∈ comp, Tabled hash (base res) c
  named : ∀ c ∈ comp, ∀ name, c.name = some name → name ≠ "" → Resource.validName (some name) = true

variable {comp comp1 comp2 : Option PlainComponent}

theorem mem_firstsOf (readable : Readable hash res comp) (r : TypedResource) :
    r ∈ firstsOf res comp ↔ ∃ name, active res comp name = some r := by
  cases comp with
  | none => simp [firstsOf, active]
  | some c => exact mem_firsts (readable.tabled c rfl) r

theorem firstsOf_nodup (readable : Readable hash res comp) :
    ((firstsOf res comp).map fun r => r.name).Nodup := by
  cases comp with
  | none => exact List.nodup_nil
  | some c => exact firsts_nodup (readable.tabled c rfl)

theorem isEmpty_iff (readable : Readable hash res comp) :
    PlainComponent.isEmpty comp = true ↔ ∀ name, active res comp name = none := by
  cases comp with
  | none => simp [PlainComponent.isEmpty, active]
  | some c =>
    have good := readable.tabled c rfl
    rw [PlainComponent.isEmpty, beq_iff_eq, PlainComponent.size_eq_zero_iff good,
      List.eq_nil_iff_forall_not_mem]
    simp only [mem_firsts good, not_exists, Option.eq_none_iff_forall_ne_some]
    exact forall_comm

/-- A first resource has the name under which it is found. -/
theorem active_valid (readable : Readable hash res comp) {name : String} {r : TypedResource}
    (found : active res comp name = some r) : r.name = some name ∧ TypedResource.isValid r = true := by
  cases comp with
  | none => cases found
  | some c =>
    have good := readable.tabled c rfl
    have named := active_name good found
    refine ⟨named, ?_⟩
    rw [active, Option.bind_some] at found
    obtain ⟨list, there, -⟩ := Option.bind_eq_some_iff.mp found
    have some_ := (good.listFor there).name_ne
    simp [TypedResource.isValid, Resource.isValid, Lcfg.isEmpty, named, some_]

/-- What is listed for a name. -/
def entryFor (old new : Option TypedResource) : Option LCFGDiffResource :=
  if Differs old new then some ⟨old, new⟩ else none

theorem note_eq {old new : Option TypedResource} {s : Bool × List LCFGDiffResource}
    (same : ∀ res1 ∈ old, ∀ res2 ∈ new, res1.name = res2.name) (differs : Differs old new) :
    note s old new = (s.1, s.2 ++ [⟨old, new⟩]) := by
  cases old with
  | none =>
    cases new with
    | none => exact differs.elim
    | some res2 => rfl
  | some res1 =>
    cases new with
    | none => rfl
    | some res2 =>
      have named : TypedResource.sameName res1 res2 = true := by
        simp [TypedResource.sameName, Resource.sameName, Resource.compareNames,
          same res1 rfl res2 rfl]
      have different : TypedResource.sameValue res1 res2 = false := differs
      simp [note, DiffResource.diff, DiffResource.getType, named, different]

theorem lookForOld_eq (readable1 : Readable hash res comp1) (readable2 : Readable hash res comp2)
    {name : String} {res1 : TypedResource} (found : active res comp1 name = some res1)
    (s : Bool × List LCFGDiffResource) :
    lookForOld hash res comp2 s res1 =
      (s.1, s.2 ++ (entryFor (active res comp1 name) (active res comp2 name)).toList) := by
  obtain ⟨named, -⟩ := active_valid readable1 found
  rw [lookForOld, named, Option.getD_some, findResource_eq readable2.tabled, found]
  cases other : active res comp2 name with
  | none =>
    rw [entryFor, if_pos (by trivial)]
    rfl
  | some res2 =>
    obtain ⟨named2, -⟩ := active_valid readable2 other
    cases same : TypedResource.sameValue res1 res2 with
    | true => simp [entryFor, Differs, same]
    | false =>
      have differs : Differs (some res1) (some res2) := same
      have noted := @note_eq (some res1) (some res2) s
        (fun a here b there => by
          rw [← Option.mem_some_iff.mp here, ← Option.mem_some_iff.mp there, named, named2]) differs
      simp [entryFor, differs, same, noted]

theorem lookForNew_eq (readable1 : Readable hash res comp1) (readable2 : Readable hash res comp2)
    {name : String} {res2 : TypedResource} (found : active res comp2 name = some res2)
    (s : Bool × List LCFGDiffResource) :
    lookForNew hash res comp1 s res2 =
      (s.1, s.2 ++ if active res comp1 name = none then [⟨none, some res2⟩] else []) := by
  obtain ⟨named, -⟩ := active_valid readable2 found
  rw [lookForNew, PlainComponent.hasResource, named, Option.getD_some,
    findResource_eq readable1.tabled]
  cases other : active res comp1 name with
  | none => simp [note, DiffResource.diff, DiffResource.getType]
  | some res1 => simp

/-! ## The full diff -/

variable (res) in
/-- The names of the first resources of a component. -/
def resNames (comp : Option PlainComponent) : List String :=
  (firstsOf res comp).map fun r => r.name.getD ""

variable (res) in
/-- The order in which the names of both components are looked at. -/
def allNames (comp1 comp2 : Option PlainComponent) : List String :=
  resNames res comp1 ++ (resNames res comp2).filter fun name => (active res comp1 name).isNone

variable (res) in
def entryAt (comp1 comp2 : Option PlainComponent) (name : String) : Option LCFGDiffResource :=
  entryFor (active res comp1 name) (active res comp2 name)

theorem mem_resNames (readable : Readable hash res comp) (name : String) :
    name ∈ resNames res comp ↔ active res comp name ≠ none := by
  rw [resNames, List.mem_map, Option.ne_none_iff_exists']
  constructor
  · rintro ⟨r, member, named⟩
    obtain ⟨name', found⟩ := (mem_firstsOf readable r).mp member
    rw [(active_valid readable found).1, Option.getD_some] at named
    exact ⟨r, named ▸ found⟩
  · rintro ⟨r, found⟩
    refine ⟨r, (mem_firstsOf readable r).mpr ⟨name, found⟩, ?_⟩
    rw [(active_valid readable found).1, Option.getD_some]

theorem resNames_nodup (readable : Readable hash res comp) : (resNames res comp).Nodup := by
  have all_some : ∀ r ∈ firstsOf res comp, some (r.name.getD "") = r.name := by
    intro r member
    obtain ⟨name, found⟩ := (mem_firstsOf readable r).mp member
    rw [(active_valid readable found).1, Option.getD_some]
  have nodup := firstsOf_nodup readable
  rw [← List.map_congr_left all_some] at nodup
  rw [resNames]
  exact List.Nodup.of_map some (by rwa [List.map_map])

theorem allNames_nodup (readable1 : Readable hash res comp1) (readable2 : Readable hash res comp2) :
    (allNames res comp1 comp2).Nodup := by
  refine List.nodup_append.mpr ⟨resNames_nodup readable1, (resNames_nodup readable2).filter _, ?_⟩
  rintro name old _ new rfl
  have missing := List.of_mem_filter new
  exact (mem_resNames readable1 name).mp old (Option.isNone_iff_eq_none.mp missing)

theorem mem_allNames (readable1 : Readable hash res comp1) (readable2 : Readable hash res comp2)
    (name : String) :
    name ∈ allNames res comp1 comp2 ↔
      active res comp1 name ≠ none ∨ active res comp2 name ≠ none := by
  rw [allNames, List.mem_append, List.mem_filter, mem_resNames readable1, mem_resNames readable2]
  cases active res comp1 name <;> simp

theorem Differs.ne_none {old new : Option TypedResource} (differs : Differs old new) :
    old ≠ none ∨ new ≠ none := by
  cases old with
  | some _ => exact .inl (Option.some_ne_none _)
  | none =>
    cases new with
    | some _ => exact .inr (Option.some_ne_none _)
    | none => exact differs.elim

theorem differs_none_left {new : Option TypedResource} : Differs none new ↔ new ≠ none := by
  cases new <;> simp [Differs]

theorem differs_none_right {old : Option TypedResource} : Differs old none ↔ old ≠ none := by
  cases old <;> simp [Differs]

private theorem foldl_lookForOld (readable1 : Readable hash res comp1)
    (readable2 : Readable hash res comp2) {rs : List TypedResource}
    (found : ∀ r ∈ rs, ∃ name, active res comp1 name = some r) (s : Bool × List LCFGDiffResource) :
    rs.foldl (lookForOld hash res comp2) s =
      (s.1, s.2 ++ (rs.map fun r => r.name.getD "").filterMap (entryAt res comp1 comp2)) := by
  induction rs generalizing s with
  | nil => simp
  | cons r rest ih =>
    obtain ⟨name, here⟩ := found r List.mem_cons_self
    have named : r.name.getD "" = name := by
      rw [(active_valid readable1 here).1, Option.getD_some]
    rw [List.foldl_cons, lookForOld_eq readable1 readable2 here,
      ih fun r' member => found r' (List.mem_cons_of_mem _ member), List.append_assoc,
      List.map_cons, named, List.filterMap_cons]
    change (s.1, s.2 ++ ((entryAt res comp1 comp2 name).toList ++ _)) = _
    cases entryAt res comp1 comp2 name <;> rfl

private theorem foldl_lookForNew (readable1 : Readable hash res comp1)
    (readable2 : Readable hash res comp2) {rs : List TypedResource}
    (found : ∀ r ∈ rs, ∃ name, active res comp2 name = some r) (s : Bool × List LCFGDiffResource) :
    rs.foldl (lookForNew hash res comp1) s =
      (s.1, s.2 ++ ((rs.map fun r => r.name.getD "").filter fun name =>
        (active res comp1 name).isNone).filterMap (entryAt res comp1 comp2)) := by
  induction rs generalizing s with
  | nil => simp
  | cons r rest ih =>
    obtain ⟨name, here⟩ := found r List.mem_cons_self
    have named : r.name.getD "" = name := by
      rw [(active_valid readable2 here).1, Option.getD_some]
    rw [List.foldl_cons, lookForNew_eq readable1 readable2 here,
      ih fun r' member => found r' (List.mem_cons_of_mem _ member), List.append_assoc,
      List.map_cons, named, List.filter_cons]
    cases old : active res comp1 name with
    | some r1 => simp
    | none =>
      have listed : entryAt res comp1 comp2 name = some ⟨none, some r⟩ := by
        rw [entryAt, old, here, entryFor, if_pos (by trivial)]
      simp [listed]

theorem nameOf_valid (readable1 : Readable hash res comp1) (readable2 : Readable hash res comp2)
    {name : String} (named : nameOf comp1 comp2 = some name) :
    Resource.validName (some name) = true := by
  simp only [nameOf, Option.or_eq_some_iff, Option.filter_eq_some_iff, Option.bind_eq_some_iff]
    at named
  rcases named with ⟨⟨c, here, isName⟩, some_⟩ | ⟨-, ⟨c, here, isName⟩, some_⟩
  · exact readable1.named c here name isName (by simpa using some_)
  · exact readable2.named c here name isName (by simpa using some_)

/-- The change which a diff finds. -/
def changeFor (comp1 comp2 : Option PlainComponent) (resdiffs : List LCFGDiffResource) :
    LCFGChange :=
  if PlainComponent.isEmpty comp1 then
    if PlainComponent.isEmpty comp2 then .none else .added
  else if PlainComponent.isEmpty comp2 then .removed
  else if resdiffs ≠ [] then .modified else .none

theorem changeFor_ne_error (comp1 comp2 : Option PlainComponent)
    (resdiffs : List LCFGDiffResource) : changeFor comp1 comp2 resdiffs ≠ .error := by
  rw [changeFor]
  repeat' split
  all_goals simp

theorem diff_eq (readable1 : Readable hash res comp1) (readable2 : Readable hash res comp2) :
    let resdiffs := (allNames res comp1 comp2).filterMap (entryAt res comp1 comp2)
    let changeType := changeFor comp1 comp2 resdiffs
    diff hash res comp1 comp2 = (changeType, some ⟨nameOf comp1 comp2, resdiffs, changeType⟩) := by
  intro resdiffs changeType
  have isNew : (match nameOf comp1 comp2 with
      | none => some new
      | some name => setName new name) = some ⟨nameOf comp1 comp2, [], .none⟩ := by
    cases named : nameOf comp1 comp2 with
    | none => rfl
    | some name => exact if_pos (nameOf_valid readable1 readable2 named)
  have old := foldl_lookForOld readable1 readable2
    (fun r member => (mem_firstsOf readable1 r).mp member) (true, [])
  have both := foldl_lookForNew readable1 readable2
    (fun r member => (mem_firstsOf readable2 r).mp member)
    (true, [] ++ ((firstsOf res comp1).map fun r => r.name.getD "").filterMap
      (entryAt res comp1 comp2))
  rw [List.nil_append, ← List.filterMap_append] at both
  simp only [diff, isNew, Option.isSome_some, old, List.nil_append]
  rw [both]
  rfl

/-- The list names what differs, each name once, with the first resources of both sides. -/
structure Exact (res : Addr → TypedResource) (comp1 comp2 : Option PlainComponent)
    (resdiffs : List LCFGDiffResource) : Prop where
  nodup : (resdiffs.map DiffResource.getName).Nodup
  listed : ∀ name, some name ∈ resdiffs.map DiffResource.getName ↔
    Differs (active res comp1 name) (active res comp2 name)
  entries : ∀ resdiff ∈ resdiffs, ∃ name, DiffResource.getName resdiff = some name ∧
    resdiff = ⟨active res comp1 name, active res comp2 name⟩

theorem getName_eq (readable1 : Readable hash res comp1) (readable2 : Readable hash res comp2)
    {name : String} (there : active res comp1 name ≠ none ∨ active res comp2 name ≠ none) :
    DiffResource.getName ⟨active res comp1 name, active res comp2 name⟩ = some name := by
  cases old : active res comp1 name with
  | some r =>
    obtain ⟨named, valid⟩ := active_valid readable1 old
    simp [DiffResource.getName, valid, named]
  | none =>
    obtain ⟨r, new⟩ := Option.ne_none_iff_exists'.mp (there.resolve_left (not_not.mpr old))
    obtain ⟨named, valid⟩ := active_valid readable2 new
    simp [DiffResource.getName, new, valid, named]

theorem entryAt_eq_some {name : String} {resdiff : LCFGDiffResource} :
    entryAt res comp1 comp2 name = some resdiff ↔
      Differs (active res comp1 name) (active res comp2 name) ∧
        resdiff = ⟨active res comp1 name, active res comp2 name⟩ := by
  rw [entryAt, entryFor]
  split
  case isTrue differs => simp [differs, eq_comm]
  case isFalse same => simp [same]

theorem exact_filterMap (readable1 : Readable hash res comp1)
    (readable2 : Readable hash res comp2) :
    Exact res comp1 comp2 ((allNames res comp1 comp2).filterMap (entryAt res comp1 comp2)) := by
  have named : ∀ name resdiff, entryAt res comp1 comp2 name = some resdiff →
      DiffResource.getName resdiff = some name := by
    intro name resdiff listed
    obtain ⟨differs, rfl⟩ := entryAt_eq_some.mp listed
    exact getName_eq readable1 readable2 differs.ne_none
  refine ⟨?_, fun name => ?_, fun resdiff member => ?_⟩
  · -- the name of an entry is the one at which it was found
    rw [List.map_filterMap]
    refine List.Nodup.filterMap ?_ (allNames_nodup readable1 readable2)
    intro name name' shown here here'
    rw [Option.mem_def, Option.map_eq_some_iff] at here here'
    obtain ⟨resdiff, listed, rfl⟩ := here
    obtain ⟨resdiff', listed', same⟩ := here'
    rw [named _ _ listed, named _ _ listed', Option.some_inj] at same
    exact same.symm
  · rw [List.mem_map]
    constructor
    · rintro ⟨resdiff, member, shown⟩
      obtain ⟨name', -, listed⟩ := List.mem_filterMap.mp member
      rw [named _ _ listed, Option.some_inj] at shown
      exact shown ▸ (entryAt_eq_some.mp listed).1
    · intro differs
      have listed := entryAt_eq_some.mpr ⟨differs, rfl⟩
      have member := (mem_allNames readable1 readable2 name).mpr differs.ne_none
      exact ⟨_, List.mem_filterMap.mpr ⟨name, member, listed⟩, named _ _ listed⟩
  · obtain ⟨name, -, listed⟩ := List.mem_filterMap.mp member
    exact ⟨name, named _ _ listed, (entryAt_eq_some.mp listed).2⟩

/-- Main lemma: the full diff succeeds and its list is exact. -/
theorem diff_exact (readable1 : Readable hash res comp1) (readable2 : Readable hash res comp2) :
    ∃ compdiff, (diff hash res comp1 comp2).2 = some compdiff ∧
      Exact res comp1 comp2 compdiff.resdiffs := by
  rw [diff_eq readable1 readable2]
  exact ⟨_, rfl, exact_filterMap readable1 readable2⟩

theorem Exact.eq_nil_iff {resdiffs : List LCFGDiffResource} (exact_ : Exact res comp1 comp2 resdiffs) :
    resdiffs = [] ↔ ∀ name, ¬ Differs (active res comp1 name) (active res comp2 name) := by
  constructor
  · rintro rfl name differs
    have listed := (exact_.listed name).mpr differs
    cases listed
  · intro same
    refine List.eq_nil_iff_forall_not_mem.mpr fun resdiff member => ?_
    obtain ⟨name, named, -⟩ := exact_.entries resdiff member
    exact same name ((exact_.listed name).mp (List.mem_map.mpr ⟨resdiff, member, named⟩))

/-- If just one side is empty a resource of the other one differs. -/
theorem exists_differs (readable1 : Readable hash res comp1) (readable2 : Readable hash res comp2)
    (sides : PlainComponent.isEmpty comp1 ≠ PlainComponent.isEmpty comp2) :
    ∃ name, Differs (active res comp1 name) (active res comp2 name) := by
  cases none1 : PlainComponent.isEmpty comp1 with
  | true =>
    have some2 : ¬ PlainComponent.isEmpty comp2 = true := fun none2 => sides (none1.trans none2.symm)
    rw [isEmpty_iff readable2, not_forall] at some2
    obtain ⟨name, there⟩ := some2
    refine ⟨name, ?_⟩
    rw [(isEmpty_iff readable1).mp none1 name]
    exact differs_none_left.mpr there
  | false =>
    have none2 : PlainComponent.isEmpty comp2 = true := by
      rw [none1] at sides
      exact Bool.eq_true_of_not_eq_false sides.symm
    rw [← Bool.not_eq_true, isEmpty_iff readable1, not_forall] at none1
    obtain ⟨name, there⟩ := none1
    refine ⟨name, ?_⟩
    rw [(isEmpty_iff readable2).mp none2 name]
    exact differs_none_right.mpr there

/-- The full diff reports no change if and only if no resource differs. -/
theorem diff_none_iff (readable1 : Readable hash res comp1) (readable2 : Readable hash res comp2) :
    (diff hash res comp1 comp2).1 = .none ↔
      ∀ name, ¬ Differs (active res comp1 name) (active res comp2 name) := by
  have sides := (exact_filterMap readable1 readable2).eq_nil_iff
  have differs := exists_differs readable1 readable2
  rw [diff_eq readable1 readable2, changeFor]
  cases none1 : PlainComponent.isEmpty comp1 <;> cases none2 : PlainComponent.isEmpty comp2
  case false.false =>
    rw [← sides]
    simp
  case true.true =>
    -- nothing is listed for two components without resources
    have all1 := (isEmpty_iff readable1).mp none1
    have all2 := (isEmpty_iff readable2).mp none2
    simp only [all1, all2, if_true, true_iff]
    exact fun _ => id
  all_goals
    rw [none1, none2] at differs
    obtain ⟨name, different⟩ := differs (by simp)
    refine iff_of_false (by simp) fun same => same name different

/-! ## The quick diff -/

/-- When the short cuts of the quick diff are safe. -/
def Comparable (res : Addr → TypedResource) : Option PlainComponent → Option PlainComponent → Prop
  | none, none => True
  | none, some c | some c, none => PlainComponent.size c ≠ 0
  | some c1, some c2 => PlainComponent.size c1 ≠ PlainComponent.size c2 →
      ∃ name, Differs (active res (some c1) name) (active res (some c2) name)

/-- The quick diff of two components compares sizes and first resources. -/
theorem quickdiff_none_iff {c1 c2 : PlainComponent} (readable1 : Readable hash res (some c1))
    (readable2 : Readable hash res (some c2)) :
    quickdiff hash res (some c1) (some c2) = .none ↔
      PlainComponent.size c1 = PlainComponent.size c2 ∧
        ∀ name, ¬ Differs (active res (some c1) name) (active res (some c2) name) := by
  -- the first loop looks for resources which are gone or have another value
  have oldSame : (firsts res c1).any (fun res1 =>
        match PlainComponent.findResource hash res (some c2) (res1.name.getD "") with
        | none => true
        | some res2 => !TypedResource.sameValue res1 res2) = false ↔
      ∀ name, active res (some c1) name ≠ none →
        ¬ Differs (active res (some c1) name) (active res (some c2) name) := by
    simp only [List.any_eq_false, findResource_eq readable2.tabled]
    constructor
    · intro same name there
      obtain ⟨r, found⟩ := Option.ne_none_iff_exists'.mp there
      have alike := same r ((mem_firstsOf readable1 r).mpr ⟨name, found⟩)
      rw [(active_valid readable1 found).1, Option.getD_some] at alike
      rw [found]
      cases other : active res (some c2) name with
      | none => simp [other] at alike
      | some r2 => simpa [other, Differs] using alike
    · intro same r member
      obtain ⟨name, found⟩ := (mem_firstsOf readable1 r).mp member
      have alike := same name (by simp [found])
      rw [(active_valid readable1 found).1, Option.getD_some]
      rw [found] at alike
      cases other : active res (some c2) name with
      | none => exact absurd (by rw [other]; trivial) alike
      | some r2 => simpa [other, Differs] using alike
  -- the second loop looks for new ones
  have newKnown : (firsts res c2).any (fun res2 =>
        !PlainComponent.hasResource hash res (some c1) (res2.name.getD "")) = false ↔
      ∀ name, active res (some c2) name ≠ none → active res (some c1) name ≠ none := by
    simp only [List.any_eq_false, PlainComponent.hasResource, findResource_eq readable1.tabled]
    constructor
    · intro known name there
      obtain ⟨r, found⟩ := Option.ne_none_iff_exists'.mp there
      have old := known r ((mem_firstsOf readable2 r).mpr ⟨name, found⟩)
      rw [(active_valid readable2 found).1, Option.getD_some] at old
      simpa [Option.isSome_iff_ne_none] using old
    · intro known r member
      obtain ⟨name, found⟩ := (mem_firstsOf readable2 r).mp member
      rw [(active_valid readable2 found).1, Option.getD_some]
      simpa [Option.isSome_iff_ne_none] using known name (by simp [found])
  rw [quickdiff]
  split
  -- different sizes are a change
  case isTrue sizes => exact iff_of_false (by simp) fun both => sizes both.1
  case isFalse sizes =>
    rw [ne_eq, not_not] at sizes
    split
    case isTrue changed =>
      refine iff_of_false (by simp) fun both => ?_
      rw [oldSame.mpr fun name _ => both.2 name] at changed
      cases changed
    case isFalse old =>
      rw [Bool.not_eq_true, oldSame] at old
      split
      case isTrue changed =>
        refine iff_of_false (by simp) fun both => ?_
        rw [newKnown.mpr fun name there missing => both.2 name ?_] at changed
        · cases changed
        · rw [missing]
          exact differs_none_left.mpr there
      -- with no change found the old and the new names are the same
      case isFalse new =>
        rw [Bool.not_eq_true, newKnown] at new
        refine iff_of_true rfl ⟨sizes, fun name differs => ?_⟩
        have there := differs.ne_none.elim id (new name)
        exact old name there differs

theorem quickdiff_some (c1 c2 : PlainComponent) :
    quickdiff hash res (some c1) (some c2) = .modified ∨
      quickdiff hash res (some c1) (some c2) = .none := by
  rw [quickdiff]
  repeat' split
  all_goals simp

/-- A component is like a missing one if it has no resources. -/
private theorem size_eq_zero_iff {c : PlainComponent} (readable : Readable hash res (some c)) :
    PlainComponent.size c = 0 ↔ ∀ name, active res (some c) name = none := by
  rw [← isEmpty_iff readable, PlainComponent.isEmpty, beq_iff_eq]

/-- When the quick diff and the full diff agree about a change. -/
theorem quickdiff_agrees_iff (readable1 : Readable hash res comp1)
    (readable2 : Readable hash res comp2) :
    (quickdiff hash res comp1 comp2 = .none ↔ (diff hash res comp1 comp2).1 = .none) ↔
      Comparable res comp1 comp2 := by
  rw [diff_none_iff readable1 readable2]
  cases comp1 with
  | none =>
    cases comp2 with
    | none => simp [quickdiff, Comparable, active, Differs]
    | some c2 =>
      have missing (name : String) : active res none name = none := rfl
      simp [quickdiff, Comparable, missing, differs_none_left, size_eq_zero_iff readable2]
  | some c1 =>
    cases comp2 with
    | none =>
      have missing (name : String) : active res none name = none := rfl
      simp [quickdiff, Comparable, missing, differs_none_right, size_eq_zero_iff readable1]
    | some c2 =>
      rw [quickdiff_none_iff readable1 readable2, Comparable, ← not_forall_not]
      tauto

end DiffComponent

end Lcfg
