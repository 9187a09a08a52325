import LcfgCore.Bdb.RoundTrip

/-!
# Reading all components of a database

The components are found by a cursor over all records: the keys without a full stop are names
of components (`lcfgbdb_process_components`).

## Main result

`bdb_roundTrips_iff`: a component set which has been written to a new database is read back as
it was, but for empty components, if and only if all of its resources come back.
-/
namespace Lcfg

open Assignments (assign assigned)
open PlainComponent (firsts active)
open CompSet (LoadedSet valueOf nameOf entry)

namespace Bdb

/-- `strndup( key.data, key.size )` -/
def keyName (key : List Char) : String := String.ofList (key.takeWhile (· ≠ '\x00'))

/-- What is made of a key which the cursor gives. -/
def addComponent (allComps : LCFGTagList) (key : List Char) : Except String LCFGTagList :=
  if key = [] then .ok allComps
  -- with a full stop it is the key of an attribute
  else if '.' ∈ key then .ok allComps
  else
    let keyname := keyName key
    if Resource.validName (some keyname) then
      match TagList.mutateAdd allComps keyname with
      | (_, .error) => .error ("Failed to add '" ++ keyname ++ "' to list of available components")
      | (allComps, _) => .ok allComps
    else .ok allComps

section

variable (hash : String → Nat) (signedChar : Bool) (db : Database) (space : Option String)
  (options : LCFGOption)

/-- The loop over the names; an error of the writer of messages has a message of its own. -/
def loadComponents : LoadedSet → List String → Except String LoadedSet
  | s, [] => .ok s
  | s, compName :: rest =>
    if compName = "" then loadComponents s rest
    else
      let processed := processComponent hash signedChar db compName space options
      if processed.ok then
        let made : LoadedSet := { s with comps := s.comps ++ processed.component.toList }
        match CompSet.insertComponent hash made.comp s.set
            (processed.component.map fun _ => s.comps.length) with
        | (_, .error) => .error ("Failed to load resources for '" ++ compName ++ "' component")
        | (set, _) => loadComponents { made with set } rest
      else .error (processed.msg.getD "Something bad happened whilst processing DB.")

/-- `lcfgbdb_process_components`, with the keys in the order in which the cursor gives them. -/
def processComponents (compsWanted : LCFGTagList) (keys : List (List Char)) :
    Except String LoadedSet :=
  (if compsWanted = [] then keys.foldlM addComponent [] else .ok compsWanted).bind
    (loadComponents hash signedChar db space options LoadedSet.new)

end

/-- A cursor gives each key once. -/
structure Enumerates (keys : List (List Char)) (db : Database) : Prop where
  nodup : keys.Nodup
  complete : ∀ key, key ∈ keys ↔ (db key).isSome = true

/-! ## The names -/

variable {keys : List (List Char)}

/-- A key which is the name of a component. -/
def IsName (key : List Char) : Prop :=
  '.' ∉ key ∧ Resource.validName (some (keyName key)) = true

theorem keyName_valid {name : String} (valid : Resource.validName (some name) = true) :
    keyName name.toList = name := by
  rw [keyName, List.takeWhile_eq_self_iff.mpr, String.ofList_toList]
  intro c inName
  refine decide_eq_true ?_
  rintro rfl
  exact TypedResource.name_free valid (by decide) inName

/-- The names are found among the keys. -/
theorem foldlM_addComponent (keys : List (List Char)) (allComps : LCFGTagList) :
    ∃ names, keys.foldlM addComponent allComps = .ok names ∧ ∀ name, name ∈ names ↔
      name ∈ allComps ∨ ∃ key ∈ keys, IsName key ∧ name = keyName key := by
  induction keys generalizing allComps with
  | nil => exact ⟨allComps, rfl, by simp⟩
  | cons key rest ih =>
    obtain ⟨next, added, members⟩ : ∃ next, addComponent allComps key = .ok next ∧
        ∀ name, name ∈ next ↔ name ∈ allComps ∨ IsName key ∧ name = keyName key := by
      rw [addComponent]
      by_cases dotted : key = [] ∨ '.' ∈ key
      · have other : ¬ IsName key := by
          rintro ⟨free, valid⟩
          rcases dotted with rfl | dot
          · cases valid
          · exact free dot
        refine ⟨allComps, ?_, fun name => by simp [other]⟩
        rcases dotted with rfl | dot
        · rfl
        · rw [if_pos dot, ite_self]
      · rw [not_or] at dotted
        rw [if_neg dotted.1, if_neg dotted.2]
        dsimp only
        split
        case isTrue valid =>
          obtain ⟨ok, members⟩ := TagList.mutateAdd_valid allComps valid
          split
          case h_1 failed =>
            rw [failed] at ok
            exact absurd rfl ok
          case h_2 done =>
            rw [done] at members
            refine ⟨_, rfl, fun name => ?_⟩
            rw [members, IsName, and_iff_right dotted.2, and_iff_right valid]
        case isFalse invalid =>
          have other : ¬ IsName key := fun isName => invalid isName.2
          exact ⟨allComps, rfl, fun name => by simp [other]⟩
    obtain ⟨names, done, all⟩ := ih next
    refine ⟨names, by rw [List.foldlM_cons, added]; exact done, fun name => ?_⟩
    rw [all, members, or_assoc]
    simp only [List.mem_cons, exists_eq_or_imp]

/-! ## The components -/

variable {hash : String → Nat} {signedChar : Bool} {db : Database} {space : Option String}
  {options : LCFGOption}

open CompSet.LoadedSet (Loads)

/-- Run lemma: the components are loaded one after another. -/
theorem loadComponents_spec {asExpected : String → Loading → Prop} {s : LoadedSet}
    {names wanted : List String} (loads : Loads hash asExpected s names)
    (made : ∀ name ∈ wanted, name ≠ "" ∧ ∃ l : Loading, l.comp.name = some name ∧
      asExpected name l ∧ processComponent hash signedChar db name space options =
        { ok := true, component := some l, msg := none })
    (fits : (wanted ++ names).dedup.length ≤ CompSet.defaultSize) :
    ∃ s', loadComponents hash signedChar db space options s wanted = .ok s' ∧
      Loads hash asExpected s' (wanted.reverse ++ names) := by
  induction wanted generalizing s names with
  | nil => exact ⟨s, rfl, loads⟩
  | cons name rest ih =>
    obtain ⟨some_, l, named, good, loaded⟩ := made name List.mem_cons_self
    -- no more names than those which fit in the end
    have fewer {some_ : List String} (sub : some_ ⊆ name :: rest ++ names) :
        some_.dedup.length ≤ CompSet.defaultSize := by
      apply le_trans (List.Subperm.length_le ((List.nodup_dedup _).subperm fun x inside => ?_)) fits
      exact List.mem_dedup.mpr (sub (List.mem_dedup.mp inside))
    obtain ⟨accepted, loads'⟩ := loads.insert named some_ good (fewer (by simp))
    obtain ⟨s', done, all⟩ := ih loads' (fun other member => made other (List.mem_cons_of_mem _ member))
      (fewer (by simp))
    refine ⟨s', ?_, by simpa using all⟩
    rw [loadComponents, if_neg some_, loaded]
    simp only [if_true, Option.toList_some, Option.map_some]
    split
    case h_1 refused =>
      rw [refused] at accepted
      simp at accepted
    case h_2 inserted =>
      rw [inserted] at done
      exact done

/-- Where all has been loaded, each component has been. -/
theorem processed_of_loaded {wanted : List String} {s s' : LoadedSet}
    (done : loadComponents hash signedChar db space options s wanted = .ok s') :
    ∀ name ∈ wanted, name ≠ "" →
      (processComponent hash signedChar db name space options).ok = true := by
  induction wanted generalizing s with
  | nil => simp
  | cons compName rest ih =>
    rw [loadComponents] at done
    intro name member some_
    by_cases empty : compName = ""
    · rw [if_pos empty] at done
      rcases List.mem_cons.mp member with rfl | later
      · exact absurd empty some_
      · exact ih done name later some_
    · rw [if_neg empty] at done
      dsimp only at done
      split at done
      case isTrue ok =>
        split at done
        · cases done
        · rcases List.mem_cons.mp member with rfl | later
          · exact ok
          · exact ih done name later some_
      case isFalse => cases done

/-! ## Both together -/

/-- The resources of a component have been restored. -/
def Restored (store : Store) (a : Addr) (l : Loading) : Prop :=
  ∀ name, Option.Rel Restores (active store.res (some (valueOf store a)) name)
    (active l.res (some l.comp) name)

/-- A component which has resources. -/
def filled (store : Store) (a : Addr) : Bool := !PlainComponent.isEmpty (some (valueOf store a))

/-- The set is written to a new database and comes back from there, without the components which
have no resources. -/
def BdbRoundTrips (hash : String → Nat) (signedChar : Bool) (store : Store)
    (set : LCFGComponentSet) (space : Option String) : Prop :=
  let stored := compsetToBdb store set space fun _ => none
  stored.ok = true ∧ ∀ keys, Enumerates keys stored.db →
    ∃ back, processComponents hash signedChar stored.db space { useMeta := true } [] keys =
        .ok back ∧
      ∀ name, Option.Rel (Restored store)
        ((CompSet.findComponent hash store.comp set name).filter (filled store))
        (back.findComponent hash name)

/-- A set with valid names of which the first resources can be recorded. -/
structure RecordableSet (hash : String → Nat) (signedChar : Bool) (store : Store)
    (set : LCFGComponentSet) (space : Option String) : Prop
    extends CompSet.Sound hash store.comp set where
  each : ∀ a ∈ LinearProbe.stored set.components,
    RecordableComp hash signedChar store.res (valueOf store a) (nameOf store.comp a)
  fit : Fit ((CompSet.comps store set).flatMap (compRecords store.res space))

namespace RecordableSet

variable {store : Store} {set : LCFGComponentSet}
  (recordable : RecordableSet hash signedChar store set space)
include recordable

theorem mem_comps {c : PlainComponent} : c ∈ CompSet.comps store set ↔
    ∃ name a, entry store.comp set name = some a ∧ valueOf store a = c := by
  rw [CompSet.comps, List.mem_map]
  constructor
  · rintro ⟨a, member, rfl⟩
    exact ⟨_, a, (recordable.chained.entry_eq_some_iff _ a).mpr ⟨member, rfl⟩, rfl⟩
  · rintro ⟨name, a, found, rfl⟩
    exact ⟨a, ((recordable.chained.entry_eq_some_iff name a).mp found).1, rfl⟩

theorem entry_spec {name : String} {a : Addr} (found : entry store.comp set name = some a) :
    RecordableComp hash signedChar store.res (valueOf store a) name ∧
      valueOf store a ∈ CompSet.comps store set := by
  obtain ⟨member, same⟩ := (recordable.chained.entry_eq_some_iff name a).mp found
  obtain rfl := Option.some_inj.mp same
  exact ⟨recordable.each a member, recordable.mem_comps.mpr ⟨_, a, found, rfl⟩⟩

theorem filled_iff {name : String} {a : Addr} (found : entry store.comp set name = some a) :
    filled store a = true ↔ firsts store.res (valueOf store a) ≠ [] := by
  rw [filled, Bool.not_eq_true', ← Bool.not_eq_true, (recordable.entry_spec found).1.empty_iff]

theorem good {c : PlainComponent} (member : c ∈ CompSet.comps store set) :
    ∃ compName, RecordableComp hash signedChar store.res c compName := by
  obtain ⟨name, a, found, rfl⟩ := recordable.mem_comps.mp member
  exact ⟨name, (recordable.entry_spec found).1⟩

theorem comps_nodup : ((CompSet.comps store set).map fun c => c.name).Nodup := by
  rw [CompSet.comps, List.map_map]
  refine List.pairwise_map.mpr (recordable.chained.pairwise.imp_of_mem ?_)
  intro a b inA inB differ same
  have namedA := (recordable.each a inA).named
  have namedB := (recordable.each b inB).named
  simp only [Function.comp_apply] at same
  rw [valueOf] at namedA namedB
  rw [namedA, namedB, Option.some_inj] at same
  exact differ (congrArg some same)

theorem compsetToBdb_eq : compsetToBdb store set space (fun _ => none) =
    { db := (assign (fun _ => none)
        (assigned ((CompSet.comps store set).flatMap (compRecords store.res space)))) } := by
  rw [compsetToBdb]
  split
  case isTrue empty =>
    have nothing : CompSet.comps store set = [] := by
      rw [CompSet.comps, List.map_eq_nil_iff, ← List.length_eq_zero_iff, LinearProbe.length_stored,
        ← recordable.entries_eq]
      simpa [CompSet.isEmpty] using empty
    rw [nothing]
    rfl
  case isFalse => exact storeComps_eq (fun _ => recordable.good) recordable.fit _

/-- The database which has been written. -/
theorem records {name : String} {a : Addr} (found : entry store.comp set name = some a)
    (some_ : firsts store.res (valueOf store a) ≠ []) :
    HasRecords store.res (valueOf store a) name space
      (compsetToBdb store set space fun _ => none).db := by
  obtain ⟨here, member⟩ := recordable.entry_spec found
  rw [recordable.compsetToBdb_eq]
  exact hasRecords (fun _ => recordable.good) recordable.comps_nodup recordable.fit member here some_

/-- The keys which are names are those of the components which have resources. -/
theorem isName_iff (enumerates : Enumerates keys (compsetToBdb store set space fun _ => none).db)
    (name : String) : (∃ key ∈ keys, IsName key ∧ name = keyName key) ↔
      ∃ a, entry store.comp set name = some a ∧ firsts store.res (valueOf store a) ≠ [] := by
  simp only [enumerates.complete, recordable.compsetToBdb_eq, Assignments.isSome_assign]
  constructor
  · rintro ⟨key, ⟨record, member, rfl⟩ | nothing, ⟨free, -⟩, rfl⟩
    · obtain ⟨c, inComps, inside⟩ := List.mem_flatMap.mp (Assignments.mem_assigned.mp member)
      obtain ⟨compName, a, found, rfl⟩ := recordable.mem_comps.mp inComps
      have here := (recordable.entry_spec found).1
      rcases (mem_compRecords here).mp inside with ⟨r, inFirsts, typeSymbol, -, same⟩ | ⟨some_, same⟩
      · have key := congrArg Prod.fst same
        dsimp only at key
        rw [key] at free
        exact absurd (by simp [recordKey, TypedResource.keyText]) free
      · have key := congrArg Prod.fst same
        dsimp only at key
        refine ⟨a, ?_, some_⟩
        rw [key, keyName_valid here.valid, found]
    · cases nothing
  · rintro ⟨a, found, some_⟩
    obtain ⟨here, member⟩ := recordable.entry_spec found
    have whole := keyName_valid here.valid
    refine ⟨name.toList, .inl ⟨(name.toList, PlainComponent.sortedNames
      (PlainComponent.namesOf (firsts store.res (valueOf store a)))), ?_, rfl⟩, ⟨?_, ?_⟩, whole.symm⟩
    · apply Assignments.mem_assigned.mpr
      exact List.mem_flatMap.mpr ⟨_, member, (mem_compRecords here).mpr (.inr ⟨some_, rfl⟩)⟩
    · exact TypedResource.name_free here.valid (by decide)
    · rw [whole]
      exact here.valid

/-- Where all resources can be read, each component which has some is loaded. -/
theorem processComponents_eq (readable : ∀ c ∈ CompSet.comps store set,
      ∀ r ∈ firsts store.res c, readBack signedChar r ≠ none)
    (enumerates : Enumerates keys (compsetToBdb store set space fun _ => none).db) :
    ∃ back, processComponents hash signedChar (compsetToBdb store set space fun _ => none).db space
        { useMeta := true } [] keys = .ok back ∧
      (∀ name, (back.findComponent hash name).isSome = true ↔
        ∃ a, entry store.comp set name = some a ∧ firsts store.res (valueOf store a) ≠ []) ∧
      ∀ name l, back.findComponent hash name = some l →
        processComponent hash signedChar (compsetToBdb store set space fun _ => none).db name space
          { useMeta := true } = { ok := true, component := some l, msg := none } := by
  obtain ⟨wanted, listed, members⟩ := foldlM_addComponent keys []
  simp only [List.not_mem_nil, false_or, recordable.isName_iff enumerates] at members
  have made : ∀ name ∈ wanted, name ≠ "" ∧ ∃ l : Loading, l.comp.name = some name ∧
      processComponent hash signedChar (compsetToBdb store set space fun _ => none).db name space
        { useMeta := true } = { ok := true, component := some l, msg := none } ∧
      processComponent hash signedChar (compsetToBdb store set space fun _ => none).db name space
        { useMeta := true } = { ok := true, component := some l, msg := none } := by
    intro name member
    obtain ⟨a, found, some_⟩ := (members name).mp member
    obtain ⟨here, inComps⟩ := recordable.entry_spec found
    obtain ⟨l, done, named, -⟩ :=
      here.loads hash (recordable.records found some_) some_ (readable _ inComps)
    exact ⟨TypedResource.validName_ne here.valid, l, named, done, done⟩
  -- there are no more names than components
  have fits : (wanted ++ []).dedup.length ≤ CompSet.defaultSize := by
    have inside : (wanted ++ []).dedup ⊆
        (LinearProbe.stored set.components).map (nameOf store.comp) := by
      intro name member
      rw [List.append_nil, List.mem_dedup] at member
      obtain ⟨a, found, -⟩ := (members name).mp member
      obtain ⟨stored, same⟩ := (recordable.chained.entry_eq_some_iff name a).mp found
      exact List.mem_map.mpr ⟨a, stored, Option.some_inj.mp same⟩
    have fewer := ((List.nodup_dedup _).subperm inside).length_le
    rw [List.length_map, LinearProbe.length_stored, ← recordable.entries_eq] at fewer
    exact fewer.trans recordable.entries_le
  obtain ⟨back, done, loads⟩ := loadComponents_spec
    (@CompSet.LoadedSet.new_loads hash fun name l => processComponent hash signedChar
      (compsetToBdb store set space fun _ => none).db name space { useMeta := true } =
        { ok := true, component := some l, msg := none }) made fits
  have finds (name : String) : back.findComponent hash name =
      (entry back.comp back.set name).bind fun a => back.comps[a]? := by
    rw [LoadedSet.findComponent, loads.sound.findComponent_eq]
  refine ⟨back, ?_, fun name => ?_, fun name l here => ?_⟩
  · rw [processComponents, if_pos rfl, listed]
    exact done
  · rw [← members, ← List.mem_reverse, ← List.append_nil wanted.reverse, ← loads.found, finds]
    cases found : entry back.comp back.set name with
    | none => rfl
    | some b =>
      obtain ⟨l, here, -⟩ := loads.expected name b found
      rw [Option.bind_some, here]
      rfl
  · rw [finds] at here
    obtain ⟨b, found, there⟩ := Option.bind_eq_some_iff.mp here
    obtain ⟨l', here', processed⟩ := loads.expected name b found
    rw [there, Option.some_inj] at here'
    rw [here', processed]

/-- A cursor over the database which has been written. -/
theorem exists_enumerates :
    ∃ keys, Enumerates keys (compsetToBdb store set space fun _ => none).db := by
  rw [recordable.compsetToBdb_eq]
  refine ⟨((assigned ((CompSet.comps store set).flatMap (compRecords store.res space))).map
    Prod.fst).dedup, List.nodup_dedup _, fun key => ?_⟩
  rw [List.mem_dedup, List.mem_map, Assignments.isSome_assign, Option.isSome_none,
    or_iff_left Bool.false_ne_true]

/-- What has come back was read, and so it is what its records say. -/
theorem returns (roundTrips : BdbRoundTrips hash signedChar store set space) :
    ∀ c ∈ CompSet.comps store set, ∀ r ∈ firsts store.res c, Returns r := by
  obtain ⟨-, reads⟩ := roundTrips
  intro c member
  obtain ⟨keys, enumerates⟩ := recordable.exists_enumerates
  obtain ⟨back, done, restored⟩ := reads keys enumerates
  -- what has been loaded was readable
  obtain ⟨wanted, listed, members⟩ := foldlM_addComponent keys []
  simp only [List.not_mem_nil, false_or, recordable.isName_iff enumerates] at members
  have ok := done
  rw [processComponents, if_pos rfl, listed] at ok
  have processed := processed_of_loaded ok
  have readable : ∀ c ∈ CompSet.comps store set, ∀ r ∈ firsts store.res c,
      readBack signedChar r ≠ none := by
    intro c member
    obtain ⟨name, a, found, rfl⟩ := recordable.mem_comps.mp member
    obtain ⟨here, -⟩ := recordable.entry_spec found
    by_cases some_ : firsts store.res (valueOf store a) = []
    · simp [some_]
    · exact here.readable_of_ok hash (recordable.records found some_) some_
        (processed name ((members name).mpr ⟨a, found, some_⟩) (TypedResource.validName_ne here.valid))
  obtain ⟨back', done', -, expected⟩ := recordable.processComponents_eq readable enumerates
  obtain rfl := Except.ok.inj (done.symm.trans done')
  obtain ⟨name, a, found, rfl⟩ := recordable.mem_comps.mp member
  obtain ⟨here, -⟩ := recordable.entry_spec found
  by_cases some_ : firsts store.res (valueOf store a) = []
  · simp [some_]
  · have rel := restored name
    rw [recordable.toSound.findComponent_eq, found, Option.filter_some,
      if_pos ((recordable.filled_iff found).mpr some_)] at rel
    cases loaded : back.findComponent hash name with
    | none =>
      rw [loaded] at rel
      cases rel
    | some l =>
      rw [loaded] at rel
      have records := recordable.records found some_
      obtain ⟨l', processed', named, -⟩ := here.loads hash records some_ (readable _ member)
      have same := (expected name l loaded).symm.trans processed'
      rw [Processed.mk.injEq, Option.some_inj] at same
      obtain rfl := same.2.1
      cases rel with
      | some restores =>
        exact (here.restored_iff hash records some_).mp ⟨l, processed', named, restores⟩

theorem roundTrips (returns : ∀ c ∈ CompSet.comps store set, ∀ r ∈ firsts store.res c, Returns r) :
    BdbRoundTrips hash signedChar store set space := by
  have readable : ∀ c ∈ CompSet.comps store set, ∀ r ∈ firsts store.res c,
      readBack signedChar r ≠ none := by
    intro c member r inFirsts nothing
    obtain ⟨compName, here⟩ := recordable.good member
    obtain ⟨name, named, -⟩ := here.first_name inFirsts
    obtain ⟨back, restored, -⟩ :=
      ((here.recordable r inFirsts).restores_iff named).mpr (returns c member r inFirsts)
    rw [nothing] at restored
    cases restored
  refine ⟨by rw [recordable.compsetToBdb_eq], fun keys enumerates => ?_⟩
  obtain ⟨back, done, known, expected⟩ := recordable.processComponents_eq readable enumerates
  refine ⟨back, done, fun name => ?_⟩
  rw [recordable.toSound.findComponent_eq]
  cases loaded : back.findComponent hash name with
  | none =>
    have missing := mt (known name).mpr (by rw [loaded]; exact Bool.false_ne_true)
    rw [Option.filter_eq_none_iff.mpr fun a found isFilled =>
      missing ⟨a, found, (recordable.filled_iff found).mp isFilled⟩]
    exact .none
  | some l =>
    obtain ⟨a, found, some_⟩ := (known name).mp (by rw [loaded]; rfl)
    obtain ⟨here, member⟩ := recordable.entry_spec found
    rw [found, Option.filter_some, if_pos ((recordable.filled_iff found).mpr some_)]
    obtain ⟨l', done', -, restored⟩ :=
      (here.restored_iff hash (recordable.records found some_) some_).mpr (returns _ member)
    have same := (expected name l loaded).symm.trans done'
    rw [Processed.mk.injEq, Option.some_inj] at same
    obtain rfl := same.2.1
    exact .some restored

end RecordableSet

open CompSet (sampleStore sampleSet)

theorem sample_recordable : Recordable true (sampleStore.res 0) where
  bytes := Fields.of_all (by decide)
  fits := by decide
  context := fun _ none_ => by cases none_
  comment := fun _ none_ => by cases none_
  template := fun list => by cases list
  derivation := ⟨fun _ none_ => (by cases none_), List.nodup_nil⟩
  files := fun _ none_ => by cases none_
  priority := by decide

theorem sample_firsts {c : PlainComponent} {r : TypedResource}
    (member : r ∈ firsts sampleStore.res c) : r = sampleStore.res 0 := by
  obtain ⟨list, -, here⟩ := List.mem_filterMap.mp member
  obtain ⟨a, -, rfl⟩ := Option.map_eq_some_iff.mp here
  rfl

theorem sampleSet_recordable :
    RecordableSet djbhash true sampleStore (sampleSet [0, 2]) (some "host") where
  toSound := (CompSet.sampleSet_loaded [0, 2] (by decide)).toSound
  each a _ := by
    refine ⟨CompSet.sampleStore_tabled a, rfl, CompSet.sampleName_valid a, fun r member => ?_,
      fun r member => ?_⟩
    · rw [sample_firsts member]
      decide
    · rw [sample_firsts member]
      exact sample_recordable
  fit := by
    unfold Fit
    decide +kernel

end Bdb

end Lcfg
