import LcfgCore.Bdb.Read
import LcfgCore.Components.Export
import LcfgCore.Components.SetMerge
import LcfgCore.Components.Store

/-!
# Loading from the environment

Component sets are put into the environment, and resources, components and component sets
are loaded from it (`lcfgcompset_to_env`, `lcfgresource_from_env`, `lcfgcomponent_from_env`,
`lcfgcompset_from_env`).

## Main results

`importResources_spec`: the loop over the names of the resources fills a new component.
`LoadedSet.loop_spec`: the loop over the names of the components fills a new set.
-/
namespace Lcfg

/-- What `getenv` finds. -/
abbrev Environment := List Char → Option (List Char)

namespace TypedResource

/-- `lcfgresource_from_env` -/
def fromEnv (env : Environment) (name : String) (compname valPfx typePfx : Option String)
    (options : LCFGOption) : Except String TypedResource :=
  let failed (res : TypedResource) (compname : Option String) (what : String) :
      Except String TypedResource := .error (buildMessage (some res) compname what)
  let built (base : String) := "Failed to build environment variable name from '" ++ base ++ "'"
  if Resource.validName (some name) = false then
    failed new compname ("Invalid name '" ++ name ++ "'")
  else
    let typeKey := buildEnvVar (some name) compname envTypePfx typePfx
    if typeKey = [] then failed (newNamed name) compname (built (typePfx.getD envTypePfx))
    else
      -- the type comes first, so that the value is checked against it
      let type := String.ofList ((env typeKey).getD [])
      let typed : Attempt :=
        if type = "" then { res := newNamed name, ok := true }
        else setTypeAsString (newNamed name) (some type)
      if typed.ok then
        let valKey := buildEnvVar (some name) compname envValPfx valPfx
        if valKey = [] then failed typed.res compname (built (valPfx.getD envValPfx))
        else
          match (env valKey).or (if options.allowNoExist then some [] else none) with
          | none => failed typed.res compname "Could not find value in environment"
          | some value =>
            let (res, ok) := setValue typed.res (some (String.ofList value))
            if ok then .ok res
            else failed res none ("Invalid value '" ++ String.ofList value ++ "'")
      else
        failed typed.res compname
          ("Invalid type '" ++ type ++ "': " ++ typed.msg.getD "(null)")

end TypedResource

open TypedResource (buildEnvVar envValPfx envTypePfx)
open PlainComponent (envListKey)

namespace Loading

variable (hash : String → Nat) (env : Environment)

/-- The loop over the names in `lcfgcomponent_from_env`. -/
def importResources (valPfx typePfx : String) (l : Loading) : List String → Except String Loading
  | [] => .ok l
  | resname :: rest =>
    if Resource.validName (some resname) = false then
      .error ("Invalid resource name '" ++ resname ++ "'")
    else
      match TypedResource.fromEnv env resname none (some valPfx) (some typePfx) {} with
      | .error msg => .error msg
      | .ok res =>
        let (l', change) := l.mergeResource hash res
        if change = .error then
          .error ("Failed to import resource '" ++ resname ++ "': " ++
            Bdb.conflictMessage hash l resname)
        else importResources valPfx typePfx l' rest

/-- `lcfgcomponent_from_env`; there may be no component even if nothing has failed. -/
def fromEnv (compnameIn : String) (valPfx typePfx : Option String) (options : LCFGOption) :
    Except String (Option Loading) :=
  if Resource.validName (some compnameIn) = false then
    .error ("Invalid component name '" ++ compnameIn ++ "'")
  else
    let valPfx2 := String.ofList (buildEnvVar none (some compnameIn) envValPfx valPfx)
    let typePfx2 := String.ofList (buildEnvVar none (some compnameIn) envTypePfx typePfx)
    let reslistKey := buildEnvVar (some envListKey) (some compnameIn) envValPfx (some valPfx2)
    let imported (names : LCFGTagList) :=
      (importResources hash env valPfx2 typePfx2 (new compnameIn) names).map some
    match (env reslistKey).getD [] with
    | [] =>
      if options.allowNoExist then imported []
      else .error ("No resources found in environment for '" ++ compnameIn ++ "' component")
    | reslistValue =>
      match TagList.fromString reslistValue with
      | .error msg => .error msg
      | .ok [] => .ok none
      | .ok names => imported names

variable {hash env} {compName valPfx typePfx : String} {l : Loading}
  {contents : String → Option TypedResource} {made : String → TypedResource}

/-- Run lemma: resources of new names are loaded and merged one after another. -/
theorem importResources_spec {names : List String} (holds : Holds hash compName l contents)
    (distinct : names.Nodup) (loads : ∀ name ∈ names, Resource.validName (some name) = true ∧
      contents name = none ∧ (made name).name = some name ∧
      TypedResource.fromEnv env name none (some valPfx) (some typePfx) {} = .ok (made name)) :
    ∃ l', importResources hash env valPfx typePfx l names = .ok l' ∧
      Holds hash compName l' fun name =>
        if name ∈ names then some (made name) else contents name := by
  induction names generalizing l contents with
  | nil => exact ⟨l, rfl, by simpa using holds⟩
  | cons resname rest ih =>
    obtain ⟨valid, fresh, named, loaded⟩ := loads resname List.mem_cons_self
    obtain ⟨new_, distinct⟩ := List.nodup_cons.mp distinct
    obtain ⟨holds', added, -⟩ := holds.mergeResource named (TypedResource.validName_ne valid) fresh
    -- the names which are left are not affected by the new one
    have others : ∀ name ∈ rest, Resource.validName (some name) = true ∧
        Function.update contents resname (some (made resname)) name = none ∧
        (made name).name = some name ∧
        TypedResource.fromEnv env name none (some valPfx) (some typePfx) {} = .ok (made name) := by
      intro name member
      obtain ⟨valid', fresh', more⟩ := loads name (List.mem_cons_of_mem _ member)
      have other : name ≠ resname := fun same => new_ (same ▸ member)
      exact ⟨valid', by rw [Function.update_of_ne other]; exact fresh', more⟩
    obtain ⟨l', done, all⟩ := ih holds' distinct others
    refine ⟨l', ?_, ?_⟩
    · rw [importResources, if_neg (by simp [valid]), loaded]
      dsimp only
      rw [if_neg (by rw [added]; decide), done]
    · convert all using 2 with name
      by_cases same : name = resname
      · subst same
        simp [new_]
      · simp [same]

end Loading

/-! ## Component sets -/

namespace CompSet

/-- What `lcfgcompset_to_env` has done: the calls of `setenv`, whether all went well, and the
last message. -/
structure SetExport where
  vars : List Shell.Assignment := []
  ok : Bool := true
  msg : Option String := none

/-- The loop of `lcfgcompset_to_env` over the components. -/
def exportAll (store : Store) (valPfx typePfx : Option String) (options : LCFGOption) :
    List Addr → SetExport
  | [] => {}
  | a :: rest =>
    let (written, msg) := PlainComponent.toEnv store.res
      (Component.value ⟨store.heap, store.comp a⟩) valPfx typePfx options
    let vars := written.items.map Prod.snd
    if written.ok then
      let later := exportAll store valPfx typePfx options rest
      { later with vars := vars ++ later.vars, msg := later.msg.or msg }
    else { vars, ok := false, msg }

/-- `lcfgcompset_to_env` -/
def toEnv (store : Store) (set : LCFGComponentSet) (valPfx typePfx : Option String)
    (options : LCFGOption) : SetExport :=
  if isEmpty set then {}
  else exportAll store valPfx typePfx options (LinearProbe.stored set.components)

/-- A new set; its components are numbered in the order in which they were loaded. -/
structure LoadedSet where
  set : LCFGComponentSet
  comps : List Loading

namespace LoadedSet

def new : LoadedSet := ⟨CompSet.new, []⟩

/-- The components for the set, which looks at their names only. -/
def comp (s : LoadedSet) (a : Addr) : LCFGComponent :=
  { Component.new with name := s.comps[a]?.bind fun l => l.comp.name }

variable (hash : String → Nat) (env : Environment)

/-- The loop of `lcfgcompset_from_env`; there may be no message for what has failed. -/
def loop (valPfx typePfx : Option String) (options : LCFGOption) :
    LoadedSet → List String → Except (Option String) LoadedSet
  | s, [] => .ok s
  | s, compName :: rest =>
    match Loading.fromEnv hash env compName valPfx typePfx options with
    | .error msg => .error (some msg)
    | .ok newComp =>
      let made : LoadedSet := { s with comps := s.comps ++ newComp.toList }
      match insertComponent hash made.comp s.set (newComp.map fun _ => s.comps.length) with
      | (_, .error) => .error none
      | (set, _) => loop valPfx typePfx options { made with set } rest

/-- `lcfgcompset_from_env` -/
def fromEnv (valPfx typePfx : Option String) (compsWanted : LCFGTagList) (options : LCFGOption) :
    Except (Option String) LoadedSet :=
  loop hash env valPfx typePfx options new compsWanted

/-- `lcfgcompset_find_component`, which gives the component itself. -/
def findComponent (s : LoadedSet) (wantName : String) : Option Loading :=
  (CompSet.findComponent hash s.comp s.set wantName).bind fun a => s.comps[a]?

/-- The components of some names have been loaded as they should be. -/
structure Loads (hash : String → Nat) (asExpected : String → Loading → Prop) (s : LoadedSet)
    (names : List String) : Prop where
  sound : Sound hash s.comp s.set
  inside : ∀ a ∈ LinearProbe.stored s.set.components, a < s.comps.length
  found : ∀ name, (entry s.comp s.set name).isSome ↔ name ∈ names
  expected : ∀ name a, entry s.comp s.set name = some a →
    ∃ l, s.comps[a]? = some l ∧ asExpected name l

variable {hash env} {asExpected : String → Loading → Prop} {s : LoadedSet}
  {names : List String} {name : String}

theorem new_loads : Loads hash asExpected new [] where
  sound := new_sound
  inside a member := by
    rw [new, CompSet.new, LinearProbe.stored_replicate_none] at member
    cases member
  found name := by simp [new, entry_new]
  expected name a here := by
    rw [new, entry_new] at here
    cases here

namespace Loads

/-- A component more is not seen by the set. -/
theorem comp_eq (loads : Loads hash asExpected s names) (more : List Loading) {a : Addr}
    (member : a ∈ LinearProbe.stored s.set.components) :
    comp { s with comps := s.comps ++ more } a = s.comp a := by
  rw [comp, comp, List.getElem?_append_left (loads.inside a member)]

/-- Step lemma: a component is inserted under its name. -/
theorem insert (loads : Loads hash asExpected s names) {l : Loading}
    (named : l.comp.name = some name) (some_ : name ≠ "") (good : asExpected name l)
    (fits : (name :: names).dedup.length ≤ defaultSize) :
    let made : LoadedSet := { s with comps := s.comps ++ [l] }
    let inserted := insertComponent hash made.comp s.set (some s.comps.length)
    (inserted.2 = .added ∨ inserted.2 = .replaced) ∧
      Loads hash asExpected { made with set := inserted.1 } (name :: names) := by
  intro made inserted
  have here : made.comp s.comps.length = { Component.new with name := some name } := by
    rw [comp, List.getElem?_concat_length, Option.bind_some, named]
  have nameHere : nameOf made.comp s.comps.length = name := by
    rw [nameOf, here, Option.getD_some]
  have valid : Component.isValid (made.comp s.comps.length) = true := by
    simpa [here, Component.isValid, Lcfg.isEmpty] using some_
  obtain ⟨sound, same⟩ := @Sound.congr_stored hash s.comp made.comp s.set loads.sound
    fun a member => by rw [loads.comp_eq [l] member]
  -- there is a free bucket for a new name, and for a known one the bucket which it has
  have room : entry made.comp s.set name ≠ none ∨ s.set.entries < defaultSize := by
    rw [same]
    by_cases known : name ∈ names
    · exact .inl (Option.isSome_iff_ne_none.mp ((loads.found name).mpr known))
    · right
      have counted := loads.sound.chained.occupied_eq_length_dedup names loads.found
      rw [List.dedup_cons_of_notMem known, List.length_cons] at fits
      rw [loads.sound.entries_eq, counted]
      exact fits
  obtain ⟨sound', done⟩ := insert_spec sound s.comps.length valid
  rw [nameHere] at done
  obtain ⟨accepted, updated⟩ := done room
  rw [same] at updated
  refine ⟨accepted, sound', fun a member => ?_, fun name' => ?_, fun name' a found => ?_⟩
  -- what is stored is the new component or one from before
  · rw [List.length_append, List.length_singleton]
    have found := (sound'.chained.entry_eq_some_iff (nameOf made.comp a) a).mpr ⟨member, rfl⟩
    change entry made.comp inserted.1 _ = some a at found
    rw [updated] at found
    by_cases own : nameOf made.comp a = name
    · rw [own, Function.update_self, Option.some_inj] at found
      exact found ▸ Nat.lt_succ_self _
    · rw [Function.update_of_ne own] at found
      exact Nat.lt_succ_of_lt (loads.inside a (LinearProbe.mem_stored_of_entry found).1)
  · change (entry made.comp inserted.1 name').isSome ↔ _
    rw [updated, List.mem_cons]
    by_cases own : name' = name
    · simp [own]
    · rw [Function.update_of_ne own, loads.found name']
      simp [own]
  · change entry made.comp inserted.1 name' = some a at found
    rw [updated] at found
    by_cases own : name' = name
    · rw [own, Function.update_self, Option.some_inj] at found
      subst found own
      exact ⟨l, List.getElem?_concat_length, good⟩
    · rw [Function.update_of_ne own] at found
      obtain ⟨l', there, good'⟩ := loads.expected name' a found
      have before := loads.inside a (LinearProbe.mem_stored_of_entry found).1
      exact ⟨l', by rw [List.getElem?_append_left before]; exact there, good'⟩

/-- Run lemma: the components which are wanted are loaded one after another. -/
theorem loop_spec (loads : Loads hash asExpected s names) {valPfx typePfx : Option String}
    {options : LCFGOption} {wanted : List String}
    (made : ∀ name ∈ wanted, name ≠ "" ∧ ∃ l : Loading, l.comp.name = some name ∧
      asExpected name l ∧ Loading.fromEnv hash env name valPfx typePfx options = .ok (some l))
    (fits : (wanted ++ names).dedup.length ≤ defaultSize) :
    ∃ s', loop hash env valPfx typePfx options s wanted = .ok s' ∧
      Loads hash asExpected s' (wanted.reverse ++ names) := by
  induction wanted generalizing s names with
  | nil => exact ⟨s, rfl, loads⟩
  | cons name rest ih =>
    obtain ⟨some_, l, named, good, loaded⟩ := made name List.mem_cons_self
    -- no more names than those which fit in the end
    have fewer {some_ : List String} (sub : some_ ⊆ name :: rest ++ names) :
        some_.dedup.length ≤ defaultSize := by
      apply le_trans (List.Subperm.length_le ((List.nodup_dedup _).subperm fun x inside => ?_)) fits
      exact List.mem_dedup.mpr (sub (List.mem_dedup.mp inside))
    obtain ⟨accepted, loads'⟩ := loads.insert named some_ good (fewer (by simp))
    obtain ⟨s', done, all⟩ := ih loads' (fun other member => made other (List.mem_cons_of_mem _ member))
      (fewer (by simp))
    refine ⟨s', ?_, by simpa using all⟩
    rw [loop, loaded]
    simp only [Option.toList_some, Option.map_some]
    split
    case h_1 refused =>
      rw [refused] at accepted
      simp at accepted
    case h_2 inserted =>
      rw [inserted] at done
      exact done

end Loads

end LoadedSet

end CompSet

end Lcfg
