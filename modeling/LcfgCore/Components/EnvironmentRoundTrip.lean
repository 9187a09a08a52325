import LcfgCore.Components.Environment
import LcfgCore.Library.Assignments

/-!
# Component sets from the environment

What comes back when a component set is put into the environment and loaded from it again.
The variables of all components share one namespace, in which the name of a resource follows
the name of its component behind an underscore, while both may have underscores of their own.

## Main result

`env_roundTrips`: all components come back if no variable is expected to have two values and
no comment has a closing bracket in it.
-/
namespace Lcfg

open Assignments (assign assigned Unambiguous)
open PlainComponent (firsts active writeOptions envListKey sortedNames)
open TypedResource (buildEnvVar envValPfx envTypePfx)

namespace TypedResource

/-- A resource with a value, as the setters leave it. -/
structure Valued (res : TypedResource) : Prop where
  value : ∃ value ∈ res.value, validValueForType res.type value = true
  template : res.type = .list → Accepted res.template

/-- The same name, value and type; an empty comment is none. -/
structure Reproduces (res back : TypedResource) : Prop where
  name : back.name = res.name
  value : back.value = res.value
  type : back.type = res.type
  comment : givenComment back = givenComment res
  template : res.type = .list → back.template = res.template

/-- A comment ends at its first closing bracket when it is read. -/
def Closed (res : TypedResource) : Prop := ∀ comment ∈ res.comment, ')' ∉ comment.toList

/-! ## The names of the variables -/

/-- `LCFG_component_resource` -/
def valueKey (compName name : String) : List Char :=
  ['L', 'C', 'F', 'G', '_'] ++ compName.toList ++ '_' :: name.toList

/-- `LCFGTYPE_component_resource` -/
def typeKey (compName name : String) : List Char :=
  ['L', 'C', 'F', 'G', 'T', 'Y', 'P', 'E', '_'] ++ compName.toList ++ '_' :: name.toList

/-- The prefixes in which the name of the component has been put. -/
def valPfxOf (compName : String) : String :=
  String.ofList (buildEnvVar none (some compName) envValPfx none)

def typePfxOf (compName : String) : String :=
  String.ofList (buildEnvVar none (some compName) envTypePfx none)

variable {compName name : String} {res : TypedResource}

theorem replacePlaceHolder_free (compname : List Char) {text : List Char} (free : '%' ∉ text) :
    replacePlaceHolder compname text = text := by
  induction text with
  | nil => rfl
  | cons c rest ih =>
    rw [List.mem_cons, not_or] at free
    rw [replacePlaceHolder, ih free.2]
    rintro after rfl
    exact absurd rfl free.1

theorem valPfxOf_toList (compName : String) :
    (valPfxOf compName).toList = ['L', 'C', 'F', 'G', '_'] ++ compName.toList ++ ['_'] := by
  simp [valPfxOf, buildEnvVar, envValPfx, replacePlaceHolder]

theorem typePfxOf_toList (compName : String) : (typePfxOf compName).toList =
    ['L', 'C', 'F', 'G', 'T', 'Y', 'P', 'E', '_'] ++ compName.toList ++ ['_'] := by
  simp [typePfxOf, buildEnvVar, envTypePfx, replacePlaceHolder]

theorem buildEnvVar_value (compName name : String) :
    buildEnvVar (some name) none envValPfx (some (valPfxOf compName)) = valueKey compName name := by
  simp [buildEnvVar, valPfxOf_toList, valueKey]

theorem buildEnvVar_type (compName name : String) :
    buildEnvVar (some name) none envTypePfx (some (typePfxOf compName)) = typeKey compName name := by
  simp [buildEnvVar, typePfxOf_toList, typeKey]

section Names

variable (compValid : Resource.validName (some compName) = true)
include compValid

/-- Where the prefix is expanded already, there is nothing left to be replaced. -/
theorem buildEnvVar_list : buildEnvVar (some envListKey) (some compName) envValPfx
    (some (valPfxOf compName)) = valueKey compName envListKey := by
  have free : '%' ∉ (valPfxOf compName).toList := by
    rw [valPfxOf_toList]
    intro percent
    have inside : '%' ∈ compName.toList := by simpa using percent
    have word := (name_word compValid).2 '%' inside
    revert word
    decide
  rw [← buildEnvVar_value, buildEnvVar, buildEnvVar]
  simp only [Option.getD_some, Option.elim_some, Option.elim_none, replacePlaceHolder_free _ free]

/-- The letters, digits and underscores of names are those of variables, too. -/
private theorem validEnvVar_key (first : Char) (more : List Char) (alpha : first.isAlpha = true)
    (words : more.all isWord = true) (word : ∀ c ∈ name.toList, isWord c = true) :
    validEnvVar (first :: more ++ compName.toList ++ '_' :: name.toList) = true := by
  have compWord := List.all_eq_true.mpr (name_word compValid).2
  rw [List.cons_append, List.cons_append, validEnvVar, alpha, Bool.true_or, Bool.true_and,
    List.all_append, List.all_append, words, compWord, List.all_cons, List.all_eq_true.mpr word]
  rfl

theorem validEnvVar_valueKey (word : ∀ c ∈ name.toList, isWord c = true) :
    validEnvVar (valueKey compName name) = true :=
  validEnvVar_key compValid 'L' ['C', 'F', 'G', '_'] (by decide) (by decide) word

theorem validEnvVar_typeKey (word : ∀ c ∈ name.toList, isWord c = true) :
    validEnvVar (typeKey compName name) = true :=
  validEnvVar_key compValid 'L' ['C', 'F', 'G', 'T', 'Y', 'P', 'E', '_'] (by decide) (by decide)
    word

end Names

/-! ## One resource -/

/-- What is expected in the variables of a resource; a string without a comment has no type. -/
def readings (compName : String) (res : TypedResource) : List (List Char × Option (List Char)) :=
  let name := res.name.getD ""
  [(valueKey compName name, some (res.value.getD "").toList),
    (typeKey compName name,
      if exportsType res writeOptions then some (getTypeAsString res false) else none)]

theorem toEnv_eq (compValid : Resource.validName (some compName) = true)
    (named : res.name = some name) (valid : Resource.validName (some name) = true) :
    toEnv res none (some (valPfxOf compName)) (some (typePfxOf compName)) writeOptions =
      (assigned (readings compName res), true) := by
  have word := (name_word valid).2
  have some_ : isValid res = true := by
    simpa [isValid, Resource.isValid, named, Lcfg.isEmpty] using validName_ne valid
  have valueNotNil : valueKey compName name ≠ [] := by simp [valueKey]
  have typeNotNil : typeKey compName name ≠ [] := by simp [typeKey]
  rw [toEnv, readings, named]
  simp only [buildEnvVar_value, buildEnvVar_type, some_, validEnvVar_valueKey compValid word,
    validEnvVar_typeKey compValid word, valueNotNil, typeNotNil, or_self, if_false,
    Bool.true_eq_false, orDefault_empty, Option.getD_some]
  by_cases typed_ : exportsType res writeOptions = true
  · simp only [typed_, if_true, if_neg (@getTypeAsString_ne_nil res false)]
    rfl
  · simp only [typed_, if_false, Bool.false_eq_true, if_true]
    rfl

/-- The type is loaded first, if there is one. -/
private theorem type_read (valued : Valued res)
    (closed : Closed res) {type : String} (given : type = String.ofList
      ((if exportsType res writeOptions then some (getTypeAsString res false) else none).getD [])) :
    (if type = "" then ({ res := newNamed name, ok := true } : Attempt)
      else setTypeAsString (newNamed name) (some type)) =
      { res := typed (newNamed name) res.type (givenComment res) res.template, ok := true } := by
  have untyped : Untyped res.type (newNamed name) := ⟨rfl, rfl, rfl, rfl⟩
  -- only a string without a comment is left without a type
  by_cases typed_ : exportsType res writeOptions = true
  · rw [if_pos typed_, Option.getD_some] at given
    have some_ : type ≠ "" := by
      rw [given]
      intro empty
      exact getTypeAsString_ne_nil false (String.ofList_eq_empty_iff.mp empty)
    have closed' : ∀ comment ∈ givenComment res, ')' ∉ comment.toList := fun comment member =>
      closed comment (Option.filter_eq_some_iff.mp member).1
    rw [if_neg some_, given, setTypeAsString_eq untyped closed' valued.template]
  · rw [if_neg typed_, Option.getD_none] at given
    have plain : res.type = .string ∧ hasComment res = false := by
      simpa [exportsType, writeOptions] using typed_
    rw [if_pos given]
    rw [plain.1] at untyped ⊢
    rw [typed_plain untyped plain.2]

/-- A resource is loaded when its variables have the values which are expected. -/
theorem fromEnv_eq {env : Environment} (named : res.name = some name)
    (valid : Resource.validName (some name) = true) (valued : Valued res) (closed : Closed res)
    (reads : ∀ reading ∈ readings compName res, env reading.1 = reading.2) :
    fromEnv env name none (some (valPfxOf compName)) (some (typePfxOf compName)) {} =
      .ok (copied res name) := by
  obtain ⟨value, given, fits⟩ := valued.value
  rw [readings, named] at reads
  have valueRead := reads _ List.mem_cons_self
  have typeRead := reads _ (List.mem_cons_of_mem _ List.mem_cons_self)
  simp only [Option.getD_some] at valueRead typeRead
  have valueNotNil : valueKey compName name ≠ [] := by simp [valueKey]
  have typeNotNil : typeKey compName name ≠ [] := by simp [typeKey]
  have type := @type_read name res valued closed _ rfl
  rw [← typeRead] at type
  rw [fromEnv]
  simp only [valid, Bool.true_eq_false, if_false, buildEnvVar_type, typeNotNil, type, if_true,
    buildEnvVar_value, valueNotNil, valueRead, Option.some_or, String.ofList_toList]
  -- the value is valid for the type which has just been set
  have done : setValue (typed (newNamed name) res.type (givenComment res) res.template)
      (some value) = (copied res name, true) := by
    rw [setValue, if_pos (by simpa [validValue, typed] using fits), copied, given]
    rfl
  rw [given, Option.getD_some, done]
  rfl

theorem copied_reproduces (named : res.name = some name) : Reproduces res (copied res name) where
  name := named.symm
  value := rfl
  type := rfl
  comment := givenComment_copied res name
  template list := if_pos list

end TypedResource

open TypedResource (Valued Closed Reproduces copied valueKey typeKey valPfxOf typePfxOf)

/-! ## One component -/

namespace PlainComponent

open ResList (Plain)

/-- A component with resources, the first one of each name with a valid name and a valid value. -/
structure Exportable (hash : String → Nat) (res : Addr → TypedResource) (comp : PlainComponent)
    (compName : String) : Prop where
  tabled : Tabled hash (base res) comp
  named : comp.name = some compName
  valid : Resource.validName (some compName) = true
  filled : isEmpty (some comp) = false
  names : ∀ r ∈ firsts res comp, Resource.validName r.name = true
  valued : ∀ r ∈ firsts res comp, Valued r

def namesOf (rs : List TypedResource) : List String := rs.map fun r => r.name.getD ""

/-- What is expected in the variables of a component. -/
def readings (res : Addr → TypedResource) (comp : PlainComponent) (compName : String) :
    List (List Char × Option (List Char)) :=
  (firsts res comp).flatMap (TypedResource.readings compName) ++
    [(valueKey compName envListKey, some (sortedNames (namesOf (firsts res comp))))]

/-- The names in the variable for the list are imported one after another. -/
private theorem loading_fromEnv {hash : String → Nat} {env : Environment} {compName : String}
    (valid : Resource.validName (some compName) = true) (options : LCFGOption) :
    Loading.fromEnv hash env compName none none options =
      match (env (buildEnvVar (some envListKey) (some compName) envValPfx
        (some (valPfxOf compName)))).getD [] with
      | [] =>
        if options.allowNoExist then
          (Loading.importResources hash env (valPfxOf compName) (typePfxOf compName)
            (Loading.new compName) []).map some
        else .error ("No resources found in environment for '" ++ compName ++ "' component")
      | reslistValue =>
        match TagList.fromString reslistValue with
        | .error msg => .error msg
        | .ok [] => .ok none
        | .ok names => (Loading.importResources hash env (valPfxOf compName) (typePfxOf compName)
            (Loading.new compName) names).map some := by
  rw [Loading.fromEnv, if_neg (by simp [valid])]
  rfl

namespace Exportable

variable {hash : String → Nat} {res : Addr → TypedResource} {comp : PlainComponent}
  {compName : String} (exportable : Exportable hash res comp compName)
include exportable

theorem first_name {r : TypedResource} (member : r ∈ firsts res comp) :
    ∃ name, r.name = some name ∧ Resource.validName (some name) = true ∧
      active res (some comp) name = some r := by
  obtain ⟨name, found⟩ := (mem_firsts exportable.tabled r).mp member
  have named := active_name exportable.tabled found
  exact ⟨name, named, named ▸ exportable.names r member, found⟩

theorem namesOf_nodup : (namesOf (firsts res comp)).Nodup := by
  have distinct := firsts_nodup exportable.tabled
  have same : (firsts res comp).map (fun r => r.name) = (namesOf (firsts res comp)).map some := by
    rw [namesOf, List.map_map]
    refine List.map_congr_left fun r member => ?_
    obtain ⟨name, named, -⟩ := exportable.first_name member
    rw [Function.comp_apply, named, Option.getD_some]
  rw [same] at distinct
  exact distinct.of_map _

theorem mem_namesOf {name : String} :
    name ∈ namesOf (firsts res comp) ↔ (active res (some comp) name).isSome := by
  rw [namesOf, List.mem_map, Option.isSome_iff_exists]
  constructor
  · rintro ⟨r, member, rfl⟩
    obtain ⟨name, named, -, found⟩ := exportable.first_name member
    rw [named]
    exact ⟨r, found⟩
  · rintro ⟨r, found⟩
    have named := active_name exportable.tabled found
    exact ⟨r, (mem_firsts exportable.tabled r).mpr ⟨name, found⟩, by rw [named, Option.getD_some]⟩

/-- Run lemma: each round sets the variables of the first resource of a list, and keeps its
name. -/
theorem foldl_envList {lists : List Plain}
    (among : ∀ list ∈ lists, list ∈ LinearProbe.stored comp.resources)
    (s : Written Shell.Assignment) (ok : s.ok = true) (msg : Option String)
    (distinct : (s.names ++ namesOf (lists.filterMap (first res))).Nodup) :
    let result := lists.foldl (envList res comp (valPfxOf compName) (some (typePfxOf compName))
      writeOptions) (s, msg)
    result.1.items.map Prod.snd = s.items.map Prod.snd ++
        assigned ((lists.filterMap (first res)).flatMap (TypedResource.readings compName)) ∧
      result.1.names = s.names ++ namesOf (lists.filterMap (first res)) ∧
      result.1.ok = true ∧ result.2 = msg := by
  induction lists generalizing s with
  | nil => simp [namesOf, assigned, ok]
  | cons list rest ih =>
    have inside := among list List.mem_cons_self
    obtain ⟨_, listFor⟩ := exportable.tabled.named list inside
    obtain ⟨r, here, -⟩ := listFor.first_eq
    have member : r ∈ firsts res comp := List.mem_filterMap.mpr ⟨list, inside, here⟩
    obtain ⟨name, named, valid, -⟩ := exportable.first_name member
    obtain ⟨a, head, rfl⟩ := Option.map_eq_some_iff.mp here
    rw [List.filterMap_cons_some here, namesOf, List.map_cons, named, Option.getD_some] at distinct
    have new_ : TagList.contains s.names name = false := by
      rw [← Bool.not_eq_true, TagList.contains_iff]
      exact fun old => (List.nodup_append.mp distinct).2.2 name old name List.mem_cons_self rfl
    -- one round goes well
    let vars := assigned (TypedResource.readings compName (res a))
    let after : Written Shell.Assignment :=
      { items := s.items ++ vars.map (some a, ·), names := s.names ++ [name], ok := true }
    have round : envList res comp (valPfxOf compName) (some (typePfxOf compName)) writeOptions
        (s, msg) list = (after, msg) := by
      rw [envList, head]
      simp only [Shown, writeOptions, true_or, if_true]
      have wrote := TypedResource.toEnv_eq exportable.valid named valid
      rw [writeOptions] at wrote
      simp only [wrote, if_true, named, Option.getD_some, TagList.mutateAdd, new_,
        Bool.false_eq_true, if_false,
        TagList.mutateAppend_valid _ (TagList.validTag_of_validName valid)]
      rfl
    obtain ⟨items, names, ok', msg'⟩ := ih
      (fun other later => among other (List.mem_cons_of_mem _ later)) after rfl
      (by simpa [after, namesOf] using distinct)
    rw [List.foldl_cons, round]
    refine ⟨?_, ?_, ok', msg'⟩
    · rw [items, List.filterMap_cons_some here, List.flatMap_cons, Assignments.assigned_append]
      simp [after, vars, Function.comp_def]
    · rw [names, List.filterMap_cons_some here]
      simp [after, namesOf, named]

/-- All variables of a component are set, with the list of the names last. -/
theorem toEnv_eq : (toEnv res comp none none writeOptions).1.ok = true ∧
    (toEnv res comp none none writeOptions).1.items.map Prod.snd =
      assigned (readings res comp compName) := by
  have notEmpty : Lcfg.isEmpty comp.name = false := by
    simpa [exportable.named, Lcfg.isEmpty] using TypedResource.validName_ne exportable.valid
  have pfx : expandedPfx comp none none writeOptions =
      (valPfxOf compName, some (typePfxOf compName)) := by
    rw [expandedPfx, exportable.named]
    rfl
  obtain ⟨items, names, ok, -⟩ := exportable.foldl_envList (fun list member => member) {} rfl none
    (by simpa [firsts] using exportable.namesOf_nodup)
  -- `setenv` accepts the name of the variable for the list
  have key : ¬ (valueKey compName envListKey = [] ∨ '=' ∈ valueKey compName envListKey) := by
    rintro (nothing | equals)
    · simp [valueKey] at nothing
    · have word : '=' ∈ compName.toList := by simpa [valueKey, envListKey] using equals
      exact absurd ((TypedResource.name_word exportable.valid).2 '=' word) (by decide)
  rw [toEnv]
  simp only [notEmpty, exportable.filled, Bool.false_eq_true, if_false, pfx]
  rw [if_pos ok, TypedResource.buildEnvVar_value, if_neg key]
  refine ⟨ok, ?_⟩
  rw [List.map_append, items, names, readings, Assignments.assigned_append]
  rfl

/-- A component is loaded when its variables have the values which are expected. -/
theorem fromEnv_eq {env : Environment} (closed : ∀ r ∈ firsts res comp, Closed r)
    (reads : ∀ reading ∈ readings res comp compName, env reading.1 = reading.2)
    (options : LCFGOption) :
    ∃ l contents, Loading.fromEnv hash env compName none none options = .ok (some l) ∧
      Loading.Holds hash compName l contents ∧
      ∀ name, contents name = (active res (some comp) name).map fun r => copied r name := by
  let names := TagList.sort (namesOf (firsts res comp))
  have perm : names.Perm (namesOf (firsts res comp)) := TagList.sort_perm _
  have mem_names (name : String) : name ∈ names ↔ (active res (some comp) name).isSome :=
    perm.mem_iff.trans exportable.mem_namesOf
  have validNames {name : String} (member : name ∈ names) :
      Resource.validName (some name) = true := by
    obtain ⟨r, found⟩ := Option.isSome_iff_exists.mp ((mem_names name).mp member)
    have named := active_name exportable.tabled found
    exact named ▸ exportable.names r ((mem_firsts exportable.tabled r).mpr ⟨name, found⟩)
  let made (name : String) : TypedResource :=
    copied ((active res (some comp) name).getD TypedResource.new) name
  -- the names are read from their list
  have listed : TagList.fromString (sortedNames (namesOf (firsts res comp))) = .ok names :=
    TagList.fromString_intercalate fun name member =>
      TagList.validTag_of_validName (validNames member)
  have notNil : names ≠ [] := by
    intro nothing
    have empty : firsts res comp = [] := by
      rw [nothing] at perm
      exact List.map_eq_nil_iff.mp perm.nil_eq.symm
    have zero := (size_eq_zero_iff exportable.tabled).mpr empty
    have some_ := exportable.filled
    rw [isEmpty, zero] at some_
    cases some_
  have listRead := reads (valueKey compName envListKey, _)
    (List.mem_append_right _ List.mem_cons_self)
  -- and the resources one after another
  have loads : ∀ name ∈ names, Resource.validName (some name) = true ∧
      (fun _ => none : String → Option TypedResource) name = none ∧
      (made name).name = some name ∧
      TypedResource.fromEnv env name none (some (valPfxOf compName)) (some (typePfxOf compName)) {} =
        .ok (made name) := by
    intro name member
    obtain ⟨r, found⟩ := Option.isSome_iff_exists.mp ((mem_names name).mp member)
    have named := active_name exportable.tabled found
    have inFirsts := (mem_firsts exportable.tabled r).mpr ⟨name, found⟩
    have same : made name = copied r name := by simp only [made, found, Option.getD_some]
    refine ⟨validNames member, rfl, rfl, ?_⟩
    rw [same]
    apply TypedResource.fromEnv_eq named (validNames member) (exportable.valued r inFirsts)
      (closed r inFirsts)
    intro reading inside
    exact reads reading (List.mem_append_left _ (List.mem_flatMap.mpr ⟨r, inFirsts, inside⟩))
  obtain ⟨l, done, holds⟩ := Loading.importResources_spec (@Loading.new_holds hash compName)
    (perm.nodup_iff.mpr exportable.namesOf_nodup) loads
  refine ⟨l, _, ?_, holds, fun name => ?_⟩
  · rw [loading_fromEnv exportable.valid, TypedResource.buildEnvVar_list exportable.valid, listRead, Option.getD_some]
    cases text : sortedNames (namesOf (firsts res comp)) with
    | nil =>
      rw [text] at listed
      exact absurd (Except.ok.inj listed).symm notNil
    | cons c rest =>
      rw [text] at listed
      simp only [listed]
      cases more : names with
      | nil => exact absurd more notNil
      | cons first later =>
        rw [more] at done
        change (Loading.importResources hash env (valPfxOf compName) (typePfxOf compName)
          (Loading.new compName) (first :: later)).map some = _
        rw [done]
        rfl
  · by_cases member : name ∈ names
    · obtain ⟨r, found⟩ := Option.isSome_iff_exists.mp ((mem_names name).mp member)
      simp only [if_pos member, made, found, Option.getD_some, Option.map_some]
    · have missing : active res (some comp) name = none := by
        rw [← Option.not_isSome_iff_eq_none, ← mem_names]
        exact member
      rw [if_neg member, missing, Option.map_none]

end Exportable

end PlainComponent

/-! ## Component sets -/

namespace CompSet

open LoadedSet (Loads)

variable {hash : String → Nat} {store : Store} {set : LCFGComponentSet}

/-- A component of a store. -/
def valueOf (store : Store) (a : Addr) : PlainComponent :=
  Component.value ⟨store.heap, store.comp a⟩

/-- A set of components which have resources, with valid values. -/
structure Exportable (hash : String → Nat) (store : Store) (set : LCFGComponentSet) : Prop
    extends Sound hash store.comp set where
  each : ∀ a ∈ LinearProbe.stored set.components,
    PlainComponent.Exportable hash store.res (valueOf store a) (nameOf store.comp a)

/-- What is expected in the variables of all components. -/
def readings (store : Store) (set : LCFGComponentSet) :
    List (List Char × Option (List Char)) :=
  (LinearProbe.stored set.components).flatMap fun a =>
    PlainComponent.readings store.res (valueOf store a) (nameOf store.comp a)

/-- No comment of a first resource has a closing bracket in it. -/
def AllClosed (store : Store) (set : LCFGComponentSet) : Prop :=
  ∀ a ∈ LinearProbe.stored set.components, ∀ r ∈ firsts store.res (valueOf store a), Closed r

/-- The same names of resources, with the same values and types. -/
def SameResources (store : Store) (a : Addr) (l : Loading) : Prop :=
  ∀ name, Option.Rel Reproduces (active store.res (some (valueOf store a)) name)
    (active l.res (some l.comp) name)

/-- The set is put into an empty environment, and comes back from there. -/
def RoundTrips (hash : String → Nat) (store : Store) (set : LCFGComponentSet)
    (compsWanted : LCFGTagList) (options : LCFGOption) : Prop :=
  let exported := toEnv store set none none writeOptions
  exported.ok = true ∧
    ∃ back, LoadedSet.fromEnv hash (assign (fun _ => none) exported.vars) none none compsWanted
        options = .ok back ∧
      ∀ name, Option.Rel (SameResources store) (findComponent hash store.comp set name)
        (back.findComponent hash name)

namespace Exportable

variable (exportable : Exportable hash store set)
include exportable

theorem exportAll_eq {comps : List Addr}
    (among : ∀ a ∈ comps, a ∈ LinearProbe.stored set.components) :
    (exportAll store none none writeOptions comps).ok = true ∧
      (exportAll store none none writeOptions comps).vars =
        assigned (comps.flatMap fun a =>
          PlainComponent.readings store.res (valueOf store a) (nameOf store.comp a)) := by
  induction comps with
  | nil => exact ⟨rfl, rfl⟩
  | cons a rest ih =>
    obtain ⟨ok, vars⟩ := (exportable.each a (among a List.mem_cons_self)).toEnv_eq
    obtain ⟨later, more⟩ := ih fun b member => among b (List.mem_cons_of_mem _ member)
    rw [valueOf] at ok vars
    rw [exportAll]
    simp only [ok, if_true, vars]
    refine ⟨later, ?_⟩
    rw [more, List.flatMap_cons, Assignments.assigned_append, valueOf]

theorem toEnv_eq : (toEnv store set none none writeOptions).ok = true ∧
    (toEnv store set none none writeOptions).vars = assigned (readings store set) := by
  rw [toEnv]
  split
  case isTrue empty =>
    -- an empty set has no variables
    have zero : set.entries = 0 := by simpa [isEmpty] using empty
    have nothing : LinearProbe.stored set.components = [] := by
      rw [← List.length_eq_zero_iff, LinearProbe.length_stored, ← exportable.entries_eq, zero]
    exact ⟨rfl, by rw [readings, nothing]; rfl⟩
  case isFalse => exact exportable.exportAll_eq fun a member => member

/-- All components come back if each variable has one value at most. -/
theorem env_roundTrips {wanted : LCFGTagList}
    (all : ∀ name, name ∈ wanted ↔ (findComponent hash store.comp set name).isSome)
    (closed : AllClosed store set) (unambiguous : Unambiguous (readings store set))
    (options : LCFGOption) : RoundTrips hash store set wanted options := by
  obtain ⟨ok, vars⟩ := exportable.toEnv_eq
  have sound := exportable.toSound
  simp only [sound.findComponent_eq] at all
  refine ⟨ok, ?_⟩
  rw [vars]
  -- what is expected of the component which is loaded under a name
  let asExpected (name : String) (l : Loading) : Prop :=
    ∃ a, entry store.comp set name = some a ∧ SameResources store a l
  have made : ∀ name ∈ wanted, name ≠ "" ∧ ∃ l : Loading, l.comp.name = some name ∧
      asExpected name l ∧ Loading.fromEnv hash (assign (fun _ => none) (assigned (readings store set)))
        name none none options = .ok (some l) := by
    intro name member
    obtain ⟨a, found⟩ := Option.isSome_iff_exists.mp ((all name).mp member)
    obtain ⟨inside, same⟩ := (sound.chained.entry_eq_some_iff name a).mp found
    obtain rfl := Option.some_inj.mp same
    have component := exportable.each a inside
    obtain ⟨l, contents, loaded, holds, copies⟩ := component.fromEnv_eq (closed a inside)
      (fun reading here => unambiguous.assign (List.mem_flatMap.mpr ⟨a, inside, here⟩)) options
    refine ⟨TypedResource.validName_ne component.valid, l, holds.named, ⟨a, found, fun resname => ?_⟩,
      loaded⟩
    rw [holds.shows, copies]
    cases shown : active store.res (some (valueOf store a)) resname with
    | none => exact .none
    | some r =>
      exact .some (TypedResource.copied_reproduces (PlainComponent.active_name component.tabled shown))
  -- the set which was exported had room for as many names
  have fits : (wanted ++ []).dedup.length ≤ defaultSize := by
    have counted := sound.chained.occupied_eq_length_dedup wanted fun name => (all name).symm
    rw [List.append_nil, ← counted, ← sound.entries_eq]
    exact sound.entries_le
  obtain ⟨back, loaded, loads⟩ := LoadedSet.new_loads.loop_spec made fits
  refine ⟨back, loaded, fun name => ?_⟩
  rw [sound.findComponent_eq, LoadedSet.findComponent, loads.sound.findComponent_eq]
  cases found : entry back.comp back.set name with
  | none =>
    have notWanted : ¬ (entry store.comp set name).isSome := by
      rw [← all, ← List.mem_reverse, ← List.append_nil wanted.reverse, ← loads.found, found]
      exact Bool.false_ne_true
    rw [Option.not_isSome_iff_eq_none.mp notWanted]
    exact .none
  | some b =>
    obtain ⟨l, here, a, there, same⟩ := loads.expected name b found
    rw [there, Option.bind_some, here]
    exact .some same

end Exportable

/-! ## Samples -/

section Sample

open ResList (Plain)

/-- Components with one resource each. -/
def storeOf (compName : Addr → String) (resource : Addr → TypedResource) : Store where
  heap := ⟨fun a => ⟨⟨[⟨0, a⟩], some 0, 1⟩, {}, {}⟩, fun _ => 1, 1⟩
  comp a := { Component.new with
    name := some (compName a)
    resources := Component.new.resources.set
      (Component.home djbhash Component.defaultSize ((resource a).name.getD "")) (some a)
    entries := 1 }
  res := resource

variable {compName : Addr → String} {resource : Addr → TypedResource}

theorem storeOf_tabled {a : Addr} {name : String} (named : (resource a).name = some name)
    (some_ : name ≠ "") :
    PlainComponent.Tabled djbhash (base resource) (valueOf (storeOf compName resource) a) ∧
      PlainComponent.lists (base resource) (valueOf (storeOf compName resource) a) =
        Function.update (fun _ => none) name (some ⟨[a], {}, {}⟩) := by
  let blank := PlainComponent.emptied (valueOf (storeOf compName resource) a) Component.defaultSize
  let i := Component.home djbhash Component.defaultSize name
  have empty : PlainComponent.Tabled djbhash (base resource) blank :=
    PlainComponent.Tabled.emptied_tabled _ (by decide)
  have holds : PlainComponent.ListFor (base resource) name ⟨[a], {}, {}⟩ :=
    ⟨some_, by simp, by simpa [base] using named⟩
  have length : blank.resources.length = Component.defaultSize := List.length_replicate
  have inside : i < blank.resources.length := by
    rw [length]
    exact Nat.mod_lt _ (by decide)
  have vacant : blank.resources[i]? = some none := by
    rw [List.getElem?_eq_some_iff]
    exact ⟨inside, List.getElem_replicate _⟩
  -- in an empty table the probe stops where it begins
  have found : PlainComponent.bucketOf djbhash (base resource) blank name = some i := by
    have first : LinearProbe.rank i blank.resources.length i = 0 := by
      rw [LinearProbe.rank, if_pos le_rfl, Nat.sub_self]
    have start : Component.home djbhash blank.resources.length name = i := by rw [length]
    rw [PlainComponent.bucketOf, empty.buckets_eq, start]
    refine (LinearProbe.probe_eq_some_iff _ _ _ inside i).mpr ⟨.inl vacant, fun j _ less => ?_⟩
    rw [first] at less
    cases less
  have same : valueOf (storeOf compName resource) a =
      PlainComponent.put blank i ⟨[a], {}, {}⟩ := by
    have isEmpty : blank.resources[i]?.join.isNone = true := by rw [vacant]; rfl
    rw [PlainComponent.put, if_pos isEmpty]
    simp only [valueOf, Component.value, PlainComponent.emptied, ComponentTable.map, List.map_set,
      Component.new, List.map_replicate, Option.map_none, Option.map_some, storeOf, blank, i,
      named, Option.getD_some]
    rfl
  have none_ : PlainComponent.lists (base resource) blank = fun _ => none :=
    LinearProbe.entry_replicate_none _ _
  rw [same, ← none_]
  exact empty.put_spec holds found

theorem storeOf_only {a : Addr} (named : Resource.validName (resource a).name = true)
    (r : TypedResource) :
    r ∈ firsts resource (valueOf (storeOf compName resource) a) ↔ r = resource a := by
  obtain ⟨name, given⟩ := TypedResource.exists_name named
  obtain ⟨tabled, lists⟩ := @storeOf_tabled compName _ _ _ given
    (TypedResource.validName_ne (given ▸ named))
  rw [PlainComponent.mem_firsts tabled]
  simp only [active, Option.bind_some, lists]
  constructor
  · rintro ⟨other, found⟩
    by_cases same : other = name
    · rw [same, Function.update_self] at found
      exact (Option.some_inj.mp found).symm
    · rw [Function.update_of_ne same] at found
      cases found
  · rintro rfl
    exact ⟨name, by rw [Function.update_self]; rfl⟩

/-- The set of some of the components. -/
def setOf (compName : Addr → String) (resource : Addr → TypedResource) (inserted : List Addr) :
    LCFGComponentSet :=
  (insertAll djbhash (storeOf compName resource).comp new inserted).1

theorem setOf_exportable (compValid : ∀ a, Resource.validName (some (compName a)) = true)
    (named : ∀ a, Resource.validName (resource a).name = true) (valued : ∀ a, Valued (resource a))
    {inserted : List Addr} (fits : inserted.length ≤ defaultSize) :
    Exportable djbhash (storeOf compName resource) (setOf compName resource inserted) ∧
      ∀ name, name ∈ inserted.map compName ↔ (findComponent djbhash
        (storeOf compName resource).comp (setOf compName resource inserted) name).isSome := by
  have valid : ∀ a ∈ inserted, Component.isValid ((storeOf compName resource).comp a) = true := by
    intro a _
    simpa [storeOf, Component.isValid, Lcfg.isEmpty] using TypedResource.validName_ne (compValid a)
  have sound : Sound djbhash (storeOf compName resource).comp (setOf compName resource inserted) :=
    insertAll_sound inserted valid
  have fewer : (names (storeOf compName resource).comp inserted).length ≤ defaultSize := by
    have shorter := (List.dedup_sublist (inserted.map (nameOf (storeOf compName resource).comp))).length_le
    rw [List.length_map] at shorter
    exact shorter.trans fits
  refine ⟨⟨sound, fun a _ => ?_⟩, fun name => ?_⟩
  · obtain ⟨name, given⟩ := TypedResource.exists_name (named a)
    obtain ⟨tabled, -⟩ := @storeOf_tabled compName _ _ _ given
      (TypedResource.validName_ne (given ▸ named a))
    refine ⟨tabled, rfl, compValid a, rfl, fun r member => ?_, fun r member => ?_⟩
    · rw [(storeOf_only (named a) r).mp member]
      exact named a
    · rw [(storeOf_only (named a) r).mp member]
      exact valued a
  · rw [sound.findComponent_eq, setOf, (insertAll_spec inserted valid fewer).2, lastInserted,
      List.find?_isSome, List.mem_map]
    simp only [List.mem_reverse, decide_eq_true_eq]
    rfl

/-- A resource of a component which has been loaded. -/
def resourceBack (hash : String → Nat) (store : Store) (set : LCFGComponentSet)
    (compsWanted : LCFGTagList) (options : LCFGOption) (name resname : String) :
    Option TypedResource :=
  match LoadedSet.fromEnv hash (assign (fun _ => none) (toEnv store set none none writeOptions).vars)
      none none compsWanted options with
  | .error _ => none
  | .ok back => (back.findComponent hash name).bind fun l => active l.res (some l.comp) resname

theorem RoundTrips.reproduces {wanted : LCFGTagList} {options : LCFGOption}
    (back : RoundTrips hash store set wanted options) {name resname : String} {a : Addr}
    {r : TypedResource} (found : findComponent hash store.comp set name = some a)
    (shown : active store.res (some (valueOf store a)) resname = some r) :
    ∃ r', resourceBack hash store set wanted options name resname = some r' ∧ Reproduces r r' := by
  obtain ⟨-, back, loaded, same⟩ := back
  have component := same name
  rw [resourceBack, loaded]
  rw [found] at component
  cases there : back.findComponent hash name with
  | none =>
    rw [there] at component
    cases component
  | some l =>
    rw [there] at component
    cases component with
    | some resources =>
      have resource := resources resname
      rw [shown] at resource
      cases here : active l.res (some l.comp) resname with
      | none =>
        rw [here] at resource
        cases resource
      | some r' =>
        rw [here] at resource
        cases resource with
        | some reproduces => exact ⟨r', by simp only [there, Option.bind_some, here], reproduces⟩

def envName (a : Addr) : String := if a = 0 then "a" else "a_b"

/-- Two resources with different variables. -/
def separate (a : Addr) : TypedResource :=
  if a = 0 then { TypedResource.newNamed "b_c" with type := .integer, value := some "1" }
  else { TypedResource.newNamed "d" with comment := some "who may", value := some "carol" }

/-- Two resources with one variable, `LCFG_a_b_c`. -/
def clashing (a : Addr) : TypedResource :=
  if a = 0 then { TypedResource.newNamed "b_c" with value := some "1" }
  else { TypedResource.newNamed "c" with value := some "2" }

/-- A comment which ends before its end. -/
def commented : TypedResource :=
  { TypedResource.newNamed "users" with comment := some "who) may", value := some "carol" }

theorem envName_valid (a : Addr) : Resource.validName (some (envName a)) = true := by
  rw [envName]
  split <;> decide

theorem separate_sample (a : Addr) :
    Resource.validName (separate a).name = true ∧ Valued (separate a) ∧ Closed (separate a) := by
  rw [separate]
  split
  · exact ⟨by decide, ⟨⟨"1", rfl, by decide⟩, fun list => by cases list⟩, fun _ none_ => by cases none_⟩
  · refine ⟨by decide, ⟨⟨"carol", rfl, by decide⟩, fun list => by cases list⟩, fun comment given => ?_⟩
    obtain rfl := Option.some_inj.mp given
    decide

theorem clashing_sample (a : Addr) :
    Resource.validName (clashing a).name = true ∧ Valued (clashing a) ∧ Closed (clashing a) := by
  rw [clashing]
  split
  · exact ⟨by decide, ⟨⟨"1", rfl, by decide⟩, fun list => by cases list⟩, fun _ none_ => by cases none_⟩
  · exact ⟨by decide, ⟨⟨"2", rfl, by decide⟩, fun list => by cases list⟩, fun _ none_ => by cases none_⟩

theorem commented_sample : Resource.validName commented.name = true ∧ Valued commented :=
  ⟨by decide, ⟨⟨"carol", rfl, by decide⟩, fun list => by cases list⟩⟩

theorem separate_roundTrips :
    RoundTrips djbhash (storeOf envName separate) (setOf envName separate [0, 1]) ["a", "a_b"] {} := by
  obtain ⟨exportable, names⟩ := setOf_exportable envName_valid (fun a => (separate_sample a).1)
    (fun a => (separate_sample a).2.1) (show [0, 1].length ≤ defaultSize by decide)
  refine exportable.env_roundTrips names (fun a _ r member => ?_) ?_ {}
  · rw [(storeOf_only (separate_sample a).1 r).mp member]
    exact (separate_sample a).2.2
  · unfold Unambiguous
    decide +kernel

theorem env_not_roundTrips :
    (¬ ∀ (hash : String → Nat) (store : Store) (set : LCFGComponentSet) (wanted : LCFGTagList),
      Exportable hash store set →
        (∀ name, name ∈ wanted ↔ (findComponent hash store.comp set name).isSome) →
          AllClosed store set → ∀ options, RoundTrips hash store set wanted options) ∧
    ¬ ∀ (hash : String → Nat) (store : Store) (set : LCFGComponentSet) (wanted : LCFGTagList),
      Exportable hash store set →
        (∀ name, name ∈ wanted ↔ (findComponent hash store.comp set name).isSome) →
          Unambiguous (readings store set) → ∀ options, RoundTrips hash store set wanted options := by
  constructor
  -- both resources come back with the value which was set last
  · intro every
    obtain ⟨exportable, names⟩ := setOf_exportable envName_valid (fun a => (clashing_sample a).1)
      (fun a => (clashing_sample a).2.1) (show [0, 1].length ≤ defaultSize by decide)
    have back := every _ _ _ _ exportable names (fun a _ r member => by
      rw [(storeOf_only (clashing_sample a).1 r).mp member]
      exact (clashing_sample a).2.2) {}
    obtain ⟨r', read, same⟩ := @RoundTrips.reproduces _ _ _ _ _ back "a_b" "c" 1 (clashing 1)
      (by decide +kernel) (by decide +kernel)
    have value : (resourceBack djbhash (storeOf envName clashing) (setOf envName clashing [0, 1])
        ([0, 1].map envName) {} "a_b" "c").bind (fun r => r.value) = some "1" := by decide +kernel
    rw [read, Option.bind_some, same.value] at value
    revert value
    decide
  -- the comment ends at its first bracket
  · intro every
    obtain ⟨exportable, names⟩ := setOf_exportable envName_valid (fun _ => commented_sample.1)
      (fun _ => commented_sample.2) (show [0].length ≤ defaultSize by decide)
    have back := every _ _ _ _ exportable names (by unfold Unambiguous; decide +kernel) {}
    obtain ⟨r', read, same⟩ := @RoundTrips.reproduces _ _ _ _ _ back "a" "users" 0 commented
      (by decide +kernel) (by decide +kernel)
    have comment : (resourceBack djbhash (storeOf envName fun _ => commented)
        (setOf envName (fun _ => commented) [0]) ([0].map envName) {} "a" "users").bind TypedResource.givenComment = some "who" := by
      decide +kernel
    rw [read, Option.bind_some, same.comment] at comment
    revert comment
    decide

end Sample

end CompSet

end Lcfg
