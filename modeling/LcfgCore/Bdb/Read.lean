import LcfgCore.Components.Loading
import LcfgCore.Resources.Attributes
import LcfgCore.Resources.Key

/-!
# Reading components from a database

A database maps keys to records. Under the name of a component stands the list of its
resources, and each attribute of a resource stands under a key of its own (`bdb/read.c`).

## Main results

`processNames_spec`: what the loop over the names leaves, up to the first invalid one.
`allOrNothing_iff`: a component is complete or refused, exactly where an invalid name is not
what stops the loop.
-/
namespace Lcfg

open TypedResource (Symbol buildKey buildMessage setAttribute)

namespace Bdb

/-- The contents of a database. -/
abbrev Database := List Char → Option (List Char)

/-- The sizes of keys are `u_int32_t`. -/
def dbt (text : List Char) : List Char := text.take (text.length % 2 ^ 32)

def get (db : Database) (key : List Char) : Option (List Char) := db (dbt key)

variable (hash : String → Nat) (signedChar : Bool) (db : Database) (compName : String)
  (space : Option String)

/-- `lcfgbdb_get_resource_item`: a record which is there sets an attribute. -/
def getResourceItem (res : TypedResource) (typeSymbol : Symbol) :
    Except String (TypedResource × LCFGChange) :=
  match buildKey res.name (some compName) space typeSymbol with
  | none => .error (buildMessage (some res) (some compName) "Failed to retrieve data from DB")
  | some key =>
    match get db key with
    | none => .ok (res, .none)
    | some data =>
      let attempt := setAttribute signedChar res typeSymbol.char (String.ofList data) data.length
      if attempt.ok then .ok (attempt.res, .modified)
      else
        .error (buildMessage (some attempt.res) (some compName)
          ("Failed to set attribute: " ++ attempt.msg.getD "(null)"))

/-- The attributes of a resource are read one after another. -/
def getResourceItems (res : TypedResource) : List Symbol → Except String TypedResource
  | [] => .ok res
  | typeSymbol :: rest =>
    match getResourceItem signedChar db compName space res typeSymbol with
    | .error msg => .error msg
    | .ok (res, _) => getResourceItems res rest

/-- The attributes in the order in which they are read. -/
def wantedItems (useMeta : Bool) : List Symbol :=
  (if useMeta then [.derivation, .context, .priority] else []) ++ [.type, .value]

/-- What is made of the records for one name. -/
def readResource (useMeta : Bool) (resname : String) : Except String TypedResource :=
  getResourceItems signedChar db compName space (TypedResource.newNamed resname)
    (wantedItems useMeta)

/-- The status, the component and the message with which the reader comes back. -/
structure Processed where
  ok : Bool
  component : Option Loading
  msg : Option String

def Processed.failed (msg : String) : Processed := { ok := false, component := none, msg := some msg }

/-- The message for a resource which could not be merged. -/
def conflictMessage (l : Loading) (resname : String) : String :=
  match l.findResource hash resname with
  | some a => buildMessage (some (l.res a)) none "conflict"
  | none => "No free space for new entries in component"

/-- The loop over the names in `lcfgbdb_process_component`. -/
def processNames (useMeta : Bool) (l : Loading) : List (List Char) → Processed
  | [] => { ok := true, component := some l, msg := none }
  | resname :: rest =>
    let resname := String.ofList resname
    if Resource.validName (some resname) = false then
      -- the loop is left and the status is still LCFG_STATUS_OK
      { ok := true, component := some l,
        msg := some ("Invalid resource name '" ++ compName ++ "." ++ resname ++ "'") }
    else
      match readResource signedChar db compName space useMeta resname with
      | .error msg => .failed msg
      | .ok res =>
        let (l', mergeRc) := l.mergeResource hash res
        if mergeRc = .error then
          .failed ("Failed to merge resource into component: " ++ conflictMessage hash l resname)
        else processNames useMeta l' rest

/-- `lcfgbdb_process_component` -/
def processComponent (options : LCFGOption) : Processed :=
  let reslist := (get db compName.toList).filter fun data => 0 < data.length
  match reslist with
  | none => .failed ("Failed to find resources for component '" ++ compName ++ "'")
  | some data =>
    if Resource.validName (some compName) = false then
      .failed ("Failed to set '" ++ compName ++ "' as name for component")
    else
      processNames hash signedChar db compName space options.useMeta (Loading.new compName)
        (Fields.tokens (· == ' ') (data.takeWhile (· ≠ '\x00')))

/-! ## The loop -/

variable {hash signedChar db compName space} {l : Loading}
  {contents : String → Option TypedResource} {useMeta : Bool}

open Loading (Holds Strict)

theorem getResourceItems_name {res res' : TypedResource} {symbols : List Symbol}
    (done : getResourceItems signedChar db compName space res symbols = .ok res') :
    res'.name = res.name := by
  induction symbols generalizing res with
  | nil =>
    cases done
    rfl
  | cons typeSymbol rest ih =>
    rw [getResourceItems] at done
    cases item : getResourceItem signedChar db compName space res typeSymbol with
    | error msg =>
      rw [item] at done
      cases done
    | ok next =>
      rw [item] at done
      have here : next.1.name = res.name := by
        rw [getResourceItem] at item
        split at item
        · cases item
        · split at item
          · cases item
            rfl
          · dsimp only at item
            split at item
            · cases item
              exact (TypedResource.setAttribute_frame ..).1
            · cases item
      exact (ih done).trans here

/-- A name which the loop passes. -/
def validText (resname : List Char) : Bool := Resource.validName (some (String.ofList resname))

/-- The names before the first invalid one. -/
def known (names : List (List Char)) : List (List Char) := names.takeWhile validText

/-- The records for a name are accepted. -/
def Readable (signedChar : Bool) (db : Database) (compName : String) (space : Option String)
    (useMeta : Bool) (resname : List Char) : Prop :=
  ∃ res, readResource signedChar db compName space useMeta (String.ofList resname) = .ok res

/-- What the loop comes back with: the known names are read and merged, or something fails. -/
theorem processNames_spec (holds : Holds hash compName l contents) (strict : Strict l)
    (names : List (List Char)) :
    let result := processNames hash signedChar db compName space useMeta l names
    (result.ok = true ↔ (known names).Nodup ∧
      ∀ resname ∈ known names, contents (String.ofList resname) = none ∧
        Readable signedChar db compName space useMeta resname) ∧
    (result.ok = true → ∃ l' contents', result.component = some l' ∧
      Holds hash compName l' contents' ∧ ∀ name, (contents' name).isSome ↔
        (contents name).isSome ∨ name.toList ∈ known names) := by
  induction names generalizing l contents with
  | nil =>
    refine ⟨by simp [known, processNames], fun _ => ⟨l, contents, rfl, holds, fun name => ?_⟩⟩
    simp [known]
  | cons resname rest ih =>
    dsimp only
    rw [processNames]
    by_cases valid : validText resname = true
    case neg =>
      -- the loop stops here
      have stops : known (resname :: rest) = [] := by rw [known, List.takeWhile_cons_of_neg valid]
      have invalid : Resource.validName (some (String.ofList resname)) = false := by
        simpa [validText] using valid
      rw [if_pos invalid, stops]
      refine ⟨by simp, fun _ => ⟨l, contents, rfl, holds, fun name => ?_⟩⟩
      simp
    case pos =>
      have passes : known (resname :: rest) = resname :: known rest := by
        rw [known, List.takeWhile_cons_of_pos valid, known]
      have some_ : String.ofList resname ≠ "" := TypedResource.validName_ne valid
      rw [if_neg (by rw [← Bool.not_eq_true, not_not]; exact valid), passes]
      cases read : readResource signedChar db compName space useMeta (String.ofList resname) with
      | error msg =>
        have unreadable : ¬ Readable signedChar db compName space useMeta resname := by
          rintro ⟨res, ok⟩
          rw [read] at ok
          cases ok
        refine ⟨iff_of_false Bool.false_ne_true fun all => ?_, fun ok => by cases ok⟩
        exact unreadable (all.2 resname List.mem_cons_self).2
      | ok res =>
        have named : res.name = some (String.ofList resname) := getResourceItems_name read
        cases here : contents (String.ofList resname) with
        | some old =>
          -- a second resource of the name
          have refused := strict.conflict holds named some_ here
          dsimp only
          rw [if_pos refused]
          refine ⟨iff_of_false Bool.false_ne_true fun all => ?_, fun ok => by cases ok⟩
          have fresh := (all.2 resname List.mem_cons_self).1
          rw [here] at fresh
          cases fresh
        | none =>
          obtain ⟨holds', added, -⟩ := holds.mergeResource named some_ here
          have strict' := strict.mergeResource holds named some_ here
          obtain ⟨ok_iff, loaded⟩ := ih holds' strict'
          dsimp only
          rw [if_neg (by rw [added]; decide)]
          have updated (other : List Char) :
              Function.update contents (String.ofList resname) (some res) (String.ofList other) =
                none ↔ other ≠ resname ∧ contents (String.ofList other) = none := by
            by_cases same : other = resname
            · simp [same]
            · have apart : String.ofList other ≠ String.ofList resname := fun equal =>
                same (String.ofList_injective equal)
              rw [Function.update_of_ne apart]
              simp [same]
          constructor
          · rw [ok_iff]
            simp only [updated, List.nodup_cons, List.forall_mem_cons]
            constructor
            · rintro ⟨distinct, all⟩
              refine ⟨⟨fun member => ((all resname member).1).1 rfl, distinct⟩,
                ⟨here, res, read⟩, fun other member => ?_⟩
              exact ⟨(all other member).1.2, (all other member).2⟩
            · rintro ⟨⟨fresh, distinct⟩, -, all⟩
              refine ⟨distinct, fun other member => ⟨⟨?_, (all other member).1⟩,
                (all other member).2⟩⟩
              rintro rfl
              exact fresh member
          · intro ok
            obtain ⟨l', contents', component, holds'', shows⟩ := loaded ok
            refine ⟨l', contents', component, holds'', fun name => ?_⟩
            rw [shows, List.mem_cons]
            by_cases same : name = String.ofList resname
            · simp [same]
            · have apart : name.toList ≠ resname := fun equal =>
                same (by rw [← equal, String.ofList_toList])
              rw [Function.update_of_ne same]
              simp [apart]

/-! ## Complete or refused -/

/-- The names in the list which is stored for the component. -/
def storedNames (db : Database) (compName : String) : List (List Char) :=
  Fields.tokens (· == ' ') ((get db compName.toList).getD [])

/-- With a component its resources are those of the stored list, one for each name, and a list
with an invalid name is refused. -/
def AllOrNothing (db : Database) (compName : String) (result : Processed) : Prop :=
  (result.ok = true → ∃ l, result.component = some l ∧
    (∀ name, (PlainComponent.active l.res (some l.comp) name).isSome ↔
      name.toList ∈ storedNames db compName) ∧
    ∀ list ∈ LinearProbe.stored l.comp.resources, list.items.length = 1) ∧
  ((∃ resname ∈ storedNames db compName, validText resname = false) → result.ok = false)

/-- The names which are read: the list is a C string, and is read up to the first invalid name. -/
def knownNames (db : Database) (compName : String) : List (List Char) :=
  known (Fields.tokens (· == ' ') (((get db compName.toList).getD []).takeWhile (· ≠ '\x00')))

/-- Something is wrong before the first invalid name: the name of the component, a name which
stands twice in the list, or a record which is not accepted. -/
def FailsBefore (signedChar : Bool) (db : Database) (compName : String) (space : Option String)
    (useMeta : Bool) : Prop :=
  Resource.validName (some compName) = false ∨ ¬ (knownNames db compName).Nodup ∨
    ∃ resname ∈ knownNames db compName, ¬ Readable signedChar db compName space useMeta resname

/-- A list of valid names has no NUL in it, and all of them are read. -/
theorem known_of_valid {data : List Char}
    (valid : ∀ resname ∈ Fields.tokens (· == ' ') data, validText resname = true) :
    data.takeWhile (· ≠ '\x00') = data ∧
      known (Fields.tokens (· == ' ') data) = Fields.tokens (· == ' ') data := by
  constructor
  · apply List.takeWhile_eq_self_iff.mpr
    intro c member
    apply decide_eq_true
    rintro rfl
    obtain ⟨token, inside, holds⟩ := Fields.exists_token (p := (· == ' ')) member (by decide)
    have word := (TypedResource.name_word (valid token inside)).2 '\x00'
      (by rw [String.toList_ofList]; exact holds)
    revert word
    decide
  · exact List.takeWhile_eq_self_iff.mpr valid

theorem processComponent_failed {options : LCFGOption}
    (nothing : ((get db compName.toList).filter fun data => 0 < data.length) = none ∨
      Resource.validName (some compName) = false) :
    (processComponent hash signedChar db compName space options).ok = false := by
  rw [processComponent]
  rcases nothing with missing | invalid
  · rw [missing]
    rfl
  · split
    · rfl
    · rw [if_pos invalid]
      rfl

theorem allOrNothing_of_failed {result : Processed} (failed : result.ok = false) :
    AllOrNothing db compName result :=
  ⟨fun ok => absurd (failed.symm.trans ok) Bool.false_ne_true, fun _ => failed⟩

/-- What is loaded for a list which has been found, under a valid name. -/
theorem processComponent_found {options : LCFGOption} {data : List Char}
    (found : get db compName.toList = some data) (some_ : data ≠ [])
    (valid : Resource.validName (some compName) = true) :
    ((processComponent hash signedChar db compName space options).ok = true ↔
      ¬ FailsBefore signedChar db compName space options.useMeta) ∧
    ((processComponent hash signedChar db compName space options).ok = true →
      ∃ l contents, (processComponent hash signedChar db compName space options).component = some l ∧
        Holds hash compName l contents ∧
        ∀ name, (contents name).isSome ↔ name.toList ∈ knownNames db compName) := by
  -- the record of the component lists the names of its resources
  have kept : ((get db compName.toList).filter fun data => 0 < data.length) = some data := by
    rw [found, Option.filter_some, if_pos (by simpa using List.length_pos_iff.mpr some_)]
  have looped : processComponent hash signedChar db compName space options =
      processNames hash signedChar db compName space options.useMeta (Loading.new compName)
        (Fields.tokens (· == ' ') (data.takeWhile (· ≠ '\x00'))) := by
    rw [processComponent, kept]
    dsimp only
    rw [if_neg (by simp [valid])]
  have names : known (Fields.tokens (· == ' ') (data.takeWhile (· ≠ '\x00'))) =
      knownNames db compName := by
    rw [knownNames, found, Option.getD_some]
  -- the resources are read into an empty component one after another
  obtain ⟨ok_iff, loaded⟩ := @processNames_spec hash signedChar db compName space _ _
    options.useMeta (Loading.new_holds compName) (Loading.new_strict compName)
    (Fields.tokens (· == ' ') (data.takeWhile (· ≠ '\x00')))
  rw [looped]
  rw [names] at ok_iff loaded
  constructor
  · rw [ok_iff, FailsBefore]
    simp [valid]
  · intro ok
    obtain ⟨l, contents, component, holds, shows⟩ := loaded ok
    exact ⟨l, contents, component, holds, fun name => by simpa using shows name⟩

theorem allOrNothing_iff (options : LCFGOption) :
    AllOrNothing db compName (processComponent hash signedChar db compName space options) ↔
      (∀ resname ∈ storedNames db compName, validText resname = true) ∨
        FailsBefore signedChar db compName space options.useMeta := by
  cases found : get db compName.toList with
  | none =>
    -- there is no list
    have failed := @processComponent_failed hash signedChar db compName space options
      (Or.inl (by rw [found]; rfl))
    refine iff_of_true (allOrNothing_of_failed failed) (Or.inl ?_)
    rw [storedNames, found]
    simp [Fields.tokens]
  | some data =>
    by_cases empty : data = []
    · have failed := @processComponent_failed hash signedChar db compName space options
        (Or.inl (by rw [found, empty]; rfl))
      refine iff_of_true (allOrNothing_of_failed failed) (Or.inl ?_)
      rw [storedNames, found, empty]
      simp [Fields.tokens]
    by_cases invalid : Resource.validName (some compName) = false
    · exact iff_of_true (allOrNothing_of_failed (processComponent_failed (Or.inr invalid)))
        (Or.inr (Or.inl invalid))
    obtain ⟨ok_iff, loaded⟩ := @processComponent_found hash signedChar db compName space options data
      found empty (by simpa using invalid)
    by_cases failed : FailsBefore signedChar db compName space options.useMeta
    · refine iff_of_true (allOrNothing_of_failed ?_) (Or.inr failed)
      rw [← Bool.not_eq_true, ok_iff, not_not]
      exact failed
    -- now the reader comes back with a component
    have ok := ok_iff.mpr failed
    obtain ⟨l, contents, component, holds, shows⟩ := loaded ok
    rw [or_iff_left failed]
    constructor
    · rintro ⟨-, refused⟩ resname member
      by_contra other
      have not_ok := refused ⟨resname, member, by simpa using other⟩
      rw [ok] at not_ok
      cases not_ok
    · intro all
      have same : knownNames db compName = storedNames db compName := by
        rw [storedNames, found, Option.getD_some] at all ⊢
        obtain ⟨whole, known_⟩ := known_of_valid all
        rw [knownNames, found, Option.getD_some, whole, known_]
      refine ⟨fun _ => ⟨l, component, fun name => ?_, fun list member => ?_⟩, ?_⟩
      · rw [holds.shows, shows, same]
      · obtain ⟨name, listFor⟩ := holds.sound.named list member
        have there := (holds.sound.chained.entry_eq_some_iff name list).mpr
          ⟨member, listFor.key_eq⟩
        obtain ⟨a, items, -⟩ := holds.single name list there
        rw [items, List.length_singleton]
      · rintro ⟨resname, member, other⟩
        rw [all resname member] at other
        cases other

/-- A list with an invalid name between two valid ones. -/
def brokenSample : Database := fun key =>
  if key = "auth".toList then some "groups 9lives users".toList
  else if key = "auth.groups".toList then some "staff".toList
  else none

/-- The status is that of a success, and the names behind the invalid one are missing. -/
theorem brokenSample_not_allOrNothing :
    (processComponent djbhash true brokenSample "auth" none {}).ok = true ∧
      "users".toList ∈ storedNames brokenSample "auth" ∧
      ¬ AllOrNothing brokenSample "auth"
        (processComponent djbhash true brokenSample "auth" none {}) := by
  have ok : (processComponent djbhash true brokenSample "auth" none {}).ok = true := by
    decide +kernel
  refine ⟨ok, by decide +kernel, fun ⟨_, refused⟩ => ?_⟩
  have not_ok := refused ⟨"9lives".toList, by decide +kernel, by decide⟩
  rw [ok] at not_ok
  cases not_ok

end Bdb

end Lcfg
