import LcfgCore.Bdb.Read
import LcfgCore.Components.EnvironmentRoundTrip
import LcfgCore.Components.Signature
import LcfgCore.Resources.Priority

/-!
# Writing components to a database

Each attribute of a resource is a record of its own, and so is the list of the resources of a
component (`bdb/write.c`).

## Main results

`recordKey_inj`: records of different attributes have different keys.
`compsetToBdb_eq`: the database which is left holds the records of all components.
-/
namespace Lcfg

open Assignments (assign assigned)
open PlainComponent (firsts active sortedNames namesOf)
open TypedResource (Symbol buildKey buildMessage keyPart keyText decimal hasDerivation hasComment
  hasContext getTypeAsString)

namespace Bdb

/-- `dbh->put` with `DB_OVERWRITE_DUP` -/
def put (db : Database) (key data : List Char) : Database :=
  Function.update db (dbt key) (some (dbt data))

/-! ## One resource -/

/-- What is stored for an attribute of a resource, if anything. -/
def itemOf (res : TypedResource) : Symbol → Option (List Char)
  | .derivation => if hasDerivation res then some (DerivList.toString res.derivation) else none
  | .type =>
    if res.type ≠ .string ∨ hasComment res then some (getTypeAsString res false) else none
  | .context => if hasContext res then some (res.context.getD "").toList else none
  -- only stored when it is greater than the default
  | .priority => if 0 < res.priority then some (decimal res.priority) else none
  | .value => some (res.value.getD "").toList

/-- The attributes in the order in which they are written. -/
def storedSymbols : List Symbol := [.derivation, .type, .context, .priority, .value]

/-- The name of an attribute in messages. -/
def itemName : Symbol → String
  | .derivation => "derivation"
  | .type => "type"
  | .context => "context"
  | .priority => "priority"
  | .value => "value"

section

variable (compName : String) (space : Option String)

/-- One of the blocks in the loop of `lcfgcomponent_to_bdb`; there is no record without a text for
a derivation or for a type. -/
def storeItem (res : TypedResource) (db : Database) (typeSymbol : Symbol) :
    Except String Database :=
  match itemOf res typeSymbol with
  | none => .ok db
  | some data =>
    match buildKey res.name (some compName) space typeSymbol with
    | none => .error (buildMessage (some res) (some compName)
        ("Failed to build " ++ itemName typeSymbol ++ " key"))
    | some key =>
      if data = [] ∧ typeSymbol ∈ [.derivation, .type] then
        .error (buildMessage (some res) (some compName)
          ("Failed to build " ++ itemName typeSymbol ++ " value"))
      else .ok (put db key data)

/-- All attributes of a resource; what has been stored before an error stays. -/
def storeItems (res : TypedResource) (db : Database) : List Symbol → Database × Option String
  | [] => (db, none)
  | typeSymbol :: rest =>
    match storeItem compName space res db typeSymbol with
    | .error msg => (db, some msg)
    | .ok db => storeItems res db rest

/-- The status, the database and the message with which the writer comes back. -/
structure Stored where
  ok : Bool := true
  db : Database
  msg : Option String := none

/-- The loop of `lcfgcomponent_to_bdb`, with the names of the stored resources. It goes on after a
name which could not be added. -/
def storeResources (s : Stored) (names : LCFGTagList) :
    List TypedResource → Stored × LCFGTagList
  | [] => (s, names)
  | res :: rest =>
    match storeItems compName space res s.db storedSymbols with
    | (db, some msg) => ({ ok := false, db, msg := some msg }, names)
    | (db, none) =>
      let (names, addRc) := TagList.mutateAdd names (res.name.getD "")
      storeResources { s with ok := s.ok && addRc.isOk, db } names rest

end

/-! ## Components -/

/-- `lcfgcomponent_to_bdb`; the iterator gives the first resource for each name. -/
def componentToBdb (res : Addr → TypedResource) (component : PlainComponent)
    (space : Option String) (db : Database) : Stored :=
  if PlainComponent.isEmpty (some component) then { db }
  else if Lcfg.isEmpty component.name then
    { ok := false, db, msg := some "Component does not have a name" }
  else
    let compname := component.name.getD ""
    let (s, storedRes) := storeResources compname space { db } [] (firsts res component)
    let names := sortedNames storedRes
    if s.ok ∧ 0 < names.length then { s with db := put s.db compname.toList names } else s

/-- The loop of `lcfgcompset_to_bdb` -/
def storeComps (res : Addr → TypedResource) (space : Option String) (s : Stored) :
    List PlainComponent → Stored
  | [] => s
  | component :: rest =>
    let s := componentToBdb res component space s.db
    if s.ok then storeComps res space s rest else s

/-- `lcfgcompset_to_bdb` -/
def compsetToBdb (store : Store) (set : LCFGComponentSet) (space : Option String) (db : Database) :
    Stored :=
  if CompSet.isEmpty set then { db } else storeComps store.res space { db } (CompSet.comps store set)

/-! ## Keys -/

/-- The key of the record for an attribute. -/
def recordKey (compName name : String) (space : Option String) (typeSymbol : Symbol) : List Char :=
  typeSymbol.text ++ keyPart space ++ keyText compName name

section Keys

variable {compName compName' name name' : String} {space : Option String}

theorem buildKey_valid (compValid : Resource.validName (some compName) = true)
    (valid : Resource.validName (some name) = true) (typeSymbol : Symbol) :
    buildKey (some name) (some compName) space typeSymbol =
      some (recordKey compName name space typeSymbol) := by
  have some_ : isEmpty (some name) = false := by
    simpa [isEmpty] using TypedResource.validName_ne valid
  have someComp : isEmpty (some compName) = false := by
    simpa [isEmpty] using TypedResource.validName_ne compValid
  obtain ⟨key, inserted, built, -⟩ := TypedResource.buildKey_eq some_ (some compName) space typeSymbol
  rw [built, ← inserted, TypedResource.insertKey, some_, recordKey, keyText]
  simp [keyPart, someComp]

/-- A key with the symbol in front of the name space has its first full stop later than one
without a symbol. -/
private theorem symbol_ne {c : Char} (notDot : c ≠ '.') (front : List Char)
    (dotted : '.' ∈ front) (more more' : List Char) : c :: (front ++ more) ≠ front ++ more' := by
  intro same
  have positions := congrArg (List.idxOf '.') same
  rw [List.idxOf_cons_ne _ notDot, List.idxOf_append_of_mem dotted,
    List.idxOf_append_of_mem dotted] at positions
  omega

theorem keyText_inj (valid : Resource.validName (some name) = true)
    (valid' : Resource.validName (some name') = true)
    (same : keyText compName name = keyText compName' name') : compName = compName' ∧ name = name' := by
  have notDot : isWord '.' = false := by decide
  have cut := TypedResource.cutLast_append (TypedResource.name_free valid notDot) compName.toList
  have cut' := TypedResource.cutLast_append (TypedResource.name_free valid' notDot) compName'.toList
  rw [keyText, keyText] at same
  rw [same, cut', Option.some_inj, Prod.mk.injEq] at cut
  exact ⟨(String.toList_inj.mp cut.1).symm, (String.toList_inj.mp cut.2).symm⟩

/-- Whatever the name space is, the key shows the attribute and both names. -/
theorem recordKey_inj (compValid : Resource.validName (some compName) = true)
    (compValid' : Resource.validName (some compName') = true)
    (valid : Resource.validName (some name) = true)
    (valid' : Resource.validName (some name') = true) {typeSymbol typeSymbol' : Symbol}
    (same : recordKey compName name space typeSymbol =
      recordKey compName' name' space typeSymbol') :
    typeSymbol = typeSymbol' ∧ compName = compName' ∧ name = name' := by
  -- the parts behind the symbols are the same, too, if the symbols are
  have rest (behind : keyPart space ++ keyText compName name =
      keyPart space ++ keyText compName' name') : compName = compName' ∧ name = name' :=
    keyText_inj valid valid' (List.append_cancel_left behind)
  have apart {c : Char} (symbol : c ∈ ['%', '#', '=', '^']) {compName compName' name name' : String}
      (compValid : Resource.validName (some compName) = true) :
      c :: (keyPart space ++ keyText compName' name') ≠ keyPart space ++ keyText compName name := by
    have plain : ∀ c ∈ ['%', '#', '=', '^'], isWord c = false ∧ c ≠ '.' :=
      Fields.of_all (by decide)
    rw [keyPart]
    split
    case isTrue =>
      intro same
      obtain ⟨first, more, begins⟩ : ∃ first more, compName.toList = first :: more :=
        List.exists_cons_of_ne_nil fun nothing =>
          TypedResource.validName_ne compValid (String.toList_eq_nil_iff.mp nothing)
      rw [List.nil_append, List.nil_append, keyText, keyText, begins, List.cons_append,
        List.cons.injEq] at same
      exact TypedResource.name_free compValid (plain c symbol).1
        (by rw [begins, same.1]; exact List.mem_cons_self)
    case isFalse => exact symbol_ne (plain c symbol).2 _ (by simp) _ _
  cases typeSymbol <;> cases typeSymbol' <;>
    simp only [recordKey, Symbol.text, List.nil_append, List.cons_append, List.cons.injEq,
      true_and, reduceCtorEq, false_and] at same ⊢
  case value.value => exact rest same
  all_goals first
    | exact rest same
    | exact apart (by decide) compValid same.symm
    | exact apart (by decide) compValid' same
    | exact absurd same.1 (by decide)

/-- The key of a component has no full stop in it. -/
theorem recordKey_ne_name (compValid' : Resource.validName (some compName') = true)
    (typeSymbol : Symbol) : recordKey compName name space typeSymbol ≠ compName'.toList := by
  intro same
  have dot : '.' ∈ recordKey compName name space typeSymbol := by simp [recordKey, keyText]
  exact TypedResource.name_free compValid' (by decide) (same ▸ dot)

end Keys

/-! ## Records -/

/-- The record which is expected for each attribute of a resource. -/
def recordsOf (compName : String) (space : Option String) (res : TypedResource) :
    List (List Char × Option (List Char)) :=
  storedSymbols.map fun typeSymbol =>
    (recordKey compName (res.name.getD "") space typeSymbol, itemOf res typeSymbol)

/-- The records of a component which is not empty. -/
def compRecords (res : Addr → TypedResource) (space : Option String) (component : PlainComponent) :
    List (List Char × Option (List Char)) :=
  if PlainComponent.isEmpty (some component) then []
  else
    let compname := component.name.getD ""
    (firsts res component).flatMap (recordsOf compname space) ++
      [(compname.toList, some (sortedNames (namesOf (firsts res component))))]

/-- Keys and texts of records have lengths of type `u_int32_t`. -/
def Fit (records : List (List Char × Option (List Char))) : Prop :=
  ∀ record ∈ records, record.1.length < 2 ^ 32 ∧ ∀ data ∈ record.2, data.length < 2 ^ 32

/-- A resource as the setters leave it, with or without a value; there is no closing bracket in
a comment. -/
structure Recordable (signedChar : Bool) (res : TypedResource) : Prop where
  bytes : TypedResource.IsBytes (res.value.getD "").toList
  fits : res.value.all (TypedResource.validValueForType res.type) = true
  context : ∀ ctx ∈ res.context, NoNul ctx ∧ TypedResource.validContext signedChar (some ctx) = true
  comment : ∀ comment ∈ res.comment, NoNul comment ∧ ')' ∉ comment.toList
  template : res.type = .list → TypedResource.Accepted res.template
  derivation : DerivList.WellFormed res.derivation
  files : ∀ drv ∈ res.derivation, NoNul (drv.file.getD "")
  priority : -2 ^ 31 ≤ res.priority ∧ res.priority < 2 ^ 31

/-- A component with valid names, of which the first resource of each name can be recorded. -/
structure RecordableComp (hash : String → Nat) (signedChar : Bool) (res : Addr → TypedResource)
    (component : PlainComponent) (compName : String) : Prop where
  tabled : PlainComponent.Tabled hash (base res) component
  named : component.name = some compName
  valid : Resource.validName (some compName) = true
  names : ∀ r ∈ firsts res component, Resource.validName r.name = true
  recordable : ∀ r ∈ firsts res component, Recordable signedChar r

theorem dbt_eq {text : List Char} (short : text.length < 2 ^ 32) : dbt text = text := by
  rw [dbt, Nat.mod_eq_of_lt short, List.take_length]

section Stores

variable {signedChar : Bool} {compName name : String} {space : Option String}
  {res : TypedResource} {db : Database}

/-- A derivation or a type which is stored has a text. -/
theorem Recordable.itemOf_ne (recordable : Recordable signedChar res) {typeSymbol : Symbol}
    {data : List Char} (item : itemOf res typeSymbol = some data) :
    ¬ (data = [] ∧ typeSymbol ∈ [Symbol.derivation, Symbol.type]) := by
  rintro ⟨rfl, symbol⟩
  rcases List.mem_cons.mp symbol with rfl | symbol
  · obtain ⟨derived, text⟩ := Option.ite_some_none_eq_some.mp item
    refine DerivList.toString_ne_nil recordable.derivation ?_ text
    rintro nothing
    simp [hasDerivation, nothing] at derived
  · obtain rfl := List.mem_singleton.mp symbol
    obtain ⟨-, text⟩ := Option.ite_some_none_eq_some.mp item
    exact TypedResource.getTypeAsString_ne_nil false text

theorem storeItems_eq (recordable : Recordable signedChar res)
    (compValid : Resource.validName (some compName) = true) (named : res.name = some name)
    (valid : Resource.validName (some name) = true) (symbols : List Symbol)
    (fit : Fit (symbols.map fun typeSymbol =>
      (recordKey compName name space typeSymbol, itemOf res typeSymbol))) :
    storeItems compName space res db symbols =
      (assign db (assigned (symbols.map fun typeSymbol =>
        (recordKey compName name space typeSymbol, itemOf res typeSymbol))), none) := by
  induction symbols generalizing db with
  | nil => rfl
  | cons typeSymbol rest ih =>
    rw [List.map_cons, Fit, List.forall_mem_cons] at fit
    obtain ⟨⟨shortKey, shortData⟩, later⟩ := fit
    rw [storeItems, storeItem]
    cases item : itemOf res typeSymbol with
    | none =>
      dsimp only
      rw [ih later, List.map_cons, item]
      rfl
    | some data =>
      have stored : put db (recordKey compName name space typeSymbol) data =
          Function.update db (recordKey compName name space typeSymbol) (some data) := by
        rw [put, dbt_eq shortKey, dbt_eq (shortData data item)]
      rw [named, buildKey_valid compValid valid]
      dsimp only
      rw [if_neg (recordable.itemOf_ne item), stored]
      dsimp only
      rw [ih later, List.map_cons, item]
      rfl

/-- Run lemma: the resources are stored one after another. -/
theorem storeResources_eq (compValid : Resource.validName (some compName) = true)
    {rs : List TypedResource} (good : ∀ r ∈ rs, Resource.validName r.name = true ∧
      Recordable signedChar r) (fit : Fit (rs.flatMap (recordsOf compName space))) (s : Stored)
    (ok : s.ok = true) (names : LCFGTagList) (distinct : (names ++ namesOf rs).Nodup) :
    storeResources compName space s names rs =
      ({ s with db := assign s.db (assigned (rs.flatMap (recordsOf compName space))) },
        names ++ namesOf rs) := by
  induction rs generalizing s names with
  | nil =>
    rw [storeResources, namesOf, List.map_nil, List.append_nil]
    rfl
  | cons r rest ih =>
    obtain ⟨valid, recordable⟩ := good r List.mem_cons_self
    obtain ⟨name, named⟩ := TypedResource.exists_name valid
    rw [named] at valid
    have records : recordsOf compName space r = storedSymbols.map fun typeSymbol =>
        (recordKey compName name space typeSymbol, itemOf r typeSymbol) := by
      rw [recordsOf, named, Option.getD_some]
    rw [List.flatMap_cons, Fit, List.forall_mem_append, records] at fit
    rw [namesOf, List.map_cons, named, Option.getD_some] at distinct
    have new_ : TagList.contains names name = false := by
      rw [← Bool.not_eq_true, TagList.contains_iff]
      exact fun old => (List.nodup_append.mp distinct).2.2 name old name List.mem_cons_self rfl
    rw [storeResources, storeItems_eq recordable compValid named valid storedSymbols fit.1]
    dsimp only
    rw [named, Option.getD_some, TagList.mutateAdd, new_, if_neg Bool.false_ne_true,
      TagList.mutateAppend_valid _ (TagList.validTag_of_validName valid)]
    dsimp only
    rw [ih (fun r' member => good r' (List.mem_cons_of_mem _ member)) fit.2 _ (by rw [ok]; rfl) _
      (by rwa [List.append_assoc]), List.flatMap_cons, Assignments.assigned_append, Assignments.assign_append,
      records, namesOf, namesOf, List.map_cons, named, List.append_assoc, ok]
    rfl

end Stores

/-! ## Databases -/

namespace RecordableComp

variable {hash : String → Nat} {signedChar : Bool} {res : Addr → TypedResource}
  {component : PlainComponent} {compName : String}
  (recordable : RecordableComp hash signedChar res component compName)
include recordable

theorem first_name {r : TypedResource} (member : r ∈ firsts res component) :
    ∃ name, r.name = some name ∧ Resource.validName (some name) = true ∧
      active res (some component) name = some r := by
  obtain ⟨name, found⟩ := (PlainComponent.mem_firsts recordable.tabled r).mp member
  have named := PlainComponent.active_name recordable.tabled found
  exact ⟨name, named, named ▸ recordable.names r member, found⟩

theorem namesOf_nodup : (namesOf (firsts res component)).Nodup := by
  have names := PlainComponent.firsts_nodup recordable.tabled
  have shown : ∀ r ∈ firsts res component, r.name = some (r.name.getD "") := by
    intro r member
    obtain ⟨name, named, -⟩ := recordable.first_name member
    rw [named, Option.getD_some]
  rw [List.map_congr_left shown] at names
  exact List.Nodup.of_map some (by rwa [namesOf, List.map_map])

theorem mem_namesOf {name : String} : name ∈ namesOf (firsts res component) ↔
    ∃ r ∈ firsts res component, r.name = some name := by
  rw [namesOf, List.mem_map]
  refine exists_congr fun r => and_congr_right fun member => ?_
  obtain ⟨name', named, -⟩ := recordable.first_name member
  rw [named, Option.getD_some, Option.some_inj]

theorem empty_iff : PlainComponent.isEmpty (some component) = true ↔ firsts res component = [] := by
  rw [← PlainComponent.size_eq_zero_iff recordable.tabled]
  simp [PlainComponent.isEmpty]

/-- The names are read from their list. -/
theorem fromString_sortedNames : TagList.fromString (sortedNames (namesOf (firsts res component))) =
    .ok (TagList.sort (namesOf (firsts res component))) := by
  apply TagList.fromString_intercalate
  intro name member
  obtain ⟨r, inFirsts, named⟩ := recordable.mem_namesOf.mp ((TagList.sort_perm _).mem_iff.mp member)
  exact TagList.validTag_of_validName (named ▸ recordable.names r inFirsts)

theorem sortedNames_ne (some_ : firsts res component ≠ []) :
    sortedNames (namesOf (firsts res component)) ≠ [] := by
  intro nothing
  have none_ := recordable.fromString_sortedNames
  rw [nothing] at none_
  have sorted : TagList.sort (namesOf (firsts res component)) = [] := (Except.ok.inj none_).symm
  have perm := TagList.sort_perm (namesOf (firsts res component))
  rw [sorted] at perm
  exact some_ (List.map_eq_nil_iff.mp perm.nil_eq.symm)

theorem componentToBdb_eq {space : Option String} (fit : Fit (compRecords res space component))
    (db : Database) : componentToBdb res component space db =
      { db := assign db (assigned (compRecords res space component)) } := by
  rw [componentToBdb, compRecords] at *
  by_cases empty : PlainComponent.isEmpty (some component) = true
  · rw [if_pos empty, if_pos empty]
    rfl
  have some_ : firsts res component ≠ [] := mt recordable.empty_iff.mpr empty
  have named : Lcfg.isEmpty component.name = false := by
    rw [recordable.named]
    simpa [Lcfg.isEmpty] using TypedResource.validName_ne recordable.valid
  rw [if_neg empty, recordable.named, Option.getD_some, Fit, List.forall_mem_append] at fit
  obtain ⟨shortName, shortNames⟩ := fit.2 _ (List.mem_singleton.mpr rfl)
  rw [if_neg empty, if_neg empty, named, if_neg Bool.false_ne_true, recordable.named,
    Option.getD_some]
  dsimp only
  rw [storeResources_eq recordable.valid (fun r member =>
    ⟨recordable.names r member, recordable.recordable r member⟩) fit.1 { db } rfl []
    (by rw [List.nil_append]; exact recordable.namesOf_nodup)]
  dsimp only
  rw [List.nil_append, if_pos ⟨rfl, List.length_pos_iff.mpr (recordable.sortedNames_ne some_)⟩, put, dbt_eq shortName,
    dbt_eq (shortNames _ rfl), Assignments.assigned_append, Assignments.assign_append]
  rfl

end RecordableComp

section Sets

variable {hash : String → Nat} {signedChar : Bool} {res : Addr → TypedResource}
  {space : Option String} {comps : List PlainComponent}

/-- Run lemma: the components are stored one after another. -/
theorem storeComps_eq
    (good : ∀ c ∈ comps, ∃ compName, RecordableComp hash signedChar res c compName)
    (fit : Fit (comps.flatMap (compRecords res space))) (db : Database) :
    storeComps res space { db } comps =
      { db := assign db (assigned (comps.flatMap (compRecords res space))) } := by
  induction comps generalizing db with
  | nil => rfl
  | cons c rest ih =>
    obtain ⟨compName, here⟩ := good c List.mem_cons_self
    rw [List.flatMap_cons, Fit, List.forall_mem_append] at fit
    rw [storeComps, here.componentToBdb_eq fit.1]
    dsimp only
    rw [if_pos rfl, ih (fun c' member => good c' (List.mem_cons_of_mem _ member)) fit.2,
      List.flatMap_cons, Assignments.assigned_append, Assignments.assign_append]

/-- A record is that of an attribute, or of the names of a component. -/
theorem mem_compRecords {c : PlainComponent} {compName : String}
    (recordable : RecordableComp hash signedChar res c compName)
    {record : List Char × Option (List Char)} : record ∈ compRecords res space c ↔
      (∃ r ∈ firsts res c, ∃ typeSymbol ∈ storedSymbols,
        record = (recordKey compName (r.name.getD "") space typeSymbol, itemOf r typeSymbol)) ∨
      firsts res c ≠ [] ∧
        record = (compName.toList, some (sortedNames (namesOf (firsts res c)))) := by
  rw [compRecords]
  split
  case isTrue empty =>
    rw [recordable.empty_iff.mp empty]
    simp
  case isFalse some_ =>
    rw [recordable.named, Option.getD_some, List.mem_append, List.mem_flatMap, List.mem_singleton]
    refine or_congr (exists_congr fun r => and_congr_right fun _ => ?_) ?_
    · rw [recordsOf, List.mem_map]
      refine exists_congr fun typeSymbol => and_congr_right fun _ => eq_comm
    · rw [and_iff_right (mt recordable.empty_iff.mpr some_)]

/-- No two components, resources or attributes share a record. -/
theorem compRecords_unambiguous
    (good : ∀ c ∈ comps, ∃ compName, RecordableComp hash signedChar res c compName)
    (distinct : (comps.map fun c => c.name).Nodup) :
    Assignments.Unambiguous (comps.flatMap (compRecords res space)) := by
  intro record1 in1 record2 in2 same
  obtain ⟨c1, inComps1, in1⟩ := List.mem_flatMap.mp in1
  obtain ⟨c2, inComps2, in2⟩ := List.mem_flatMap.mp in2
  obtain ⟨compName1, good1⟩ := good c1 inComps1
  obtain ⟨compName2, good2⟩ := good c2 inComps2
  have sameComp (named : compName1 = compName2) : c1 = c2 :=
    List.inj_on_of_nodup_map distinct inComps1 inComps2
      (by rw [good1.named, good2.named, named])
  rcases (mem_compRecords good1).mp in1 with ⟨r1, first1, symbol1, -, rfl⟩ | ⟨-, rfl⟩
  · obtain ⟨name1, named1, valid1, found1⟩ := good1.first_name first1
    rw [named1, Option.getD_some] at same ⊢
    rcases (mem_compRecords good2).mp in2 with ⟨r2, first2, symbol2, -, rfl⟩ | ⟨-, rfl⟩
    · obtain ⟨name2, named2, valid2, found2⟩ := good2.first_name first2
      rw [named2, Option.getD_some] at same ⊢
      obtain ⟨rfl, sameName, rfl⟩ := recordKey_inj good1.valid good2.valid valid1 valid2 same
      obtain rfl := sameComp sameName
      rw [found1, Option.some_inj] at found2
      rw [found2]
    · exact absurd same (recordKey_ne_name good2.valid symbol1)
  · rcases (mem_compRecords good2).mp in2 with ⟨r2, first2, symbol2, -, rfl⟩ | ⟨-, rfl⟩
    · exact absurd same.symm (recordKey_ne_name good1.valid symbol2)
    · obtain rfl := sameComp (String.toList_inj.mp same)
      rfl

end Sets

end Bdb

end Lcfg
