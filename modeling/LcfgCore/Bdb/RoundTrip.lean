import LcfgCore.Bdb.Write
import LcfgCore.Components.StatusRoundTrip

/-!
# Databases read back

What is left of a component set which has been written to a database and read again. Values are
stored as they are, and decoded when they are read; priorities are stored if they are positive.

## Main results

`Recordable.restores_iff`: a resource comes back if and only if its value is its own decoding,
and is valid if there is none, its priority is not negative and each file of its derivation can
be told from the text around it.
`RecordableComp.restored_iff`: a component comes back if and only if its resources do.
-/
namespace Lcfg

open Assignments (assign assigned)
open PlainComponent (firsts active sortedNames namesOf)
open TypedResource (Symbol hasDerivation hasComment hasContext getTypeAsString givenComment newNamed
  typed decodeHtmlEntities validValueForType)
open Reader (withAttribute)

namespace Bdb

variable {signedChar : Bool} {res : TypedResource} {name compName : String}
  {space : Option String} {db : Database}

/-! ## One resource -/

/-- An attribute is set in a resource if there is a record for it. -/
def setItem (signedChar : Bool) (item : Symbol → Option (List Char)) (res : TypedResource)
    (typeSymbol : Symbol) : Option TypedResource :=
  match item typeSymbol with
  | none => some res
  | some data => withAttribute signedChar res typeSymbol.char data

/-- What becomes of a new resource when the attributes are set which have been stored. -/
def readBack (signedChar : Bool) (res : TypedResource) : Option TypedResource :=
  (wantedItems true).foldlM (setItem signedChar (itemOf res)) (newNamed (res.name.getD ""))

/-- The same in everything that a database is for. An empty text is none, and the lines of a
derivation are sorted when it is written. -/
structure Restores (res back : TypedResource) : Prop where
  name : back.name = res.name
  value : back.value.getD "" = res.value.getD ""
  type : back.type = res.type
  comment : givenComment back = givenComment res
  template : res.type = .list → back.template = res.template
  derivation : back.derivation = DerivList.sortLines res.derivation
  context : back.context.filter (· ≠ "") = res.context.filter (· ≠ "")
  priority : back.priority = res.priority

/-- What a resource must be to come back. -/
structure Returns (res : TypedResource) : Prop where
  value : decodeHtmlEntities (res.value.getD "").toList = (res.value.getD "").toList
  accepted : validValueForType res.type (res.value.getD "") = true
  derivation : ∀ drv ∈ res.derivation, Derivation.Kept drv
  priority : 0 ≤ res.priority

/-- What is read, with the derivation and the value which have been found. -/
def recorded (res : TypedResource) (name : String) (drvlist : LCFGDerivationList) (value : String) :
    TypedResource :=
  { typed
      { newNamed name with
        derivation := drvlist
        context := res.context.filter (· ≠ "")
        priority := max 0 res.priority }
      res.type (givenComment res) res.template with
    value := some value }

/-- The derivation which is read from its record, if there is one. -/
def derivationBack (res : TypedResource) : Option LCFGDerivationList :=
  if hasDerivation res then (DerivList.fromString (DerivList.toString res.derivation)).toOption
  else some []

theorem getResourceItems_toOption {item : Symbol → Option (List Char)} {name : String}
    (built : ∀ typeSymbol, ∃ key,
      TypedResource.buildKey (some name) (some compName) space typeSymbol = some key ∧
        get db key = item typeSymbol) {start : TypedResource} (named : start.name = some name)
    (symbols : List Symbol) :
    (getResourceItems signedChar db compName space start symbols).toOption =
      symbols.foldlM (setItem signedChar item) start := by
  induction symbols generalizing start with
  | nil => rfl
  | cons typeSymbol rest ih =>
    obtain ⟨key, here, found⟩ := built typeSymbol
    rw [getResourceItems, getResourceItem, named, here, List.foldlM_cons, setItem]
    dsimp only
    rw [found]
    cases item typeSymbol with
    | none =>
      dsimp only
      rw [ih named]
      rfl
    | some data =>
      have kept := (TypedResource.setAttribute_frame signedChar start typeSymbol.char
        (String.ofList data) data.length).1
      simp only [withAttribute, TypedResource.Attempt.done]
      by_cases ok : (TypedResource.setAttribute signedChar start typeSymbol.char
        (String.ofList data) data.length).ok = true
      · rw [if_pos ok, if_pos ok]
        dsimp only
        rw [ih (kept.trans named)]
        rfl
      · rw [if_neg ok, if_neg ok]
        rfl

namespace Recordable

variable (recordable : Recordable signedChar res)
include recordable

theorem type_noNul : '\x00' ∉ getTypeAsString res false := by
  intro inside
  have notWord : isWord '\x00' = false := by decide
  rw [TypedResource.getTypeAsString_eq, List.mem_append, List.mem_append] at inside
  rcases inside with inName | inComment | inDetails
  · have words : ∀ d ∈ (TypedResource.typeName res.type).toList, isWord d = true := by
      cases res.type <;> exact Fields.of_all (by decide)
    rw [words _ inName] at notWord
    cases notWord
  · cases given : givenComment res with
    | none =>
      rw [given] at inComment
      cases inComment
    | some comment =>
      rw [given, TypedResource.commentText, Option.elim_some, List.cons_append, List.mem_cons,
        List.mem_append, List.mem_singleton] at inComment
      rcases inComment with bracket | there | bracket
      · cases bracket
      · have noNul := (recordable.comment comment (Option.filter_eq_some_iff.mp given).1).1
        exact TypedResource.noNul_iff.mp noNul there
      · cases bracket
  · rcases TypedResource.Storable.mem_details recordable.template inDetails with word | other
    · rw [word] at notWord
      cases notWord
    · revert other
      decide

theorem derivation_noNul : '\x00' ∉ DerivList.toString res.derivation := by
  intro inside
  rcases DerivList.mem_toString inside with ⟨drv, member, there⟩ | digit | other
  · exact TypedResource.noNul_iff.mp (recordable.files drv member) there
  · cases digit
  · revert other
    decide

theorem setItem_derivation (start : TypedResource) (plain : start.derivation = []) :
    setItem signedChar (itemOf res) start .derivation =
      (derivationBack res).map fun drvlist => { start with derivation := drvlist } := by
  rw [setItem, itemOf, derivationBack]
  by_cases derived : hasDerivation res = true
  · have some_ : res.derivation ≠ [] := by
      intro nothing
      simp [hasDerivation, nothing] at derived
    rw [if_pos derived, if_pos derived]
    exact TypedResource.setAttribute_derivation recordable.derivation_noNul
      (DerivList.toString_ne_nil recordable.derivation some_)
  · rw [if_neg derived, if_neg derived, Option.map_some, ← plain]

theorem setItem_context (start : TypedResource) (plain : start.context = none) :
    setItem signedChar (itemOf res) start .context =
      some { start with context := res.context.filter (· ≠ "") } := by
  rw [setItem, itemOf]
  by_cases given : hasContext res = true
  · obtain ⟨ctx, here, some_⟩ : ∃ ctx, res.context = some ctx ∧ ctx ≠ "" := by
      cases context : res.context with
      | none => simp [hasContext, isEmpty, context] at given
      | some ctx => exact ⟨ctx, rfl, by simpa [hasContext, isEmpty, context] using given⟩
    obtain ⟨noNul, valid⟩ := recordable.context ctx here
    rw [if_pos given, here, Option.getD_some]
    dsimp only
    rw [withAttribute, Symbol.char, TypedResource.setAttribute_context
      (TypedResource.noNul_iff.mp noNul) (mt String.toList_eq_nil_iff.mp some_),
      String.ofList_toList, if_pos valid, Option.filter_some, if_pos (by simpa using some_)]
  · have none_ : res.context.filter (· ≠ "") = none := by
      rw [Option.filter_eq_none_iff]
      intro ctx here
      simpa [hasContext, isEmpty, here] using given
    rw [if_neg given, none_, ← plain]

theorem setItem_priority (start : TypedResource) (plain : start.priority = 0) :
    setItem signedChar (itemOf res) start .priority =
      some { start with priority := max 0 res.priority } := by
  rw [setItem, itemOf]
  by_cases positive : 0 < res.priority
  · rw [if_pos positive, max_eq_right positive.le]
    exact TypedResource.setAttribute_decimal signedChar start recordable.priority
  · rw [if_neg positive, max_eq_left (not_lt.mp positive), ← plain]

theorem setItem_type (start : TypedResource) (untyped : TypedResource.Untyped res.type start) :
    setItem signedChar (itemOf res) start .type =
      some (typed start res.type (givenComment res) res.template) := by
  have closed : ∀ comment ∈ givenComment res, ')' ∉ comment.toList := fun comment member =>
    (recordable.comment comment (Option.filter_eq_some_iff.mp member).1).2
  rw [setItem, itemOf]
  by_cases typed_ : res.type ≠ .string ∨ hasComment res = true
  · rw [if_pos typed_]
    dsimp only
    rw [withAttribute, Symbol.char, TypedResource.setAttribute_type recordable.type_noNul
      (TypedResource.getTypeAsString_ne_nil false),
      TypedResource.setTypeAsString_eq untyped closed recordable.template]
    rfl
  · rw [if_neg typed_]
    rw [not_or, not_not, Bool.not_eq_true] at typed_
    rw [typed_.1] at untyped ⊢
    rw [TypedResource.typed_plain untyped typed_.2]

theorem readBack_eq (named : res.name = some name) :
    readBack signedChar res = (derivationBack res).bind fun drvlist =>
      if validValueForType res.type (String.ofList (decodeHtmlEntities (res.value.getD "").toList))
      then some (recorded res name drvlist
        (String.ofList (decodeHtmlEntities (res.value.getD "").toList)))
      else none := by
  have wanted : wantedItems true = [.derivation, .context, .priority, .type, .value] := rfl
  rw [readBack, named, Option.getD_some, wanted, List.foldlM_cons, recordable.setItem_derivation _ rfl]
  cases derivationBack res with
  | none => rfl
  | some drvlist =>
    rw [Option.map_some, Option.bind_some]
    change List.foldlM _ _ _ = _
    rw [List.foldlM_cons, recordable.setItem_context _ rfl]
    change List.foldlM _ _ _ = _
    rw [List.foldlM_cons, recordable.setItem_priority _ rfl]
    change List.foldlM _ _ _ = _
    rw [List.foldlM_cons, recordable.setItem_type _ ⟨rfl, rfl, rfl, rfl⟩]
    change List.foldlM _ _ _ = _
    rw [List.foldlM_cons, setItem, itemOf]
    dsimp only
    rw [withAttribute, Symbol.char, TypedResource.setAttribute_value recordable.bytes.noNul]
    by_cases fits : validValueForType res.type
        (String.ofList (decodeHtmlEntities (res.value.getD "").toList)) = true
    · rw [if_pos fits]
      exact congrArg (fun back : Option TypedResource => back.bind some) (if_pos fits)
    · rw [if_neg fits]
      exact congrArg (fun back : Option TypedResource => back.bind some) (if_neg fits)

theorem derivationBack_iff :
    derivationBack res = some (DerivList.sortLines res.derivation) ↔
      ∀ drv ∈ res.derivation, Derivation.Kept drv := by
  by_cases none_ : res.derivation = []
  · have nothing : derivationBack res = some [] := by simp [derivationBack, hasDerivation, none_]
    rw [nothing, none_]
    exact iff_of_true rfl fun _ member => by cases member
  · rw [derivationBack, if_pos (by simp [hasDerivation, none_]),
      ← DerivList.fromString_toString_iff recordable.derivation none_]
    cases DerivList.fromString (DerivList.toString res.derivation) with
    | error msg => exact iff_of_false (by rintro ⟨⟩) (by rintro ⟨⟩)
    | ok drvlist => exact ⟨fun same => congrArg _ (Option.some_inj.mp same),
        fun same => congrArg _ (Except.ok.inj same)⟩

omit recordable in
theorem recorded_restores (named : res.name = some name) (drvlist : LCFGDerivationList)
    (value : String) : Restores res (recorded res name drvlist value) ↔
      value = res.value.getD "" ∧ drvlist = DerivList.sortLines res.derivation ∧
        0 ≤ res.priority := by
  constructor
  · intro restores
    have priority : max 0 res.priority = res.priority := restores.priority
    exact ⟨restores.value, restores.derivation, max_eq_right_iff.mp priority⟩
  · rintro ⟨rfl, rfl, positive⟩
    have context : (res.context.filter (· ≠ "")).filter (· ≠ "") = res.context.filter (· ≠ "") := by
      rw [Option.filter_filter]
      simp
    exact ⟨named.symm, rfl, rfl, TypedResource.givenComment_copied res name, fun list => if_pos list,
      rfl, context, max_eq_right positive⟩

/-- A resource comes back if and only if it has what a record keeps. -/
theorem restores_iff (named : res.name = some name) :
    (∃ back, readBack signedChar res = some back ∧ Restores res back) ↔ Returns res := by
  rw [recordable.readBack_eq named]
  constructor
  · rintro ⟨back, done, restores⟩
    obtain ⟨drvlist, derived, done⟩ := Option.bind_eq_some_iff.mp done
    obtain ⟨accepted, rfl⟩ := Option.ite_some_none_eq_some.mp done
    obtain ⟨value, rfl, positive⟩ := (recorded_restores named _ _).mp restores
    rw [value] at accepted
    refine ⟨?_, accepted, recordable.derivationBack_iff.mp derived, positive⟩
    rw [← String.toList_ofList (l := decodeHtmlEntities _), value]
  · intro returns
    rw [recordable.derivationBack_iff.mpr returns.derivation, returns.value, String.ofList_toList,
      Option.bind_some, if_pos returns.accepted]
    exact ⟨_, rfl, (recorded_restores named _ _).mpr ⟨rfl, rfl, returns.priority⟩⟩

end Recordable

/-! ## One component -/

section Reading

variable {hash hash' : String → Nat}

/-- Run lemma: where all names can be read, all of them are loaded. -/
theorem processNames_loads {made : List Char → TypedResource} {l : Loading}
    {contents : String → Option TypedResource} {names : List (List Char)} {useMeta : Bool}
    (holds : Loading.Holds hash compName l contents) (distinct : names.Nodup)
    (loads : ∀ resname ∈ names, validText resname = true ∧
      contents (String.ofList resname) = none ∧
      readResource signedChar db compName space useMeta (String.ofList resname) =
        .ok (made resname)) :
    ∃ l', processNames hash signedChar db compName space useMeta l names =
        { ok := true, component := some l', msg := none } ∧
      Loading.Holds hash compName l' fun name =>
        if name.toList ∈ names then some (made name.toList) else contents name := by
  induction names generalizing l contents with
  | nil => exact ⟨l, rfl, by simpa using holds⟩
  | cons resname rest ih =>
    obtain ⟨valid, fresh, read⟩ := loads resname List.mem_cons_self
    obtain ⟨new_, distinct⟩ := List.nodup_cons.mp distinct
    have named : (made resname).name = some (String.ofList resname) := getResourceItems_name read
    obtain ⟨holds', added, -⟩ := holds.mergeResource named (TypedResource.validName_ne valid) fresh
    -- the names which are left are not affected by the new one
    have others : ∀ other ∈ rest, validText other = true ∧
        Function.update contents (String.ofList resname) (some (made resname))
          (String.ofList other) = none ∧
        readResource signedChar db compName space useMeta (String.ofList other) =
          .ok (made other) := by
      intro other member
      obtain ⟨valid', fresh', read'⟩ := loads other (List.mem_cons_of_mem _ member)
      have apart : String.ofList other ≠ String.ofList resname := fun same =>
        new_ (String.ofList_injective same ▸ member)
      exact ⟨valid', by rw [Function.update_of_ne apart]; exact fresh', read'⟩
    obtain ⟨l', done, all⟩ := ih holds' distinct others
    refine ⟨l', ?_, ?_⟩
    · have passes : ¬ Resource.validName (some (String.ofList resname)) = false := by
        rw [Bool.not_eq_false]
        exact valid
      rw [processNames]
      dsimp only
      rw [if_neg passes, read]
      dsimp only
      rw [if_neg (by rw [added]; decide), done]
    · convert all using 2 with name
      by_cases same : name = String.ofList resname
      · subst same
        simp [new_]
      · have apart : name.toList ≠ resname := fun equal =>
          same (by rw [← equal, String.ofList_toList])
        simp [same, apart]

/-- The records of a component which is not empty are found. -/
structure HasRecords (res : Addr → TypedResource) (component : PlainComponent) (compName : String)
    (space : Option String) (db : Database) : Prop where
  names : get db compName.toList = some (sortedNames (namesOf (firsts res component)))
  items : ∀ r ∈ firsts res component, ∀ name, r.name = some name → ∀ typeSymbol,
    get db (recordKey compName name space typeSymbol) = itemOf r typeSymbol

variable {res : Addr → TypedResource} {component : PlainComponent}

theorem HasRecords.readResource (records : HasRecords res component compName space db)
    (compValid : Resource.validName (some compName) = true) {r : TypedResource}
    (member : r ∈ firsts res component) (named : r.name = some name)
    (valid : Resource.validName (some name) = true) :
    (readResource signedChar db compName space true name).toOption = readBack signedChar r := by
  rw [Bdb.readResource, readBack, named, Option.getD_some]
  apply getResourceItems_toOption _ rfl
  exact fun typeSymbol => ⟨_, buildKey_valid compValid valid typeSymbol,
    records.items r member name named typeSymbol⟩

namespace RecordableComp

variable (recordable : RecordableComp hash signedChar res component compName)
include recordable

/-- The names in the list, as they are stored. -/
theorem mem_sorted {resname : List Char} :
    resname ∈ (TagList.sort (namesOf (firsts res component))).map String.toList ↔
      ∃ r ∈ firsts res component, r.name = some (String.ofList resname) := by
  rw [List.mem_map, ← recordable.mem_namesOf]
  constructor
  · rintro ⟨name, member, rfl⟩
    rw [String.ofList_toList]
    exact (TagList.sort_perm _).mem_iff.mp member
  · intro member
    exact ⟨_, (TagList.sort_perm _).mem_iff.mpr member, String.toList_ofList⟩

theorem validText_sorted : ∀ resname ∈ (TagList.sort (namesOf (firsts res component))).map
    String.toList, validText resname = true := by
  intro resname member
  obtain ⟨r, inFirsts, named⟩ := recordable.mem_sorted.mp member
  rw [validText, ← named]
  exact recordable.names r inFirsts

theorem sorted_nodup :
    ((TagList.sort (namesOf (firsts res component))).map String.toList).Nodup :=
  ((TagList.sort_perm _).nodup_iff.mpr recordable.namesOf_nodup).map fun _ _ => String.toList_injective

theorem tokens_sortedNames : Fields.tokens (· == ' ') (sortedNames (namesOf (firsts res component))) =
    (TagList.sort (namesOf (firsts res component))).map String.toList := by
  apply Fields.tokens_intercalate (by decide)
  intro part member
  have valid := recordable.validText_sorted part member
  have word := (TypedResource.name_word valid).2
  rw [String.toList_ofList] at word
  constructor
  · rintro rfl
    cases valid
  · intro c inside
    rw [beq_eq_false_iff_ne]
    rintro rfl
    exact absurd (word ' ' inside) (by decide)

section

variable (records : HasRecords res component compName space db) (some_ : firsts res component ≠ [])
include records some_

/-- The loop over the names, which are those of the first resources. -/
theorem processComponent_eq : processComponent hash' signedChar db compName space
      { useMeta := true } =
    processNames hash' signedChar db compName space true (Loading.new compName)
      ((TagList.sort (namesOf (firsts res component))).map String.toList) := by
  have kept : ((get db compName.toList).filter fun data => 0 < data.length) =
      some (sortedNames (namesOf (firsts res component))) := by
    rw [records.names, Option.filter_some,
      if_pos (by simpa using List.length_pos_iff.mpr (recordable.sortedNames_ne some_))]
  have tokens := recordable.tokens_sortedNames
  have whole := (known_of_valid (by rw [tokens]; exact recordable.validText_sorted)).1
  rw [processComponent, kept]
  dsimp only
  rw [if_neg (by simp [recordable.valid]), whole, tokens]

variable (hash')

theorem loads (readable : ∀ r ∈ firsts res component, readBack signedChar r ≠ none) :
    ∃ l, processComponent hash' signedChar db compName space { useMeta := true } =
        { ok := true, component := some l, msg := none } ∧
      l.comp.name = some compName ∧
      ∀ name, active l.res (some l.comp) name =
        (active res (some component) name).bind (readBack signedChar) := by
  let made (resname : List Char) : TypedResource :=
    ((active res (some component) (String.ofList resname)).bind (readBack signedChar)).getD
      TypedResource.new
  -- each name is read as the first resource which has it
  have read {r : TypedResource} (member : r ∈ firsts res component) {name : String}
      (found : active res (some component) name = some r)
      (valid : Resource.validName (some name) = true) :
      readResource signedChar db compName space true name = .ok (made name.toList) ∧
        readBack signedChar r = some (made name.toList) := by
    have back := @HasRecords.readResource signedChar name compName space db res component records
      recordable.valid r member (PlainComponent.active_name recordable.tabled found) valid
    obtain ⟨restored, here⟩ := Option.ne_none_iff_exists'.mp (readable r member)
    have same : made name.toList = restored := by
      simp only [made, String.ofList_toList, found, Option.bind_some, here, Option.getD_some]
    rw [here] at back
    rw [same]
    cases result : Bdb.readResource signedChar db compName space true name with
    | error msg =>
      rw [result] at back
      cases back
    | ok r' =>
      rw [result] at back
      exact ⟨congrArg _ (Option.some_inj.mp back), here⟩
  obtain ⟨l, done, holds⟩ := @processNames_loads signedChar compName space db hash' made
    (Loading.new compName) _ _ true (Loading.new_holds compName) recordable.sorted_nodup
    fun resname member => by
      obtain ⟨r, inFirsts, named⟩ := recordable.mem_sorted.mp member
      obtain ⟨name, named', valid, found⟩ := recordable.first_name inFirsts
      obtain rfl := Option.some_inj.mp (named.symm.trans named')
      refine ⟨valid, rfl, ?_⟩
      have here := (read inFirsts found valid).1
      rwa [String.toList_ofList] at here
  refine ⟨l, by rw [recordable.processComponent_eq records some_, done], holds.named, fun name => ?_⟩
  rw [holds.shows]
  cases found : active res (some component) name with
  | some r =>
    have member := (PlainComponent.mem_firsts recordable.tabled r).mpr ⟨name, found⟩
    have named := PlainComponent.active_name recordable.tabled found
    have listed : name.toList ∈ (TagList.sort (namesOf (firsts res component))).map String.toList :=
      recordable.mem_sorted.mpr ⟨r, member, by rw [String.ofList_toList]; exact named⟩
    rw [if_pos listed, Option.bind_some,
      (read member found (named ▸ recordable.names r member)).2]
  | none =>
    rw [if_neg, Option.bind_none]
    intro listed
    obtain ⟨r, member, named⟩ := recordable.mem_sorted.mp listed
    obtain ⟨name', named', -, there⟩ := recordable.first_name member
    rw [String.ofList_toList] at named
    obtain rfl := Option.some_inj.mp (named.symm.trans named')
    rw [found] at there
    cases there

theorem readable_of_ok
    (ok : (processComponent hash' signedChar db compName space { useMeta := true }).ok = true) :
    ∀ r ∈ firsts res component, readBack signedChar r ≠ none := by
  rw [recordable.processComponent_eq records some_] at ok
  have all := ((processNames_spec (Loading.new_holds compName) (Loading.new_strict compName) _).1.mp
    ok).2
  intro r member nothing
  obtain ⟨name, named, valid, found⟩ := recordable.first_name member
  have known_ : name.toList ∈
      known ((TagList.sort (namesOf (firsts res component))).map String.toList) := by
    rw [known, List.takeWhile_eq_self_iff.mpr recordable.validText_sorted]
    exact recordable.mem_sorted.mpr ⟨r, member, by rw [String.ofList_toList]; exact named⟩
  obtain ⟨r', read⟩ := (all name.toList known_).2
  have back := @HasRecords.readResource signedChar name compName space db res component records
    recordable.valid r member named valid
  rw [String.ofList_toList] at read
  rw [read, nothing] at back
  cases back

/-- A component comes back if and only if all of its first resources do. -/
theorem restored_iff : (∃ l, processComponent hash' signedChar db compName space
        { useMeta := true } = { ok := true, component := some l, msg := none } ∧
      l.comp.name = some compName ∧ ∀ name, Option.Rel Restores
        (active res (some component) name) (active l.res (some l.comp) name)) ↔
    ∀ r ∈ firsts res component, Returns r := by
  constructor
  · rintro ⟨l, done, -, restored⟩ r member
    have readable := recordable.readable_of_ok hash' records some_ (by rw [done])
    obtain ⟨l', done', -, reads⟩ := recordable.loads hash' records some_ readable
    obtain rfl : l = l' := by
      rw [done, Processed.mk.injEq, Option.some_inj] at done'
      exact done'.2.1
    obtain ⟨name, named, -, found⟩ := recordable.first_name member
    have rel := restored name
    rw [reads, found, Option.bind_some] at rel
    obtain ⟨back, here⟩ := Option.ne_none_iff_exists'.mp (readable r member)
    rw [here] at rel
    cases rel with
    | some restores =>
      exact ((recordable.recordable r member).restores_iff named).mp ⟨back, here, restores⟩
  · intro returns
    have back : ∀ r ∈ firsts res component, ∃ back, readBack signedChar r = some back ∧
        Restores r back := by
      intro r member
      obtain ⟨name, named, -⟩ := recordable.first_name member
      exact ((recordable.recordable r member).restores_iff named).mpr (returns r member)
    obtain ⟨l, done, named, reads⟩ := recordable.loads hash' records some_
      fun r member nothing => by
        obtain ⟨_, here, -⟩ := back r member
        rw [nothing] at here
        cases here
    refine ⟨l, done, named, fun name => ?_⟩
    rw [reads]
    cases found : active res (some component) name with
    | none => exact .none
    | some r =>
      obtain ⟨_, here, restores⟩ := back r
        ((PlainComponent.mem_firsts recordable.tabled r).mpr ⟨name, found⟩)
      rw [Option.bind_some, here]
      exact .some restores

end

end RecordableComp

end Reading

/-! ## All components -/

variable {hash : String → Nat} {res : Addr → TypedResource} {comps : List PlainComponent}

theorem mem_storedSymbols (typeSymbol : Symbol) : typeSymbol ∈ storedSymbols := by
  cases typeSymbol <;> decide

/-- In a new database the records of each component are found. -/
theorem hasRecords
    (good : ∀ c ∈ comps, ∃ compName, RecordableComp hash signedChar res c compName)
    (distinct : (comps.map fun c => c.name).Nodup) (fit : Fit (comps.flatMap (compRecords res space)))
    {c : PlainComponent} (member : c ∈ comps) {compName : String}
    (recordable : RecordableComp hash signedChar res c compName) (some_ : firsts res c ≠ []) :
    HasRecords res c compName space
      (assign (fun _ => none) (assigned (comps.flatMap (compRecords res space)))) := by
  have reads {record : List Char × Option (List Char)} (inside : record ∈ compRecords res space c) :
      get (assign (fun _ => none) (assigned (comps.flatMap (compRecords res space)))) record.1 =
        record.2 := by
    have inAll : record ∈ comps.flatMap (compRecords res space) :=
      List.mem_flatMap.mpr ⟨c, member, inside⟩
    rw [get, dbt_eq (fit record inAll).1]
    exact (compRecords_unambiguous good distinct).assign inAll
  constructor
  · exact reads ((mem_compRecords recordable).mpr (.inr ⟨some_, rfl⟩))
  · intro r inFirsts name named typeSymbol
    have here := reads ((mem_compRecords recordable).mpr
      (.inl ⟨r, inFirsts, typeSymbol, mem_storedSymbols typeSymbol, rfl⟩))
    rwa [named, Option.getD_some] at here

end Bdb

end Lcfg
