import LcfgCore.Components.StatusFile
import LcfgCore.Resources.TypeString

/-!
# Status files read back

What is left of a component which has been written to a status file and read again.

## Main result

`statusFile_roundTrips_iff`: the resources come back if none of them has a context and each
file of a derivation can be told from the text around it; for contexts which do not break
off this is necessary, too.
-/
namespace Lcfg

open ResList (Plain)
open TypedResource (Attempt Symbol keyText valueText getTypeAsString givenComment hasComment
  hasContext hasDerivation entryText statusLines contextText IsBytes)
open Reader (withAttribute attributeLine Readable Reads)

namespace TypedResource

/-- A resource with a value, as the setters leave it; a comment has no closing bracket and
no line break. -/
structure Storable (signedChar : Bool) (res : TypedResource) : Prop where
  valued : hasValue res = true
  bytes : IsBytes (res.value.getD "").toList
  fits : res.value.all (validValueForType res.type) = true
  context : ∀ ctx ∈ res.context, NoNul ctx ∧ validContext signedChar (some ctx) = true
  comment : ∀ comment ∈ res.comment, NoNul comment ∧ ')' ∉ comment.toList ∧ '\n' ∉ comment.toList
  template : res.type = .list → Accepted res.template
  derivation : DerivList.WellFormed res.derivation
  files : ∀ drv ∈ res.derivation, NoNul (drv.file.getD "")

/-- The same in everything that a status file is for. An empty comment is none, and the
lines of a derivation are sorted when it is written. -/
structure Restores (res back : TypedResource) : Prop where
  name : back.name = res.name
  value : back.value = res.value
  type : back.type = res.type
  comment : givenComment back = givenComment res
  template : res.type = .list → back.template = res.template
  derivation : back.derivation = DerivList.sortLines res.derivation

/-- The attributes in the lines of a status text. -/
def attributesOf (res : TypedResource) : List (Symbol × List Char) :=
  (.value, valueText res true) ::
    ((if res.type ≠ .string ∨ hasComment res then [(.type, getTypeAsString res false)] else []) ++
    if hasDerivation res && DerivList.toString res.derivation ≠ [] then
      [(.derivation, DerivList.toString res.derivation)] else [])

/-- What becomes of a new resource when the attributes are set. -/
def readBack (signedChar : Bool) (res : TypedResource) : Option TypedResource :=
  (attributesOf res).foldlM (fun r attr => withAttribute signedChar r attr.1.char attr.2)
    (newNamed (res.name.getD ""))

/-- A new resource with the value and the type of another one. -/
def copied (res : TypedResource) (name : String) : TypedResource :=
  typed { newNamed name with value := res.value } res.type (givenComment res) res.template

variable {signedChar : Bool} {res : TypedResource} {compName name : String}

/-! ## One resource -/

theorem givenComment_copied (res : TypedResource) (name : String) :
    givenComment (copied res name) = givenComment res := by
  have again : (givenComment res).filter (· ≠ "") = givenComment res := by
    rw [givenComment, Option.filter_filter]
    simp
  exact again

theorem statusLines_plain (plain : hasContext res = false) :
    statusLines res compName name true = (attributesOf res).map (attributeLine compName name) := by
  rw [statusLines, attributesOf, contextText, if_neg (by simp [plain])]
  by_cases typed : res.type ≠ .string ∨ hasComment res = true <;>
    by_cases derived : (hasDerivation res && decide (DerivList.toString res.derivation ≠ [])) = true
  all_goals simp only [typed, derived, if_true, if_false, Bool.true_and, Bool.false_eq_true]
  all_goals simp [attributeLine, Symbol.text]

/-- The entries of several resources are the lines of all of them. -/
theorem entryTexts_eq (compName : String) (rs : List TypedResource) :
    (rs.map (entryText compName)).flatten = ((rs.flatMap fun r =>
      statusLines r compName (r.name.getD "") true).map (· ++ ['\n'])).flatten := by
  rw [List.map_flatMap, List.flatMap_def, List.flatten_flatten, List.map_map]
  rfl

/-- A file in a derivation which has no delimiters. -/
def Separate (res : TypedResource) : Prop :=
  ∀ drv ∈ res.derivation, ∀ c ∈ (drv.file.getD "").toList, DerivList.isDelimiter c = false

theorem noNul_iff {text : String} : NoNul text ↔ '\x00' ∉ text.toList := by
  refine ⟨fun free member => free _ member rfl, fun free c member zero => free ?_⟩
  have same : c = '\x00' := Char.toNat_inj.mp zero
  exact same ▸ member

namespace Storable

variable (storable : Storable signedChar res)
include storable

theorem value_eq : ∃ value, res.value = some value ∧ IsBytes value.toList ∧
    validValueForType res.type value = true := by
  have valued := storable.valued
  have bytes := storable.bytes
  have fits := storable.fits
  cases given : res.value with
  | none => simp [hasValue, isEmpty, given] at valued
  | some value =>
    rw [given] at bytes fits
    exact ⟨value, rfl, bytes, by simpa using fits⟩

omit storable in
theorem mem_details {type : LCFGResourceType} {template : List String}
    (accepted : type = .list → Accepted template) {c : Char}
    (inside : c ∈ detailsText type template) :
    isWord c = true ∨ c ∈ [':', ' ', Template.placeholder] := by
  rw [detailsText] at inside
  split at inside
  case isFalse => cases inside
  case isTrue list =>
    rcases List.mem_append.mp inside with front | inTemplate
    · have colon : ∀ d ∈ ": ".toList, d ∈ [':', ' ', Template.placeholder] :=
        Fields.of_all (by decide)
      exact .inr (colon c front)
    · rcases accepted list with rfl | ⟨input, templates, read, rfl⟩
      · cases inTemplate
      · rcases Fields.mem_intercalate inTemplate with blank | ⟨part, isPart, there⟩
        · exact .inr (by simp [List.mem_singleton.mp blank])
        · obtain ⟨text, isText, rfl⟩ := List.mem_map.mp isPart
          obtain ⟨template, member, rfl⟩ := List.mem_map.mp isText
          have plain := (Template.parsed_plain (Template.fromString_parsed read template member)).2
          rcases plain c there with same | word
          · exact .inr (by simp [same])
          · exact .inl word

/-- What there is in the text for a type, the comment apart. -/
theorem mem_type {c : Char} (inside : c ∈ getTypeAsString res false) :
    (∃ comment ∈ res.comment, c ∈ comment.toList) ∨ isWord c = true ∨
      c ∈ ['(', ')', ':', ' ', Template.placeholder] := by
  rw [getTypeAsString_eq, List.mem_append, List.mem_append] at inside
  rcases inside with inName | inComment | inDetails
  · have words : ∀ d ∈ (typeName res.type).toList, isWord d = true := by
      cases res.type <;> exact Fields.of_all (by decide)
    exact .inr (.inl (words c inName))
  · cases given : givenComment res with
    | none =>
      rw [given] at inComment
      cases inComment
    | some comment =>
      rw [given, commentText, Option.elim_some, List.cons_append, List.mem_cons, List.mem_append,
        List.mem_singleton] at inComment
      rcases inComment with rfl | there | rfl
      · exact .inr (.inr (by simp))
      · exact .inl ⟨comment, (Option.filter_eq_some_iff.mp given).1, there⟩
      · exact .inr (.inr (by simp))
  · rcases mem_details storable.template inDetails with word | other
    · exact .inr (.inl word)
    · exact .inr (.inr (List.mem_cons_of_mem _ (List.mem_cons_of_mem _ other)))

theorem type_free {c : Char} (special : c ∈ ['\x00', '\n']) : c ∉ getTypeAsString res false := by
  intro inside
  have others : ∀ d ∈ ['\x00', '\n'], isWord d = false ∧
      d ∉ ['(', ')', ':', ' ', Template.placeholder] := Fields.of_all (by decide)
  rcases storable.mem_type inside with ⟨comment, given, there⟩ | word | fixed
  · obtain ⟨noNul, -, noBreak⟩ := storable.comment comment given
    rcases List.mem_cons.mp special with rfl | newline
    · exact noNul_iff.mp noNul there
    · exact noBreak (List.mem_singleton.mp newline ▸ there)
  · rw [(others c special).1] at word
    cases word
  · exact (others c special).2 fixed

/-- The text for a type does not end with a carriage return. -/
theorem type_last : '\r' ∉ (getTypeAsString res false).getLast? := by
  rw [getTypeAsString_eq, List.getLast?_append, List.getLast?_append]
  have detailsEnd : (detailsText res.type res.template).getLast? ≠ some '\r' := by
    intro ends
    rcases mem_details storable.template (List.mem_of_mem_getLast? ends) with word | other
    · revert word
      decide
    · revert other
      decide
  have commentEnd : (commentText (givenComment res)).getLast? ≠ some '\r' := by
    cases givenComment res with
    | none => simp [commentText]
    | some comment =>
      rw [commentText, Option.elim_some, List.getLast?_concat]
      decide
  have nameEnd : (typeName res.type).toList.getLast? ≠ some '\r' := by
    cases res.type <;> decide
  cases details : (detailsText res.type res.template).getLast? with
  | some c =>
    rw [details] at detailsEnd
    simpa using detailsEnd
  | none =>
    cases comment : (commentText (givenComment res)).getLast? with
    | some c =>
      rw [comment] at commentEnd
      simpa using commentEnd
    | none => simpa using nameEnd

/-- What separates the parts of a derivation is no character which a line may not have. -/
theorem derivation_free (separate : Separate res) {c : Char} (special : c ∈ ['\x00', '\r', '\n']) :
    c ∉ DerivList.toString res.derivation := by
  intro inside
  have others : ∀ d ∈ ['\x00', '\r', '\n'], d.isDigit = false ∧ d ∉ [' ', ':', ','] ∧
      (d = '\x00' ∨ DerivList.isDelimiter d = true) := Fields.of_all (by decide)
  obtain ⟨noDigit, fixed, delimits⟩ := others c special
  rcases DerivList.mem_toString inside with ⟨drv, member, there⟩ | digit | other
  · rcases delimits with rfl | delimiter
    · exact noNul_iff.mp (storable.files drv member) there
    · rw [separate drv member c there] at delimiter
      cases delimiter
  · rw [noDigit] at digit
    cases digit
  · exact fixed other

/-- Each line is one line, which is read as it was written. -/
theorem readable (separate : Separate res) : ∀ attr ∈ attributesOf res,
    Readable attr ∧ '\n' ∉ attr.2 := by
  -- each of the three texts is free of the characters which end a line
  have value : Readable (.value, valueText res true) := by
    refine ⟨by simp, (valueText_bytes storable.bytes).noNul, fun c ends => ?_⟩
    have inside := List.mem_of_mem_getLast? ends
    constructor
    · rintro rfl
      exact (valueText_free res).1 inside
    · rintro rfl
      exact (valueText_free res).2 inside
  have type : Readable (.type, getTypeAsString res false) := by
    refine ⟨by simp, storable.type_free (by simp), fun c ends => ⟨?_, ?_⟩⟩
    · rintro rfl
      exact storable.type_last ends
    · rintro rfl
      exact storable.type_free (by simp) (List.mem_of_mem_getLast? ends)
  have derivation : Readable (.derivation, DerivList.toString res.derivation) := by
    refine ⟨by simp, storable.derivation_free separate (by simp), fun c ends => ?_⟩
    have inside := List.mem_of_mem_getLast? ends
    constructor
    · rintro rfl
      exact storable.derivation_free separate (by simp) inside
    · rintro rfl
      exact storable.derivation_free separate (by simp) inside
  -- and there are no other attributes
  intro attr member
  rw [attributesOf] at member
  rcases List.mem_cons.mp member with rfl | member
  · exact ⟨value, (valueText_free res).2⟩
  · rcases List.mem_append.mp member with member | member
    · split at member
      · rw [List.mem_singleton.mp member]
        exact ⟨type, storable.type_free (by simp)⟩
      · cases member
    · split at member
      · rw [List.mem_singleton.mp member]
        exact ⟨derivation, storable.derivation_free separate (by simp)⟩
      · cases member

/-- The new resource with its value and its type. -/
private theorem readBack_typed (named : res.name = some name) :
    readBack signedChar res =
      if res.derivation = [] then some (copied res name)
      else withAttribute signedChar (copied res name) '#' (DerivList.toString res.derivation) := by
  obtain ⟨value, given, bytes, fits⟩ := storable.value_eq
  -- the first line of a resource sets its value
  let start : TypedResource := { newNamed name with value := res.value }
  have valueSet : withAttribute signedChar (newNamed name) '\x00' (valueText res true) =
      some start := by
    have decoded := decodeHtmlEntities_valueText storable.bytes
    rw [given, Option.getD_some] at decoded
    rw [withAttribute, setAttribute_value (valueText_bytes storable.bytes).noNul, decoded,
      String.ofList_toList]
    simp only [start, given]
    exact if_pos rfl
  have closed : ∀ comment ∈ givenComment res, ')' ∉ comment.toList := fun comment member =>
    (storable.comment comment (Option.filter_eq_some_iff.mp member).1).2.1
  have untyped : Untyped res.type start := ⟨rfl, rfl, rfl, storable.fits⟩
  -- the type comes next, onto a resource with no more than a name and a value
  have typeSet : withAttribute signedChar start '%' (getTypeAsString res false) =
      some (copied res name) := by
    rw [withAttribute, setAttribute_type (storable.type_free (by simp))
      (getTypeAsString_ne_nil false), setTypeAsString_eq untyped closed storable.template]
    rfl
  have derives : (hasDerivation res && decide (DerivList.toString res.derivation ≠ [])) =
      decide (res.derivation ≠ []) := by
    by_cases none_ : res.derivation = []
    · simp [hasDerivation, none_]
    · simp [hasDerivation, none_, DerivList.toString_ne_nil storable.derivation none_]
  rw [readBack, attributesOf, named, Option.getD_some, List.foldlM_cons]
  simp only [Symbol.char, valueSet, derives]
  change List.foldlM _ start _ = _
  by_cases typed_ : res.type ≠ .string ∨ hasComment res = true
  · rw [if_pos typed_, List.singleton_append, List.foldlM_cons]
    simp only [typeSet]
    change List.foldlM _ (copied res name) _ = _
    by_cases none_ : res.derivation = [] <;> simp [none_]
  · have plain : copied res name = start := by
      rw [not_or, not_not, Bool.not_eq_true] at typed_
      rw [typed_.1] at untyped
      rw [copied, typed_.1]
      exact typed_plain untyped typed_.2
    rw [if_neg typed_, List.nil_append, plain]
    by_cases none_ : res.derivation = [] <;> simp [none_]

/-- A resource comes back if and only if its derivation can be read. -/
theorem restores_iff (named : res.name = some name) (separate : Separate res) :
    (∃ back, readBack signedChar res = some back ∧ Restores res back) ↔
      ∀ drv ∈ res.derivation, Derivation.Kept drv := by
  -- all but the derivation has been copied
  have restores (drvlist : LCFGDerivationList) :
      Restores res { copied res name with derivation := drvlist } ↔
        drvlist = DerivList.sortLines res.derivation := by
    refine ⟨fun r => r.derivation, fun derivation => ?_⟩
    exact ⟨named.symm, rfl, rfl, givenComment_copied res name, fun list => if_pos list, derivation⟩
  rw [storable.readBack_typed named]
  by_cases none_ : res.derivation = []
  · rw [if_pos none_]
    have here : Restores res (copied res name) := (restores []).mpr (by rw [none_]; rfl)
    simp [none_, here]
  -- the derivation is read back from its own line
  · have free := storable.derivation_free separate (by simp : '\x00' ∈ ['\x00', '\r', '\n'])
    have notNil := DerivList.toString_ne_nil storable.derivation none_
    rw [if_neg none_, withAttribute, setAttribute_derivation free notNil,
      ← DerivList.fromString_toString_iff storable.derivation none_]
    constructor
    · rintro ⟨r, done, restored⟩
      obtain ⟨drvlist, parsed, rfl⟩ := Option.map_eq_some_iff.mp done
      rw [(restores drvlist).mp restored] at parsed
      cases result : DerivList.fromString (DerivList.toString res.derivation) with
      | error msg =>
        rw [result] at parsed
        cases parsed
      | ok drvlist =>
        rw [result] at parsed
        rw [Option.some_inj.mp parsed]
    · intro parsed
      rw [parsed]
      exact ⟨_, rfl, (restores _).mpr rfl⟩

end Storable

end TypedResource

open TypedResource (Storable Restores attributesOf readBack Separate)
open PlainComponent (firsts active Prints printList)

/-! ## What is written -/

namespace PlainComponent

/-- A component with valid names, of which the first resource of each name can be stored. -/
structure StorableComponent (hash : String → Nat) (signedChar : Bool) (res : Addr → TypedResource)
    (comp : PlainComponent) (compName : String) : Prop where
  tabled : Tabled hash (base res) comp
  named : comp.name = some compName
  valid : Resource.validName (some compName) = true
  names : ∀ r ∈ firsts res comp, Resource.validName r.name = true
  storable : ∀ r ∈ firsts res comp, Storable signedChar r

/-- The options for writing. -/
def writeOptions : LCFGOption := { useMeta := true, allValues := true }

variable {hash : String → Nat} {signedChar : Bool} {res : Addr → TypedResource}
  {comp : PlainComponent} {compName : String}

theorem listCmp_preorder : QSort.Preorder (listCmp res) :=
  strcasecmp_preorder.comap fun list => (key (base res) list).getD ""

namespace StorableComponent

variable (component : StorableComponent hash signedChar res comp compName)
include component

theorem first_name {r : TypedResource} (member : r ∈ firsts res comp) :
    ∃ name, r.name = some name ∧ Resource.validName (some name) = true ∧
      active res (some comp) name = some r := by
  obtain ⟨name, found⟩ := (mem_firsts component.tabled r).mp member
  have named := active_name component.tabled found
  exact ⟨name, named, named ▸ component.names r member, found⟩

private theorem printLists {sorted : List Plain}
    (among : ∀ list ∈ sorted, list ∈ LinearProbe.stored comp.resources) :
    sorted.mapM (printList res comp writeOptions) =
      some ((sorted.filterMap (first res)).map (entryText compName)) := by
  induction sorted with
  | nil => rfl
  | cons list rest ih =>
    have inside := among list List.mem_cons_self
    obtain ⟨name, listFor⟩ := component.tabled.named list inside
    obtain ⟨r, here, named⟩ := listFor.first_eq
    have member : r ∈ firsts res comp := List.mem_filterMap.mpr ⟨list, inside, here⟩
    have valid := named ▸ component.names r member
    obtain ⟨a, more, items⟩ := List.exists_cons_of_ne_nil listFor.items_ne
    have same : res a = r := by simpa [first, items] using here
    have printed : printList res comp writeOptions list = some (entryText compName r) := by
      have written := TypedResource.toStatus_valid named component.valid valid
      have options : specOptions writeOptions = {} := rfl
      rw [printList, items, component.named, options]
      simp only [writeOptions, Bool.false_eq_true, if_false, List.take_succ_cons, List.take_zero,
        List.map_cons, List.map_nil, Bool.true_or, List.filter_true, same]
      rw [List.mapM_cons, written]
      simp
    rw [List.mapM_cons, printed, ih fun other later => among other (List.mem_cons_of_mem _ later),
      List.filterMap_cons_some here]
    rfl

/-- Each text is that of the first resources in some order. -/
theorem prints_eq {text : List Char} (prints : Prints res comp writeOptions text) :
    ∃ rs : List TypedResource, rs.Perm (firsts res comp) ∧
      text = (rs.map (entryText compName)).flatten := by
  rw [Prints] at prints
  split at prints
  case isTrue empty =>
    have nothing := (size_eq_zero_iff component.tabled).mp (by simpa [isEmpty] using empty)
    exact ⟨[], by rw [nothing], prints⟩
  case isFalse =>
    obtain ⟨sorted, sorts, printed⟩ := prints
    rw [component.printLists fun list member => sorts.perm.subset member, Option.map_some,
      Option.some_inj] at printed
    exact ⟨sorted.filterMap (first res), sorts.perm.filterMap _, printed.symm⟩

theorem exists_prints : ∃ text, Prints res comp writeOptions text := by
  by_cases empty : isEmpty (some comp) = true
  · exact ⟨[], by rw [Prints, if_pos empty]⟩
  · obtain ⟨sorted, sorts⟩ := listCmp_preorder.exists_sorts (LinearProbe.stored comp.resources)
    refine ⟨((sorted.filterMap (first res)).map (entryText compName)).flatten, ?_⟩
    rw [Prints, if_neg empty]
    refine ⟨sorted, sorts, ?_⟩
    rw [component.printLists fun list member => sorts.perm.subset member]
    rfl

end StorableComponent

end PlainComponent

/-! ## What is read -/

namespace Reader

open PlainComponent (StorableComponent writeOptions)

variable {hash : String → Nat} {signedChar : Bool} {options : LCFGOption}
  {statusfile compName : String}

theorem readLines_append {linenum : Nat} {s : Reader} (first second : List (List Char)) :
    readLines hash signedChar options statusfile compName linenum s (first ++ second) =
      match readLines hash signedChar options statusfile compName linenum s first with
      | .error msg => .error msg
      | .ok s => readLines hash signedChar options statusfile compName (linenum + first.length) s
          second := by
  induction first generalizing linenum s with
  | nil => rfl
  | cons piece first ih =>
    rw [List.cons_append, readLines, readLines]
    cases readLine hash signedChar options statusfile compName linenum s piece with
    | error msg => rfl
    | ok next =>
      have count : linenum + (piece :: first).length = linenum + 1 + first.length := by
        rw [List.length_cons]
        omega
      rw [count]
      exact ih

/-- The lines of a resource without a context. -/
def resourceLines (compName : String) (r : TypedResource) : List (List Char) :=
  (attributesOf r).map (attributeLine compName (r.name.getD ""))

/-- One resource after another is read, up to the first one which cannot be. -/
theorem Reads.readResources (compValid : Resource.validName (some compName) = true)
    (useMeta : options.useMeta = true) {rs : List TypedResource}
    (good : ∀ r ∈ rs, ∃ name, r.name = some name ∧ Resource.validName (some name) = true ∧
      ∀ attr ∈ attributesOf r, Readable attr)
    (distinct : (rs.map fun r => r.name).Nodup) {linenum : Nat} {s : Reader}
    {contents : String → Option TypedResource} (reads : Reads hash compName s contents)
    (fresh : ∀ r ∈ rs, ∀ name, r.name = some name → contents name = none) :
    (∃ msg, readLines hash signedChar options statusfile compName linenum s
        ((rs.flatMap (resourceLines compName)).map (· ++ ['\n'])) = .error msg ∧
      ∃ r ∈ rs, readBack signedChar r = none) ∨
    ∃ s' contents', readLines hash signedChar options statusfile compName linenum s
        ((rs.flatMap (resourceLines compName)).map (· ++ ['\n'])) = .ok s' ∧
      Reads hash compName s' contents' ∧
      (∀ r ∈ rs, ∀ name, r.name = some name → contents' name = readBack signedChar r) ∧
      (∀ r ∈ rs, readBack signedChar r ≠ none) ∧
      ∀ name, (∀ r ∈ rs, r.name ≠ some name) → contents' name = contents name := by
  induction rs generalizing linenum s contents with
  | nil => exact .inr ⟨s, contents, rfl, reads, by simp, by simp, fun _ _ => rfl⟩
  | cons r rest ih =>
    obtain ⟨name, named, valid, readable⟩ := good r List.mem_cons_self
    rw [List.map_cons, List.nodup_cons] at distinct
    -- each resource is new when its first line is read
    have new : current contents name = TypedResource.newNamed name := by
      rw [current, fresh r List.mem_cons_self name named, Option.getD_none]
    have lines : (resourceLines compName r).map (· ++ ['\n']) =
        (attributesOf r).map fun attr => attributeLine compName name attr ++ ['\n'] := by
      rw [resourceLines, named, Option.getD_some, List.map_map]
      rfl
    have step := @Reads.readAttributes hash signedChar options statusfile compName linenum s contents
      reads compValid name valid useMeta (attributesOf r) readable (List.cons_ne_nil _ _)
    have back : readBack signedChar r = (attributesOf r).foldlM (fun r attr =>
        withAttribute signedChar r attr.1.char attr.2) (current contents name) := by
      rw [new, readBack, named, Option.getD_some]
    rw [← back, ← lines] at step
    rw [List.flatMap_cons, List.map_append, readLines_append]
    cases result : readBack signedChar r with
    | none =>
      rw [result] at step
      obtain ⟨msg, failed⟩ := step
      refine .inl ⟨msg, ?_, r, List.mem_cons_self, result⟩
      rw [failed]
    | some found =>
      rw [result] at step
      obtain ⟨next, done, reads'⟩ := step
      rw [done]
      dsimp only
      -- and it is no other resource of the rest
      have later : ∀ r' ∈ rest, ∀ name', r'.name = some name' →
          Function.update contents name (some found) name' = none := by
        intro r' member name' named'
        rw [Function.update_of_ne]
        · exact fresh r' (List.mem_cons_of_mem _ member) name' named'
        · rintro rfl
          exact distinct.1 (List.mem_map.mpr ⟨r', member, named'.trans named.symm⟩)
      rcases ih (fun r' member => good r' (List.mem_cons_of_mem _ member)) distinct.2 reads' later
        with ⟨msg, failed, r', member, lost⟩ | ⟨s', contents', ok, reads'', here, all, others⟩
      · exact .inl ⟨msg, failed, r', List.mem_cons_of_mem _ member, lost⟩
      · refine .inr ⟨s', contents', ok, reads'', ?_, ?_, ?_⟩
        · intro r' member name' named'
          rcases List.mem_cons.mp member with rfl | member
          -- the later lines are of other resources
          · obtain rfl := Option.some_inj.mp (named'.symm.trans named)
            rw [others, Function.update_self, result]
            exact fun other inRest same => distinct.1
              (List.mem_map.mpr ⟨other, inRest, same.trans named.symm⟩)
          · exact here r' member name' named'
        · intro r' member
          rcases List.mem_cons.mp member with rfl | member
          · rw [result]
            exact Option.some_ne_none found
          · exact all r' member
        · intro name' absent
          rw [others name' fun r' member => absent r' (List.mem_cons_of_mem _ member),
            Function.update_of_ne]
          rintro rfl
          exact absent r List.mem_cons_self named

end Reader

/-! ## Contexts -/

namespace TypedResource

/-- The line for a value with a context which does not break off: the reader stops there. -/
theorem parseSpec_valueLine {signedChar : Bool} {compName name : String}
    (compValid : Resource.validName (some compName) = true)
    (valid : Resource.validName (some name) = true) {ctx : String} (noNul : NoNul ctx)
    (accepted : validContext signedChar (some ctx) = true)
    (whole : ¬Context.BreaksOff signedChar ctx) {more front : List Char}
    (starts : front <+: ctx.toList ++ ']' :: '=' :: more) :
    ∃ msg, parseSpec (chomp ((keyText compName name ++ '[' :: front).takeWhile (· ≠ '\x00'))) =
      .error msg := by
  have notNul : isWord '\x00' = false := by decide
  -- in the context there is no full stop before the first `=`
  have free : '.' ∉ (ctx.toList ++ ']' :: '=' :: more).takeWhile (· != '=') := by
    have derives := ((Context.validExpression_derives_iff signedChar ctx).mpr whole).mp accepted
    have all : Context.text ctx = ctx.toList := by
      rw [Context.text, List.takeWhile_eq_self_iff]
      exact fun c member => decide_eq_true (noNul c member)
    have first := derives.assign_first
    rw [all] at first
    rw [List.takeWhile_append]
    split
    · rename_i ends
      rw [← (List.takeWhile_prefix _).eq_of_length ends]
      simpa using first
    · exact first
  have plain : ∀ c ∈ keyText compName name ++ ['['], decide (c ≠ '\x00') = true := by
    intro c member
    refine decide_eq_true ?_
    rintro rfl
    rw [keyText] at member
    simp only [List.mem_append, List.mem_cons] at member
    rcases member with (inComp | dot | inName) | bracket | none_
    · exact name_free compValid notNul inComp
    · cases dot
    · exact name_free valid notNul inName
    · cases bracket
    · cases none_
  have key : keyText compName name ++ '[' :: front = (keyText compName name ++ ['[']) ++ front := by
    simp
  obtain ⟨c, rest, begins, -⟩ := name_begins compValid
  -- neither a NUL nor a line break can cut the line before the bracket
  have cut : chomp ((keyText compName name ++ '[' :: front).takeWhile (· ≠ '\x00')) =
      keyText compName name ++ '[' :: (front.takeWhile (· ≠ '\x00')).rdropWhile
        (fun d => d == '\r' || d == '\n') := by
    have line : (keyText compName name ++ '[' :: front).takeWhile (· ≠ '\x00') =
        c :: ((rest ++ '.' :: name.toList) ++ '[' :: front.takeWhile (· ≠ '\x00')) := by
      rw [key, List.takeWhile_append_of_pos plain, keyText, begins]
      simp
    rw [line, chomp, Fields.rdropWhile_append_cons (by decide), keyText, begins]
    rfl
  rw [cut]
  apply parseSpec_context compValid valid
  intro stop
  apply free
  have prefixes := (List.rdropWhile_prefix (fun d => d == '\r' || d == '\n')
    (front.takeWhile (· ≠ '\x00'))).trans ((List.takeWhile_prefix _).trans starts)
  exact Fields.takeWhile_subset prefixes stop

end TypedResource

/-! ## Both together -/

namespace PlainComponent

open Reader (fromStatusFile readLines resourceLines)

/-- Whatever text is written for the component, reading it succeeds and restores the first
resources of all names. -/
def StatusRoundTrips (hash : String → Nat) (signedChar : Bool) (filename : String)
    (compnameIn : Option String) (res : Addr → TypedResource) (comp : PlainComponent) : Prop :=
  ∀ text, Prints res comp writeOptions text → ∃ loaded,
    fromStatusFile hash signedChar filename (.contents text) compnameIn { useMeta := true } =
      .ok loaded ∧
    loaded.comp.name = comp.name ∧
    ∀ name, Option.Rel Restores (active res (some comp) name)
      (active loaded.res (some loaded.comp) name)

variable {hash hash' : String → Nat} {signedChar : Bool} {res : Addr → TypedResource}
  {comp : PlainComponent} {compName filename : String} {compnameIn : Option String}

/-- The lines are read one after another. -/
theorem fromStatusFile_eq (named : (compnameIn <|> basename filename) = some compName)
    (valid : Resource.validName (some compName) = true) (text : List Char) :
    fromStatusFile hash' signedChar filename (.contents text) compnameIn { useMeta := true } =
      (readLines hash' signedChar { useMeta := true } filename compName 1
        ⟨Loading.new compName, none⟩ (Fields.pieces (· == '\n') text)).map (·.loading) := by
  rw [fromStatusFile, named, if_pos valid]
  rfl

namespace StorableComponent

variable (component : StorableComponent hash signedChar res comp compName)
  (named : (compnameIn <|> basename filename) = some compName)
include component named

/-- What has been restored was read: then no file of a derivation has a delimiter. -/
theorem separate_of_roundTrips
    (roundTrips : StatusRoundTrips hash' signedChar filename compnameIn res comp) :
    ∀ r ∈ firsts res comp, Separate r := by
  obtain ⟨text, prints⟩ := component.exists_prints
  obtain ⟨loaded, read, -, restored⟩ := roundTrips text prints
  rw [fromStatusFile_eq named component.valid] at read
  cases lines : readLines hash' signedChar { useMeta := true } filename compName 1
      ⟨Loading.new compName, none⟩ (Fields.pieces (· == '\n') text) with
  | error msg =>
    rw [lines] at read
    cases read
  | ok s =>
    rw [lines] at read
    cases read
    obtain ⟨contents, reads, delimited⟩ := (Reader.new_reads compName).readLines_delimited
      (fun _ _ nothing => by cases nothing) lines
    intro r member
    obtain ⟨name, -, -, found⟩ := component.first_name member
    -- what was read under this name restores the resource
    have rel := restored name
    rw [found, reads.holds.shows] at rel
    cases back : contents name with
    | none =>
      rw [back] at rel
      cases rel
    | some r' =>
      rw [back] at rel
      obtain ⟨restores⟩ := rel
      intro drv inside c inFile
      have wf := (component.storable r member).derivation
      -- a derivation which was read has no separators in its files
      have sorted : Derivation.sortLines drv ∈ r'.derivation := by
        rw [restores.derivation, DerivList.sortLines_eq wf]
        exact List.mem_map_of_mem inside
      exact delimited name r' back _ sorted c inFile

/-- Where each line is one line, the resources come back one by one. -/
theorem roundTrips_iff_of_separate
    (plain : ∀ r ∈ firsts res comp, hasContext r = false)
    (separate : ∀ r ∈ firsts res comp, Separate r) :
    StatusRoundTrips hash' signedChar filename compnameIn res comp ↔
      ∀ r ∈ firsts res comp, ∃ back, readBack signedChar r = some back ∧ Restores r back := by
  -- for each text the lines are those of the resources
  have reading {text : List Char} (prints : Prints res comp writeOptions text) :
      ∃ rs : List TypedResource, rs.Perm (firsts res comp) ∧
        fromStatusFile hash' signedChar filename (.contents text) compnameIn { useMeta := true } =
          (readLines hash' signedChar { useMeta := true } filename compName 1
            ⟨Loading.new compName, none⟩
            ((rs.flatMap (resourceLines compName)).map (· ++ ['\n']))).map (·.loading) := by
    obtain ⟨rs, perm, rfl⟩ := component.prints_eq prints
    refine ⟨rs, perm, ?_⟩
    have texts : (rs.map (entryText compName)).flatten =
        ((rs.flatMap (resourceLines compName)).map (· ++ ['\n'])).flatten := by
      rw [TypedResource.entryTexts_eq, List.flatMap_congr fun r member =>
        TypedResource.statusLines_plain (plain r (perm.subset member))]
      rfl
    have free : ∀ line ∈ rs.flatMap (resourceLines compName), ∀ c ∈ line, (c == '\n') = false := by
      intro line member c inLine
      obtain ⟨r, isResource, isLine⟩ := List.mem_flatMap.mp member
      have inFirsts := perm.subset isResource
      obtain ⟨attr, isAttr, rfl⟩ := List.mem_map.mp isLine
      obtain ⟨name, rNamed, rValid, -⟩ := component.first_name inFirsts
      have attrFree := ((component.storable r inFirsts).readable (separate r inFirsts) attr isAttr).2
      refine beq_eq_false_iff_ne.mpr ?_
      rintro rfl
      rw [attributeLine, rNamed, Option.getD_some, List.mem_append, List.mem_append,
        List.mem_cons] at inLine
      rcases inLine with symbol | key | assign | value
      · revert symbol
        cases attr.1 <;> decide
      · exact TypedResource.keyText_unbroken component.valid rValid key
      · cases assign
      · exact attrFree value
    rw [fromStatusFile_eq named component.valid, texts, Fields.pieces_flatten (by decide) free]
  have outcome {rs : List TypedResource} (perm : rs.Perm (firsts res comp)) :=
    @Reader.Reads.readResources hash' signedChar { useMeta := true } filename compName
      component.valid rfl rs
      (fun r member => by
        have inFirsts := perm.subset member
        obtain ⟨name, rNamed, rValid, -⟩ := component.first_name inFirsts
        exact ⟨name, rNamed, rValid, fun attr isAttr =>
          ((component.storable r inFirsts).readable (separate r inFirsts) attr isAttr).1⟩)
      ((perm.map _).nodup_iff.mpr (firsts_nodup component.tabled)) 1 _ _
      (Reader.new_reads compName) (fun _ _ _ _ => rfl)
  constructor
  · intro roundTrips r member
    obtain ⟨text, prints⟩ := component.exists_prints
    obtain ⟨rs, perm, same⟩ := reading prints
    obtain ⟨loaded, read, -, restored⟩ := roundTrips text prints
    rw [same] at read
    rcases outcome perm with ⟨msg, failed, -⟩ | ⟨s, contents, done, reads, here, all, -⟩
    · rw [failed] at read
      cases read
    · rw [done] at read
      cases read
      have inside := perm.symm.subset member
      obtain ⟨name, rNamed, -, found⟩ := component.first_name member
      have rel := restored name
      rw [found, reads.holds.shows, here r inside name rNamed] at rel
      obtain ⟨back, isBack⟩ := Option.ne_none_iff_exists'.mp (all r inside)
      rw [isBack] at rel
      obtain ⟨restores⟩ := rel
      exact ⟨back, isBack, restores⟩
  · intro each text prints
    obtain ⟨rs, perm, same⟩ := reading prints
    rcases outcome perm with ⟨msg, failed, r, member, lost⟩ | ⟨s, contents, done, reads, here, -, others⟩
    · obtain ⟨back, found, -⟩ := each r (perm.subset member)
      rw [lost] at found
      cases found
    · refine ⟨s.loading, by rw [same, done]; rfl, reads.holds.named.trans component.named.symm,
        fun name => ?_⟩
      rw [reads.holds.shows]
      cases found : active res (some comp) name with
      | some r =>
        have member := (mem_firsts component.tabled r).mpr ⟨name, found⟩
        rw [here r (perm.symm.subset member) name (active_name component.tabled found)]
        obtain ⟨back, isBack, restores⟩ := each r member
        rw [isBack]
        exact .some restores
      | none =>
        rw [others name fun r member rNamed => ?_]
        · exact .none
        · obtain ⟨name', rNamed', -, there⟩ := component.first_name (perm.subset member)
          obtain rfl := Option.some_inj.mp (rNamed.symm.trans rNamed')
          rw [found] at there
          cases there

/-- A context which does not break off makes the file unreadable. -/
theorem not_roundTrips_of_context {r : TypedResource} (member : r ∈ firsts res comp) {ctx : String}
    (given : r.context = some ctx) (some_ : ctx ≠ "") (whole : ¬Context.BreaksOff signedChar ctx) :
    ¬StatusRoundTrips hash' signedChar filename compnameIn res comp := by
  intro roundTrips
  obtain ⟨text, prints⟩ := component.exists_prints
  obtain ⟨loaded, read, -⟩ := roundTrips text prints
  obtain ⟨rs, perm, rfl⟩ := component.prints_eq prints
  obtain ⟨before, after, rfl⟩ := List.append_of_mem (perm.symm.subset member)
  obtain ⟨name, rNamed, rValid, -⟩ := component.first_name member
  obtain ⟨noNul, accepted⟩ := (component.storable r member).context ctx given
  -- the piece which begins with the entry of the resource
  have shown : hasContext r = true := by
    simp [hasContext, Lcfg.isEmpty, given, some_]
  obtain ⟨x, inner, chars⟩ : ∃ x inner, ctx.toList = x :: inner :=
    List.exists_cons_of_ne_nil fun nothing => some_ (String.toList_eq_nil_iff.mp nothing)
  obtain ⟨more, entry⟩ : ∃ more, entryText compName r ++ (after.map (entryText compName)).flatten =
      (keyText compName name ++ ['[']) ++ (x :: (inner ++ ']' :: '=' :: more)) := by
    rw [entryText, rNamed, Option.getD_some, statusLines, contextText, if_pos shown, given,
      Option.getD_some, chars, List.map_cons, List.flatten_cons]
    simp only [List.append_assoc, List.cons_append, List.nil_append]
    exact ⟨_, rfl⟩
  have free : ∀ c ∈ keyText compName name ++ ['['], (c == '\n') = false := by
    intro c inside
    refine beq_eq_false_iff_ne.mpr ?_
    rintro rfl
    rcases List.mem_append.mp inside with key | bracket
    · exact TypedResource.keyText_unbroken component.valid rValid key
    · cases List.mem_singleton.mp bracket
  obtain ⟨front, pieces, same, starts⟩ := Fields.pieces_free_append free x (inner ++ ']' :: '=' :: more)
  rw [← List.cons_append, ← chars] at starts
  obtain ⟨msg, failed⟩ := TypedResource.parseSpec_valueLine component.valid rValid noNul accepted
    whole starts
  -- the entries before it end with line breaks
  obtain ⟨earlier, split⟩ : ∃ earlier, Fields.pieces (· == '\n')
      (((before ++ r :: after).map (entryText compName)).flatten) =
        earlier ++ ((keyText compName name ++ ['[']) ++ front) :: pieces := by
    rw [List.map_append, List.map_cons, List.flatten_append, List.flatten_cons, entry, ← same,
      TypedResource.entryTexts_eq]
    exact Fields.pieces_lines (by decide) _ _
  have stuck := @Reader.readLines_fails hash' signedChar { useMeta := true } filename compName 1
    ⟨Loading.new compName, none⟩ earlier pieces (keyText compName name ++ ['['] ++ front)
    (fun linenum s => by
      rw [Reader.readLine]
      simp only [List.append_assoc, List.singleton_append, failed]
      exact ⟨_, rfl⟩)
  obtain ⟨msg', stuck⟩ := stuck
  rw [fromStatusFile_eq named component.valid, split, stuck] at read
  cases read

end StorableComponent

/-- A new component into which one resource has been merged. -/
def withResource (compName : String) (r : TypedResource) : Loading :=
  (Loading.mergeResource djbhash (Loading.new compName) r).1

theorem withResource_storable {r : TypedResource} {name : String} (named : r.name = some name)
    (compValid : Resource.validName (some compName) = true)
    (valid : Resource.validName (some name) = true) (storable : Storable signedChar r) :
    StorableComponent djbhash signedChar (withResource compName r).res
        (withResource compName r).comp compName ∧
      ∀ r', r' ∈ firsts (withResource compName r).res (withResource compName r).comp ↔ r' = r := by
  obtain ⟨holds, -⟩ := (@Loading.new_holds djbhash compName).mergeResource named
    (TypedResource.validName_ne valid) rfl
  have tabled := holds.sound.toTabled
  have only (r' : TypedResource) :
      r' ∈ firsts (withResource compName r).res (withResource compName r).comp ↔ r' = r := by
    rw [withResource, mem_firsts tabled]
    simp only [holds.shows]
    constructor
    · rintro ⟨name', found⟩
      by_cases same : name' = name
      · rw [same, Function.update_self, Option.some_inj] at found
        exact found.symm
      · rw [Function.update_of_ne same] at found
        cases found
    · rintro rfl
      exact ⟨name, Function.update_self ..⟩
  refine ⟨⟨tabled, holds.named, compValid, fun r' member => ?_, fun r' member => ?_⟩, only⟩
  · rw [(only r').mp member, named]
    exact valid
  · rw [(only r').mp member]
    exact storable

/-- A list with a comment, a template and a derivation. -/
def plainSample : TypedResource :=
  { TypedResource.newNamed "users" with
    value := some "alice bob"
    type := .list
    comment := some "who & where"
    template := ["name_$"]
    derivation := [{ file := some "auth.lcfg", lines := [12] }] }

/-- A resource for some machines only. -/
def contextSample : TypedResource :=
  { TypedResource.newNamed "suspend" with
    value := some "yes", type := .boolean, context := some "laptop" }

theorem plainSample_storable : Storable true plainSample where
  valued := by decide
  bytes := Fields.of_all (by decide)
  fits := by decide
  context := fun _ none_ => by cases none_
  comment := by
    intro comment given
    obtain rfl := Option.some_inj.mp given
    exact ⟨TypedResource.noNul_iff.mpr (by decide), by decide, by decide⟩
  template := fun _ => .inr ⟨"name_$", _, rfl, rfl⟩
  derivation := ⟨by
    intro drv member
    rw [List.mem_singleton.mp member]
    exact ⟨by decide, by decide, by decide⟩, by decide⟩
  files := by
    intro drv member
    rw [List.mem_singleton.mp member]
    exact TypedResource.noNul_iff.mpr (by decide)

theorem contextSample_storable : Storable true contextSample where
  valued := by decide
  bytes := Fields.of_all (by decide)
  fits := by decide
  context := by
    intro ctx given
    obtain rfl := Option.some_inj.mp given
    exact ⟨TypedResource.noNul_iff.mpr (by decide), by decide +kernel⟩
  comment := fun _ none_ => by cases none_
  template := fun list => by cases list
  derivation := ⟨fun _ none_ => (by cases none_), by decide⟩
  files := fun _ none_ => by cases none_

end PlainComponent

end Lcfg
