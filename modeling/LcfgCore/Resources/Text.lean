import LcfgCore.Library.Fields
import LcfgCore.Resources.Resource

/-!
# The text of a resource

Keys, types and the lines which are written for a resource (`resources/resource.c`).

## Main results

`toStatus_eq`: the status text of a named resource is its value line, followed by lines
for its type and its derivation where there is something to say.
-/
namespace Lcfg

/-- The options which the writers of a specification look at. -/
structure SpecOptions where
  noPrefix : Bool := false
  noValue : Bool := false
  encode : Bool := false
  noContext : Bool := false
  newline : Bool := false
deriving DecidableEq

namespace TypedResource

/-- `LCFG_RESOURCE_SYMBOL_TYPE` and the others; values have none. -/
inductive Symbol where
  | value | type | derivation | context | priority
deriving DecidableEq

def Symbol.text : Symbol → List Char
  | .value => []
  | .type => ['%']
  | .derivation => ['#']
  | .context => ['=']
  | .priority => ['^']

/-- A part of a key, with its full stop, unless it is empty. -/
def keyPart (part : Option String) : List Char :=
  if isEmpty part then [] else (part.getD "").toList ++ ['.']

/-- `lcfgresource_insert_key`; `space` is the name space. -/
def insertKey (resource component space : Option String) (typeSymbol : Symbol) :
    Option (List Char) :=
  if isEmpty resource then none
  else some (typeSymbol.text ++ keyPart space ++ keyPart component ++ (resource.getD "").toList)

def typeName : LCFGResourceType → String
  | .string => "string"
  | .integer => "integer"
  | .boolean => "boolean"
  | .list => "list"
  | .publish => "publish"
  | .subscribe => "subscribe"

/-- `lcfgtemplate_to_string` -/
def templateText (template : List String) : List Char :=
  [' '].intercalate (template.map String.toList)

/-- `lcfgresource_get_type_as_string` -/
def getTypeAsString (res : TypedResource) (noTemplates : Bool) : List Char :=
  (typeName res.type).toList ++
    (if hasComment res then '(' :: (res.comment.getD "").toList ++ [')'] else []) ++
    if res.type = .list ∧ noTemplates = false then ": ".toList ++ templateText res.template else []

/-- The value as it is written. -/
def valueText (res : TypedResource) (encode : Bool) : List Char :=
  let value := (res.value.getD "").toList
  if encode && needsEncode res then encValue value else value

/-- `lcfgresource_to_spec` -/
def toSpec (res : TypedResource) (pre : Option String) (options : SpecOptions) :
    Option (List Char) :=
  (insertKey res.name (if options.noPrefix then none else pre) none .value).map fun key =>
    key ++
      (if !options.noContext && hasContext res then
        '[' :: (res.context.getD "").toList ++ [']'] else []) ++
      (if options.noValue then [] else '=' :: valueText res options.encode) ++
      if options.newline then ['\n'] else []

/-- A line with a key and a text; none if there is nothing to say. -/
def metaLine (res : TypedResource) (pre : Option String) (typeSymbol : Symbol)
    (text : List Char) : List Char :=
  if text = [] then []
  else
    match insertKey res.name pre none typeSymbol with
    | none => []
    | some key => key ++ '=' :: text ++ ['\n']

/-- `lcfgresource_to_status`; the type of a string is left out if it has no comment. -/
def toStatus (res : TypedResource) (pre : Option String) (options : SpecOptions)
    (useMeta : Bool) : Option (List Char) :=
  (toSpec res pre { options with newline := true, encode := true }).map fun valueLine =>
    valueLine ++
      (if res.type ≠ .string ∨ hasComment res then
        metaLine res pre .type (getTypeAsString res false) else []) ++
      (if useMeta && hasDerivation res then
        metaLine res pre .derivation (DerivList.toString res.derivation) else [])

/-- `lcfgresource_to_value` -/
def toValue (res : TypedResource) (options : SpecOptions) : List Char :=
  valueText res options.encode ++ if options.newline then ['\n'] else []

/-- A line of a summary, in the format `" %7s=%s\n"`. -/
def summaryLine (name : String) (text : List Char) : List Char :=
  ' ' :: List.replicate (7 - name.length) ' ' ++ name.toList ++ '=' :: text ++ ['\n']

/-- `lcfgresource_to_summary` -/
def toSummary (res : TypedResource) (pre : Option String) (useMeta : Bool) :
    Option (List Char) :=
  (toSpec res pre { noValue := true, noContext := true }).map fun key =>
    let type :=
      if res.type ≠ .string ∨ hasComment res then getTypeAsString res false else "default".toList
    let deriv := DerivList.toString res.derivation
    key ++ ":\n".toList ++ summaryLine "value" (res.value.getD "").toList ++
      summaryLine "type" type ++
      (if useMeta && hasDerivation res && deriv ≠ [] then summaryLine "derive" deriv else []) ++
      if useMeta && hasContext res then summaryLine "context" (res.context.getD "").toList else []

/-- `lcfgresource_build_message`: what happened, with the type of the resource unless it is a
string, its key and its derivation. -/
def buildMessage (res : Option TypedResource) (component : Option String) (msgBase : String) :
    String :=
  let typeAsStr := res.elim [] fun res =>
    if res.type ≠ .string then getTypeAsString res true ++ [' '] else []
  let resAsStr := res.bind fun res =>
    if isEmpty res.name then none else toSpec res component { noValue := true }
  let msgMid := match resAsStr, component with
    | some spec, _ => " '" ++ String.ofList spec ++ "'"
    | none, some component => " in component '" ++ component ++ "'"
    | none, none => ""
  let derivAsStr := res.elim [] fun res => DerivList.toString res.derivation
  msgBase ++ " for " ++ String.ofList typeAsStr ++ "resource" ++ msgMid ++
    if derivAsStr = [] then "" else " at " ++ String.ofList derivAsStr

/-! ## The lines of a status text -/

/-- The key of a named resource of a component. -/
def keyText (compName name : String) : List Char := compName.toList ++ '.' :: name.toList

variable {res : TypedResource} {compName name : String}

theorem insertKey_eq (named : res.name = some name) (some_ : name ≠ "") (compSome : compName ≠ "")
    (typeSymbol : Symbol) :
    insertKey res.name (some compName) none typeSymbol =
      some (typeSymbol.text ++ keyText compName name) := by
  have first : isEmpty (some name) = false := by simpa [isEmpty] using some_
  have second : isEmpty (some compName) = false := by simpa [isEmpty] using compSome
  have third : isEmpty none = true := rfl
  simp [insertKey, named, first, keyPart, second, third, keyText]

theorem metaLine_eq (named : res.name = some name) (some_ : name ≠ "") (compSome : compName ≠ "")
    (typeSymbol : Symbol) {text : List Char} (textSome : text ≠ []) :
    metaLine res (some compName) typeSymbol text =
      typeSymbol.text ++ keyText compName name ++ '=' :: text ++ ['\n'] := by
  rw [metaLine, if_neg textSome, insertKey_eq named some_ compSome]

/-- The context in its brackets. -/
def contextText (res : TypedResource) : List Char :=
  if hasContext res then '[' :: (res.context.getD "").toList ++ [']'] else []

/-- The lines of a status text. -/
def statusLines (res : TypedResource) (compName name : String) (useMeta : Bool) :
    List (List Char) :=
  (keyText compName name ++ contextText res ++ '=' :: valueText res true) ::
    ((if res.type ≠ .string ∨ hasComment res then
      ['%' :: keyText compName name ++ '=' :: getTypeAsString res false] else []) ++
    if useMeta && hasDerivation res && DerivList.toString res.derivation ≠ [] then
      ['#' :: keyText compName name ++ '=' :: DerivList.toString res.derivation] else [])

theorem getTypeAsString_ne_nil (noTemplates : Bool) : getTypeAsString res noTemplates ≠ [] := by
  cases type : res.type <;> simp [getTypeAsString, typeName, type]

/-- The status text of a named resource. -/
theorem toStatus_eq (named : res.name = some name) (some_ : name ≠ "") (compSome : compName ≠ "")
    (useMeta : Bool) :
    toStatus res (some compName) {} useMeta =
      some ((statusLines res compName name useMeta).map (· ++ ['\n'])).flatten := by
  have typeLine := metaLine_eq named some_ compSome .type (@getTypeAsString_ne_nil res false)
  simp only [toStatus, toSpec, statusLines, typeLine, contextText]
  by_cases typed : res.type ≠ .string ∨ hasComment res = true <;>
    by_cases derived : (useMeta && hasDerivation res) = true <;>
    by_cases nothing : DerivList.toString res.derivation = [] <;>
    simp [typed, derived, nothing, Symbol.text, metaLine, insertKey_eq named some_ compSome]

/-! ## Reading the lines apart -/

/-- There is no line break in an encoded value. -/
theorem valueText_free (res : TypedResource) : '\r' ∉ valueText res true ∧ '\n' ∉ valueText res true := by
  have breaks (c : Char) (special : c ∈ ['\r', '\n']) : c ∉ valueText res true := by
    rw [valueText]
    -- an encoded value has no such character; one which needs no encoding has none to encode
    cases encodes : needsEncode res with
    | true =>
      simp only [Bool.and_self, if_true, encValue, List.mem_flatMap, not_exists, not_and]
      intro d _ inside
      have literal (text : List Char) (plain : ∀ d ∈ text, d ∉ ['\r', '\n']) (inText : c ∈ text) :
          False := plain c inText special
      rw [encChar] at inside
      split at inside
      · exact literal _ (Fields.of_all (by decide)) inside
      · split at inside
        · exact literal _ (Fields.of_all (by decide)) inside
        · next noReturn noNewline =>
          split at inside
          · exact literal _ (Fields.of_all (by decide)) inside
          · rw [List.mem_singleton.mp inside] at special
            simp [noReturn, noNewline] at special
    | false =>
      rw [Bool.and_false, if_neg Bool.false_ne_true]
      intro inside
      rw [needsEncode, Bool.and_eq_false_iff] at encodes
      rcases encodes with empty | plain
      · have nothing : res.value.getD "" = "" := by
          rwa [hasValue, Bool.not_eq_false', isEmpty_iff] at empty
        rw [nothing] at inside
        cases inside
      · rw [List.any_eq_false] at plain
        refine plain c inside (List.contains_iff_mem.mpr ?_)
        rcases List.mem_cons.mp special with rfl | newline
        · decide
        · rw [List.mem_singleton.mp newline]
          decide
  exact ⟨breaks '\r' (by decide), breaks '\n' (by decide)⟩

theorem valueText_unbroken (res : TypedResource) : '\n' ∉ valueText res true :=
  (valueText_free res).2

/-- A resource of which the status text has no line break within a line. -/
structure Unbroken (res : TypedResource) : Prop where
  context : '\n' ∉ contextText res
  type : '\n' ∉ getTypeAsString res false
  derivation : '\n' ∉ DerivList.toString res.derivation

theorem word_ne_newline {c : Char} (word : isWord c = true) : c ≠ '\n' := by
  rintro rfl
  revert word
  decide

theorem exists_name {name : Option String} (valid : Resource.validName name = true) :
    ∃ text, name = some text := by
  cases name with
  | none => cases valid
  | some text => exact ⟨text, rfl⟩

/-- Components and resources have names of this kind. -/
theorem name_word {name : String} (valid : Resource.validName (some name) = true) :
    (∃ x rest, name.toList = x :: rest ∧ x.isAlpha = true) ∧ ∀ c ∈ name.toList, isWord c = true := by
  rw [Resource.validName] at valid
  split at valid
  · cases valid
  · next c rest text =>
    rw [Bool.and_eq_true, List.all_eq_true] at valid
    rw [text]
    refine ⟨⟨c, rest, rfl, valid.1⟩, fun d member => ?_⟩
    rcases List.mem_cons.mp member with rfl | later
    · simp [isWord, Char.isAlphanum, valid.1]
    · exact valid.2 d later

theorem keyText_unbroken (compValid : Resource.validName (some compName) = true)
    (valid : Resource.validName (some name) = true) : '\n' ∉ keyText compName name := by
  rw [keyText, List.mem_append, List.mem_cons]
  rintro (inside | dot | inside)
  · exact word_ne_newline ((name_word compValid).2 _ inside) rfl
  · cases dot
  · exact word_ne_newline ((name_word valid).2 _ inside) rfl

/-- The status text of a resource is one paragraph: the lines after the first one begin
with a symbol. -/
theorem Unbroken.paragraph (unbroken : Unbroken res)
    (compValid : Resource.validName (some compName) = true)
    (valid : Resource.validName (some name) = true) (useMeta : Bool) :
    Fields.Paragraph Char.isAlpha (· == '\n')
      ((statusLines res compName name useMeta).map (· ++ ['\n'])).flatten := by
  have key := keyText_unbroken compValid valid
  have no_break {line : List Char} (free : '\n' ∉ line) : ∀ c ∈ line, (c == '\n') = false := by
    intro c member
    exact beq_eq_false_iff_ne.mpr fun same => free (same ▸ member)
  rw [statusLines]
  refine Fields.paragraph_of_lines ?_ ?_ rfl (by decide) ?_
  -- the first line begins with the name of the component
  · obtain ⟨x, rest, text, alpha⟩ := (name_word compValid).1
    exact ⟨x, _, by rw [keyText, text]; rfl, alpha⟩
  · intro line member
    refine no_break ?_
    rcases List.mem_cons.mp member with rfl | member
    · have value := valueText_unbroken res
      simp [key, unbroken.context, value]
    · rcases List.mem_append.mp member with member | member
      · split at member
        · rw [List.mem_singleton] at member
          simp [member, key, unbroken.type]
        · cases member
      · split at member
        · rw [List.mem_singleton] at member
          simp [member, key, unbroken.derivation]
        · cases member
  -- the other lines begin with a symbol, which is no letter
  · intro line member c here
    rcases List.mem_append.mp member with member | member <;> split at member
    · rw [List.mem_singleton.mp member] at here
      exact Option.some_inj.mp here ▸ (by decide)
    · cases member
    · rw [List.mem_singleton.mp member] at here
      exact Option.some_inj.mp here ▸ (by decide)
    · cases member

/-- Both names are followed by something which is in no name. -/
private theorem statusLines_shape (res : TypedResource) (compName name : String) (useMeta : Bool)
    (more : List Char) : ∃ c rest, isWord c = false ∧
      ((statusLines res compName name useMeta).map (· ++ ['\n'])).flatten ++ more =
        compName.toList ++ '.' :: (name.toList ++ c :: rest) := by
  rw [statusLines, List.map_cons, List.flatten_cons, contextText]
  split
  · exact ⟨'[', _, by decide, by simp [keyText]; rfl⟩
  · exact ⟨'=', _, by decide, by simp [keyText]; rfl⟩

/-- The status text of a resource of a component. -/
def entryText (compName : String) (res : TypedResource) : List Char :=
  ((statusLines res compName (res.name.getD "") true).map (· ++ ['\n'])).flatten

theorem validName_ne {name : String} (valid : Resource.validName (some name) = true) :
    name ≠ "" := by
  rintro rfl
  cases valid

theorem toStatus_valid (named : res.name = some name)
    (compValid : Resource.validName (some compName) = true)
    (valid : Resource.validName (some name) = true) :
    toStatus res (some compName) {} true = some (entryText compName res) := by
  rw [toStatus_eq named (validName_ne valid) (validName_ne compValid), entryText, named]
  rfl

/-- The names can be read from the text. -/
theorem entryText_names {res' : TypedResource} {compName' name' : String}
    (named : res.name = some name) (named' : res'.name = some name')
    (compValid : Resource.validName (some compName) = true)
    (valid : Resource.validName (some name) = true)
    (compValid' : Resource.validName (some compName') = true)
    (valid' : Resource.validName (some name') = true) {more more' : List Char}
    (same : entryText compName res ++ more = entryText compName' res' ++ more') :
    compName = compName' ∧ name = name' := by
  rw [entryText, entryText, named, named', Option.getD_some, Option.getD_some] at same
  obtain ⟨c, rest, plain, shape⟩ := statusLines_shape res compName name true more
  obtain ⟨c', rest', plain', shape'⟩ := statusLines_shape res' compName' name' true more'
  rw [shape, shape'] at same
  have dot : isWord '.' = false := by decide
  have comps := congrArg (List.takeWhile isWord) same
  rw [Fields.takeWhile_cut (name_word compValid).2 dot,
    Fields.takeWhile_cut (name_word compValid').2 dot] at comps
  rw [comps, List.append_cancel_left_eq, List.cons.injEq] at same
  have names := congrArg (List.takeWhile isWord) same.2
  rw [Fields.takeWhile_cut (name_word valid).2 plain,
    Fields.takeWhile_cut (name_word valid').2 plain'] at names
  exact ⟨String.toList_inj.mp comps, String.toList_inj.mp names⟩

end TypedResource

end Lcfg
