import LcfgCore.Resources.Setters

/-!
# Changing values

The functions which build a new value from the old one (`resources/mutate.c`).

## Main result

`values_typed`: whatever is called for a new resource, its value is valid for its type, and a
call which fails leaves the value as it is.
-/
namespace Lcfg

/-- The rounds of `lcfgutils_string_finditem`, from one occurrence of the needle to the next
one; nothing if more rounds are left. -/
def findItemRounds (haystack needle : List Char) (separator : Char → Bool) :
    Nat → Option Nat → Option (Option Nat)
  | _, none => some none
  | 0, some _ => none
  | fuel + 1, some found =>
    let after := found + needle.length
    if (found = 0 ∨ (haystack[found - 1]?).any separator) ∧
        (after = haystack.length ∨ (haystack[after]?).any separator) then some (some found)
    else
      findItemRounds haystack needle separator fuel
        ((Substring.find needle (haystack.drop after)).map (· + after))

/-- `lcfgutils_string_finditem` with some separators. Each round goes on behind a needle which
is not empty, so that the length is fuel enough for it; an empty one is found for ever. -/
def stringFindItem (haystack needle : List Char) (separator : Char → Bool) : Option (Option Nat) :=
  if haystack = [] then some none
  else
    findItemRounds haystack needle separator (haystack.length + 1) (Substring.find needle haystack)

namespace TypedResource

def isString (res : TypedResource) : Bool :=
  res.type = .string ∨ res.type = .subscribe ∨ res.type = .publish

def isList (res : TypedResource) : Bool := res.type = .list

/-- `allowed_separators` -/
def allowedSeparator (c : Char) : Bool := " \t\r\n".toList.contains c

/-- The value which the functions start from. -/
def curValue (res : TypedResource) : List Char := (res.value.getD "").toList

theorem hasValue_iff_curValue (res : TypedResource) : hasValue res = true ↔ curValue res ≠ [] := by
  cases valued : res.value with
  | none => simp [hasValue, curValue, valued, isEmpty]
  | some value => simp [hasValue, curValue, valued, isEmpty]

/-- `lcfgresource_value_find_tag` -/
def valueFindTag (res : TypedResource) (tag : String) : Option Nat :=
  if hasValue res then (stringFindItem (curValue res) tag.toList allowedSeparator).join else none

def valueHasTag (res : TypedResource) (tag : Option String) : Bool :=
  tag.any fun tag => (valueFindTag res tag).isSome

/-! ## Longer values -/

/-- What the functions do which extend a value; they differ in how they `join` the old value
and the extra text. -/
def valueExtend (join : List Char → List Char → List Char) (res : TypedResource)
    (extra : Option String) : TypedResource × Bool :=
  if !isString res && !isList res then (res, false)
  else if isEmpty extra then (res, true)
  else if isList res && !validList (extra.getD "") then (res, false)
  else setValue res (some (String.ofList (join (curValue res) (extra.getD "").toList)))

def valueAppend : TypedResource → Option String → TypedResource × Bool :=
  valueExtend fun cur extra => cur ++ extra

/-- `lcfgresource_value_append_tag`; a value which ends with a separator needs no other one. -/
def valueAppendTag : TypedResource → Option String → TypedResource × Bool :=
  valueExtend fun cur extra =>
    cur ++ (if cur.getLast?.any fun c => !allowedSeparator c then [' '] else []) ++ extra

def valuePrepend : TypedResource → Option String → TypedResource × Bool :=
  valueExtend fun cur extra => extra ++ cur

def valuePrependTag : TypedResource → Option String → TypedResource × Bool :=
  valueExtend fun cur extra =>
    extra ++ (if cur.head?.any fun c => !allowedSeparator c then [' '] else []) ++ cur

def valueAddTag (res : TypedResource) (extraTag : Option String) : TypedResource × Bool :=
  if !isString res && !isList res then (res, false)
  else if isEmpty extraTag then (res, true)
  else if valueHasTag res extraTag then (res, true)
  else valueAppendTag res extraTag

/-- The loop of `lcfgresource_value_map_tagstring`, which ends with the first failure. -/
def mapTags (fn : TypedResource → Option String → TypedResource × Bool) (res : TypedResource) :
    List (List Char) → TypedResource × Bool
  | [] => (res, true)
  | tag :: tags =>
    match fn res (some (String.ofList tag)) with
    | (res, false) => (res, false)
    | (res, true) => mapTags fn res tags

def valueMapTagstring (fn : TypedResource → Option String → TypedResource × Bool)
    (res : TypedResource) (tagstring : String) : TypedResource × Bool :=
  if !isString res && !isList res then (res, false)
  else mapTags fn res (Fields.tokens allowedSeparator tagstring.toList)

def valueAddTags : TypedResource → String → TypedResource × Bool := valueMapTagstring valueAddTag

/-! ## Other values -/

/-- Puts the new text in the place of the old one; an empty result unsets the value. -/
def splice (res : TypedResource) (location oldLen : Nat) (newText : List Char) :
    TypedResource × Bool :=
  let result := (curValue res).take location ++ newText ++ (curValue res).drop (location + oldLen)
  if result = [] then unsetValue res else setValue res (some (String.ofList result))

/-- What the functions do which replace a part of a value. They differ in how they `locate` the
old text and in the length of what a removal takes `along` behind it. Without a new text,
`strcmp` is called for none, which is undefined. -/
def replaceText (locate : TypedResource → String → Option Nat) (along : List Char → Nat)
    (res : TypedResource) (oldText newText : Option String) : Option (TypedResource × Bool) :=
  if !isString res && !isList res then some (res, false)
  else if isEmpty oldText then some (res, false)
  else
    newText.map fun newText =>
      let oldText := oldText.getD ""
      if oldText = newText then (res, true)
      else if isList res && !validList newText then (res, false)
      else
        let removal := newText == ""
        if !hasValue res then (res, removal)
        else
          match locate res oldText with
          | none => (res, removal)
          | some location =>
            let after := (curValue res).drop (location + oldText.length)
            splice res location (oldText.length + if removal then along after else 0) newText.toList

/-- `lcfgresource_value_replace_tag`: the separators behind a tag are removed with it. -/
def valueReplaceTag : TypedResource → Option String → Option String →
    Option (TypedResource × Bool) :=
  replaceText valueFindTag fun after => (after.takeWhile allowedSeparator).length

def valueReplace : TypedResource → Option String → Option String → Option (TypedResource × Bool) :=
  replaceText (fun res oldString => Substring.find oldString.toList (curValue res)) fun _ => 0

/-! ## Valid values -/

/-- A value, if there is one, is valid for the type. -/
def Fits (res : TypedResource) : Prop :=
  ∀ value ∈ res.value, validValueForType res.type value = true

/-- A step which has nothing to do with the type and the value. -/
structure Keeps (before after : TypedResource) : Prop where
  type : after.type = before.type
  value : after.value = before.value

/-- What may become of the value when a function is called. -/
structure Safe (before : TypedResource) (attempt : TypedResource × Bool) : Prop where
  fits : Fits before → Fits attempt.1
  unchanged : attempt.2 = false → attempt.1.value = before.value

variable {res after : TypedResource} {attempt : TypedResource × Bool}

theorem Keeps.refl (res : TypedResource) : Keeps res res := ⟨rfl, rfl⟩

theorem Keeps.fits (keeps : Keeps res after) (fits : Fits res) : Fits after := by
  intro value member
  rw [keeps.value] at member
  rw [keeps.type]
  exact fits value member

theorem Keeps.safe (keeps : Keeps res attempt.1) : Safe res attempt :=
  ⟨keeps.fits, fun _ => keeps.value⟩

theorem safe_same (res : TypedResource) (ok : Bool) : Safe res (res, ok) := (Keeps.refl res).safe

/-- Steps after one another, where the later ones have nothing to do with the value. -/
theorem Safe.then {later : TypedResource} {ok : Bool} (safe : Safe res (after, true))
    (keeps : Keeps after later) (done : ok = true ∨ after.value = res.value) :
    Safe res (later, ok) := by
  refine ⟨fun fits => keeps.fits (safe.fits fits), fun failed => ?_⟩
  rcases done with rfl | same
  · cases failed
  · exact keeps.value.trans same

/-! ### Setters -/

/-- A change of the type leaves the value as it is. -/
theorem setType_spec (res : TypedResource) (newType : LCFGResourceType) :
    Safe res (setType res newType) ∧ (setType res newType).1.value = res.value := by
  rw [setType]
  split
  case isTrue => exact ⟨safe_same res true, rfl⟩
  case isFalse =>
    split
    case isTrue valid =>
      refine ⟨⟨fun _ value member => ?_, fun _ => rfl⟩, rfl⟩
      exact Option.all_eq_true _ _ |>.mp valid value member
    case isFalse => exact ⟨safe_same res false, rfl⟩

theorem setTemplate_keeps (res : TypedResource) (newTmpl : List LCFGTemplate) :
    Keeps res (setTemplate res newTmpl).1 := by
  rw [setTemplate]
  split
  · exact ⟨rfl, rfl⟩
  · exact Keeps.refl res

theorem setTypeDefault_safe (res : TypedResource) : Safe res (setTypeDefault res) := by
  obtain ⟨safe, same⟩ := setType_spec res .string
  rw [setTypeDefault]
  split
  case isTrue =>
    split
    case h_1 after done =>
      rw [done] at safe
      exact safe
    case h_2 after done =>
      rw [done] at safe same
      exact safe.then ⟨rfl, rfl⟩ (.inr same)
  case isFalse => exact safe_same res true

theorem setTemplateAsString_keeps (res : TypedResource) (newTmplStr : Option String) :
    Keeps res (setTemplateAsString res newTmplStr).res := by
  cases newTmplStr with
  | none => exact Keeps.refl res
  | some text =>
    rw [setTemplateAsString]
    split
    case isTrue => exact setTemplate_keeps res []
    case isFalse =>
      split
      case h_1 => exact Keeps.refl res
      case h_2 => exact Keeps.refl res
      case h_3 newTemplate _ _ =>
        have keeps := setTemplate_keeps res newTemplate
        split
        all_goals
          next done =>
            rw [done] at keeps
            exact keeps

theorem setTypeDetails_keeps (res : TypedResource) (newType : LCFGResourceType)
    (typeStr : List Char) : Keeps res (setTypeDetails res newType typeStr).res := by
  have commented : Keeps res (setFoundComment res (cutComment typeStr).1).1 := by
    unfold setFoundComment
    split
    · exact ⟨rfl, rfl⟩
    · exact Keeps.refl res
  rw [setTypeDetails]
  dsimp only
  split
  case isTrue =>
    split
    case h_1 => exact commented
    case h_2 =>
      split
      case isTrue => exact commented
      case isFalse =>
        have templates := setTemplateAsString_keeps (setFoundComment res (cutComment typeStr).1).1
        exact ⟨(templates _).type.trans commented.type, (templates _).value.trans commented.value⟩
  case isFalse => exact commented

/-- A text for a type never changes the value, whatever becomes of the type. -/
theorem setTypeAsString_safe (res : TypedResource) (typeStr : Option String) :
    Safe res ((setTypeAsString res typeStr).res, (setTypeAsString res typeStr).ok) := by
  rw [setTypeAsString]
  dsimp only
  split
  case isTrue => exact (setType_spec res .string).1
  case isFalse =>
    split
    case h_1 => exact safe_same res false
    case h_2 newType _ =>
      obtain ⟨safe, same⟩ := setType_spec res newType
      split
      case h_1 after done =>
        rw [done] at safe
        exact safe
      case h_2 after done =>
        rw [done] at safe same
        exact safe.then (setTypeDetails_keeps after newType _) (.inr same)

theorem setValue_safe (res : TypedResource) (newValue : Option String) :
    Safe res (setValue res newValue) := by
  rw [setValue]
  split
  case isTrue valid =>
    refine ⟨fun _ value member => ?_, fun failed => by cases failed⟩
    obtain ⟨given, same, fits⟩ := Option.any_eq_true _ _ |>.mp valid
    obtain rfl : given = value := Option.some_inj.mp (same.symm.trans member)
    exact fits
  case isFalse => exact safe_same res false

theorem unsetValue_safe (res : TypedResource) : Safe res (unsetValue res) :=
  ⟨fun _ value member => (by cases member), fun failed => (by cases failed)⟩

theorem setDerivationAsString_keeps (res : TypedResource) (newDeriv : Option String) :
    Keeps res (setDerivationAsString res newDeriv).1 := by
  cases newDeriv with
  | none => exact ⟨rfl, rfl⟩
  | some text =>
    rw [setDerivationAsString]
    split
    · exact Keeps.refl res
    · exact ⟨rfl, rfl⟩

theorem setContext_keeps (signedChar : Bool) (res : TypedResource) (newCtx : Option String) :
    Keeps res (setContext signedChar res newCtx).1 := by
  rw [setContext]
  split
  · exact ⟨rfl, rfl⟩
  · exact Keeps.refl res

theorem setAttribute_safe (signedChar : Bool) (res : TypedResource) (typeSymbol : Char)
    (value : String) (valueLen : Nat) :
    Safe res ((setAttribute signedChar res typeSymbol value valueLen).res,
      (setAttribute signedChar res typeSymbol value valueLen).ok) := by
  unfold setAttribute
  cases Symbol.ofChar typeSymbol with
  | derivation => exact (setDerivationAsString_keeps res _).safe
  | type =>
    dsimp only
    split
    case isTrue =>
      split
      · exact setTypeAsString_safe res _
      · exact setTypeAsString_safe res _
    case isFalse => exact setTypeDefault_safe res
  | context => exact (setContext_keeps signedChar res _).safe
  | priority =>
    dsimp only
    split
    case isTrue =>
      split
      case isTrue => exact Keeps.safe ⟨rfl, rfl⟩
      case isFalse => exact safe_same res false
    case isFalse => exact Keeps.safe ⟨rfl, rfl⟩
  | value => exact setValue_safe res _

/-! ### Mutators -/

theorem valueExtend_safe (join : List Char → List Char → List Char) (res : TypedResource)
    (extra : Option String) : Safe res (valueExtend join res extra) := by
  rw [valueExtend]
  split_ifs
  · exact safe_same res false
  · exact safe_same res true
  · exact safe_same res false
  · exact setValue_safe res _

theorem valueAddTag_safe (res : TypedResource) (extraTag : Option String) :
    Safe res (valueAddTag res extraTag) := by
  rw [valueAddTag]
  split_ifs
  · exact safe_same res false
  · exact safe_same res true
  · exact safe_same res true
  · exact valueExtend_safe _ res extraTag

theorem mapTags_fits {fn : TypedResource → Option String → TypedResource × Bool}
    (safe : ∀ res tag, Safe res (fn res tag)) (tags : List (List Char)) {res : TypedResource}
    (fits : Fits res) : Fits (mapTags fn res tags).1 := by
  induction tags generalizing res with
  | nil => exact fits
  | cons tag tags ih =>
    have next := (safe res (some (String.ofList tag))).fits fits
    rw [mapTags]
    split
    case h_1 after done =>
      rw [done] at next
      exact next
    case h_2 after done =>
      rw [done] at next
      exact ih next

theorem valueAddTags_fits (tags : String) (fits : Fits res) : Fits (valueAddTags res tags).1 := by
  rw [valueAddTags, valueMapTagstring]
  split
  · exact fits
  · exact mapTags_fits valueAddTag_safe _ fits

theorem splice_safe (res : TypedResource) (location oldLen : Nat) (newText : List Char) :
    Safe res (splice res location oldLen newText) := by
  rw [splice]
  split
  · exact unsetValue_safe res
  · exact setValue_safe res _

/-- With a new text, a replacement is defined. -/
theorem replaceText_safe (locate : TypedResource → String → Option Nat) (along : List Char → Nat)
    (res : TypedResource) (oldText : Option String) (newText : String) :
    ∃ attempt, replaceText locate along res oldText (some newText) = some attempt ∧
      Safe res attempt := by
  rw [replaceText, Option.map_some]
  split
  · exact ⟨_, rfl, safe_same res false⟩
  · split
    · exact ⟨_, rfl, safe_same res false⟩
    · refine ⟨_, rfl, ?_⟩
      dsimp only
      split
      · exact safe_same res true
      · split
        · exact safe_same res false
        · split
          · exact safe_same res _
          · split
            · exact safe_same res _
            · exact splice_safe res _ _ _

theorem valueReplace_safe (res : TypedResource) (oldString : Option String) (newString : String) :
    ∃ attempt, valueReplace res oldString (some newString) = some attempt ∧ Safe res attempt :=
  replaceText_safe (fun res oldString => Substring.find oldString.toList (curValue res))
    (fun _ => 0) res oldString newString

theorem valueReplaceTag_safe (res : TypedResource) (oldTag : Option String) (newTag : String) :
    ∃ attempt, valueReplaceTag res oldTag (some newTag) = some attempt ∧ Safe res attempt :=
  replaceText_safe valueFindTag (fun after => (after.takeWhile allowedSeparator).length) res oldTag
    newTag

/-! ## Calls -/

/-- The functions which have to do with types and values; texts may be missing where C allows
it. -/
inductive Call where
  | setType (newType : LCFGResourceType)
  | setTypeDefault
  | setTypeAsString (typeStr : Option String)
  | setValue (newValue : Option String)
  | unsetValue
  | setAttribute (typeSymbol : Char) (value : String) (valueLen : Nat)
  | append (extraValue : Option String)
  | appendTag (extraTag : Option String)
  | prepend (extraValue : Option String)
  | prependTag (extraTag : Option String)
  | addTag (extraTag : Option String)
  | addTags (extraTags : String)
  | replace (oldString : Option String) (newString : String)
  | replaceTag (oldTag : Option String) (newTag : String)

def Call.run (signedChar : Bool) (res : TypedResource) : Call → Option (TypedResource × Bool)
  | .setType newType => some (TypedResource.setType res newType)
  | .setTypeDefault => some (TypedResource.setTypeDefault res)
  | .setTypeAsString typeStr =>
    let attempt := TypedResource.setTypeAsString res typeStr
    some (attempt.res, attempt.ok)
  | .setValue newValue => some (TypedResource.setValue res newValue)
  | .unsetValue => some (TypedResource.unsetValue res)
  | .setAttribute typeSymbol value valueLen =>
    let attempt := TypedResource.setAttribute signedChar res typeSymbol value valueLen
    some (attempt.res, attempt.ok)
  | .append extraValue => some (valueAppend res extraValue)
  | .appendTag extraTag => some (valueAppendTag res extraTag)
  | .prepend extraValue => some (valuePrepend res extraValue)
  | .prependTag extraTag => some (valuePrependTag res extraTag)
  | .addTag extraTag => some (valueAddTag res extraTag)
  | .addTags extraTags => some (valueAddTags res extraTags)
  | .replace oldString newString => valueReplace res oldString (some newString)
  | .replaceTag oldTag newTag => valueReplaceTag res oldTag (some newTag)

def Call.isAddTags : Call → Bool
  | .addTags _ => true
  | _ => false

/-- The calls after one another, whatever they return. -/
def runCalls (signedChar : Bool) : TypedResource → List Call → Option TypedResource :=
  List.foldlM fun res call => (call.run signedChar res).map Prod.fst

theorem Call.run_spec (signedChar : Bool) (res : TypedResource) (call : Call) :
    ∃ attempt, call.run signedChar res = some attempt ∧ (Fits res → Fits attempt.1) ∧
      (call.isAddTags = false → attempt.2 = false → attempt.1.value = res.value) := by
  have of_safe : ∀ {attempt}, call.run signedChar res = some attempt → Safe res attempt →
      ∃ attempt, call.run signedChar res = some attempt ∧ (Fits res → Fits attempt.1) ∧
        (call.isAddTags = false → attempt.2 = false → attempt.1.value = res.value) :=
    fun done safe => ⟨_, done, safe.fits, fun _ => safe.unchanged⟩
  cases call with
  | setType newType => exact of_safe rfl (setType_spec res newType).1
  | setTypeDefault => exact of_safe rfl (setTypeDefault_safe res)
  | setTypeAsString typeStr => exact of_safe rfl (setTypeAsString_safe res typeStr)
  | setValue newValue => exact of_safe rfl (setValue_safe res newValue)
  | unsetValue => exact of_safe rfl (unsetValue_safe res)
  | setAttribute typeSymbol value valueLen =>
    exact of_safe rfl (setAttribute_safe signedChar res typeSymbol value valueLen)
  | append extraValue => exact of_safe rfl (valueExtend_safe _ res extraValue)
  | appendTag extraTag => exact of_safe rfl (valueExtend_safe _ res extraTag)
  | prepend extraValue => exact of_safe rfl (valueExtend_safe _ res extraValue)
  | prependTag extraTag => exact of_safe rfl (valueExtend_safe _ res extraTag)
  | addTag extraTag => exact of_safe rfl (valueAddTag_safe res extraTag)
  | addTags extraTags => exact ⟨_, rfl, valueAddTags_fits extraTags, fun other => by cases other⟩
  | replace oldString newString =>
    obtain ⟨attempt, done, safe⟩ := valueReplace_safe res oldString newString
    exact of_safe done safe
  | replaceTag oldTag newTag =>
    obtain ⟨attempt, done, safe⟩ := valueReplaceTag_safe res oldTag newTag
    exact of_safe done safe

theorem runCalls_fits (signedChar : Bool) (calls : List Call) (fits : Fits res) :
    ∃ after, runCalls signedChar res calls = some after ∧ Fits after := by
  induction calls generalizing res with
  | nil => exact ⟨res, rfl, fits⟩
  | cons call calls ih =>
    obtain ⟨attempt, done, keeps, -⟩ := call.run_spec signedChar res
    obtain ⟨after, rest, fits'⟩ := ih (keeps fits)
    refine ⟨after, ?_, fits'⟩
    rw [runCalls, List.foldlM_cons, done]
    exact rest

/-- In any run of calls for a new resource the value is valid for the type, and a call which
fails then leaves the value as it is; only many tags may be added in part. -/
theorem values_typed (signedChar : Bool) (calls : List Call) :
    ∃ res, runCalls signedChar new calls = some res ∧
      (∀ value ∈ res.value, validValueForType res.type value = true) ∧
      ∀ call : Call, ∃ after ok, call.run signedChar res = some (after, ok) ∧
        (call.isAddTags = false → ok = false → after.value = res.value) := by
  have start : Fits new := fun value member => by cases member
  obtain ⟨res, done, fits⟩ := runCalls_fits signedChar calls start
  refine ⟨res, done, fits, fun call => ?_⟩
  obtain ⟨attempt, ran, -, unchanged⟩ := call.run_spec signedChar res
  exact ⟨attempt.1, attempt.2, ran, unchanged⟩

end TypedResource

end Lcfg
