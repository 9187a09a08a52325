import LcfgCore.Context.Combine
import LcfgCore.DerivationContent
import LcfgCore.Resources.Substitute
import LcfgCore.Resources.TypeString

/-!
# What resources take from their surroundings

A resource of a profile gets its name from a template and the tags around it, adds a context
and a derivation to those of its parent, and has its priority from the contexts of the host
(`resources/resource.c`, `resources/templates.c`).

## Main results

`buildName_ends`: a name is made from the templates of a resource without any access out of
bounds. `Formed.evalPriority`: the context of a resource can always be evaluated.
-/
namespace Lcfg

namespace Template

/-- `lcfgtemplate_find` -/
def find (templates : List LCFGTemplate) (fieldName : String) : Option LCFGTemplate :=
  templates.find? fun template =>
    template.tmpl.isSome && fieldName.length == template.nameLen &&
      fieldName.toList == (text template).toList.take fieldName.length

/-- The templates of a resource. -/
def ofTexts (texts : List String) : List LCFGTemplate := texts.map fun text => (setTmpl {} text).1

end Template

namespace TypedResource

/-- `lcfgresource_build_name`: the name, or nothing and a message; nothing at all for an access out
of bounds. -/
def buildName (templates : List LCFGTemplate) (taglist : Option LCFGTagList) (fieldName : String) :
    Option (Except String String) :=
  match Template.find templates fieldName with
  | none => some (.error ("Failed to find template for field '" ++ fieldName ++ "'\n"))
  | some resTmpl =>
    match Template.substitute resTmpl taglist none with
    | .error msg => some (.error msg)
    | .ok none => none
    | .ok (some (_, buffer)) => some (.ok (String.ofList (Buffer.string '\x00' buffer 0)))

variable (compare : String → String → Int) (signedChar : Bool)

/-- `lcfgresource_add_context` -/
def addContext (res : TypedResource) (extraContext : Option String) : TypedResource × Bool :=
  if isEmpty extraContext then (res, true)
  else
    let newContext :=
      if hasContext res then Context.combineExpressions compare res.context extraContext
      else extraContext.getD ""
    setContext signedChar res (some newContext)

/-- `lcfgresource_add_derivation_string`, which succeeds even if the text is not understood. -/
def addDerivationString (res : TypedResource) (extraDeriv : Option String) : TypedResource × Bool :=
  if isEmpty extraDeriv then (res, true)
  else
    match DerivList.fromString (extraDeriv.getD "").toList with
    | .error _ => (res, true)
    | .ok extraDrvlist =>
      match DerivList.mergeList res.derivation extraDrvlist with
      | (_, .error) => (res, true)
      | (_, .none) => (res, true)
      | (clone, _) => ({ res with derivation := clone }, true)

/-- `valid_false_values` -/
def validFalseValues : List String := ["false", "no", "off", "0", ""]

/-- `valid_true_values` -/
def validTrueValues : List String := ["true", "yes", "on", "1"]

/-- `lcfgresource_canon_boolean` -/
def canonBoolean (value : String) : Option String :=
  if validBoolean value then some value
  else
    let value2 := String.ofList (value.toList.map Char.toLower)
    if validTrueValues.contains value2 then some "yes"
    else if validFalseValues.contains value2 then some ""
    else none

/-- `lcfgresource_eval_priority`, with the priority 0 where there is no context. -/
def evalPriority (ctxlist : LCFGContextList) (res : TypedResource) : TypedResource × Bool :=
  if hasContext res then
    let eval := Context.evalExpression signedChar ctxlist (res.context.getD "")
    if eval.ok then setPriority res eval.result else (res, false)
  else setPriority res 0

def isActive (res : TypedResource) : Bool := 0 ≤ res.priority

/-- The priority which a context has for the contexts of a host. -/
def contextPriority (ctxlist : LCFGContextList) (context : Option String) : Int :=
  if isEmpty context then 0
  else (Context.evalExpression signedChar ctxlist (context.getD "")).result

/-! ## Names -/

section Names

open Template (Filled)

variable {template : LCFGTemplate} {taglist : LCFGTagList}

theorem mem_assemble {text : List Char} {stop : Nat} {steps : List (Nat × String)}
    {acc : List Char} {c : Char} (member : c ∈ (Template.assemble text stop steps acc).2) :
    c ∈ text ∨ (∃ step ∈ steps, c ∈ step.2.toList) ∨ c ∈ acc := by
  induction steps generalizing stop acc with
  | nil => exact .inr (.inr member)
  | cons step steps ih =>
    rw [Template.assemble] at member
    rcases ih member with inText | ⟨later, inside, inTag⟩ | before
    · exact .inl inText
    · exact .inr (.inl ⟨later, List.mem_cons_of_mem _ inside, inTag⟩)
    · rcases List.mem_append.mp before with inTag | before
      · exact .inr (.inl ⟨step, List.mem_cons_self, inTag⟩)
      · rcases List.mem_append.mp before with static | before
        · exact .inl (List.mem_of_mem_drop (List.mem_of_mem_take static))
        · exact .inr (.inr before)

/-- The tags are put into a template without any access out of bounds. -/
theorem substitute_some (filled : Filled template taglist) :
    ∃ len buffer, Template.substitute template (some taglist) none = .ok (some (len, buffer)) := by
  have noNul (n : Nat) :
      '\x00' ∉ (Template.text template).toList.take n ++ (Template.rounds template taglist).2 := by
    intro nul
    rcases List.mem_append.mp nul with static | written
    · exact filled.noNul (List.mem_of_mem_take static) rfl
    · rcases mem_assemble written with static | ⟨step, inside, inTag⟩ | none_
      · exact filled.noNul static rfl
      · have tag := List.mem_reverse.mp (List.of_mem_zip inside).2
        exact (filled.inTag tag inTag).1 rfl
      · cases none_
  suffices offset : ∃ offset ≤ (Template.text template).length,
      offset + (Template.rounds template taglist).2.length =
        (Template.fill (Template.text template).toList (Template.lastTags template taglist)).length by
    obtain ⟨offset, inside, room⟩ := offset
    obtain ⟨buffer, done, -⟩ := filled.substitute_spec none room inside (noNul offset)
    exact ⟨_, buffer, done⟩
  obtain none_ | ⟨front, c, whole⟩ := (Template.text template).toList.eq_nil_or_concat'
  · exact absurd (by rw [none_]; rfl) filled.some_
  by_cases ends : c = Template.placeholder
  · obtain ⟨inside, result⟩ := filled.ends (ends ▸ whole)
    have room := congrArg List.length result
    rw [List.length_append, List.length_take, String.length_toList, Nat.min_eq_left inside] at room
    exact ⟨_, inside, room⟩
  · -- what is behind the last placeholder is one character short
    obtain ⟨inside, -, result⟩ := filled.continues ends whole
    have room := congrArg List.length result
    rw [List.length_append, List.length_take, String.length_toList,
      Nat.min_eq_left (Nat.le_of_lt inside)] at room
    have count := filled.pcount
    rw [whole, List.count_append, List.count_singleton, if_neg (by simpa using ends), Nat.add_zero]
      at count
    refine ⟨_, Nat.succ_le_of_lt inside, ?_⟩
    rw [whole, Template.fill_append_plain ends, List.length_append, List.length_singleton, ← room]
    omega

/-- What has been accepted is a template again. -/
theorem ofTexts_accepted {texts : List String} (accepted : Accepted texts) {template : LCFGTemplate}
    (member : template ∈ Template.ofTexts texts) :
    ∃ newTmpl, Template.setTmpl {} newTmpl = (template, true) := by
  obtain ⟨text, inside, rfl⟩ := List.mem_map.mp member
  rcases accepted with rfl | ⟨input, templates, read, rfl⟩
  · cases inside
  · obtain ⟨template, there, rfl⟩ := List.mem_map.mp inside
    have parsed := Template.fromString_parsed read template there
    rw [Template.Parsed, Template.parseToken, String.ofList_toList] at parsed
    refine ⟨Template.text template, ?_⟩
    split at parsed
    case h_1 => cases parsed
    case h_2 newTemplate done => rw [done]

/-- A name is made, or refused with a message. -/
theorem buildName_ends {texts : List String} (accepted : Accepted texts)
    {taglist : Option LCFGTagList} (valid : ∀ tag ∈ taglist.getD [], TagList.validTag tag = true)
    (fieldName : String) : (buildName (Template.ofTexts texts) taglist fieldName).isSome = true := by
  rw [buildName]
  split
  case h_1 => rfl
  case h_2 resTmpl found =>
    obtain ⟨newTmpl, set⟩ := ofTexts_accepted accepted (List.mem_of_find?_eq_some found)
    cases taglist with
    | none => rfl
    | some taglist =>
      by_cases few : taglist.length < resTmpl.pcount
      · have refused : Template.substitute resTmpl (some taglist) none = .error
            ("Insufficient tags for template '" ++ Template.text resTmpl ++ "'\n") := by
          rw [Template.substitute]
          exact if_pos few
        rw [refused]
        rfl
      · have filled : Filled resTmpl taglist :=
          Template.filled_of_accepted set valid (Nat.not_lt.mp few)
        obtain ⟨len, buffer, done⟩ := substitute_some filled
        rw [done]
        rfl

end Names

/-! ## Resources as the setters leave them -/

/-- Every field is as its setter accepts it. -/
structure Formed (signedChar : Bool) (res : TypedResource) : Prop where
  fits : res.value.all (validValueForType res.type) = true
  context : ∀ ctx ∈ res.context, validContext signedChar (some ctx) = true
  comment : ∀ comment ∈ res.comment, ')' ∉ comment.toList
  template : Accepted res.template
  derivation : DerivList.WellFormed res.derivation

namespace Formed

variable {compare : String → String → Int} {signedChar : Bool} {res : TypedResource}

theorem new : Formed signedChar TypedResource.new where
  fits := rfl
  context := fun ctx none_ => by cases none_
  comment := fun comment none_ => by cases none_
  template := .inl rfl
  derivation := ⟨fun drv inside => absurd inside List.not_mem_nil, List.nodup_nil⟩

theorem setType (formed : Formed signedChar res) (newType : LCFGResourceType) :
    Formed signedChar (setType res newType).1 := by
  rw [TypedResource.setType]
  split
  case isTrue => exact formed
  case isFalse =>
    split
    case isTrue fits => exact { formed with fits := fits }
    case isFalse => exact formed

theorem setValue (formed : Formed signedChar res) (newValue : Option String) :
    Formed signedChar (setValue res newValue).1 := by
  rw [TypedResource.setValue]
  split
  case isTrue valid =>
    obtain ⟨value, rfl, fits⟩ := (Option.any_eq_true _ _).mp valid
    exact { formed with fits := fits }
  case isFalse => exact formed

theorem setTemplateAsString (formed : Formed signedChar res) (newTmplStr : Option String) :
    Formed signedChar (setTemplateAsString res newTmplStr).res := by
  cases newTmplStr with
  | none => exact formed
  | some text =>
    rw [TypedResource.setTemplateAsString]
    split
    case isTrue => exact { formed with template := .inl rfl }
    case isFalse =>
      split
      case h_1 => exact formed
      case h_2 => exact formed
      case h_3 newTemplate _ read =>
        rw [setTemplate_parsed (Template.fromString_parsed read)]
        exact { formed with template := .inr ⟨text, newTemplate, read, rfl⟩ }

theorem setFoundComment (formed : Formed signedChar res) (typeStr : List Char) :
    Formed signedChar (setFoundComment res (cutComment typeStr).1).1 := by
  unfold TypedResource.setFoundComment
  split
  case h_1 c more found =>
    refine { formed with comment := fun comment same => ?_ }
    obtain rfl := Option.some_inj.mp same
    -- the comment goes up to the first bracket which closes
    rw [cutComment] at found
    split at found
    · cases found
    · split at found
      · cases found
      · rw [String.toList_ofList, ← Option.some_inj.mp found]
        intro member
        have apart := List.mem_takeWhile_imp member
        cases apart
  case h_2 => exact formed

theorem setTypeDetails (formed : Formed signedChar res) (newType : LCFGResourceType)
    (typeStr : List Char) : Formed signedChar (setTypeDetails res newType typeStr).res := by
  have commented := formed.setFoundComment typeStr
  rw [TypedResource.setTypeDetails]
  dsimp only
  split
  case isTrue =>
    split
    case h_1 => exact commented
    case h_2 =>
      split
      case isTrue => exact commented
      case isFalse => exact commented.setTemplateAsString _
  case isFalse => exact commented

theorem setTypeAsString (formed : Formed signedChar res) (typeStr : Option String) :
    Formed signedChar (setTypeAsString res typeStr).res := by
  rw [TypedResource.setTypeAsString]
  dsimp only
  split
  case isTrue => exact formed.setType .string
  case isFalse =>
    split
    case h_1 => exact formed
    case h_2 newType _ =>
      have typed := formed.setType newType
      split
      case h_1 done =>
        rw [done] at typed
        exact typed
      case h_2 done =>
        rw [done] at typed
        exact typed.setTypeDetails _ _

theorem setContext (formed : Formed signedChar res) (newCtx : String) :
    Formed signedChar (setContext signedChar res (some newCtx)).1 := by
  rw [TypedResource.setContext]
  split
  case isTrue valid =>
    refine { formed with context := fun ctx same => ?_ }
    obtain rfl := Option.some_inj.mp same
    exact valid.resolve_left (by simp)
  case isFalse => exact formed

theorem addContext (formed : Formed signedChar res) (extraContext : Option String) :
    Formed signedChar (addContext compare signedChar res extraContext).1 := by
  rw [TypedResource.addContext]
  split
  case isTrue => exact formed
  case isFalse => exact formed.setContext _

theorem addDerivationString (formed : Formed signedChar res) (extraDeriv : Option String) :
    Formed signedChar (addDerivationString res extraDeriv).1 := by
  rw [TypedResource.addDerivationString]
  split
  case isTrue => exact formed
  case isFalse =>
    split
    case h_1 => exact formed
    case h_2 extraDrvlist read =>
      have adds := DerivList.mergeList_adds formed.derivation
        (DerivList.fromString_wellFormed read).entries
      split
      case h_1 => exact formed
      case h_2 => exact formed
      case h_3 clone change _ _ merged =>
        rw [merged] at adds
        exact { formed with derivation := adds.wf }

/-- A context which has been set can always be evaluated. -/
theorem evalPriority (formed : Formed signedChar res) (ctxlist : LCFGContextList) :
    evalPriority signedChar ctxlist res =
      ({ res with priority := contextPriority signedChar ctxlist res.context }, true) := by
  rw [TypedResource.evalPriority, contextPriority, hasContext]
  by_cases empty : isEmpty res.context = true
  · rw [empty]
    rfl
  · obtain ⟨ctx, given⟩ : ∃ ctx, res.context = some ctx := by
      cases given : res.context with
      | none => simp [isEmpty, given] at empty
      | some ctx => exact ⟨ctx, rfl⟩
    have valid := formed.context ctx given
    rw [validContext, Context.validExpression_iff_query] at valid
    have evaluated := (Context.evalExpression_ok_iff signedChar ctxlist ctx).mpr valid
    rw [if_pos (by simp [empty]), if_neg empty, given, Option.getD_some, if_pos evaluated,
      setPriority, ← given]

end Formed

end TypedResource

end Lcfg
