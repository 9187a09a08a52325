import LcfgCore.Context.Validity
import LcfgCore.Resources.Entities
import LcfgCore.Resources.Templates
import LcfgCore.Resources.Text

/-!
# Setting the fields of a resource

The setters of `resources/resource.c`, those which read a text included. A string has one
character for each of its bytes.
-/
namespace Lcfg

namespace TypedResource

/-- What a setter gives: the resource afterwards, its result and the message it has built. -/
structure Attempt where
  res : TypedResource
  ok : Bool
  msg : Option String := none

/-! ## Types and values -/

/-- A value can only be kept if it is valid for the new type. -/
def setType (res : TypedResource) (newType : LCFGResourceType) : TypedResource × Bool :=
  if res.type = newType then (res, true)
  else if res.value.all (validValueForType newType) then ({ res with type := newType }, true)
  else (res, false)

def setComment (res : TypedResource) (newComment : Option String) : TypedResource × Bool :=
  ({ res with comment := newComment }, true)

/-- `lcfgresource_set_template`; only the first template is checked. -/
def setTemplate (res : TypedResource) (newTmpl : List LCFGTemplate) : TypedResource × Bool :=
  if newTmpl.head?.all fun template => template.tmpl.isSome then
    ({ res with template := newTmpl.map Template.text }, true)
  else (res, false)

/-- `lcfgresource_set_type_default` clears the templates and the comment as well. -/
def setTypeDefault (res : TypedResource) : TypedResource × Bool :=
  if res.type ≠ .string then
    match setType res .string with
    | (res, false) => (res, false)
    | (res, true) =>
      let (res, tmplOk) := setTemplate res []
      let (res, cmtOk) := setComment res none
      (res, tmplOk && cmtOk)
  else (res, true)

def validValue (res : TypedResource) (value : Option String) : Bool :=
  value.any (validValueForType res.type)

def setValue (res : TypedResource) (newValue : Option String) : TypedResource × Bool :=
  if validValue res newValue then ({ res with value := newValue }, true) else (res, false)

def unsetValue (res : TypedResource) : TypedResource × Bool := ({ res with value := none }, true)

/-! ## Types as texts -/

/-- `lcfgresource_set_template_as_string`; the text may have no template at all. -/
def setTemplateAsString (res : TypedResource) (newTmplStr : Option String) : Attempt :=
  match newTmplStr with
  | none => { res, ok := false }
  | some newTmplStr =>
    if newTmplStr = "" then
      let (res, ok) := setTemplate res []
      { res, ok }
    else
      let invalid (reason : String) : Option String :=
        some ("Invalid template '" ++ newTmplStr ++ "': " ++ reason)
      match Template.fromString newTmplStr with
      | .error parseMsg => { res, ok := false, msg := invalid parseMsg }
      | .ok [] => { res, ok := false, msg := invalid "unknown error" }
      | .ok newTemplate =>
        match setTemplate res newTemplate with
        | (res, true) => { res, ok := true }
        | (res, false) => { res, ok := false, msg := invalid "unknown error" }

/-- The type which a text begins with; what follows the name is not looked at. -/
def typeOfText (typeStr : List Char) : Option LCFGResourceType :=
  if "integer".toList.isPrefixOf typeStr then some .integer
  else if "boolean".toList.isPrefixOf typeStr then some .boolean
  else if "list".toList.isPrefixOf typeStr then some .list
  else if "publish".toList.isPrefixOf typeStr then some .publish
  else if "subscribe".toList.isPrefixOf typeStr then some .subscribe
  else if "string".toList.isPrefixOf typeStr then some .string
  else none

/-- The comment in the first brackets, and the text from where the search goes on. -/
def cutComment (typeStr : List Char) : Option (List Char) × List Char :=
  match typeStr.dropWhile (· != '(') with
  | [] => (none, typeStr)
  | _ :: rest =>
    match rest.dropWhile (· != ')') with
    | [] => (none, typeStr)
    | _ :: posn => (some (rest.takeWhile (· != ')')), posn)

/-- Sets the comment which has been found, unless it is empty. -/
def setFoundComment (res : TypedResource) (comment : Option (List Char)) : TypedResource × Bool :=
  match comment with
  | some (c :: more) => setComment res (some (String.ofList (c :: more)))
  | _ => (res, true)

/-- The comment and the templates of a type which has been set. -/
def setTypeDetails (res : TypedResource) (newType : LCFGResourceType) (typeStr : List Char) :
    Attempt :=
  let (comment, posn) := cutComment typeStr
  let (res, ok) := setFoundComment res comment
  if ok && newType = .list then
    match Substring.find [':', ' '] posn with
    | none => { res, ok }
    | some tmplStart =>
      let tmpl := (posn.drop (tmplStart + 2)).dropWhile isSpace
      if tmpl = [] then { res, ok } else setTemplateAsString res (some (String.ofList tmpl))
  else { res, ok }

/-- `lcfgresource_set_type_as_string`; a text without any type stands for the default type. -/
def setTypeAsString (res : TypedResource) (typeStr : Option String) : Attempt :=
  let typeStr := (typeStr.getD "").toList.dropWhile isSpace
  if typeStr = [] then
    let (res, ok) := setType res .string
    { res, ok }
  else
    let typeStr := if typeStr.head? = some '%' then typeStr.tail else typeStr
    match typeOfText typeStr with
    | none =>
      { res, ok := false, msg := some ("invalid resource type '" ++ String.ofList typeStr ++ "'") }
    | some newType =>
      match setType res newType with
      | (res, false) => { res, ok := false }
      | (res, true) => setTypeDetails res newType typeStr

/-! ## Other attributes -/

def validContext (signedChar : Bool) (ctx : Option String) : Bool :=
  (Context.validExpression signedChar ctx).1

def setContext (signedChar : Bool) (res : TypedResource) (newCtx : Option String) :
    TypedResource × Bool :=
  if newCtx = none ∨ validContext signedChar newCtx = true then
    ({ res with context := newCtx }, true)
  else (res, false)

/-- `lcfgresource_set_derivation_as_string`; a missing text unsets the derivation. -/
def setDerivationAsString (res : TypedResource) (newDeriv : Option String) :
    TypedResource × Bool :=
  match newDeriv with
  | none => ({ res with derivation := [] }, true)
  | some newDeriv =>
    match DerivList.fromString newDeriv.toList with
    | .error _ => (res, false)
    | .ok newDrvlist => ({ res with derivation := newDrvlist }, true)

def setPriority (res : TypedResource) (newPrio : Int) : TypedResource × Bool :=
  ({ res with priority := newPrio }, true)

/-- `atoi`, which cuts the result of `strtol` to 32 bits. -/
def atoi (s : List Char) : Int := (strtol10 s).bmod (2 ^ 32)

/-- `lcfgutils_decode_html_entities_utf8`, with the text up to the first NUL afterwards. -/
def decodeHtmlEntities (text : List Char) : List Char :=
  let buffer := text.map Char.toUInt8 ++ [0]
  (Buffer.string 0 (Entities.decodeHtmlEntitiesUtf8 buffer).1 0).map Char.ofUInt8

/-- The attribute for a symbol; any other character stands for the value. -/
def Symbol.ofChar (typeSymbol : Char) : Symbol :=
  if typeSymbol = '#' then .derivation
  else if typeSymbol = '%' then .type
  else if typeSymbol = '=' then .context
  else if typeSymbol = '^' then .priority
  else .value

/-- `strndup` -/
def strndup (text : String) (n : Nat) : List Char := (text.toList.takeWhile (· ≠ '\x00')).take n

/-- `lcfgresource_set_attribute`; of the value, only the first characters are read. -/
def setAttribute (signedChar : Bool) (res : TypedResource) (typeSymbol : Char) (value : String)
    (valueLen : Nat) : Attempt :=
  let valueCopy := strndup value valueLen
  let given (text : List Char) : Option String :=
    if 0 < valueLen then some (String.ofList text) else none
  let invalid (attrName : String) (text : List Char) (attempt : TypedResource × Bool) : Attempt :=
    { res := attempt.1, ok := attempt.2,
      msg := if attempt.2 then none
        else some ("Invalid " ++ attrName ++ " '" ++ (given text).getD "(empty string)" ++ "'") }
  match Symbol.ofChar typeSymbol with
  | .derivation => invalid "derivation" valueCopy (setDerivationAsString res (given valueCopy))
  | .type =>
    if 0 < valueLen then
      let attempt := setTypeAsString res (given valueCopy)
      if attempt.ok = false ∧ attempt.msg = none then
        invalid "type" valueCopy (attempt.res, attempt.ok)
      else attempt
    else invalid "type" valueCopy (setTypeDefault res)
  | .context => invalid "context" valueCopy (setContext signedChar res (given valueCopy))
  | .priority =>
    invalid "priority" valueCopy
      (if 0 < valueLen then
        if validInteger (String.ofList valueCopy) then setPriority res (atoi valueCopy)
        else (res, false)
      else setPriority res 0)
  | .value =>
    let decoded := decodeHtmlEntities valueCopy
    invalid "value" decoded
      (setValue res (some (if 0 < valueLen then String.ofList decoded else "")))

end TypedResource

end Lcfg
