import LcfgCore.Library.Fields
import LcfgCore.Library.Substring
import LcfgCore.Common

/-!
# Templates

The templates of a list resource, with a placeholder for each tag
(`resources/templates.c`).

## Main result

`fromString_toString`: templates which have been read from a text are written and read back
as they were.
-/
namespace Lcfg

/-- `LCFG_TAGS_MAX_DEPTH` -/
def tagsMaxDepth : Nat := 5

/-- A template; the fields after the first are found when its text is set. -/
structure LCFGTemplate where
  tmpl : Option String := none
  tmplLen : Nat := 0
  nameLen : Nat := 0
  places : List Int := List.replicate tagsMaxDepth (-1)
  pcount : Nat := 0
deriving DecidableEq

namespace Template

/-- `LCFG_TEMPLATE_PLACEHOLDER` -/
def placeholder : Char := '$'

/-- `lcfgresource_valid_template` -/
def validTemplate (tmpl : String) : Bool :=
  match tmpl.toList with
  | [] => false
  | first :: rest =>
    let pcount := rest.count placeholder
    first.isAlpha && rest.all (fun c => c == placeholder || isWord c) &&
      pcount ≤ tagsMaxDepth && 1 ≤ pcount

/-- One round of the loop which caches the places of the placeholders; `i` is the position. -/
def cachePlace (newTmpl : List Char) (template : LCFGTemplate) (i : Nat) : LCFGTemplate :=
  if newTmpl[i]? = some placeholder then
    -- beyond the array nothing is kept
    { template with pcount := template.pcount + 1, places := template.places.set template.pcount i }
  else template

/-- `lcfgtemplate_set_tmpl`: the name goes up to the first `_$`, and the places of the
placeholders are cached from the last one to the first. -/
def setTmpl (template : LCFGTemplate) (newTmpl : String) : LCFGTemplate × Bool :=
  if validTemplate newTmpl then
    match Substring.find ['_', placeholder] newTmpl.toList with
    | none => (template, false)
    | some nameLen =>
      let newTmplLen := newTmpl.length
      ((List.range newTmplLen).reverse.foldl (cachePlace newTmpl.toList)
        { template with tmpl := some newTmpl, tmplLen := newTmplLen, nameLen }, true)
  else (template, false)

def text (template : LCFGTemplate) : String := template.tmpl.getD ""

/-- `lcfgtemplate_to_string` -/
def toString (templates : List LCFGTemplate) (pre : Option String) (newline : Bool) : List Char :=
  (pre.getD "").toList ++ [' '].intercalate (templates.map fun template => (text template).toList) ++
    if newline then ['\n'] else []

def isDelimiter (c : Char) : Bool := " \n\r\t".toList.contains c

def parseToken (token : List Char) : Except String LCFGTemplate :=
  let newTmpl := String.ofList token
  match setTmpl {} newTmpl with
  | (_, false) => .error ("bad resource template '" ++ newTmpl ++ "'")
  | (newTemplate, true) => .ok newTemplate

/-- `lcfgtemplate_from_string` -/
def fromString (input : String) : Except String (List LCFGTemplate) :=
  if input = "" then .error "empty string"
  else (Fields.tokens isDelimiter input.toList).mapM parseToken

/-! ## Reading templates back -/

theorem foldl_cachePlace_tmpl (newTmpl : List Char) (positions : List Nat) (template : LCFGTemplate) :
    (positions.foldl (cachePlace newTmpl) template).tmpl = template.tmpl := by
  induction positions generalizing template with
  | nil => rfl
  | cons i positions ih =>
    rw [List.foldl_cons, ih, cachePlace]
    split <;> rfl

theorem validTemplate_iff {tmpl : String} : validTemplate tmpl = true ↔
    ∃ first rest, tmpl.toList = first :: rest ∧ first.isAlpha = true ∧
      (∀ c ∈ rest, c = placeholder ∨ isWord c = true) ∧
      rest.count placeholder ≤ tagsMaxDepth ∧ 1 ≤ rest.count placeholder := by
  rw [validTemplate]
  cases tmpl.toList with
  | nil => simp
  | cons first rest => simp [and_assoc]

/-- A text which has been accepted, and the template it gives. -/
theorem parseToken_ok {token : List Char} {template : LCFGTemplate}
    (parsed : parseToken token = .ok template) :
    validTemplate (String.ofList token) = true ∧ text template = String.ofList token := by
  rw [parseToken] at parsed
  split at parsed
  case h_1 => cases parsed
  case h_2 newTemplate done =>
    obtain rfl := Except.ok.inj parsed
    rw [setTmpl] at done
    split at done
    case isFalse => cases done
    case isTrue valid =>
      refine ⟨valid, ?_⟩
      split at done
      case h_1 => cases done
      case h_2 nameLen found =>
        obtain ⟨rfl, -⟩ := Prod.mk.inj done
        rw [text, foldl_cachePlace_tmpl, Option.getD_some]

/-- A template is a single token. -/
theorem validTemplate_plain {tmpl : String} (valid : validTemplate tmpl = true) :
    tmpl.toList ≠ [] ∧ ∀ c ∈ tmpl.toList, c = placeholder ∨ isWord c = true := by
  obtain ⟨first, rest, same, alpha, others, -⟩ := validTemplate_iff.mp valid
  rw [same]
  refine ⟨List.cons_ne_nil _ _, fun c member => ?_⟩
  rcases List.mem_cons.mp member with rfl | later
  · exact .inr (by simp [isWord, Char.isAlphanum, alpha])
  · exact others c later

theorem isSpace_of_plain {c : Char} (plain : c = placeholder ∨ isWord c = true) :
    isSpace c = false := by
  rcases plain with rfl | word
  · decide
  · exact isSpace_of_word word

theorem isSpace_of_isDelimiter {c : Char} (delimits : isDelimiter c = true) : isSpace c = true := by
  simp only [isDelimiter, List.contains_eq_mem, decide_eq_true_eq] at delimits
  have all : ∀ x ∈ " \n\r\t".toList, isSpace x = true := Fields.of_all (by decide)
  exact all c delimits

theorem isDelimiter_of_plain {c : Char} (plain : c = placeholder ∨ isWord c = true) :
    isDelimiter c = false := by
  rw [Bool.eq_false_iff]
  intro delimits
  have spaced := isSpace_of_isDelimiter delimits
  rw [isSpace_of_plain plain] at spaced
  cases spaced

/-- A template as it comes from its text. -/
def Parsed (template : LCFGTemplate) : Prop := parseToken (text template).toList = .ok template

theorem mapM_parseToken {tokens : List (List Char)} {templates : List LCFGTemplate}
    (parsed : tokens.mapM parseToken = .ok templates) : ∀ template ∈ templates, Parsed template := by
  induction tokens generalizing templates with
  | nil =>
    obtain rfl := Except.ok.inj parsed
    simp
  | cons token tokens ih =>
    rw [List.mapM_cons] at parsed
    cases first : parseToken token with
    | error msg =>
      rw [first] at parsed
      cases parsed
    | ok template =>
      cases later : tokens.mapM parseToken with
      | error msg =>
        rw [first, later] at parsed
        cases parsed
      | ok others =>
        rw [first, later] at parsed
        obtain rfl := Except.ok.inj parsed
        intro template' member
        rcases List.mem_cons.mp member with rfl | inside
        · rw [Parsed, (parseToken_ok first).2, String.toList_ofList, first]
        · exact ih later template' inside

theorem fromString_parsed {input : String} {templates : List LCFGTemplate}
    (accepted : fromString input = .ok templates) : ∀ template ∈ templates, Parsed template := by
  rw [fromString] at accepted
  split at accepted
  · cases accepted
  · exact mapM_parseToken accepted

theorem mapM_of_parsed {templates : List LCFGTemplate}
    (parsed : ∀ template ∈ templates, Parsed template) :
    (templates.map fun template => (text template).toList).mapM parseToken = .ok templates := by
  induction templates with
  | nil => rfl
  | cons template templates ih =>
    have first : parseToken (text template).toList = .ok template :=
      parsed template List.mem_cons_self
    rw [List.map_cons, List.mapM_cons, first,
      ih fun other member => parsed other (List.mem_cons_of_mem _ member)]
    rfl

theorem parsed_plain {template : LCFGTemplate} (parsed : Parsed template) :
    (text template).toList ≠ [] ∧
      ∀ c ∈ (text template).toList, c = placeholder ∨ isWord c = true := by
  have valid := (parseToken_ok parsed).1
  rw [String.ofList_toList] at valid
  exact validTemplate_plain valid

/-- What is written for templates begins with one of them. -/
theorem toString_first {templates : List LCFGTemplate}
    (parsed : ∀ template ∈ templates, Parsed template) (some_ : templates ≠ []) :
    ∃ c rest, toString templates none false = c :: rest ∧ (c = placeholder ∨ isWord c = true) := by
  obtain ⟨template, others, rfl⟩ := List.exists_cons_of_ne_nil some_
  obtain ⟨notNil, plain⟩ := parsed_plain (parsed template List.mem_cons_self)
  obtain ⟨c, rest, same⟩ := List.exists_cons_of_ne_nil notNil
  have first := plain c (same ▸ List.mem_cons_self)
  cases others with
  | nil => exact ⟨c, rest, by simp [toString, same], first⟩
  | cons next others =>
    refine ⟨c, rest ++ [' '] ++ [' '].intercalate ((next :: others).map fun template =>
      (text template).toList), ?_, first⟩
    simp [toString, same, List.intercalate_cons_cons]

theorem fromString_toString {templates : List LCFGTemplate}
    (parsed : ∀ template ∈ templates, Parsed template) (some_ : templates ≠ []) :
    fromString (String.ofList (toString templates none false)) = .ok templates := by
  obtain ⟨c, rest, begins, -⟩ := toString_first parsed some_
  have notEmpty : String.ofList (toString templates none false) ≠ "" := by
    intro empty
    have nothing := congrArg String.toList empty
    rw [String.toList_ofList, begins] at nothing
    cases nothing
  have tokens : Fields.tokens isDelimiter (toString templates none false) =
      templates.map fun template => (text template).toList := by
    have joined : toString templates none false =
        [' '].intercalate (templates.map fun template => (text template).toList) := by
      simp [toString]
    rw [joined]
    apply Fields.tokens_intercalate (by decide)
    intro part member
    obtain ⟨template, inside, rfl⟩ := List.mem_map.mp member
    obtain ⟨notNil, plain⟩ := parsed_plain (parsed template inside)
    exact ⟨notNil, fun x there => isDelimiter_of_plain (plain x there)⟩
  rw [fromString, if_neg notEmpty, String.toList_ofList, tokens, mapM_of_parsed parsed]

end Template

end Lcfg
