import LcfgCore.Library.Shell
import LcfgCore.Resources.Text

/-!
# Environment variables for resources

The names of the variables for the value and the type of a resource, and the shell commands
which export them (`resources/resource.c`).

## Main results

`length_exportLine`: a line has the length which is computed before it is written.
`toExport_evaluates`: the shell commands assign the value, and the type where there is one, and
do nothing else.
-/
namespace Lcfg

namespace TypedResource

/-- `LCFG_RESOURCE_ENV_VAL_PFX` -/
def envValPfx : String := "LCFG_%s_"

/-- `LCFG_RESOURCE_ENV_TYPE_PFX` -/
def envTypePfx : String := "LCFGTYPE_%s_"

/-- `lcfgutils_string_replace` with `LCFG_RESOURCE_ENV_PHOLDER`. -/
def replacePlaceHolder (compname : List Char) : List Char → List Char
  | '%' :: 's' :: rest => compname ++ replacePlaceHolder compname rest
  | c :: rest => c :: replacePlaceHolder compname rest
  | [] => []

/-- `lcfgresource_build_env_var` -/
def buildEnvVar (resname compname : Option String) (defaultBase : String)
    (base : Option String) : List Char :=
  let base := (base.getD defaultBase).toList
  let base := compname.elim base fun compname => replacePlaceHolder compname.toList base
  base ++ (resname.getD "").toList

/-- `lcfgresource_valid_env_var`; behind a leading underscore there must be a letter or digit. -/
def validEnvVar (name : List Char) : Bool :=
  match name with
  | [] => false
  | first :: rest =>
    (first.isAlpha || (first == '_' && rest.any Char.isAlphanum)) && rest.all isWord

def envFnName : List Char := "export".toList

/-- A quote within single quotes: they are closed, and it stands in double quotes. -/
def escaped : List Char := ['\'', '"', '\'', '"', '\'']

def escapeQuotes (text : List Char) : List Char :=
  text.flatMap fun c => if c = '\'' then escaped else [c]

/-- A command for the shell. -/
def exportLine (key text : List Char) : List Char :=
  envFnName ++ ' ' :: (key ++ ['=', '\''] ++ escapeQuotes text ++ ['\'', '\n'])

/-- The length of a command, as it is computed before it is written. -/
def exportLength (key text : List Char) : Nat :=
  envFnName.length + key.length + (text.length + text.count '\'' * (escaped.length - 1)) + 5

/-- The type is exported on demand, unless it is a string without a comment. -/
def exportsType (res : TypedResource) (options : LCFGOption) : Bool :=
  options.useMeta && (res.type ≠ .string || hasComment res)

/-- What has been written to the buffer, and the length which was reserved. -/
structure ExportText where
  text : List Char
  newLen : Nat
deriving DecidableEq

/-- `lcfgresource_to_export`; an error may come with a message. -/
def toExport (res : TypedResource) (compname valPfx typePfx : Option String)
    (options : LCFGOption) : Except (Option String) ExportText :=
  let failed (what : String) : Except (Option String) ExportText :=
    .error (some (buildMessage (some res) compname what))
  let built (base : String) := "Failed to build environment variable name from '" ++ base ++ "'"
  let invalid (key : List Char) := "Invalid environment variable name '" ++ String.ofList key ++ "'"
  if isValid res = false then .error none
  else
    let valKey := buildEnvVar res.name compname envValPfx valPfx
    if valKey = [] then failed (built (valPfx.getD envValPfx))
    else if validEnvVar valKey = false then failed (invalid valKey)
    else
      let value := if hasValue res then (res.value.getD "").toList else []
      let typeAsStr := if exportsType res options then getTypeAsString res false else []
      if typeAsStr = [] then
        .ok { text := exportLine valKey value, newLen := exportLength valKey value }
      else
        let typeKey := buildEnvVar res.name compname envTypePfx typePfx
        if typeKey = [] then failed (built (typePfx.getD envTypePfx))
        else if validEnvVar typeKey = false then failed (invalid typeKey)
        else if valKey = typeKey then
          failed "Must not have identical environment variables for value and type information"
        else
          -- the type comes first, so that it is known when the value is loaded
          .ok { text := exportLine typeKey typeAsStr ++ exportLine valKey value,
                newLen := exportLength valKey value + exportLength typeKey typeAsStr }

/-- `lcfgresource_to_env`: the calls of `setenv`, and whether all went well. The value may have
been set when it turns out that there is no variable for the type. -/
def toEnv (res : TypedResource) (compname valPfx typePfx : Option String) (options : LCFGOption) :
    List Shell.Assignment × Bool :=
  let valKey := buildEnvVar res.name compname envValPfx valPfx
  if isValid res = false ∨ valKey = [] ∨ validEnvVar valKey = false then ([], false)
  else
    let value := (valKey, (orDefault res.value "").toList)
    let typeAsStr := if exportsType res options then getTypeAsString res false else []
    if typeAsStr = [] then ([value], true)
    else
      let typeKey := buildEnvVar res.name compname envTypePfx typePfx
      if typeKey = [] ∨ validEnvVar typeKey = false then ([value], false)
      else ([value, (typeKey, typeAsStr)], true)

/-! ## The names of variables -/

variable {res : TypedResource} {compname valPfx typePfx : Option String} {options : LCFGOption}

theorem isName_of_valid {name : List Char} (valid : validEnvVar name = true) :
    Shell.isName name = true := by
  cases name with
  | nil => cases valid
  | cons first rest =>
    rw [validEnvVar, Bool.and_eq_true, Bool.or_eq_true, Bool.and_eq_true] at valid
    rw [Shell.isName, Bool.and_eq_true, Bool.or_eq_true]
    constructor
    · rcases valid.1 with alpha | ⟨under, -⟩
      · exact Or.inl alpha
      · exact Or.inr under
    · exact valid.2

/-! ## The commands -/

theorem length_escapeQuotes (text : List Char) :
    (escapeQuotes text).length = text.length + text.count '\'' * (escaped.length - 1) := by
  have four : escaped.length = 5 := rfl
  induction text with
  | nil => rfl
  | cons c rest ih =>
    rw [escapeQuotes, four] at ih ⊢
    rw [List.flatMap_cons, List.length_append, ih, List.count_cons, List.length_cons]
    by_cases quote : c = '\''
    · simp only [quote, if_true, four, beq_self_eq_true]
      omega
    · simp only [if_neg quote, beq_iff_eq, List.length_singleton]
      omega

theorem length_exportLine (key text : List Char) :
    (exportLine key text).length = exportLength key text := by
  simp only [exportLine, exportLength, List.length_append, List.length_cons, List.length_nil,
    length_escapeQuotes]
  omega

/-- A quote in the text closes the single quotes, stands in double quotes and opens single
quotes again. -/
theorem read_escaped {s : Shell.State} (inside : s.quoting = .single) {word : List Char}
    (begun : s.word = some word) : Shell.read s escaped = some (s.push ['\'']) := by
  cases s
  cases inside
  cases begun
  simp [escaped, Shell.read, Shell.step, Shell.State.push]

theorem read_escapeQuotes {s : Shell.State} (inside : s.quoting = .single) {word : List Char}
    (begun : s.word = some word) (text : List Char) :
    Shell.read s (escapeQuotes text) = some (s.push text) := by
  induction text generalizing s word with
  | nil =>
    rw [Shell.State.push_nil begun]
    rfl
  | cons c rest ih =>
    have first : Shell.read s (if c = '\'' then escaped else [c]) = some (s.push [c]) := by
      by_cases quote : c = '\''
      · rw [if_pos quote, quote]
        exact read_escaped inside begun
      · rw [if_neg quote, Shell.read_cons, Shell.step_single inside quote]
        rfl
    rw [escapeQuotes, List.flatMap_cons, Shell.read_append, first, Option.bind_some]
    have later := ih (s := s.push [c]) inside rfl
    rw [escapeQuotes] at later
    rw [later, Shell.State.push_push, List.singleton_append]

/-- The value in its quotes is one word. -/
theorem read_quoted (text : List Char) (s : Shell.State) (outside : s.quoting = .none)
    (begun : s.word ≠ none) :
    Shell.read s ('\'' :: (escapeQuotes text ++ ['\''])) = some (s.push text) := by
  obtain ⟨word, begun⟩ := Option.ne_none_iff_exists'.mp begun
  have opens : Shell.step s '\'' = some { s with quoting := .single } := by
    rw [Shell.step, outside, Shell.State.push_nil begun]
    rfl
  have middle := read_escapeQuotes (s := { s with quoting := .single }) rfl begun text
  rw [Shell.read_cons, opens, Option.bind_some, Shell.read_append, middle, Option.bind_some,
    Shell.read_cons]
  have closes : Shell.step (Shell.State.push { s with quoting := .single } text) '\'' =
      some { s.push text with quoting := .none } := rfl
  rw [closes, Option.bind_some, Shell.read_nil]
  cases s
  cases outside
  rfl

theorem assigns_exportLine {key : List Char} (valid : validEnvVar key = true) (text : List Char) :
    Shell.Assigns (exportLine key text) [(key, text)] := by
  have assigns := Shell.assigns_export (isName_of_valid valid) (read_quoted text)
  have export_ : envFnName = Shell.exportName := by decide
  have same : exportLine key text = Shell.exportName ++
      ' ' :: (key ++ '=' :: (('\'' :: (escapeQuotes text ++ ['\''])) ++ ['\n'])) := by
    simp only [exportLine, export_, List.append_assoc, List.cons_append, List.nil_append]
  rw [same]
  exact assigns

/-- The assignments of the commands: the type, if it is exported, and the value. -/
def exportedAssignments (res : TypedResource) (compname valPfx typePfx : Option String)
    (options : LCFGOption) : List Shell.Assignment :=
  (if exportsType res options then
    [(buildEnvVar res.name compname envTypePfx typePfx, getTypeAsString res false)] else []) ++
  [(buildEnvVar res.name compname envValPfx valPfx, (res.value.getD "").toList)]

theorem value_of_hasValue (res : TypedResource) :
    (if hasValue res then (res.value.getD "").toList else []) = (res.value.getD "").toList := by
  split
  case isTrue => rfl
  case isFalse missing =>
    have empty : isEmpty res.value = true := by simpa [hasValue] using missing
    rw [(isEmpty_iff _).mp empty]
    rfl

theorem assigns_lines {assignments : List Shell.Assignment}
    (valid : ∀ assignment ∈ assignments, validEnvVar assignment.1 = true) :
    Shell.Assigns (assignments.flatMap fun assignment => exportLine assignment.1 assignment.2)
      assignments := by
  induction assignments with
  | nil => exact Shell.Assigns.nil
  | cons first rest ih =>
    have line := assigns_exportLine (valid first List.mem_cons_self) first.2
    have lines := ih fun assignment member => valid assignment (List.mem_cons_of_mem _ member)
    exact line.append lines

/-- No variable can be used for the value or for the type. -/
def NoVariable (res : TypedResource) (compname valPfx typePfx : Option String)
    (options : LCFGOption) : Prop :=
  let valKey := buildEnvVar res.name compname envValPfx valPfx
  let typeKey := buildEnvVar res.name compname envTypePfx typePfx
  validEnvVar valKey = false ∨
    exportsType res options = true ∧ (validEnvVar typeKey = false ∨ valKey = typeKey)

/-- A call fails because of the variables, or writes one line for each assignment. -/
theorem toExport_cases (compname valPfx typePfx : Option String) (options : LCFGOption)
    (valid : isValid res = true) :
    (NoVariable res compname valPfx typePfx options ∧
      ∃ msg, toExport res compname valPfx typePfx options = .error msg) ∨
    ¬ NoVariable res compname valPfx typePfx options ∧
      ∃ out, toExport res compname valPfx typePfx options = .ok out ∧
        out.text = (exportedAssignments res compname valPfx typePfx options).flatMap
          (fun assignment => exportLine assignment.1 assignment.2) ∧
        out.newLen = out.text.length := by
  have named : (isValid res = false) = False := by simp [valid]
  rw [NoVariable, toExport, exportedAssignments]
  simp only [named, if_false, value_of_hasValue]
  -- without a valid name of a variable nothing is written
  by_cases empty : buildEnvVar res.name compname envValPfx valPfx = []
  · rw [if_pos empty, empty]
    exact Or.inl ⟨Or.inl rfl, _, rfl⟩
  rw [if_neg empty]
  by_cases invalid : validEnvVar (buildEnvVar res.name compname envValPfx valPfx) = false
  · rw [if_pos invalid]
    exact Or.inl ⟨Or.inl invalid, _, rfl⟩
  rw [if_neg invalid]
  by_cases typed : exportsType res options = true
  · -- the type is exported, in a variable of its own
    have someType : ¬ (getTypeAsString res false = []) := getTypeAsString_ne_nil false
    simp only [typed, if_true, if_neg someType, true_and]
    by_cases typeEmpty : buildEnvVar res.name compname envTypePfx typePfx = []
    · rw [if_pos typeEmpty, typeEmpty]
      exact Or.inl ⟨Or.inr (Or.inl rfl), _, rfl⟩
    rw [if_neg typeEmpty]
    by_cases typeInvalid : validEnvVar (buildEnvVar res.name compname envTypePfx typePfx) = false
    · rw [if_pos typeInvalid]
      exact Or.inl ⟨Or.inr (Or.inl typeInvalid), _, rfl⟩
    rw [if_neg typeInvalid]
    by_cases same : buildEnvVar res.name compname envValPfx valPfx =
        buildEnvVar res.name compname envTypePfx typePfx
    · rw [if_pos same]
      exact Or.inl ⟨Or.inr (Or.inr same), _, rfl⟩
    rw [if_neg same]
    refine Or.inr ⟨?_, _, rfl, ?_, ?_⟩
    · rintro (absent | absent | absent)
      · exact invalid absent
      · exact typeInvalid absent
      · exact same absent
    · simp
    · rw [List.length_append, length_exportLine, length_exportLine, Nat.add_comm]
  · -- the value only
    simp only [typed, Bool.false_eq_true, if_false, if_true, false_and, or_false]
    refine Or.inr ⟨invalid, _, rfl, ?_, ?_⟩
    · simp
    · rw [length_exportLine]

/-- The commands assign the value, and the type where it is exported, and do nothing else; there
are none only where a variable has no valid name. -/
theorem toExport_evaluates (compname valPfx typePfx : Option String) (options : LCFGOption)
    (valid : isValid res = true) :
    match toExport res compname valPfx typePfx options with
    | .error _ => NoVariable res compname valPfx typePfx options
    | .ok out =>
      Shell.evaluate out.text = some (exportedAssignments res compname valPfx typePfx options) ∧
        out.newLen = out.text.length := by
  rcases toExport_cases compname valPfx typePfx options valid with
    ⟨absent, msg, fails⟩ | ⟨names, out, written, lines, reserved⟩
  · rw [fails]
    exact absent
  · rw [written]
    -- only valid names reach the shell
    have keys : ∀ assignment ∈ exportedAssignments res compname valPfx typePfx options,
        validEnvVar assignment.1 = true := by
      intro assignment member
      rw [exportedAssignments, List.mem_append, List.mem_singleton] at member
      rw [NoVariable] at names
      rcases member with forType | rfl
      · split at forType
        case isTrue typed =>
          rw [List.mem_singleton.mp forType]
          by_contra invalid
          exact names (Or.inr ⟨typed, Or.inl (by simpa using invalid)⟩)
        case isFalse => cases forType
      · by_contra invalid
        exact names (Or.inl (by simpa using invalid))
    constructor
    · rw [lines]
      exact (assigns_lines keys).evaluate
    · exact reserved

/-- A value with a quote, a line break and a dollar, and a comment with a quote. -/
def quotedSample : TypedResource :=
  { TypedResource.new with
    name := some "motd", value := some "it's\n$HOME", comment := some "today's" }

theorem quotedSample_evaluates :
    isValid quotedSample = true ∧
    toExport quotedSample (some "client") none none { useMeta := true } = .ok
      { text := ("export LCFGTYPE_client_motd='string(today'\"'\"'s)'\n" ++
          "export LCFG_client_motd='it'\"'\"'s\n$HOME'\n").toList,
        newLen := 91 } ∧
    Shell.evaluate ("export LCFGTYPE_client_motd='string(today'\"'\"'s)'\n" ++
        "export LCFG_client_motd='it'\"'\"'s\n$HOME'\n").toList =
      some [("LCFGTYPE_client_motd".toList, "string(today's)".toList),
        ("LCFG_client_motd".toList, "it's\n$HOME".toList)] := by
  have written : toExport quotedSample (some "client") none none { useMeta := true } = .ok
      { text := ("export LCFGTYPE_client_motd='string(today'\"'\"'s)'\n" ++
          "export LCFG_client_motd='it'\"'\"'s\n$HOME'\n").toList,
        newLen := 91 } := by decide
  have evaluated := toExport_evaluates (some "client") none none { useMeta := true }
    (by decide : isValid quotedSample = true)
  rw [written] at evaluated
  refine ⟨by decide, written, evaluated.1.trans ?_⟩
  decide

/-- A string without a comment. -/
def plainSample : TypedResource :=
  { TypedResource.new with name := some "motd", value := some "hello" }

/-- For a string without a comment no type is exported. -/
theorem plainSample_untyped :
    toExport plainSample (some "client") none none { useMeta := true } = .ok
      { text := "export LCFG_client_motd='hello'\n".toList, newLen := 32 } ∧
    Shell.evaluate "export LCFG_client_motd='hello'\n".toList =
      some [("LCFG_client_motd".toList, "hello".toList)] ∧
    getTypeAsString plainSample false = "string".toList := by
  decide

end TypedResource

end Lcfg
