import LcfgCore.Components.Loading
import LcfgCore.Library.QSort
import LcfgCore.Resources.Attributes
import LcfgCore.Resources.Key

/-!
# Status files

A component is written to a status file with a value line, a type line and a derivation
line for each resource, and read from one line by line (`lcfgcomponent_print`,
`lcfgcomponent_from_status_file`).

## Main results

`readLine_parsed`, `readLine_ok`: what a line does to the map from names to resources.
`readAttributes`: the lines for one resource set its attributes one after another.
-/
namespace Lcfg

open ResList (Plain)
open TypedResource (Attempt Symbol keyText parseSpec setAttribute)

/-! ## Writing -/

namespace PlainComponent

/-- The options which the writers of resources look at. -/
def specOptions (options : LCFGOption) : SpecOptions where
  noPrefix := options.noPrefix
  noValue := options.noValue
  encode := options.encode
  noContext := options.noContext
  newline := options.newline

variable (res : Addr → TypedResource)

/-- `lcfgreslist_print` in the style for status files. -/
def printList (comp : PlainComponent) (options : LCFGOption) (list : Plain) :
    Option (List Char) :=
  let items := if options.allPriorities then list.items else list.items.take 1
  let shown := (items.map res).filter fun r => options.allValues || TypedResource.hasValue r
  (shown.mapM fun r =>
    TypedResource.toStatus r comp.name (specOptions options) options.useMeta).map List.flatten

/-- `lcfgcomponent_entry_cmp`, for the lists of the entries. -/
def listCmp (list1 list2 : Plain) : Int :=
  strcasecmp ((key (base res) list1).getD "") ((key (base res) list2).getD "")

/-- A text which `lcfgcomponent_print` may write in the style for status files. -/
def Prints (comp : PlainComponent) (options : LCFGOption) (text : List Char) : Prop :=
  if isEmpty (some comp) then text = []
  else
    ∃ sorted, QSort.Sorts (listCmp res) (LinearProbe.stored comp.resources) sorted ∧
      (sorted.mapM (printList res comp options)).map List.flatten = some text

end PlainComponent

/-! ## Reading -/

/-- What `fopen` finds. -/
inductive StatusFile where
  | missing
  | unreadable
  | contents (text : List Char)

/-- `lcfgutils_basename` without a suffix. -/
def basename (path : String) : Option String :=
  if path = "" then none
  else
    match path.toList.rdropWhile (· == '/') with
    | [] => some "/"
    | text => some (String.ofList (text.rtakeWhile (· != '/')))

/-- `lcfgutils_string_chomp`, which keeps the first character. -/
def chomp : List Char → List Char
  | [] => []
  | c :: rest => c :: rest.rdropWhile fun d => d == '\r' || d == '\n'

/-- What the loop over the lines keeps. -/
structure Reader where
  loading : Loading
  recent : Option Addr

namespace Reader

variable (hash : String → Nat) (signedChar : Bool)

/-- The resource which a line is about: often the one of the line before. -/
def target (s : Reader) (resname : String) : Loading × LCFGChange × Option Addr :=
  match s.recent.filter fun a => Resource.isMatch (base s.loading.res a) resname with
  | some a => (s.loading, .none, some a)
  | none => Loading.findOrCreateResource hash s.loading resname

/-- One round of the loop in `lcfgcomponent_from_status_file`. -/
def readLine (options : LCFGOption) (statusfile compName : String) (linenum : Nat) (s : Reader)
    (piece : List Char) : Except String Reader :=
  let failed (what : String) : Except String Reader :=
    .error ("Failed to " ++ what)
  let line := "line " ++ Nat.repr linenum
  match parseSpec (chomp (piece.takeWhile (· ≠ '\x00'))) with
  | .error parseMsg => failed ("parse " ++ line ++ " (" ++ parseMsg ++ ")")
  | .ok (spec, value) =>
    let thisCompname := spec.compname.map String.ofList
    if options.useMeta = false ∧ spec.type ≠ '\x00' ∧ spec.type ≠ '%' then .ok s
    else if thisCompname.isSome ∧
        (Resource.validName thisCompname = false ∨ thisCompname ≠ some compName) then
      failed ("parse " ++ line ++ " (invalid component name '" ++ thisCompname.getD "" ++ "')")
    else
      let (loading, findRc, found) := target hash s (String.ofList spec.resname)
      match found.filter fun _ => findRc.isOk with
      | none => failed ("parse " ++ line ++ " of status file '" ++ statusfile ++ "'")
      | some a =>
        let attempt := setAttribute signedChar (loading.res a) spec.type (String.ofList value)
          value.length
        if attempt.ok then .ok ⟨loading.change a attempt.res, some a⟩
        else
          match attempt.msg with
          | some setMsg => failed ("process " ++ line ++ " (" ++ setMsg ++ ")")
          | none => failed ("process " ++ line ++ " (bad value '" ++ String.ofList value ++
              "' for type '" ++ String.singleton spec.type ++ "')")

def readLines (options : LCFGOption) (statusfile compName : String) :
    Nat → Reader → List (List Char) → Except String Reader
  | _, s, [] => .ok s
  | linenum, s, piece :: rest =>
    match readLine hash signedChar options statusfile compName linenum s piece with
    | .error msg => .error msg
    | .ok s => readLines options statusfile compName (linenum + 1) s rest

/-- `lcfgcomponent_from_status_file` -/
def fromStatusFile (filename : String) (file : StatusFile) (compnameIn : Option String)
    (options : LCFGOption) : Except String Loading :=
  let compName := compnameIn <|> basename filename
  if Resource.validName compName then
    let comp := Loading.new (compName.getD "")
    let about (what : String) : Except String Loading :=
      .error ("Component status file '" ++ filename ++ "' " ++ what)
    match file with
    | .missing => if options.allowNoExist then .ok comp else about "does not exist"
    | .unreadable => about "is not readable"
    | .contents text =>
      (readLines hash signedChar options filename (compName.getD "") 1 ⟨comp, none⟩
        (Fields.pieces (· == '\n') text)).map (·.loading)
  else .error ("Invalid name for component '" ++ compName.getD "(null)" ++ "'")

/-! ## What a line does -/

/-- The state before a line; `recent` is where its name is found. -/
structure Reads (compName : String) (s : Reader) (contents : String → Option TypedResource) :
    Prop where
  holds : Loading.Holds hash compName s.loading contents
  recent : ∀ a ∈ s.recent, ∃ name, Loading.findResource hash s.loading name = some a

/-- The resource of a name, as it will be changed. -/
def current (contents : String → Option TypedResource) (name : String) : TypedResource :=
  (contents name).getD (TypedResource.newNamed name)

variable {hash} {signedChar} {options : LCFGOption} {statusfile compName : String}
  {linenum : Nat} {s s' : Reader} {contents : String → Option TypedResource}

theorem new_reads (compName : String) : Reads hash compName ⟨Loading.new compName, none⟩ fun _ => none :=
  ⟨Loading.new_holds compName, fun _ nothing => by cases nothing⟩

theorem Reads.current_name (reads : Reads hash compName s contents) (name : String) :
    (current contents name).name = some name := by
  rw [current]
  cases here : contents name with
  | none => rfl
  | some r => exact reads.holds.name_eq here

theorem Reads.target (reads : Reads hash compName s contents) {name : String}
    (valid : Resource.validName (some name) = true) :
    ∃ loading change a, target hash s name = (loading, change, some a) ∧ change.isOk = true ∧
      Loading.findResource hash loading name = some a ∧ loading.res a = current contents name ∧
      Loading.Holds hash compName loading (Function.update contents name (some (current contents name))) := by
  rw [Reader.target]
  cases here : s.recent.filter fun a => Resource.isMatch (base s.loading.res a) name with
  | none => exact reads.holds.findOrCreateResource valid
  | some a =>
    obtain ⟨recent, matches_⟩ := Option.filter_eq_some_iff.mp here
    obtain ⟨found, place⟩ := reads.recent a recent
    have shown := reads.holds.findResource found
    rw [place, Option.map_some] at shown
    have named := reads.holds.name_eq shown.symm
    -- the resource has the name, and so it is where the name is found
    have same : found = name := by
      simpa [Resource.isMatch, base, named] using matches_
    subst same
    have now : s.loading.res a = current contents found := by
      rw [current, ← shown, Option.getD_some]
    refine ⟨s.loading, .none, a, rfl, rfl, place, now, ?_⟩
    rw [← now, shown, Function.update_eq_self]
    exact reads.holds

/-- The resource after an attribute has been set from the text of a line. -/
def withAttribute (signedChar : Bool) (res : TypedResource) (typeSymbol : Char)
    (value : List Char) : Option TypedResource :=
  (setAttribute signedChar res typeSymbol (String.ofList value) value.length).done

theorem Reads.set (reads : Reads hash compName s contents) {name : String}
    (valid : Resource.validName (some name) = true) {spec : TypedResource.ResourceKey}
    {value piece : List Char}
    (parsed : parseSpec (chomp (piece.takeWhile (· ≠ '\x00'))) = .ok (spec, value))
    (named : String.ofList spec.resname = name)
    (looked : ¬(options.useMeta = false ∧ spec.type ≠ '\x00' ∧ spec.type ≠ '%'))
    (comp : ¬((spec.compname.map String.ofList).isSome ∧
      (Resource.validName (spec.compname.map String.ofList) = false ∨
        spec.compname.map String.ofList ≠ some compName))) :
    match withAttribute signedChar (current contents name) spec.type value with
    | some r => ∃ s', readLine hash signedChar options statusfile compName linenum s piece = .ok s' ∧
        Reads hash compName s' (Function.update contents name (some r))
    | none => ∃ msg, readLine hash signedChar options statusfile compName linenum s piece = .error msg := by
  obtain ⟨loading, change, a, same, ok, place, now, holds⟩ := reads.target valid
  have given : (some a).filter (fun _ => change.isOk) = some a := by
    rw [Option.filter_some, if_pos ok]
  rw [readLine, parsed]
  simp only [if_neg looked, if_neg comp, named, same, given, now, withAttribute, Attempt.done]
  -- the attribute was set: the resource keeps its name, and so its place
  by_cases done : (setAttribute signedChar (current contents name) spec.type (String.ofList value)
      value.length).ok = true
  · simp only [if_pos done]
    have frame := TypedResource.setAttribute_frame signedChar (current contents name) spec.type
      (String.ofList value) value.length
    obtain ⟨changed, places⟩ := holds.change place (frame.1.trans (reads.current_name name))
    rw [Function.update_idem] at changed
    refine ⟨_, rfl, changed, fun b there => ⟨name, ?_⟩⟩
    rw [← Option.some_inj.mp there, places]
    exact place
  · simp only [if_neg done]
    split <;> exact ⟨_, rfl⟩

/-! ## What is read, whatever the lines are -/

/-- All derivations have been read from texts: no file has a delimiter in it. -/
def Delimited (contents : String → Option TypedResource) : Prop :=
  ∀ name r, contents name = some r → ∀ drv ∈ r.derivation,
    ∀ c ∈ (drv.file.getD "").toList, DerivList.isDelimiter c = false

theorem Delimited.update (delimited : Delimited contents) (signedChar : Bool) (name : String)
    (typeSymbol : Char) (value : List Char) {r : TypedResource}
    (set : withAttribute signedChar (current contents name) typeSymbol value = some r) :
    Delimited (Function.update contents name (some r)) := by
  intro name' r' here drv member
  by_cases same : name' = name
  · subst same
    rw [Function.update_self, Option.some_inj] at here
    subst here
    have frame := (TypedResource.setAttribute_frame signedChar (current contents name') typeSymbol
      (String.ofList value) value.length).2
    rw [withAttribute, Attempt.done] at set
    split at set
    case isFalse => cases set
    case isTrue =>
      rw [Option.some_inj] at set
      rw [set] at frame
      -- the derivation is the old one, none, or read from this line
      rcases frame with old | none_ | ⟨text, read⟩
      · rw [old, current] at member
        cases before : contents name' with
        | none =>
          rw [before] at member
          cases member
        | some r =>
          rw [before] at member
          exact delimited name' r before drv member
      · rw [none_] at member
        cases member
      · exact DerivList.fromString_delimited read drv member
  · rw [Function.update_of_ne same] at here
    exact delimited name' r' here drv member

theorem Reads.readLine_delimited (reads : Reads hash compName s contents) (delimited : Delimited contents)
    {piece : List Char}
    (goes : readLine hash signedChar options statusfile compName linenum s piece = .ok s') :
    ∃ contents', Reads hash compName s' contents' ∧ Delimited contents' := by
  cases parsed : parseSpec (chomp (piece.takeWhile (· ≠ '\x00'))) with
  | error parseMsg =>
    rw [readLine, parsed] at goes
    cases goes
  | ok pair =>
    obtain ⟨spec, value⟩ := pair
    -- lines for other symbols are skipped without the metadata
    by_cases looked : options.useMeta = false ∧ spec.type ≠ '\x00' ∧ spec.type ≠ '%'
    · rw [readLine, parsed] at goes
      simp only [if_pos looked] at goes
      cases goes
      exact ⟨contents, reads, delimited⟩
    · by_cases comp : (spec.compname.map String.ofList).isSome ∧
          (Resource.validName (spec.compname.map String.ofList) = false ∨
            spec.compname.map String.ofList ≠ some compName)
      · rw [readLine, parsed] at goes
        simp only [if_neg looked, if_pos comp] at goes
        cases goes
      · have set := @Reads.set hash signedChar options statusfile compName linenum s contents reads
          _ (TypedResource.parseSpec_valid parsed) spec value piece parsed rfl looked comp
        split at set
        case h_1 r here =>
          obtain ⟨after, same, reads'⟩ := set
          rw [goes, Except.ok.injEq] at same
          exact ⟨_, same ▸ reads', delimited.update signedChar _ _ _ here⟩
        case h_2 =>
          obtain ⟨msg, failed⟩ := set
          rw [goes] at failed
          cases failed

theorem Reads.readLines_delimited (reads : Reads hash compName s contents) (delimited : Delimited contents)
    {pieces : List (List Char)}
    (goes : readLines hash signedChar options statusfile compName linenum s pieces = .ok s') :
    ∃ contents', Reads hash compName s' contents' ∧ Delimited contents' := by
  induction pieces generalizing s contents linenum with
  | nil =>
    cases goes
    exact ⟨contents, reads, delimited⟩
  | cons piece rest ih =>
    rw [readLines] at goes
    split at goes
    case h_1 => cases goes
    case h_2 next step =>
      obtain ⟨contents', reads', delimited'⟩ := reads.readLine_delimited delimited step
      exact ih reads' delimited' goes

/-- Once a line has failed, nothing else matters. -/
theorem readLines_fails {before after : List (List Char)} {piece : List Char}
    (fails : ∀ linenum s, ∃ msg,
      readLine hash signedChar options statusfile compName linenum s piece = .error msg) :
    ∃ msg, readLines hash signedChar options statusfile compName linenum s
      (before ++ piece :: after) = .error msg := by
  induction before generalizing s linenum with
  | nil =>
    obtain ⟨msg, failed⟩ := fails linenum s
    exact ⟨msg, by rw [List.nil_append, readLines, failed]⟩
  | cons first before ih =>
    rw [List.cons_append, readLines]
    split
    case h_1 msg _ => exact ⟨msg, rfl⟩
    case h_2 => exact ih

/-! ## The lines of one resource -/

theorem chomp_line {line : List Char} (some_ : line ≠ []) (noNul : '\x00' ∉ line)
    (last : ∀ c ∈ line.getLast?, c ≠ '\r' ∧ c ≠ '\n') :
    chomp ((line ++ ['\n']).takeWhile (· ≠ '\x00')) = line := by
  have plain : ∀ c ∈ line ++ ['\n'], decide (c ≠ '\x00') = true := by
    intro c member
    refine decide_eq_true ?_
    rintro rfl
    rcases List.mem_append.mp member with inside | ends
    · exact noNul inside
    · cases List.mem_singleton.mp ends
  rw [List.takeWhile_eq_self_iff.mpr plain]
  obtain ⟨c, rest, rfl⟩ := List.exists_cons_of_ne_nil some_
  rw [List.cons_append, chomp, Fields.rdropWhile_append_of_pos (by simp)]
  refine congrArg _ (Fields.rdropWhile_eq_self fun d here => ?_)
  have other := last d (by rw [List.getLast?_cons, Option.mem_def.mp here]; rfl)
  simp [other.1, other.2]

/-- A line for an attribute of a resource. -/
def attributeLine (compName name : String) (attr : Symbol × List Char) : List Char :=
  attr.1.text ++ (keyText compName name ++ '=' :: attr.2)

/-- A text which is read from a line as it was written. -/
structure Readable (attr : Symbol × List Char) : Prop where
  symbol : attr.1 ≠ .context
  noNul : '\x00' ∉ attr.2
  last : ∀ c ∈ attr.2.getLast?, c ≠ '\r' ∧ c ≠ '\n'

theorem Readable.chomp (readable : Readable attr)
    (compValid : Resource.validName (some compName) = true) {name : String}
    (valid : Resource.validName (some name) = true) :
    Lcfg.chomp ((attributeLine compName name attr ++ ['\n']).takeWhile (· ≠ '\x00')) =
      attributeLine compName name attr := by
  have notNul : isWord '\x00' = false := by decide
  apply chomp_line
  -- neither end of a line has anything to trim
  · rw [attributeLine]
    simp
  · rw [attributeLine, keyText]
    simp only [List.mem_append, List.mem_cons]
    rintro (symbol | (inComp | dot | inName) | assign | inText)
    · revert symbol
      cases attr.1 <;> decide
    · exact TypedResource.name_free compValid notNul inComp
    · cases dot
    · exact TypedResource.name_free valid notNul inName
    · cases assign
    · exact readable.noNul inText
  · intro c ends
    rw [attributeLine, ← List.append_assoc, List.getLast?_append, List.getLast?_cons] at ends
    -- a line without a value ends in the equals sign
    cases textEnd : attr.2.getLast? with
    | none =>
      rw [textEnd] at ends
      obtain rfl : '=' = c := by simpa using ends
      decide
    | some d =>
      rw [textEnd] at ends
      obtain rfl : d = c := by simpa using ends
      exact readable.last d textEnd

theorem Reads.readAttribute (reads : Reads hash compName s contents)
    (compValid : Resource.validName (some compName) = true) {name : String}
    (valid : Resource.validName (some name) = true) (useMeta : options.useMeta = true)
    {attr : Symbol × List Char} (readable : Readable attr) :
    match withAttribute signedChar (current contents name) attr.1.char attr.2 with
    | some r => ∃ s', readLine hash signedChar options statusfile compName linenum s
          (attributeLine compName name attr ++ ['\n']) = .ok s' ∧
        Reads hash compName s' (Function.update contents name (some r))
    | none => ∃ msg, readLine hash signedChar options statusfile compName linenum s
          (attributeLine compName name attr ++ ['\n']) = .error msg := by
  have parsed := TypedResource.parseSpec_line compValid valid readable.symbol attr.2
  rw [← attributeLine, ← readable.chomp compValid valid] at parsed
  exact reads.set valid parsed (String.ofList_toList) (by simp [useMeta]) (by simp [compValid])

/-- The lines set one attribute after another. -/
theorem Reads.readAttributes (reads : Reads hash compName s contents)
    (compValid : Resource.validName (some compName) = true) {name : String}
    (valid : Resource.validName (some name) = true) (useMeta : options.useMeta = true)
    {attributes : List (Symbol × List Char)} (readable : ∀ attr ∈ attributes, Readable attr)
    (some_ : attributes ≠ []) :
    match attributes.foldlM (fun r attr =>
      withAttribute signedChar r attr.1.char attr.2) (current contents name) with
    | some r => ∃ s', readLines hash signedChar options statusfile compName linenum s
          (attributes.map fun attr => attributeLine compName name attr ++ ['\n']) = .ok s' ∧
        Reads hash compName s' (Function.update contents name (some r))
    | none => ∃ msg, readLines hash signedChar options statusfile compName linenum s
          (attributes.map fun attr => attributeLine compName name attr ++ ['\n']) =
        .error msg := by
  induction attributes generalizing s contents linenum with
  | nil => exact absurd rfl some_
  | cons attr rest ih =>
    have step := @Reads.readAttribute hash signedChar options statusfile compName linenum s contents
      reads compValid name valid useMeta attr (readable attr List.mem_cons_self)
    rw [List.foldlM_cons, List.map_cons, readLines]
    cases set : withAttribute signedChar (current contents name) attr.1.char attr.2 with
    | none =>
      rw [set] at step
      obtain ⟨msg, failed⟩ := step
      exact ⟨msg, by rw [failed]⟩
    | some r =>
      rw [set] at step
      obtain ⟨next, done, reads'⟩ := step
      -- the next attribute starts from the resource as it is now
      have now : current (Function.update contents name (some r)) name = r := by
        rw [current, Function.update_self, Option.getD_some]
      rw [done]
      dsimp only [bind, Option.bind_some]
      -- the last attribute leaves no lines to read
      cases rest with
      | nil => exact ⟨next, rfl, reads'⟩
      | cons other rest =>
        have later := @ih (linenum + 1) next _ reads' (fun a member =>
          readable a (List.mem_cons_of_mem _ member)) (List.cons_ne_nil _ _)
        rw [now] at later
        simp only [Function.update_idem] at later
        exact later

end Reader

end Lcfg
