import LcfgCore.Packages.Cpp

/-!
# Debian package indexes

`lcfgpackages_from_debian_index` reads an index line by line, with the package of the
current stanza beside it (`packages/container.c`). The stanzas of an index and what the
lines of one make of a package are stated apart from the loop.

## Main results

`fromDebianIndex_ok_iff`: when an index is read without an error, and what is then in the
container.

`fromDebianIndex_rejects_iff`: for which indexes all values were accepted then.
-/
namespace Lcfg

namespace Package

/-- `lcfgpackage_build_message`: what happened, with the specification of a valid package and
its derivation. -/
def buildMessage (d : DerivedPackage) (msgBase : String) : String :=
  let pkgAsStr := if isValid d.pkg then toSpec d.pkg none {} else none
  let msgMid := match pkgAsStr with
    | some spec => "for package '" ++ spec ++ "'"
    | none => "for package"
  let derivAsStr := DerivList.toString d.derivation
  msgBase ++ " " ++ msgMid ++
    if derivAsStr = [] then "" else " at " ++ String.ofList derivAsStr

/-- `lcfgpackage_set_derivation_as_string` -/
def setDerivationAsString (d : DerivedPackage) (newDeriv : List Char) : Option DerivedPackage :=
  match DerivList.fromString newDeriv with
  | .ok derivation => some { d with derivation }
  | .error _ => none

end Package

namespace PkgContainer

open Package (setName setVersion setRelease setArch setDerivationAsString buildMessage
  validName validVersion validRelease validArch)

/-! ## The lines of an index -/

/-- The lines which are looked at. -/
inductive IndexField where
  | package | version | architecture | filename | other
deriving DecidableEq, Repr

/-- The field of a line, and its value. -/
def indexField (line : List Char) : IndexField × List Char :=
  if "Package: ".toList.isPrefixOf line then (.package, line.drop 9)
  else if "Version: ".toList.isPrefixOf line then (.version, line.drop 9)
  else if "Architecture: ".toList.isPrefixOf line then (.architecture, line.drop 14)
  else if "Filename: ".toList.isPrefixOf line then (.filename, line.drop 10)
  else (.other, line)

/-- What stands before the last hyphen. -/
def versionPart (value : List Char) : List Char :=
  if value.contains '-' then (value.rdropWhile (· != '-')).dropLast else value

/-- What stands behind it; there is no release in a native package. -/
def releasePart (value : List Char) : Option (List Char) :=
  if value.contains '-' then some (value.rtakeWhile (· != '-')) else none

/-- The package, whether all went well, and the message. -/
abbrev FieldResult := DerivedPackage × Bool × Option String

/-- A value is set by one of the setters. -/
def setField (set : LCFGPackage → String → Option LCFGPackage) (what : String)
    (d : DerivedPackage) (value : List Char) (errorMsg : Option String) : FieldResult :=
  match set d.pkg (String.ofList value) with
  | some pkg => ({ d with pkg }, true, errorMsg)
  | none =>
    (d, false, some (buildMessage d ("Invalid " ++ what ++ " '" ++ String.ofList value ++ "'")))

def readVersion (d : DerivedPackage) (value : List Char) (errorMsg : Option String) :
    FieldResult :=
  let (d, ok, errorMsg) := setField setVersion "version" d (versionPart value) errorMsg
  match releasePart value with
  -- what came of the version is overwritten
  | some release => setField setRelease "release" d release errorMsg
  | none => (d, ok, errorMsg)

def readFilename (d : DerivedPackage) (filename : List Char) (errorMsg : Option String) :
    FieldResult :=
  match setDerivationAsString d filename with
  | some d => (d, true, errorMsg)
  | none =>
    (d, false, some (buildMessage d ("Invalid filename '" ++ String.ofList filename ++ "'")))

def readField (d : DerivedPackage) (line : List Char) (errorMsg : Option String) : FieldResult :=
  match indexField line with
  | (.package, value) => setField setName "name" d value errorMsg
  | (.version, value) => readVersion d value errorMsg
  | (.architecture, value) => setField setArch "architecture" d value errorMsg
  | (.filename, value) => readFilename d value errorMsg
  | (.other, _) => (d, true, errorMsg)

/-! ## The loop -/

/-- Why a file could not be opened. -/
inductive OpenError where
  | noEntry | other
deriving DecidableEq, Repr

/-- What the loop knows between two lines. -/
structure IndexReader (σ : Type) where
  pkgs : σ
  pkg : Option DerivedPackage := none
  curLine : Nat := 0
  change : LCFGChange := .none
  errorMsg : Option String := none

/-- What `getline` gave, without the blanks at its ends. -/
def indexLine (line : List Char) : List Char := trim (line.takeWhile (·.toNat ≠ 0))

section Reader

variable {σ : Type}
  -- the container, what the merge came to, and what becomes of the message
  (mergeFn : σ → DerivedPackage → σ × LCFGChange × (Option String → Option String))

def mergeInto (st : IndexReader σ) (d : DerivedPackage) : IndexReader σ :=
  let (pkgs, mergeStatus, setMsg) := mergeFn st.pkgs d
  { st with
    pkgs := pkgs
    pkg := none
    change := match mergeStatus with
      | .error => .error
      | .none => st.change
      | _ => .modified
    errorMsg := setMsg st.errorMsg }

/-- An empty line ends a stanza. -/
def readIndexLine (st : IndexReader σ) (line : List Char) : IndexReader σ :=
  let st := { st with curLine := (st.curLine + 1) % 2 ^ 32 }
  let line := indexLine line
  if line = [] then
    match st.pkg with
    | none => st
    | some d => mergeInto mergeFn st d
  else
    let (d, ok, errorMsg) := readField (st.pkg.getD { pkg := {} }) line st.errorMsg
    if ok then { st with pkg := some d, errorMsg := errorMsg }
    else { st with pkg := none, errorMsg := errorMsg, change := .error }

def readIndexLines (st : IndexReader σ) : List (List Char) → IndexReader σ
  | [] => st
  | line :: rest =>
    if st.change = .error then st else readIndexLines (readIndexLine mergeFn st line) rest

/-- The last stanza need not be followed by an empty line. -/
def finishIndex (st : IndexReader σ) : IndexReader σ :=
  match st.pkg with
  | none => st
  | some d => mergeInto mergeFn st d

/-- `lcfgpackages_from_debian_index`: the container, the result and the message. -/
def fromDebianIndex (filename : Option String) (file : Except OpenError (List Char)) (pkgs : σ)
    (options : LCFGOption) (msg : Option String) : σ × LCFGChange × Option String :=
  if isEmpty filename then (pkgs, .error, some "Invalid filename")
  else
    match file with
    | .error .noEntry =>
      if options.allowNoExist then (pkgs, .none, msg)
      else (pkgs, .error, some "File does not exist")
    | .error .other => (pkgs, .error, some "File is not readable")
    | .ok text =>
      let st := finishIndex mergeFn (readIndexLines mergeFn { pkgs := pkgs } (lines text))
      let place := "Error in '" ++ filename.getD "" ++ "' at line " ++ toString st.curLine
      (st.pkgs, st.change,
        if st.change = .error then
          some (match st.errorMsg with
            | none => place
            | some text => place ++ ": " ++ text)
        else msg)

end Reader

/-! ## The stanzas of an index -/

/-- The setters accept the name, the version, the release or the architecture in a line. -/
def accepted (line : List Char) : Bool :=
  match indexField line with
  | (.package, value) => validName (String.ofList value)
  | (.version, value) => validVersion (String.ofList (versionPart value)) &&
      (releasePart value).all fun release => validRelease (String.ofList release)
  | (.architecture, value) => validArch (String.ofList value)
  | _ => true

/-- The check on a line which is made last is passed. -/
def passes (line : List Char) : Bool :=
  match indexField line with
  | (.version, value) =>
    match releasePart value with
    | some release => validRelease (String.ofList release)
    | none => validVersion (String.ofList (versionPart value))
  | (.filename, value) => (DerivList.fromString value).isOk
  | _ => accepted line

/-- A version line whose version is not valid, while its release is. -/
def masks (line : List Char) : Bool :=
  match indexField line with
  | (.version, value) => !validVersion (String.ofList (versionPart value)) &&
      (releasePart value).any fun release => validRelease (String.ofList release)
  | _ => false

def indexLines (text : List Char) : List (List Char) := (lines text).map indexLine

/-- The lines between the empty ones. -/
def stanzas (text : List Char) : List (List (List Char)) :=
  Fields.tokens (fun line => decide (line = [])) (indexLines text)

/-- The package which the lines of a stanza specify. -/
def stanzaPackage (stanza : List (List Char)) : DerivedPackage :=
  stanza.foldl (fun d line => (readField d line none).1) { pkg := {} }

/-- All packages are merged, as long as none is refused. -/
def mergeAll {σ : Type}
    (mergeFn : σ → DerivedPackage → σ × LCFGChange × (Option String → Option String)) (pkgs : σ) :
    List DerivedPackage → σ × Bool
  | [] => (pkgs, true)
  | d :: rest =>
    match mergeFn pkgs d with
    | (pkgs, .error, _) => (pkgs, false)
    | (pkgs, _, _) => mergeAll mergeFn pkgs rest

/-! ## What one line does -/

section Line

variable {d : DerivedPackage} {line value : List Char} {errorMsg : Option String}

theorem setField_ok (set : LCFGPackage → String → Option LCFGPackage) (what : String) :
    (setField set what d value errorMsg).2.1 = (set d.pkg (String.ofList value)).isSome := by
  rw [setField]
  cases set d.pkg (String.ofList value) <;> rfl

theorem setField_package (set : LCFGPackage → String → Option LCFGPackage) (what : String) :
    (setField set what d value errorMsg).1 = (setField set what d value none).1 := by
  rw [setField, setField]
  cases set d.pkg (String.ofList value) <;> rfl

theorem setName_isSome (pkg : LCFGPackage) (newName : String) :
    (setName pkg newName).isSome = validName newName := by
  rw [setName]
  split
  case isTrue valid => exact valid.symm
  case isFalse invalid => exact (Bool.eq_false_iff.mpr invalid).symm

theorem setArch_isSome (pkg : LCFGPackage) (newArch : String) :
    (setArch pkg newArch).isSome = validArch newArch := by
  rw [setArch]
  split
  case isTrue valid => exact valid.symm
  case isFalse invalid => exact (Bool.eq_false_iff.mpr invalid).symm

theorem setVersion_isSome (pkg : LCFGPackage) (newVersion : String) :
    (setVersion pkg newVersion).isSome = validVersion newVersion := by
  rw [setVersion]
  cases validVersion newVersion <;> rfl

theorem setRelease_isSome (pkg : LCFGPackage) (newRelease : String) :
    (setRelease pkg newRelease).isSome = validRelease newRelease := by
  rw [setRelease]
  cases validRelease newRelease <;> rfl

/-- Only the last check on a line decides. -/
theorem readField_ok : (readField d line errorMsg).2.1 = passes line := by
  rw [readField, passes, accepted]
  rcases indexField line with ⟨field, value⟩
  cases field with
  | package => exact (setField_ok setName "name").trans (setName_isSome _ _)
  -- a version with a release sets both, and reports the release only
  | version =>
    change (readVersion d value errorMsg).2.1 = match releasePart value with
      | some release => validRelease (String.ofList release)
      | none => validVersion (String.ofList (versionPart value))
    rw [readVersion]
    cases releasePart value with
    | none => exact (setField_ok setVersion "version").trans (setVersion_isSome _ _)
    | some release => exact (setField_ok setRelease "release").trans (setRelease_isSome _ _)
  | architecture => exact (setField_ok setArch "architecture").trans (setArch_isSome _ _)
  | filename =>
    change (readFilename d value errorMsg).2.1 = (DerivList.fromString value).isOk
    rw [readFilename, setDerivationAsString]
    cases DerivList.fromString value <;> rfl
  | other => rfl

/-- The message which is there already does not matter to the package. -/
theorem readField_package : (readField d line errorMsg).1 = (readField d line none).1 := by
  rw [readField, readField]
  rcases indexField line with ⟨field, value⟩
  cases field with
  | package => exact setField_package setName "name"
  | version =>
    change (readVersion d value errorMsg).1 = (readVersion d value none).1
    rw [readVersion, readVersion]
    have first := @setField_package d (versionPart value) errorMsg setVersion "version"
    cases releasePart value with
    | none => exact first
    | some release =>
      change (setField setRelease "release" (setField setVersion "version" d (versionPart value)
          errorMsg).1 release _).1 = _
      rw [first]
      exact (setField_package setRelease "release").trans
        (setField_package setRelease "release").symm
  | architecture => exact setField_package setArch "architecture"
  | filename =>
    change (readFilename d value errorMsg).1 = (readFilename d value none).1
    rw [readFilename, readFilename]
    cases setDerivationAsString d value <;> rfl
  | other => rfl

/-- In a line which is passed nothing was rejected unless that was masked. -/
theorem accepted_iff_of_passes (passed : passes line = true) :
    accepted line = true ↔ masks line = false := by
  revert passed
  rw [passes, accepted, masks]
  rcases indexField line with ⟨field, value⟩
  intro passed
  cases field with
  | version =>
    simp only at passed ⊢
    cases released : releasePart value with
    | none =>
      rw [released] at passed
      simp [passed]
    | some release =>
      rw [released] at passed
      simp [passed]
  | package => simpa using passed
  | architecture => simpa using passed
  | filename => simp
  | other => simp

end Line

/-! ## What the loop does -/

section Loop

variable {σ : Type}
  {mergeFn : σ → DerivedPackage → σ × LCFGChange × (Option String → Option String)}

/-- The package of the lines of a stanza which were read so far. -/
def partPackage (part : List (List Char)) : Option DerivedPackage :=
  if part = [] then none else some (stanzaPackage part)

theorem partPackage_append (part : List (List Char)) (line : List Char) :
    partPackage (part ++ [line]) =
      some (readField ((partPackage part).getD { pkg := {} }) line none).1 := by
  have before : (partPackage part).getD { pkg := {} } = stanzaPackage part := by
    rw [partPackage]
    split
    case isTrue empty =>
      rw [empty]
      rfl
    case isFalse => rfl
  rw [before, partPackage, if_neg (by simp), stanzaPackage, List.foldl_append]
  rfl

theorem mergeAll_cons (pkgs : σ) (d : DerivedPackage) (rest : List DerivedPackage) :
    mergeAll mergeFn pkgs (d :: rest) =
      if (mergeFn pkgs d).2.1 = .error then ((mergeFn pkgs d).1, false)
      else mergeAll mergeFn (mergeFn pkgs d).1 rest := by
  rw [mergeAll]
  rcases mergeFn pkgs d with ⟨pkgs', change, setMsg⟩
  cases change <;> rfl

/-- The merges of the stanzas which are still to come. -/
def merges (mergeFn : σ → DerivedPackage → σ × LCFGChange × (Option String → Option String))
    (pkgs : σ) (part rest : List (List Char)) : σ × Bool :=
  mergeAll mergeFn pkgs
    ((Fields.tokens (fun line => decide (line = [])) (part ++ rest)).map stanzaPackage)

theorem merges_empty (pkgs : σ) (rest : List (List Char)) :
    merges mergeFn pkgs [] ([] :: rest) = merges mergeFn pkgs [] rest := by
  rw [merges, Fields.tokens_append_cons rfl]
  rfl

section Part

variable {part : List (List Char)} (some_ : part ≠ [])
  (filled : ∀ line ∈ part, decide (line = []) = false)

include some_ filled

theorem merges_last (pkgs : σ) :
    merges mergeFn pkgs part [] = mergeAll mergeFn pkgs [stanzaPackage part] := by
  rw [merges, List.append_nil, Fields.tokens_free some_ filled]
  rfl

theorem merges_part (pkgs : σ) (rest : List (List Char)) :
    merges mergeFn pkgs part ([] :: rest) =
      if (mergeFn pkgs (stanzaPackage part)).2.1 = .error then
        ((mergeFn pkgs (stanzaPackage part)).1, false)
      else merges mergeFn (mergeFn pkgs (stanzaPackage part)).1 [] rest := by
  rw [merges, Fields.tokens_append_cons rfl, Fields.tokens_free some_ filled]
  exact mergeAll_cons pkgs _ _

end Part

theorem mergeInto_change {st : IndexReader σ} (fine : st.change ≠ .error) (d : DerivedPackage) :
    (mergeInto mergeFn st d).change = .error ↔ (mergeFn st.pkgs d).2.1 = .error := by
  rw [mergeInto]
  rcases mergeFn st.pkgs d with ⟨pkgs, change, setMsg⟩
  cases change <;> simp [fine]

/-- After an error nothing more is read. -/
theorem readIndexLines_stopped {st : IndexReader σ} (failed : st.change = .error)
    (none_ : st.pkg = none) (rest : List (List Char)) :
    finishIndex mergeFn (readIndexLines mergeFn st rest) = st := by
  have stays : readIndexLines mergeFn st rest = st := by
    cases rest with
    | nil => rfl
    | cons line rest => rw [readIndexLines, if_pos failed]
  rw [stays, finishIndex, none_]

/-- How the loop ends from a state between two lines. -/
def Ends (mergeFn : σ → DerivedPackage → σ × LCFGChange × (Option String → Option String))
    (st : IndexReader σ) (part rest : List (List Char)) : Prop :=
  ((finishIndex mergeFn (readIndexLines mergeFn st rest)).change ≠ .error ↔
    (∀ line ∈ rest, passes (indexLine line) = true) ∧
      (merges mergeFn st.pkgs part (rest.map indexLine)).2 = true) ∧
  ((finishIndex mergeFn (readIndexLines mergeFn st rest)).change ≠ .error →
    (finishIndex mergeFn (readIndexLines mergeFn st rest)).pkgs =
      (merges mergeFn st.pkgs part (rest.map indexLine)).1)

theorem ends_nil {part : List (List Char)} (filled : ∀ line ∈ part, decide (line = []) = false)
    {st : IndexReader σ} (fine : st.change ≠ .error) (here : st.pkg = partPackage part) :
    Ends mergeFn st part [] := by
  rw [Ends, readIndexLines, List.map_nil, finishIndex, here, partPackage]
  by_cases empty : part = []
  · subst empty
    simp [fine, merges, mergeAll, Fields.tokens]
  · rw [if_neg empty, merges_last empty filled, mergeAll_cons]
    have change := @mergeInto_change σ mergeFn st fine (stanzaPackage part)
    by_cases refused : (mergeFn st.pkgs (stanzaPackage part)).2.1 = .error
    · simp [change, refused]
    · simp only [ne_eq, change, refused, not_false_eq_true, if_false, mergeAll]
      simp [mergeInto]

/-- The state after a line, before what the line does. -/
def counted (st : IndexReader σ) : IndexReader σ :=
  { st with curLine := (st.curLine + 1) % 2 ^ 32 }

theorem readIndexLine_empty {st : IndexReader σ} {line : List Char} (none_ : indexLine line = []) :
    readIndexLine mergeFn st line =
      match st.pkg with
      | none => counted st
      | some d => mergeInto mergeFn (counted st) d := by
  rw [readIndexLine]
  simp only [none_, if_true]
  rfl

theorem readIndexLine_field {st : IndexReader σ} {line : List Char}
    (some_ : indexLine line ≠ []) :
    (readIndexLine mergeFn st line).pkgs = st.pkgs ∧
      (passes (indexLine line) = true →
        (readIndexLine mergeFn st line).change = st.change ∧
          (readIndexLine mergeFn st line).pkg =
            some (readField (st.pkg.getD { pkg := {} }) (indexLine line) none).1) ∧
      (passes (indexLine line) = false →
        (readIndexLine mergeFn st line).change = .error ∧
          (readIndexLine mergeFn st line).pkg = none) := by
  have ok := @readField_ok (st.pkg.getD { pkg := {} }) (indexLine line) st.errorMsg
  have package := @readField_package (st.pkg.getD { pkg := {} }) (indexLine line) st.errorMsg
  -- what a line does to the package does not depend on the message so far
  rw [readIndexLine]
  simp only [some_, if_false]
  rw [ok, package]
  cases passes (indexLine line) with
  | true => simp
  | false => simp

theorem ends_empty {part rest : List (List Char)} {line : List Char}
    (filled : ∀ line ∈ part, decide (line = []) = false) (none_ : indexLine line = [])
    {st : IndexReader σ} (fine : st.change ≠ .error) (here : st.pkg = partPackage part)
    (ih : ∀ st : IndexReader σ, st.change ≠ .error → st.pkg = none → Ends mergeFn st [] rest) :
    Ends mergeFn st part (line :: rest) := by
  have passed : passes (indexLine line) = true := by
    rw [none_]
    rfl
  have read := @readIndexLine_empty σ mergeFn st line none_
  rw [Ends, List.map_cons, readIndexLines, if_neg fine, List.forall_mem_cons,
    and_iff_right passed, none_, read, here, partPackage]
  by_cases empty : part = []
  · -- the stanza before has ended already
    have ended : st.pkg = none := by rw [here, partPackage, if_pos empty]
    rw [if_pos empty, empty, merges_empty]
    exact ih (counted st) fine ended
  · rw [if_neg empty, merges_part empty filled]
    have change := @mergeInto_change σ mergeFn (counted st) fine (stanzaPackage part)
    by_cases refused : (mergeFn st.pkgs (stanzaPackage part)).2.1 = .error
    · have failed := change.mpr refused
      have stopped := @readIndexLines_stopped σ mergeFn _ failed rfl rest
      simp only
      rw [stopped, if_pos refused]
      simp [failed]
    · rw [if_neg refused]
      exact ih _ (fun failed => refused (change.mp failed)) rfl

theorem ends_field {part rest : List (List Char)} {line : List Char} (some_ : indexLine line ≠ [])
    {st : IndexReader σ} (fine : st.change ≠ .error) (here : st.pkg = partPackage part)
    (ih : ∀ st : IndexReader σ, st.change ≠ .error →
      st.pkg = partPackage (part ++ [indexLine line]) →
        Ends mergeFn st (part ++ [indexLine line]) rest) :
    Ends mergeFn st part (line :: rest) := by
  obtain ⟨pkgs, goesOn, fails⟩ := @readIndexLine_field σ mergeFn st line some_
  rw [Ends, List.map_cons, readIndexLines, if_neg fine, List.forall_mem_cons]
  -- a line which fails ends the reading, and so do the lines after it
  cases passed : passes (indexLine line) with
  | true =>
    obtain ⟨change, package⟩ := goesOn passed
    have following : merges mergeFn st.pkgs part (indexLine line :: rest.map indexLine) =
        merges mergeFn (readIndexLine mergeFn st line).pkgs (part ++ [indexLine line])
          (rest.map indexLine) := by
      rw [merges, merges, List.append_assoc, List.singleton_append, pkgs]
    rw [following, and_iff_right rfl]
    exact ih _ (change ▸ fine) (by rw [partPackage_append, package, here])
  | false =>
    obtain ⟨failed, none_⟩ := fails passed
    rw [readIndexLines_stopped failed none_]
    simp [failed]

/-- The loop reads stanza after stanza, from any state between two lines. -/
theorem readIndexLines_spec (rest part : List (List Char))
    (filled : ∀ line ∈ part, decide (line = []) = false) (st : IndexReader σ)
    (fine : st.change ≠ .error) (here : st.pkg = partPackage part) :
    Ends mergeFn st part rest := by
  -- the induction is on the lines, with the stanza read so far
  induction rest generalizing part st with
  | nil => exact ends_nil filled fine here
  | cons line rest ih =>
    by_cases empty : indexLine line = []
    · apply ends_empty filled empty fine here
      intro st fine none_
      exact ih [] (fun line member => by cases member) st fine none_
    · apply ends_field empty fine here
      intro st fine here
      refine ih _ ?_ st fine here
      intro other member
      rcases List.mem_append.mp member with before | last
      · exact filled other before
      · rw [List.mem_singleton.mp last]
        exact decide_eq_false empty

end Loop

/-! ## The whole index -/

section Index

variable {σ : Type}
  {mergeFn : σ → DerivedPackage → σ × LCFGChange × (Option String → Option String)}
  {filename : Option String} {text : List Char} {pkgs : σ} {options : LCFGOption}
  {msg : Option String}

/-- An index is read without an error when each line passes its last check and no package is
refused; the packages of all stanzas have then been merged. -/
theorem fromDebianIndex_ok_iff (named : isEmpty filename = false) :
    ((fromDebianIndex mergeFn filename (.ok text) pkgs options msg).2.1 ≠ .error ↔
      (∀ line ∈ indexLines text, passes line = true) ∧
        (mergeAll mergeFn pkgs ((stanzas text).map stanzaPackage)).2 = true) ∧
    ((fromDebianIndex mergeFn filename (.ok text) pkgs options msg).2.1 ≠ .error →
      (fromDebianIndex mergeFn filename (.ok text) pkgs options msg).1 =
        (mergeAll mergeFn pkgs ((stanzas text).map stanzaPackage)).1) := by
  have ends := @readIndexLines_spec σ mergeFn (lines text) [] (fun line member => by cases member)
    { pkgs := pkgs } (by simp) rfl
  rw [fromDebianIndex, named, if_neg Bool.false_ne_true]
  rw [Ends] at ends
  rw [indexLines, List.forall_mem_map]
  exact ends

/-- No line is empty in a stanza, and each other line is in one. -/
theorem accepted_stanzas :
    (∀ stanza ∈ stanzas text, ∀ line ∈ stanza, accepted line = true) ↔
      ∀ line ∈ indexLines text, accepted line = true := by
  constructor
  · intro inStanzas line member
    -- an empty line is in no stanza, and is always accepted
    by_cases empty : line = []
    · rw [empty]
      rfl
    · obtain ⟨stanza, there, inside⟩ :=
        @Fields.exists_token _ (fun line => decide (line = [])) _ _ member (decide_eq_false empty)
      exact inStanzas stanza there line inside
  · intro everywhere stanza there line inside
    obtain ⟨before, after, same, -⟩ := Fields.exists_cut there
    apply everywhere line
    rw [same]
    exact List.mem_append_right _ (List.mem_append_left _ inside)

/-- After an index was read without an error all names, versions, releases and architectures
in it had been accepted, unless nothing is wrong with the index but versions which were
rejected before a release which was not. -/
theorem fromDebianIndex_rejects_iff (named : isEmpty filename = false) :
    ((fromDebianIndex mergeFn filename (.ok text) pkgs options msg).2.1 ≠ .error →
      ∀ stanza ∈ stanzas text, ∀ line ∈ stanza, accepted line = true) ↔
    (∀ line ∈ indexLines text, masks line = false) ∨
      (∃ line ∈ indexLines text, passes line = false) ∨
      (mergeAll mergeFn pkgs ((stanzas text).map stanzaPackage)).2 = false := by
  rw [accepted_stanzas, (fromDebianIndex_ok_iff named).1]
  constructor
  · intro rejects
    -- an index which is read to its end has only lines which passed
    by_cases passed : ∀ line ∈ indexLines text, passes line = true
    · by_cases merged : (mergeAll mergeFn pkgs ((stanzas text).map stanzaPackage)).2 = true
      · left
        intro line member
        exact (accepted_iff_of_passes (passed line member)).mp
          (rejects ⟨passed, merged⟩ line member)
      · exact .inr (.inr (Bool.eq_false_iff.mpr merged))
    · simp only [not_forall] at passed
      obtain ⟨line, member, fails⟩ := passed
      exact .inr (.inl ⟨line, member, Bool.eq_false_iff.mpr fails⟩)
  · rintro (plain | ⟨line, member, fails⟩ | refused) ⟨passed, merged⟩
    · intro line member
      exact (accepted_iff_of_passes (passed line member)).mpr (plain line member)
    · rw [passed line member] at fails
      cases fails
    · rw [merged] at refused
      cases refused

end Index

/-- An empty list, into which valid packages of different names are merged. -/
def appendPackage (pkgs : List DerivedPackage) (d : DerivedPackage) :
    List DerivedPackage × LCFGChange × (Option String → Option String) :=
  if Package.isValid d.pkg then (pkgs ++ [d], .added, id)
  else (pkgs, .error, fun _ => some "Package is invalid")

def sampleIndex : List Char :=
  "Package: foo\nVersion: 1:2.0-1\n\n\nPackage: bar\nVersion: 3\nArchitecture: all\n".toList

def maskedIndex : List Char := "Package: foo\nVersion: 1.0^rc-1\n".toList

theorem sampleIndex_rejects :
    (fromDebianIndex appendPackage (some "Packages") (.ok sampleIndex) [] {} none).2.1 ≠ .error ∧
      ∀ stanza ∈ stanzas sampleIndex, ∀ line ∈ stanza, accepted line = true := by
  have read : (fromDebianIndex appendPackage (some "Packages") (.ok sampleIndex) [] {}
      none).2.1 ≠ .error := by decide +kernel
  have plain : ∀ line ∈ indexLines sampleIndex, masks line = false := by decide +kernel
  exact ⟨read, (fromDebianIndex_rejects_iff rfl).mpr (.inl plain) read⟩

theorem maskedIndex_read :
    fromDebianIndex appendPackage (some "Packages") (.ok maskedIndex) [] {} none =
      ([{ pkg := { name := some "foo", release := some "1" } }], .modified, none) := by
  decide +kernel

/-- The release is accepted, and with it the package without a version. -/
theorem maskedIndex_not_rejected :
    ¬ ∀ (σ : Type)
      (mergeFn : σ → DerivedPackage → σ × LCFGChange × (Option String → Option String))
      (filename : Option String) (text : List Char) (pkgs : σ) (options : LCFGOption)
      (msg : Option String), isEmpty filename = false →
        (fromDebianIndex mergeFn filename (.ok text) pkgs options msg).2.1 ≠ .error →
          ∀ stanza ∈ stanzas text, ∀ line ∈ stanza, accepted line = true := by
  intro every
  have rejects := every _ appendPackage (some "Packages") maskedIndex [] {} none rfl
  rw [maskedIndex_read] at rejects
  have acceptedAll := rejects (by decide)
  revert acceptedAll
  decide +kernel

end PkgContainer

end Lcfg
