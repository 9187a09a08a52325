import LcfgCore.DerivationMap
import LcfgCore.Packages.Spec

/-!
# Package files for the C preprocessor

Packages with their meta-data: `lcfgpackage_to_cpp` writes a derivation and a
context as `#pragma` lines before the specification, and `lcfgpackages_from_cpp`
reads the output of the preprocessor line by line (`packages/package.c` and
`packages/container.c`).
-/
namespace Lcfg

/-- A package together with its derivation and its category. -/
structure DerivedPackage where
  pkg : LCFGPackage
  derivation : LCFGDerivationList := []
  category : Option String := none
deriving DecidableEq

inductive LCFGPkgPragma where
  | category | context | derive
deriving DecidableEq, Repr

namespace Package

/-! ## Pragmas -/

def pragma : List Char := "#pragma LCFG".toList

/-- What stands before the quotes, and between them. -/
def pragmaKey : LCFGPkgPragma → List Char
  | .category => "category".toList
  | .context => "context".toList
  | .derive => "derive".toList

def pragmaValue (d : DerivedPackage) : LCFGPkgPragma → List Char
  | .category => (d.category.getD "").toList
  | .context => (d.pkg.context.getD "").toList
  | .derive => if d.derivation = [] then [] else DerivList.toString d.derivation

/-- `lcfgpackage_build_pragma` -/
def buildPragma (d : DerivedPackage) (key : LCFGPkgPragma) (options : LCFGOption) : List Char :=
  pragma ++ ' ' :: pragmaKey key ++ ' ' :: '"' :: pragmaValue d key ++
    '"' :: if options.newline then ['\n'] else []

/-- `lcfgpackage_parse_pragma` -/
def parsePragma (line : List Char) : Option (LCFGPkgPragma × List Char) :=
  if !pragma.isPrefixOf line then none
  else
    let keyStart := (line.drop pragma.length).dropWhile isSpace
    let keys := [LCFGPkgPragma.category, .context, .derive]
    match keys.find? fun key => (pragmaKey key).isPrefixOf keyStart with
    | none => none
    | some key =>
      match (keyStart.drop (pragmaKey key).length).dropWhile isSpace with
      | '"' :: value =>
        if value.contains '"' then some (key, (value.rdropWhile (· != '"')).dropLast) else none
      | _ => none

/-! ## Writing -/

def metaStart : List Char := "#ifdef INCLUDE_META\n".toList

def metaEnd : List Char := "#endif\n".toList

/-- `lcfgpackage_to_cpp` -/
def toCpp (d : DerivedPackage) (defarch : Option String) (options : LCFGOption) :
    Option (List Char) :=
  let specOptions := { options with noContext := true, noPrefix := true, newline := true }
  (toSpec d.pkg defarch specOptions).map fun spec =>
    if options.useMeta then
      metaStart ++ (buildPragma d .derive { newline := true } ++
        ((if hasContext d.pkg then buildPragma d .context { newline := true } else []) ++
          (metaEnd ++ spec.toList)))
    else spec.toList

def validCategory (value : String) : Bool := value != "" && value.toList.all fun c => !isSpace c

end Package

/-! ## Reading -/

namespace PkgContainer

open Package (fromSpec orInvalid setArch setContext validCategory parsePragma hasArch)

/-- `lcfgutils_string_trim` -/
def trim (line : List Char) : List Char := (line.dropWhile isSpace).rdropWhile isSpace

/-- The lines of a file; the last one may lack its newline. -/
def lines (text : List Char) : List (List Char) :=
  let parts := text.splitOn '\n'
  if parts.getLast? = some [] then parts.dropLast else parts

/-- A file has been entered: the first of the flags of a line marker. -/
def entryFlag : Nat → List Char → Bool
  | 0, _ => false
  | fuel + 1, flags =>
    match strtoul0 flags with
    | none => false
    | some (flag, rest) =>
      if flag % 2 ^ 32 = 0 then false else flag % 2 ^ 32 = 1 || entryFlag fuel rest

/-- `lcfgutils_parse_cpp_derivation`: the file, the line number and whether the file was
entered. A file is kept whose name merely starts with the new one. -/
def parseCppDerivation (line : List Char) (curFile : Option String) : Option (String × Nat × Bool) :=
  match line with
  | '#' :: ' ' :: number =>
    if !(number.head?.any Char.isDigit) then none
    else
      match strtoul0 number with
      | some (linenum, ' ' :: '"' :: rest) =>
        if !rest.contains '"' then none
        else
          let file := (rest.rdropWhile (· != '"')).dropLast
          let flags := rest.rtakeWhile (· != '"')
          let entry :=
            match flags with
            | ' ' :: digits => digits.head?.any Char.isDigit && entryFlag (digits.length + 1) digits
            | _ => false
          let file := if isEmpty curFile || !file.isPrefixOf (curFile.getD "").toList then
            String.ofList file else curFile.getD ""
          some (file, linenum % 2 ^ 32, entry)
      | _ => none
  | _ => none

/-- The loop of `lcfgpackages_from_cpp` and what it knows between two lines. -/
structure CppReader (σ : Type) where
  pkgs : σ
  deps : List String := []
  drvmap : LCFGDerivationMap := DerivMap.new
  metaDeriv : Option String := none
  metaContext : Option String := none
  metaCategory : Option String := none
  curFile : Option String := none
  curLine : Nat := 0
  change : LCFGChange := .none
  msg : Option String := none

/-- How the reading may end at once: `exit`, or `realloc` of a pointer which was never
allocated, when the list of 64 dependencies is to grow. -/
inductive CppFault where
  | exit | badRealloc
deriving DecidableEq, Repr

inductive CppError where
  | fault (f : CppFault)
  | message (text : Option String)
deriving DecidableEq, Repr

def message {α : Type} : Except String α → Except CppError α
  | .ok a => .ok a
  | .error text => .error (.message (some text))

section Reader

variable {σ : Type} (farmhash64 : String → Nat) (signedChar includeMeta : Bool)
  (defarch : Option String) (mergeFn : σ → DerivedPackage → σ × LCFGChange × Option String)

/-- A line which starts with `#`. -/
def readDirective (st : CppReader σ) (line : List Char) : Except CppError (CppReader σ) :=
  match parseCppDerivation line st.curFile with
  | some (file, linenum, entry) =>
    -- the next line has the number which the marker shows
    let st := { st with curFile := some file, curLine := (linenum + 2 ^ 32 - 1) % 2 ^ 32 }
    if entry && !st.deps.contains file then
      if st.deps.length + 1 = 64 then .error (.fault .badRealloc)
      else .ok { st with deps := st.deps ++ [file] }
    else .ok st
  | none =>
    if includeMeta then
      match parsePragma line with
      | some (key, value) =>
        if value = [] then .ok st
        else
          match key with
          | .derive => .ok { st with metaDeriv := some (String.ofList value) }
          | .context => .ok { st with metaContext := some (String.ofList value) }
          | .category => .ok { st with metaCategory := some (String.ofList value) }
      | none => .ok st
    else .ok st

/-- A missing architecture is the default one. -/
def withArch (pkg : LCFGPackage) : Except CppError LCFGPackage :=
  if !hasArch pkg && !isEmpty defarch then
    match setArch pkg (defarch.getD "") with
    | some pkg => .ok pkg
    | none => .error (.message
        (some ("Failed to set package architecture to '" ++ defarch.getD "" ++ "'")))
  else .ok pkg

/-- The derivation from the pragma or, without one, from the current file and line. -/
def withDerivation (st : CppReader σ) :
    Except CppError (LCFGDerivationList × LCFGDerivationMap) :=
  if includeMeta && !isEmpty st.metaDeriv then
    match DerivMap.findOrInsertString farmhash64 st.drvmap (st.metaDeriv.getD "") with
    | .list drvlist drvmap => .ok (drvlist, drvmap)
    | .exit => .error (.fault .exit)
    | .failed drvmsg => .error (.message (some
        ("Invalid derivation '" ++ st.metaDeriv.getD "" ++ "': " ++ drvmsg.getD "(null)")))
  else if isEmpty st.curFile then .ok ([], st.drvmap)
  else
    let lines := if st.curLine < 2 ^ 31 then [st.curLine] else []
    .ok ([{ file := st.curFile, lines := lines }], st.drvmap)

def withContext (st : CppReader σ) (pkg : LCFGPackage) : Except CppError LCFGPackage :=
  if includeMeta && !isEmpty st.metaContext then
    match setContext signedChar pkg (st.metaContext.getD "") with
    | some pkg => .ok pkg
    | none => .error (.message (some ("Invalid context '" ++ st.metaContext.getD "" ++ "'")))
  else .ok pkg

/-- A category applies to all later packages, until there is a new one. -/
def withCategory (st : CppReader σ) : Except CppError (Option String) :=
  if includeMeta && !isEmpty st.metaCategory then
    if validCategory (st.metaCategory.getD "") then .ok st.metaCategory
    else .error (.message (some ("Invalid category '" ++ st.metaCategory.getD "" ++ "'")))
  else .ok none

/-- A line with a specification. -/
def readSpec (st : CppReader σ) (line : List Char) : Except CppError (CppReader σ) := do
  let pkg ← message (fromSpec signedChar (some (String.ofList line)))
  let pkg ← withArch defarch pkg
  let (derivation, drvmap) ← withDerivation farmhash64 includeMeta st
  let pkg ← withContext signedChar includeMeta st pkg
  let category ← withCategory includeMeta st
  match mergeFn st.pkgs ⟨pkg, derivation, category⟩ with
  | (_, .error, text) => .error (.message text)
  | (pkgs, mergeStatus, _) =>
    .ok { st with
      pkgs := pkgs
      drvmap := drvmap
      metaContext := if includeMeta && !isEmpty st.metaContext then none else st.metaContext
      change := if mergeStatus = .none then st.change else .modified }

/-- One round of the loop. An error is reported with the place at which it occurred. -/
def step (st : CppReader σ) (line : List Char) : Except CppFault (CppReader σ) :=
  let st := { st with curLine := (st.curLine + 1) % 2 ^ 32 }
  let line := trim line
  let next :=
    if line = [] then .ok st
    else if line.head? = some '#' then readDirective includeMeta st line
    else readSpec farmhash64 signedChar includeMeta defarch mergeFn st line
  match next with
  | .ok st => .ok st
  | .error (.fault f) => .error f
  | .error (.message text) =>
    let place := "Error in '" ++ st.curFile.getD "(null)" ++ "' at line " ++ toString st.curLine
    .ok { st with
      change := .error
      msg := some (match text with
        | none => place
        | some text => place ++ ": " ++ text) }

def readLines (st : CppReader σ) : List (List Char) → Except CppFault (CppReader σ)
  | [] => .ok st
  | line :: rest =>
    if st.change = .error then .ok st
    else do
      let st ← step farmhash64 signedChar includeMeta defarch mergeFn st line
      readLines st rest

/-- `lcfgpackages_from_cpp`, from the output of the preprocessor. The packages are
merged into a container, a list or a set. -/
def fromCpp (pkgs : σ) (text : List Char) : Except CppFault (CppReader σ) :=
  readLines farmhash64 signedChar includeMeta defarch mergeFn { pkgs := pkgs } (lines text)

end Reader

end PkgContainer

end Lcfg
