import LcfgCore.Library.Fields
import LcfgCore.Packages.Setters

/-!
# Package specifications

The text form of a package, `PrefixName=Version-Release/Arch:Flags[Context]` or
with a `-` in the place of the `=`: `lcfgpackage_to_spec` and
`lcfgpackage_from_spec`.
-/
namespace Lcfg.Package

/-! ## Writing -/

/-- A part of the text, which is left out for an empty value. -/
def part (before : String) (value : Option String) (after : String) : String :=
  if isEmpty value then "" else before ++ value.getD "" ++ after

/-- The architecture is not written when it is the default. -/
def specArch (pkg : LCFGPackage) (defarch : Option String) : Option String :=
  if hasArch pkg && (isEmpty defarch || strcmp (pkg.arch.getD "") (defarch.getD "") ≠ 0) then
    pkg.arch
  else none

/-- Besides the legacy style, a version with an epoch needs a release. -/
def specRelease (pkg : LCFGPackage) (options : LCFGOption) : Option String :=
  if isEmpty pkg.release && (hasEpoch pkg || !options.new) then some wildcard else pkg.release

/-- `lcfgpackage_to_spec`; a package without a name has no specification. -/
def toSpec (pkg : LCFGPackage) (defarch : Option String) (options : LCFGOption) : Option String :=
  if isValid pkg then
    let pkgver := orDefault pkg.version wildcard
    let pkgrel := specRelease pkg options
    let pkgarch := specArch pkg defarch
    let archCompat := options.compat && !options.new && pkgarch != some "noarch"
    some <|
      (if !options.noPrefix && hasPrefix pkg then String.singleton pkg.pfx.toChar else "") ++
      (if archCompat then part "" pkgarch "/" else "") ++
      pkg.name.getD "" ++ (if options.new then "=" else "-") ++ pkgver ++
      part "-" pkgrel "" ++
      (if archCompat then "" else part "/" pkgarch "") ++
      part ":" pkg.flags "" ++
      (if options.noContext then "" else part "[" pkg.context "]") ++
      (if options.newline then "\n" else "")
  else none

/-! ## Walking to a separator -/

/-- `walk_forwards_until`: whether the separator was found, where to go on, and the
value before it, if there is one. -/
def walkForwardsUntil (start : List Char) (separator : Char) (stop : List Char) :
    Bool × List Char × Option (List Char) :=
  let begin_ := start.dropWhile isSpace
  let goesOn c := c != separator && !stop.contains c
  match begin_.dropWhile goesOn with
  | [] => (false, start, none)
  | c :: rest =>
    if c = separator then
      let field := (begin_.takeWhile goesOn).rdropWhile isSpace
      (true, rest, if field = [] then none else some field)
    else (false, start, none)

/-- `walk_backwards_until` from the end of the first `len` characters: whether the
separator was found, the length before it, and the value behind it. -/
def walkBackwardsUntil (input : List Char) (len : Nat) (separator : Char) (stop : List Char) :
    Bool × Nat × Option (List Char) :=
  let myLen := ((input.take len).rdropWhile isSpace).length
  -- where nothing is left, the walk still looks at the first character
  let seen := input.take (max myLen 1)
  let goesOn c := c != separator && !stop.contains c
  let field := seen.rtakeWhile goesOn
  let before := seen.rdropWhile goesOn
  if before.getLast? = some separator then
    (true, before.length - 1, if field = [] then none else some (field.dropWhile isSpace))
  else (false, len, none)

/-! ## Reading -/

def invalidPackage (reason : String) : String := "Invalid package (" ++ reason ++ ")"

theorem bind_ok {ε α β : Type} {x : Except ε α} {f : α → Except ε β} {b : β}
    (done : x >>= f = .ok b) : ∃ a, x = .ok a ∧ f a = .ok b := by
  cases x with
  | error e => cases done
  | ok a => exact ⟨a, rfl, done⟩

/-- The package which a setter gives, or the error message. -/
def orInvalid (set : Option LCFGPackage) (reason : String) : Except String LCFGPackage :=
  match set with
  | some pkg => .ok pkg
  | none => .error (invalidPackage reason)

/-- A first character which is no word character is meant as a prefix. -/
def parsePrefix (start : List Char) : Except String (LCFGPackage × List Char) :=
  match start with
  | [] => .error (invalidPackage "empty spec string")
  | firstChar :: rest =>
    if isWord firstChar then .ok ({}, start)
    else do
      let pkg ← orInvalid (setPrefix {} firstChar)
        ("bad prefix '" ++ String.singleton firstChar ++ "'")
      .ok (pkg, rest)

/-- The context, in square brackets at the end. -/
def parseContext (signedChar : Bool) (pkg : LCFGPackage) (start : List Char) (len : Nat) :
    Except String (LCFGPackage × Nat) :=
  if (start.take len).getLast? = some ']' then
    match walkBackwardsUntil start (len - 1) '[' [] with
    | (true, ctxLen, some pkgContext) => do
      let pkgContext := String.ofList pkgContext
      let pkg ← orInvalid (setContext signedChar pkg pkgContext)
        ("bad context '" ++ pkgContext ++ "'")
      .ok (pkg, ctxLen)
    | (true, ctxLen, none) => .ok (pkg, ctxLen)
    | (false, _, _) => .ok (pkg, len)
  else .ok (pkg, len)

def parseFlags (pkg : LCFGPackage) (start : List Char) (len : Nat) :
    Except String (LCFGPackage × Nat) :=
  match walkBackwardsUntil start len ':' "/-=.~_+-*?".toList with
  | (_, len, some pkgFlags) => do
    let pkgFlags := String.ofList pkgFlags
    let pkg ← orInvalid (setFlags pkg pkgFlags) ("bad flags '" ++ pkgFlags ++ "'")
    .ok (pkg, len)
  | (_, len, none) => .ok (pkg, len)

/-- The secondary architecture, from the front of the text, comes first. -/
def parseArch (pkg : LCFGPackage) (start : List Char) (len : Nat) (secondary : Option (List Char)) :
    Except String (LCFGPackage × Nat) :=
  let (_, len, arch2) := walkBackwardsUntil start len '/' "-=".toList
  match secondary.orElse fun _ => arch2 with
  | some pkgArch => do
    let pkgArch := String.ofList pkgArch
    let pkg ← orInvalid (setArch pkg pkgArch) ("bad architecture '" ++ pkgArch ++ "'")
    .ok (pkg, len)
  | none => .ok (pkg, len)

/-- Version and release, either of them maybe missing or empty. -/
def splitVersion (start : List Char) (len : Nat) :
    Except String (Option (List Char) × Option (List Char) × Nat) :=
  match walkBackwardsUntil start len '=' [] with
  | (_, len, some vr) =>
    -- the modern style: the release stands behind the last hyphen
    if vr.contains '-' then
      .ok (some ((vr.rdropWhile (· != '-')).dropLast), some (vr.rtakeWhile (· != '-')), len)
    else .ok (some vr, none, len)
  | (_, len, none) =>
    match walkBackwardsUntil start len '-' [] with
    | (_, _, none) => .error (invalidPackage "failed to extract release")
    | (_, len, some pkgRelease) =>
      match walkBackwardsUntil start len '-' [] with
      | (_, _, none) => .error (invalidPackage "failed to extract version")
      | (_, len, some pkgVersion) => .ok (some pkgVersion, some pkgRelease, len)

/-- Sets a value which is there and not empty. -/
def setPart (set : LCFGPackage → String → Option LCFGPackage) (what : String)
    (value : Option (List Char)) (pkg : LCFGPackage) : Except String LCFGPackage :=
  let value := String.ofList (value.getD [])
  if value == "" then .ok pkg
  else orInvalid (set pkg value) ("bad " ++ what ++ " '" ++ value ++ "'")

/-- The version, the release and, from all that is left, the name. -/
def parseVersion (pkg : LCFGPackage) (start : List Char) (len : Nat) :
    Except String LCFGPackage := do
  let (pkgVersion, pkgRelease, len) ← splitVersion start len
  let pkg ← setPart setVersion "version" pkgVersion pkg
  let pkg ← setPart setRelease "release" pkgRelease pkg
  if len = 0 then .error (invalidPackage "failed to extract name")
  else
    let pkgName := String.ofList (start.take len)
    orInvalid (setName pkg pkgName) ("bad name '" ++ pkgName ++ "'")

/-- From the end of the text: context, flags, architecture, release, version, name. -/
def parseParts (signedChar : Bool) (pkg : LCFGPackage) (start : List Char)
    (secondary : Option (List Char)) : Except String LCFGPackage := do
  let (pkg, len) ← parseContext signedChar pkg start (start.rdropWhile isSpace).length
  let (pkg, len) ← parseFlags pkg start len
  let (pkg, len) ← parseArch pkg start len secondary
  parseVersion pkg start len

/-- `lcfgpackage_from_spec`: the package, or the message. -/
def fromSpec (signedChar : Bool) (input : Option String) : Except String LCFGPackage := do
  let (pkg, start) ← parsePrefix ((input.getD "").toList.dropWhile isSpace)
  let (_, start, secondary) := walkForwardsUntil start '/' "-=".toList
  parseParts signedChar pkg start secondary

end Lcfg.Package
