import LcfgCore.Context.Validity
import LcfgCore.Packages.Package

/-!
# The attributes of a package

The validating setters of `packages/package.c`. A setter gives the package with
its new value, or nothing where the value is not valid.
-/
namespace Lcfg

namespace PkgPrefix

def toChar : PkgPrefix → Char
  | .none => '\x00'
  | .add => '+'
  | .remove => '-'
  | .update => '?'
  | .pin => '!'
  | .any => '~'
  | .min => '>'
  | .invalid c => c

def ofChar (c : Char) : PkgPrefix :=
  match c with
  | '\x00' => .none
  | '+' => .add
  | '-' => .remove
  | '?' => .update
  | '!' => .pin
  | '~' => .any
  | '>' => .min
  | _ => .invalid c

end PkgPrefix

namespace Package

/-! ## What the attributes may hold -/

def isVerChar (c : Char) : Bool := c.isAlphanum || ".~_+-:*?".toList.contains c

def isRelChar (c : Char) : Bool := c.isAlphanum || ".~_+*?".toList.contains c

def validVersion (version : String) : Bool := version != "" && version.toList.all isVerChar

def validRelease (release : String) : Bool := release != "" && release.toList.all isRelChar

def validFlags (flags : String) : Bool := flags != "" && flags.toList.all Char.isAlphanum

/-- `strchr` finds the NUL as well, which is no prefix at all. -/
def validPrefix (c : Char) : Bool := c == '\x00' || "?+-!~>".toList.contains c

def validContext (signedChar : Bool) (ctx : String) : Bool :=
  (Context.validExpression signedChar (some ctx)).1

def hasName (pkg : LCFGPackage) : Bool := !isEmpty pkg.name

def hasArch (pkg : LCFGPackage) : Bool := !isEmpty pkg.arch

def hasVersion (pkg : LCFGPackage) : Bool := !isEmpty pkg.version

def hasRelease (pkg : LCFGPackage) : Bool := !isEmpty pkg.release

def hasContext (pkg : LCFGPackage) : Bool := !isEmpty pkg.context

def hasPrefix (pkg : LCFGPackage) : Bool := pkg.pfx != .none

def hasEpoch (pkg : LCFGPackage) : Bool :=
  !isEmpty pkg.version && (pkg.version.getD "").toList.contains ':'

/-! ## The setters -/

def setName (pkg : LCFGPackage) (newName : String) : Option LCFGPackage :=
  if valid : validName newName = true then
    some { pkg with name := some newName, name_valid := by simpa using valid }
  else none

def setArch (pkg : LCFGPackage) (newArch : String) : Option LCFGPackage :=
  if valid : validArch newArch = true then
    some { pkg with arch := some newArch, arch_valid := by simpa using valid }
  else none

def setVersion (pkg : LCFGPackage) (newVersion : String) : Option LCFGPackage :=
  if validVersion newVersion then some { pkg with version := some newVersion } else none

def setRelease (pkg : LCFGPackage) (newRelease : String) : Option LCFGPackage :=
  if validRelease newRelease then some { pkg with release := some newRelease } else none

def setPrefix (pkg : LCFGPackage) (newPrefix : Char) : Option LCFGPackage :=
  if validPrefix newPrefix then some { pkg with pfx := .ofChar newPrefix } else none

def setFlags (pkg : LCFGPackage) (newFlags : String) : Option LCFGPackage :=
  if validFlags newFlags then some { pkg with flags := some newFlags } else none

def setContext (signedChar : Bool) (pkg : LCFGPackage) (newCtx : String) : Option LCFGPackage :=
  if validContext signedChar newCtx then some { pkg with context := some newCtx } else none

section Accepts

variable {pkg : LCFGPackage} {value : String}

theorem setName_valid (valid : validName value = true) : setName pkg value =
    some { pkg with name := some value, name_valid := by simpa using valid } :=
  dif_pos valid

theorem setArch_valid (valid : validArch value = true) : setArch pkg value =
    some { pkg with arch := some value, arch_valid := by simpa using valid } :=
  dif_pos valid

theorem setVersion_valid (valid : validVersion value = true) :
    setVersion pkg value = some { pkg with version := some value } :=
  if_pos valid

theorem setRelease_valid (valid : validRelease value = true) :
    setRelease pkg value = some { pkg with release := some value } :=
  if_pos valid

end Accepts

/-- The packages which the setters can build. -/
inductive Built (signedChar : Bool) : LCFGPackage → Prop where
  | new : Built signedChar {}
  | name {pkg pkg'} (newName : String) :
    Built signedChar pkg → setName pkg newName = some pkg' → Built signedChar pkg'
  | arch {pkg pkg'} (newArch : String) :
    Built signedChar pkg → setArch pkg newArch = some pkg' → Built signedChar pkg'
  | version {pkg pkg'} (newVersion : String) :
    Built signedChar pkg → setVersion pkg newVersion = some pkg' → Built signedChar pkg'
  | release {pkg pkg'} (newRelease : String) :
    Built signedChar pkg → setRelease pkg newRelease = some pkg' → Built signedChar pkg'
  | pfx {pkg pkg'} (newPrefix : Char) :
    Built signedChar pkg → setPrefix pkg newPrefix = some pkg' → Built signedChar pkg'
  | flags {pkg pkg'} (newFlags : String) :
    Built signedChar pkg → setFlags pkg newFlags = some pkg' → Built signedChar pkg'
  | context {pkg pkg'} (newCtx : String) : NoNul newCtx →
    Built signedChar pkg → setContext signedChar pkg newCtx = some pkg' → Built signedChar pkg'

/-- What the setters keep. -/
structure Valid (signedChar : Bool) (pkg : LCFGPackage) : Prop where
  version : ∀ v ∈ pkg.version, validVersion v = true
  release : ∀ r ∈ pkg.release, validRelease r = true
  flags : ∀ f ∈ pkg.flags, validFlags f = true
  context : ∀ c ∈ pkg.context, validContext signedChar c = true ∧ NoNul c
  pfx : validPrefix pkg.pfx.toChar = true ∧ PkgPrefix.ofChar pkg.pfx.toChar = pkg.pfx

theorem ofChar_toChar_of_valid {c : Char} (valid : validPrefix c = true) :
    (PkgPrefix.ofChar c).toChar = c := by
  simp [validPrefix] at valid
  rcases valid with rfl | rfl | rfl | rfl | rfl | rfl | rfl <;> rfl

theorem Built.valid {signedChar : Bool} {pkg : LCFGPackage} (built : Built signedChar pkg) :
    Valid signedChar pkg := by
  induction built with
  | new => exact ⟨by simp, by simp, by simp, by simp, by decide⟩
  | name newName _ set_ ih =>
    simp only [setName, Option.dite_none_right_eq_some, Option.some.injEq] at set_
    obtain ⟨_, rfl⟩ := set_
    exact ⟨ih.version, ih.release, ih.flags, ih.context, ih.pfx⟩
  | arch newArch _ set_ ih =>
    simp only [setArch, Option.dite_none_right_eq_some, Option.some.injEq] at set_
    obtain ⟨_, rfl⟩ := set_
    exact ⟨ih.version, ih.release, ih.flags, ih.context, ih.pfx⟩
  | version newVersion _ set_ ih =>
    simp only [setVersion, Option.ite_none_right_eq_some, Option.some.injEq] at set_
    obtain ⟨valid, rfl⟩ := set_
    exact ⟨by simpa using valid, ih.release, ih.flags, ih.context, ih.pfx⟩
  | release newRelease _ set_ ih =>
    simp only [setRelease, Option.ite_none_right_eq_some, Option.some.injEq] at set_
    obtain ⟨valid, rfl⟩ := set_
    exact ⟨ih.version, by simpa using valid, ih.flags, ih.context, ih.pfx⟩
  | pfx newPrefix _ set_ ih =>
    simp only [setPrefix, Option.ite_none_right_eq_some, Option.some.injEq] at set_
    obtain ⟨valid, rfl⟩ := set_
    refine ⟨ih.version, ih.release, ih.flags, ih.context, ?_⟩
    rw [ofChar_toChar_of_valid valid]
    exact ⟨valid, rfl⟩
  | flags newFlags _ set_ ih =>
    simp only [setFlags, Option.ite_none_right_eq_some, Option.some.injEq] at set_
    obtain ⟨valid, rfl⟩ := set_
    exact ⟨ih.version, ih.release, by simpa using valid, ih.context, ih.pfx⟩
  | context newCtx noNul _ set_ ih =>
    simp only [setContext, Option.ite_none_right_eq_some, Option.some.injEq] at set_
    obtain ⟨valid, rfl⟩ := set_
    exact ⟨ih.version, ih.release, ih.flags, by simpa using ⟨valid, noNul⟩, ih.pfx⟩

end Package

end Lcfg
