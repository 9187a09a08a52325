import LcfgCore.Derivation
import LcfgCore.Packages.Version

/-!
# Packages

The package specification and its comparisons (`packages/package.c`). The
derivation of a package is the one field which merging writes to, so it is kept
apart from the specification, in a store of its own.
-/
namespace Lcfg

/-- `LCFG_PKG_PREFIX_*`; any other character is not a prefix. -/
inductive PkgPrefix where
  | none | add | remove | update | pin | any | min
  | invalid (c : Char)
deriving DecidableEq, Repr

namespace Package

def isNameChar (c : Char) : Bool := isWord c || c == '-' || c == '.' || c == '+'

def validName (name : String) : Bool :=
  match name.toList with
  | [] => false
  | c :: cs => c.isAlphanum && cs.all isNameChar

def validArch (arch : String) : Bool :=
  arch != "" && arch.toList.all fun c => isWord c || c == '-'

theorem noName_valid : ∀ n ∈ (none : Option String), validName n = true := nofun

theorem noArch_valid : ∀ a ∈ (none : Option String), validArch a = true := nofun

theorem foo_valid : ∀ n ∈ some "foo", validName n = true := by decide

end Package

/-- A package specification. The setters accept valid names and architectures only. -/
structure LCFGPackage where
  name : Option String := none
  arch : Option String := none
  version : Option String := none
  release : Option String := none
  flags : Option String := none
  context : Option String := none
  pfx : PkgPrefix := .none
  priority : Int := 0
  name_valid : ∀ n ∈ name, Package.validName n = true := by
    first | exact Package.noName_valid | exact Package.foo_valid | decide
  arch_valid : ∀ a ∈ arch, Package.validArch a = true := by
    first | exact Package.noArch_valid | decide
deriving DecidableEq

/-- Where each package was specified. -/
abbrev DerivStore := Addr → LCFGDerivationList

namespace Package

/-- A package is valid once it has a name. -/
def isValid (pkg : LCFGPackage) : Bool := !isEmpty pkg.name

/-- `LCFG_PKG_WILDCARD`. -/
def wildcard : String := "*"

/-- `lcfgpackage_match`: compare the name and, unless it is the wildcard, the architecture. -/
def isMatch (pkg : LCFGPackage) (name : String) (arch : Option String) : Bool :=
  let arch := arch.getD ""
  if orDefault pkg.name "" == name then
    if arch != wildcard then orDefault pkg.arch "" == arch else true
  else false

/-- `lcfgcontext_compare_expressions`: no logic, only the strings. -/
def compareContexts (ctx1 ctx2 : Option String) : Int := strcmp (ctx1.getD "") (ctx2.getD "")

def sameContext (pkg1 pkg2 : LCFGPackage) : Bool := compareContexts pkg1.context pkg2.context == 0

def compareNames (pkg1 pkg2 : LCFGPackage) : Int :=
  strcasecmp (orDefault pkg1.name "") (orDefault pkg2.name "")

def compareArchs (pkg1 pkg2 : LCFGPackage) : Int :=
  strcmp (orDefault pkg1.arch "") (orDefault pkg2.arch "")

/-- The epoch of a version, zero when there is none, and the rest of the version. -/
def splitEpoch (version : Option String) : Nat × Option String :=
  match version with
  | none => (0, none)
  | some v => if v == "" then (0, some v) else
    match Version.extractEpoch v with
    | (epoch, rest) => (epoch, some rest)

def compareVersions (vercmp : VersionOrder) (pkg1 pkg2 : LCFGPackage) : Int :=
  match splitEpoch pkg1.version, splitEpoch pkg2.version with
  | (epoch1, v1), (epoch2, v2) =>
    if epoch1 > epoch2 then 1
    else if epoch1 < epoch2 then -1
    else
      let result := Version.compareVStrings vercmp v1 v2
      if result = 0 then Version.compareVStrings vercmp pkg1.release pkg2.release else result

/-- Name, architecture, version, release, flags and context. The prefix, the
priority and the derivation are not compared. -/
def equals (vercmp : VersionOrder) (pkg1 pkg2 : LCFGPackage) : Bool :=
  compareNames pkg1 pkg2 == 0 && compareArchs pkg1 pkg2 == 0 &&
    compareVersions vercmp pkg1 pkg2 == 0 &&
    strcmp (orDefault pkg1.flags "") (orDefault pkg2.flags "") == 0 &&
    strcmp (orDefault pkg1.context "") (orDefault pkg2.context "") == 0

/-! ### Matching -/

theorem isMatch_wildcard (pkg : LCFGPackage) (name : String) :
    isMatch pkg name (some wildcard) = true ↔ pkg.name.getD "" = name := by
  simp [isMatch]

theorem isMatch_arch (pkg : LCFGPackage) (name arch : String) (plain : arch ≠ wildcard) :
    isMatch pkg name (some arch) = true ↔ pkg.name.getD "" = name ∧ pkg.arch.getD "" = arch := by
  simp [isMatch, plain]

theorem sameContext_iff (pkg1 pkg2 : LCFGPackage) :
    sameContext pkg1 pkg2 = true ↔ pkg1.context.getD "" = pkg2.context.getD "" := by
  simp [sameContext, compareContexts]

/-- No package has the wildcard for its architecture. -/
theorem arch_ne_wildcard (pkg : LCFGPackage) : pkg.arch.getD "" ≠ wildcard := by
  intro same
  cases arch : pkg.arch with
  | none => simp [arch, wildcard] at same
  | some a =>
    have valid := pkg.arch_valid a (by simp [arch])
    rw [arch, Option.getD_some] at same
    rw [same] at valid
    exact absurd valid (by decide)

/-! ### Equality -/

section Equality

variable {vercmp : VersionOrder} (lawful : Equivalence fun a b => vercmp a b = 0)

private theorem sign_eq_zero (r : Int) :
    (if r > 0 then (1 : Int) else if r < 0 then -1 else 0) = 0 ↔ r = 0 := by
  split
  · omega
  · split <;> omega

/-- What two version strings have to share to compare as equal. -/
private theorem compareVStrings_eq_zero (v1 v2 : Option String) :
    Version.compareVStrings vercmp v1 v2 = 0 ↔
      (isEmpty v1 = true ∧ isEmpty v2 = true) ∨
      (isEmpty v1 = false ∧ isEmpty v2 = false ∧
        ((v1.getD "" = Version.wildcard ∧ v2.getD "" = Version.wildcard) ∨
          (v1.getD "" ≠ Version.wildcard ∧ v2.getD "" ≠ Version.wildcard ∧
            vercmp (v1.getD "") (v2.getD "") = 0))) := by
  unfold Version.compareVStrings
  rw [sign_eq_zero]
  cases e1 : isEmpty v1 <;> cases e2 : isEmpty v2
  case false.false =>
    by_cases w1 : v1.getD "" = Version.wildcard <;> by_cases w2 : v2.getD "" = Version.wildcard <;>
      simp [w1, w2]
  all_goals simp

include lawful

private theorem compareVStrings_equivalence :
    Equivalence fun v1 v2 => Version.compareVStrings vercmp v1 v2 = 0 where
  refl v := by
    rw [compareVStrings_eq_zero]
    cases isEmpty v
    · have same := lawful.refl (v.getD "")
      by_cases wild : v.getD "" = Version.wildcard <;> simp [wild, same]
    · simp
  symm {v1 v2} equal := by
    rw [compareVStrings_eq_zero] at equal ⊢
    rcases equal with ⟨h1, h2⟩ | ⟨h1, h2, ⟨w1, w2⟩ | ⟨w1, w2, same⟩⟩
    · exact Or.inl ⟨h2, h1⟩
    · exact Or.inr ⟨h2, h1, Or.inl ⟨w2, w1⟩⟩
    · exact Or.inr ⟨h2, h1, Or.inr ⟨w2, w1, lawful.symm same⟩⟩
  trans {v1 v2 v3} left right := by
    rw [compareVStrings_eq_zero] at left right ⊢
    rcases left with ⟨h1, h2⟩ | ⟨h1, h2, ⟨w1, w2⟩ | ⟨w1, w2, same⟩⟩ <;>
      rcases right with ⟨h2', h3⟩ | ⟨h2', h3, ⟨w2', w3⟩ | ⟨w2', w3, same'⟩⟩
    case inl.inl => exact Or.inl ⟨h1, h3⟩
    case inr.inl.inr.inl => exact Or.inr ⟨h1, h3, Or.inl ⟨w1, w3⟩⟩
    case inr.inr.inr.inr => exact Or.inr ⟨h1, h3, Or.inr ⟨w1, w3, lawful.trans same same'⟩⟩
    all_goals simp_all

omit lawful in
private theorem compareVersions_eq_zero (pkg1 pkg2 : LCFGPackage) :
    compareVersions vercmp pkg1 pkg2 = 0 ↔
      (splitEpoch pkg1.version).1 = (splitEpoch pkg2.version).1 ∧
      Version.compareVStrings vercmp (splitEpoch pkg1.version).2 (splitEpoch pkg2.version).2 = 0 ∧
      Version.compareVStrings vercmp pkg1.release pkg2.release = 0 := by
  unfold compareVersions
  simp only
  split
  · simp
    omega
  · split
    · simp
      omega
    · have epochs : (splitEpoch pkg1.version).1 = (splitEpoch pkg2.version).1 := by omega
      split <;> simp_all

/-- Being equal is an equivalence of packages, as the version comparison is one. -/
theorem equals_equivalence : Equivalence fun p q => equals vercmp p q = true := by
  have versions := compareVStrings_equivalence lawful
  constructor
  · intro p
    simp [equals, compareNames, compareArchs, compareVersions_eq_zero, versions.refl]
  · intro p q equal
    simp only [equals, compareNames, compareArchs, Bool.and_eq_true, beq_iff_eq, strcmp_eq_zero,
      strcasecmp_eq_zero, compareVersions_eq_zero] at equal ⊢
    obtain ⟨⟨⟨⟨name, arch⟩, epoch, version, release⟩, flags⟩, context⟩ := equal
    exact ⟨⟨⟨⟨name.symm, arch.symm⟩, epoch.symm, versions.symm version, versions.symm release⟩,
      flags.symm⟩, context.symm⟩
  · intro p q r left right
    simp only [equals, compareNames, compareArchs, Bool.and_eq_true, beq_iff_eq, strcmp_eq_zero,
      strcasecmp_eq_zero, compareVersions_eq_zero] at left right ⊢
    obtain ⟨⟨⟨⟨name, arch⟩, epoch, version, release⟩, flags⟩, context⟩ := left
    obtain ⟨⟨⟨⟨name', arch'⟩, epoch', version', release'⟩, flags'⟩, context'⟩ := right
    exact ⟨⟨⟨⟨name.trans name', arch.trans arch'⟩, epoch.trans epoch',
      versions.trans version version', versions.trans release release'⟩, flags.trans flags'⟩,
      context.trans context'⟩

end Equality

end Package
end Lcfg
