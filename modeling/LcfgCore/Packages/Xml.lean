import LcfgCore.Library.Xml
import LcfgCore.Packages.SpecRoundTrip
import LcfgCore.Packages.Styles

/-!
# Packages as XML

`lcfgpackage_to_xml` copies the values of a package into an element as they are. What the
setters admit into a name, a version, a release, an architecture or the flags needs no
reference there; a context and the files of a derivation may.
-/
namespace Lcfg

namespace Package

section Element

variable (d : DerivedPackage) (defarch : Option String) (options : LCFGOption)

def xmlContext : List Char := if options.useMeta then (d.pkg.context.getD "").toList else []

def xmlDerivation : List Char := if options.useMeta then derivationText d else []

/-- Release and architecture stand in one element. -/
def xmlRelease : List Char :=
  (orDefault d.pkg.release wildcard ++ part "/" (specArch d.pkg defarch) "").toList

/-- The element which stands for a package. -/
def xmlElement : Xml.Node :=
  .element "package".toList
    ([("cfg:context".toList, xmlContext d options),
      ("cfg:derivation".toList, xmlDerivation d options)].filter (·.2 ≠ []))
    ([Xml.leaf "name".toList (d.pkg.name.getD "").toList,
      Xml.leaf "v".toList (orDefault d.pkg.version wildcard).toList,
      Xml.leaf "r".toList (xmlRelease d defarch)] ++
      if isEmpty d.pkg.flags then []
      else [Xml.leaf "options".toList (d.pkg.flags.getD "").toList])

end Element

variable {signedChar : Bool} {d : DerivedPackage} {defarch : Option String} {options : LCFGOption}

private theorem xmlAttributes_eq (context deriv : List Char) :
    xmlAttribute "cfg:context" context ++ xmlAttribute "cfg:derivation" deriv =
      Xml.renderAttributes
        ([("cfg:context".toList, context), ("cfg:derivation".toList, deriv)].filter
          (·.2 ≠ [])) := by
  by_cases noContext : context = [] <;> by_cases noDeriv : deriv = [] <;>
    simp [xmlAttribute, Xml.renderAttributes, noContext, noDeriv]

/-- A line with the element of the package is written. -/
theorem toXml_eq (named : isValid d.pkg = true) :
    toXml d defarch options =
      some ("   ".toList ++ (xmlElement d defarch options).render ++ ['\n']) := by
  have name : isEmpty d.pkg.name = false := by simpa [isValid] using named
  rw [toXml, if_pos named]
  simp only [xmlElement, Xml.Node.render, Xml.renderAll_append, ← xmlAttributes_eq]
  rw [xmlContext, xmlDerivation, xmlRelease, part, part, name]
  by_cases noFlags : isEmpty d.pkg.flags = true
  · have none_ : part "<options>" d.pkg.flags "</options>" = "" := if_pos noFlags
    simp [none_, noFlags, Xml.renderAll, Xml.render_leaf]
  · have given : part "<options>" d.pkg.flags "</options>" =
        "<options>" ++ d.pkg.flags.getD "" ++ "</options>" := if_neg noFlags
    simp [given, noFlags, Xml.renderAll, Xml.render_leaf]

/-! ## Which values need no reference -/

theorem VerChars.plain {chars : List Char} (ver : VerChars chars) : Xml.Plain chars := by
  intro c member
  cases special : Xml.special c with
  | false => rfl
  | true =>
    have verChar := ver c member
    simp only [Xml.special, Bool.or_eq_true, beq_iff_eq] at special
    rcases special with (rfl | rfl) | rfl
    · revert verChar
      decide
    · revert verChar
      decide
    · revert verChar
      decide

/-- A wildcard stands for a missing value. -/
theorem orDefault_verChars {value : Option String} (ver : ∀ v ∈ value, VerChars v.toList) :
    VerChars (orDefault value wildcard).toList := by
  have star : VerChars wildcard.toList := by
    intro c member
    rw [List.mem_singleton.mp member]
    decide
  cases value with
  | none => exact star
  | some v =>
    rw [orDefault]
    split
    · exact star
    · exact ver v rfl

theorem specArch_verChars : ∀ arch ∈ specArch d.pkg defarch, VerChars arch.toList := by
  intro arch given
  rw [specArch] at given
  split at given
  · exact validArch_verChars (d.pkg.arch_valid arch given)
  · cases given

/-- What the setters admit into the texts of the element needs no reference. -/
theorem xml_texts_plain (valid : Valid signedChar d.pkg) (named : isValid d.pkg = true) :
    ∀ text ∈ [(d.pkg.name.getD "").toList, (orDefault d.pkg.version wildcard).toList,
      xmlRelease d defarch, (d.pkg.flags.getD "").toList], Xml.Plain text := by
  have name : VerChars (d.pkg.name.getD "").toList := by
    cases given : d.pkg.name with
    | none =>
      rw [isValid, given] at named
      cases named
    | some n => exact validName_verChars (d.pkg.name_valid n given)
  have version : VerChars (orDefault d.pkg.version wildcard).toList :=
    orDefault_verChars fun v given => validVersion_verChars (valid.version v given)
  have release : VerChars (orDefault d.pkg.release wildcard).toList :=
    orDefault_verChars fun r given => validRelease_verChars (valid.release r given)
  have flags : VerChars (d.pkg.flags.getD "").toList := by
    cases given : d.pkg.flags with
    | none => exact fun c member => by cases member
    | some f =>
      intro c member
      rw [isVerChar, validFlags_alnum (valid.flags f given) c member, Bool.true_or]
  -- the release may be followed by an architecture
  intro text member
  simp only [List.mem_cons, List.not_mem_nil, or_false] at member
  rcases member with rfl | rfl | rfl | rfl
  · exact name.plain
  · exact version.plain
  · rw [xmlRelease, String.toList_append]
    intro c member
    rcases List.mem_append.mp member with inRelease | inArch
    · exact release.plain c inRelease
    · rw [part] at inArch
      split at inArch
      · cases inArch
      · cases given : specArch d.pkg defarch with
        | none =>
          rw [given] at inArch
          simp at inArch
          subst inArch
          rfl
        | some arch =>
          rw [given] at inArch
          simp at inArch
          rcases inArch with rfl | inArch
          · rfl
          · exact (specArch_verChars arch given).plain c inArch
  · exact flags.plain

/-- No special character comes into the text of a derivation but from a file. -/
theorem plain_derivationText :
    Xml.Plain (derivationText d) ↔ ∀ drv ∈ d.derivation, Derivation.isValid drv = true →
      Xml.Plain (drv.file.getD "").toList := by
  have outside : ∀ c, Xml.special c = true → c.isDigit = false ∧ c ∉ [' ', ':', ','] := by
    intro c special
    simp only [Xml.special, Bool.or_eq_true, beq_iff_eq] at special
    rcases special with (rfl | rfl) | rfl <;> decide
  have text : ∀ c, c ∈ derivationText d ↔ c ∈ DerivList.toString d.derivation := by
    intro c
    rw [derivationText, pragmaValue]
    split
    case isTrue none_ =>
      rw [none_]
      rfl
    case isFalse => rfl
  -- numbers and what separates them are not special
  constructor
  · intro plain drv member given c inFile
    cases special : Xml.special c with
    | false => rfl
    | true =>
      obtain ⟨noDigit, between⟩ := outside c special
      have there := (DerivList.mem_toString_iff noDigit between).mpr ⟨drv, member, given, inFile⟩
      rw [plain c ((text c).mpr there)] at special
      cases special
  · intro files c inside
    cases special : Xml.special c with
    | false => rfl
    | true =>
      obtain ⟨noDigit, between⟩ := outside c special
      obtain ⟨drv, member, given, inFile⟩ :=
        (DerivList.mem_toString_iff noDigit between).mp ((text c).mp inside)
      rw [files drv member given c inFile] at special
      cases special

/-- The values of the element need no reference unless the meta-data are written and there
is a special character in the context or in the name of a file. -/
theorem toXml_escaped_iff (valid : Valid signedChar d.pkg) (named : isValid d.pkg = true) :
    (toXml d defarch options =
        some ("   ".toList ++ (xmlElement d defarch options).render ++ ['\n']) ∧
      (xmlElement d defarch options).Escaped) ↔
    (options.useMeta = true → Xml.Plain (d.pkg.context.getD "").toList ∧
      ∀ drv ∈ d.derivation, Derivation.isValid drv = true →
        Xml.Plain (drv.file.getD "").toList) := by
  -- the texts never need a reference, so that only the attributes are left
  rw [and_iff_right (toXml_eq named), xmlElement, Xml.escaped_element, and_iff_left]
  · rw [← plain_derivationText]
    have written : ∀ value : List Char, Xml.Plain value ↔ (value ≠ [] → Xml.Plain value) := by
      intro value
      by_cases empty : value = []
      · simp [empty, Xml.Plain]
      · simp [empty]
    by_cases useMeta : options.useMeta = true
    · have context : xmlContext d options = (d.pkg.context.getD "").toList := if_pos useMeta
      have deriv : xmlDerivation d options = derivationText d := if_pos useMeta
      rw [context, deriv, forall_prop_of_true useMeta, written (d.pkg.context.getD "").toList,
        written (derivationText d)]
      simp
    · have context : xmlContext d options = [] := if_neg useMeta
      have deriv : xmlDerivation d options = [] := if_neg useMeta
      simp [context, deriv, useMeta]
  · have plain := @xml_texts_plain signedChar d defarch valid named
    intro child member
    rcases List.mem_append.mp member with fixed | flags
    · simp only [List.mem_cons, List.not_mem_nil, or_false] at fixed
      rcases fixed with rfl | rfl | rfl
      · exact Xml.escaped_leaf.mpr (plain _ (by simp))
      · exact Xml.escaped_leaf.mpr (plain _ (by simp))
      · exact Xml.escaped_leaf.mpr (plain _ (by simp))
    · split at flags
      · cases flags
      · rw [List.mem_singleton.mp flags]
        exact Xml.escaped_leaf.mpr (plain _ (by simp))

private theorem valid_foo {context : String}
    (accepted : validContext true context = true)
    (noNul : context.toList.all (·.toNat != 0) = true) :
    Valid true { name := some "foo", context := some context } := by
  refine ⟨by simp, by simp, by simp, fun c member => ?_, ⟨rfl, rfl⟩⟩
  obtain rfl := Option.mem_some_iff.mp member
  exact ⟨accepted, fun c there => bne_iff_ne.mp (List.all_eq_true.mp noNul c there)⟩

def contextPackage : DerivedPackage where
  pkg := { name := some "foo", context := some "a & b" }

def derivedPackage : DerivedPackage where
  pkg := { name := some "foo", context := some "a" }
  derivation := [⟨some "site.rpms", [3]⟩]

theorem derivedPackage_escaped :
    toXml derivedPackage none { useMeta := true } =
        some ("   ".toList ++ (xmlElement derivedPackage none { useMeta := true }).render ++
          ['\n']) ∧
      (xmlElement derivedPackage none { useMeta := true }).Escaped := by
  have valid : Valid true derivedPackage.pkg := valid_foo (by decide +kernel) (by decide)
  refine (toXml_escaped_iff valid (by decide)).mpr fun _ => ?_
  decide

/-- The operator of a context is not replaced by a reference. -/
theorem contextPackage_not_escaped :
    ¬ ∀ (signedChar : Bool) (d : DerivedPackage) (defarch : Option String) (options : LCFGOption),
      Valid signedChar d.pkg → isValid d.pkg = true →
        ∃ text, toXml d defarch options = some text ∧
          text = "   ".toList ++ (xmlElement d defarch options).render ++ ['\n'] ∧
          (xmlElement d defarch options).Escaped := by
  intro every
  have valid : Valid true contextPackage.pkg := valid_foo (by decide +kernel) (by decide)
  obtain ⟨text, -, -, escaped⟩ :=
    every true contextPackage none { useMeta := true } valid (by decide)
  have plain := escaped "a & b".toList (by decide) '&' (by decide)
  revert plain
  decide

end Package

end Lcfg
