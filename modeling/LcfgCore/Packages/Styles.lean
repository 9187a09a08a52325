import LcfgCore.Packages.Cpp
import LcfgCore.Packages.Rpm

/-!
# Output styles for packages

The remaining text forms of a package and the choice between all of them:
`lcfgpackage_to_summary`, `lcfgpackage_to_xml` and `lcfgpackage_to_string` in
`packages/package.c`, `lcfgpackage_to_deb_filename` in `packages/deb.c`.
-/
namespace Lcfg

inductive LCFGPkgStyle where
  | spec | rpm | cpp | xml | summary | eval | deb
deriving DecidableEq, Repr

namespace Package

/-- Version and release; a Debian package may have no release. -/
def fullVersion (pkg : LCFGPackage) : String :=
  orDefault pkg.version wildcard ++ part "-" pkg.release ""

/-- The text of a derivation, or nothing. -/
def derivationText (d : DerivedPackage) : List Char := pragmaValue d .derive

/-- A line of the summary, with its key to the right of seven columns. -/
def summaryLine (key : String) (value : List Char) : List Char :=
  ' ' :: List.replicate (7 - key.length) ' ' ++ key.toList ++ '=' :: value ++ ['\n']

/-- `lcfgpackage_to_summary` -/
def toSummary (d : DerivedPackage) (defarch : Option String) (options : LCFGOption) :
    Option (List Char) :=
  if isValid d.pkg then
    let pkgarch := orDefault d.pkg.arch (defarch.getD "")
    let deriv := if options.useMeta then derivationText d else []
    let context := if options.useMeta then (d.pkg.context.getD "").toList else []
    some <|
      (d.pkg.name.getD "").toList ++ ":\n".toList ++
      summaryLine "version" (fullVersion d.pkg).toList ++
      (if pkgarch = "" then [] else summaryLine "arch" pkgarch.toList) ++
      (if deriv = [] then [] else summaryLine "derive" deriv) ++
      (if context = [] then [] else summaryLine "context" context)
  else none

/-- An attribute of the XML element, left out for an empty value. -/
def xmlAttribute (key : String) (value : List Char) : List Char :=
  if value = [] then [] else ' ' :: key.toList ++ "=\"".toList ++ value ++ ['"']

/-- `lcfgpackage_to_xml` -/
def toXml (d : DerivedPackage) (defarch : Option String) (options : LCFGOption) :
    Option (List Char) :=
  if isValid d.pkg then
    let deriv := if options.useMeta then derivationText d else []
    let context := if options.useMeta then (d.pkg.context.getD "").toList else []
    some <|
      "   <package".toList ++ xmlAttribute "cfg:context" context ++
      xmlAttribute "cfg:derivation" deriv ++
      (">" ++ part "<name>" d.pkg.name "</name>" ++
        "<v>" ++ orDefault d.pkg.version wildcard ++ "</v>" ++
        "<r>" ++ orDefault d.pkg.release wildcard ++ part "/" (specArch d.pkg defarch) "" ++ "</r>" ++
        part "<options>" d.pkg.flags "</options>" ++ "</package>\n").toList
  else none

/-- The name of an architecture on Debian. -/
def debArch (arch : String) : String :=
  if arch = "x86_64" then "amd64" else if arch = "noarch" then "all" else arch

/-- `lcfgpackage_to_deb_filename`, on a machine with the given default architecture. -/
def toDebFilename (defaultArchitecture : String) (pkg : LCFGPackage) (defarch : Option String)
    (options : LCFGOption) : Option String :=
  if !isValid pkg || !hasVersion pkg then none
  else
    let pkgarch :=
      if hasArch pkg then pkg.arch.getD ""
      else if !isEmpty defarch then defarch.getD "" else defaultArchitecture
    some (pkg.name.getD "" ++ "_" ++ withoutEpoch (pkg.version.getD "") ++
      part "-" pkg.release "" ++ "_" ++ debArch pkgarch ++ ".deb" ++
      if options.newline then "\n" else "")

/-- `lcfgpackage_to_string`; the style for shell variables is not a case of its own. -/
def toString (defaultArchitecture : String) (d : DerivedPackage) (defarch : Option String)
    (style : LCFGPkgStyle) (options : LCFGOption) : Option (List Char) :=
  match style with
  | .xml => toXml d defarch options
  | .cpp => toCpp d defarch options
  | .summary => toSummary d defarch options
  | .rpm => (toRpmFilename defaultArchitecture d.pkg defarch options).map String.toList
  | .deb => (toDebFilename defaultArchitecture d.pkg defarch options).map String.toList
  | .spec | .eval => (toSpec d.pkg defarch options).map String.toList

end Package

end Lcfg
