import LcfgCore.Common

/-!
# Derivations

Where something was specified: a list of files, each with line numbers. The
library shares derivations between packages and copies them before it writes
to them, so they are values here and a merge returns a new one.
-/
namespace Lcfg

structure LCFGDerivation where
  file : Option String := none
  lines : List Nat := []
deriving DecidableEq, Repr

abbrev LCFGDerivationList := List LCFGDerivation

namespace Derivation

def isValid (drv : LCFGDerivation) : Bool := !isEmpty drv.file

def hasLine (drv : LCFGDerivation) (line : Nat) : Bool := drv.lines.contains line

def mergeLine (drv : LCFGDerivation) (line : Nat) : LCFGDerivation × LCFGChange :=
  if hasLine drv line then (drv, .none)
  else ({ drv with lines := drv.lines ++ [line] }, .added)

def mergeLines (drv1 drv2 : LCFGDerivation) : LCFGDerivation × LCFGChange :=
  drv2.lines.foldl (fun (drv, change) line =>
    match mergeLine drv line with
    | (drv, .added) => (drv, .modified)
    | (drv, _) => (drv, change)) (drv1, .none)

/-- `lcfgderivation_match`. -/
def matchFile (drv : LCFGDerivation) (file : String) : Bool := orDefault drv.file "" == file

end Derivation

namespace DerivList

/-- Merge into the entry for the same file, or append a new entry. -/
def mergeDerivation (drvlist : LCFGDerivationList) (new : LCFGDerivation) :
    LCFGDerivationList × LCFGChange :=
  if !Derivation.isValid new then (drvlist, .error)
  else
    let found (drv : LCFGDerivation) :=
      Derivation.isValid drv && Derivation.matchFile drv (orDefault new.file "")
    match drvlist.findIdx? found with
    | none => (drvlist ++ [new], .added)
    | some i =>
      let (drv, change) := Derivation.mergeLines (drvlist.getD i {}) new
      (drvlist.set i drv, change)

def mergeList (drvlist1 drvlist2 : LCFGDerivationList) : LCFGDerivationList × LCFGChange :=
  drvlist2.foldl (fun (drvlist, change) drv =>
    if change = .error || !Derivation.isValid drv then (drvlist, change)
    else
      match mergeDerivation drvlist drv with
      | (drvlist, .error) => (drvlist, .error)
      | (drvlist, .none) => (drvlist, change)
      | (drvlist, _) => (drvlist, .modified)) (drvlist1, .none)

/-- `lcfgpackage_merge_derivation`: the derivation of the first package after the merge. -/
def mergeInto (drvlist1 drvlist2 : LCFGDerivationList) : LCFGDerivationList :=
  if drvlist2 = [] then drvlist1
  else if drvlist1 = [] then drvlist2
  else
    match mergeList drvlist1 drvlist2 with
    | (_, .error) => drvlist1
    | (_, .none) => drvlist1
    | (merged, _) => merged

end DerivList

end Lcfg
