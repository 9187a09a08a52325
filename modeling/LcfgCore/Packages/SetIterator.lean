import LcfgCore.Library.BucketCursor
import LcfgCore.Packages.Growth

/-!
# Iterators over package sets

The iterator over a package list (`packages/iterator.c`), and the one over a package set with
it (`packages/setiter.c`).

## Main result

`visits_iff`: all packages of a sound set are visited, each of them once, if and only if its
buckets and the packages of each name can be counted.
-/
namespace Lcfg

/-- `lcfgslist_is_empty`; the size is an `unsigned int`. -/
def slistIsEmpty {α : Type} (list : LinkedList α) : Bool := list.size % 2 ^ 32 == 0

theorem slistIsEmpty_eq_false_iff {α : Type} {list : LinkedList α} :
    slistIsEmpty list = false ↔ list.size % 2 ^ 32 ≠ 0 := beq_eq_false_iff_ne

abbrev LCFGPackageIterator := BucketCursor.ListIter Addr

namespace PkgIter

def hasNext (iterator : LCFGPackageIterator) : Bool :=
  BucketCursor.ListIter.hasNext slistIsEmpty iterator

def next (iterator : LCFGPackageIterator) : LCFGPackageIterator × Option Addr :=
  BucketCursor.ListIter.next slistIsEmpty iterator

end PkgIter

/-- The state of an iterator apart from its set. -/
abbrev LCFGPkgSetIterator := BucketCursor.Cursor Addr

namespace PkgSetIter

def new : LCFGPkgSetIterator := {}

def chains (set : LCFGPackageSet) : List (Option (LinkedList Addr)) :=
  set.packages.map (Option.map LCFGPackageList.chain)

/-- `lcfgpkgsetiter_has_next`, none for a read behind the buckets. -/
def hasNext (set : LCFGPackageSet) (iterator : LCFGPkgSetIterator) : Option Bool :=
  BucketCursor.hasNext slistIsEmpty (chains set) set.buckets iterator

/-- `lcfgpkgsetiter_next`; the number of the next bucket is compared as an `unsigned int`. -/
def next (set : LCFGPackageSet) (iterator : LCFGPkgSetIterator) :
    Option (LCFGPkgSetIterator × Option Addr) :=
  BucketCursor.next slistIsEmpty (chains set) set.buckets (2 ^ 32) true iterator

/-- The calls return every package once and then nothing, and the test always agrees. -/
def Visits (set : LCFGPackageSet) : Prop :=
  ∃ packages, packages.Perm (PkgSet.allPackages set) ∧
    Iteration.Exact (hasNext set) (next set) new packages

/-- An `unsigned int` can count the buckets, and the packages of no name pass for none. -/
def Countable (set : LCFGPackageSet) : Prop :=
  set.buckets < 2 ^ 32 ∧ ∀ list ∈ LinearProbe.stored set.packages, list.chain.size % 2 ^ 32 ≠ 0

theorem visits_iff {pkg : Addr → LCFGPackage} {set : LCFGPackageSet} (sound : PkgSet.Sound pkg set) :
    Visits set ↔ Countable set := by
  have items : ∀ list ∈ LinearProbe.stored set.packages, list.chain.items ≠ [] := by
    intro list inside
    obtain ⟨name, listFor⟩ := sound.lists list inside
    exact listFor.nonempty
  rw [Visits, Countable, PkgSet.allPackages_eq]
  simp only [← slistIsEmpty_eq_false_iff]
  exact BucketCursor.exact_stored_iff slistIsEmpty true LCFGPackageList.chain items sound.length
    (by decide : 0 < 2 ^ 32)

end PkgSetIter

end Lcfg
