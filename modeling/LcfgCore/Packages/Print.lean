import LcfgCore.Library.Output
import LcfgCore.Packages.SetRuns
import LcfgCore.Packages.Sort
import LcfgCore.Packages.Styles

/-!
# Printing package sets

`lcfgpkgset_print` writes the packages of a set sorted by name and, for each name, as
`lcfgpkglist_sort` leaves them (`packages/set.c`). What is sorted is not all that is
printed: two packages which compare equal may have different texts.

## Main result

`print_canonical_iff`: when two sets with the same packages are printed the same.
-/
namespace Lcfg

structure LCFGPkgSetEntry where
  name : String
  id : Nat

namespace PkgSet

section Printing

variable (vercmp : VersionOrder) (pkgs : Addr → DerivedPackage)

/-- `lcfgpkgset_entry_cmp` -/
def entryCmp (a b : LCFGPkgSetEntry) : Int := strcasecmp a.name b.name

/-- The first package of a bucket, if it is valid. -/
def validFirst (bucket : Option LCFGPackageList) : Option Addr :=
  (bucket.bind PkgList.firstPackage).filter fun a => Package.isValid (pkgs a).pkg

/-- An entry for each bucket which has one. -/
def unsortedEntries (set : LCFGPackageSet) : List LCFGPkgSetEntry :=
  set.packages.zipIdx.filterMap fun bucket =>
    (validFirst pkgs bucket.1).map fun a => ⟨(pkgs a).pkg.name.getD "", bucket.2⟩

/-- The lists of the entries are sorted in place. -/
def sortLists (set : LCFGPackageSet) : LCFGPackageSet :=
  { set with
    packages := set.packages.map fun bucket =>
      if (validFirst pkgs bucket).isSome then
        bucket.map (PkgList.sort vercmp fun a => (pkgs a).pkg)
      else bucket }

/-- What is written for one package, `toStr` being `lcfgpackage_to_string`. -/
def printPackage (toStr : DerivedPackage → Option (List Char)) (base : Option String)
    (d : DerivedPackage) : Output Char :=
  if Package.isValid d.pkg then
    match toStr d with
    | none => ⟨[], false⟩
    | some text => ⟨(base.getD "").toList ++ text, true⟩
  else .done

/-- What is written for the bucket of an entry. -/
def printBucket (toStr : DerivedPackage → Option (List Char)) (base : Option String)
    (set : LCFGPackageSet) (entry : LCFGPkgSetEntry) : Output Char :=
  Output.all ((entryItems set.packages[entry.id]?.join).map fun a =>
    printPackage toStr base (pkgs a))

/-- How a package is written: for filenames the default architecture is looked up once. -/
def printString (defaultArchitecture : String) (defarch : Option String) (style : LCFGPkgStyle)
    (options : LCFGOption) (d : DerivedPackage) : Option (List Char) :=
  match style with
  | .rpm | .deb => Package.toString defaultArchitecture d
      (some (defarch.getD defaultArchitecture)) style { options with newline := true }
  | .spec => Package.toString defaultArchitecture d defarch style { options with newline := true }
  | .xml | .cpp | .summary | .eval => Package.toString defaultArchitecture d defarch style options

/-- In the XML style the packages stand in an element. -/
def inTags (style : LCFGPkgStyle) (packages : Output Char) : Output Char :=
  let tag (text : String) : Output Char := .written (if style = .xml then text.toList else [])
  (tag "  <packages>\n").andThen (packages.andThen (tag "  </packages>\n"))

/-- `lcfgpkgset_print` once the entries have been sorted. -/
def print (defaultArchitecture : String) (set : LCFGPackageSet) (defarch base : Option String)
    (style : LCFGPkgStyle) (options : LCFGOption) (entries : List LCFGPkgSetEntry) : Output Char :=
  let toStr := printString defaultArchitecture defarch style options
  inTags style (Output.all (entries.map (printBucket pkgs toStr base (sortLists vercmp pkgs set))))

/-- What may be written, whatever `qsort` does with names that compare equal. -/
def Prints (defaultArchitecture : String) (set : LCFGPackageSet) (defarch base : Option String)
    (style : LCFGPkgStyle) (options : LCFGOption) (out : Output Char) : Prop :=
  ∃ entries, QSort.Sorts entryCmp (unsortedEntries pkgs set) entries ∧
    out = print vercmp pkgs defaultArchitecture set defarch base style options entries

end Printing

/-- Both sets are always written as the same text. -/
def Canonical (vercmp : VersionOrder) (pkgs1 pkgs2 : Addr → DerivedPackage)
    (defaultArchitecture : String) (set1 set2 : LCFGPackageSet) (defarch base : Option String)
    (style : LCFGPkgStyle) (options : LCFGOption) : Prop :=
  ∀ out1 out2, Prints vercmp pkgs1 defaultArchitecture set1 defarch base style options out1 →
    Prints vercmp pkgs2 defaultArchitecture set2 defarch base style options out2 →
      out1.text = out2.text

/-! ## Lists of packages -/

/-- The packages of a bucket, and their name. -/
abbrev NamedPackages := String × List DerivedPackage

section Plain

variable (vercmp : VersionOrder) (write : DerivedPackage → Output Char)

def comparePackages (p q : DerivedPackage) : Int := Package.compare vercmp p.pkg q.pkg

def compareLists (l m : NamedPackages) : Int := strcasecmp l.1 m.1

def sortPackages (packages : List DerivedPackage) : List DerivedPackage :=
  BubbleSort.sort (fun p q => comparePackages vercmp p q > 0) packages

def writeList (l : NamedPackages) : Output Char :=
  Output.all ((sortPackages vercmp l.2).map write)

/-- The lists whose names are the same but for case print the same in any order, in both
sets, and the same in one set as in the other. -/
structure ClassAgrees (lists1 lists2 : List NamedPackages) (p : NamedPackages) : Prop where
  commute1 : ∀ l ∈ Output.tiedTo compareLists lists1 p, ∀ m ∈ Output.tiedTo compareLists lists1 p,
    (writeList vercmp write l).andThen (writeList vercmp write m) =
      (writeList vercmp write m).andThen (writeList vercmp write l)
  commute2 : ∀ l ∈ Output.tiedTo compareLists lists2 p, ∀ m ∈ Output.tiedTo compareLists lists2 p,
    (writeList vercmp write l).andThen (writeList vercmp write m) =
      (writeList vercmp write m).andThen (writeList vercmp write l)
  same : Output.all ((Output.tiedTo compareLists lists1 p).map (writeList vercmp write)) =
    Output.all ((Output.tiedTo compareLists lists2 p).map (writeList vercmp write))

/-- All packages with smaller names can be printed. -/
def ListReached (lists : List NamedPackages) (p : NamedPackages) : Prop :=
  Output.Reached compareLists (writeList vercmp write) lists p

/-- Packages which compare equal print the same, in the orders in which they stand in both
lists, as far as the packages before them can be printed. -/
def PackagesAgree (l1 l2 : List DerivedPackage) : Prop :=
  ∀ p ∈ l1, Output.Reached (comparePackages vercmp) write l1 p →
    Output.group (comparePackages vercmp) write l1 p =
      Output.group (comparePackages vercmp) write l2 p

/-- The condition where each name has one list: its packages agree, and the lists of two
names which differ only in case print the same in either order. -/
structure NamesAgree (lists1 lists2 : List NamedPackages) : Prop where
  within : ∀ l1 ∈ lists1, ListReached vercmp write lists1 l1 → ∀ l2 ∈ lists2, l2.1 = l1.1 →
    PackagesAgree vercmp write l1.2 l2.2
  between : ∀ l ∈ lists1, ListReached vercmp write lists1 l → ∀ m ∈ lists1, compareLists m l = 0 →
    (writeList vercmp write l).andThen (writeList vercmp write m) =
      (writeList vercmp write m).andThen (writeList vercmp write l)

end Plain

/-- Each list is of packages of one name, and of some. -/
def Named (lists : List NamedPackages) : Prop :=
  ∀ l ∈ lists, l.2 ≠ [] ∧ ∀ d ∈ l.2, d.pkg.name.getD "" = l.1

/-- The packages of a name, in all lists. -/
def packagesOf (lists : List NamedPackages) (name : String) : List DerivedPackage :=
  (lists.flatMap Prod.snd).filter fun d => d.pkg.name.getD "" = name

/-- For every name the same packages, as often. -/
def SamePackages (lists1 lists2 : List NamedPackages) : Prop :=
  ∀ name, (packagesOf lists1 name).Perm (packagesOf lists2 name)

section Lemmas

variable {vercmp : VersionOrder} {write : DerivedPackage → Output Char}
  {lists lists1 lists2 : List NamedPackages}

theorem SamePackages.perm (same : SamePackages lists1 lists2) :
    (lists1.flatMap Prod.snd).Perm (lists2.flatMap Prod.snd) := by
  rw [List.perm_iff_count]
  intro d
  have counted := (same (d.pkg.name.getD "")).count_eq d
  rwa [packagesOf, packagesOf, List.count_filter (by simp), List.count_filter (by simp)] at counted

theorem compareLists_preorder : QSort.Preorder compareLists :=
  strcasecmp_preorder.comap Prod.fst

theorem comparePackages_preorder (lawful : QSort.Preorder vercmp) :
    QSort.Preorder (comparePackages vercmp) :=
  (Package.compare_preorder lawful).comap DerivedPackage.pkg

/-- The packages of the lists which tie with `p` are those whose names do. -/
theorem tiedTo_packages (named : Named lists) (p : NamedPackages) :
    (Output.tiedTo compareLists lists p).flatMap Prod.snd =
      (lists.flatMap Prod.snd).filter fun d => strcasecmp (d.pkg.name.getD "") p.1 = 0 := by
  induction lists with
  | nil => rfl
  | cons l rest ih =>
    have names := (named l List.mem_cons_self).2
    rw [List.flatMap_cons, List.filter_append, ← ih fun m member => named m (List.mem_cons_of_mem l member),
      Output.tiedTo, List.filter_cons]
    by_cases tied : compareLists l p = 0
    · rw [if_pos (decide_eq_true tied), List.flatMap_cons]
      congr 1
      refine (List.filter_eq_self.mpr fun d member => ?_).symm
      rw [names d member]
      exact decide_eq_true tied
    · have gone : l.2.filter (fun d => strcasecmp (d.pkg.name.getD "") p.1 = 0) = [] := by
        refine List.filter_eq_nil_iff.mpr fun d member => ?_
        rw [names d member]
        exact fun zero => tied (of_decide_eq_true zero)
      rw [if_neg (by simpa using tied), gone]
      rfl

theorem sortPackages_perm (vercmp : VersionOrder) (packages : List DerivedPackage) :
    (sortPackages vercmp packages).Perm packages := BubbleSort.sort_perm _

/-- The output of some lists is that of their packages in some order. -/
theorem lists_packages (vercmp : VersionOrder) (write : DerivedPackage → Output Char)
    (lists : List NamedPackages) : ∃ order : List DerivedPackage,
      order.Perm (lists.flatMap Prod.snd) ∧
        Output.all (lists.map (writeList vercmp write)) = Output.all (order.map write) := by
  refine ⟨lists.flatMap fun l => sortPackages vercmp l.2, ?_, ?_⟩
  · exact List.Perm.flatMap_left _ fun l _ => sortPackages_perm vercmp l.2
  · rw [List.map_flatMap, ← Output.all_flatMap]
    rfl

/-- The output of a class of lists is that of its packages in some order. -/
theorem group_packages (vercmp : VersionOrder) (write : DerivedPackage → Output Char)
    (named : Named lists) (p : NamedPackages) :
    ∃ order : List DerivedPackage, order.Perm ((lists.flatMap Prod.snd).filter fun d =>
        strcasecmp (d.pkg.name.getD "") p.1 = 0) ∧
      Output.group compareLists (writeList vercmp write) lists p = Output.all (order.map write) := by
  rw [← tiedTo_packages named]
  exact lists_packages vercmp write _

/-- Whether all is written does not depend on the order. -/
theorem all_ok_eq (same : SamePackages lists1 lists2) {sorted1 sorted2 : List NamedPackages}
    (perm1 : sorted1.Perm lists1) (perm2 : sorted2.Perm lists2) :
    (Output.all (sorted1.map (writeList vercmp write))).ok =
      (Output.all (sorted2.map (writeList vercmp write))).ok := by
  obtain ⟨order1, packages1, shown1⟩ := lists_packages vercmp write sorted1
  obtain ⟨order2, packages2, shown2⟩ := lists_packages vercmp write sorted2
  rw [shown1, shown2]
  have both := same.perm.trans (perm2.flatMap_right Prod.snd).symm
  exact Output.all_ok_of_perm
    ((packages1.trans ((perm1.flatMap_right Prod.snd).trans (both.trans packages2.symm))).map write)

theorem balanced (named1 : Named lists1) (named2 : Named lists2)
    (same : SamePackages lists1 lists2) :
    Output.Balanced compareLists (writeList vercmp write) lists1 lists2 := by
  have orders (p : NamedPackages) : ∃ order order' : List DerivedPackage, order.Perm order' ∧
      Output.group compareLists (writeList vercmp write) lists1 p = Output.all (order.map write) ∧
      Output.group compareLists (writeList vercmp write) lists2 p =
        Output.all (order'.map write) := by
    obtain ⟨order, perm, shown⟩ := group_packages vercmp write named1 p
    obtain ⟨order', perm', shown'⟩ := group_packages vercmp write named2 p
    exact ⟨order, order', perm.trans ((same.perm.filter _).trans perm'.symm), shown, shown'⟩
  refine ⟨fun q member => ?_, fun p _ => ?_, fun p _ ok => ?_⟩
  · obtain ⟨some_, names⟩ := named2 q member
    obtain ⟨d, inList⟩ := List.exists_mem_of_ne_nil _ some_
    have inAll := same.perm.mem_iff.mpr (List.mem_flatMap.mpr ⟨q, member, inList⟩)
    obtain ⟨p, inLists, inP⟩ := List.mem_flatMap.mp inAll
    have name := ((named1 p inLists).2 d inP).symm.trans (names d inList)
    exact ⟨p, inLists, by rw [compareLists, name]; exact strcasecmp_preorder.self q.1⟩
  · obtain ⟨order, order', perm, shown, shown'⟩ := orders p
    rw [shown, shown']
    exact Output.all_ok_of_perm (perm.map write)
  · obtain ⟨order, order', perm, shown, shown'⟩ := orders p
    rw [shown] at ok
    rw [shown, shown']
    exact Output.all_length_eq (perm.map write) ((Output.all_ok_iff _).mp ok)

/-- All orders of the lists print the same if and only if each class agrees. -/
theorem forall_sorts_iff (named1 : Named lists1) (named2 : Named lists2)
    (same : SamePackages lists1 lists2) :
    (∀ sorted1 sorted2, QSort.Sorts compareLists lists1 sorted1 →
      QSort.Sorts compareLists lists2 sorted2 →
        Output.all (sorted1.map (writeList vercmp write)) =
          Output.all (sorted2.map (writeList vercmp write))) ↔
      ∀ p ∈ lists1, ListReached vercmp write lists1 p →
        ClassAgrees vercmp write lists1 lists2 p := by
  rw [Output.forall_sorts_eq_iff compareLists_preorder (balanced named1 named2 same)]
  refine forall₂_congr fun p _ => imp_congr_right fun _ => ⟨fun orders => ?_, fun agrees => ?_⟩
  · have both := orders _ _ (.refl _) (.refl _)
    refine ⟨Output.commute_of_perm fun order perm => ?_, Output.commute_of_perm fun order perm => ?_,
      both⟩
    · exact (orders order _ perm (.refl _)).trans both.symm
    · exact (orders _ order (.refl _) perm).symm.trans both
  · intro order1 order2 perm1 perm2
    have ordered {lists order : List NamedPackages} (perm : order.Perm lists)
        (commute : ∀ l ∈ lists, ∀ m ∈ lists,
          (writeList vercmp write l).andThen (writeList vercmp write m) =
            (writeList vercmp write m).andThen (writeList vercmp write l)) :
        Output.all (order.map (writeList vercmp write)) =
          Output.all (lists.map (writeList vercmp write)) := by
      refine (Output.all_eq_of_perm (perm.symm.map _) ?_).symm
      rintro _ inA _ inB
      obtain ⟨l, inL, rfl⟩ := List.mem_map.mp inA
      obtain ⟨m, inM, rfl⟩ := List.mem_map.mp inB
      exact commute l inL m inM
    rw [ordered perm1 agrees.commute1, ordered perm2 agrees.commute2, agrees.same]

/-! ### One list for each name -/

theorem writeList_eq_iff (lawful : QSort.Preorder vercmp) {l1 l2 : NamedPackages}
    (perm : l1.2.Perm l2.2) : writeList vercmp write l1 = writeList vercmp write l2 ↔
      PackagesAgree vercmp write l1.2 l2.2 := by
  have preorder := comparePackages_preorder lawful
  have perm1 := sortPackages_perm vercmp l1.2
  have sortedPerm := perm1.trans (perm.trans (sortPackages_perm vercmp l2.2).symm)
  -- the sort is stable
  have groups (l : NamedPackages) (p : DerivedPackage) :
      Output.group (comparePackages vercmp) write (sortPackages vercmp l.2) p =
        Output.group (comparePackages vercmp) write l.2 p := by
    rw [Output.group, sortPackages, BubbleSort.sort_tied preorder, Output.group]
  rw [writeList, writeList, Output.all_eq_iff_groups preorder write _ _ _ le_rfl
    (Output.balanced_of_perm preorder sortedPerm write) (BubbleSort.sort_ordered preorder l1.2)
    (BubbleSort.sort_ordered preorder l2.2)]
  simp only [groups, PackagesAgree, Output.Reached, perm1.mem_iff]

/-- Every name has one list. -/
def OneList (lists : List NamedPackages) : Prop := (lists.map Prod.fst).Nodup

theorem exists_partner (named1 : Named lists1) (named2 : Named lists2)
    (same : SamePackages lists1 lists2) {l1 : NamedPackages} (member : l1 ∈ lists1) :
    ∃ l2 ∈ lists2, l2.1 = l1.1 := by
  obtain ⟨some_, names⟩ := named1 l1 member
  obtain ⟨d, inList⟩ := List.exists_mem_of_ne_nil _ some_
  have inAll := same.perm.mem_iff.mp (List.mem_flatMap.mpr ⟨l1, member, inList⟩)
  obtain ⟨l2, inLists, inL2⟩ := List.mem_flatMap.mp inAll
  exact ⟨l2, inLists, ((named2 l2 inLists).2 d inL2).symm.trans (names d inList)⟩

/-- The packages of a name are those of its list. -/
theorem OneList.packagesOf_eq (one : OneList lists) (named : Named lists) {l : NamedPackages}
    (member : l ∈ lists) : packagesOf lists l.1 = l.2 := by
  induction lists with
  | nil => cases member
  | cons first rest ih =>
    rw [OneList, List.map_cons, List.nodup_cons] at one
    have namedRest : Named rest := fun m inRest => named m (List.mem_cons_of_mem first inRest)
    have names := (named first List.mem_cons_self).2
    rw [packagesOf, List.flatMap_cons, List.filter_append]
    rcases List.mem_cons.mp member with rfl | inRest
    · have others : (rest.flatMap Prod.snd).filter (fun d => d.pkg.name.getD "" = l.1) = [] := by
        refine List.filter_eq_nil_iff.mpr fun d inAll => ?_
        obtain ⟨m, inM, here⟩ := List.mem_flatMap.mp inAll
        rw [(namedRest m inM).2 d here]
        have differ : m.1 ≠ l.1 := fun same => one.1 (same ▸ List.mem_map_of_mem inM)
        simpa using differ
      rw [others, List.append_nil, List.filter_eq_self]
      exact fun d inList => decide_eq_true (names d inList)
    · have none_ : first.2.filter (fun d => d.pkg.name.getD "" = l.1) = [] := by
        refine List.filter_eq_nil_iff.mpr fun d inList => ?_
        rw [names d inList]
        have differ : first.1 ≠ l.1 := fun same => one.1 (same ▸ List.mem_map_of_mem inRest)
        simpa using differ
      rw [none_, List.nil_append]
      exact ih one.2 namedRest inRest

theorem SamePackages.lists_perm (same : SamePackages lists1 lists2) (named1 : Named lists1)
    (named2 : Named lists2) (one1 : OneList lists1) (one2 : OneList lists2)
    {l1 l2 : NamedPackages} (member1 : l1 ∈ lists1) (member2 : l2 ∈ lists2)
    (name : l2.1 = l1.1) : l1.2.Perm l2.2 := by
  have perm := same l1.1
  rwa [one1.packagesOf_eq named1 member1, ← name, one2.packagesOf_eq named2 member2] at perm

/-- Reaching one list of a class is reaching all of them. -/
private theorem ListReached.congr {p l : NamedPackages}
    (reached : ListReached vercmp write lists1 p) (tied : compareLists l p = 0) :
    ListReached vercmp write lists1 l := by
  intro q member less
  have le := ((compareLists_preorder.eq_zero_iff l p).mp tied).1
  refine reached q member ?_
  by_contra more
  have back := (compareLists_preorder.swap q p).mpr (not_lt.mp more)
  have ge := compareLists_preorder.trans l p q le back
  have := (compareLists_preorder.swap q l).mp ge
  omega

private theorem mem_tiedTo {l p : NamedPackages} :
    l ∈ Output.tiedTo compareLists lists p ↔ l ∈ lists ∧ compareLists l p = 0 := by
  rw [Output.tiedTo, List.mem_filter, decide_eq_true_eq]

/-- A list may be written first of those it commutes with. -/
private theorem all_first {l : NamedPackages} (member : l ∈ lists)
    (commute : ∀ l ∈ lists, ∀ m ∈ lists,
      (writeList vercmp write l).andThen (writeList vercmp write m) =
        (writeList vercmp write m).andThen (writeList vercmp write l)) :
    ∃ rest, Output.all (lists.map (writeList vercmp write)) =
      (writeList vercmp write l).andThen rest := by
  obtain ⟨left, right, rfl⟩ := List.append_of_mem member
  refine ⟨Output.all ((left ++ right).map (writeList vercmp write)), ?_⟩
  rw [← Output.all_cons, ← List.map_cons]
  refine Output.all_eq_of_perm (List.perm_middle.map _) ?_
  rintro _ inA _ inB
  obtain ⟨a, inLists, rfl⟩ := List.mem_map.mp inA
  obtain ⟨b, inLists', rfl⟩ := List.mem_map.mp inB
  exact commute a inLists b inLists'

section Unique

variable (lawful : QSort.Preorder vercmp) (named1 : Named lists1) (named2 : Named lists2)
  (same : SamePackages lists1 lists2) (one1 : OneList lists1) (one2 : OneList lists2)
include lawful named1 named2 same one1 one2

private theorem namesAgree_of_classes
    (agrees : ∀ p ∈ lists1, ListReached vercmp write lists1 p →
      ClassAgrees vercmp write lists1 lists2 p) : NamesAgree vercmp write lists1 lists2 := by
  refine ⟨fun l1 member1 reached l2 member2 name => ?_, fun l member reached m member' tied => ?_⟩
  · have agreed := agrees l1 member1 reached
    have self := compareLists_preorder.self l1
    have other : compareLists l2 l1 = 0 := by rw [compareLists, name]; exact self
    obtain ⟨rest1, first1⟩ := all_first (mem_tiedTo.mpr ⟨member1, self⟩) agreed.commute1
    obtain ⟨rest2, first2⟩ := all_first (mem_tiedTo.mpr ⟨member2, other⟩) agreed.commute2
    have packages := same.lists_perm named1 named2 one1 one2 member1 member2 name
    have sorted : (sortPackages vercmp l1.2).Perm (sortPackages vercmp l2.2) :=
      (sortPackages_perm vercmp _).trans (packages.trans (sortPackages_perm vercmp _).symm)
    have sameOk : (writeList vercmp write l1).ok = (writeList vercmp write l2).ok :=
      Output.all_ok_of_perm (sorted.map write)
    have whole := agreed.same
    rw [first1, first2, Output.andThen_inj sameOk fun ok =>
      Output.all_length_eq (sorted.map write) ((Output.all_ok_iff _).mp ok)] at whole
    exact (writeList_eq_iff lawful packages).mp whole.1
  · exact (agrees l member reached).commute1 l
      (mem_tiedTo.mpr ⟨member, compareLists_preorder.self l⟩) m (mem_tiedTo.mpr ⟨member', tied⟩)

private theorem classes_of_namesAgree (agree : NamesAgree vercmp write lists1 lists2)
    (p : NamedPackages) (reached : ListReached vercmp write lists1 p) :
    ClassAgrees vercmp write lists1 lists2 p := by
  have commute1 : ∀ l ∈ Output.tiedTo compareLists lists1 p,
      ∀ m ∈ Output.tiedTo compareLists lists1 p,
        (writeList vercmp write l).andThen (writeList vercmp write m) =
          (writeList vercmp write m).andThen (writeList vercmp write l) := by
    intro l inL m inM
    obtain ⟨memberL, tiedL⟩ := mem_tiedTo.mp inL
    obtain ⟨memberM, tiedM⟩ := mem_tiedTo.mp inM
    exact agree.between l memberL (ListReached.congr reached tiedL) m memberM
      ((compareLists_preorder.tied_iff tiedL m).mpr tiedM)
  -- the lists of one name print the same in both sets
  have pair (l1 : NamedPackages) (member1 : l1 ∈ Output.tiedTo compareLists lists1 p)
      (l2 : NamedPackages) (member2 : l2 ∈ lists2) (name : l2.1 = l1.1) :
      writeList vercmp write l1 = writeList vercmp write l2 := by
    obtain ⟨member1, tied⟩ := mem_tiedTo.mp member1
    rw [writeList_eq_iff lawful (same.lists_perm named1 named2 one1 one2 member1 member2 name)]
    exact agree.within l1 member1 (ListReached.congr reached tied) l2 member2 name
  have partner (l2 : NamedPackages) (member2 : l2 ∈ Output.tiedTo compareLists lists2 p) :
      ∃ l1 ∈ Output.tiedTo compareLists lists1 p, l1.1 = l2.1 ∧
        writeList vercmp write l1 = writeList vercmp write l2 := by
    obtain ⟨member2, tied⟩ := mem_tiedTo.mp member2
    obtain ⟨l1, member1, name⟩ :=
      exists_partner named2 named1 (fun name => (same name).symm) member2
    have inTied : l1 ∈ Output.tiedTo compareLists lists1 p :=
      mem_tiedTo.mpr ⟨member1, by rw [compareLists, name]; exact tied⟩
    exact ⟨l1, inTied, name, pair l1 inTied l2 member2 name.symm⟩
  refine ⟨commute1, fun l2 inL m2 inM => ?_, ?_⟩
  · obtain ⟨l1, inL1, -, sameL⟩ := partner l2 inL
    obtain ⟨m1, inM1, -, sameM⟩ := partner m2 inM
    rw [← sameL, ← sameM]
    exact commute1 l1 inL1 m1 inM1
  · have distinct {lists : List NamedPackages} (one : OneList lists) :
        ((Output.tiedTo compareLists lists p).map fun l => (l.1, writeList vercmp write l)).Nodup := by
      refine List.Nodup.of_map Prod.fst ?_
      rw [List.map_map]
      exact (List.filter_sublist.map Prod.fst).nodup one
    have perm : ((Output.tiedTo compareLists lists1 p).map fun l => (l.1, writeList vercmp write l)).Perm
        ((Output.tiedTo compareLists lists2 p).map fun l => (l.1, writeList vercmp write l)) := by
      rw [List.perm_ext_iff_of_nodup (distinct one1) (distinct one2)]
      intro x
      simp only [List.mem_map]
      constructor
      · rintro ⟨l1, member1, rfl⟩
        obtain ⟨inLists, tied⟩ := mem_tiedTo.mp member1
        obtain ⟨l2, member2, name⟩ := exists_partner named1 named2 same inLists
        refine ⟨l2, mem_tiedTo.mpr ⟨member2, by rw [compareLists, name]; exact tied⟩, ?_⟩
        rw [name, pair l1 member1 l2 member2 name]
      · rintro ⟨l2, member2, rfl⟩
        obtain ⟨l1, member1, name, shown⟩ := partner l2 member2
        exact ⟨l1, member1, by rw [name, shown]⟩
    have outputs := perm.map Prod.snd
    rw [List.map_map, List.map_map] at outputs
    refine Output.all_eq_of_perm outputs ?_
    rintro _ inA _ inB
    obtain ⟨l, inL, rfl⟩ := List.mem_map.mp inA
    obtain ⟨m, inM, rfl⟩ := List.mem_map.mp inB
    exact commute1 l inL m inM

/-- With one list for each name the classes agree if and only if the names do. -/
theorem classes_iff_names :
    (∀ p ∈ lists1, ListReached vercmp write lists1 p →
      ClassAgrees vercmp write lists1 lists2 p) ↔ NamesAgree vercmp write lists1 lists2 :=
  ⟨namesAgree_of_classes lawful named1 named2 same one1 one2, fun agree p _ =>
    classes_of_namesAgree lawful named1 named2 same one1 one2 agree p⟩

end Unique

end Lemmas

/-! ## The lists of a set -/

section Sets

variable {vercmp : VersionOrder} {pkgs : Addr → DerivedPackage} {set : LCFGPackageSet}

/-- The lists of a set, in the order of the buckets. -/
def contents (pkgs : Addr → DerivedPackage) (set : LCFGPackageSet) : List NamedPackages :=
  (LinearProbe.stored set.packages).map fun list =>
    ((key (fun a => (pkgs a).pkg) list).getD "", (PkgList.items list).map pkgs)

/-- The list of an entry. -/
def entryList (pkgs : Addr → DerivedPackage) (set : LCFGPackageSet) (entry : LCFGPkgSetEntry) :
    NamedPackages :=
  (entry.name, (entryItems set.packages[entry.id]?.join).map pkgs)

theorem contents_named (sound : Sound (fun a => (pkgs a).pkg) set) : Named (contents pkgs set) := by
  intro l member
  obtain ⟨list, stored, rfl⟩ := List.mem_map.mp member
  obtain ⟨name, listFor⟩ := sound.lists list stored
  refine ⟨by simpa using listFor.nonempty, fun d inList => ?_⟩
  obtain ⟨a, inItems, rfl⟩ := List.mem_map.mp inList
  rw [listFor.key_eq]
  exact listFor.named a inItems

/-- The first package of a stored list is valid. -/
theorem validFirst_stored (sound : Sound (fun a => (pkgs a).pkg) set) (list : LCFGPackageList)
    (stored : list ∈ LinearProbe.stored set.packages) :
    ∃ a, validFirst pkgs (some list) = some a ∧
      key (fun a => (pkgs a).pkg) list = some ((pkgs a).pkg.name.getD "") := by
  obtain ⟨name, listFor⟩ := sound.lists list stored
  cases packages : PkgList.items list with
  | nil => exact absurd packages listFor.nonempty
  | cons a rest =>
    have valid := listFor.wf.valid a (by simp [packages])
    rw [PkgList.items] at packages
    have first : PkgList.firstPackage list = some a := by
      simp [PkgList.firstPackage, LinkedList.head?, packages]
    exact ⟨a, by simp [validFirst, first, Option.filter_some, valid], by simp [key, first, nameOf]⟩

/-- The entries stand for the lists of the set. -/
theorem entries_contents (sound : Sound (fun a => (pkgs a).pkg) set) :
    (unsortedEntries pkgs set).map (entryList pkgs set) = contents pkgs set := by
  let shown (bucket : Option LCFGPackageList) : Option NamedPackages :=
    (validFirst pkgs bucket).map fun a =>
      ((pkgs a).pkg.name.getD "", (entryItems bucket).map pkgs)
  -- each entry is taken from its own bucket
  have looked : (unsortedEntries pkgs set).map (entryList pkgs set) =
      set.packages.zipIdx.filterMap fun bucket => shown bucket.1 := by
    rw [unsortedEntries, List.map_filterMap]
    refine List.filterMap_congr fun bucket member => ?_
    have here := List.mem_zipIdx_iff_getElem?.mp member
    simp [shown, entryList, here, Option.map_map, Function.comp_def]
  rw [looked, ← Function.comp_def shown Prod.fst, ← List.filterMap_map, List.zipIdx_map_fst,
    contents]
  have lists := fun list stored => validFirst_stored sound list stored
  generalize set.packages = buckets at lists
  induction buckets with
  | nil => rfl
  | cons bucket rest ih =>
    cases bucket with
    | none =>
      rw [LinearProbe.stored_none] at lists ⊢
      exact ih lists
    | some list =>
      rw [LinearProbe.stored_some] at lists ⊢
      obtain ⟨a, first, named⟩ := lists list List.mem_cons_self
      have here : shown (some list) = some ((key (fun a => (pkgs a).pkg) list).getD "",
          (PkgList.items list).map pkgs) := by
        simp only [shown, first, Option.map_some, named, Option.getD_some, entryItems]
      rw [List.filterMap_cons, here, List.map_cons]
      exact congrArg _ (ih fun list stored => lists list (List.mem_cons_of_mem _ stored))

/-- What is written for an entry is what is written for its list. -/
theorem printBucket_eq (sound : Sound (fun a => (pkgs a).pkg) set)
    (toStr : DerivedPackage → Option (List Char)) (base : Option String)
    {entry : LCFGPkgSetEntry} (member : entry ∈ unsortedEntries pkgs set) :
    printBucket pkgs toStr base (sortLists vercmp pkgs set) entry =
      writeList vercmp (printPackage toStr base) (entryList pkgs set entry) := by
  obtain ⟨bucket, inSet, shown⟩ := List.mem_filterMap.mp member
  obtain ⟨a, first, rfl⟩ := Option.map_eq_some_iff.mp shown
  have here := List.mem_zipIdx_iff_getElem?.mp inSet
  obtain ⟨list, content⟩ : ∃ list, bucket.1 = some list := by
    cases content : bucket.1 with
    | none => rw [content] at first; cases first
    | some list => exact ⟨list, rfl⟩
  rw [content] at here first
  have stored : list ∈ LinearProbe.stored set.packages :=
    (LinearProbe.mem_stored _ list).mpr ⟨_, here⟩
  obtain ⟨name, listFor⟩ := sound.lists list stored
  have sorted : (PkgList.items (PkgList.sort vercmp (fun a => (pkgs a).pkg) list)).map pkgs =
      sortPackages vercmp ((PkgList.items list).map pkgs) := by
    rw [(PkgList.sort_wf vercmp listFor.wf).2, PkgList.sortItems, sortPackages]
    refine BubbleSort.sort_map pkgs ?_ _
    exact fun _ _ => rfl
  have after : (sortLists vercmp pkgs set).packages[bucket.2]? =
      some (some (PkgList.sort vercmp (fun a => (pkgs a).pkg) list)) := by
    simp [sortLists, here, first]
  rw [printBucket, writeList, entryList, after, here]
  simp only [Option.join_some, entryItems]
  rw [← sorted, List.map_map]
  rfl

/-- What may be written is given by the orders of the lists. -/
theorem prints_iff (sound : Sound (fun a => (pkgs a).pkg) set) (defaultArchitecture : String)
    (defarch base : Option String) (style : LCFGPkgStyle) (options : LCFGOption)
    (out : Output Char) :
    Prints vercmp pkgs defaultArchitecture set defarch base style options out ↔
      ∃ sorted, QSort.Sorts compareLists (contents pkgs set) sorted ∧
        out = inTags style (Output.all (sorted.map (writeList vercmp
          (printPackage (printString defaultArchitecture defarch style options) base)))) := by
  have sorts (sorted : List NamedPackages) : QSort.Sorts compareLists
      ((unsortedEntries pkgs set).map (entryList pkgs set)) sorted ↔
        ∃ entries, QSort.Sorts entryCmp (unsortedEntries pkgs set) entries ∧
          entries.map (entryList pkgs set) = sorted :=
    QSort.sorts_map_iff (entryList pkgs set) (fun _ _ => rfl) _ sorted
  rw [entries_contents sound] at sorts
  have body {entries : List LCFGPkgSetEntry}
      (perm : entries.Perm (unsortedEntries pkgs set)) :
      print vercmp pkgs defaultArchitecture set defarch base style options entries =
        inTags style (Output.all ((entries.map (entryList pkgs set)).map (writeList vercmp
          (printPackage (printString defaultArchitecture defarch style options) base)))) := by
    rw [print, List.map_map, List.map_congr_left fun entry member =>
      printBucket_eq sound _ base (perm.mem_iff.mp member)]
    rfl
  constructor
  · rintro ⟨entries, sorted, rfl⟩
    exact ⟨_, (sorts _).mpr ⟨entries, sorted, rfl⟩, body sorted.perm⟩
  · rintro ⟨_, sorted, rfl⟩
    obtain ⟨entries, sorted', rfl⟩ := (sorts _).mp sorted
    exact ⟨entries, sorted', (body sorted'.perm).symm⟩

theorem inTags_text_eq_iff (style : LCFGPkgStyle) {packages1 packages2 : Output Char}
    (sameOk : packages1.ok = packages2.ok) :
    (inTags style packages1).text = (inTags style packages2).text ↔ packages1 = packages2 := by
  simp only [inTags, Output.written_andThen, List.append_cancel_left_eq]
  obtain ⟨text1, ok1⟩ := packages1
  obtain ⟨text2, ok2⟩ := packages2
  obtain rfl : ok1 = ok2 := sameOk
  rw [Output.mk.injEq, and_iff_left rfl]
  cases ok1 with
  | false => rfl
  | true => rw [Output.andThen_ok rfl, Output.andThen_ok rfl, List.append_cancel_right_eq]

end Sets

/-! ## Two packages which compare equal

The same version for two contexts, kept side by side because the context is in the key. -/

def contextSample : Addr → DerivedPackage
  | 0 => ⟨{ name := some "foo", version := some "1.0", context := some "main" }, [], none⟩
  | 1 => ⟨{ name := some "foo", version := some "1.0", context := some "laptop" }, [], none⟩
  | _ => ⟨{}, [], none⟩

def contextSet (packages : List Addr) : LCFGPackageSet :=
  built djbhash Version.debvercmp (fun a => (contextSample a).pkg) { ctx := true } {} packages

theorem contextSet_sound (packages : List Addr) :
    Sound (fun a => (contextSample a).pkg) (contextSet packages) :=
  (built_fine djbhash Version.debvercmp { ctx := true } {} packages).1

theorem contextSet_contents :
    contents contextSample (contextSet [0, 1]) = [("foo", [contextSample 0, contextSample 1])] ∧
      contents contextSample (contextSet [1, 0]) =
        [("foo", [contextSample 1, contextSample 0])] := by
  decide

theorem contextSet_same : SamePackages (contents contextSample (contextSet [0, 1]))
    (contents contextSample (contextSet [1, 0])) := by
  intro name
  rw [contextSet_contents.1, contextSet_contents.2]
  exact (List.Perm.swap (contextSample 1) (contextSample 0) []).filter _

end PkgSet

end Lcfg
