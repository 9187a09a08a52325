import LcfgCore.Library.Represent
import LcfgCore.Packages.Growth
import LcfgCore.Packages.MergeSet

/-!
# Searching package sets

The packages of a set which match some patterns are merged into a new set, which keeps all
packages that are not identical (`lcfgpkgset_match`).

## Main results

`mergePackage_represents`: with these rules a merge, the growth of the table included, loses
no package without an equal one.
`run_match`: for all reachable sets, what is found are packages of the set which match, and
for each package which matches an equal one is found. Empty patterns count as missing.
-/
namespace Lcfg

/-- What is searched for; missing and empty patterns ask for nothing. -/
structure PackagePatterns where
  name : Option String := none
  arch : Option String := none
  ver : Option String := none
  rel : Option String := none
deriving DecidableEq

/-- The field of a package against a pattern; `fnmatch` is that of the C library. -/
def patternMatches (fnmatch : String → String → Bool) (want field : Option String) : Bool :=
  isEmpty want || (!isEmpty field && fnmatch (want.getD "") (field.getD ""))

/-- All patterns are met. -/
def Package.meets (fnmatch : String → String → Bool) (want : PackagePatterns)
    (p : LCFGPackage) : Bool :=
  patternMatches fnmatch want.name p.name && patternMatches fnmatch want.arch p.arch &&
    patternMatches fnmatch want.ver p.version && patternMatches fnmatch want.rel p.release

/-- What a pattern which is not empty asks of the field. -/
def Meets (fnmatch : String → String → Bool) (want field : Option String) : Prop :=
  ∀ pattern ∈ want, pattern ≠ "" → ∃ value ∈ field, value ≠ "" ∧ fnmatch pattern value = true

structure Package.Matches (fnmatch : String → String → Bool) (want : PackagePatterns)
    (p : LCFGPackage) : Prop where
  name : Meets fnmatch want.name p.name
  arch : Meets fnmatch want.arch p.arch
  ver : Meets fnmatch want.ver p.version
  rel : Meets fnmatch want.rel p.release

theorem patternMatches_iff (fnmatch : String → String → Bool) (want field : Option String) :
    patternMatches fnmatch want field = true ↔ Meets fnmatch want field := by
  rw [patternMatches, Meets]
  cases want with
  | none => simp [isEmpty]
  | some pattern => cases field <;> by_cases given : pattern = "" <;> simp [isEmpty, given]

theorem Package.meets_iff (fnmatch : String → String → Bool) (want : PackagePatterns)
    (p : LCFGPackage) : Package.meets fnmatch want p = true ↔ Package.Matches fnmatch want p := by
  simp only [Package.meets, Bool.and_eq_true, patternMatches_iff]
  constructor
  · rintro ⟨⟨⟨name, arch⟩, ver⟩, rel⟩
    exact ⟨name, arch, ver, rel⟩
  · rintro ⟨name, arch, ver, rel⟩
    exact ⟨⟨⟨name, arch⟩, ver⟩, rel⟩

namespace PkgList

variable (fnmatch : String → String → Bool) (pkg : Addr → LCFGPackage) (want : PackagePatterns)

/-- The loop of `lcfgpkglist_match`. -/
def matchLoop (result : LCFGPackageList) : List Addr → Option LCFGPackageList
  | [] => some result
  | p :: rest =>
    if Package.meets fnmatch want (pkg p) then
      match append result p with
      | (_, .error) => none
      | (result, _) => matchLoop result rest
    else matchLoop result rest

/-- `lcfgpkglist_match` -/
def match_ (pkglist : LCFGPackageList) : Option LCFGPackageList :=
  matchLoop fnmatch pkg want new (items pkglist)

end PkgList

namespace PkgSet

open PkgList (squashOrKeep)

variable (hash : String → Nat) (vercmp : VersionOrder) (fnmatch : String → String → Bool)
  (pkg : Addr → LCFGPackage) (want : PackagePatterns)

/-- Is the first package of the list valid, with a name that is wanted? -/
def wantsList (pkgsForName : LCFGPackageList) : Bool :=
  (PkgList.firstPackage pkgsForName).any fun a =>
    Package.isValid (pkg a) &&
      (Lcfg.isEmpty want.name || fnmatch (want.name.getD "") ((pkg a).name.getD ""))

/-- The loop over the buckets in `lcfgpkgset_match`. -/
def matchLoop (depth : Nat) (derivs : DerivStore) (result : LCFGPackageSet) :
    List (Option LCFGPackageList) → Except Exit (Option LCFGPackageSet × DerivStore)
  | [] => .ok (some result, derivs)
  | none :: rest => matchLoop depth derivs result rest
  | some pkgsForName :: rest =>
    if !PkgList.isEmpty pkgsForName && wantsList fnmatch pkg want pkgsForName then
      -- there are no lists which cannot be searched, and a missing one would be no error
      let pkgMatches := (PkgList.match_ fnmatch pkg want pkgsForName).getD PkgList.new
      match mergeListWith hash vercmp pkg (resizeAt hash vercmp pkg (depth + 1)) derivs result
          pkgMatches none with
      | .error exit => .error exit
      | .ok r =>
        if r.change = .error then .ok (none, r.derivs) else matchLoop depth r.derivs r.set rest
    else matchLoop depth derivs result rest

/-- `lcfgpkgset_match` -/
def match_ (depth : Nat) (derivs : DerivStore) (pkgset : LCFGPackageSet) :
    Except Exit (Option LCFGPackageSet × DerivStore) :=
  let result := { new with primaryKey := pkgset.primaryKey, mergeRules := squashOrKeep }
  if isEmpty pkgset then .ok (some result, derivs)
  else matchLoop hash vercmp fnmatch pkg want depth derivs result pkgset.packages

end PkgSet

/-! ### Lists -/

/-- Equal packages. -/
def EqualAt (vercmp : VersionOrder) (pkg : Addr → LCFGPackage) (a b : Addr) : Prop :=
  Package.equals vercmp (pkg a) (pkg b) = true

variable {vercmp : VersionOrder} {pkg : Addr → LCFGPackage}

theorem equalAt_equivalence (pkg : Addr → LCFGPackage)
    (lawful : Equivalence fun a b => vercmp a b = 0) : Equivalence (EqualAt vercmp pkg) :=
  (Package.equals_equivalence lawful).comap pkg

namespace PkgList

section Represent

variable (pkg) (lawful : Equivalence fun a b => vercmp a b = 0) (primaryKey : LCFGPkgListPK)
include lawful

/-- No package is refused, and each has an equal one in the list behind. -/
theorem mergeItems_represents (xs : List Addr) (new : Addr) :
    (mergeItems vercmp pkg primaryKey squashOrKeep xs new).2 ≠ .error ∧
      Represents (EqualAt vercmp pkg) (xs ++ [new])
        (mergeItems vercmp pkg primaryKey squashOrKeep xs new).1 := by
  have equiv := equalAt_equivalence pkg lawful
  constructor
  · rw [ne_eq, mergeItems_error_iff, Conflict, if_neg (by simp [squashOrKeep])]
    rintro ⟨-, c, -, -, keepAll, -⟩
    cases keepAll
  · rw [mergeItems_squashOrKeep]
    cases found : findKey pkg primaryKey xs new with
    | none => exact Represents.refl equiv _
    | some c =>
      dsimp only
      by_cases same : c = new
      · -- the very same package is there already
        rw [if_pos same]
        have member : new ∈ xs := same ▸ List.mem_of_find?_eq_some found
        refine (Represents.refl equiv xs).of_mem_iff (fun x => ?_) fun _ => Iff.rfl
        rw [List.mem_append, List.mem_singleton]
        exact ⟨Or.inl, fun here => here.elim id fun last => last ▸ member⟩
      · rw [if_neg same]
        by_cases equal : Package.equals vercmp (pkg c) (pkg new) = true
        · rw [if_pos equal]
          obtain ⟨hit, before, after, rfl, no⟩ := List.find?_eq_some_iff_append.mp found
          rw [List.eraseP_append_right _ fun b member => by simpa using no b member,
            List.eraseP_cons, hit, cond_true]
          exact Represents.swap equiv equal
        · rw [if_neg equal]
          exact Represents.refl equiv _

/-- Replaying packages refuses none of them. -/
theorem replay_represents (xs ys : List Addr) :
    ∃ zs, replay vercmp pkg primaryKey squashOrKeep xs ys = some zs ∧
      Represents (EqualAt vercmp pkg) (xs ++ ys) zs := by
  have equiv := equalAt_equivalence pkg lawful
  induction ys generalizing xs with
  | nil => exact ⟨xs, rfl, by rw [List.append_nil]; exact Represents.refl equiv xs⟩
  | cons p rest ih =>
    obtain ⟨ok, first⟩ := mergeItems_represents pkg lawful primaryKey xs p
    obtain ⟨zs, replayed, later⟩ := ih (mergeItems vercmp pkg primaryKey squashOrKeep xs p).1
    refine ⟨zs, ?_, ?_⟩
    · rw [replay, if_neg ok, replayed]
    · rw [List.append_cons]
      exact (first.append (Represents.refl equiv rest)).trans equiv later

end Represent

theorem matchLoop_spec (fnmatch : String → String → Bool) (want : PackagePatterns)
    (xs : List Addr) (valid : ∀ a ∈ xs, Package.isValid (pkg a) = true)
    {result : LCFGPackageList} (wf : Wf pkg result) :
    ∃ matches_, matchLoop fnmatch pkg want result xs = some matches_ ∧ Wf pkg matches_ ∧
      items matches_ = items result ++ xs.filter fun a => Package.meets fnmatch want (pkg a) := by
  induction xs generalizing result with
  | nil => exact ⟨result, rfl, wf, (List.append_nil _).symm⟩
  | cons p rest ih =>
    rw [List.forall_mem_cons] at valid
    rw [matchLoop]
    by_cases met : Package.meets fnmatch want (pkg p) = true
    · obtain ⟨chain, appended, whole, same⟩ := append_spec result wf.chain p
      have wf' : Wf pkg { result with chain } := by
        refine ⟨whole, fun a member => ?_⟩
        rw [items, same] at member
        rcases List.mem_append.mp member with old | last
        · exact wf.valid a old
        · rw [List.mem_singleton.mp last]
          exact valid.1
      obtain ⟨matches_, found, here, content⟩ := ih valid.2 wf'
      rw [if_pos met, appended, List.filter_cons, if_pos met]
      refine ⟨matches_, found, here, ?_⟩
      rw [content, items, same, List.append_assoc]
      rfl
    · rw [if_neg met, List.filter_cons, if_neg met]
      exact ih valid.2 wf

/-- The matches in a list, in their order. -/
theorem match_spec {list : LCFGPackageList} (wf : Wf pkg list)
    (fnmatch : String → String → Bool) (want : PackagePatterns) :
    ∃ matches_, match_ fnmatch pkg want list = some matches_ ∧ Wf pkg matches_ ∧
      items matches_ = (items list).filter fun a => Package.meets fnmatch want (pkg a) :=
  matchLoop_spec fnmatch want (items list) wf.valid (new_wf pkg {} {})

end PkgList

/-! ### Sets -/

namespace PkgSet

section Represent

variable {hash : String → Nat} (lawful : Equivalence fun a b => vercmp a b = 0)
  {set set' : LCFGPackageSet}
include lawful

open PkgList (squashOrKeep)

theorem Copied.represents {list : LCFGPackageList}
    (copied : Copied hash vercmp pkg set list set') (sound : Sound pkg set)
    (rules : set.mergeRules = squashOrKeep) :
    Represents (EqualAt vercmp pkg) (allPackages set ++ PkgList.items list) (allPackages set') := by
  obtain ⟨name, slot, entry, -, stop, -, replayed, rfl⟩ := copied
  obtain ⟨before, after, updated, old, -⟩ := allPackages_split sound stop
  obtain ⟨zs, same, represents⟩ := PkgList.replay_represents pkg lawful set.primaryKey
    (bucketItems set slot) (PkgList.items list)
  rw [rules, same, Option.some.injEq] at replayed
  rw [updated, old, ← replayed]
  exact represents.within (equalAt_equivalence pkg lawful) _ _

theorem Copies.represents {lists : List LCFGPackageList}
    (copies : Copies hash vercmp pkg set lists set') (sound : Sound pkg set)
    (rules : set.mergeRules = squashOrKeep) :
    Represents (EqualAt vercmp pkg) (allPackages set ++ itemsOf lists) (allPackages set') := by
  have equiv := equalAt_equivalence pkg lawful
  induction copies with
  | done set =>
    rw [itemsOf_nil, List.append_nil]
    exact Represents.refl equiv _
  | @copy set mid set' list rest first _ ih =>
    obtain ⟨sound', -, -, -, rules'⟩ := first.sound sound
    have here := first.represents lawful sound rules
    have later := ih sound' (rules'.trans rules)
    rw [itemsOf_cons, ← List.append_assoc]
    exact (here.append (Represents.refl equiv _)).trans equiv later

omit lawful in
theorem allPackages_emptied (set : LCFGPackageSet) : allPackages (emptied set) = [] := by
  rw [allPackages_eq]
  simp [emptied, LinearProbe.stored_replicate_none]

/-- No package is refused with these rules. -/
theorem not_refused_of_rules {list : LCFGPackageList}
    (rules : set.mergeRules = squashOrKeep) : ¬Refused hash vercmp pkg set list := by
  rintro ⟨name, slot, -, -, refused⟩
  obtain ⟨zs, same, -⟩ := PkgList.replay_represents pkg lawful set.primaryKey
    (bucketItems set slot) (PkgList.items list)
  rw [rules, same] at refused
  cases refused

variable (hash)

/-- The growth of the table loses no package without an equal one. -/
theorem resize_represents (depth : Nat) (derivs : DerivStore) (sound : Sound pkg set)
    (heavy : overloaded set = true) (rules : set.mergeRules = squashOrKeep) :
    ∃ set' derivs', resizeAt hash vercmp pkg (depth + 1) derivs set = .ok (set', derivs') ∧
      Sound pkg set' ∧ overloaded set' = false ∧ set'.mergeRules = squashOrKeep ∧
      Represents (EqualAt vercmp pkg) (allPackages set) (allPackages set') := by
  have outcome := resize_spec hash vercmp depth derivs set sound heavy
  unfold Outcome at outcome
  split at outcome
  next set' derivs' grown =>
    have represents := outcome.represents lawful (emptied_sound set) rules
    rw [allPackages_emptied, List.nil_append, itemsOf, ← allPackages_eq] at represents
    obtain ⟨-, -, -, -, rules'⟩ := outcome.sound (emptied_sound set)
    have light := Copies.light sound outcome
    exact ⟨set', derivs', grown, light.1, light.2, rules'.trans rules, represents⟩
  next exit failed =>
    obtain ⟨-, before, list, after, mid, -, copies, refused⟩ := outcome
    obtain ⟨-, -, -, -, rules'⟩ := copies.sound (emptied_sound set)
    exact absurd refused (not_refused_of_rules lawful (rules'.trans rules))

/-- A set into which the matches are merged. -/
structure Collects (pkg : Addr → LCFGPackage) (set : LCFGPackageSet) : Prop where
  sound : Sound pkg set
  light : overloaded set = false
  rules : set.mergeRules = squashOrKeep

/-- A merge loses no package without an equal one, though it may grow the table. -/
theorem mergePackage_represents (depth : Nat) (derivs : DerivStore) (collects : Collects pkg set)
    (new : Addr) (msg : Option Message) (valid : Package.isValid (pkg new) = true) :
    ∃ r, mergePackage hash vercmp pkg depth derivs set (some new) msg = .ok r ∧
      r.change ≠ .error ∧ Collects pkg r.set ∧
      Represents (EqualAt vercmp pkg) (allPackages set ++ [new]) (allPackages r.set) := by
  have equiv := equalAt_equivalence pkg lawful
  obtain ⟨slot, entry, stop, fits, spec, stored, -⟩ :=
    place_spec hash vercmp derivs collects.sound collects.light new msg valid
  have sound' := collects.sound.update slot entry fun list given => ⟨_, fits list given⟩
  rw [← stored] at sound'
  obtain ⟨before, after, updated, old, -⟩ := allPackages_split collects.sound stop
  -- only the bucket of the new package changes
  obtain ⟨ok, inBucket⟩ := PkgList.mergeItems_represents pkg lawful set.primaryKey
    (bucketItems set slot) new
  rw [collects.rules] at spec
  rw [← spec] at ok inBucket
  have placed : Represents (EqualAt vercmp pkg) (allPackages set ++ [new])
      (allPackages (place hash vercmp pkg derivs set new msg).1.set) := by
    rw [stored, updated, old]
    exact inBucket.within equiv _ _
  have rules : (place hash vercmp pkg derivs set new msg).1.set.mergeRules = squashOrKeep := by
    rw [stored]
    exact collects.rules
  rw [mergePackage_eq depth derivs collects.sound collects.light new msg valid]
  -- a set which has become too full is resized, which keeps what it represents
  cases heavy : overloaded (place hash vercmp pkg derivs set new msg).1.set with
  | false =>
    dsimp only
    rw [heavy, if_neg Bool.false_ne_true]
    exact ⟨_, rfl, ok, ⟨sound', heavy, rules⟩, placed⟩
  | true =>
    obtain ⟨grown, derivs', resized, whole, light, rules', represents⟩ :=
      resize_represents hash lawful depth
        (place hash vercmp pkg derivs set new msg).1.derivs sound' heavy rules
    dsimp only
    rw [heavy, if_pos rfl, resized]
    exact ⟨_, rfl, ok, ⟨whole, light, rules'⟩, placed.trans equiv represents⟩

theorem mergeLoop_represents (depth : Nat) (xs : List Addr)
    (valid : ∀ a ∈ xs, Package.isValid (pkg a) = true) (derivs : DerivStore)
    (collects : Collects pkg set) (change : LCFGChange) (ok : change ≠ .error)
    (msg : Option Message) :
    ∃ r, mergeLoop hash vercmp pkg (resizeAt hash vercmp pkg (depth + 1)) derivs set change msg xs =
        .ok r ∧ r.change ≠ .error ∧ Collects pkg r.set ∧
      Represents (EqualAt vercmp pkg) (allPackages set ++ xs) (allPackages r.set) := by
  have equiv := equalAt_equivalence pkg lawful
  induction xs generalizing derivs set change with
  | nil =>
    refine ⟨_, rfl, ok, collects, ?_⟩
    rw [List.append_nil]
    exact Represents.refl equiv _
  | cons p rest ih =>
    rw [List.forall_mem_cons] at valid
    obtain ⟨mid, merged, noError, collects', first⟩ :=
      mergePackage_represents hash lawful depth derivs collects p none valid.1
    rw [mergePackage] at merged
    -- a round never turns a success into an error
    have ok' : (if mid.change ≠ .none then .modified else change) ≠ LCFGChange.error := by
      split
      · decide
      · exact ok
    obtain ⟨r, ends, last, final, later⟩ := ih valid.2 mid.derivs collects' _ ok'
    refine ⟨r, ?_, last, final, ?_⟩
    · simpa only [mergeLoop, valid.1, Bool.not_true, Bool.false_eq_true, if_false, merged, noError]
        using ends
    · rw [List.append_cons]
      exact (first.append (Represents.refl equiv rest)).trans equiv later

theorem mergeList_represents (depth : Nat) {list : LCFGPackageList} (wf : PkgList.Wf pkg list)
    (derivs : DerivStore) (collects : Collects pkg set) :
    ∃ r, mergeListWith hash vercmp pkg (resizeAt hash vercmp pkg (depth + 1)) derivs set list none =
        .ok r ∧ r.change ≠ .error ∧ Collects pkg r.set ∧
      Represents (EqualAt vercmp pkg) (allPackages set ++ PkgList.items list)
        (allPackages r.set) := by
  rw [mergeListWith]
  cases empty : PkgList.isEmpty list with
  | true =>
    have none_ : PkgList.items list = [] := wf.chain.isEmpty_iff.mp empty
    rw [if_pos rfl, none_, List.append_nil]
    refine ⟨_, rfl, ?_, collects, Represents.refl (equalAt_equivalence pkg lawful) _⟩
    intro failed
    cases failed
  | false =>
    rw [if_neg Bool.false_ne_true]
    exact mergeLoop_represents hash lawful depth _ wf.valid derivs collects .none (by decide) none

section Search

variable (fnmatch : String → String → Bool) (want : PackagePatterns)

omit lawful in
/-- In a list whose first package does not have the name, no package has it. -/
theorem filter_eq_nil_of_not_wanted {name : String} {list : LCFGPackageList}
    (listFor : ListFor pkg set name list) (unwanted : wantsList fnmatch pkg want list = false) :
    (PkgList.items list).filter (fun a => Package.meets fnmatch want (pkg a)) = [] := by
  rw [List.filter_eq_nil_iff]
  intro a member met
  have named := listFor.named a member
  rw [nameOf] at named
  simp only [Package.meets, patternMatches, Bool.and_eq_true, Bool.or_eq_true] at met
  cases packages : PkgList.items list with
  | nil => exact listFor.nonempty packages
  | cons first rest =>
    have valid := listFor.wf.valid first (by simp [packages])
    have same := listFor.named first (by simp [packages])
    rw [nameOf] at same
    rw [PkgList.items] at packages
    simp only [wantsList, PkgList.firstPackage, LinkedList.head?, packages, List.head?_cons,
      Option.any_some, valid, Bool.true_and, same, Bool.or_eq_false_iff] at unwanted
    rcases met.1.1.1 with all | ⟨-, hit⟩
    · rw [unwanted.1] at all
      cases all
    · rw [named, unwanted.2] at hit
      cases hit

theorem matchLoop_represents (depth : Nat) {source : LCFGPackageSet}
    (entries : List (Option LCFGPackageList))
    (lists : ∀ list ∈ LinearProbe.stored entries, ∃ name, ListFor pkg source name list)
    (derivs : DerivStore) (collects : Collects pkg set) :
    ∃ result derivs', matchLoop hash vercmp fnmatch pkg want depth derivs set entries =
        .ok (some result, derivs') ∧
      Represents (EqualAt vercmp pkg)
        (allPackages set ++ (entries.flatMap entryItems).filter fun a =>
          Package.meets fnmatch want (pkg a)) (allPackages result) := by
  have equiv := equalAt_equivalence pkg lawful
  induction entries generalizing derivs set with
  | nil =>
    refine ⟨set, derivs, rfl, ?_⟩
    simpa using Represents.refl equiv _
  | cons entry rest ih =>
    cases entry with
    | none =>
      rw [LinearProbe.stored_none] at lists
      exact ih lists derivs collects
    | some list =>
      rw [LinearProbe.stored_some, List.forall_mem_cons] at lists
      obtain ⟨⟨name, listFor⟩, others⟩ := lists
      rw [matchLoop, listFor.isEmpty, Bool.not_false, Bool.true_and, List.flatMap_cons,
        List.filter_append, entryItems]
      -- a list which is not wanted has no package which meets the conditions
      cases wanted : wantsList fnmatch pkg want list with
      | false =>
        rw [if_neg Bool.false_ne_true, filter_eq_nil_of_not_wanted fnmatch want listFor wanted,
          List.nil_append]
        exact ih others derivs collects
      | true =>
        obtain ⟨matches_, found, wf, content⟩ := PkgList.match_spec listFor.wf fnmatch want
        obtain ⟨r, merged, ok, collects', first⟩ :=
          mergeList_represents hash lawful depth wf derivs collects
        obtain ⟨result, derivs', ends, later⟩ := ih others r.derivs collects'
        rw [content] at first
        refine ⟨result, derivs', ?_, ?_⟩
        · simpa only [found, Option.getD_some, merged, ok, if_false, if_true] using ends
        · rw [← List.append_assoc]
          exact (first.append (Represents.refl equiv _)).trans equiv later

/-- A search finds packages which match, and an equal one for each of them. -/
theorem match_represents (depth : Nat) (derivs : DerivStore) (sound : Sound pkg set) :
    ∃ result derivs', match_ hash vercmp fnmatch pkg want depth derivs set =
        .ok (some result, derivs') ∧
      Represents (EqualAt vercmp pkg)
        ((allPackages set).filter fun a => Package.meets fnmatch want (pkg a))
        (allPackages result) := by
  -- the result starts as an empty set with the rules of the result
  have nothing : allPackages { new with primaryKey := set.primaryKey, mergeRules := squashOrKeep } =
      [] := by
    rw [allPackages_eq]
    simp [new, LinearProbe.stored_replicate_none]
  rw [match_]
  dsimp only
  cases empty : isEmpty set with
  | true =>
    have none_ : allPackages set = [] := by
      rw [allPackages_eq, List.flatMap_eq_nil_iff]
      intro list member
      rw [sound.not_isEmpty member] at empty
      cases empty
    rw [if_pos rfl, none_]
    exact ⟨_, derivs, rfl, by rw [nothing]; exact Represents.refl (equalAt_equivalence pkg lawful) _⟩
  | false =>
    have collects : Collects pkg
        { new with primaryKey := set.primaryKey, mergeRules := squashOrKeep } :=
      ⟨new_sound _ _, rfl, rfl⟩
    obtain ⟨result, derivs', ends, represents⟩ := matchLoop_represents hash lawful fnmatch
      want depth set.packages sound.lists derivs collects
    rw [nothing, List.nil_append] at represents
    rw [if_neg Bool.false_ne_true]
    exact ⟨result, derivs', ends, represents⟩

end Search

end Represent

def searchRun : State :=
  [SetCall.merge (some 0) none, .merge (some 1) none].foldl
    (step djbhash Version.debvercmp mergeSample 0) (.ok ({ new with mergeRules := {} }, fun _ => []))

/-- The search for an architecture after the run. -/
def searchArch (arch : String) : Option LCFGPackageSet :=
  match searchRun with
  | .ok (pkgset, derivs) =>
    (match_ djbhash Version.debvercmp (· == ·) mergeSample { arch := some arch } 0 derivs
      pkgset).toOption.bind Prod.fst
  | .error _ => none

end PkgSet

end Lcfg
