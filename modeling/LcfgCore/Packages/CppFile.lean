import LcfgCore.Packages.CppRoundTrip

/-!
# Whole package files

The reader of package files over all the packages of a file: which meta-data is
carried from one package to the next, and when each package is read with its own.

## Main result

`fromCpp_writeCpp_iff`: the packages are read back as they were written, each with
exactly its own derivation and context, if and only if no package without a
derivation comes after one which has one, no two different derivations have the
same hash, and every value can be told from the text around it.
-/
namespace Lcfg.PkgContainer

open Package (pragmaValue specArch Built toCpp)

/-! ## What is known between two packages -/

section Between

variable {farmhash64 : String → Nat} {signedChar : Bool} {defarch : Option String}
  {past : List DerivedPackage} {st st' : CppReader (List DerivedPackage)} {d : DerivedPackage}

def derivText (d : DerivedPackage) : String := String.ofList (DerivList.toString d.derivation)

/-- The reader has read the packages `past` as they were written. The derivation of the
last one which had one is still set, a context is not. -/
structure After (farmhash64 : String → Nat) (past : List DerivedPackage)
    (st : CppReader (List DerivedPackage)) : Prop where
  ok : st.change ≠ .error
  deriv : isEmpty st.metaDeriv = true ↔ ∀ e ∈ past, e.derivation = []
  context : isEmpty st.metaContext = true
  category : isEmpty st.metaCategory = true
  file : isEmpty st.curFile = true
  sound : DerivMap.Sound st.drvmap
  tabled : ∀ e ∈ past, e.derivation ≠ [] →
    DerivMap.lookup st.drvmap (farmhash64 (derivText e)) = some (DerivList.sortLines e.derivation)
  known : ∀ id drvlist, DerivMap.lookup st.drvmap id = some drvlist →
    ∃ e ∈ past, e.derivation ≠ [] ∧ farmhash64 (derivText e) = id
  kept : ∀ e ∈ past, DerivList.WellFormed e.derivation ∧
    ∀ drv ∈ e.derivation, Derivation.Kept drv

/-- A package comes after another one in the same file: its derivation must not be
missing, and it must not be taken for the other one. -/
def Follows (farmhash64 : String → Nat) (a b : DerivedPackage) : Prop :=
  a.derivation ≠ [] → b.derivation ≠ [] ∧
    (farmhash64 (derivText a) = farmhash64 (derivText b) →
      DerivList.sortLines a.derivation = DerivList.sortLines b.derivation)

/-- What the reader knows when it comes to the specification. -/
def informed (st : CppReader (List DerivedPackage)) (d : DerivedPackage) (line : Nat) :
    CppReader (List DerivedPackage) :=
  { noted (noted st d .derive) d .context with curLine := line }

theorem informed_eq (wf : DerivList.WellFormed d.derivation) (after : After farmhash64 past st)
    (line : Nat) :
    ∃ context, informed st d line = { st with
        metaDeriv := if d.derivation = [] then st.metaDeriv else some (derivText d)
        metaContext := context
        curLine := line } ∧ context.getD "" = d.pkg.context.getD "" := by
  have derive : noted st d .derive = { st with
      metaDeriv := if d.derivation = [] then st.metaDeriv else some (derivText d) } := by
    have text : pragmaValue d .derive =
        if d.derivation = [] then [] else DerivList.toString d.derivation := rfl
    by_cases none_ : d.derivation = []
    · rw [noted, text, if_pos none_, if_pos rfl, if_pos none_]
    · rw [if_neg none_] at text
      rw [noted, text, if_neg (DerivList.toString_ne_nil wf none_), if_neg none_]
      rfl
  have context : pragmaValue d .context = (d.pkg.context.getD "").toList := rfl
  rw [informed, derive, noted, context]
  by_cases none_ : (d.pkg.context.getD "").toList = []
  · refine ⟨st.metaContext, by rw [if_pos none_], ?_⟩
    rw [(isEmpty_iff _).mp after.context]
    simpa using none_
  · refine ⟨some (d.pkg.context.getD ""), ?_, rfl⟩
    rw [if_neg none_, String.ofList_toList]

/-- A package without a derivation gets the one which is still set. -/
theorem withDerivation_carried (after : After farmhash64 past st) {line : Nat}
    {context : Option String} {drvmap : LCFGDerivationMap}
    (read : withDerivation farmhash64 true { st with metaContext := context, curLine := line } =
      .ok ([], drvmap)) :
    ∀ e ∈ past, e.derivation = [] := by
  rw [← after.deriv]
  by_contra some_
  rw [Bool.not_eq_true] at some_
  rw [withDerivation] at read
  simp only [some_, Bool.not_false, Bool.and_self, if_true] at read
  split at read
  case h_1 found =>
    cases read
    exact (after.sound.findOrInsertString_list found).2.1 rfl
  · cases read
  · cases read

theorem withDerivation_none (after : After farmhash64 past st) (line : Nat)
    (context : Option String) (none_ : ∀ e ∈ past, e.derivation = []) :
    withDerivation farmhash64 true { st with metaContext := context, curLine := line } =
      .ok ([], st.drvmap) := by
  rw [withDerivation]
  simp only [after.deriv.mpr none_, after.file]
  rfl

/-- The text of a derivation is looked up in what is known of the packages before. -/
theorem withDerivation_some {line : Nat} {context : Option String} {drvlist : LCFGDerivationList}
    {drvmap : LCFGDerivationMap} {text : String} (some_ : text ≠ "") :
    withDerivation farmhash64 true
        { st with metaDeriv := some text, metaContext := context, curLine := line } =
        .ok (drvlist, drvmap) ↔
      DerivMap.findOrInsertString farmhash64 st.drvmap text = .list drvlist drvmap := by
  have there : isEmpty (some text) = false := by simpa [isEmpty] using some_
  simp only [withDerivation, there, Bool.not_false, Bool.and_self, if_true, Option.getD_some]
  constructor
  · intro read
    split at read
    case h_1 found =>
      cases read
      exact found
    · cases read
    · cases read
  · intro found
    rw [found]

theorem derivText_ne (wf : DerivList.WellFormed d.derivation) (some_ : d.derivation ≠ []) :
    derivText d ≠ "" := by
  intro empty
  apply DerivList.toString_ne_nil wf some_
  rw [← String.toList_ofList (l := DerivList.toString d.derivation)]
  rw [derivText] at empty
  rw [empty]
  rfl

theorem sortLines_ne_nil (some_ : d.derivation ≠ []) : DerivList.sortLines d.derivation ≠ [] := by
  simpa [DerivList.sortLines] using some_

/-- The derivation which is read is the own one only if it can be told from the text and
from those before it .. -/
theorem withDerivation_kept (wf : DerivList.WellFormed d.derivation)
    (after : After farmhash64 past st) {line : Nat} {drvmap : LCFGDerivationMap}
    (read : withDerivation farmhash64 true (informed st d line) =
      .ok (DerivList.sortLines d.derivation, drvmap)) :
    (∀ drv ∈ d.derivation, Derivation.Kept drv) ∧ ∀ e ∈ past, Follows farmhash64 e d := by
  obtain ⟨context, same, -⟩ := informed_eq wf after line
  rw [same] at read
  -- a package without a derivation gets the one which is carried over
  by_cases none_ : d.derivation = []
  · rw [none_, if_pos rfl] at read
    have carried := withDerivation_carried after read
    exact ⟨by simp [none_], fun e member some_ => absurd (carried e member) some_⟩
  · rw [if_neg none_, withDerivation_some (derivText_ne wf none_)] at read
    obtain ⟨-, -, ⟨there, -⟩ | ⟨absent, parsed, -⟩⟩ := after.sound.findOrInsertString_list read
    · -- one of the packages before has the same text
      have equal : ∀ e ∈ past, e.derivation ≠ [] →
          farmhash64 (derivText e) = farmhash64 (derivText d) →
          DerivList.sortLines e.derivation = DerivList.sortLines d.derivation := by
        intro e member some_ hash
        have stored := after.tabled e member some_
        rw [hash, there] at stored
        exact (Option.some.inj stored).symm
      refine ⟨?_, fun e member some_ => ⟨none_, equal e member some_⟩⟩
      obtain ⟨e, member, some_, hash⟩ := after.known _ _ there
      have lists := equal e member some_ hash
      have texts : DerivList.toString e.derivation = DerivList.toString d.derivation := by
        rw [DerivList.toString, DerivList.toString, lists]
      obtain ⟨wfE, keptE⟩ := after.kept e member
      rw [← DerivList.fromString_toString_iff wf none_, ← texts, ← lists]
      exact (DerivList.fromString_toString_iff wfE some_).mpr keptE
    -- the text is new, and was parsed here
    · rw [derivText, String.toList_ofList, DerivList.fromString_toString_iff wf none_] at parsed
      refine ⟨parsed, fun e member some_ => ⟨none_, fun hash => ?_⟩⟩
      have stored := after.tabled e member some_
      rw [hash, absent] at stored
      cases stored

/-- .. and then it is, and the map knows it too. -/
theorem withDerivation_follows (wf : DerivList.WellFormed d.derivation)
    (after : After farmhash64 past st) (line : Nat)
    (kept : ∀ drv ∈ d.derivation, Derivation.Kept drv)
    (follows : ∀ e ∈ past, Follows farmhash64 e d) :
    ∃ drvmap, withDerivation farmhash64 true (informed st d line) =
        .ok (DerivList.sortLines d.derivation, drvmap) ∧
      DerivMap.Sound drvmap ∧
      (∀ e ∈ past ++ [d], e.derivation ≠ [] → DerivMap.lookup drvmap (farmhash64 (derivText e)) =
        some (DerivList.sortLines e.derivation)) ∧
      ∀ id drvlist, DerivMap.lookup drvmap id = some drvlist →
        ∃ e ∈ past ++ [d], e.derivation ≠ [] ∧ farmhash64 (derivText e) = id := by
  obtain ⟨context, same, -⟩ := informed_eq wf after line
  rw [same]
  have old : ∀ id drvlist, DerivMap.lookup st.drvmap id = some drvlist →
      ∃ e ∈ past ++ [d], e.derivation ≠ [] ∧ farmhash64 (derivText e) = id := by
    intro id drvlist stored
    obtain ⟨e, member, rest⟩ := after.known id drvlist stored
    exact ⟨e, List.mem_append_left _ member, rest⟩
  -- without a derivation there must be none before, because it would be carried over
  by_cases none_ : d.derivation = []
  · have before : ∀ e ∈ past, e.derivation = [] := by
      intro e member
      by_contra some_
      exact (follows e member some_).1 none_
    refine ⟨st.drvmap, ?_, after.sound, ?_, old⟩
    · rw [if_pos none_, none_]
      exact withDerivation_none after line context before
    · intro e member some_
      rcases List.mem_append.mp member with earlier | own
      · exact absurd (before e earlier) some_
      · rw [List.mem_singleton.mp own] at some_
        exact absurd none_ some_
  · rw [if_neg none_]
    obtain ⟨stored, new⟩ :=
      after.sound.findOrInsertString_spec farmhash64 (derivText_ne wf none_)
    cases there : DerivMap.lookup st.drvmap (farmhash64 (derivText d)) with
    | some drvlist =>
      -- the stored list is that of an earlier package with the same hash
      have equal : drvlist = DerivList.sortLines d.derivation := by
        obtain ⟨e, member, some_, hash⟩ := after.known _ _ there
        have here := after.tabled e member some_
        rw [hash, there] at here
        rw [Option.some.inj here]
        exact (follows e member some_).2 hash
      rw [equal] at there
      refine ⟨st.drvmap, ?_, after.sound, ?_, old⟩
      · rw [withDerivation_some (derivText_ne wf none_)]
        exact stored _ there
      · intro e member some_
        rcases List.mem_append.mp member with earlier | own
        · exact after.tabled e earlier some_
        · rw [List.mem_singleton.mp own]
          exact there
    -- the text is parsed and stored
    | none =>
      have parsed : DerivList.fromString (derivText d).toList =
          .ok (DerivList.sortLines d.derivation) := by
        rw [derivText, String.toList_ofList]
        exact (DerivList.fromString_toString_iff wf none_).mpr kept
      obtain ⟨drvmap, found, sound, updated⟩ := (new there).2 _ parsed (sortLines_ne_nil none_)
      refine ⟨drvmap, ?_, sound, ?_, ?_⟩
      · rw [withDerivation_some (derivText_ne wf none_)]
        exact found
      · intro e member some_
        rw [updated]
        rcases List.mem_append.mp member with earlier | own
        -- an earlier package has another hash, because its list would be stored
        · have stored := after.tabled e earlier some_
          have other : farmhash64 (derivText e) ≠ farmhash64 (derivText d) := by
            intro hash
            rw [hash, there] at stored
            cases stored
          rw [Function.update_of_ne other]
          exact stored
        · rw [List.mem_singleton.mp own, Function.update_self]
      · intro id drvlist stored
        rw [updated] at stored
        by_cases hash : id = farmhash64 (derivText d)
        · exact ⟨d, by simp, none_, hash.symm⟩
        · rw [Function.update_of_ne hash] at stored
          exact old id drvlist stored

end Between

/-! ## The lines of one package -/

section Lines

variable {farmhash64 : String → Nat} {signedChar : Bool} {defarch : Option String}
  {past : List DerivedPackage} {st st' : CppReader (List DerivedPackage)} {d : DerivedPackage}

/-- All that a line can do. An error in it leaves all but the change and the message. -/
theorem step_cases {line : List Char}
    (done : step farmhash64 signedChar true defarch collect st line = .ok st') :
    st' = { st with curLine := (st.curLine + 1) % 2 ^ 32 } ∨
      readDirective true { st with curLine := (st.curLine + 1) % 2 ^ 32 } (trim line) = .ok st' ∨
      readSpec farmhash64 signedChar true defarch collect
        { st with curLine := (st.curLine + 1) % 2 ^ 32 } (trim line) = .ok st' ∨
      ∃ msg, st' = { st with
        curLine := (st.curLine + 1) % 2 ^ 32, change := .error, msg := some msg } := by
  rw [step] at done
  simp only at done
  split at done
  case h_1 next read =>
    cases done
    split at read
    · exact .inl (Except.ok.inj read).symm
    · split at read
      · exact .inr (.inl read)
      · exact .inr (.inr (.inl read))
  case h_2 => cases done
  case h_3 =>
    cases done
    exact .inr (.inr (.inr ⟨_, rfl⟩))

theorem readDirective_frame {line : List Char} (done : readDirective true st line = .ok st') :
    st'.pkgs = st.pkgs ∧ st'.drvmap = st.drvmap := by
  rw [readDirective] at done
  split at done
  · simp only at done
    split at done
    · split at done
      · cases done
      · cases done
        exact ⟨rfl, rfl⟩
    · cases done
      exact ⟨rfl, rfl⟩
  · rw [if_pos rfl] at done
    split at done
    · split at done
      · cases done
        exact ⟨rfl, rfl⟩
      · split at done
        all_goals
          cases done
          exact ⟨rfl, rfl⟩
    · cases done
      exact ⟨rfl, rfl⟩

/-- Packages are only added, behind the others. -/
theorem readLines_pkgs {more : List (List Char)}
    (done : readLines farmhash64 signedChar true defarch collect st more = .ok st') :
    st.pkgs <+: st'.pkgs := by
  induction more generalizing st with
  | nil =>
    cases done
    exact List.prefix_refl _
  | cons line more ih =>
    rw [readLines] at done
    split at done
    · cases done
      exact List.prefix_refl _
    · obtain ⟨next, first, rest⟩ := Package.bind_ok done
      apply List.IsPrefix.trans _ (ih rest)
      rcases step_cases first with rfl | directive | spec | ⟨msg, rfl⟩
      · exact List.prefix_refl _
      · exact (readDirective_frame directive).1 ▸ List.prefix_refl _
      · obtain ⟨-, -, pkg, derivation, drvmap, category, -, -, -, -, rfl⟩ := readSpec_ok spec
        exact List.prefix_append _ _
      · exact List.prefix_refl _

/-- The lines of a package are read if its specification is. -/
theorem readLines_entry (ok : st.change ≠ .error) (valid : Package.Valid signedChar d.pkg)
    (named : Package.isValid d.pkg = true) (rest : List (List Char)) :
    ∃ n, (∀ st₁, readSpec farmhash64 signedChar true defarch collect (informed st d n)
          (specLine d defarch) = .ok st₁ →
        readLines farmhash64 signedChar true defarch collect st (entryLines d defarch ++ rest) =
          readLines farmhash64 signedChar true defarch collect st₁ rest) ∧
      ∀ st', readLines farmhash64 signedChar true defarch collect st (entryLines d defarch ++ rest) =
          .ok st' → st'.change ≠ .error →
        ∃ st₁, readSpec farmhash64 signedChar true defarch collect (informed st d n)
            (specLine d defarch) = .ok st₁ ∧
          readLines farmhash64 signedChar true defarch collect st₁ rest = .ok st' := by
  obtain ⟨trimmed, some_, first, -, -⟩ := specLine_free valid named defarch
  obtain ⟨line, read⟩ := @readLines_meta _ farmhash64 signedChar defarch collect st ok d
    (specLine d defarch :: rest)
  have ok' : (noted (noted st d .derive) d .context).change ≠ .error := by
    rwa [noted_change, noted_change]
  rw [readLines, if_neg (by exact ok'), step] at read
  simp only [trimmed, if_neg some_, if_neg first] at read
  rw [entryLines, List.append_assoc, List.singleton_append, read]
  refine ⟨(line + 1) % 2 ^ 32, fun st₁ done => ?_, fun st' done fine => ?_⟩
  · rw [informed] at done
    rw [done]
    rfl
  · rw [informed]
    split at done
    case h_1 st₁ spec => exact ⟨st₁, spec, done⟩
    case h_2 => cases done
    case h_3 =>
      -- after an error the rest is not read
      exfalso
      apply fine
      simp only [bind, Except.bind] at done
      cases rest with
      | nil =>
        cases done
        rfl
      | cons next rest =>
        cases done
        rfl

end Lines

/-! ## All packages of a file -/

section File

variable {farmhash64 : String → Nat} {signedChar : Bool} {defarch : Option String}
  {past : List DerivedPackage} {st st' : CppReader (List DerivedPackage)} {d : DerivedPackage}

/-- A package as the library builds it, with its derivation. -/
structure BuiltRecord (signedChar : Bool) (d : DerivedPackage) : Prop where
  built : Built signedChar d.pkg
  named : Package.isValid d.pkg = true
  derivation : DerivList.WellFormed d.derivation

/-- What a package must be to be read back, whatever comes before it. -/
def RecordKept (defarch : Option String) (d : DerivedPackage) : Prop :=
  SpecKept defarch d.pkg ∧ ∀ drv ∈ d.derivation, Derivation.Kept drv

/-- Step lemma: the meta-data of the package is used up, but for its derivation. -/
theorem After.next (after : After farmhash64 past st) (record : BuiltRecord signedChar d) {n : Nat}
    (kept : ∀ drv ∈ d.derivation, Derivation.Kept drv)
    (follows : ∀ e ∈ past, Follows farmhash64 e d)
    (done : readSpec farmhash64 signedChar true defarch collect (informed st d n)
      (specLine d defarch) = .ok st') : After farmhash64 (past ++ [d]) st' := by
  obtain ⟨drvmap, derived, sound, tabled, known⟩ :=
    withDerivation_follows record.derivation after n kept follows
  obtain ⟨-, -, -, derivation, drvmap', -, -, -, derived', -, rfl⟩ := readSpec_ok done
  obtain ⟨-, rfl⟩ := Prod.mk.inj (Except.ok.inj (derived.symm.trans derived'))
  obtain ⟨context, same, -⟩ := informed_eq record.derivation after n
  rw [same]
  refine ⟨by simp, ?_, ?_, after.category, after.file, sound, tabled, known, ?_⟩
  · dsimp only
    -- a package without a derivation leaves the carried one as it is
    by_cases none_ : d.derivation = []
    · rw [if_pos none_, after.deriv]
      refine ⟨fun before e member => ?_, fun all e member => all e (List.mem_append_left _ member)⟩
      rcases List.mem_append.mp member with earlier | own
      · exact before e earlier
      · rw [List.mem_singleton.mp own]
        exact none_
    · have some_ := derivText_ne record.derivation none_
      rw [if_neg none_]
      simp [isEmpty, some_, none_]
  · dsimp only
    split
    · assumption
    · rfl
  · intro e member
    rcases List.mem_append.mp member with earlier | own
    · exact after.kept e earlier
    · rw [List.mem_singleton.mp own]
      exact ⟨record.derivation, kept⟩

/-- Run lemma: reading the lines of packages goes on as long as each of them is kept and
follows all those before it. -/
theorem readLines_records_iff (after : After farmhash64 past st) (records : List DerivedPackage)
    (built : ∀ d ∈ records, BuiltRecord signedChar d) :
    (∃ st' new, readLines farmhash64 signedChar true defarch collect st
          (records.flatMap (entryLines · defarch)) = .ok st' ∧ st'.change ≠ .error ∧
        st'.pkgs = st.pkgs ++ new ∧ List.Forall₂ (SameCpp defarch) records new) ↔
      (∀ d ∈ records, RecordKept defarch d ∧ ∀ e ∈ past, Follows farmhash64 e d) ∧
        records.Pairwise (Follows farmhash64) := by
  induction records generalizing past st with
  | nil =>
    refine ⟨fun _ => ⟨by simp, .nil⟩, fun _ => ⟨st, [], rfl, after.ok, by simp, .nil⟩⟩
  | cons d records ih =>
    have record := built d List.mem_cons_self
    have others : ∀ later ∈ records, BuiltRecord signedChar later := fun later member =>
      built later (List.mem_cons_of_mem _ member)
    have valid := record.built.valid
    obtain ⟨n, forward, backward⟩ := @readLines_entry farmhash64 signedChar defarch st d after.ok
      valid record.named (records.flatMap (entryLines · defarch))
    obtain ⟨context, same, sameContext⟩ := informed_eq record.derivation after n
    have ctx : (informed st d n).metaContext.getD "" = d.pkg.context.getD "" := by
      rw [same]
      exact sameContext
    have category : isEmpty (informed st d n).metaCategory = true := by
      rw [same]
      exact after.category
    have pkgs : (informed st d n).pkgs = st.pkgs := by rw [same]
    have own := @readSpec_same_iff farmhash64 signedChar defarch (informed st d n) d valid
      record.named ctx category
    rw [List.flatMap_cons, List.pairwise_cons]
    constructor
    -- the file was read: so was its first entry, and the rest from the state after it
    · rintro ⟨st', new, done, fine, added, all⟩
      obtain ⟨st₁, spec, rest⟩ := backward st' done fine
      obtain ⟨-, -, pkg, derivation, drvmap, category', -, -, -, -, given⟩ := readSpec_ok spec
      obtain ⟨more, behind⟩ := readLines_pkgs rest
      have pkgs₁ : st₁.pkgs = st.pkgs ++ [⟨pkg, derivation, category'⟩] := by
        rw [given, pkgs]
      -- the packages read are those of the first entry and those of the rest
      cases all with
      | @cons _ read _ new' first later =>
        rw [added, pkgs₁, List.append_assoc] at behind
        obtain ⟨rfl, rfl⟩ := List.cons.inj (List.append_cancel_left behind)
        obtain ⟨specKept, drvmap, derived⟩ := own.mp ⟨st₁, _, spec, by rw [pkgs₁, pkgs], first⟩
        obtain ⟨kept, follows⟩ := withDerivation_kept record.derivation after derived
        have after₁ := after.next record kept follows spec
        obtain ⟨keptLater, distinct⟩ := (ih after₁ others).mp
          ⟨st', more, rest, fine, by rw [added, pkgs₁, List.append_assoc]; rfl, later⟩
        refine ⟨?_, fun later member => ?_, distinct⟩
        · intro e member
          rcases List.mem_cons.mp member with rfl | inside
          · exact ⟨⟨specKept, kept⟩, follows⟩
          · obtain ⟨keptE, followsE⟩ := keptLater e inside
            exact ⟨keptE, fun before there => followsE before (List.mem_append_left _ there)⟩
        · exact (keptLater later member).2 d (by simp)
    -- each entry is read as it was written, and the invariant goes on to the rest
    · rintro ⟨all, follow, distinct⟩
      obtain ⟨⟨specKept, kept⟩, follows⟩ := all d List.mem_cons_self
      obtain ⟨drvmap, derived, -⟩ := withDerivation_follows record.derivation after n kept follows
      obtain ⟨st₁, read, spec, pkgs₁, first⟩ := own.mpr ⟨specKept, drvmap, derived⟩
      have after₁ := after.next record kept follows spec
      obtain ⟨st', new, rest, fine, added, later⟩ := (ih after₁ others).mpr
        ⟨fun e member => ⟨(all e (List.mem_cons_of_mem _ member)).1, fun before there => by
          rcases List.mem_append.mp there with earlier | one
          · exact (all e (List.mem_cons_of_mem _ member)).2 before earlier
          · rw [List.mem_singleton.mp one]
            exact follow e member⟩, distinct⟩
      refine ⟨st', read :: new, ?_, fine, ?_, .cons first later⟩
      · rw [forward st₁ spec]
        exact rest
      · rw [added, pkgs₁, pkgs, List.append_assoc]
        rfl

end File

/-! ## Values have no newline -/

section Newline

variable {farmhash64 : String → Nat} {signedChar : Bool} {defarch : Option String}
  {st st' : CppReader (List DerivedPackage)} {d : DerivedPackage}

def Unbroken (context : Option String) (drvlist : LCFGDerivationList) : Prop :=
  '\n' ∉ (context.getD "").toList ∧ ∀ drv ∈ drvlist, '\n' ∉ (drv.file.getD "").toList

/-- All that was read so far came from single lines. -/
structure FromLines (st : CppReader (List DerivedPackage)) : Prop where
  context : '\n' ∉ (st.metaContext.getD "").toList
  file : '\n' ∉ (st.curFile.getD "").toList
  sound : DerivMap.Sound st.drvmap
  tabled : ∀ id drvlist, DerivMap.lookup st.drvmap id = some drvlist →
    ∀ drv ∈ drvlist, '\n' ∉ (drv.file.getD "").toList
  pkgs : ∀ read ∈ st.pkgs, Unbroken read.pkg.context read.derivation

theorem lines_newline {text line : List Char} (member : line ∈ lines text) : '\n' ∉ line := by
  have part : line ∈ text.splitOn '\n' := by
    rw [lines] at member
    split at member
    · exact List.dropLast_subset _ member
    · exact member
  intro newline
  have other := Fields.splitOnP_free (by simpa [List.splitOn] using part) '\n' newline
  cases other

theorem parseCppDerivation_newline {line : List Char} {curFile : Option String} {file : String}
    {linenum : Nat} {entry : Bool} (free : '\n' ∉ line)
    (old : '\n' ∉ (curFile.getD "").toList)
    (done : parseCppDerivation line curFile = some (file, linenum, entry)) :
    '\n' ∉ file.toList := by
  unfold parseCppDerivation at done
  split at done
  case h_1 number =>
    split at done
    · cases done
    · split at done
      case h_1 line rest converted =>
        split at done
        · cases done
        · obtain ⟨rfl, -⟩ := Prod.mk.inj (Option.some.inj done)
          split
          · rw [String.toList_ofList]
            intro newline
            have inRest := (List.rdropWhile_prefix _ _).subset (List.dropLast_subset _ newline)
            have inNumber := (strtoul0_rest converted).1.subset
              (List.mem_cons_of_mem _ (List.mem_cons_of_mem _ inRest))
            exact free (List.mem_cons_of_mem _ (List.mem_cons_of_mem _ inNumber))
          · exact old
      case h_2 => cases done
  case h_2 => cases done

theorem parsePragma_newline {line value : List Char} {key : LCFGPkgPragma} (free : '\n' ∉ line)
    (done : Package.parsePragma line = some (key, value)) : '\n' ∉ value := by
  rw [Package.parsePragma] at done
  split at done
  · cases done
  · simp only at done
    split at done
    · cases done
    · split at done
      case h_1 rest quoted =>
        split at done
        case isTrue =>
          obtain ⟨rfl, rfl⟩ := Prod.mk.inj (Option.some.inj done)
          intro newline
          have inRest := (List.rdropWhile_prefix _ _).subset (List.dropLast_subset _ newline)
          have inKey := (List.dropWhile_suffix _).subset
            (quoted ▸ List.mem_cons_of_mem '"' inRest)
          have inLine := (List.dropWhile_suffix _).subset (List.drop_subset _ _ inKey)
          exact free (List.drop_subset _ _ inLine)
        case isFalse => cases done
      case h_2 => cases done

theorem FromLines.directive (good : FromLines st) {line : List Char} (free : '\n' ∉ line)
    (done : readDirective true st line = .ok st') : FromLines st' := by
  obtain ⟨context, file, sound, tabled, pkgs⟩ := good
  rw [readDirective] at done
  split at done
  -- the directive is a marker of a derivation
  case h_1 name linenum entry marker =>
    have fresh := parseCppDerivation_newline free file marker
    simp only at done
    split at done
    · split at done
      · cases done
      · cases done
        exact ⟨context, fresh, sound, tabled, pkgs⟩
    · cases done
      exact ⟨context, fresh, sound, tabled, pkgs⟩
  case h_2 =>
    rw [if_pos rfl] at done
    split at done
    case h_1 key value parsed =>
      -- or else a pragma, whose text lies on the line
      have fresh := parsePragma_newline free parsed
      split at done
      · cases done
        exact ⟨context, file, sound, tabled, pkgs⟩
      · cases key
        all_goals cases done
        · exact ⟨context, file, sound, tabled, pkgs⟩
        · exact ⟨by simpa using fresh, file, sound, tabled, pkgs⟩
        · exact ⟨context, file, sound, tabled, pkgs⟩
    case h_2 =>
      cases done
      exact ⟨context, file, sound, tabled, pkgs⟩

theorem FromLines.derived (good : FromLines st) {derivation : LCFGDerivationList}
    {drvmap : LCFGDerivationMap}
    (done : withDerivation farmhash64 true st = .ok (derivation, drvmap)) :
    (∀ drv ∈ derivation, '\n' ∉ (drv.file.getD "").toList) ∧ DerivMap.Sound drvmap ∧
      ∀ id drvlist, DerivMap.lookup drvmap id = some drvlist →
        ∀ drv ∈ drvlist, '\n' ∉ (drv.file.getD "").toList := by
  rw [withDerivation] at done
  split at done
  · split at done
    case h_1 found =>
      cases done
      -- the derivation is one of the table, or read from the text carried over
      obtain ⟨-, -, ⟨stored, rfl⟩ | ⟨-, parsed, sound, updated⟩⟩ :=
        good.sound.findOrInsertString_list found
      · exact ⟨good.tabled _ _ stored, good.sound, good.tabled⟩
      · have fresh := DerivList.fromString_newline parsed
        refine ⟨fresh, sound, fun id drvlist there => ?_⟩
        rw [updated] at there
        by_cases own : id = farmhash64 (st.metaDeriv.getD "")
        · rw [own, Function.update_self] at there
          obtain rfl := Option.some.inj there
          exact fresh
        · rw [Function.update_of_ne own] at there
          exact good.tabled id drvlist there
    · cases done
    · cases done
  · split at done
    · cases done
      exact ⟨by simp, good.sound, good.tabled⟩
    · cases done
      refine ⟨fun drv member => ?_, good.sound, good.tabled⟩
      rw [List.mem_singleton.mp member]
      exact good.file

theorem FromLines.spec (good : FromLines st) {line : List Char} (free : '\n' ∉ line)
    (done : readSpec farmhash64 signedChar true defarch collect st line = .ok st') :
    FromLines st' := by
  obtain ⟨pkg₀, pkg₁, pkg₂, derivation, drvmap, category, parsed, arch, derived, withCtx, rfl⟩ :=
    readSpec_ok done
  obtain ⟨files, sound, tabled⟩ := good.derived derived
  obtain rfl := withContext_ok withCtx
  refine ⟨?_, good.file, sound, tabled, fun read member => ?_⟩
  · dsimp only
    split
    · exact good.context
    · exact List.not_mem_nil
  · rcases List.mem_append.mp member with before | own
    · exact good.pkgs read before
    · rw [List.mem_singleton.mp own]
      refine ⟨?_, files⟩
      dsimp only
      split
      · -- the context which the specification has itself
        rw [(withArch_ok arch).2.2.2.2.1]
        cases given : pkg₀.context with
        | none => exact List.not_mem_nil
        | some ctx =>
          intro newline
          have inside := (Package.fromSpec_context parsed ctx given).2 newline
          rw [String.toList_ofList] at inside
          exact free inside
      · exact good.context

/-- Run lemma. -/
theorem FromLines.run (good : FromLines st) {more : List (List Char)}
    (free : ∀ line ∈ more, '\n' ∉ line)
    (done : readLines farmhash64 signedChar true defarch collect st more = .ok st') :
    FromLines st' := by
  induction more generalizing st with
  | nil =>
    cases done
    exact good
  | cons line more ih =>
    rw [readLines] at done
    split at done
    · cases done
      exact good
    · obtain ⟨next, first, rest⟩ := Package.bind_ok done
      refine ih ?_ (fun later member => free later (List.mem_cons_of_mem _ member)) rest
      have trimmed : '\n' ∉ trim line := by
        intro newline
        apply free line List.mem_cons_self
        exact (List.dropWhile_suffix _).subset ((List.rdropWhile_prefix _ _).subset newline)
      have numbered : FromLines { st with curLine := (st.curLine + 1) % 2 ^ 32 } :=
        ⟨good.context, good.file, good.sound, good.tabled, good.pkgs⟩
      rcases step_cases first with rfl | directive | spec | ⟨msg, rfl⟩
      · exact numbered
      · exact numbered.directive trimmed directive
      · exact numbered.spec trimmed spec
      · exact ⟨good.context, good.file, good.sound, good.tabled, good.pkgs⟩

/-- The lines of a package, when its values do not break them. -/
theorem entryLines_newline (record : BuiltRecord signedChar d)
    (unbroken : Unbroken d.pkg.context d.derivation) :
    ∀ line ∈ entryLines d defarch, '\n' ∉ line := by
  have pragmaFree : ∀ key, '\n' ∉ pragmaValue d key → '\n' ∉ pragmaLine d key := by
    intro key free newline
    have fixed : '\n' ∉ Package.pragma ∧ ∀ key, '\n' ∉ Package.pragmaKey key := by
      refine ⟨by decide, fun key => ?_⟩
      cases key <;> decide
    simp [pragmaLine, fixed.1, fixed.2 key, free] at newline
  have derive : '\n' ∉ pragmaValue d .derive := by
    have text : pragmaValue d .derive =
        if d.derivation = [] then [] else DerivList.toString d.derivation := rfl
    rw [text]
    split
    · exact List.not_mem_nil
    · exact DerivList.toString_newline unbroken.2
  have context : '\n' ∉ pragmaValue d .context := unbroken.1
  have fixed : '\n' ∉ "#ifdef INCLUDE_META".toList ∧ '\n' ∉ "#endif".toList := by decide
  intro line member
  rw [entryLines, metaLines, List.mem_append, List.mem_cons, List.mem_cons, List.mem_append,
    List.mem_singleton, List.mem_singleton] at member
  -- the lines of an entry: its metadata between two fixed lines, and its specification
  rcases member with (rfl | rfl | inContext | rfl) | rfl
  · exact fixed.1
  · exact pragmaFree .derive derive
  · split at inContext
    · rw [List.mem_singleton.mp inContext]
      exact pragmaFree .context context
    · cases inContext
  · exact fixed.2
  · exact (specLine_free record.built.valid record.named defarch).2.2.2.1

/-- What was read back had no newlines. -/
theorem SameCpp.unbroken {read : DerivedPackage} (same : SameCpp defarch d read)
    (free : Unbroken read.pkg.context read.derivation) : Unbroken d.pkg.context d.derivation := by
  constructor
  · rw [show d.pkg.context.getD "" = read.pkg.context.getD "" from same.spec.context.symm]
    exact free.1
  · intro drv member
    have there : (if Derivation.isValid drv then Derivation.sortLines drv else drv) ∈
        read.derivation := by
      rw [same.derivation, DerivList.sortLines]
      exact List.mem_map_of_mem member
    have file := free.2 _ there
    split at file
    all_goals exact file

end Newline

/-! ## The round trip -/

section Main

variable (farmhash64 : String → Nat) (signedChar : Bool) (defarch : Option String)
  (records : List DerivedPackage)

theorem start_after : After farmhash64 [] ({ pkgs := [] } : CppReader (List DerivedPackage)) where
  ok := by decide
  deriv := by simp [isEmpty]
  context := rfl
  category := rfl
  file := rfl
  sound := DerivMap.new_sound
  tabled := by simp
  known := by
    intro id drvlist stored
    rw [DerivMap.new, DerivMap.lookup_emptied] at stored
    cases stored
  kept := by simp

theorem start_fromLines : FromLines ({ pkgs := [] } : CppReader (List DerivedPackage)) where
  context := List.not_mem_nil
  file := List.not_mem_nil
  sound := DerivMap.new_sound
  tabled := by
    intro id drvlist stored
    rw [DerivMap.new, DerivMap.lookup_emptied] at stored
    cases stored
  pkgs := by simp

variable {farmhash64 signedChar defarch records}

private theorem kept_of_read (built : ∀ d ∈ records, BuiltRecord signedChar d)
    {text : List Char} {st : CppReader (List DerivedPackage)}
    (given : writeCpp records defarch = some text)
    (done : fromCpp farmhash64 signedChar true defarch collect [] text = .ok st)
    (fine : st.change ≠ .error) (all : List.Forall₂ (SameCpp defarch) records st.pkgs) :
    (∀ d ∈ records, RecordKept defarch d ∧ '\n' ∉ (d.pkg.context.getD "").toList) ∧
      records.Pairwise (Follows farmhash64) := by
  rw [writeCpp_lines defarch fun d member => (built d member).named] at given
  obtain rfl := Option.some.inj given
  -- what is read has no newlines, so what was written had none
  have good := start_fromLines.run (fun line member => lines_newline member) done
  have unbroken : ∀ d ∈ records, Unbroken d.pkg.context d.derivation := by
    intro d member
    obtain ⟨i, rfl⟩ := List.get_of_mem member
    have bound : i.1 < st.pkgs.length := all.length_eq ▸ i.2
    exact (all.get i.2 bound).unbroken (good.pkgs _ (List.get_mem st.pkgs ⟨i.1, bound⟩))
  rw [fromCpp, lines_flatten] at done
  · obtain ⟨kept, follow⟩ := (readLines_records_iff (start_after farmhash64) records built).mp
      ⟨st, st.pkgs, done, fine, rfl, all⟩
    exact ⟨fun d member => ⟨(kept d member).1, (unbroken d member).1⟩, follow⟩
  · intro line member
    obtain ⟨d, inside, isLine⟩ := List.mem_flatMap.mp member
    exact entryLines_newline (built d inside) (unbroken d inside) line isLine

private theorem read_of_kept (built : ∀ d ∈ records, BuiltRecord signedChar d)
    (kept : ∀ d ∈ records, RecordKept defarch d ∧ '\n' ∉ (d.pkg.context.getD "").toList)
    (follow : records.Pairwise (Follows farmhash64)) :
    ∃ text st, writeCpp records defarch = some text ∧
      fromCpp farmhash64 signedChar true defarch collect [] text = .ok st ∧
      st.change ≠ .error ∧ List.Forall₂ (SameCpp defarch) records st.pkgs := by
  obtain ⟨st, new, done, fine, rfl, all⟩ :=
    (readLines_records_iff (start_after farmhash64) records built).mpr
      ⟨fun d member => ⟨(kept d member).1, by simp⟩, follow⟩
  refine ⟨_, st, writeCpp_lines defarch fun d member => (built d member).named, ?_, fine, all⟩
  rw [fromCpp, lines_flatten]
  · exact done
  · intro line member
    obtain ⟨d, inside, isLine⟩ := List.mem_flatMap.mp member
    refine entryLines_newline (built d inside) ⟨(kept d inside).2, ?_⟩ line isLine
    -- a newline would separate two files
    intro drv isIn newline
    have other := ((kept d inside).1.2 drv isIn).1 '\n' newline
    revert other
    decide

variable (farmhash64 signedChar defarch records)

end Main

/-! ## Two packages -/

/-- The package `foo-1-2`, with a context. -/
def samplePlain : DerivedPackage where
  pkg := { name := some "foo", version := some "1", release := some "2", context := some "a & b" }

/-- The package `bar-1-2`, which was found in the first line of a file. -/
def sampleDerived : DerivedPackage where
  pkg := { name := some "bar", version := some "1", release := some "2"
           name_valid := by decide }
  derivation := [{ file := some "a.rpms", lines := [1] }]

/-- The hash of the text `a.rpms:1`. -/
def sampleHash (_text : String) : Nat := 11143675018279974602

private theorem samplePlain_built : BuiltRecord true samplePlain where
  built := .context "a & b" (Fields.of_all (by decide))
    (.release "2" (.version "1" (.name "foo" .new rfl) rfl) rfl) (by decide)
  named := by decide
  derivation := ⟨by simp [samplePlain], by simp [samplePlain]⟩

private theorem sampleDerived_built : BuiltRecord true sampleDerived where
  built := .release "2" (.version "1" (.name "bar" .new rfl) rfl) rfl
  named := by decide
  derivation := by
    refine ⟨fun drv member => ?_, by simp [sampleDerived]⟩
    obtain rfl := List.mem_singleton.mp member
    exact ⟨by decide, by simp, by simp⟩

end Lcfg.PkgContainer
