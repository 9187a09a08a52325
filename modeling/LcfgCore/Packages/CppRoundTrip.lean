import LcfgCore.Packages.Cpp
import LcfgCore.Packages.SpecStyles

/-!
# Reading package files back

What `lcfgpackages_from_cpp` makes of packages which were written one after another
by `lcfgpackage_to_cpp`, each with its derivation and its context.
-/
namespace Lcfg.PkgContainer

open Package (pragma pragmaKey pragmaValue buildPragma toSpec toCpp hasContext specArch Built
  Recovers metaStart metaEnd)

/-! ## Lines -/

theorem lines_flatten {parts : List (List Char)} (free : ∀ line ∈ parts, '\n' ∉ line) :
    lines (parts.map (· ++ ['\n'])).flatten = parts := by
  have split_ : ((parts.map (· ++ ['\n'])).flatten).splitOn '\n' = parts ++ [[]] := by
    induction parts with
    | nil => rfl
    | cons line parts ih =>
      rw [List.map_cons, List.flatten_cons, List.append_assoc, List.singleton_append,
        List.splitOn_append_cons_self_of_not_mem (free line List.mem_cons_self),
        ih fun later member => free later (List.mem_cons_of_mem _ member), List.cons_append]
  rw [lines, split_]
  simp

theorem trim_eq {line : List Char} (first : ∀ c ∈ line.head?, isSpace c = false)
    (last : ∀ c ∈ line.getLast?, isSpace c = false) : trim line = line := by
  rw [trim, Fields.dropWhile_eq_self first, Fields.rdropWhile_eq_self last]

/-! ## Pragmas -/

/-- The line of a pragma. -/
def pragmaLine (d : DerivedPackage) (key : LCFGPkgPragma) : List Char :=
  pragma ++ ' ' :: pragmaKey key ++ ' ' :: '"' :: pragmaValue d key ++ ['"']

theorem buildPragma_newline (d : DerivedPackage) (key : LCFGPkgPragma) :
    buildPragma d key { newline := true } = pragmaLine d key ++ ['\n'] := by
  simp [buildPragma, pragmaLine]

theorem parsePragma_line (d : DerivedPackage) (key : LCFGPkgPragma) :
    Package.parsePragma (pragmaLine d key) = some (key, pragmaValue d key) := by
  have value : (pragmaValue d key ++ ['"']).rdropWhile (· != '"') = pragmaValue d key ++ ['"'] :=
    Fields.rdropWhile_cut (by simp) (by decide)
  have there : (pragmaValue d key ++ ['"']).contains '"' = true := by simp
  have starts : pragma.isPrefixOf (pragmaLine d key) = true := by
    rw [List.isPrefixOf_iff_prefix, pragmaLine]
    simp
  have drop : ((pragmaLine d key).drop pragma.length).dropWhile isSpace =
      pragmaKey key ++ ' ' :: '"' :: pragmaValue d key ++ ['"'] := by
    have rest : (pragmaLine d key).drop pragma.length =
        ' ' :: (pragmaKey key ++ ' ' :: '"' :: pragmaValue d key ++ ['"']) := by
      simp [pragmaLine]
    rw [rest, List.dropWhile_cons_of_pos (by decide)]
    cases key <;> exact List.dropWhile_cons_of_neg (by decide)
  have found : [LCFGPkgPragma.category, .context, .derive].find? (fun other =>
      (pragmaKey other).isPrefixOf (pragmaKey key ++ ' ' :: '"' :: pragmaValue d key ++ ['"'])) =
        some key := by
    cases key <;> rfl
  have behind : ((pragmaKey key ++ ' ' :: '"' :: pragmaValue d key ++ ['"']).drop
      (pragmaKey key).length).dropWhile isSpace = '"' :: (pragmaValue d key ++ ['"']) := by
    rw [List.append_assoc, List.drop_left]
    rfl
  rw [Package.parsePragma, starts]
  simp only [Bool.not_true, Bool.false_eq_true, if_false, drop, found, behind, there, if_true, value,
    List.dropLast_concat]

theorem pragmaLine_ends (d : DerivedPackage) (key : LCFGPkgPragma) :
    trim (pragmaLine d key) = pragmaLine d key ∧ (pragmaLine d key).head? = some '#' ∧
      ∀ file, parseCppDerivation (pragmaLine d key) file = none := by
  have begins : ∃ rest, pragmaLine d key = '#' :: 'p' :: rest := by
    refine ⟨"ragma LCFG".toList ++ ' ' :: pragmaKey key ++ ' ' :: '"' :: pragmaValue d key ++ ['"'],
      ?_⟩
    rfl
  obtain ⟨rest, begins⟩ := begins
  refine ⟨trim_eq ?_ ?_, by rw [begins]; rfl, fun file => by rw [begins]; rfl⟩
  · rw [begins]
    intro c first
    obtain rfl := Option.some.inj first
    decide
  · intro c last
    rw [pragmaLine, List.getLast?_concat] at last
    obtain rfl := Option.some.inj last
    decide

/-! ## What is written -/

/-- What the specification in a package file holds: no prefix and no context. -/
def bare (pkg : LCFGPackage) : LCFGPackage := { pkg with pfx := .none, context := none }

def specLine (d : DerivedPackage) (defarch : Option String) : List Char :=
  ((toSpec (bare d.pkg) defarch {}).getD "").toList

/-- The lines with the meta-data of a package. -/
def metaLines (d : DerivedPackage) : List (List Char) :=
  "#ifdef INCLUDE_META".toList :: pragmaLine d .derive ::
    ((if hasContext d.pkg then [pragmaLine d .context] else []) ++ ["#endif".toList])

def entryLines (d : DerivedPackage) (defarch : Option String) : List (List Char) :=
  metaLines d ++ [specLine d defarch]

/-- Packages one after another, in the text of one file. -/
def writeCpp (records : List DerivedPackage) (defarch : Option String) : Option (List Char) :=
  (records.mapM fun d => toCpp d defarch { useMeta := true }).map List.flatten

theorem toSpec_bare {d : DerivedPackage} (named : Package.isValid d.pkg = true)
    (defarch : Option String) :
    ∃ spec, toSpec (bare d.pkg) defarch {} = some spec ∧
      toSpec d.pkg defarch { useMeta := true, noContext := true, noPrefix := true, newline := true } =
        some (spec ++ "\n") := by
  refine ⟨_, if_pos named, ?_⟩
  rw [toSpec, if_pos named]
  simp [bare, Package.hasPrefix, Package.part, isEmpty, specArch, Package.hasArch,
    Package.specRelease, Package.hasEpoch, String.append_assoc]

theorem toCpp_lines {d : DerivedPackage} (named : Package.isValid d.pkg = true)
    (defarch : Option String) :
    toCpp d defarch { useMeta := true } =
      some ((entryLines d defarch).map (· ++ ['\n'])).flatten := by
  obtain ⟨spec, plain, written⟩ := toSpec_bare named defarch
  have newline : "\n".toList = ['\n'] := rfl
  have start : metaStart = "#ifdef INCLUDE_META".toList ++ ['\n'] := rfl
  have end_ : metaEnd = "#endif".toList ++ ['\n'] := rfl
  rw [toCpp, written, entryLines, specLine, plain, metaLines, Option.map_some, if_pos rfl,
    buildPragma_newline, buildPragma_newline, start, end_]
  cases hasContext d.pkg <;> simp [newline]

theorem writeCpp_lines {records : List DerivedPackage} (defarch : Option String)
    (named : ∀ d ∈ records, Package.isValid d.pkg = true) :
    writeCpp records defarch =
      some ((records.flatMap (entryLines · defarch)).map (· ++ ['\n'])).flatten := by
  have each : records.mapM (fun d => toCpp d defarch { useMeta := true }) =
      some (records.map fun d => ((entryLines d defarch).map (· ++ ['\n'])).flatten) := by
    induction records with
    | nil => rfl
    | cons d records ih =>
      rw [List.mapM_cons, toCpp_lines (named d List.mem_cons_self) defarch,
        ih fun later member => named later (List.mem_cons_of_mem _ member)]
      rfl
  rw [writeCpp, each, Option.map_some, List.map_flatMap, List.flatMap_def, List.flatten_flatten,
    List.map_map]
  rfl

/-! ## Reading the meta-data -/

/-- The packages in the order in which they are read. -/
def collect (pkgs : List DerivedPackage) (d : DerivedPackage) :
    List DerivedPackage × LCFGChange × Option String := (pkgs ++ [d], .added, none)

/-- What the reader knows after the pragma for a key. -/
def noted {σ : Type} (st : CppReader σ) (d : DerivedPackage) (key : LCFGPkgPragma) : CppReader σ :=
  if pragmaValue d key = [] then st
  else
    match key with
    | .derive => { st with metaDeriv := some (String.ofList (pragmaValue d .derive)) }
    | .context => { st with metaContext := some (String.ofList (pragmaValue d .context)) }
    | .category => { st with metaCategory := some (String.ofList (pragmaValue d .category)) }

section Directives

variable {σ : Type} {farmhash64 : String → Nat} {signedChar : Bool} {defarch : Option String}
  {mergeFn : σ → DerivedPackage → σ × LCFGChange × Option String} {st st' : CppReader σ}

theorem readLines_append (before after : List (List Char)) :
    readLines farmhash64 signedChar true defarch mergeFn st (before ++ after) =
      (readLines farmhash64 signedChar true defarch mergeFn st before).bind
        fun st => readLines farmhash64 signedChar true defarch mergeFn st after := by
  induction before generalizing st with
  | nil => rfl
  | cons line before ih =>
    rw [List.cons_append, readLines, readLines]
    by_cases failed : st.change = .error
    · -- after an error no line is read
      rw [if_pos failed, if_pos failed]
      cases after with
      | nil => rfl
      | cons next after => exact (if_pos failed).symm
    · rw [if_neg failed, if_neg failed]
      cases step farmhash64 signedChar true defarch mergeFn st line with
      | error fault => rfl
      | ok st => exact ih

theorem step_directive {line : List Char} (trimmed : trim line = line)
    (first : line.head? = some '#')
    (read : readDirective true { st with curLine := (st.curLine + 1) % 2 ^ 32 } line = .ok st') :
    step farmhash64 signedChar true defarch mergeFn st line = .ok st' := by
  have some_ : line ≠ [] := by
    rintro rfl
    cases first
  rw [step]
  simp only [trimmed, if_neg some_, if_pos first, read]

theorem readDirective_pragma (st : CppReader σ) (d : DerivedPackage) (key : LCFGPkgPragma) :
    readDirective true st (pragmaLine d key) = .ok (noted st d key) := by
  rw [readDirective, (pragmaLine_ends d key).2.2]
  simp only [if_true, parsePragma_line, noted]
  split
  · rfl
  · cases key <;> rfl

private theorem noted_curLine (st : CppReader σ) (n : Nat) (d : DerivedPackage)
    (key : LCFGPkgPragma) :
    noted { st with curLine := n } d key = { noted st d key with curLine := n } := by
  unfold noted
  split
  · rfl
  · cases key <;> rfl

theorem noted_change (st : CppReader σ) (d : DerivedPackage) (key : LCFGPkgPragma) :
    (noted st d key).change = st.change := by
  unfold noted
  split
  · rfl
  · cases key <;> rfl

/-- One line which is read, and the number of which does not matter. -/
private theorem readLines_directive {line : List Char} {rest : List (List Char)}
    {know : CppReader σ → CppReader σ} (trimmed : trim line = line)
    (first : line.head? = some '#')
    (read : ∀ st : CppReader σ, readDirective true st line = .ok (know st))
    (ok : st.change ≠ .error) :
    readLines farmhash64 signedChar true defarch mergeFn st (line :: rest) =
      readLines farmhash64 signedChar true defarch mergeFn
        (know { st with curLine := (st.curLine + 1) % 2 ^ 32 }) rest := by
  rw [readLines, if_neg ok, step_directive trimmed first (read _)]
  rfl

theorem readLines_meta (ok : st.change ≠ .error) (d : DerivedPackage)
    (rest : List (List Char)) :
    ∃ n, readLines farmhash64 signedChar true defarch mergeFn st (metaLines d ++ rest) =
      readLines farmhash64 signedChar true defarch mergeFn
        { noted (noted st d .derive) d .context with curLine := n } rest := by
  have ifdef : ∀ st : CppReader σ,
      readDirective true st "#ifdef INCLUDE_META".toList = .ok (id st) := fun st => rfl
  have endif : ∀ st : CppReader σ, readDirective true st "#endif".toList = .ok (id st) :=
    fun st => rfl
  obtain ⟨trimDerive, hashDerive, -⟩ := pragmaLine_ends d .derive
  obtain ⟨trimContext, hashContext, -⟩ := pragmaLine_ends d .context
  rw [metaLines, List.cons_append, List.cons_append, readLines_directive rfl rfl ifdef ok,
    readLines_directive trimDerive hashDerive (readDirective_pragma · d .derive)
      (by exact ok)]
  simp only [id_eq, noted_curLine]
  cases there : hasContext d.pkg with
  | true =>
    rw [if_pos rfl, List.append_assoc, List.singleton_append,
      readLines_directive trimContext hashContext (readDirective_pragma · d .context)
        (by simpa [noted_change] using ok)]
    simp only [noted_curLine]
    rw [List.singleton_append,
      readLines_directive rfl rfl endif (by simpa [noted_change] using ok)]
    exact ⟨_, rfl⟩
  -- without a context nothing is written and nothing would be noted
  | false =>
    have empty : pragmaValue d .context = [] := by
      rw [hasContext, Bool.not_eq_false', isEmpty_iff] at there
      rw [pragmaValue, there]
      rfl
    have same : noted (noted st d .derive) d .context = noted st d .derive := if_pos empty
    rw [if_neg Bool.false_ne_true, List.nil_append, List.singleton_append, same,
      readLines_directive rfl rfl endif (by simpa [noted_change] using ok)]
    exact ⟨_, rfl⟩

end Directives

/-! ## Reading the specification -/

section SpecLine

variable {signedChar : Bool} {d : DerivedPackage} {defarch : Option String}

open Package (Valid validName isVerChar VerChars nameVersion partChars present specRelease)

theorem bare_valid (valid : Valid signedChar d.pkg) : Valid signedChar (bare d.pkg) where
  version := valid.version
  release := valid.release
  flags := valid.flags
  context := by simp [bare]
  pfx := ⟨(by decide : Package.validPrefix PkgPrefix.none.toChar = true), rfl⟩

private theorem partChars_chars {before : List Char} {value : Option String}
    (verBefore : ∀ c ∈ before, isVerChar c = true ∨ c = '/')
    (ver : ∀ v ∈ present value, VerChars v.toList) :
    ∀ c ∈ partChars before value [], isVerChar c = true ∨ c = '/' := by
  intro c member
  cases there : present value with
  | none => simp [partChars, there] at member
  | some v =>
    simp only [partChars, there, List.append_nil, List.mem_append] at member
    rcases member with outside | inside
    · exact verBefore c outside
    · exact .inl (ver v there c inside)

/-- The line is one word: no blanks, and nothing like a directive or a context. -/
theorem specLine_chars (valid : Valid signedChar d.pkg) (named : Package.isValid d.pkg = true)
    (defarch : Option String) :
    (∃ c rest, specLine d defarch = c :: rest ∧ isWord c = true) ∧
      ∀ c ∈ specLine d defarch, isVerChar c = true ∨ c = '/' := by
  obtain ⟨name, given, someName⟩ := Package.isValid_name named
  have validName_ := d.pkg.name_valid name (by simp [given])
  obtain ⟨spec, written, chars⟩ :=
    Package.toSpec_toList (show (bare d.pkg).name = some name from given) someName defarch {}
  have line : specLine d defarch =
      nameVersion '-' name (orDefault d.pkg.version Package.wildcard) (specRelease (bare d.pkg) {}) ++
        (partChars ['/'] (specArch (bare d.pkg) defarch) [] ++ partChars [':'] d.pkg.flags []) := by
    have noContext : partChars ['['] (bare d.pkg).context [']'] = [] := rfl
    have noPrefix : Package.prefixChars (bare d.pkg).pfx = [] := rfl
    have behind : Package.archFirst (bare d.pkg) defarch {} = false := rfl
    rw [specLine, written, Option.getD_some, chars, noContext, noPrefix, behind]
    simp [bare]
  -- the hyphens and colons between the parts are allowed in a version too
  have hyphen : ∀ c ∈ ['-', ':'], isVerChar c = true := Fields.of_all (by decide)
  rw [line]
  constructor
  · obtain ⟨c, rest, starts, word⟩ := Package.name_word validName_
    exact ⟨c, _, by rw [nameVersion, starts, List.cons_append, List.cons_append], word⟩
  · intro c member
    rw [nameVersion, List.mem_append, List.mem_append, List.mem_append, List.mem_cons,
      List.mem_append] at member
    rcases member with (inName | rfl | inVersion | inRelease) | inArch | inFlags
    · exact .inl (Package.validName_verChars validName_ c inName)
    · exact .inl (hyphen '-' (by simp))
    · exact .inl (Package.validVersion_verChars (Package.version_written valid) c inVersion)
    · refine partChars_chars ?_ (fun v there => ?_) c inRelease
      · intro c one
        exact .inl (hyphen c (by simp_all))
      · exact Package.validRelease_verChars (Package.release_written (bare_valid valid) {} v
          (Package.present_some there).1)
    · refine partChars_chars ?_ (fun v there => ?_) c inArch
      · intro c one
        exact .inr (List.mem_singleton.mp one)
      · exact Package.validArch_verChars (Package.specArch_valid (bare d.pkg) defarch v there)
    · refine partChars_chars ?_ (fun v there => ?_) c inFlags
      · intro c one
        exact .inl (hyphen c (by simp_all))
      · intro c inside
        have alnum := Package.validFlags_alnum (valid.flags v (Package.present_some there).1) c inside
        rw [isVerChar, alnum, Bool.true_or]

theorem specLine_free (valid : Valid signedChar d.pkg) (named : Package.isValid d.pkg = true)
    (defarch : Option String) :
    trim (specLine d defarch) = specLine d defarch ∧ specLine d defarch ≠ [] ∧
      (specLine d defarch).head? ≠ some '#' ∧ '\n' ∉ specLine d defarch ∧
      ']' ∉ specLine d defarch := by
  obtain ⟨⟨c, rest, starts, word⟩, chars⟩ := specLine_chars valid named defarch
  have space : ∀ x ∈ specLine d defarch, isSpace x = false := by
    intro x member
    rcases chars x member with ver | rfl
    · exact Package.isSpace_of_verChar ver
    · decide
  refine ⟨trim_eq (fun x first => space x (List.mem_of_head? first))
    (fun x last => space x (List.mem_of_getLast? last)), ?_, ?_, ?_, ?_⟩
  · rw [starts]
    exact List.cons_ne_nil c rest
  · rw [starts, List.head?_cons]
    intro hash
    cases hash
    revert word
    decide
  · intro member
    have blank := space '\n' member
    revert blank
    decide
  · intro member
    rcases chars ']' member with ver | slash
    · revert ver
      decide
    · cases slash

end SpecLine

/-! ## What a specification line gives -/

section ReadSpec

variable {farmhash64 : String → Nat} {signedChar : Bool} {defarch : Option String}
  {st st' : CppReader (List DerivedPackage)} {pkg pkg' : LCFGPackage}

theorem withArch_ok (done : withArch defarch pkg = .ok pkg') :
    pkg'.name = pkg.name ∧ pkg'.version = pkg.version ∧ pkg'.release = pkg.release ∧
      pkg'.flags = pkg.flags ∧ pkg'.context = pkg.context ∧ pkg'.pfx = pkg.pfx ∧
      orDefault pkg'.arch (defarch.getD "") = orDefault pkg.arch (defarch.getD "") := by
  rw [withArch] at done
  split at done
  case isTrue missing =>
    rw [Bool.and_eq_true, Bool.not_eq_true', Package.hasArch, Bool.not_eq_false', isEmpty_iff]
      at missing
    split at done
    case h_1 pkg' set_ =>
      cases done
      rw [Package.setArch] at set_
      split at set_
      · cases set_
        refine ⟨rfl, rfl, rfl, rfl, rfl, rfl, ?_⟩
        cases given : pkg.arch with
        | none => simp [orDefault]
        | some a =>
          rw [given] at missing
          simp [orDefault, show a = "" from missing.1]
      · cases set_
    · cases done
  case isFalse =>
    cases done
    exact ⟨rfl, rfl, rfl, rfl, rfl, rfl, rfl⟩

/-- The default architecture can be set where it is needed. -/
def ArchGiven (arch defarch : Option String) : Prop :=
  isEmpty arch = true → isEmpty defarch = true ∨ Package.validArch (defarch.getD "") = true

theorem withArch_isOk : (∃ pkg', withArch defarch pkg = .ok pkg') ↔ ArchGiven pkg.arch defarch := by
  rw [withArch, ArchGiven, Package.hasArch, Bool.not_not]
  by_cases missing : (isEmpty pkg.arch && !isEmpty defarch) = true
  · rw [if_pos missing]
    rw [Bool.and_eq_true, Bool.not_eq_true'] at missing
    simp only [missing.1, missing.2, Bool.false_eq_true, false_or, forall_const]
    by_cases valid : Package.validArch (defarch.getD "") = true
    · rw [Package.setArch_valid valid]
      exact ⟨fun _ => valid, fun _ => ⟨_, rfl⟩⟩
    · rw [Package.setArch, dif_neg valid]
      refine ⟨?_, fun good => absurd good valid⟩
      rintro ⟨_, done⟩
      cases done
  · rw [if_neg missing]
    rw [Bool.and_eq_true, Bool.not_eq_true'] at missing
    refine ⟨fun _ empty => .inl ?_, fun _ => ⟨pkg, rfl⟩⟩
    by_contra some_
    exact missing ⟨empty, Bool.eq_false_iff.mpr some_⟩

theorem withContext_ok (done : withContext signedChar true st pkg = .ok pkg') :
    pkg' = { pkg with context := if isEmpty st.metaContext then pkg.context else st.metaContext } := by
  rw [withContext, Bool.true_and] at done
  split at done
  case isTrue some_ =>
    rw [Bool.not_eq_true'] at some_
    split at done
    case h_1 set_ =>
      cases done
      rw [Package.setContext] at set_
      split at set_
      · cases set_
        cases given : st.metaContext with
        | none => simp [given, isEmpty] at some_
        | some c =>
          rw [given] at some_
          simp [some_]
      · cases set_
    · cases done
  case isFalse none_ =>
    cases done
    rw [Bool.not_eq_true', Bool.not_eq_false] at none_
    rw [none_, if_pos rfl]

/-- All that a specification line does. -/
theorem readSpec_ok {line : List Char}
    (done : readSpec farmhash64 signedChar true defarch collect st line = .ok st') :
    ∃ pkg₀ pkg₁ pkg₂ derivation drvmap category,
      Package.fromSpec signedChar (some (String.ofList line)) = .ok pkg₀ ∧
      withArch defarch pkg₀ = .ok pkg₁ ∧
      withDerivation farmhash64 true st = .ok (derivation, drvmap) ∧
      withContext signedChar true st pkg₁ = .ok pkg₂ ∧
      st' = { st with
        pkgs := st.pkgs ++ [⟨pkg₂, derivation, category⟩]
        drvmap := drvmap
        metaContext := if isEmpty st.metaContext then st.metaContext else none
        change := .modified } := by
  rw [readSpec] at done
  obtain ⟨pkg₀, parsed, done⟩ := Package.bind_ok done
  obtain ⟨pkg₁, arch, done⟩ := Package.bind_ok done
  obtain ⟨⟨derivation, drvmap⟩, derived, done⟩ := Package.bind_ok done
  obtain ⟨pkg₂, context, done⟩ := Package.bind_ok done
  obtain ⟨category, -, done⟩ := Package.bind_ok done
  refine ⟨pkg₀, pkg₁, pkg₂, derivation, drvmap, category, ?_, arch, derived, context, ?_⟩
  · cases read : Package.fromSpec signedChar (some (String.ofList line)) with
    | error text =>
      rw [read] at parsed
      cases parsed
    | ok pkg =>
      rw [read] at parsed
      cases parsed
      rfl
  · cases done
    cases isEmpty st.metaContext <;> rfl

theorem readSpec_of {line : List Char} {pkg₀ pkg₁ pkg₂ : LCFGPackage}
    {derivation : LCFGDerivationList} {drvmap : LCFGDerivationMap}
    (parsed : Package.fromSpec signedChar (some (String.ofList line)) = .ok pkg₀)
    (arch : withArch defarch pkg₀ = .ok pkg₁)
    (derived : withDerivation farmhash64 true st = .ok (derivation, drvmap))
    (context : withContext signedChar true st pkg₁ = .ok pkg₂)
    (plain : isEmpty st.metaCategory = true) :
    ∃ st', readSpec farmhash64 signedChar true defarch collect st line = .ok st' := by
  have category : withCategory true st = .ok none := by
    rw [withCategory, plain]
    rfl
  rw [readSpec, parsed, message]
  simp only [bind, Except.bind, arch, derived, context, category, collect]
  exact ⟨_, rfl⟩

theorem withContext_isOk (valid : isEmpty st.metaContext = false →
      Package.validContext signedChar (st.metaContext.getD "") = true) (pkg : LCFGPackage) :
    ∃ pkg', withContext signedChar true st pkg = .ok pkg' := by
  rw [withContext, Bool.true_and]
  cases there : isEmpty st.metaContext with
  | true => exact ⟨pkg, rfl⟩
  | false =>
    rw [Package.setContext, if_pos (valid there)]
    exact ⟨_, rfl⟩

end ReadSpec

/-! ## One package -/

/-- The package which was read is the one which was written, but for its prefix and its
category, which are not written. The lines of its derivation are sorted. -/
structure SameCpp (defarch : Option String) (d read : DerivedPackage) : Prop where
  spec : Recovers { d.pkg with pfx := .none } read.pkg defarch {}
  derivation : read.derivation = DerivList.sortLines d.derivation

/-- What a specification line must not contain, and what it may have to be given. -/
def SpecKept (defarch : Option String) (pkg : LCFGPackage) : Prop :=
  ((∀ a ∈ specArch pkg defarch, '-' ∉ a.toList) ∧ '-' ∉ (pkg.version.getD "").toList) ∧
    ArchGiven (specArch pkg defarch) defarch

section Entry

variable {farmhash64 : String → Nat} {signedChar : Bool} {defarch : Option String}
  {st : CppReader (List DerivedPackage)} {d : DerivedPackage} {pkg₀ : LCFGPackage}

/-- An architecture is missing from what was read if it was not written, or else it is
the default. -/
private theorem archGiven_iff (recovers : Recovers (bare d.pkg) pkg₀ defarch {}) :
    ArchGiven pkg₀.arch defarch ↔ ArchGiven (specArch (bare d.pkg) defarch) defarch := by
  constructor
  -- what was read is missing, or else the architecture written is missing
  · intro given missing
    by_cases empty : isEmpty pkg₀.arch = true
    · exact given empty
    · have absent : Package.present (specArch (bare d.pkg) defarch) = none := by
        rw [Package.present, if_pos missing]
      have arch := recovers.arch.trans (Package.specArch_absent absent)
      cases read : pkg₀.arch with
      | none =>
        rw [read] at empty
        exact absurd rfl empty
      | some a =>
        rw [read, isEmpty, beq_iff_eq] at empty
        rw [read, orDefault, if_neg (by simpa using empty)] at arch
        exact .inr (arch ▸ pkg₀.arch_valid a (by simp [read]))
  · intro given empty
    by_cases missing : isEmpty (specArch (bare d.pkg) defarch) = true
    · exact given missing
    · cases written : specArch (bare d.pkg) defarch with
      | none =>
        rw [written] at missing
        exact absurd rfl missing
      | some a =>
        rw [written, isEmpty, beq_iff_eq] at missing
        obtain ⟨set_, some_, other⟩ :=
          Package.specArch_present (Package.present_of_ne written missing)
        have arch := recovers.arch
        have own : orDefault (some a) (defarch.getD "") = a := by simp [orDefault, some_]
        rw [set_, own] at arch
        rw [isEmpty_iff] at empty
        exfalso
        apply other
        rw [← arch]
        cases read : pkg₀.arch with
        | none => rfl
        | some b =>
          rw [read, Option.getD_some] at empty
          simp [orDefault, empty]

theorem readSpec_same_iff (valid : Package.Valid signedChar d.pkg)
    (named : Package.isValid d.pkg = true)
    (context : st.metaContext.getD "" = d.pkg.context.getD "")
    (plain : isEmpty st.metaCategory = true) :
    (∃ st' read, readSpec farmhash64 signedChar true defarch collect st (specLine d defarch) =
          .ok st' ∧ st'.pkgs = st.pkgs ++ [read] ∧ SameCpp defarch d read) ↔
      SpecKept defarch d.pkg ∧
        ∃ drvmap, withDerivation farmhash64 true st = .ok (DerivList.sortLines d.derivation, drvmap) := by
  obtain ⟨spec, written, -⟩ := toSpec_bare named defarch
  have line : String.ofList (specLine d defarch) = spec := by
    rw [specLine, written, Option.getD_some, String.ofList_toList]
  have plainIff := Package.fromSpec_plain_iff (bare_valid valid) named rfl defarch written
  constructor
  · rintro ⟨st', read, done, added, same⟩
    obtain ⟨pkg₀, pkg₁, pkg₂, derivation, drvmap, category, parsed, arch, derived, withCtx, rfl⟩ :=
      readSpec_ok done
    obtain rfl := List.singleton_inj.mp (List.append_cancel_left added)
    obtain ⟨name₁, version₁, release₁, flags₁, -, pfx₁, arch₁⟩ := withArch_ok arch
    obtain rfl := withContext_ok withCtx
    obtain ⟨name, version, release, archs, flags, -, pfx⟩ := same.spec
    rw [line] at parsed
    -- a line without a closing bracket has no context
    have noContext : pkg₀.context = none := by
      apply Option.eq_none_iff_forall_not_mem.mpr
      intro ctx member
      have closing := (Package.fromSpec_context parsed ctx member).1
      rw [← line, String.toList_ofList] at closing
      exact (specLine_free valid named defarch).2.2.2.2 closing
    have recovers : Recovers (bare d.pkg) pkg₀ defarch {} :=
      ⟨name₁.symm.trans name, version₁.symm.trans version, by rw [← release₁]; exact release,
        arch₁.symm.trans archs, by rw [← flags₁]; exact flags, by rw [noContext]; rfl,
        pfx₁.symm.trans pfx⟩
    refine ⟨⟨plainIff.mp ⟨pkg₀, parsed, recovers⟩, ?_⟩, drvmap, ?_⟩
    · exact (archGiven_iff recovers).mp (withArch_isOk.mp ⟨pkg₁, arch⟩)
    · rw [← same.derivation]
      exact derived
  · rintro ⟨⟨hyphens, given⟩, drvmap, derived⟩
    obtain ⟨pkg₀, parsed, recovers⟩ := plainIff.mpr hyphens
    obtain ⟨pkg₁, arch⟩ := withArch_isOk.mpr ((archGiven_iff recovers).mpr given)
    -- the context carried over is that of the package, and so valid
    have valid_ : isEmpty st.metaContext = false →
        Package.validContext signedChar (st.metaContext.getD "") = true := by
      intro some_
      rw [context]
      cases there : d.pkg.context with
      | none =>
        rw [there] at context
        rw [(isEmpty_iff _).mpr context] at some_
        cases some_
      | some c => exact (valid.context c (by simp [there])).1
    obtain ⟨pkg₂, withCtx⟩ := withContext_isOk valid_ pkg₁
    rw [← line] at parsed
    obtain ⟨st', done⟩ := readSpec_of parsed arch derived withCtx plain
    obtain ⟨pkg₀', pkg₁', pkg₂', derivation, drvmap', category, parsed', arch', derived', withCtx', rfl⟩ :=
      readSpec_ok done
    obtain rfl := Except.ok.inj (parsed.symm.trans parsed')
    obtain rfl := Except.ok.inj (arch.symm.trans arch')
    obtain rfl := Except.ok.inj (withCtx.symm.trans withCtx')
    obtain ⟨rfl, rfl⟩ := Prod.mk.inj (Except.ok.inj (derived.symm.trans derived'))
    refine ⟨_, _, done, rfl, ⟨?_, rfl⟩⟩
    obtain ⟨name₁, version₁, release₁, flags₁, context₁, pfx₁, arch₁⟩ := withArch_ok arch
    obtain rfl := withContext_ok withCtx
    refine ⟨name₁.trans recovers.name, version₁.trans recovers.version, ?_,
      arch₁.trans recovers.arch, ?_, ?_, pfx₁.trans recovers.pfx⟩
    · exact (congrArg (·.getD "") release₁).trans recovers.release
    · exact (congrArg (·.getD "") flags₁).trans recovers.flags
    -- the context carried over replaces the missing one
    · cases none_ : isEmpty st.metaContext with
      | false => exact context
      | true =>
        rw [isEmpty_iff, context] at none_
        simp only [if_true]
        rw [context₁, recovers.context, none_]
        rfl

end Entry

end Lcfg.PkgContainer
