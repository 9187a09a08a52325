import LcfgCore.Packages.SpecRoundTrip

/-!
# The two styles of specifications

What `lcfgpackage_from_spec` recovers of a package which `lcfgpackage_to_spec`
has written, in the modern style (`Name=Version-Release`) and in the legacy one
(`Name-Version-Release`, with the architecture before the name or behind the
release).
-/
namespace Lcfg.Package

/-! ## The written text -/

/-- The name, and the version with its release. -/
def nameVersion (separator : Char) (name ver : String) (rel : Option String) : List Char :=
  name.toList ++ separator :: (ver.toList ++ partChars ['-'] rel [])

/-- The architecture stands before the name for the older version 3 of the LCFG client. -/
def archFirst (pkg : LCFGPackage) (defarch : Option String) (options : LCFGOption) : Bool :=
  options.compat && !options.new && specArch pkg defarch != some "noarch"

private theorem prefix_toList (pkg : LCFGPackage) :
    (if hasPrefix pkg then String.singleton pkg.pfx.toChar else "").toList = prefixChars pkg.pfx := by
  by_cases nothing : pkg.pfx = .none
  · simp [hasPrefix, prefixChars, nothing]
  · simp [hasPrefix, prefixChars, nothing]

theorem toSpec_toList {pkg : LCFGPackage} {name : String} (named : pkg.name = some name)
    (someName : name ≠ "") (defarch : Option String) (options : LCFGOption) :
    ∃ spec, toSpec pkg defarch options = some spec ∧
      spec.toList = (if options.noPrefix then [] else prefixChars pkg.pfx) ++
        ((if archFirst pkg defarch options then partChars [] (specArch pkg defarch) ['/'] else []) ++
        (nameVersion (if options.new then '=' else '-') name (orDefault pkg.version wildcard)
          (specRelease pkg options) ++
        ((if archFirst pkg defarch options then [] else partChars ['/'] (specArch pkg defarch) []) ++
        (partChars [':'] pkg.flags [] ++
        ((if options.noContext then [] else partChars ['['] pkg.context [']']) ++
        if options.newline then ['\n'] else []))))) := by
  have valid : isValid pkg = true := by simp [isValid, named, isEmpty, someName]
  refine ⟨_, by rw [toSpec, if_pos valid], ?_⟩
  have front : (if !options.noPrefix && hasPrefix pkg then String.singleton pkg.pfx.toChar
      else "").toList = if options.noPrefix then [] else prefixChars pkg.pfx := by
    cases options.noPrefix
    · exact prefix_toList pkg
    · rfl
  have equals : (if options.new then "=" else "-").toList =
      [if options.new then '=' else '-'] := by
    cases options.new <;> rfl
  -- the parts in between are single characters
  have empty : "".toList = [] := rfl
  have slash : "/".toList = ['/'] := rfl
  have hyphen : "-".toList = ['-'] := rfl
  have colon : ":".toList = [':'] := rfl
  have opens : "[".toList = ['['] := rfl
  have closes : "]".toList = [']'] := rfl
  have newline : "\n".toList = ['\n'] := rfl
  simp only [String.toList_append, front, equals, part_toList]
  simp only [apply_ite String.toList, part_toList, named, Option.getD_some, nameVersion,
    List.append_assoc, List.cons_append, List.nil_append, archFirst, empty, slash, hyphen, colon,
    opens, closes, newline]
  rfl

/-! ## What is recovered -/

/-- What was read is what was written: a missing version, and a missing release which
has to be written, are the wildcard, and a missing architecture is the default. -/
structure Recovers (pkg read : LCFGPackage) (defarch : Option String) (options : LCFGOption) :
    Prop where
  name : read.name = pkg.name
  version : read.version = some (orDefault pkg.version wildcard)
  release : read.release.getD "" = (specRelease pkg options).getD ""
  arch : orDefault read.arch (defarch.getD "") = orDefault pkg.arch (defarch.getD "")
  flags : read.flags.getD "" = pkg.flags.getD ""
  context : read.context.getD "" = pkg.context.getD ""
  pfx : read.pfx = pkg.pfx

section Written

variable {signedChar : Bool} {pkg : LCFGPackage} {defarch : Option String} {options : LCFGOption}

theorem present_of_ne {value : Option String} {v : String} (given : value = some v) (some_ : v ≠ "") :
    present value = some v := by
  simp [present, given, isEmpty, some_]

theorem specArch_valid (pkg : LCFGPackage) (defarch : Option String) :
    ∀ a ∈ present (specArch pkg defarch), validArch a = true := by
  intro a member
  obtain ⟨given, -⟩ := present_some member
  rw [specArch] at given
  split at given
  · exact pkg.arch_valid a given
  · cases given

/-- The architecture which is written is not the default. -/
theorem specArch_present {a : String} (written : present (specArch pkg defarch) = some a) :
    pkg.arch = some a ∧ a ≠ "" ∧ a ≠ defarch.getD "" := by
  obtain ⟨given, some_⟩ := present_some written
  rw [specArch] at given
  split at given
  case isFalse => cases given
  case isTrue differs =>
    refine ⟨given, some_, ?_⟩
    rw [Bool.and_eq_true, Bool.or_eq_true, isEmpty_iff, decide_eq_true_eq, given, Option.getD_some,
      ne_eq, strcmp_eq_zero] at differs
    rcases differs.2 with none_ | other
    · rwa [none_]
    · exact other

/-- The architecture which is not written is the default, or missing. -/
theorem specArch_absent (absent : present (specArch pkg defarch) = none) :
    orDefault pkg.arch (defarch.getD "") = defarch.getD "" := by
  have missing : ∀ arch, orDefault arch (defarch.getD "") =
      if arch.getD "" = "" then defarch.getD "" else arch.getD "" := by
    intro arch
    cases arch with
    | none => rfl
    | some a => by_cases empty : a = "" <;> simp [orDefault, empty]
  rw [missing]
  split
  · rfl
  case isFalse some_ =>
    by_contra other
    have differs : (hasArch pkg && (isEmpty defarch ||
        strcmp (pkg.arch.getD "") (defarch.getD "") ≠ 0)) = true := by
      rw [Bool.and_eq_true, Bool.or_eq_true, hasArch, Bool.not_eq_true', decide_eq_true_eq, ne_eq,
        strcmp_eq_zero]
      refine ⟨?_, .inr other⟩
      rw [Bool.eq_false_iff, ne_eq, isEmpty_iff]
      exact some_
    rw [specArch, if_pos differs, present, if_neg (by rwa [isEmpty_iff])] at absent
    rw [absent] at some_
    exact some_ rfl

theorem arch_recovered : orDefault (present (specArch pkg defarch)) (defarch.getD "") =
    orDefault pkg.arch (defarch.getD "") := by
  cases written : present (specArch pkg defarch) with
  | none => exact (specArch_absent written).symm
  | some a =>
    obtain ⟨given, -, -⟩ := specArch_present written
    rw [given]

theorem version_written (valid : Valid signedChar pkg) :
    validVersion (orDefault pkg.version wildcard) = true := by
  cases given : pkg.version with
  | none => decide
  | some v =>
    have ver := valid.version v (by simp [given])
    have some_ : v ≠ "" := by
      rintro rfl
      cases ver
    simpa [orDefault, some_] using ver

theorem release_written (valid : Valid signedChar pkg) (options : LCFGOption) :
    ∀ r ∈ specRelease pkg options, validRelease r = true := by
  intro r member
  rw [specRelease] at member
  split at member
  · cases member
    decide
  · exact valid.release r member

/-- Where there is no release the version has no colon. -/
theorem release_absent (absent : present (specRelease pkg options) = none) :
    ':' ∉ (orDefault pkg.version wildcard).toList ∧ options.new = true := by
  rw [specRelease] at absent
  split at absent
  · cases absent
  case isFalse kept =>
    have missing : isEmpty pkg.release = true := by
      rw [present] at absent
      split at absent
      · assumption
      case isFalse some_ =>
        rw [absent] at some_
        exact absurd rfl some_
    rw [missing, Bool.true_and, Bool.or_eq_true, not_or] at kept
    refine ⟨fun colon => kept.1 ?_, by simpa using kept.2⟩
    cases given : pkg.version with
    | none =>
      rw [given] at colon
      exact absurd colon (by decide)
    | some v =>
      by_cases empty : v = ""
      · rw [given, empty] at colon
        exact absurd colon (by decide)
      · have inside : ':' ∈ v.toList := by simpa [given, orDefault, empty] using colon
        simp [hasEpoch, given, isEmpty, empty, inside]

/-- No colon, slash or bracket stands behind the last hyphen, or the equals sign. -/
theorem nameVersion_ends (valid : Valid signedChar pkg) {name : String} {separator : Char}
    (separates : separator ∈ ['-', '=']) :
    EndsAt ['-', '='] [':', '/', ']']
      (nameVersion separator name (orDefault pkg.version wildcard) (specRelease pkg options)) := by
  have ver := validVersion_verChars (version_written valid)
  have notVer : ∀ x ∈ ['/', ']'], isVerChar x = false := Fields.of_all (by decide)
  have unspaced : ∀ c ∈ ['-', '='], isSpace c = false := Fields.of_all (by decide)
  cases there : present (specRelease pkg options) with
  -- without a release the last separator is the one before the version
  | none =>
    obtain ⟨noColon, -⟩ := release_absent there
    refine ⟨name.toList, separator, (orDefault pkg.version wildcard).toList, ?_, separates, ?_, ?_⟩
    · simp [nameVersion, partChars, there]
    · intro x member
      rcases List.mem_cons.mp member with rfl | other
      · exact noColon
      · intro inside
        have is := ver x inside
        rw [notVer x other] at is
        cases is
    · intro x member
      rcases List.mem_cons.mp member with rfl | inside
      · exact unspaced x separates
      · exact isSpace_of_verChar (ver x inside)
  | some r =>
    -- otherwise it is the hyphen before the release
    have rel := release_written valid options r (present_some there).1
    have relChars := validRelease_verChars rel
    refine ⟨name.toList ++ separator :: (orDefault pkg.version wildcard).toList, '-', r.toList, ?_,
      by simp, ?_, ?_⟩
    · simp [nameVersion, partChars, there]
    · intro x member inside
      have is : isRelChar x = true := by
        simp only [validRelease, Bool.and_eq_true, List.all_eq_true] at rel
        exact rel.2 x inside
      have notRel : ∀ x ∈ [':', '/', ']'], isRelChar x = false := Fields.of_all (by decide)
      rw [notRel x member] at is
      cases is
    · intro x member
      rcases List.mem_cons.mp member with rfl | inside
      · decide
      · exact isSpace_of_verChar (relChars x inside)

end Written

/-! ## Reading it -/

section Read

variable {signedChar : Bool} {pkg : LCFGPackage} {body : List Char} {spec name : String}

theorem name_word (valid : validName name = true) :
    ∃ c rest, name.toList = c :: rest ∧ isWord c = true := by
  unfold validName at valid
  cases chars : name.toList with
  | nil => simp [chars] at valid
  | cons c rest =>
    simp only [chars, Bool.and_eq_true] at valid
    exact ⟨c, rest, rfl, by rw [isWord, valid.1, Bool.true_or]⟩

private theorem fromSpec_prefixed (valid : Valid signedChar pkg)
    (written : spec.toList = prefixChars pkg.pfx ++ body)
    (word : ∃ c rest, body = c :: rest ∧ isWord c = true) :
    fromSpec signedChar (some spec) =
      parseParts signedChar { pfx := pkg.pfx } (walkForwardsUntil body '/' "-=".toList).2.1
        (walkForwardsUntil body '/' "-=".toList).2.2 := by
  rw [fromSpec, Option.getD_some, written, parsePrefix_part valid.pfx word]
  rfl

private theorem word_unspaced (word : ∃ c rest, body = c :: rest ∧ isWord c = true) :
    body.dropWhile isSpace = body := by
  obtain ⟨c, rest, rfl, is⟩ := word
  apply Fields.dropWhile_eq_self
  intro x first
  obtain rfl := Option.some.inj first
  apply isSpace_of_verChar
  rw [isWord, Bool.or_eq_true, beq_iff_eq] at is
  rcases is with alnum | rfl
  · rw [isVerChar, alnum, Bool.true_or]
  · decide

/-- The walk from the front stops at the hyphen or the equals sign behind the name. -/
theorem fromSpec_name (valid : Valid signedChar pkg) (validName_ : validName name = true)
    {separator : Char} (separates : separator ∈ ['-', '=']) {ver : String} {rel : Option String}
    {more : List Char}
    (written : spec.toList = prefixChars pkg.pfx ++ (nameVersion separator name ver rel ++ more)) :
    fromSpec signedChar (some spec) =
      parseParts signedChar { pfx := pkg.pfx } (nameVersion separator name ver rel ++ more) none := by
  obtain ⟨c, rest, chars, is⟩ := name_word validName_
  have word : ∃ c rest, nameVersion separator name ver rel ++ more = c :: rest ∧ isWord c = true :=
    ⟨c, _, by rw [nameVersion, chars, List.cons_append, List.cons_append], is⟩
  have starts : nameVersion separator name ver rel ++ more =
      name.toList ++ separator :: (ver.toList ++ partChars ['-'] rel [] ++ more) := by
    simp [nameVersion]
  have stops : ∀ d ∈ ['-', '='], d ∈ "-=".toList ∧ d ≠ '/' := Fields.of_all (by decide)
  have fresh : '/' ∉ name.toList := by
    intro member
    have ver := validName_verChars validName_ _ member
    revert ver
    decide
  have walk := walkForwards_stopped starts (stops separator separates).1
    (stops separator separates).2 fresh (word_unspaced word)
  rw [fromSpec_prefixed valid written word, walk]

/-- An architecture before the name is found first. -/
theorem fromSpec_archFirst (valid : Valid signedChar pkg) {arch : String}
    (validArch_ : validArch arch = true) (kept : '-' ∉ arch.toList) {more : List Char}
    (written : spec.toList = prefixChars pkg.pfx ++ (arch.toList ++ '/' :: more)) :
    fromSpec signedChar (some spec) =
      parseParts signedChar { pfx := pkg.pfx } more (some arch.toList) := by
  have chars := validArch_chars validArch_
  have verChars := validArch_verChars validArch_
  have notNil : arch.toList ≠ [] := by
    intro nothing
    have empty : arch = "" := by simpa using nothing
    rw [empty] at validArch_
    cases validArch_
  -- what follows the prefix is taken for a name or an architecture, and not for a prefix
  have word : ∃ c rest, arch.toList ++ '/' :: more = c :: rest ∧ isWord c = true := by
    obtain ⟨c, rest, same⟩ := List.exists_cons_of_ne_nil notNil
    have first := chars c (by simp [same])
    have notHyphen : c ≠ '-' := by
      rintro rfl
      exact kept (by simp [same])
    refine ⟨c, rest ++ '/' :: more, by rw [same, List.cons_append], ?_⟩
    simpa [notHyphen] using first
  -- the walk stops at the slash
  have walked : ∀ x ∈ arch.toList, x ≠ '/' ∧ x ∉ "-=".toList := by
    intro x member
    have ver := verChars x member
    have notVer : isVerChar '/' = false ∧ isVerChar '=' = false := by decide
    have listed : ∀ d ∈ "-=".toList, d = '-' ∨ d = '=' := Fields.of_all (by decide)
    refine ⟨?_, fun stop => ?_⟩
    · rintro rfl
      rw [notVer.1] at ver
      cases ver
    · rcases listed x stop with rfl | rfl
      · exact kept member
      · rw [notVer.2] at ver
        cases ver
  have walk := @walkForwards_cut _ more _ _ walked notNil fun x member =>
    isSpace_of_verChar (verChars x member)
  rw [fromSpec_prefixed valid written word, walk]

/-- Where the version may hold hyphens: behind an equals sign, when a release follows. -/
def HyphensKept (pkg : LCFGPackage) (options : LCFGOption) : Prop :=
  options.new = true ∧ present (specRelease pkg options) ≠ none ∨
    '-' ∉ (orDefault pkg.version wildcard).toList

theorem parseVersion_written (valid : Valid signedChar pkg) (validName_ : validName name = true)
    (options : LCFGOption) (hyphens : HyphensKept pkg options) {pkg₁ : LCFGPackage}
    (unset : pkg₁.release = none) (rest : List Char) {separator : Char}
    (style : separator = if options.new then '=' else '-') :
    parseVersion pkg₁
        (nameVersion separator name (orDefault pkg.version wildcard) (specRelease pkg options) ++ rest)
        (nameVersion separator name (orDefault pkg.version wildcard)
          (specRelease pkg options)).length =
      .ok { pkg₁ with
            version := some (orDefault pkg.version wildcard)
            release := present (specRelease pkg options)
            name := some name
            name_valid := by simpa using validName_ } := by
  have validVer := version_written valid
  have verChars := validVersion_verChars validVer
  have someVer : orDefault pkg.version wildcard ≠ "" := by
    intro empty
    rw [empty] at validVer
    cases validVer
  have validRel : ∀ r ∈ present (specRelease pkg options), validRelease r = true := fun r member =>
    release_written valid options r (present_some member).1
  have starts : nameVersion separator name (orDefault pkg.version wildcard)
      (specRelease pkg options) ++ rest = name.toList ++ separator ::
        ((orDefault pkg.version wildcard).toList ++ partChars ['-'] (specRelease pkg options) [] ++
          rest) := by
    simp [nameVersion]
  apply parseVersion_of_split starts _ validName_ validVer validRel unset
  cases new : options.new with
  -- the newer style cuts at the equals sign
  | true =>
    rw [style, new, if_pos rfl]
    apply splitVersion_modern name.toList rest _ verChars someVer validRel
    intro absent
    rcases hyphens with ⟨-, there⟩ | plain
    · exact absurd absent there
    · exact plain
  -- the older style cuts at the last two hyphens
  | false =>
    have plain : '-' ∉ (orDefault pkg.version wildcard).toList := by
      rcases hyphens with ⟨modern, -⟩ | plain
      · rw [new] at modern
        cases modern
      · exact plain
    cases there : present (specRelease pkg options) with
    | none =>
      have modern := (release_absent there).2
      rw [new] at modern
      cases modern
    | some r =>
      have rel := validRel r there
      have split := splitVersion_legacy rest (validName_verChars validName_) verChars
        (validRelease_verChars rel) someVer (present_some there).2 plain (validRelease_hyphen rel)
      have written : nameVersion '-' name (orDefault pkg.version wildcard)
          (specRelease pkg options) = name.toList ++ '-' :: (orDefault pkg.version wildcard).toList ++
            '-' :: r.toList := by
        simp [nameVersion, partChars, there]
      rw [style, new, if_neg Bool.false_ne_true, written]
      exact split

theorem isValid_name (named : isValid pkg = true) : ∃ name, pkg.name = some name ∧ name ≠ "" := by
  cases given : pkg.name with
  | none => simp [isValid, given, isEmpty] at named
  | some name =>
    refine ⟨name, rfl, ?_⟩
    rintro rfl
    simp [isValid, given, isEmpty] at named

/-- Whatever the style, the reader recovers the package, if the written architecture,
the context and the version keep what the reader looks for. -/
theorem fromSpec_recovers (valid : Valid signedChar pkg) (named : isValid pkg = true)
    (defarch : Option String) {options : LCFGOption} (withPrefix : options.noPrefix = false)
    (withContext : options.noContext = false)
    (archKept : ∀ a, present (specArch pkg defarch) = some a → '-' ∉ a.toList)
    (contextKept : ∀ c, present pkg.context = some c → ContextKept c)
    (hyphens : HyphensKept pkg options) :
    ∃ spec read, toSpec pkg defarch options = some spec ∧
      fromSpec signedChar (some spec) = .ok read ∧ Recovers pkg read defarch options := by
  obtain ⟨name, given, someName⟩ := isValid_name named
  have validName_ := pkg.name_valid name (by simp [given])
  obtain ⟨spec, written, chars⟩ := toSpec_toList given someName defarch options
  have separates : (if options.new then '=' else '-') ∈ ['-', '='] := by
    split <;> decide
  have ends := @nameVersion_ends signedChar pkg options valid name _ separates
  have blank : ∀ x ∈ (if options.newline then ['\n'] else []), isSpace x = true := by
    intro x member
    split at member
    · rw [List.mem_singleton.mp member]
      decide
    · cases member
  have archValid := specArch_valid pkg defarch
  rw [withPrefix, withContext, if_neg Bool.false_ne_true, if_neg Bool.false_ne_true] at chars
  -- the architecture comes first only if there is one to be written
  by_cases first : archFirst pkg defarch options = true ∧
      ∃ a, present (specArch pkg defarch) = some a
  · obtain ⟨first, a, there⟩ := first
    have before : partChars [] (specArch pkg defarch) ['/'] = a.toList ++ ['/'] := by
      simp [partChars, there]
    rw [if_pos first, if_pos first, before, List.append_assoc, List.singleton_append,
      List.nil_append] at chars
    have read := fromSpec_archFirst valid (archValid a there) (archKept a there) chars
    rw [parseParts_secondary valid (archValid a there) contextKept ends blank ⟨rfl, rfl⟩,
      parseVersion_written valid validName_ options hyphens rfl _ rfl] at read
    have arch := @arch_recovered pkg defarch
    rw [there] at arch
    exact ⟨spec, _, written, read, given.symm, rfl, present_getD _, arch, present_getD _,
      present_getD _, rfl⟩
  · have nothing : (if archFirst pkg defarch options then
        partChars [] (specArch pkg defarch) ['/'] else []) = [] := by
      split
      case isTrue compat =>
        have absent : present (specArch pkg defarch) = none := by
          by_contra there
          exact first ⟨compat, Option.ne_none_iff_exists'.mp there⟩
        simp [partChars, absent]
      case isFalse => rfl
    have behind : (if archFirst pkg defarch options then [] else
        partChars ['/'] (specArch pkg defarch) []) = partChars ['/'] (specArch pkg defarch) [] := by
      split
      case isTrue compat =>
        have absent : present (specArch pkg defarch) = none := by
          by_contra there
          exact first ⟨compat, Option.ne_none_iff_exists'.mp there⟩
        simp [partChars, absent]
      case isFalse => rfl
    rw [nothing, behind, List.nil_append] at chars
    have read := fromSpec_name valid validName_ separates chars
    rw [parseParts_written valid _ archValid archKept contextKept ends blank ⟨rfl, rfl, rfl⟩,
      parseVersion_written valid validName_ options hyphens rfl _ rfl] at read
    exact ⟨spec, _, written, read, given.symm, rfl, present_getD _, arch_recovered, present_getD _,
      present_getD _, rfl⟩

end Read

/-! ## What the steps of the reader leave alone -/

section Keeps

variable {signedChar : Bool} {pkg read : LCFGPackage} {start : List Char}

private theorem orInvalid_ok {set : Option LCFGPackage} {reason : String}
    (done : orInvalid set reason = .ok read) : set = some read := by
  cases set with
  | none => cases done
  | some pkg => exact congrArg some (Except.ok.inj done)

theorem parseFlags_keeps {len len' : Nat} (done : parseFlags pkg start len = .ok (read, len')) :
    read.context = pkg.context ∧ read.arch = pkg.arch ∧ read.version = pkg.version := by
  rw [parseFlags] at done
  split at done
  · obtain ⟨pkg', set_, done⟩ := bind_ok done
    obtain ⟨rfl, -⟩ := Prod.mk.inj (Except.ok.inj done)
    have given := orInvalid_ok set_
    rw [setFlags] at given
    split at given
    · cases given
      exact ⟨rfl, rfl, rfl⟩
    · cases given
  · cases done
    exact ⟨rfl, rfl, rfl⟩

theorem parseArch_keeps {len len' : Nat} {secondary : Option (List Char)}
    (done : parseArch pkg start len secondary = .ok (read, len')) :
    read.context = pkg.context ∧ read.version = pkg.version := by
  rw [parseArch] at done
  split at done
  split at done
  · obtain ⟨pkg', set_, done⟩ := bind_ok done
    obtain ⟨rfl, -⟩ := Prod.mk.inj (Except.ok.inj done)
    have given := orInvalid_ok set_
    rw [setArch] at given
    split at given
    · cases given
      exact ⟨rfl, rfl⟩
    · cases given
  · cases done
    exact ⟨rfl, rfl⟩

private theorem setPart_version {value : Option (List Char)}
    (done : setPart setVersion "version" value pkg = .ok read) :
    read.context = pkg.context ∧ read.arch = pkg.arch ∧
      (read.version = pkg.version ∨ read.version = some (String.ofList (value.getD []))) := by
  simp only [setPart] at done
  split at done
  · cases done
    exact ⟨rfl, rfl, .inl rfl⟩
  · have given := orInvalid_ok done
    rw [setVersion] at given
    split at given
    · cases given
      exact ⟨rfl, rfl, .inr rfl⟩
    · cases given

private theorem setPart_release {value : Option (List Char)}
    (done : setPart setRelease "release" value pkg = .ok read) :
    read.context = pkg.context ∧ read.arch = pkg.arch ∧ read.version = pkg.version := by
  simp only [setPart] at done
  split at done
  · cases done
    exact ⟨rfl, rfl, rfl⟩
  · have given := orInvalid_ok done
    rw [setRelease] at given
    split at given
    · cases given
      exact ⟨rfl, rfl, rfl⟩
    · cases given

theorem parseVersion_keeps {len : Nat} (done : parseVersion pkg start len = .ok read) :
    read.context = pkg.context ∧ read.arch = pkg.arch ∧
      ∃ ver rel len', splitVersion start len = .ok (ver, rel, len') ∧
        (read.version = pkg.version ∨ read.version = some (String.ofList (ver.getD []))) := by
  rw [parseVersion] at done
  obtain ⟨⟨ver, rel, len'⟩, split_, done⟩ := bind_ok done
  obtain ⟨pkg₁, version, done⟩ := bind_ok done
  obtain ⟨pkg₂, release, done⟩ := bind_ok done
  obtain ⟨context₁, arch₁, version₁⟩ := setPart_version version
  obtain ⟨context₂, arch₂, version₂⟩ := setPart_release release
  split at done
  · cases done
  · have given := orInvalid_ok done
    rw [setName] at given
    split at given
    · cases given
      refine ⟨context₂.trans context₁, arch₂.trans arch₁, ver, rel, len', split_, ?_⟩
      exact version₁.imp version₂.trans version₂.trans
    · cases given

theorem parseParts_context {secondary : Option (List Char)}
    (done : parseParts signedChar pkg start secondary = .ok read) :
    ∃ pkg₁ len, parseContext signedChar pkg start (start.rdropWhile isSpace).length =
      .ok (pkg₁, len) ∧ read.context = pkg₁.context := by
  rw [parseParts] at done
  obtain ⟨⟨pkg₁, len₁⟩, context, done⟩ := bind_ok done
  obtain ⟨⟨pkg₂, len₂⟩, flags, done⟩ := bind_ok done
  obtain ⟨⟨pkg₃, len₃⟩, arch, done⟩ := bind_ok done
  refine ⟨pkg₁, len₁, context, ?_⟩
  calc read.context = pkg₃.context := (parseVersion_keeps done).1
    _ = pkg₂.context := (parseArch_keeps arch).1
    _ = pkg₁.context := (parseFlags_keeps flags).1

private theorem walkForwards_suffix (start : List Char) (separator : Char) (stop : List Char) :
    (walkForwardsUntil start separator stop).2.1 <:+ start := by
  rw [walkForwardsUntil]
  have begins : start.dropWhile isSpace <:+ start := List.dropWhile_suffix isSpace
  split
  · exact List.suffix_refl start
  case h_2 c rest stopped =>
    split
    · have goes : c :: rest <:+ start.dropWhile isSpace := by
        rw [← stopped]
        exact List.dropWhile_suffix _
      exact ((List.suffix_cons c rest).trans goes).trans begins
    · exact List.suffix_refl start

private theorem walkBackwards_field {len len' : Nat} {separator : Char} {stop field : List Char} {found : Bool}
    (walk : walkBackwardsUntil start len separator stop = (found, len', some field)) :
    field ⊆ start := by
  rw [walkBackwardsUntil] at walk
  split at walk
  · obtain ⟨-, -, cut⟩ := Prod.mk.inj walk |>.imp id Prod.mk.inj
    split at cut
    · cases cut
    · cases cut
      intro c member
      apply List.take_subset _ start
      exact (List.rtakeWhile_suffix _ _).subset ((List.dropWhile_suffix isSpace).subset member)
  · cases walk

private theorem parsePrefix_keeps {rest : List Char} (done : parsePrefix start = .ok (pkg, rest)) :
    pkg.context = none ∧ rest <:+ start := by
  cases start with
  | nil => cases done
  | cons firstChar more =>
    rw [parsePrefix] at done
    split at done
    · cases done
      exact ⟨rfl, List.suffix_refl _⟩
    · obtain ⟨pkg', set_, done⟩ := bind_ok done
      cases done
      have given := orInvalid_ok set_
      rw [setPrefix] at given
      split at given
      · cases given
        exact ⟨rfl, List.suffix_cons _ _⟩
      · cases given

private theorem parseContext_keeps {len len' : Nat}
    (done : parseContext signedChar pkg start len = .ok (read, len')) :
    read.context = pkg.context ∨ 
      ']' ∈ start ∧ ∃ field, read.context = some (String.ofList field) ∧ field ⊆ start := by
  rw [parseContext] at done
  split at done
  case isTrue last =>
    have closing : ']' ∈ start := List.take_subset _ _ (List.mem_of_getLast? last)
    split at done
    case h_1 pkgContext walk =>
      obtain ⟨pkg', set_, done⟩ := bind_ok done
      cases done
      have given := orInvalid_ok set_
      rw [setContext] at given
      split at given
      · cases given
        exact .inr ⟨closing, _, rfl, walkBackwards_field walk⟩
      · cases given
    · cases done
      exact .inl rfl
    · cases done
      exact .inl rfl
  case isFalse =>
    cases done
    exact .inl rfl

/-- A context is a part of the text, and closed by a bracket. -/
theorem fromSpec_context {spec : String} (done : fromSpec signedChar (some spec) = .ok read) :
    ∀ ctx ∈ read.context, ']' ∈ spec.toList ∧ ctx.toList ⊆ spec.toList := by
  intro ctx member
  rw [fromSpec] at done
  obtain ⟨⟨pkg, start⟩, front, done⟩ := bind_ok done
  obtain ⟨none_, suffix_⟩ := parsePrefix_keeps front
  obtain ⟨pkg₁, len, context, same⟩ := parseParts_context done
  have inside : (walkForwardsUntil start '/' "-=".toList).2.1 ⊆ spec.toList :=
    (((walkForwards_suffix start '/' "-=".toList).trans suffix_).trans
      (List.dropWhile_suffix isSpace)).subset
  rcases parseContext_keeps context with kept | ⟨closing, field, read_, part_⟩
  · rw [same, kept, none_] at member
    cases member
  · rw [same, read_] at member
    cases member
    rw [String.toList_ofList]
    exact ⟨inside closing, fun c there => inside (part_ there)⟩

end Keeps

/-! ## The modern style -/

section Modern

variable {signedChar : Bool} {pkg read : LCFGPackage} {text : List Char}

/-- A context in which the reader finds another opening bracket, or blanks at an end,
is read as a shorter one. -/
private theorem context_kept {secondary : Option (List Char)} {c : String} (some_ : c ≠ "")
    (done : parseParts signedChar { pfx := pkg.pfx } (text ++ '[' :: c.toList ++ [']']) secondary =
      .ok read) (same : read.context.getD "" = c) : ContextKept c := by
  obtain ⟨pkg₁, len, context, kept⟩ := parseParts_context done
  obtain ⟨front, behind, bracket, fresh, walk⟩ := walk_bracket text c.toList [']']
  have trimmed : (text ++ '[' :: c.toList ++ [']']).rdropWhile isSpace =
      text ++ '[' :: c.toList ++ [']'] := by
    apply Fields.rdropWhile_eq_self
    intro x last
    rw [List.getLast?_concat] at last
    obtain rfl := Option.some.inj last
    decide
  have parsed := @parseContext_brackets signedChar { pfx := pkg.pfx } _ _ _ _ _ walk
  rw [List.append_nil] at parsed
  rw [trimmed, parsed] at context
  have length := congrArg List.length bracket
  simp only [List.length_append, List.length_cons] at length
  -- only a value of the full length is the context
  have whole : (behind.rdropWhile isSpace).dropWhile isSpace = c.toList := by
    by_cases nothing : behind.rdropWhile isSpace = []
    · rw [if_pos nothing, Option.elim_none] at context
      obtain ⟨rfl, -⟩ := Prod.mk.inj (Except.ok.inj context)
      rw [kept] at same
      exact absurd same.symm some_
    · rw [if_neg nothing, Option.elim_some, setContext] at context
      split at context
      · obtain ⟨rfl, -⟩ := Prod.mk.inj (Except.ok.inj context)
        rw [kept, Option.getD_some] at same
        rw [← same, String.toList_ofList]
      · cases context
  have back := (List.rdropWhile_prefix isSpace behind).length_le
  have forth := (List.dropWhile_suffix (l := behind.rdropWhile isSpace) isSpace).length_le
  rw [whole] at forth
  have backAll : behind.rdropWhile isSpace = behind :=
    (List.rdropWhile_prefix isSpace behind).eq_of_length (by omega)
  have forthAll : c.toList = behind := by
    rw [backAll] at whole forth
    rw [← whole]
    exact (List.dropWhile_suffix isSpace).eq_of_length (by rw [whole]; omega)
  refine ⟨forthAll ▸ fresh, ?_, ?_⟩
  · intro x first
    rw [backAll, ← forthAll] at whole
    cases chars : c.toList with
    | nil => simp [chars] at first
    | cons y rest =>
      rw [chars] at first whole
      obtain rfl := Option.some.inj first
      by_contra space
      have shorter := (List.dropWhile_suffix (l := rest) isSpace).length_le
      rw [List.dropWhile_cons_of_pos (by simpa using space)] at whole
      rw [whole, List.length_cons] at shorter
      omega
  · intro x last
    rw [← forthAll] at backAll
    have notNil : c.toList ≠ [] := by simpa using some_
    rw [List.getLast?_eq_some_getLast notNil] at last
    obtain rfl := Option.some.inj last
    exact Bool.eq_false_iff.mpr (List.rdropWhile_eq_self_iff.mp backAll notNil)

/-- An architecture with a hyphen is not found. -/
private theorem arch_kept {rest : List Char} {a : String} (validArch_ : validArch a = true)
    (hyphen : '-' ∈ a.toList) :
    parseArch pkg (text ++ '/' :: a.toList ++ rest) (text ++ '/' :: a.toList).length none =
      .ok (pkg, (text ++ '/' :: a.toList).length) := by
  have occurs : ∃ x ∈ a.toList, (x == '-') = true := ⟨'-', hyphen, rfl⟩
  obtain ⟨front, c, behind, same, is, -⟩ := Fields.exists_last_cut occurs
  obtain rfl := beq_iff_eq.mp is
  have ver := validArch_verChars validArch_
  have inside : ∀ x ∈ behind, x ∈ a.toList := by
    intro x member
    rw [same]
    simp [member]
  -- the walk for the slash meets the hyphen first
  have fresh : '/' ∉ behind := by
    intro member
    have is := ver _ (inside _ member)
    revert is
    decide
  have last : ∀ x ∈ ('-' :: behind).getLast?, isSpace x = false := by
    intro x final
    rcases List.mem_cons.mp (List.mem_of_getLast? final) with rfl | member
    · decide
    · exact isSpace_of_verChar (ver x (inside x member))
  have walk := @walkBackwards_stopped '/' _ "-=".toList
    (text ++ '/' :: front) behind rest (by decide) (by decide) fresh last
  have written : text ++ '/' :: a.toList = text ++ '/' :: front ++ '-' :: behind := by
    rw [same, List.append_assoc, List.cons_append]
  rw [parseArch, written, walk]
  rfl

/-- Without a release, what stands behind the last hyphen of the version is read as one. -/
private theorem hyphens_kept (valid : Valid signedChar pkg) {pkg₁ : LCFGPackage} {name : String}
    {options : LCFGOption} {rest : List Char} (unset : pkg₁.version = none)
    (done : parseVersion pkg₁
      (nameVersion '=' name (orDefault pkg.version wildcard) (specRelease pkg options) ++ rest)
      (nameVersion '=' name (orDefault pkg.version wildcard) (specRelease pkg options)).length =
        .ok read) (same : read.version = some (orDefault pkg.version wildcard))
    (absent : present (specRelease pkg options) = none) :
    '-' ∉ (orDefault pkg.version wildcard).toList := by
  intro hyphen
  have verChars := validVersion_verChars (version_written valid)
  have written : nameVersion '=' name (orDefault pkg.version wildcard) (specRelease pkg options) =
      name.toList ++ '=' :: (orDefault pkg.version wildcard).toList := by
    simp [nameVersion, partChars, absent]
  have walk := walk_equals name.toList rest verChars (List.ne_nil_of_mem hyphen)
  obtain ⟨-, -, ver, rel, len, split_, version⟩ := parseVersion_keeps done
  rw [written, splitVersion, walk] at split_
  simp only [List.contains_iff_mem.mpr hyphen, if_true] at split_
  obtain ⟨rfl, -⟩ := Prod.mk.inj (Except.ok.inj split_)
  rw [same, unset] at version
  rcases version with nothing | shorter
  · cases nothing
  · have chars := congrArg (fun v => (v.getD "").toList.length) shorter
    have cut := (List.rdropWhile_prefix (· != '-') (orDefault pkg.version wildcard).toList).length_le
    have pos := List.length_pos_of_mem hyphen
    simp only [Option.getD_some, String.toList_ofList, List.length_dropLast] at chars
    omega

/-- The release is written in the modern style only if there is one, or an epoch. -/
private theorem release_present (options : LCFGOption) (new : options.new = true) :
    present (specRelease pkg options) = none ↔ hasRelease pkg = false ∧ hasEpoch pkg = false := by
  rw [specRelease, hasRelease, new, Bool.not_true, Bool.or_false, Bool.not_eq_false']
  cases missing : isEmpty pkg.release with
  | false =>
    have there : pkg.release ≠ none := by
      intro none_
      rw [none_] at missing
      cases missing
    simp [present, missing, there]
  | true =>
    cases epoch : hasEpoch pkg with
    | false => simp [present, missing]
    | true =>
      simp only [Bool.and_self, if_true, Bool.true_eq_false, and_false, iff_false]
      decide

theorem hyphen_written :
    '-' ∉ (orDefault pkg.version wildcard).toList ↔ '-' ∉ (pkg.version.getD "").toList := by
  have plain : '-' ∉ wildcard.toList ∧ '-' ∉ "".toList := by decide
  cases given : pkg.version with
  | none => simp only [orDefault, Option.getD_none, plain.1, plain.2]
  | some v =>
    by_cases empty : v = ""
    · simp only [orDefault, empty, beq_self_eq_true, if_true, Option.getD_some, plain.1, plain.2]
    · simp [orDefault, empty]

/-- The text behind the prefix, in either style. -/
private def body (new : Bool) (pkg : LCFGPackage) (name : String) (defarch : Option String) :
    List Char :=
  nameVersion (if new then '=' else '-') name (orDefault pkg.version wildcard)
      (specRelease pkg { new := new }) ++
    (partChars ['/'] (specArch pkg defarch) [] ++
      (partChars [':'] pkg.flags [] ++ (partChars ['['] pkg.context [']'] ++ [])))

section Body

variable {new : Bool} {defarch : Option String} {name : String}

private theorem separates (new : Bool) : (if new then '=' else '-') ∈ ['-', '='] := by
  cases new <;> decide

private theorem fromSpec_body (valid : Valid signedChar pkg) {spec : String}
    (written : toSpec pkg defarch { new := new } = some spec) (given : pkg.name = some name)
    (someName : name ≠ "") :
    fromSpec signedChar (some spec) =
      parseParts signedChar { pfx := pkg.pfx } (body new pkg name defarch) none := by
  obtain ⟨spec', written', chars⟩ := toSpec_toList given someName defarch { new := new }
  obtain rfl := Option.some.inj (written.symm.trans written')
  have notFirst : archFirst pkg defarch { new := new } = false := rfl
  simp only [Bool.false_eq_true, if_false, notFirst, List.nil_append] at chars
  exact fromSpec_name valid (pkg.name_valid name (by simp [given])) (separates new) chars

/-- The context is read first .. -/
private theorem body_context
    (done : parseParts signedChar { pfx := pkg.pfx } (body new pkg name defarch) none = .ok read)
    (recovers : Recovers pkg read defarch { new := new }) :
    ∀ c, present pkg.context = some c → ContextKept c := by
  intro c there
  have text : body new pkg name defarch =
      nameVersion (if new then '=' else '-') name (orDefault pkg.version wildcard)
          (specRelease pkg { new := new }) ++
        partChars ['/'] (specArch pkg defarch) [] ++ partChars [':'] pkg.flags [] ++
          '[' :: c.toList ++ [']'] := by
    simp [body, partChars, there]
  rw [text] at done
  apply context_kept (present_some there).2 done
  rw [recovers.context, (present_some there).1, Option.getD_some]

/-- .. then the architecture .. -/
private theorem body_arch (valid : Valid signedChar pkg)
    (contextKept : ∀ c, present pkg.context = some c → ContextKept c)
    (done : parseParts signedChar { pfx := pkg.pfx } (body new pkg name defarch) none = .ok read)
    (recovers : Recovers pkg read defarch { new := new }) :
    ∀ a, present (specArch pkg defarch) = some a → '-' ∉ a.toList := by
  intro a there hyphen
  have archValid := specArch_valid pkg defarch
  have ends := @nameVersion_ends signedChar pkg { new := new } valid name _ (separates new)
  have parts := @parseParts_flags signedChar pkg { pfx := pkg.pfx } _ [] valid none
    contextKept (ends.arch archValid) (by simp) ⟨rfl, rfl⟩
  have same : partChars ['/'] (specArch pkg defarch) [] = '/' :: a.toList := by
    simp [partChars, there]
  rw [body, ← List.append_assoc, parts, same, arch_kept (archValid a there) hyphen] at done
  simp only [Except.bind] at done
  have missing := (parseVersion_keeps done).2.1
  have arch := recovers.arch
  obtain ⟨set_, some_, other⟩ := specArch_present there
  rw [missing, set_] at arch
  apply other
  simpa [orDefault, some_] using arch.symm

/-- .. and then the version. -/
private theorem body_version (valid : Valid signedChar pkg)
    (contextKept : ∀ c, present pkg.context = some c → ContextKept c)
    (archKept : ∀ a, present (specArch pkg defarch) = some a → '-' ∉ a.toList)
    (done : parseParts signedChar { pfx := pkg.pfx } (body true pkg name defarch) none = .ok read)
    (recovers : Recovers pkg read defarch { new := true }) :
    hasRelease pkg = true ∨ hasEpoch pkg = true ∨ '-' ∉ (pkg.version.getD "").toList := by
  by_contra neither
  simp only [not_or, Bool.not_eq_true] at neither
  obtain ⟨noRelease, noEpoch, hyphen⟩ := neither
  have absent := (release_present { new := true } rfl).mpr ⟨noRelease, noEpoch⟩
  have ends := @nameVersion_ends signedChar pkg { new := true } valid name '=' (by simp)
  rw [body, if_pos rfl, parseParts_written valid _ (specArch_valid pkg defarch) archKept contextKept
    ends (by simp) ⟨rfl, rfl, rfl⟩] at done
  exact hyphen (hyphen_written.mp (hyphens_kept valid rfl done recovers.version absent))

end Body

end Modern

/-- A modern specification is read back as the package if and only if the written
architecture has no hyphen, the context no opening bracket and no blanks at its ends,
and a version with a hyphen is followed by a release. -/
theorem fromSpec_modern_iff (signedChar : Bool) (pkg : LCFGPackage) (built : Built signedChar pkg)
    (defarch : Option String) :
    (∃ spec read, toSpec pkg defarch { new := true } = some spec ∧
        fromSpec signedChar (some spec) = .ok read ∧ Recovers pkg read defarch { new := true }) ↔
      isValid pkg = true ∧
      (∀ a ∈ specArch pkg defarch, '-' ∉ a.toList) ∧
      (∀ c ∈ pkg.context, ContextKept c) ∧
      (hasRelease pkg = true ∨ hasEpoch pkg = true ∨ '-' ∉ (pkg.version.getD "").toList) := by
  have valid := built.valid
  constructor
  · rintro ⟨spec, read, written, done, recovers⟩
    -- a package without a name has no specification
    have named : isValid pkg = true := by
      by_contra nameless
      rw [toSpec, if_neg nameless] at written
      cases written
    obtain ⟨name, given, someName⟩ := isValid_name named
    rw [fromSpec_body valid written given someName] at done
    -- context, architecture and version are read one after another, each from what the last has left
    have contextKept := body_context done recovers
    have archKept := body_arch valid contextKept done recovers
    refine ⟨named, ?_, ?_, body_version valid contextKept archKept done recovers⟩
    · intro a member
      by_cases empty : a = ""
      · rw [empty]
        exact List.not_mem_nil
      · exact archKept a (present_of_ne member empty)
    · intro c member
      by_cases empty : c = ""
      · rw [empty]
        exact ⟨List.not_mem_nil, by simp, by simp⟩
      · exact contextKept c (present_of_ne member empty)
  · rintro ⟨named, archKept, contextKept, hyphens⟩
    apply fromSpec_recovers valid named defarch rfl rfl
    · exact fun a there => archKept a (present_some there).1
    · exact fun c there => contextKept c (present_some there).1
    · rcases or_assoc.mpr hyphens with written | plain
      · refine .inl ⟨rfl, fun absent => ?_⟩
        obtain ⟨noRelease, noEpoch⟩ := (release_present { new := true } rfl).mp absent
        rw [noRelease, noEpoch] at written
        simp at written
      · exact .inr (hyphen_written.mpr plain)

/-- An epoch without a release, and a context. -/
theorem sample_modern_recovered :
    ∃ pkg : LCFGPackage, pkg.version = some "1:2-3" ∧ pkg.context = some "a & b" ∧
      ∃ spec read, toSpec pkg none { new := true } = some spec ∧
        fromSpec true (some spec) = .ok read ∧ Recovers pkg read none { new := true } := by
  have built : Built true
      { name := some "foo", version := some "1:2-3", context := some "a & b"
        name_valid := by decide } := by
    refine .context "a & b" (Fields.of_all (by decide)) (.version "1:2-3" (.name "foo" .new rfl) rfl) ?_
    decide
  refine ⟨_, rfl, rfl, (fromSpec_modern_iff true _ built none).mpr ?_⟩
  refine ⟨by decide, by simp [specArch, hasArch, isEmpty], ?_, .inr (.inl (by decide))⟩
  intro c member
  obtain rfl := Option.some.inj member
  exact ⟨by decide, by simp [isSpace], by simp [isSpace]⟩

/-- The architecture `foo-bar` is written behind the slash, but not read back. -/
theorem sample_arch_lost :
    ∃ pkg, Built true pkg ∧
      ¬ ∃ spec read, toSpec pkg none { new := true } = some spec ∧
        fromSpec true (some spec) = .ok read ∧ Recovers pkg read none { new := true } := by
  have built : Built true
      { name := some "foo", version := some "1", release := some "2", arch := some "foo-bar"
        name_valid := by decide
        arch_valid := by decide } := by
    refine .arch "foo-bar" (.release "2" (.version "1" (.name "foo" .new rfl) rfl) rfl) rfl
  refine ⟨_, built, fun recovered => ?_⟩
  obtain ⟨spec, read, written, done, -⟩ := recovered
  obtain rfl : spec = "foo=1-2/foo-bar" := by
    have same : some spec = some "foo=1-2/foo-bar" := written.symm.trans (by decide)
    exact Option.some.inj same
  have fails : (fromSpec true (some "foo=1-2/foo-bar")).toOption = none := by decide
  rw [done] at fails
  cases fails

/-! ## The legacy style -/

private theorem legacy_release {pkg read : LCFGPackage} {defarch : Option String}
    {options : LCFGOption} (legacy : options.new = false)
    (recovers : Recovers pkg read defarch options) :
    read.release = some (orDefault pkg.release wildcard) := by
  have release := recovers.release
  have written : specRelease pkg options = some (orDefault pkg.release wildcard) := by
    rw [specRelease, legacy, Bool.not_false, Bool.or_true, Bool.and_true]
    cases given : pkg.release with
    | none => rfl
    | some r => by_cases empty : r = "" <;> simp [isEmpty, orDefault, empty]
  have some_ : orDefault pkg.release wildcard ≠ "" := by
    cases pkg.release with
    | none => decide
    | some r =>
      by_cases empty : r = ""
      · rw [empty]
        decide
      · simp [orDefault, empty]
  rw [written, Option.getD_some] at release
  cases is : read.release with
  | none =>
    rw [is] at release
    exact absurd release.symm some_
  | some r =>
    rw [is, Option.getD_some] at release
    rw [release]

/-- A legacy specification is read back as the package, if its version and architecture
have no hyphen and its context has no brackets and no blanks at its ends. A missing
release is always written. -/
theorem fromSpec_legacy (signedChar : Bool) (pkg : LCFGPackage) (built : Built signedChar pkg)
    (named : isValid pkg = true) (defarch : Option String) (options : LCFGOption)
    (legacy : options.new = false) (withPrefix : options.noPrefix = false)
    (withContext : options.noContext = false)
    (version : ∀ v ∈ pkg.version, '-' ∉ v.toList) (arch : ∀ a ∈ pkg.arch, '-' ∉ a.toList)
    (context : ∀ c ∈ pkg.context, '[' ∉ c.toList ∧ ']' ∉ c.toList ∧
      (∀ x ∈ c.toList.head?, isSpace x = false) ∧ ∀ x ∈ c.toList.getLast?, isSpace x = false) :
    ∃ spec read, toSpec pkg defarch options = some spec ∧
      fromSpec signedChar (some spec) = .ok read ∧ Recovers pkg read defarch options ∧
      read.release = some (orDefault pkg.release wildcard) := by
  have archKept : ∀ a, present (specArch pkg defarch) = some a → '-' ∉ a.toList :=
    fun a there => arch a (specArch_present there).1
  have contextKept : ∀ c, present pkg.context = some c → ContextKept c := by
    intro c there
    obtain ⟨noOpening, -, first, last⟩ := context c (present_some there).1
    exact ⟨noOpening, first, last⟩
  have hyphens : HyphensKept pkg options := by
    apply Or.inr
    rw [hyphen_written]
    cases given : pkg.version with
    | none => exact List.not_mem_nil
    | some v => exact version v given
  obtain ⟨spec, read, written, done, recovers⟩ := fromSpec_recovers built.valid named defarch
    withPrefix withContext archKept contextKept hyphens
  exact ⟨spec, read, written, done, recovers, legacy_release legacy recovers⟩

/-- With the architecture before the name. -/
theorem sample_legacy_recovered :
    ∃ pkg : LCFGPackage, pkg.name = some "foo-bar" ∧ pkg.arch = some "i386" ∧
      ∃ spec read, toSpec pkg none { compat := true } = some spec ∧
        fromSpec true (some spec) = .ok read ∧ Recovers pkg read none { compat := true } ∧
        read.release = some (orDefault pkg.release wildcard) := by
  have built : Built true
      { name := some "foo-bar", version := some "1.0", arch := some "i386"
        context := some "a & b"
        name_valid := by decide
        arch_valid := by decide } := by
    refine .context "a & b" (Fields.of_all (by decide))
      (.arch "i386" (.version "1.0" (.name "foo-bar" .new rfl) rfl) rfl) ?_
    decide
  refine ⟨_, rfl, rfl, fromSpec_legacy true _ built (by decide) none { compat := true } rfl rfl
    rfl ?_ ?_ ?_⟩
  · intro v member
    obtain rfl := Option.some.inj member
    decide
  · intro a member
    obtain rfl := Option.some.inj member
    decide
  · intro c member
    obtain rfl := Option.some.inj member
    exact ⟨by decide, by simp, by simp [isSpace], by simp [isSpace]⟩

/-! ### Without a context -/

section Plain

variable {signedChar : Bool} {pkg read : LCFGPackage}

/-- The version is read from behind its last hyphen. -/
private theorem splitVersion_hyphen {name ver rel : String} (rest : List Char)
    (nameChars : VerChars name.toList) (version : VerChars ver.toList)
    (release : VerChars rel.toList) (someRelease : rel ≠ "") (hyphenRelease : '-' ∉ rel.toList)
    (hyphen : '-' ∈ ver.toList) {split : Option (List Char) × Option (List Char) × Nat}
    (done : splitVersion (name.toList ++ '-' :: ver.toList ++ '-' :: rel.toList ++ rest)
      (name.toList ++ '-' :: ver.toList ++ '-' :: rel.toList).length = .ok split) :
    (split.1.getD []).length < ver.toList.length := by
  have single : VerChars ['-'] := by
    intro c member
    rw [List.mem_singleton.mp member]
    decide
  have chars : VerChars (name.toList ++ '-' :: ver.toList ++ '-' :: rel.toList) := by
    have parts := ((nameChars.append (single.append version)).append (single.append release))
    simpa using parts
  have occurs : ∃ x ∈ ver.toList, (x == '-') = true := ⟨'-', hyphen, rfl⟩
  -- the second cut is at the last hyphen of the version itself
  obtain ⟨front, c, behind, same, is, free⟩ := Fields.exists_last_cut occurs
  obtain rfl := beq_iff_eq.mp is
  have relNil : rel.toList ≠ [] := by simpa using someRelease
  have equals : walkBackwardsUntil (name.toList ++ '-' :: ver.toList ++ '-' :: rel.toList ++ rest)
      (name.toList ++ '-' :: ver.toList ++ '-' :: rel.toList).length '=' [] =
      (false, (name.toList ++ '-' :: ver.toList ++ '-' :: rel.toList).length, none) := by
    apply walkBackwards_absent rest (by simp) _ chars.last
    have notVer : isVerChar '=' = false := by decide
    refine fun x member => ⟨?_, List.not_mem_nil⟩
    rintro rfl
    have is := chars _ member
    rw [notVer] at is
    cases is
  have first := @walkBackwards_cut '-' _ []
    (name.toList ++ '-' :: ver.toList) rel.toList [] rest
    (fun x member => ⟨fun same => hyphenRelease (same ▸ member), List.not_mem_nil⟩) (.inl rfl)
    (single.append release).last (by simp)
  have behindChars : VerChars behind := fun x member => version x (by rw [same]; simp [member])
  have second := @walkBackwards_cut '-' _ []
    (name.toList ++ '-' :: front) behind [] ('-' :: rel.toList ++ rest)
    (fun x member => ⟨by simpa using free x member, List.not_mem_nil⟩) (.inl rfl)
    (single.append behindChars).last (by simp)
  rw [if_pos rfl, if_neg relNil, release.unspaced, List.append_nil] at first
  rw [if_pos rfl, behindChars.unspaced, List.append_nil] at second
  have whole : name.toList ++ '-' :: front ++ '-' :: behind = name.toList ++ '-' :: ver.toList := by
    rw [same, List.append_assoc, List.cons_append]
  rw [whole, ← List.append_assoc] at second
  rw [splitVersion, equals] at done
  simp only [first, second] at done
  split at done
  · cases done
  -- the version read is what follows that hyphen
  case h_2 _ _ found =>
    cases done
    have field : some _ = _ := (congrArg (fun r : Bool × Nat × Option (List Char) => r.2.2) found).symm
    split at field
    · cases field
    · obtain rfl := Option.some.inj field
      rw [Option.getD_some, same, List.length_append, List.length_cons]
      omega

/-- A legacy specification without a context is read back as the package if and only
if the written architecture and the version have no hyphen. -/
theorem fromSpec_plain_iff (valid : Valid signedChar pkg) (named : isValid pkg = true)
    (noContext : pkg.context = none) (defarch : Option String) {spec : String}
    (written : toSpec pkg defarch {} = some spec) :
    (∃ read, fromSpec signedChar (some spec) = .ok read ∧ Recovers pkg read defarch {}) ↔
      (∀ a ∈ specArch pkg defarch, '-' ∉ a.toList) ∧ '-' ∉ (pkg.version.getD "").toList := by
  have contextKept : ∀ c, present pkg.context = some c → ContextKept c := by
    intro c there
    rw [noContext] at there
    cases there
  constructor
  · rintro ⟨read, done, recovers⟩
    obtain ⟨name, given, someName⟩ := isValid_name named
    have validName_ := pkg.name_valid name (by simp [given])
    have plain : toSpec pkg defarch { new := false } = some spec := written
    rw [fromSpec_body valid plain given someName] at done
    have archKept := body_arch valid contextKept done recovers
    refine ⟨fun a member => ?_, ?_⟩
    · by_cases empty : a = ""
      · rw [empty]
        exact List.not_mem_nil
      · exact archKept a (present_of_ne member empty)
    · rw [← hyphen_written]
      intro hyphen
      have ends := @nameVersion_ends signedChar pkg {} valid name _ (separates false)
      rw [body, parseParts_written valid _ (specArch_valid pkg defarch) archKept contextKept ends
        (by simp) ⟨rfl, rfl, rfl⟩] at done
      -- a legacy specification always has a release
      cases there : present (specRelease pkg {}) with
      | none => exact absurd (release_absent there).2 (by decide)
      | some r =>
        have rel := release_written valid {} r (present_some there).1
        have text : nameVersion (if false = true then '=' else '-') name
            (orDefault pkg.version wildcard) (specRelease pkg {}) =
              name.toList ++ '-' :: (orDefault pkg.version wildcard).toList ++ '-' :: r.toList := by
          simp [nameVersion, partChars, there]
        rw [text] at done
        obtain ⟨-, -, ver, rel', len, split_, version⟩ := parseVersion_keeps done
        have shorter := splitVersion_hyphen _ (validName_verChars validName_)
          (validVersion_verChars (version_written valid)) (validRelease_verChars rel)
          (present_some there).2 (validRelease_hyphen rel) hyphen split_
        rw [recovers.version] at version
        rcases version with nothing | same
        · cases nothing
        · rw [Option.some.inj same, String.toList_ofList] at shorter
          exact absurd shorter (Nat.lt_irrefl _)
  · rintro ⟨archKept, hyphen⟩
    obtain ⟨spec', read, written', done, recovers⟩ := @fromSpec_recovers signedChar pkg valid named
      defarch {} rfl rfl (fun a there => archKept a (present_some there).1) contextKept
      (.inr (hyphen_written.mpr hyphen))
    obtain rfl := Option.some.inj (written.symm.trans written')
    exact ⟨read, done, recovers⟩

end Plain

end Lcfg.Package
