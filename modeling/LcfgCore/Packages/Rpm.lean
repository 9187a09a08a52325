import LcfgCore.Packages.SpecRoundTrip

/-!
# RPM filenames

A package as the name of an RPM file, `Name-Version-Release.Arch.rpm`
(`packages/rpm.c`). The reader looks for the separators from the end, with an
`unsigned int` where the length is a `size_t`.
-/
namespace Lcfg.Package

def rpmFileSuffix : String := ".rpm"

def invalidRpm (reason : String) : String := "Invalid RPM (" ++ reason ++ ")"

/-! ## Reading -/

/-- Looks for the separator before position `i`: its position, and what stands behind
it up to the offset. -/
def searchFrom (filename : List Char) (offset : Nat) (separator : Char) :
    Nat → Option (Nat × List Char)
  | 0 => none
  | i + 1 =>
    if filename[i]? = some separator then some (i, (filename.drop (i + 1)).take (offset - i))
    else searchFrom filename offset separator i

/-- The loop `for ( i=offset; i--; )`, where `i` is an `unsigned int`. -/
def searchBackwards (filename : List Char) (offset : Nat) (separator : Char) :
    Option (Nat × List Char) :=
  searchFrom filename offset separator (offset % 2 ^ 32)

/-- The next field ends before the separator found last. -/
def searchBefore (filename : List Char) (i : Nat) (separator : Char) : Option (Nat × List Char) :=
  if 0 < i then searchBackwards filename (i - 1) separator else none

/-- Sets the field which was found. -/
def setField (set : LCFGPackage → String → Option LCFGPackage) (missing bad : String)
    (pkg : LCFGPackage) (field : Option (Nat × List Char)) : Except String (LCFGPackage × Nat) :=
  match field with
  | none => .error (invalidRpm missing)
  | some (i, value) =>
    match set pkg (String.ofList value) with
    | some pkg => .ok (pkg, i)
    | none => .error (invalidRpm (bad ++ " '" ++ String.ofList value ++ "'"))

/-- What stands behind the last directory separator. -/
def basename (input : String) : List Char := input.toList.rtakeWhile (· != '/')

/-- The fields, from the end of the name of the file. -/
def rpmFields (filename : List Char) : Except String LCFGPackage := do
  let offset := filename.length - rpmFileSuffix.toList.length - 1
  let (pkg, i) ← setField setArch "failed to extract architecture" "bad package architecture" {}
    (searchBackwards filename offset '.')
  let (pkg, i) ← setField setRelease "failed to extract release" "bad release" pkg
    (searchBefore filename i '-')
  let (pkg, i) ← setField setVersion "failed to extract version" "bad version" pkg
    (searchBefore filename i '-')
  let (pkg, _) ← setField setName "failed to find name" "bad name" pkg
    (if 0 < i then some (0, filename.take i) else none)
  .ok pkg

/-- `lcfgpackage_from_rpm_filename` -/
def fromRpmFilename (input : Option String) : Except String LCFGPackage :=
  if isEmpty input then .error (invalidRpm "bad filename")
  else
    let filename := basename (input.getD "")
    if filename.length ≤ rpmFileSuffix.toList.length then .error (invalidRpm "bad filename")
    else if !rpmFileSuffix.toList.isSuffixOf filename then
      .error (invalidRpm ("lacks '" ++ rpmFileSuffix ++ "' suffix"))
    else rpmFields filename

/-! ## Writing -/

/-- The version without its epoch. -/
def withoutEpoch (version : String) : String :=
  if version.toList.contains ':' then String.ofList (version.toList.dropWhile (· != ':')).tail
  else version

/-- `lcfgpackage_to_rpm_filename`, on a machine with the given default architecture. -/
def toRpmFilename (defaultArchitecture : String) (pkg : LCFGPackage) (defarch : Option String)
    (options : LCFGOption) : Option String :=
  if !isValid pkg || !hasVersion pkg || !hasRelease pkg then none
  else
    let pkgarch := if hasArch pkg then pkg.arch.getD "" else defarch.getD defaultArchitecture
    some (pkg.name.getD "" ++ "-" ++ withoutEpoch (pkg.version.getD "") ++ "-" ++
      pkg.release.getD "" ++ "." ++ pkgarch ++ rpmFileSuffix ++ if options.newline then "\n" else "")

/-! ## The search -/

section Search

variable {filename before field rest : List Char} {offset i n : Nat} {separator : Char}

private theorem searchFrom_some (found : searchFrom filename offset separator n = some (i, field)) :
    i < n ∧ filename[i]? = some separator ∧ field = (filename.drop (i + 1)).take (offset - i) := by
  induction n with
  | zero => cases found
  | succ n ih =>
    rw [searchFrom] at found
    split at found
    case isTrue here =>
      obtain ⟨rfl, rfl⟩ := Prod.mk.inj (Option.some.inj found)
      exact ⟨Nat.lt_succ_self _, here, rfl⟩
    case isFalse =>
      obtain ⟨below, here, same⟩ := ih found
      exact ⟨Nat.lt_succ_of_lt below, here, same⟩

/-- What was found is cut off the front of the filename. -/
private theorem searchBackwards_some (found : searchBackwards filename offset separator = some (i, field))
    (inside : offset < filename.length) :
    filename.take (offset + 1) = filename.take i ++ separator :: field ∧
      (filename.take i).length = i ∧ i < offset % 2 ^ 32 ∧ offset = i + field.length := by
  obtain ⟨below, here, same⟩ := searchFrom_some found
  have le := Nat.mod_le offset (2 ^ 32)
  have position : i < filename.length := by omega
  have length : field.length = offset - i := by
    rw [same, List.length_take, List.length_drop]
    omega
  have at_ : filename[i] = separator := by
    rw [List.getElem?_eq_getElem position] at here
    exact Option.some.inj here
  refine ⟨?_, by rw [List.length_take]; omega, below, by omega⟩
  calc filename.take (offset + 1) = filename.take (i + (1 + (offset - i))) := by congr 1; omega
    _ = filename.take i ++ (filename.drop i).take (1 + (offset - i)) := List.take_add
    _ = filename.take i ++ separator :: field := by
      rw [List.drop_eq_getElem_cons position, at_, Nat.add_comm 1, List.take_succ_cons, same]

private theorem searchBefore_some {next : Nat}
    (found : searchBefore filename next separator = some (i, field)) (inside : next ≤ filename.length) :
    0 < next ∧ filename.take next = filename.take i ++ separator :: field ∧
      (filename.take i).length = i ∧ next = i + field.length + 1 := by
  rw [searchBefore] at found
  split at found
  case isTrue some_ =>
    obtain ⟨cut, position, -, ends⟩ := searchBackwards_some found (by omega)
    rw [Nat.sub_add_cancel some_] at cut
    exact ⟨some_, cut, position, by omega⟩
  case isFalse => cases found

/-- A separator is found if the search starts behind it. -/
private theorem searchBackwards_cut (free : separator ∉ field)
    (starts : before.length < (before.length + field.length) % 2 ^ 32) :
    searchBackwards (before ++ separator :: (field ++ rest)) (before.length + field.length) separator =
      some (before.length, field) := by
  have found : ∀ n, before.length < n → n ≤ before.length + field.length + 1 →
      searchFrom (before ++ separator :: (field ++ rest)) (before.length + field.length) separator n =
        some (before.length, field) := by
    intro n
    induction n with
    | zero =>
      intro behind
      omega
    | succ n ih =>
      intro behind inside
      rw [searchFrom]
      rcases Nat.eq_or_lt_of_le (Nat.le_of_lt_succ behind) with rfl | further
      · -- at the separator
        have here : (before ++ separator :: (field ++ rest))[before.length]? = some separator := by
          rw [List.getElem?_append_right (Nat.le_refl _), Nat.sub_self]
          rfl
        have value : ((before ++ separator :: (field ++ rest)).drop (before.length + 1)).take
            (before.length + field.length - before.length) = field := by
          rw [Nat.add_sub_cancel_left, ← List.drop_drop, List.drop_left, List.drop_one, List.tail_cons,
            List.take_left]
        rw [if_pos here, value]
      · -- within the field
        have here : (before ++ separator :: (field ++ rest))[n]? ≠ some separator := by
          obtain ⟨k, rfl⟩ : ∃ k, n = before.length + (k + 1) := ⟨n - before.length - 1, by omega⟩
          rw [List.getElem?_append_right (Nat.le_add_right _ _), Nat.add_sub_cancel_left,
            List.getElem?_cons_succ, List.getElem?_append_left (by omega)]
          exact fun same => free (List.mem_of_getElem? same)
        rw [if_neg here]
        exact ih further (by omega)
  apply found _ starts
  have le := Nat.mod_le (before.length + field.length) (2 ^ 32)
  omega

end Search

/-! ## What is accepted -/

private theorem setField_ok {set : LCFGPackage → String → Option LCFGPackage} {missing bad : String}
    {pkg read : LCFGPackage} {field : Option (Nat × List Char)} {i : Nat}
    (done : setField set missing bad pkg field = .ok (read, i)) :
    ∃ value, field = some (i, value) ∧ set pkg (String.ofList value) = some read := by
  unfold setField at done
  split at done
  · cases done
  · split at done
    case h_1 set_ =>
      obtain ⟨rfl, rfl⟩ := Prod.mk.inj (Except.ok.inj done)
      exact ⟨_, rfl, set_⟩
    · cases done

/-- The name of an RPM file. -/
def rpmName (name ver rel arch : List Char) : List Char :=
  name ++ '-' :: ver ++ '-' :: rel ++ '.' :: arch ++ rpmFileSuffix.toList

/-- Where the dot before the architecture stands. -/
def rpmDot (name ver rel : List Char) : Nat := name.length + ver.length + rel.length + 2

/-- What is accepted is made of four fields, and the first search has passed the dot. -/
theorem rpmFields_ok {filename : List Char} {read : LCFGPackage}
    (long : rpmFileSuffix.toList.length < filename.length)
    (suffix : rpmFileSuffix.toList <:+ filename) (done : rpmFields filename = .ok read) :
    ∃ name ver rel arch, filename = rpmName name ver rel arch ∧
      rpmDot name ver rel < (rpmDot name ver rel + arch.length) % 2 ^ 32 ∧
      read.name = some (String.ofList name) ∧ read.version = some (String.ofList ver) ∧
      read.release = some (String.ofList rel) ∧ read.arch = some (String.ofList arch) ∧
      validName (String.ofList name) = true ∧ validVersion (String.ofList ver) = true ∧
      validRelease (String.ofList rel) = true ∧ validArch (String.ofList arch) = true := by
  rw [rpmFields] at done
  obtain ⟨⟨pkg₁, i⟩, archSet, done⟩ := bind_ok done
  obtain ⟨⟨pkg₂, j⟩, relSet, done⟩ := bind_ok done
  obtain ⟨⟨pkg₃, k⟩, verSet, done⟩ := bind_ok done
  obtain ⟨⟨pkg₄, _⟩, nameSet, done⟩ := bind_ok done
  obtain rfl := Except.ok.inj done
  obtain ⟨arch, archFound, archSet⟩ := setField_ok archSet
  obtain ⟨rel, relFound, relSet⟩ := setField_ok relSet
  obtain ⟨ver, verFound, verSet⟩ := setField_ok verSet
  obtain ⟨name, nameFound, nameSet⟩ := setField_ok nameSet
  -- each search goes on before the separator of the one before it
  have offset : filename.length - rpmFileSuffix.toList.length - 1 < filename.length := by omega
  obtain ⟨archCut, archPos, archBelow, archEnd⟩ := searchBackwards_some archFound offset
  obtain ⟨archSome, relCut, relPos, relEnd⟩ := searchBefore_some relFound (by omega)
  obtain ⟨relSome, verCut, verPos, verEnd⟩ := searchBefore_some verFound (by omega)
  obtain rfl : filename.take k = name := by
    split at nameFound
    · exact (Prod.mk.inj (Option.some.inj nameFound)).2
    · cases nameFound
  refine ⟨filename.take k, ver, rel, arch, ?_, ?_, ?_⟩
  · obtain ⟨front, whole⟩ := suffix
    have length := congrArg List.length whole
    rw [List.length_append] at length
    have stem : filename.take (filename.length - rpmFileSuffix.toList.length - 1 + 1) = front := by
      have position : filename.length - rpmFileSuffix.toList.length - 1 + 1 = front.length := by
        omega
      rw [position, ← whole, List.take_left]
    rw [stem, relCut, verCut] at archCut
    calc filename = front ++ rpmFileSuffix.toList := whole.symm
      _ = rpmName (filename.take k) ver rel arch := by rw [archCut, rpmName]
  · rw [rpmDot, verPos]
    have same : k + ver.length + rel.length + 2 = i := by omega
    rw [same, ← archEnd]
    exact archBelow
  · simp only [setArch, setName, Option.dite_none_right_eq_some, Option.some.injEq] at archSet nameSet
    simp only [setVersion, setRelease, Option.ite_none_right_eq_some, Option.some.injEq] at verSet relSet
    obtain ⟨validArch_, rfl⟩ := archSet
    obtain ⟨validRelease_, rfl⟩ := relSet
    obtain ⟨validVersion_, rfl⟩ := verSet
    obtain ⟨validName_, rfl⟩ := nameSet
    exact ⟨rfl, rfl, rfl, rfl, validName_, validVersion_, validRelease_, validArch_⟩

theorem fromRpmFilename_ok {input : String} {read : LCFGPackage}
    (done : fromRpmFilename (some input) = .ok read) : rpmFields (basename input) = .ok read ∧
      rpmFileSuffix.toList.length < (basename input).length ∧
      rpmFileSuffix.toList <:+ basename input := by
  rw [fromRpmFilename, Option.getD_some] at done
  split at done
  · cases done
  · simp only at done
    split at done
    · cases done
    case isFalse long =>
      split at done
      · cases done
      case isFalse suffix =>
        rw [Bool.not_eq_true', Bool.not_eq_false, List.isSuffixOf_iff_suffix] at suffix
        exact ⟨done, Nat.lt_of_not_le long, suffix⟩

/-! ## What was written is accepted -/

section Written

variable {name ver rel arch : String}

private theorem setField_found {set : LCFGPackage → String → Option LCFGPackage}
    {missing bad value : String} {pkg read : LCFGPackage} {i : Nat}
    (set_ : set pkg value = some read) :
    setField set missing bad pkg (some (i, value.toList)) = .ok (read, i) := by
  simp only [setField, String.ofList_toList, set_]

/-- The searches for the hyphens are short ones. -/
private theorem searchBefore_cut {before field rest : List Char} (free : '-' ∉ field) (some_ : field ≠ [])
    (small : before.length + field.length < 2 ^ 32) :
    searchBefore (before ++ '-' :: (field ++ rest)) (before.length + field.length + 1) '-' =
      some (before.length, field) := by
  have pos := List.length_pos_iff.mpr some_
  rw [searchBefore, if_pos (Nat.succ_pos _), Nat.add_sub_cancel]
  apply searchBackwards_cut free
  rw [Nat.mod_eq_of_lt small]
  omega

theorem rpmFields_written (validName_ : validName name = true) (validVersion_ : validVersion ver = true)
    (validRelease_ : validRelease rel = true) (validArch_ : validArch arch = true)
    (plain : '-' ∉ ver.toList)
    (seen : rpmDot name.toList ver.toList rel.toList <
      (rpmDot name.toList ver.toList rel.toList + arch.toList.length) % 2 ^ 32) :
    rpmFields (rpmName name.toList ver.toList rel.toList arch.toList) =
      .ok { name := some name, version := some ver, release := some rel, arch := some arch
            name_valid := by simpa using validName_
            arch_valid := by simpa using validArch_ } := by
  have small : rpmDot name.toList ver.toList rel.toList < 2 ^ 32 :=
    seen.trans (Nat.mod_lt _ (by decide))
  unfold rpmDot at small seen
  have verNil : ver.toList ≠ [] := by
    intro nothing
    have empty : ver = "" := by simpa using nothing
    rw [empty] at validVersion_
    cases validVersion_
  have relNil : rel.toList ≠ [] := by
    intro nothing
    have empty : rel = "" := by simpa using nothing
    rw [empty] at validRelease_
    cases validRelease_
  have nameSome : 0 < name.toList.length := by
    apply List.length_pos_iff.mpr
    intro nothing
    have empty : name = "" := by simpa using nothing
    rw [empty] at validName_
    cases validName_
  have dot : '.' ∉ arch.toList := by
    intro member
    have word := validArch_chars validArch_ '.' member
    revert word
    decide
  -- the text before each of the separators, from the last one on
  have archLength : (name.toList ++ '-' :: ver.toList ++ '-' :: rel.toList).length =
      name.toList.length + ver.toList.length + rel.toList.length + 2 := by
    simp only [List.length_append, List.length_cons]
    omega
  have relLength : (name.toList ++ '-' :: ver.toList).length =
      name.toList.length + ver.toList.length + 1 := by
    simp only [List.length_append, List.length_cons]
    omega
  have archText : rpmName name.toList ver.toList rel.toList arch.toList =
      (name.toList ++ '-' :: ver.toList ++ '-' :: rel.toList) ++
        '.' :: (arch.toList ++ rpmFileSuffix.toList) := by
    simp [rpmName]
  have relText : rpmName name.toList ver.toList rel.toList arch.toList =
      (name.toList ++ '-' :: ver.toList) ++
        '-' :: (rel.toList ++ '.' :: (arch.toList ++ rpmFileSuffix.toList)) := by
    simp [rpmName]
  have verText : rpmName name.toList ver.toList rel.toList arch.toList = name.toList ++
      '-' :: (ver.toList ++ '-' :: (rel.toList ++ '.' :: (arch.toList ++ rpmFileSuffix.toList))) := by
    simp [rpmName]
  have first := @searchBackwards_cut (name.toList ++ '-' :: ver.toList ++ '-' :: rel.toList) arch.toList
    rpmFileSuffix.toList _ dot (by rwa [archLength])
  have second := @searchBefore_cut (name.toList ++ '-' :: ver.toList) _
    ('.' :: (arch.toList ++ rpmFileSuffix.toList)) (validRelease_hyphen validRelease_) relNil
    (by omega)
  have third := @searchBefore_cut name.toList _
    ('-' :: (rel.toList ++ '.' :: (arch.toList ++ rpmFileSuffix.toList))) plain verNil
    (by omega)
  have offset : (rpmName name.toList ver.toList rel.toList arch.toList).length -
      rpmFileSuffix.toList.length - 1 =
        (name.toList ++ '-' :: ver.toList ++ '-' :: rel.toList).length + arch.toList.length := by
    rw [archText]
    simp only [List.length_append, List.length_cons]
    omega
  have relEnd : (name.toList ++ '-' :: ver.toList ++ '-' :: rel.toList).length =
      (name.toList ++ '-' :: ver.toList).length + rel.toList.length + 1 := by
    omega
  have verEnd : (name.toList ++ '-' :: ver.toList).length =
      name.toList.length + ver.toList.length + 1 := relLength
  have front : (rpmName name.toList ver.toList rel.toList arch.toList).take name.toList.length =
      name.toList := by
    rw [verText, List.take_left]
  rw [← archText] at first
  rw [← relText, ← relEnd] at second
  rw [← verText, ← verEnd] at third
  rw [rpmFields]
  simp only [bind, Except.bind, offset, first, setField_found (setArch_valid validArch_)]
  simp only [second, setField_found (setRelease_valid validRelease_)]
  simp only [third, setField_found (setVersion_valid validVersion_)]
  simp only [if_pos nameSome, front, setField_found (setName_valid validName_)]

theorem toRpmFilename_fields (defaultArchitecture : String) (defarch : Option String)
    {pkg : LCFGPackage} (hasName_ : pkg.name = some name) (hasVer : pkg.version = some ver)
    (hasRel : pkg.release = some rel) (hasArch_ : pkg.arch = some arch)
    (some_ : name ≠ "" ∧ ver ≠ "" ∧ rel ≠ "" ∧ arch ≠ "") (noEpoch : ':' ∉ ver.toList) :
    toRpmFilename defaultArchitecture pkg defarch {} =
      some (String.ofList (rpmName name.toList ver.toList rel.toList arch.toList)) := by
  obtain ⟨someName, someVer, someRel, someArch⟩ := some_
  have complete : (!isValid pkg || !hasVersion pkg || !hasRelease pkg) = false := by
    simp [isValid, hasVersion, hasRelease, hasName_, hasVer, hasRel, isEmpty, someName, someVer,
      someRel]
  have own : hasArch pkg = true := by simp [hasArch, hasArch_, isEmpty, someArch]
  have whole : withoutEpoch ver = ver := if_neg (by simpa using noEpoch)
  simp only [toRpmFilename, complete, own, hasName_, hasVer, hasRel, hasArch_, Option.getD_some, whole,
    Bool.false_eq_true, if_false, if_true]
  apply congrArg some
  rw [← String.toList_inj, String.toList_ofList]
  simp [rpmName, String.toList_append]

/-- No directory separator is written. -/
theorem basename_rpmName (validName_ : validName name = true) (validVersion_ : validVersion ver = true)
    (validRelease_ : validRelease rel = true) (validArch_ : validArch arch = true) :
    basename (String.ofList (rpmName name.toList ver.toList rel.toList arch.toList)) =
      rpmName name.toList ver.toList rel.toList arch.toList := by
  rw [basename, String.toList_ofList, List.rtakeWhile_eq_self_iff]
  have notVer : isVerChar '/' = false := by decide
  have others : '/' ≠ '-' ∧ '/' ≠ '.' ∧ '/' ∉ rpmFileSuffix.toList := by decide
  have free : ∀ {value : String}, VerChars value.toList → '/' ∉ value.toList := by
    intro value ver member
    have is := ver '/' member
    rw [notVer] at is
    cases is
  intro c member
  rw [bne_iff_ne]
  rintro rfl
  simp only [rpmName, List.mem_append, List.mem_cons, others.1, others.2.1, others.2.2, false_or,
    or_false] at member
  rcases member with ((inName | inVer) | inRel) | inArch
  · exact free (validName_verChars validName_) inName
  · exact free (validVersion_verChars validVersion_) inVer
  · exact free (validRelease_verChars validRelease_) inRel
  · exact free (validArch_verChars validArch_) inArch

end Written

/-- The four fields which an RPM filename holds. -/
def SameRpm (pkg read : LCFGPackage) : Prop :=
  read.name = pkg.name ∧ read.version = pkg.version ∧ read.release = pkg.release ∧
    read.arch = pkg.arch

section Fields

variable {pkg : LCFGPackage} {name ver rel arch : String}

private theorem basename_suffix : rpmFileSuffix.toList.length <
      (rpmName name.toList ver.toList rel.toList arch.toList).length ∧
    rpmFileSuffix.toList <:+ rpmName name.toList ver.toList rel.toList arch.toList := by
  refine ⟨?_, ⟨_, rfl⟩⟩
  simp only [rpmName, List.length_append, List.length_cons]
  omega

/-- The fields are read back iff the search for the dot starts behind it. -/
private theorem fields_read (signedChar : Bool) (valid : Valid signedChar pkg)
    (hasName_ : pkg.name = some name) (hasVer : pkg.version = some ver)
    (hasRel : pkg.release = some rel) (hasArch_ : pkg.arch = some arch)
    (plain : '-' ∉ ver.toList) :
    (∃ read, fromRpmFilename (some (String.ofList
        (rpmName name.toList ver.toList rel.toList arch.toList))) = .ok read ∧ SameRpm pkg read) ↔
      rpmDot name.toList ver.toList rel.toList <
        (rpmDot name.toList ver.toList rel.toList + arch.toList.length) % 2 ^ 32 := by
  have validName_ := pkg.name_valid name hasName_
  have validVersion_ := valid.version ver hasVer
  have validRelease_ := valid.release rel hasRel
  have validArch_ := pkg.arch_valid arch hasArch_
  have base := basename_rpmName validName_ validVersion_ validRelease_ validArch_
  constructor
  -- what was read determines where the search saw the dot
  · rintro ⟨read, done, sameName, sameVer, sameRel, sameArch⟩
    obtain ⟨fields, long, suffix⟩ := fromRpmFilename_ok done
    obtain ⟨n, v, r, a, -, seen, readName, readVer, readRel, readArch, -⟩ :=
      rpmFields_ok long suffix fields
    rw [readName, hasName_] at sameName
    rw [readVer, hasVer] at sameVer
    rw [readRel, hasRel] at sameRel
    rw [readArch, hasArch_] at sameArch
    rw [← Option.some.inj sameName, ← Option.some.inj sameVer, ← Option.some.inj sameRel,
      ← Option.some.inj sameArch]
    simpa only [String.toList_ofList] using seen
  -- with the dot in sight all fields are read back
  · intro seen
    have read := rpmFields_written validName_ validVersion_ validRelease_ validArch_ plain seen
    have same : SameRpm pkg
        { name := some name, version := some ver, release := some rel, arch := some arch
          name_valid := by simpa using validName_
          arch_valid := by simpa using validArch_ } :=
      ⟨hasName_.symm, hasVer.symm, hasRel.symm, hasArch_.symm⟩
    refine ⟨_, ?_, same⟩
    have some_ : isEmpty (some (String.ofList
        (rpmName name.toList ver.toList rel.toList arch.toList))) = false := by
      simp [isEmpty, rpmName]
    obtain ⟨long, suffix⟩ := @basename_suffix name ver rel arch
    rw [fromRpmFilename, some_, Option.getD_some, base, if_neg Bool.false_ne_true,
      if_neg (Nat.not_le_of_lt long), List.isSuffixOf_iff_suffix.mpr suffix]
    exact read

private theorem written_read (defaultArchitecture : String) (signedChar : Bool)
    (valid : Valid signedChar pkg) (defarch : Option String) (hasName_ : pkg.name = some name)
    (hasVer : pkg.version = some ver) (hasRel : pkg.release = some rel)
    (hasArch_ : pkg.arch = some arch) (some_ : name ≠ "" ∧ ver ≠ "" ∧ rel ≠ "" ∧ arch ≠ "")
    (noHyphen : '-' ∉ ver.toList) (noEpoch : ':' ∉ ver.toList) :
    (∃ filename read, toRpmFilename defaultArchitecture pkg defarch {} = some filename ∧
        fromRpmFilename (some filename) = .ok read ∧ SameRpm pkg read) ↔
      rpmDot name.toList ver.toList rel.toList <
        (rpmDot name.toList ver.toList rel.toList + arch.toList.length) % 2 ^ 32 := by
  have written := toRpmFilename_fields defaultArchitecture defarch hasName_ hasVer hasRel hasArch_
    some_ noEpoch
  rw [← fields_read signedChar valid hasName_ hasVer hasRel hasArch_ noHyphen]
  simp only [written, Option.some.injEq, exists_and_left, exists_eq_left']

end Fields

/-- An RPM filename with more than 4 GiB is searched from the wrong place: what was
written is read back if and only if the first search starts behind the dot. All that
is accepted is written back as it was. -/
theorem fromRpmFilename_iff (defaultArchitecture : String) (signedChar : Bool) (pkg : LCFGPackage)
    (built : Built signedChar pkg) (defarch : Option String)
    (complete : hasName pkg = true ∧ hasVersion pkg = true ∧ hasRelease pkg = true ∧
      hasArch pkg = true)
    (plain : ∀ v ∈ pkg.version, '-' ∉ v.toList ∧ ':' ∉ v.toList) :
    ((∃ filename read, toRpmFilename defaultArchitecture pkg defarch {} = some filename ∧
        fromRpmFilename (some filename) = .ok read ∧ SameRpm pkg read) ↔
      rpmDot (pkg.name.getD "").toList (pkg.version.getD "").toList (pkg.release.getD "").toList <
        (rpmDot (pkg.name.getD "").toList (pkg.version.getD "").toList
          (pkg.release.getD "").toList + (pkg.arch.getD "").toList.length) % 2 ^ 32) ∧
    ∀ input read, fromRpmFilename (some input) = .ok read → ':' ∉ basename input →
      toRpmFilename defaultArchitecture read defarch {} = some (String.ofList (basename input)) := by
  constructor
  · have given : ∀ {value : Option String}, (!isEmpty value) = true → ∃ v, value = some v ∧ v ≠ "" := by
      intro value there
      cases value with
      | none => cases there
      | some v => exact ⟨v, rfl, by simpa [isEmpty] using there⟩
    obtain ⟨name, hasName_, someName⟩ := given complete.1
    obtain ⟨ver, hasVer, someVer⟩ := given complete.2.1
    obtain ⟨rel, hasRel, someRel⟩ := given complete.2.2.1
    obtain ⟨arch, hasArch_, someArch⟩ := given complete.2.2.2
    obtain ⟨noHyphen, noEpoch⟩ := plain ver hasVer
    rw [hasName_, hasVer, hasRel, hasArch_]
    exact written_read defaultArchitecture signedChar built.valid defarch hasName_ hasVer hasRel
      hasArch_ ⟨someName, someVer, someRel, someArch⟩ noHyphen noEpoch
  -- the four parts read are valid, and so not empty
  · intro input read done noColon
    obtain ⟨fields, long, suffix⟩ := fromRpmFilename_ok done
    obtain ⟨name, ver, rel, arch, whole, -, readName, readVer, readRel, readArch, validName_,
      validVersion_, validRelease_, validArch_⟩ := rpmFields_ok long suffix fields
    have some_ : String.ofList name ≠ "" ∧ String.ofList ver ≠ "" ∧ String.ofList rel ≠ "" ∧
        String.ofList arch ≠ "" := by
      refine ⟨?_, ?_, ?_, ?_⟩
      · intro empty
        rw [empty] at validName_
        cases validName_
      · intro empty
        rw [empty] at validVersion_
        cases validVersion_
      · intro empty
        rw [empty] at validRelease_
        cases validRelease_
      · intro empty
        rw [empty] at validArch_
        cases validArch_
    have noEpoch : ':' ∉ (String.ofList ver).toList := by
      rw [String.toList_ofList]
      intro member
      apply noColon
      rw [whole, rpmName]
      simp [member]
    rw [toRpmFilename_fields defaultArchitecture defarch readName readVer readRel readArch some_ noEpoch,
      whole]
    simp only [String.toList_ofList]

/-- A package with a short version. -/
theorem sample_rpm_read :
    ∃ pkg : LCFGPackage, pkg.name = some "foo-bar" ∧ pkg.version = some "1.0" ∧
      ∃ filename read, toRpmFilename "x86_64" pkg none {} = some filename ∧
        fromRpmFilename (some filename) = .ok read ∧ SameRpm pkg read := by
  have built : Built true
      { name := some "foo-bar", version := some "1.0", release := some "2.el7"
        arch := some "noarch"
        name_valid := by decide
        arch_valid := by decide } := by
    exact .arch "noarch" (.release "2.el7" (.version "1.0" (.name "foo-bar" .new rfl) rfl) rfl) rfl
  refine ⟨_, rfl, rfl, (fromRpmFilename_iff "x86_64" true _ built none ?_ ?_).1.mpr ?_⟩
  · decide
  · intro v member
    obtain rfl := Option.some.inj member
    decide
  · decide

private theorem long_version (n : Nat) :
    validVersion (String.ofList (List.replicate (n + 1) '1')) = true := by
  have one : isVerChar '1' = true := by decide
  rw [validVersion, String.toList_ofList, List.all_replicate, if_neg (Nat.succ_ne_zero n), one,
    Bool.and_true, bne_iff_ne, ne_eq, ← String.toList_inj, String.toList_ofList]
  simp [List.replicate_succ]

private theorem long_version_lost (n : Nat) (long : n + 1 = 2 ^ 32) :
    ∃ pkg : LCFGPackage, Built true pkg ∧ (hasName pkg = true ∧ hasVersion pkg = true ∧
        hasRelease pkg = true ∧ hasArch pkg = true) ∧
      (∀ v ∈ pkg.version, '-' ∉ v.toList ∧ ':' ∉ v.toList) ∧
      ¬ ∃ filename read, toRpmFilename "x86_64" pkg none {} = some filename ∧
        fromRpmFilename (some filename) = .ok read ∧ SameRpm pkg read := by
  have version := long_version n
  have length : (String.ofList (List.replicate (n + 1) '1')).toList.length = 2 ^ 32 := by
    rw [String.toList_ofList, List.length_replicate, long]
  -- the version is made of one digit only
  have plain : ∀ d, d ≠ '1' → d ∉ (String.ofList (List.replicate (n + 1) '1')).toList := by
    intro d other member
    rw [String.toList_ofList] at member
    exact other (List.eq_of_mem_replicate member)
  generalize String.ofList (List.replicate (n + 1) '1') = ver at version length plain
  have someVer : ver ≠ "" := by
    rintro rfl
    cases version
  let pkg : LCFGPackage :=
    { name := some "a", version := some ver, release := some "1", arch := some "x"
      name_valid := by decide
      arch_valid := by decide }
  have built : Built true pkg :=
    .arch "x" (.release "1" (.version ver (.name "a" .new rfl) (setVersion_valid version)) rfl) rfl
  have versioned : hasVersion pkg = true := by
    rw [hasVersion, Bool.not_eq_true', Bool.eq_false_iff, ne_eq, isEmpty_iff]
    exact someVer
  refine ⟨pkg, built, ⟨rfl, versioned, rfl, rfl⟩, ?_, ?_⟩
  · intro v member
    obtain rfl := Option.some.inj member
    exact ⟨plain '-' (by decide), plain ':' (by decide)⟩
  -- the dot lies where the counter has wrapped around
  · rw [written_read "x86_64" true built.valid none rfl rfl rfl rfl
      ⟨by decide, someVer, by decide, by decide⟩ (plain '-' (by decide)) (plain ':' (by decide)),
      rpmDot, length]
    decide

/-- A version of 4 GiB is written, but not read back. -/
theorem sample_rpm_lost :
    ∃ pkg : LCFGPackage, Built true pkg ∧ (hasName pkg = true ∧ hasVersion pkg = true ∧
        hasRelease pkg = true ∧ hasArch pkg = true) ∧
      (∀ v ∈ pkg.version, '-' ∉ v.toList ∧ ':' ∉ v.toList) ∧
      ¬ ∃ filename read, toRpmFilename "x86_64" pkg none {} = some filename ∧
        fromRpmFilename (some filename) = .ok read ∧ SameRpm pkg read :=
  long_version_lost (2 ^ 32 - 1) (by decide)

end Lcfg.Package
