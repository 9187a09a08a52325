import LcfgCore.Packages.Cpp

/-!
# Line markers of the preprocessor

What `lcfgutils_parse_cpp_derivation` does with the file, the line number and the flags which
its caller keeps from line to line (`utils/utils.c`).

## Main results

* `parseMarker_eq`: the file and the entry flag are those which the reader of packages uses.
* `marker_tracked_iff`: a line is tracked if and only if its name is not a shorter front of the
  name which is kept, and its numbers fit.
-/
namespace Lcfg.PkgContainer

/-- What the caller keeps. -/
structure CppPosition where
  file : Option String := none
  linenum : Nat := 0
  flags : Nat := 0
deriving DecidableEq

/-- `LCFGCppFlag`: the bit for a number in the list of flags. -/
def cppFlag : Nat → Nat
  | 1 => 1
  | 2 => 2
  | 3 => 4
  | 4 => 8
  | _ => 0

/-- The loop over the flags, at most `fuel` times; each is cut to an `unsigned int`. -/
def readFlags : Nat → Nat → List Char → Nat
  | 0, newFlags, _ => newFlags
  | fuel + 1, newFlags, flagsStart =>
    match strtoul0 flagsStart with
    | none => newFlags
    | some (flag, rest) =>
      if flag % 2 ^ 32 = 0 then newFlags
      else readFlags fuel (newFlags ||| cppFlag (flag % 2 ^ 32)) rest

/-- The flags behind the last quote. -/
def newFlags : List Char → Nat
  | ' ' :: flagsStart =>
    if flagsStart.head?.any Char.isDigit then readFlags (flagsStart.length + 1) 0 flagsStart else 0
  | _ => 0

/-- A new copy of the name is made when the old file does not begin with it. -/
def updateFile (file : Option String) (name : List Char) : Option String :=
  if isEmpty file || !name.isPrefixOf (file.getD "").toList then some (String.ofList name) else file

/-- `lcfgutils_parse_cpp_derivation` -/
def parseMarker (line : List Char) (position : CppPosition) : CppPosition × Bool :=
  match line with
  | '#' :: ' ' :: number =>
    if !(number.head?.any Char.isDigit) then (position, false)
    else
      match strtoul0 number with
      | some (newLinenum, ' ' :: '"' :: rest) =>
        if !rest.contains '"' then (position, false)
        else
          ({ file := updateFile position.file (rest.rdropWhile (· != '"')).dropLast
             linenum := newLinenum % 2 ^ 32
             flags := newFlags (rest.rtakeWhile (· != '"')) }, true)
      | _ => (position, false)
  | _ => (position, false)

/-! ## What a marker is -/

/-- A text which is a number as a whole. -/
def IsNumber (num : List Char) (n : Nat) : Prop :=
  num.head?.any Char.isDigit = true ∧ strtoul0 num = some (n, [])

/-- A line marker: a number, a name in quotes up to the last one, and what follows. -/
def Marker (line : List Char) (n : Nat) (name back : List Char) : Prop :=
  ∃ num, line = '#' :: ' ' :: (num ++ ' ' :: '"' :: (name ++ '"' :: back)) ∧ IsNumber num n ∧
    '"' ∉ back

/-- All the numbers at the beginning of a text, at most `fuel` of them. -/
def numbers : Nat → List Char → List Nat
  | 0, _ => []
  | fuel + 1, text =>
    match strtoul0 text with
    | none => []
    | some (n, rest) => n :: numbers fuel rest

/-- The list of flags behind a name. -/
def markerFlags : List Char → List Nat
  | ' ' :: list => if list.head?.any Char.isDigit then numbers (list.length + 1) list else []
  | _ => []

/-- The union of the flags 1 to 4 in a list. -/
def flagsOf (flags : List Nat) : Nat := flags.foldl (fun flags flag => flags ||| cppFlag flag) 0

/-- The call returns true for the markers, with what they say, and changes nothing otherwise. -/
structure Tracked (line : List Char) (position : CppPosition) : Prop where
  accepts : (parseMarker line position).2 = true ↔ ∃ n name back, Marker line n name back
  tracks : ∀ n name back, Marker line n name back → (parseMarker line position).1 =
    { file := some (String.ofList name), linenum := n, flags := flagsOf (markerFlags back) }
  unchanged : (parseMarker line position).2 = false → (parseMarker line position).1 = position

/-- What is read from a list of flags: each number is cut, and zero ends the list. -/
def cutFlags (flags : List Nat) : List Nat := (flags.map (· % 2 ^ 32)).takeWhile (· ≠ 0)

/-! ## Reading a number -/

private theorem strtoulBase_other {s : List Char} (other : s.head? ≠ some '0') :
    strtoulBase s = (10, s) := by
  rw [strtoulBase]
  · rintro x c rest rfl
    exact other rfl
  · rintro rest rfl
    exact other rfl

private theorem strtoulBase_le (s : List Char) : (strtoulBase s).1 ≤ 16 := by
  unfold strtoulBase
  split
  · split
    · exact Nat.le_refl 16
    · exact (by decide : 8 ≤ 16)
  · exact (by decide : 8 ≤ 16)
  · exact (by decide : 10 ≤ 16)

/-- A blank is no part of what shows the base. -/
private theorem strtoulBase_append {num : List Char} (some_ : num ≠ []) (rest : List Char) :
    strtoulBase (num ++ ' ' :: rest) =
      ((strtoulBase num).1, (strtoulBase num).2 ++ ' ' :: rest) := by
  by_cases zero : num.head? = some '0'
  · obtain ⟨more, rfl⟩ := List.head?_eq_some_iff.mp zero
    match more with
    | [] =>
      cases rest with
      | nil => rfl
      | cons c rest => simp [strtoulBase]
    | [x] =>
      have blank : ¬ digitVal ' ' < 16 := by decide
      simp [strtoulBase, blank]
    | x :: c :: more =>
      simp only [List.cons_append, strtoulBase]
      split <;> rfl
  · have zero' : (num ++ ' ' :: rest).head? ≠ some '0' := by
      rwa [List.head?_append_of_ne_nil _ some_]
    rw [strtoulBase_other zero, strtoulBase_other zero']

/-- A blank ends a number. -/
theorem strtoul0_append_blank {num : List Char} (digit : num.head?.any Char.isDigit = true)
    (rest : List Char) :
    strtoul0 (num ++ ' ' :: rest) =
      (strtoul0 num).map fun read => (read.1, read.2 ++ ' ' :: rest) := by
  obtain ⟨c, more, rfl⟩ : ∃ c more, num = c :: more := by
    cases num with
    | nil => cases digit
    | cons c more => exact ⟨c, more, rfl⟩
  obtain ⟨space, minus, plus, -⟩ := isSpace_digit digit
  have unspaced (text : List Char) : (c :: text).dropWhile isSpace = c :: text :=
    List.dropWhile_cons_of_neg (by simp [space])
  have unsigned (text : List Char) : strtoulSign (c :: text) = (false, c :: text) := by
    rw [strtoulSign.eq_3 _ (by simp [minus]) (by simp [plus])]
  have base := strtoulBase_append (List.cons_ne_nil c more) rest
  have small := strtoulBase_le (c :: more)
  rw [List.cons_append] at base ⊢
  simp only [strtoul0, unspaced, unsigned, base]
  generalize strtoulBase (c :: more) = shown at small
  have stops : decide (digitVal ' ' < shown.1) = false := by
    have blank : digitVal ' ' = 36 := by decide
    rw [blank, decide_eq_false_iff_not]
    omega
  rw [Fields.takeWhile_append_cons (p := fun d => decide (digitVal d < shown.1)) stops,
    Fields.dropWhile_append_cons (p := fun d => decide (digitVal d < shown.1)) stops]
  split
  · rfl
  · split <;> rfl

/-! ## What a call does -/

section Call

variable {line name back : List Char} {n : Nat} {position : CppPosition}

theorem parseMarker_marker (marker : Marker line n name back) (position : CppPosition) :
    parseMarker line position =
      ({ file := updateFile position.file name, linenum := n % 2 ^ 32, flags := newFlags back },
        true) := by
  obtain ⟨num, rfl, ⟨digit, read⟩, free⟩ := marker
  have begins : (num ++ ' ' :: '"' :: (name ++ '"' :: back)).head?.any Char.isDigit = true := by
    cases num with
    | nil => cases digit
    | cons c more => exact digit
  have number : strtoul0 (num ++ ' ' :: '"' :: (name ++ '"' :: back)) =
      some (n, ' ' :: '"' :: (name ++ '"' :: back)) := by
    rw [strtoul0_append_blank digit, read]
    rfl
  have quoted : (name ++ '"' :: back).contains '"' = true := by simp
  have walked : ∀ c ∈ back, (c != '"') = true := fun c member => by
    rw [bne_iff_ne]
    rintro rfl
    exact free member
  have stops : ('"' != '"') = false := rfl
  have dropped : (name ++ '"' :: back).rdropWhile (· != '"') = name ++ ['"'] :=
    Fields.rdropWhile_cut walked stops
  have taken : (name ++ '"' :: back).rtakeWhile (· != '"') = back :=
    Fields.rtakeWhile_cut walked stops
  simp only [parseMarker, begins, number, quoted, Bool.not_true, Bool.false_eq_true, if_false]
  rw [dropped, taken, List.dropLast_concat]

/-- A line which is taken is a marker, and one which is not changes nothing. -/
theorem parseMarker_cases (line : List Char) (position : CppPosition) :
    (∃ n name back, Marker line n name back) ∨ parseMarker line position = (position, false) := by
  unfold parseMarker
  split
  case h_2 => exact .inr rfl
  case h_1 number =>
    split
    case isTrue => exact .inr rfl
    case isFalse begins =>
      split
      case h_2 => exact .inr rfl
      case h_1 n rest read =>
        split
        case isTrue => exact .inr rfl
        case isFalse quoted =>
          left
          rw [Bool.not_eq_true', Bool.not_eq_false] at begins quoted
          obtain ⟨⟨num, rfl⟩, shorter⟩ := strtoul0_rest read
          have quote : ∃ c ∈ rest, (c == '"') = true := ⟨'"', by simpa using quoted, rfl⟩
          obtain ⟨name, c, back, rfl, isQuote, free⟩ := Fields.exists_last_cut quote
          obtain rfl := beq_iff_eq.mp isQuote
          have digit : num.head?.any Char.isDigit = true := by
            cases num with
            | nil => cases Nat.lt_irrefl _ shorter
            | cons c more => exact begins
          refine ⟨n, name, back, num, rfl, ⟨digit, ?_⟩, ?_⟩
          · rw [strtoul0_append_blank digit] at read
            obtain ⟨⟨m, more⟩, whole, same⟩ := Option.map_eq_some_iff.mp read
            obtain ⟨rfl, nothing⟩ := Prod.mk.inj same
            have last : more = [] := List.append_left_eq_self.mp nothing
            rw [whole, last]
          · intro member
            exact absurd (free _ member) (by decide)

theorem accepts_iff (line : List Char) (position : CppPosition) :
    (parseMarker line position).2 = true ↔ ∃ n name back, Marker line n name back := by
  constructor
  · intro taken
    rcases parseMarker_cases line position with marker | refused
    · exact marker
    · rw [refused] at taken
      cases taken
  · rintro ⟨n, name, back, marker⟩
    rw [parseMarker_marker marker]

theorem readFlags_eq (fuel newFlags : Nat) (text : List Char) :
    readFlags fuel newFlags text = (cutFlags (numbers fuel text)).foldl
      (fun flags flag => flags ||| cppFlag flag) newFlags := by
  induction fuel generalizing newFlags text with
  | zero => rfl
  | succ fuel ih =>
    rw [readFlags, numbers]
    rcases strtoul0 text with _ | ⟨flag, rest⟩
    · rfl
    · dsimp only
      rw [cutFlags, List.map_cons, List.takeWhile_cons]
      by_cases zero : flag % 2 ^ 32 = 0
      · rw [if_pos zero, if_neg (by simpa using zero)]
        rfl
      · rw [if_neg zero, if_pos (by simpa using zero), ih]
        rfl

theorem newFlags_eq (back : List Char) : newFlags back = flagsOf (cutFlags (markerFlags back)) := by
  unfold newFlags markerFlags
  split
  case h_1 list =>
    split
    · exact readFlags_eq (list.length + 1) 0 list
    · rfl
  case h_2 => rfl

/-- The file which is kept does not begin with another, shorter name. -/
def Fresh (file : Option String) (name : List Char) : Prop :=
  ∀ old ∈ file, old = "" ∨ old.toList = name ∨ ¬ name <+: old.toList

theorem updateFile_iff (file : Option String) (name : List Char) :
    updateFile file name = some (String.ofList name) ↔ Fresh file name := by
  cases file with
  | none => exact ⟨fun _ => nofun, fun _ => rfl⟩
  | some old =>
    have fresh : Fresh (some old) name ↔ old = "" ∨ old.toList = name ∨ ¬ name <+: old.toList :=
      ⟨fun fresh => fresh old rfl, fun either _ same => Option.some.inj same ▸ either⟩
    rw [fresh, updateFile, ← List.isPrefixOf_iff_prefix, Option.getD_some]
    by_cases empty : old = ""
    · simp [isEmpty, empty]
    · cases starts : name.isPrefixOf old.toList with
      | false => simp [isEmpty, empty]
      | true =>
        have kept : updateFile (some old) name = some old := by
          simp [updateFile, isEmpty, empty, starts]
        rw [updateFile, Option.getD_some, starts] at kept
        rw [kept]
        constructor
        · intro same
          obtain rfl := Option.some.inj same
          exact .inr (.inl String.toList_ofList)
        · rintro (nothing | rfl | other)
          · exact absurd nothing empty
          · rw [String.ofList_toList]
          · exact absurd rfl other

/-- A marker is read as it is if its number fits, its list of flags means the same when it is
cut, and its name is not a shorter front of the name which is kept. -/
def Readable (file : Option String) (n : Nat) (name back : List Char) : Prop :=
  n < 2 ^ 32 ∧ flagsOf (cutFlags (markerFlags back)) = flagsOf (markerFlags back) ∧
    Fresh file name

theorem tracks_iff (marker : Marker line n name back) (position : CppPosition) :
    (parseMarker line position).1 =
        { file := some (String.ofList name), linenum := n, flags := flagsOf (markerFlags back) } ↔
      Readable position.file n name back := by
  have small : n % 2 ^ 32 = n ↔ n < 2 ^ 32 := Nat.mod_eq_iff_lt (by decide)
  rw [parseMarker_marker marker, CppPosition.mk.injEq, updateFile_iff, small, newFlags_eq, Readable]
  constructor
  · rintro ⟨fresh, fits, flags⟩
    exact ⟨fits, flags, fresh⟩
  · rintro ⟨fits, flags, fresh⟩
    exact ⟨fresh, fits, flags⟩

end Call

theorem marker_tracked_iff (line : List Char) (position : CppPosition) :
    Tracked line position ↔
      ∀ n name back, Marker line n name back → Readable position.file n name back := by
  constructor
  · intro tracked n name back marker
    exact (tracks_iff marker position).mp (tracked.tracks n name back marker)
  · intro readable
    refine ⟨accepts_iff line position, ?_, ?_⟩
    · intro n name back marker
      exact (tracks_iff marker position).mpr (readable n name back marker)
    · intro refused
      rcases parseMarker_cases line position with ⟨n, name, back, marker⟩ | same
      · rw [parseMarker_marker marker] at refused
        cases refused
      · rw [same]

/-- The name of a header, whose own name begins with it, is not taken. -/
theorem shorter_name_not_tracked :
    ¬ ∀ line position, Tracked line position := by
  intro tracked
  have marker : Marker "# 1 \"a.h\" 2".toList 1 "a.h".toList " 2".toList :=
    ⟨['1'], by decide, ⟨by decide, by decide⟩, by decide⟩
  have after := (tracked _ { file := some "a.h.in" }).tracks _ _ _ marker
  exact absurd after (by decide)

/-! ## The reader of packages -/

private theorem testBit_cppFlag (flag : Nat) : (cppFlag flag).testBit 0 = decide (flag = 1) := by
  match flag with
  | 0 | 1 | 2 | 3 | 4 => rfl
  | flag + 5 =>
    have large : ¬ flag + 5 = 1 := by omega
    rw [decide_eq_false large]
    exact Nat.zero_testBit 0

theorem testBit_readFlags (fuel newFlags : Nat) (text : List Char) :
    (readFlags fuel newFlags text).testBit 0 = (newFlags.testBit 0 || entryFlag fuel text) := by
  induction fuel generalizing newFlags text with
  | zero => exact (Bool.or_false _).symm
  | succ fuel ih =>
    rw [readFlags, entryFlag]
    rcases strtoul0 text with _ | ⟨flag, rest⟩
    · exact (Bool.or_false _).symm
    · dsimp only
      split
      · exact (Bool.or_false _).symm
      · rw [ih, Nat.testBit_or, testBit_cppFlag, Bool.or_assoc]

theorem testBit_newFlags (back : List Char) :
    (newFlags back).testBit 0 =
      match back with
      | ' ' :: digits => digits.head?.any Char.isDigit && entryFlag (digits.length + 1) digits
      | _ => false := by
  unfold newFlags
  split
  case h_1 list =>
    cases begins : list.head?.any Char.isDigit with
    | true =>
      rw [if_pos rfl, testBit_readFlags, Bool.true_and]
      rfl
    | false =>
      rw [if_neg Bool.false_ne_true, Bool.false_and]
      rfl
  case h_2 => rfl

/-- What the reader of packages makes of a call. -/
def told (call : CppPosition × Bool) : Option (String × Nat × Bool) :=
  if call.2 then some (call.1.file.getD "", call.1.linenum, call.1.flags.testBit 0) else none

/-- Without a quote behind the number, nothing changes. -/
private theorem parseMarker_unread {number : List Char} {position : CppPosition}
    (begins : ¬(!number.head?.any Char.isDigit) = true)
    (unread : ¬∃ n rest, strtoul0 number = some (n, ' ' :: '"' :: rest)) :
    parseMarker ('#' :: ' ' :: number) position = (position, false) := by
  rw [parseMarker, if_neg begins]
  split
  case h_1 n rest read => exact absurd ⟨n, rest, read⟩ unread
  case h_2 => rfl

/-- The reader of packages has the same file and number, and of the flags the first one. -/
theorem parseMarker_eq (line : List Char) (position : CppPosition) :
    parseCppDerivation line position.file = told (parseMarker line position) := by
  have updated (name : List Char) :
      (if isEmpty position.file || !name.isPrefixOf (position.file.getD "").toList then
        String.ofList name else position.file.getD "") = (updateFile position.file name).getD "" := by
    rw [updateFile]
    split <;> rfl
  unfold parseCppDerivation
  split
  case h_2 other =>
    unfold parseMarker
    split
    case h_1 number => exact absurd rfl (other number)
    case h_2 => rfl
  case h_1 number =>
    by_cases begins : (!number.head?.any Char.isDigit) = true
    · rw [parseMarker, if_pos begins, if_pos begins]
      rfl
    · rw [if_neg begins]
      by_cases read : ∃ n rest, strtoul0 number = some (n, ' ' :: '"' :: rest)
      · obtain ⟨linenum, rest, read⟩ := read
        rw [parseMarker, if_neg begins]
        simp only [read]
        by_cases quoted : (!rest.contains '"') = true
        · rw [if_pos quoted, if_pos quoted]
          rfl
        · rw [if_neg quoted, if_neg quoted, updated]
          have entry := (testBit_newFlags (rest.rtakeWhile (· != '"'))).symm
          exact congrArg (fun entry => some ((updateFile position.file
            (rest.rdropWhile (· != '"')).dropLast).getD "", linenum % 2 ^ 32, entry)) entry
      · rw [parseMarker_unread begins read]
        split
        case h_1 linenum rest found => exact absurd ⟨linenum, rest, found⟩ read
        case h_2 => rfl

end Lcfg.PkgContainer
