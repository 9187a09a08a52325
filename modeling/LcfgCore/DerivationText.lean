import LcfgCore.Derivation
import LcfgCore.Library.Fields
import Mathlib.Data.List.Forall2
import Mathlib.Data.List.Sort

/-!
# Derivations as text

`file:line,line` for each file, with blanks between the files
(`common/derivation/derivation.c` and `list.c`).

## Main result

`DerivList.fromString_toString_iff`: which derivations are read back as they were
written.
-/
namespace Lcfg

/-! ## Numbers -/

def digitVal (c : Char) : Nat :=
  if c.isDigit then c.toNat - '0'.toNat
  else if 'a' ≤ c ∧ c ≤ 'z' then c.toNat - 'a'.toNat + 10
  else if 'A' ≤ c ∧ c ≤ 'Z' then c.toNat - 'A'.toNat + 10
  else 36

/-- The base which the front of a number shows, and its digits. -/
def strtoulBase (s : List Char) : Nat × List Char :=
  match s with
  | '0' :: x :: c :: rest =>
    -- without a digit behind it the 'x' is not part of the number
    if (x = 'x' ∨ x = 'X') ∧ digitVal c < 16 then (16, c :: rest) else (8, s)
  | '0' :: _ => (8, s)
  | _ => (10, s)

/-- A sign may stand before the number. -/
def strtoulSign (s : List Char) : Bool × List Char :=
  match s with
  | '-' :: rest => (true, rest)
  | '+' :: rest => (false, rest)
  | _ => (false, s)

/-- `strtoul` with base 0 and 64-bit results: the value and what follows the number,
or `none` when there is no number to convert. -/
def strtoul0 (s : List Char) : Option (Nat × List Char) :=
  let (negative, s) := strtoulSign (s.dropWhile isSpace)
  let (base, s) := strtoulBase s
  let digits := s.takeWhile fun c => digitVal c < base
  if digits = [] then none
  else
    let value := digits.foldl (fun n c => base * n + digitVal c) 0
    let rest := s.dropWhile fun c => digitVal c < base
    if 2 ^ 64 ≤ value then some (2 ^ 64 - 1, rest)
    else if negative then some ((2 ^ 64 - value) % 2 ^ 64, rest)
    else some (value, rest)

/-! ## One file -/

namespace Derivation

def sortLines (drv : LCFGDerivation) : LCFGDerivation :=
  { drv with lines := drv.lines.insertionSort (· ≤ ·) }

/-- `lcfgderivation_to_string` -/
def toString (drv : LCFGDerivation) : List Char :=
  (drv.file.getD "").toList ++
    if drv.lines = [] then [] else ':' :: [','].intercalate (drv.lines.map (Nat.toDigits 10))

/-- The line numbers, at most `fuel` of them. The results of `strtoul` are cut to an
`unsigned int`. -/
def parseLines : Nat → LCFGDerivation → List Char → Except String LCFGDerivation
  | 0, drv, _ => .ok drv
  | fuel + 1, drv, start =>
    if start = [] then .ok drv
    else
      match strtoul0 start with
      | none => .error ("Invalid derivation line number '" ++ String.ofList start ++ "'")
      | some (line, rest) =>
        parseLines fuel (mergeLine drv (line % 2 ^ 32)).1 (rest.dropWhile (· == ','))

/-- `lcfgderivation_from_string` -/
def fromString (input : List Char) : Except String LCFGDerivation :=
  let input := input.dropWhile isSpace
  if input = [] then .error "Invalid derivation string"
  else if input.contains ':' then
    let file := (input.rdropWhile (· != ':')).dropLast
    let start := (input.rtakeWhile (· != ':')).dropWhile (· == ',')
    (parseLines (start.length + 1) {} start).map fun drv =>
      { drv with file := some (String.ofList file) }
  else .ok { file := some (String.ofList input) }

end Derivation

/-! ## Lists of files -/

namespace DerivList

def isDelimiter (c : Char) : Bool := " \n\r\t".toList.contains c

/-- `lcfgderivlist_to_string` sorts the lines for good. -/
def sortLines (drvlist : LCFGDerivationList) : LCFGDerivationList :=
  drvlist.map fun drv => if Derivation.isValid drv then Derivation.sortLines drv else drv

/-- Derivations without a file are left out. -/
def toString (drvlist : LCFGDerivationList) : List Char :=
  [' '].intercalate (((sortLines drvlist).filter Derivation.isValid).map Derivation.toString)

def addToken (drvlist : LCFGDerivationList) (token : List Char) :
    Except String LCFGDerivationList :=
  match Derivation.fromString token with
  | .error parseMsg =>
    .error ("Failed to parse derivation '" ++ String.ofList token ++ "': " ++ parseMsg)
  | .ok drv =>
    match mergeDerivation drvlist drv with
    | (_, .error) => .error ("Failed to add derivation '" ++ String.ofList token ++ "' to list")
    | (drvlist, _) => .ok drvlist

/-- `lcfgderivlist_from_string` -/
def fromString (input : List Char) : Except String LCFGDerivationList :=
  let input := input.dropWhile isSpace
  if input = [] then .error "Invalid derivation string"
  else (Fields.tokens isDelimiter input).foldlM addToken []

end DerivList

/-! ## Reading a number back -/

section Numbers

theorem digitVal_of_isDigit {c : Char} (digit : c.isDigit = true) :
    digitVal c = c.toNat - '0'.toNat ∧ digitVal c < 10 := by
  have value : digitVal c = c.toNat - '0'.toNat := by rw [digitVal, if_pos digit]
  refine ⟨value, ?_⟩
  have range : 48 ≤ c.toNat ∧ c.toNat ≤ 57 := by
    simp only [Char.isDigit, Bool.and_eq_true, decide_eq_true_eq, UInt32.le_iff_toNat_le,
      ge_iff_le] at digit
    exact digit
  have zero : '0'.toNat = 48 := rfl
  omega

theorem foldl_digits (digits : List Char) (all : ∀ c ∈ digits, c.isDigit = true) (n : Nat) :
    digits.foldl (fun n c => 10 * n + digitVal c) n = Nat.ofDigitChars 10 digits n := by
  induction digits generalizing n with
  | nil => rfl
  | cons c rest ih =>
    rw [List.foldl_cons, Nat.ofDigitChars_cons, (digitVal_of_isDigit (all c List.mem_cons_self)).1]
    exact ih (fun d member => all d (List.mem_cons_of_mem c member)) _

private theorem digitChar_ne_zero {n : Nat} (small : n < 10) (pos : 0 < n) :
    Nat.digitChar n ≠ '0' := by
  intro same
  have value := Nat.toNat_digitChar_sub_48_of_lt_ten small
  rw [same] at value
  have zero : '0'.toNat - 48 = 0 := rfl
  omega

theorem toDigits_head {n : Nat} (pos : 0 < n) :
    ∃ c rest, Nat.toDigits 10 n = c :: rest ∧ c ≠ '0' := by
  induction n using Nat.base_induction 10 (by decide) with
  | single m small => exact ⟨_, _, Nat.toDigits_of_lt_base small, digitChar_ne_zero small pos⟩
  | digit m k small some_ ih =>
    obtain ⟨c, rest, digits, nonzero⟩ := ih some_
    refine ⟨c, rest ++ Nat.toDigits 10 k, ?_, nonzero⟩
    rw [← Nat.toDigits_append_toDigits (by decide) some_ small, digits, List.cons_append]

theorem isSpace_digit {c : Char} (digit : c.isDigit = true) :
    isSpace c = false ∧ c ≠ '-' ∧ c ≠ '+' ∧ c ≠ ',' := by
  have range : 48 ≤ c.toNat ∧ c.toNat ≤ 57 := by
    simp only [Char.isDigit, Bool.and_eq_true, decide_eq_true_eq, UInt32.le_iff_toNat_le,
      ge_iff_le] at digit
    exact digit
  have other : ∀ d : Char, d.toNat < 48 → c ≠ d := by
    rintro d small rfl
    omega
  refine ⟨?_, other '-' (by decide), other '+' (by decide), other ',' (by decide)⟩
  have blank := other ' ' (by decide)
  simp [isSpace, blank]
  omega

/-- A decimal number is read back up to a comma or the end. -/
theorem strtoul0_toDigits {line : Nat} (small : line < 2 ^ 32) {rest : List Char}
    (stops : ∀ c ∈ rest.head?, c = ',') : strtoul0 (Nat.toDigits 10 line ++ rest) = some (line, rest) := by
  have digits : ∀ c ∈ Nat.toDigits 10 line, c.isDigit = true := fun c member =>
    Nat.isDigit_of_mem_toDigits (by decide) (by decide) member
  -- the base is 8 for the number zero and 10 for all others
  obtain ⟨base, shows, within, value⟩ : ∃ base,
      strtoulBase (Nat.toDigits 10 line ++ rest) = (base, Nat.toDigits 10 line ++ rest) ∧
      (base ≤ 36 ∧ ∀ c ∈ Nat.toDigits 10 line, digitVal c < base) ∧
      (Nat.toDigits 10 line).foldl (fun n c => base * n + digitVal c) 0 = line := by
    rcases Nat.eq_zero_or_pos line with rfl | pos
    · refine ⟨8, ?_, ⟨by decide, Fields.of_all (by decide)⟩, by decide⟩
      rw [Nat.toDigits_zero, List.singleton_append]
      match rest, stops with
      | [], _ => rfl
      | [_], _ => rfl
      | x :: c :: more, stops =>
        have comma := stops x rfl
        subst comma
        simp [strtoulBase]
    · obtain ⟨c, more, same, nonzero⟩ := toDigits_head pos
      refine ⟨10, ?_, ⟨by decide, fun d member => (digitVal_of_isDigit (digits d member)).2⟩, ?_⟩
      · rw [same, List.cons_append, strtoulBase]
        · exact fun _ _ _ zero => nonzero (List.cons.inj zero).1
        · exact fun _ zero => nonzero (List.cons.inj zero).1
      · rw [foldl_digits _ digits, Nat.ofDigitChars_ten_toDigits]
  have walked : ∀ c ∈ Nat.toDigits 10 line, decide (digitVal c < base) = true := fun c member =>
    decide_eq_true (within.2 c member)
  have halts : rest.takeWhile (fun c => digitVal c < base) = [] ∧
      rest.dropWhile (fun c => digitVal c < base) = rest := by
    cases rest with
    | nil => exact ⟨rfl, rfl⟩
    | cons c more =>
      have comma : c = ',' := stops c rfl
      subst comma
      have stop : ¬ digitVal ',' < base := Nat.not_lt_of_le within.1
      exact ⟨List.takeWhile_cons_of_neg (by simpa using stop),
        List.dropWhile_cons_of_neg (by simpa using stop)⟩
  obtain ⟨c, more, same⟩ := List.exists_cons_of_ne_nil (Nat.toDigits_ne_nil (n := line) (b := 10))
  obtain ⟨space, minus, plus, -⟩ := isSpace_digit (digits c (by simp [same]))
  have begins : (Nat.toDigits 10 line ++ rest).dropWhile isSpace = Nat.toDigits 10 line ++ rest := by
    rw [same, List.cons_append, List.dropWhile_cons_of_neg (by simp [space])]
  have unsigned : strtoulSign (Nat.toDigits 10 line ++ rest) =
      (false, Nat.toDigits 10 line ++ rest) := by
    rw [same, List.cons_append, strtoulSign]
    · exact fun _ sign => minus (List.cons.inj sign).1
    · exact fun _ sign => plus (List.cons.inj sign).1
  have fits : ¬ 2 ^ 64 ≤ line := by omega
  unfold strtoul0
  simp only [begins, unsigned, shows, List.takeWhile_append_of_pos walked,
    List.dropWhile_append_of_pos walked, halts.1, halts.2, List.append_nil, value,
    if_neg Nat.toDigits_ne_nil, if_neg fits, Bool.false_eq_true, if_false]

private theorem strtoulBase_suffix (s : List Char) : (strtoulBase s).2 <:+ s := by
  unfold strtoulBase
  split
  case h_1 x c rest =>
    split
    · exact ⟨['0', x], rfl⟩
    · exact List.suffix_refl _
  · exact List.suffix_refl _
  · exact List.suffix_refl _

theorem strtoulSign_suffix (s : List Char) : (strtoulSign s).2 <:+ s := by
  unfold strtoulSign
  split
  · exact List.suffix_cons _ _
  · exact List.suffix_cons _ _
  · exact List.suffix_refl _

/-- A conversion consumes the number, and nothing behind it. -/
theorem strtoul0_rest {s rest : List Char} {line : Nat} (done : strtoul0 s = some (line, rest)) :
    rest <:+ s ∧ rest.length < s.length := by
  have number := ((strtoulBase_suffix _).trans (strtoulSign_suffix _)).trans
    (List.dropWhile_suffix (l := s) isSpace)
  simp only [strtoul0] at done
  generalize strtoulBase (strtoulSign (s.dropWhile isSpace)).2 = digits at number done
  split at done
  · cases done
  case isFalse some_ =>
    have same : rest = digits.2.dropWhile fun c => digitVal c < digits.1 := by
      split at done
      · exact (Prod.mk.inj (Option.some.inj done)).2.symm
      · split at done
        all_goals exact (Prod.mk.inj (Option.some.inj done)).2.symm
    have split_ := congrArg List.length
      (List.takeWhile_append_dropWhile (p := fun c => decide (digitVal c < digits.1)) (l := digits.2))
    have pos := List.length_pos_iff.mpr some_
    have short := number.length_le
    rw [List.length_append, ← same] at split_
    refine ⟨?_, by omega⟩
    rw [same]
    exact (List.dropWhile_suffix _).trans number

end Numbers

/-! ## Reading one derivation back -/

namespace Derivation

/-- The rounds of the loop are never exhausted. -/
theorem parseLines_fuel {n m : Nat} {drv : LCFGDerivation} {start : List Char}
    (enough : start.length < n) (also : start.length < m) :
    parseLines n drv start = parseLines m drv start := by
  induction n generalizing m drv start with
  | zero => omega
  | succ n ih =>
    cases m with
    | zero => omega
    | succ m =>
      rw [parseLines, parseLines]
      split
      · rfl
      · split
        · rfl
        case h_2 line rest converted =>
          have shorter := (strtoul0_rest converted).2
          have skipped := (List.dropWhile_suffix (l := rest) (· == ',')).length_le
          exact ih (by omega) (by omega)

/-- The text of line numbers. -/
def lineChars (lines : List Nat) : List Char := [','].intercalate (lines.map (Nat.toDigits 10))

theorem lineChars_cons (line next : Nat) (lines : List Nat) :
    lineChars (line :: next :: lines) = Nat.toDigits 10 line ++ ',' :: lineChars (next :: lines) := by
  simp [lineChars]

private theorem lineChars_chars (lines : List Nat) :
    ∀ c ∈ lineChars lines, c.isDigit = true ∨ c = ',' := by
  induction lines with
  | nil => simp [lineChars]
  | cons line lines ih =>
    have digits : ∀ c ∈ Nat.toDigits 10 line, c.isDigit = true := fun c member =>
      Nat.isDigit_of_mem_toDigits (by decide) (by decide) member
    intro c member
    cases lines with
    | nil => exact .inl (digits c (by simpa [lineChars] using member))
    | cons next lines =>
      rw [lineChars_cons, List.mem_append, List.mem_cons] at member
      rcases member with digit | rfl | later
      · exact .inl (digits c digit)
      · exact .inr rfl
      · exact ih c later

private theorem lineChars_head (line : Nat) (lines : List Nat) :
    ∃ c rest, lineChars (line :: lines) = c :: rest ∧ c.isDigit = true := by
  obtain ⟨c, rest, same⟩ := List.exists_cons_of_ne_nil (Nat.toDigits_ne_nil (n := line) (b := 10))
  have digit : c.isDigit = true :=
    Nat.isDigit_of_mem_toDigits (b := 10) (n := line) (by decide) (by decide) (by simp [same])
  cases lines with
  | nil => exact ⟨c, rest, by simp [lineChars, same], digit⟩
  | cons next lines => exact ⟨c, _, by rw [lineChars_cons, same, List.cons_append], digit⟩

theorem parseLines_lineChars {lines : List Nat} (small : ∀ line ∈ lines, line < 2 ^ 32) :
    ∀ {fuel : Nat} {drv : LCFGDerivation}, (lineChars lines).length < fuel →
      (drv.lines ++ lines).Nodup →
      parseLines fuel drv (lineChars lines) = .ok { drv with lines := drv.lines ++ lines } := by
  induction lines with
  | nil =>
    intro fuel drv enough _
    obtain ⟨fuel, rfl⟩ : ∃ n, fuel = n + 1 := ⟨fuel - 1, by omega⟩
    rw [parseLines, lineChars, List.map_nil, List.intercalate_nil, if_pos rfl, List.append_nil]
  | cons line lines ih =>
    intro fuel drv enough distinct
    obtain ⟨fuel, rfl⟩ : ∃ n, fuel = n + 1 := ⟨fuel - 1, by omega⟩
    have fits := small line List.mem_cons_self
    obtain ⟨c, more, same, -⟩ := lineChars_head line lines
    have new : hasLine drv line = false := by
      rw [hasLine, Bool.eq_false_iff, ne_eq, List.contains_iff_mem]
      intro old
      have parts := List.nodup_append.mp distinct
      exact parts.2.2 line old line List.mem_cons_self rfl
    have merged : (mergeLine drv (line % 2 ^ 32)).1 = { drv with lines := drv.lines ++ [line] } := by
      rw [Nat.mod_eq_of_lt fits, mergeLine, new, if_neg Bool.false_ne_true]
    have moved : ({ drv with lines := drv.lines ++ [line] } : LCFGDerivation).lines ++ lines =
        drv.lines ++ line :: lines := by simp
    -- what stands behind the first number
    obtain ⟨rest, text, stops, skipped, shorter⟩ : ∃ rest,
        lineChars (line :: lines) = Nat.toDigits 10 line ++ rest ∧ (∀ c ∈ rest.head?, c = ',') ∧
        rest.dropWhile (· == ',') = lineChars lines ∧ (lineChars lines).length < fuel := by
      cases lines with
      | nil =>
        refine ⟨[], by simp [lineChars], by simp, rfl, ?_⟩
        have pos : 0 < (lineChars [line]).length := by rw [same]; simp
        have none_ : (lineChars []).length = 0 := rfl
        omega
      | cons next lines =>
        refine ⟨',' :: lineChars (next :: lines), lineChars_cons line next lines, by simp, ?_, ?_⟩
        · obtain ⟨d, others, begins, digit⟩ := lineChars_head next lines
          have notComma := (isSpace_digit digit).2.2.2
          rw [List.dropWhile_cons_of_pos (by simp), begins,
            List.dropWhile_cons_of_neg (by simpa using notComma)]
        · rw [lineChars_cons, List.length_append, List.length_cons] at enough
          omega
    rw [parseLines, if_neg (by rw [same]; exact List.cons_ne_nil _ _), text,
      strtoul0_toDigits fits stops]
    simp only [merged, skipped]
    rw [ih (fun later member => small later (List.mem_cons_of_mem _ member)) shorter
      (by rwa [moved])]
    rw [moved]

/-- What a derivation must be to be read back: blanks separate the files, and what
stands behind the last colon is taken for line numbers. -/
def Kept (drv : LCFGDerivation) : Prop :=
  (∀ c ∈ (drv.file.getD "").toList, DerivList.isDelimiter c = false) ∧
    (∀ c ∈ (drv.file.getD "").toList.head?, isSpace c = false) ∧
    (drv.lines = [] → ':' ∉ (drv.file.getD "").toList)

/-- A derivation as the library builds it: with a file, and each line number once. -/
structure WellFormed (drv : LCFGDerivation) : Prop where
  file : isValid drv = true
  lines : drv.lines.Nodup
  small : ∀ line ∈ drv.lines, line < 2 ^ 32

theorem WellFormed.file_eq {drv : LCFGDerivation} (wf : WellFormed drv) :
    ∃ file, drv.file = some file ∧ file ≠ "" := by
  have valid := wf.file
  cases given : drv.file with
  | none => simp [isValid, given, isEmpty] at valid
  | some file => exact ⟨file, rfl, by simpa [isValid, given, isEmpty] using valid⟩

theorem toString_lines {drv : LCFGDerivation} (some_ : drv.lines ≠ []) :
    toString drv = (drv.file.getD "").toList ++ ':' :: lineChars drv.lines := by
  rw [toString, if_neg some_, lineChars]

theorem toString_file {drv : LCFGDerivation} (none_ : drv.lines = []) :
    toString drv = (drv.file.getD "").toList := by
  rw [toString, if_pos none_, List.append_nil]

private theorem toString_unspaced {drv : LCFGDerivation} (wf : WellFormed drv)
    (first : ∀ c ∈ (drv.file.getD "").toList.head?, isSpace c = false) :
    (toString drv).dropWhile isSpace = toString drv ∧ toString drv ≠ [] := by
  obtain ⟨file, given, some_⟩ := wf.file_eq
  cases chars : (drv.file.getD "").toList with
  | nil =>
    rw [given, Option.getD_some] at chars
    exact absurd (by simpa using chars) some_
  | cons c rest =>
    have space : isSpace c = false := first c (by rw [chars]; rfl)
    rw [toString, chars, List.cons_append]
    exact ⟨List.dropWhile_cons_of_neg (by simp [space]), List.cons_ne_nil _ _⟩

theorem fromString_toString {drv : LCFGDerivation} (wf : WellFormed drv) (kept : Kept drv) :
    fromString (toString drv) = .ok drv := by
  obtain ⟨file, given, some_⟩ := wf.file_eq
  obtain ⟨-, first, colons⟩ := kept
  obtain ⟨unspaced, notNil⟩ := toString_unspaced wf first
  unfold fromString
  simp only [unspaced, if_neg notNil]
  by_cases none_ : drv.lines = []
  -- without lines the text is the file name, which then has no colon
  · have absent : (toString drv).contains ':' = false := by
      rw [toString_file none_, Bool.eq_false_iff, ne_eq, List.contains_iff_mem]
      exact colons none_
    rw [absent, if_neg Bool.false_ne_true, toString_file none_, String.ofList_toList, given,
      Option.getD_some, ← given, ← none_]
  -- the line numbers are read back from the last colon on
  · have walked : ∀ c ∈ lineChars drv.lines, (c != ':') = true := by
      intro c member
      rw [bne_iff_ne]
      rintro rfl
      rcases lineChars_chars drv.lines _ member with digit | comma
      · revert digit
        decide
      · revert comma
        decide
    have there : (toString drv).contains ':' = true := by
      rw [toString_lines none_]
      simp
    have noComma : (lineChars drv.lines).dropWhile (· == ',') = lineChars drv.lines := by
      obtain ⟨line, lines, same⟩ := List.exists_cons_of_ne_nil none_
      obtain ⟨c, more, begins, digit⟩ := lineChars_head line lines
      rw [same, begins]
      exact List.dropWhile_cons_of_neg (by simpa using (isSpace_digit digit).2.2.2)
    have parsed := @parseLines_lineChars _ wf.small _ {} (Nat.lt_succ_self _)
      (by simpa using wf.lines)
    rw [there, if_pos rfl, toString_lines none_]
    simp only [Fields.rdropWhile_cut walked (by decide : (':' != ':') = false),
      Fields.rtakeWhile_cut walked (by decide : (':' != ':') = false), List.dropLast_concat,
      String.ofList_toList, noComma, parsed, Except.map, List.nil_append, given, Option.getD_some]
    rw [← given]

/-- The file is at the front of the text, and the text behind the last colon is not
a part of it. -/
theorem fromString_file {text : List Char} {drv : LCFGDerivation} (done : fromString text = .ok drv) :
    ∃ file, drv.file = some file ∧ file.toList <+: text.dropWhile isSpace ∧
      (':' ∈ text.dropWhile isSpace → file.toList ≠ text.dropWhile isSpace) := by
  unfold fromString at done
  simp only at done
  split at done
  · cases done
  · split at done
    -- the file is what comes before the last colon, which is shorter than the text
    case isTrue colon =>
      cases parsed : parseLines _ {} ((List.rtakeWhile (· != ':') (text.dropWhile isSpace)).dropWhile
          (· == ',')) with
      | error message =>
        rw [parsed] at done
        cases done
      | ok drv' =>
        rw [parsed] at done
        cases done
        have whole := (List.rdropWhile_prefix (· != ':') (text.dropWhile isSpace))
        have cut := List.dropLast_prefix ((text.dropWhile isSpace).rdropWhile (· != ':'))
        refine ⟨_, rfl, ?_, fun _ same => ?_⟩
        · rw [String.toList_ofList]
          exact cut.trans whole
        · rw [String.toList_ofList] at same
          have le := whole.length_le
          have length := congrArg List.length same
          have pos := List.length_pos_of_mem (List.contains_iff_mem.mp colon)
          rw [List.length_dropLast] at length
          omega
    case isFalse absent =>
      cases done
      refine ⟨_, rfl, ?_, fun colon => absurd (List.contains_iff_mem.mpr colon) absent⟩
      simp only [String.toList_ofList, List.prefix_rfl]

end Derivation

/-! ## Reading a list back -/

namespace DerivList

/-- A list as the library builds it: the entries are well formed, one for each file. -/
structure WellFormed (drvlist : LCFGDerivationList) : Prop where
  entries : ∀ drv ∈ drvlist, Derivation.WellFormed drv
  files : (drvlist.map (·.file)).Nodup

section Merge

variable {drvlist merged : LCFGDerivationList} {drv : LCFGDerivation}

theorem mergeLines_file (drv1 drv2 : LCFGDerivation) :
    (Derivation.mergeLines drv1 drv2).1.file = drv1.file := by
  unfold Derivation.mergeLines
  apply List.foldlRecOn (motive := fun r : LCFGDerivation × LCFGChange => r.1.file = drv1.file)
  · rfl
  · rintro ⟨drv, change⟩ same line -
    have file : (Derivation.mergeLine drv line).1.file = drv.file := by
      rw [Derivation.mergeLine]
      split <;> rfl
    simp only
    split
    case h_1 merge =>
      rw [merge] at file
      exact file.trans same
    case h_2 merge =>
      rw [merge] at file
      exact file.trans same

/-- A merge appends an entry for a new file, and keeps the files otherwise. -/
theorem mergeDerivation_files (valid : Derivation.isValid drv = true) :
    mergeDerivation drvlist drv = (drvlist ++ [drv], .added) ∨
      (mergeDerivation drvlist drv).1.map (·.file) = drvlist.map (·.file) := by
  rw [mergeDerivation, valid, Bool.not_true, if_neg Bool.false_ne_true]
  simp only
  split
  case h_1 => exact .inl rfl
  case h_2 i found =>
    apply Or.inr
    obtain ⟨inside, -, -⟩ := List.findIdx?_eq_some_iff_getElem.mp found
    have same : (drvlist.getD i {}).file = drvlist[i].file := by
      rw [List.getD_eq_getElem?_getD, List.getElem?_eq_getElem inside, Option.getD_some]
    have place : i < (drvlist.map (·.file)).length := by simpa using inside
    have entry : drvlist[i].file = (drvlist.map (·.file))[i] := by simp
    simp only [List.map_set, mergeLines_file, same]
    rw [entry, List.set_getElem_self place]

private theorem mergeDerivation_new (valid : Derivation.isValid drv = true)
    (fresh : drv.file ∉ drvlist.map (·.file)) (wf : ∀ d ∈ drvlist, Derivation.isValid d = true) :
    mergeDerivation drvlist drv = (drvlist ++ [drv], .added) := by
  have none_ : drvlist.findIdx? (fun d => Derivation.isValid d &&
      Derivation.matchFile d (orDefault drv.file "")) = none := by
    rw [List.findIdx?_eq_none_iff]
    intro d member
    rw [wf d member, Bool.true_and, Derivation.matchFile, beq_eq_false_iff_ne]
    intro same
    apply fresh
    -- two files which are there and not empty
    have present : ∀ e : LCFGDerivation, Derivation.isValid e = true →
        e.file = some (orDefault e.file "") := by
      intro e is
      cases given : e.file with
      | none => simp [Derivation.isValid, given, isEmpty] at is
      | some file => simp
    rw [present drv valid, ← same, ← present d (wf d member)]
    exact List.mem_map_of_mem member
  rw [mergeDerivation, valid, Bool.not_true, if_neg Bool.false_ne_true]
  simp only [none_]

theorem addToken_ok {token : List Char} (done : addToken drvlist token = .ok merged) :
    ∃ drv, Derivation.fromString token = .ok drv ∧ Derivation.isValid drv = true ∧
      merged = (mergeDerivation drvlist drv).1 := by
  rw [addToken] at done
  split at done
  · cases done
  case h_2 drv parsed =>
    refine ⟨drv, parsed, ?_, ?_⟩
    · by_contra invalid
      rw [mergeDerivation, Bool.eq_false_iff.mpr invalid] at done
      cases done
    · split at done
      · cases done
      case h_2 same =>
        rw [same]
        exact (Except.ok.inj done).symm

/-- Each token is appended, or merged into an entry with the same file. -/
private theorem addTokens_files {tokens : List (List Char)}
    (done : tokens.foldlM addToken drvlist = .ok merged) :
    ∃ files, merged.map (·.file) = drvlist.map (·.file) ++ files ∧
      files.length ≤ tokens.length ∧
      (∀ file ∈ files, ∃ token ∈ tokens, ∃ drv, Derivation.fromString token = .ok drv ∧
        Derivation.isValid drv = true ∧ drv.file = file) ∧
      (files.length = tokens.length → List.Forall₂ (fun token file => ∃ drv,
        Derivation.fromString token = .ok drv ∧ drv.file = file) tokens files) := by
  induction tokens generalizing drvlist with
  | nil =>
    cases done
    exact ⟨[], by simp, Nat.le_refl _, by simp, fun _ => .nil⟩
  | cons token tokens ih =>
    rw [List.foldlM_cons] at done
    cases first : addToken drvlist token with
    | error message =>
      rw [first] at done
      cases done
    | ok drvlist' =>
      rw [first] at done
      obtain ⟨drv, parsed, valid, rfl⟩ := addToken_ok first
      obtain ⟨files, same, short, sources, all⟩ := ih done
      have later : ∀ file ∈ files, ∃ token' ∈ token :: tokens, ∃ drv,
          Derivation.fromString token' = .ok drv ∧ Derivation.isValid drv = true ∧
            drv.file = file := by
        intro file member
        obtain ⟨token', inside, rest⟩ := sources file member
        exact ⟨token', List.mem_cons_of_mem _ inside, rest⟩
      -- a file which was there before adds no entry, so that there are more tokens than files
      rcases @mergeDerivation_files drvlist _ valid with new | kept
      · rw [new] at same
        refine ⟨drv.file :: files, ?_, by simpa using short, ?_, ?_⟩
        · rw [same, List.map_append, List.append_assoc]
          rfl
        · intro file member
          rcases List.mem_cons.mp member with rfl | inside
          · exact ⟨token, List.mem_cons_self, drv, parsed, valid, rfl⟩
          · exact later file inside
        · intro length
          exact .cons ⟨drv, parsed, rfl⟩ (all (by simpa using length))
      · rw [kept] at same
        refine ⟨files, same, Nat.le_succ_of_le short, later, ?_⟩
        intro length
        rw [List.length_cons] at length
        omega

/-- Tokens of different files are appended in order. -/
private theorem addTokens_new {drvs : LCFGDerivationList}
    (wf : ∀ d ∈ drvlist ++ drvs, Derivation.WellFormed d)
    (files : ((drvlist ++ drvs).map (·.file)).Nodup) (kept : ∀ d ∈ drvs, Derivation.Kept d) :
    (drvs.map Derivation.toString).foldlM addToken drvlist = .ok (drvlist ++ drvs) := by
  induction drvs generalizing drvlist with
  | nil =>
    rw [List.append_nil]
    rfl
  | cons drv drvs ih =>
    have wfDrv := wf drv (by simp)
    have parsed := Derivation.fromString_toString wfDrv (kept drv List.mem_cons_self)
    have fresh : drv.file ∉ drvlist.map (·.file) := by
      rw [List.map_append, List.map_cons] at files
      intro old
      exact (List.nodup_append.mp files).2.2 _ old _ List.mem_cons_self rfl
    have merge := mergeDerivation_new wfDrv.file fresh fun d member =>
      (wf d (List.mem_append_left _ member)).file
    have step : addToken drvlist (Derivation.toString drv) = .ok (drvlist ++ [drv]) := by
      rw [addToken, parsed]
      simp only [merge]
    have moved : drvlist ++ drv :: drvs = drvlist ++ [drv] ++ drvs := by simp
    rw [List.map_cons, List.foldlM_cons, step, moved]
    apply ih
    · rwa [← moved]
    · rwa [← moved]
    · exact fun d member => kept d (List.mem_cons_of_mem _ member)

end Merge

section Sorted

variable {drvlist : LCFGDerivationList}

private theorem sortLines_wellFormed {drv : LCFGDerivation} (wf : Derivation.WellFormed drv) :
    Derivation.WellFormed (Derivation.sortLines drv) := by
  have perm := List.perm_insertionSort (· ≤ ·) drv.lines
  exact ⟨wf.file, perm.nodup_iff.mpr wf.lines, fun line member =>
    wf.small line (perm.mem_iff.mp member)⟩

private theorem sortLines_kept (drv : LCFGDerivation) :
    Derivation.Kept (Derivation.sortLines drv) ↔ Derivation.Kept drv := by
  have none_ : (Derivation.sortLines drv).lines = [] ↔ drv.lines = [] := by
    have perm := List.perm_insertionSort (· ≤ ·) drv.lines
    constructor
    · intro nothing
      apply List.Perm.nil_eq _ |>.symm
      rw [Derivation.sortLines] at nothing
      rw [← nothing]
      exact perm
    · intro nothing
      rw [Derivation.sortLines, nothing]
      rfl
  rw [Derivation.Kept, Derivation.Kept, none_]
  rfl

theorem sortLines_eq (wf : WellFormed drvlist) :
    sortLines drvlist = drvlist.map Derivation.sortLines := by
  apply List.map_congr_left
  intro drv member
  rw [if_pos (wf.entries drv member).file]

theorem WellFormed.sortLines (wf : WellFormed drvlist) : WellFormed (sortLines drvlist) := by
  rw [sortLines_eq wf]
  constructor
  · intro drv member
    obtain ⟨old, inside, rfl⟩ := List.mem_map.mp member
    exact sortLines_wellFormed (wf.entries old inside)
  · rw [List.map_map]
    exact wf.files

theorem toString_eq (wf : WellFormed drvlist) :
    toString drvlist = [' '].intercalate ((sortLines drvlist).map Derivation.toString) := by
  rw [toString, List.filter_eq_self.mpr]
  exact fun drv member => (wf.sortLines.entries drv member).file

end Sorted

section Text

variable {drvlist : LCFGDerivationList}

/-- What separates the numbers is not a delimiter. -/
private theorem toString_free {drv : LCFGDerivation}
    (file : ∀ c ∈ (drv.file.getD "").toList, isDelimiter c = false) :
    ∀ c ∈ Derivation.toString drv, isDelimiter c = false := by
  intro c member
  have others : ∀ d ∈ [':', ','], isDelimiter d = false := Fields.of_all (by decide)
  by_cases none_ : drv.lines = []
  · rw [Derivation.toString_file none_] at member
    exact file c member
  · rw [Derivation.toString_lines none_, List.mem_append, List.mem_cons] at member
    rcases member with inFile | rfl | number
    · exact file c inFile
    · exact others ':' (by simp)
    · rcases Derivation.lineChars_chars _ c number with digit | rfl
      · cases delimiter : isDelimiter c with
        | false => rfl
        | true =>
          have blank : ∀ d ∈ " \n\r\t".toList, d.isDigit = false := Fields.of_all (by decide)
          rw [blank c (List.contains_iff_mem.mp delimiter)] at digit
          cases digit
      · exact others ',' (by simp)

/-- The tokens are the derivations, if their files have no blanks. -/
private theorem tokens_toString (wf : WellFormed drvlist) (some_ : drvlist ≠ [])
    (free : ∀ drv ∈ drvlist, ∀ c ∈ (drv.file.getD "").toList, isDelimiter c = false)
    (first : ∀ drv ∈ drvlist, ∀ c ∈ (drv.file.getD "").toList.head?, isSpace c = false) :
    let text := [' '].intercalate (drvlist.map Derivation.toString)
    text.dropWhile isSpace = text ∧ text ≠ [] ∧
      Fields.tokens isDelimiter text = drvlist.map Derivation.toString := by
  intro text
  obtain ⟨drv, others, rfl⟩ := List.exists_cons_of_ne_nil some_
  obtain ⟨unspaced, notNil⟩ := Derivation.toString_unspaced (wf.entries drv List.mem_cons_self)
    (first drv List.mem_cons_self)
  obtain ⟨c, rest, begins⟩ := List.exists_cons_of_ne_nil notNil
  -- the first character of the text is that of the first file
  have space : isSpace c = false := by
    rw [begins, List.dropWhile_cons] at unspaced
    split at unspaced
    case isTrue blank =>
      have shorter := (List.dropWhile_suffix (l := rest) isSpace).length_le
      rw [unspaced, List.length_cons] at shorter
      omega
    case isFalse other => exact Bool.eq_false_iff.mpr other
  obtain ⟨more, starts⟩ : ∃ more, text = c :: more := by
    cases others with
    | nil => exact ⟨rest, by simp [text, begins]⟩
    | cons next others =>
      refine ⟨[' '].intercalate (rest :: Derivation.toString next :: others.map Derivation.toString),
        ?_⟩
      simp only [text, List.map_cons, begins, List.intercalate_cons_cons_left]
  refine ⟨?_, ?_, ?_⟩
  · rw [starts]
    exact List.dropWhile_cons_of_neg (by simp [space])
  · rw [starts]
    exact List.cons_ne_nil c more
  · apply Fields.tokens_intercalate (by decide)
    intro part member
    obtain ⟨d, inside, rfl⟩ := List.mem_map.mp member
    exact ⟨(Derivation.toString_unspaced (wf.entries d inside) (first d inside)).2,
      toString_free (free d inside)⟩

/-- Each file was read from a token. -/
private theorem addTokens_delimited {text : List Char}
    (done : (Fields.tokens isDelimiter text).foldlM addToken [] = .ok drvlist) :
    ∀ drv ∈ drvlist, (∀ c ∈ (drv.file.getD "").toList, isDelimiter c = false) ∧
      ∀ c ∈ (drv.file.getD "").toList.head?, isSpace c = false := by
  intro drv member
  obtain ⟨files, same, -, sources, -⟩ := addTokens_files done
  rw [List.map_nil, List.nil_append] at same
  have inside : drv.file ∈ files := by
    rw [← same]
    exact List.mem_map_of_mem member
  obtain ⟨token, isToken, drv', parsed, -, sameFile⟩ := sources _ inside
  obtain ⟨file, given, front, -⟩ := Derivation.fromString_file parsed
  rw [← sameFile, given, Option.getD_some]
  refine ⟨fun c inFile => ?_, fun c begins => ?_⟩
  · apply (Fields.mem_tokens isToken).2 c
    exact (List.dropWhile_suffix isSpace).subset (front.subset inFile)
  · have head := List.head?_dropWhile_not isSpace token
    obtain ⟨more, whole⟩ := front
    cases chars : file.toList with
    | nil => simp [chars] at begins
    | cons d rest =>
      rw [chars] at begins whole
      rw [← whole] at head
      obtain rfl := Option.some.inj begins
      simpa using head

/-- A file which has been read has no delimiter in it. -/
theorem fromString_delimited {text : List Char} (done : fromString text = .ok drvlist) :
    ∀ drv ∈ drvlist, ∀ c ∈ (drv.file.getD "").toList, isDelimiter c = false := by
  intro drv member
  rw [fromString] at done
  split at done
  · cases done
  · exact (addTokens_delimited done drv member).1

theorem fromString_newline {text : List Char} (done : fromString text = .ok drvlist) :
    ∀ drv ∈ drvlist, '\n' ∉ (drv.file.getD "").toList := by
  intro drv member newline
  have other := fromString_delimited done drv member '\n' newline
  revert other
  decide

/-- What is neither in a number nor next to one comes from a file. -/
theorem mem_toString_iff {c : Char} (text : c.isDigit = false) (between : c ∉ [' ', ':', ',']) :
    c ∈ toString drvlist ↔
      ∃ drv ∈ drvlist, Derivation.isValid drv = true ∧ c ∈ (drv.file.getD "").toList := by
  rw [toString]
  constructor
  · intro inside
    rcases Fields.mem_intercalate inside with blank | ⟨part, isPart, there⟩
    · rw [List.mem_singleton.mp blank] at between
      exact absurd (List.mem_cons_self) between
    · obtain ⟨sorted, kept, rfl⟩ := List.mem_map.mp isPart
      obtain ⟨member, valid⟩ := List.mem_filter.mp kept
      rw [Derivation.toString, List.mem_append] at there
      have inFile : c ∈ (sorted.file.getD "").toList := by
        refine there.resolve_right fun number => ?_
        split at number
        · cases number
        rcases List.mem_cons.mp number with colon | digits
        · exact between (by simp [colon])
        rcases Derivation.lineChars_chars _ c digits with digit | comma
        · rw [text] at digit
          cases digit
        · exact between (by simp [comma])
      obtain ⟨drv, old, rfl⟩ := List.mem_map.mp member
      refine ⟨drv, old, ?_⟩
      by_cases given : Derivation.isValid drv = true
      · rw [if_pos given] at inFile
        exact ⟨given, inFile⟩
      · rw [if_neg given] at valid
        exact absurd valid given
  · rintro ⟨drv, member, valid, inFile⟩
    have kept : Derivation.sortLines drv ∈ (sortLines drvlist).filter Derivation.isValid := by
      refine List.mem_filter.mpr ⟨List.mem_map.mpr ⟨drv, member, if_pos valid⟩, valid⟩
    apply Fields.mem_intercalate_of_mem (List.mem_map_of_mem kept)
    rw [Derivation.toString]
    exact List.mem_append_left _ inFile

/-- What is in the text besides the files. -/
theorem mem_toString {c : Char} (inside : c ∈ toString drvlist) :
    (∃ drv ∈ drvlist, c ∈ (drv.file.getD "").toList) ∨ c.isDigit = true ∨ c ∈ [' ', ':', ','] := by
  by_cases other : c.isDigit = true ∨ c ∈ [' ', ':', ',']
  · exact .inr other
  · obtain ⟨text, between⟩ := not_or.mp other
    have text := Bool.eq_false_iff.mpr text
    obtain ⟨drv, member, -, inFile⟩ := (mem_toString_iff text between).mp inside
    exact .inl ⟨drv, member, inFile⟩

/-- Without a newline in a file there is none in the text. -/
theorem toString_newline
    (free : ∀ drv ∈ drvlist, '\n' ∉ (drv.file.getD "").toList) : '\n' ∉ toString drvlist := by
  intro newline
  rcases mem_toString newline with ⟨drv, member, inFile⟩ | digit | other
  · exact free drv member inFile
  · cases digit
  · revert other
    decide

theorem toString_ne_nil (wf : WellFormed drvlist) (some_ : drvlist ≠ []) :
    toString drvlist ≠ [] := by
  rw [toString_eq wf, sortLines_eq wf, List.map_map]
  obtain ⟨drv, others, rfl⟩ := List.exists_cons_of_ne_nil some_
  obtain ⟨file, given, someFile⟩ := (wf.entries drv List.mem_cons_self).file_eq
  have text : (Derivation.toString ∘ Derivation.sortLines) drv ≠ [] := by
    rw [Function.comp_apply, Derivation.toString, Derivation.sortLines, given, Option.getD_some]
    simp [someFile]
  obtain ⟨c, rest, starts⟩ := List.exists_cons_of_ne_nil text
  rw [List.map_cons, starts]
  cases others with
  | nil => simp
  | cons next others =>
    rw [List.map_cons, List.intercalate_cons_cons_left]
    exact List.cons_ne_nil c _

end Text

/-- A derivation is read back as it was written, with its lines sorted, if and only if
each of its files can be told from the text around it. -/
theorem fromString_toString_iff {drvlist : LCFGDerivationList} (wf : WellFormed drvlist)
    (some_ : drvlist ≠ []) :
    fromString (toString drvlist) = .ok (sortLines drvlist) ↔
      ∀ drv ∈ drvlist, Derivation.Kept drv := by
  have sorted := wf.sortLines
  have someSorted : sortLines drvlist ≠ [] := by
    rw [sortLines_eq wf]
    simpa using some_
  have keptSorted : (∀ drv ∈ sortLines drvlist, Derivation.Kept drv) ↔
      ∀ drv ∈ drvlist, Derivation.Kept drv := by
    rw [sortLines_eq wf]
    simp only [List.mem_map, forall_exists_index, and_imp, forall_apply_eq_imp_iff₂, sortLines_kept]
  rw [← keptSorted, toString_eq wf]
  generalize sortLines drvlist = drvs at sorted someSorted
  constructor
  · intro done
    rw [fromString] at done
    split at done
    · cases done
    have read := addTokens_delimited done
    obtain ⟨files, same, -, sources, all⟩ := addTokens_files done
    rw [List.map_nil, List.nil_append] at same
    obtain ⟨unspaced, -, tokens⟩ := tokens_toString sorted someSorted
      (fun drv member => (read drv member).1) fun drv member => (read drv member).2
    -- as many files as tokens: each token was read as an entry of its own
    rw [unspaced, tokens, ← same, List.length_map, List.length_map] at all
    have each := all rfl
    rw [List.forall₂_map_left_iff, List.forall₂_map_right_iff, List.forall₂_same] at each
    intro drv member
    refine ⟨(read drv member).1, (read drv member).2, fun none_ colon => ?_⟩
    obtain ⟨drv', parsed, sameFile⟩ := each drv member
    obtain ⟨file, given, -, cut⟩ := Derivation.fromString_file parsed
    rw [(Derivation.toString_unspaced (sorted.entries drv member) (read drv member).2).1,
      Derivation.toString_file none_] at cut
    apply cut colon
    rw [← sameFile, given, Option.getD_some]
  · intro kept
    obtain ⟨unspaced, notNil, tokens⟩ := tokens_toString sorted someSorted
      (fun drv member => (kept drv member).1) fun drv member => (kept drv member).2.1
    rw [fromString]
    simp only [unspaced, if_neg notNil, tokens]
    exact addTokens_new (by simpa using sorted.entries) (by simpa using sorted.files) kept

end DerivList

end Lcfg
