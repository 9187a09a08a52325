import LcfgCore.Library.Marks
import LcfgCore.Packages.Setters
import Mathlib.Data.Char

/-!
# Adding flags to a package

`lcfgpackage_add_flags` collects the characters of the flags and of the extra ones in an
array of marks. Where as many characters are marked as the flags are long, the flags are
not touched.
-/
namespace Lcfg

namespace Package

/-- `LCFG_PKG_FLAGS_MAXCHAR`. -/
def flagsMaxchar : Nat := 128

/-- `c - '0'`, which is never negative for a flag. -/
def flagNumber (c : Char) : Nat := c.toNat - '0'.toNat

/-- `i + '0'`. -/
def flagChar (i : Nat) : Char := Char.ofNat (i + '0'.toNat)

/-- `char_set`, once the characters of both strings were seen. -/
def charSet (flags extraFlags : List Char) : MarkSet flagsMaxchar :=
  ((MarkSet.unmarked flagsMaxchar).markAll (flags.map flagNumber)).markAll
    (extraFlags.map flagNumber)

def addFlags (pkg : LCFGPackage) (extraFlags : Option String) : Option LCFGPackage :=
  if isEmpty extraFlags then some pkg
  else
    let extraFlags := extraFlags.getD ""
    if validFlags extraFlags then
      let flags := (pkg.flags.getD "").toList
      let seen := charSet flags extraFlags.toList
      if seen.count = flags.length then some pkg
      else setFlags pkg (String.ofList (seen.numbers.map flagChar))
    else none

/-- Each character of either string, once and in ascending order. -/
structure FlagUnion (flags extraFlags result : List Char) : Prop where
  ascending : result.Pairwise (· < ·)
  mem_iff : ∀ c, c ∈ result ↔ c ∈ flags ∨ c ∈ extraFlags

theorem FlagUnion.unique {flags extraFlags result other : List Char}
    (union : FlagUnion flags extraFlags result) (union' : FlagUnion flags extraFlags other) :
    result = other := by
  apply List.Pairwise.eq_of_mem_iff union.ascending union'.ascending
  intro c
  rw [union.mem_iff, union'.mem_iff]

theorem FlagUnion.length {flags extraFlags result : List Char}
    (union : FlagUnion flags extraFlags result) :
    result.length = (flags ++ extraFlags).dedup.length := by
  apply List.Perm.length_eq
  rw [List.perm_ext_iff_of_nodup (union.ascending.imp ne_of_lt) (List.nodup_dedup _)]
  intro c
  rw [union.mem_iff, List.mem_dedup, List.mem_append]

/-! ## The set of characters -/

theorem toNat_alnum {c : Char} (alnum : c.isAlphanum = true) : 48 ≤ c.toNat ∧ c.toNat ≤ 122 := by
  unfold Char.isAlphanum Char.isAlpha Char.isUpper Char.isLower Char.isDigit at alnum
  simp only [Bool.or_eq_true, Bool.and_eq_true, decide_eq_true_eq, UInt32.le_iff_toNat_le, ge_iff_le]
    at alnum
  change (((65 ≤ c.toNat ∧ c.toNat ≤ 90) ∨ (97 ≤ c.toNat ∧ c.toNat ≤ 122)) ∨
    (48 ≤ c.toNat ∧ c.toNat ≤ 57)) at alnum
  omega

theorem flagNumber_lt {c : Char} (alnum : c.isAlphanum = true) : flagNumber c < flagsMaxchar := by
  obtain ⟨-, most⟩ := toNat_alnum alnum
  change c.toNat - 48 < 128
  omega

theorem flagChar_flagNumber {c : Char} (alnum : c.isAlphanum = true) :
    flagChar (flagNumber c) = c := by
  obtain ⟨least, -⟩ := toNat_alnum alnum
  have same : flagNumber c + '0'.toNat = c.toNat := by
    change c.toNat - 48 + 48 = c.toNat
    omega
  rw [flagChar, same, Char.ofNat_toNat]

theorem lt_of_flagNumber_lt {c d : Char} (less : flagNumber c < flagNumber d) : c < d := by
  rw [Char.lt_def, UInt32.lt_iff_toNat_lt]
  change c.toNat - 48 < d.toNat - 48 at less
  change c.toNat < d.toNat
  omega

section Characters

variable {flags extraFlags : List Char}

theorem mem_numbers_charSet (alnum : ∀ c ∈ flags, c.isAlphanum = true)
    (alnum' : ∀ c ∈ extraFlags, c.isAlphanum = true) (i : Nat) :
    i ∈ (charSet flags extraFlags).numbers ↔ ∃ c, (c ∈ flags ∨ c ∈ extraFlags) ∧
      flagNumber c = i := by
  have below : ∀ chars : List Char, (∀ c ∈ chars, c.isAlphanum = true) →
      ∀ i ∈ chars.map flagNumber, i < flagsMaxchar := by
    intro chars alnum i member
    obtain ⟨c, there, rfl⟩ := List.mem_map.mp member
    exact flagNumber_lt (alnum c there)
  rw [charSet, MarkSet.mem_numbers_markAll (below _ alnum'),
    MarkSet.numbers_markAll_unmarked (below _ alnum), List.mem_map, List.mem_map]
  constructor
  · rintro (⟨c, there, rfl⟩ | ⟨c, there, rfl⟩)
    · exact ⟨c, .inr there, rfl⟩
    · exact ⟨c, .inl there, rfl⟩
  · rintro ⟨c, there | there, rfl⟩
    · exact .inr ⟨c, there, rfl⟩
    · exact .inl ⟨c, there, rfl⟩

/-- The characters which are written are those of the union. -/
theorem flagUnion_charSet (alnum : ∀ c ∈ flags, c.isAlphanum = true)
    (alnum' : ∀ c ∈ extraFlags, c.isAlphanum = true) :
    FlagUnion flags extraFlags ((charSet flags extraFlags).numbers.map flagChar) := by
  have char : ∀ c, c ∈ flags ∨ c ∈ extraFlags → flagChar (flagNumber c) = c := by
    rintro c (there | there)
    · exact flagChar_flagNumber (alnum c there)
    · exact flagChar_flagNumber (alnum' c there)
  -- the numbers ascend as the characters do, and a number gives its character back
  constructor
  · rw [List.pairwise_map]
    apply List.Pairwise.imp_of_mem _ MarkSet.pairwise_numbers
    intro i j there there' less
    obtain ⟨c, given, rfl⟩ := (mem_numbers_charSet alnum alnum' i).mp there
    obtain ⟨d, given', rfl⟩ := (mem_numbers_charSet alnum alnum' j).mp there'
    rw [char c given, char d given']
    exact lt_of_flagNumber_lt less
  · intro c
    rw [List.mem_map]
    constructor
    · rintro ⟨i, there, rfl⟩
      obtain ⟨d, given, rfl⟩ := (mem_numbers_charSet alnum alnum' i).mp there
      rw [char d given]
      exact given
    · intro given
      exact ⟨flagNumber c, (mem_numbers_charSet alnum alnum' _).mpr ⟨c, given, rfl⟩, char c given⟩

end Characters

/-! ## The flags of the package -/

variable {pkg : LCFGPackage} {extraFlags : String}

/-- Adding valid flags succeeds, and only the flags are written to. -/
theorem addFlags_valid (alnum : ∀ c ∈ (pkg.flags.getD "").toList, c.isAlphanum = true)
    (valid : validFlags extraFlags = true) :
    ∃ result, FlagUnion (pkg.flags.getD "").toList extraFlags.toList result ∧
      addFlags pkg (some extraFlags) =
        some { pkg with
          flags := if result.length = (pkg.flags.getD "").toList.length then pkg.flags
            else some (String.ofList result) } := by
  obtain ⟨some_, alnum'⟩ : extraFlags ≠ "" ∧ ∀ c ∈ extraFlags.toList, c.isAlphanum = true := by
    simpa [validFlags] using valid
  have union := flagUnion_charSet alnum alnum'
  refine ⟨_, union, ?_⟩
  have given : isEmpty (some extraFlags) = false := by simpa [isEmpty] using some_
  rw [addFlags, given, if_neg Bool.false_ne_true]
  simp only [Option.getD_some, valid, if_true]
  rw [List.length_map, MarkSet.length_numbers]
  -- the flags are only set again when their number has grown
  by_cases same : (charSet (pkg.flags.getD "").toList extraFlags.toList).count =
      (pkg.flags.getD "").toList.length
  · simp only [if_pos same]
  · have accepted : validFlags
        (String.ofList ((charSet (pkg.flags.getD "").toList extraFlags.toList).numbers.map
          flagChar)) = true := by
      -- the new flags are not empty, since the extra ones are among them
      have filled : (charSet (pkg.flags.getD "").toList extraFlags.toList).numbers.map
          flagChar ≠ [] := by
        intro empty
        obtain ⟨c, there⟩ := List.exists_mem_of_ne_nil extraFlags.toList (by simpa using some_)
        have member := (union.mem_iff c).mpr (.inr there)
        rw [empty] at member
        cases member
      simp only [validFlags, Bool.and_eq_true, bne_iff_ne, ne_eq, List.all_eq_true,
        String.toList_ofList]
      refine ⟨by simpa using filled, ?_⟩
      intro c member
      rcases (union.mem_iff c).mp member with there | there
      · exact alnum c there
      · exact alnum' c there
    simp only [if_neg same, setFlags, if_pos accepted]

end Package

end Lcfg
