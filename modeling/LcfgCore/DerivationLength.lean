import LcfgCore.DerivationStore

/-!
# The lengths of derivations

`lcfgderivation_get_length` computes how long the text of a derivation is without writing
it, and keeps the result with the derivation (`common/derivation/derivation.c`). The text is
written to a buffer of this length.
-/
namespace Lcfg

open Outcome (Ends)

/-- A derivation with its length as it was last computed; it is negative while there is
none. -/
structure CachedDerivation extends StoredDerivation where
  length : Int := -1
deriving DecidableEq, Repr

/-- How a function may stop: an access behind the lines of a derivation, `realloc` of a
place inside a buffer, or an assertion about the end of a text. -/
inductive LengthFault where
  | outOfBounds (access : OutOfBounds)
  | badRealloc
  | assertion
deriving DecidableEq, Repr

namespace CachedDerivation

/-! ## The functions -/

def resetLength (drv : CachedDerivation) : CachedDerivation := { drv with length := -1 }

/-- `lcfgderivation_set_file` -/
def setFile (drv : CachedDerivation) (newValue : Option String) : CachedDerivation :=
  resetLength { drv with file := newValue }

/-- `lcfgderivation_merge_line` resets the length when it has added the line. -/
def mergeLine (drv : CachedDerivation) (line : Nat) :
    Except OutOfBounds (CachedDerivation × LCFGChange) :=
  (drv.toStoredDerivation.mergeLine line).map fun (stored, change) =>
    if change = .added then (resetLength { drv with toStoredDerivation := stored }, change)
    else (drv, change)

def mergeEach (drv : CachedDerivation) (change : LCFGChange) :
    List Nat → Except OutOfBounds (CachedDerivation × LCFGChange)
  | [] => .ok (drv, change)
  | line :: lines => do
    let (drv, addChange) ← drv.mergeLine line
    drv.mergeEach (if addChange = .added then .modified else change) lines

/-- `lcfgderivation_merge_lines` -/
def mergeLines (drv1 : CachedDerivation) (drv2 : LCFGDerivation) :
    Except OutOfBounds (CachedDerivation × LCFGChange) :=
  drv1.mergeEach .none drv2.lines

/-- `lcfgderivation_clone` -/
def clone (drv : LCFGDerivation) : Except OutOfBounds CachedDerivation :=
  (mergeLines (setFile {} (if isEmpty drv.file then none else drv.file)) drv).map Prod.fst

/-- A derivation for a line of a file, or for the file alone. -/
def ofFileLine (filename : Option String) (line : Int32) :
    Except OutOfBounds (CachedDerivation × LCFGChange) :=
  let new := setFile {} filename
  if 0 ≤ line.toInt then new.mergeLine line.toInt.toNat else .ok (new, .none)

/-- `lcfgderivation_from_string`, which sets the file last. -/
def fromString (input : List Char) : Except OutOfBounds (Except String CachedDerivation) :=
  (StoredDerivation.fromString input).map fun parsed =>
    parsed.map fun stored => setFile { toStoredDerivation := stored } stored.file

/-- `lcfgderivation_sort_lines` leaves the length as it is. -/
def sortLines (drv : CachedDerivation) : CachedDerivation :=
  { drv with lines := (Derivation.sortLines drv.toLCFGDerivation).lines }

/-- The loop over the digits of a line number, at most `fuel` times. -/
def countDigits : Nat → Nat → Nat → Nat
  | 0, len, _ => len + 1
  | fuel + 1, len, line => if line > 9 then countDigits fuel (len + 1) (line / 10) else len + 1

/-- The length of the text, which is not kept yet. -/
def computeLength (drv : LCFGDerivation) : Nat :=
  let len := (drv.file.getD "").length
  if drv.lines = [] then len
  else drv.lines.foldl (fun len line => countDigits line len line)
    (len + 1 + (drv.lines.length - 1))

/-- `lcfgderivation_get_length` -/
def getLength (drv : CachedDerivation) : CachedDerivation × Int :=
  if !Derivation.isValid drv.toLCFGDerivation then (drv, -1)
  else if 0 ≤ drv.length then (drv, drv.length)
  else
    let len : Int := computeLength drv.toLCFGDerivation
    ({ drv with length := len }, len)

def newlineText (newline : Bool) : List Char := if newline then ['\n'] else []

/-- `lcfgderivation_to_string`: the derivation and the text, none without a file. -/
def toString (drv : CachedDerivation) (newline : Bool) :
    Except LengthFault (CachedDerivation × Option (List Char)) :=
  if !Derivation.isValid drv.toLCFGDerivation then .ok (drv, none)
  else
    let (drv, len) := drv.getLength
    let text := Derivation.toString drv.toLCFGDerivation ++ newlineText newline
    if text.length = len.toNat + (newlineText newline).length then .ok (drv, some text)
    else .error .assertion

/-! ## The length is that of the text -/

theorem countDigits_eq (fuel len line : Nat) (enough : line ≤ fuel) :
    countDigits fuel len line = len + (Nat.toDigits 10 line).length := by
  -- the number which is left has a digit less in each round
  induction fuel generalizing len line with
  | zero =>
    rw [Nat.le_zero.mp enough]
    rfl
  | succ fuel ih =>
    rw [countDigits]
    split
    case isTrue more =>
      have split_ := Nat.toDigits_of_base_le (n := line) (by decide : 1 < 10) (by omega)
      rw [ih _ _ (by omega), split_, List.length_append, List.length_singleton]
      omega
    case isFalse last => rw [Nat.toDigits_of_lt_base (by omega), List.length_singleton]

private theorem length_intercalate (line : Nat) (lines : List Nat) (len : Nat) :
    (line :: lines).foldl (fun len line => countDigits line len line) (len + lines.length) =
      len + ([','].intercalate ((line :: lines).map (Nat.toDigits 10))).length := by
  induction lines generalizing line len with
  | nil => simp [countDigits_eq, List.intercalate_singleton]
  | cons next lines ih =>
    rw [List.foldl_cons, countDigits_eq _ _ _ (Nat.le_refl line)]
    have moved : len + (next :: lines).length + (Nat.toDigits 10 line).length =
        len + 1 + (Nat.toDigits 10 line).length + lines.length := by
      rw [List.length_cons]
      omega
    rw [moved, ih]
    simp only [List.map_cons, List.intercalate_cons_cons, List.length_append,
      List.length_singleton]
    omega

theorem computeLength_eq (drv : LCFGDerivation) :
    computeLength drv = (Derivation.toString drv).length := by
  rw [computeLength, Derivation.toString, List.length_append, String.length_toList]
  cases lines : drv.lines with
  | nil => simp
  | cons line rest =>
    rw [if_neg (List.cons_ne_nil _ _), if_neg (List.cons_ne_nil _ _), List.length_cons,
      List.length_cons, Nat.add_sub_cancel, length_intercalate]
    omega

/-- A length which is kept is that of the text. -/
def Fresh (drv : CachedDerivation) : Prop :=
  0 ≤ drv.length → drv.length = (Derivation.toString drv.toLCFGDerivation).length

theorem fresh_reset (drv : CachedDerivation) : Fresh drv.resetLength := by
  intro kept
  cases kept

theorem fresh_new : Fresh {} := by
  intro kept
  cases kept

variable {drv : CachedDerivation}

theorem Fresh.mergeLine_spec (fresh : Fresh drv) (line : Nat) :
    Ends (fun _ => True) (drv.mergeLine line) fun r => Fresh r.1 := by
  rw [mergeLine]
  cases drv.toStoredDerivation.mergeLine line with
  | error access => exact .inl ⟨access, rfl, trivial⟩
  | ok merged =>
    refine .inr ⟨_, rfl, ?_⟩
    by_cases added : merged.2 = .added
    · simp only [added, if_true]
      exact fresh_reset _
    · simp only [added, if_false]
      exact fresh

theorem Fresh.mergeEach_spec (fresh : Fresh drv) (change : LCFGChange) (lines : List Nat) :
    Ends (fun _ => True) (drv.mergeEach change lines) fun r => Fresh r.1 := by
  induction lines generalizing drv change with
  | nil => exact .pure fresh
  | cons line lines ih => exact (fresh.mergeLine_spec line).bind fun r good => ih good _

theorem Fresh.mergeLines_spec (fresh : Fresh drv) (drv2 : LCFGDerivation) :
    Ends (fun _ => True) (drv.mergeLines drv2) fun r => Fresh r.1 :=
  fresh.mergeEach_spec .none drv2.lines

theorem clone_spec (drv : LCFGDerivation) :
    Ends (fun _ => True) (clone drv) Fresh :=
  ((fresh_reset _).mergeLines_spec drv).map fun _ fresh => fresh

theorem ofFileLine_spec (filename : Option String) (line : Int32) :
    Ends (fun _ => True) (ofFileLine filename line) fun r => Fresh r.1 := by
  rw [ofFileLine]
  split
  · exact (fresh_reset _).mergeLine_spec _
  · exact .pure (fresh_reset _)

theorem fromString_fresh (input : List Char) :
    Ends (fun _ => True) (fromString input) fun parsed => ∀ drv, parsed = .ok drv → Fresh drv := by
  rw [fromString]
  cases StoredDerivation.fromString input with
  | error access => exact .inl ⟨access, rfl, trivial⟩
  | ok parsed =>
    refine .inr ⟨_, rfl, fun drv read => ?_⟩
    cases parsed with
    | error => cases read
    | ok stored =>
      cases read
      exact fresh_reset _

/-- The text with the lines in order is as long. -/
theorem length_toString_sortLines (drv : LCFGDerivation) :
    (Derivation.toString (Derivation.sortLines drv)).length =
      (Derivation.toString drv).length := by
  have perm : (Derivation.sortLines drv).lines.Perm drv.lines := List.perm_insertionSort _ _
  rw [← computeLength_eq, ← computeLength_eq, computeLength, computeLength, perm.length_eq]
  by_cases none_ : drv.lines = []
  · rw [if_pos none_, if_pos (List.Perm.eq_nil (none_ ▸ perm))]
    rfl
  · have some_ : (Derivation.sortLines drv).lines ≠ [] := fun none' =>
      none_ (List.Perm.eq_nil (none' ▸ perm.symm))
    rw [if_neg none_, if_neg some_]
    apply perm.foldl_eq'
    intro line _ other _ len
    simp only [countDigits_eq _ _ _ (Nat.le_refl _)]
    omega

theorem Fresh.sortLines (fresh : Fresh drv) : Fresh drv.sortLines := by
  intro kept
  exact (fresh kept).trans (congrArg _ (length_toString_sortLines drv.toLCFGDerivation).symm)

theorem Fresh.getLength_spec (fresh : Fresh drv)
    (valid : Derivation.isValid drv.toLCFGDerivation = true) :
    drv.getLength.2 = (Derivation.toString drv.toLCFGDerivation).length ∧
      Fresh drv.getLength.1 ∧ drv.getLength.1.toStoredDerivation = drv.toStoredDerivation := by
  rw [getLength, valid, Bool.not_true, if_neg Bool.false_ne_true]
  split
  case isTrue kept => exact ⟨fresh kept, fresh, rfl⟩
  case isFalse =>
    refine ⟨?_, fun _ => ?_, rfl⟩
    · exact congrArg _ (computeLength_eq drv.toLCFGDerivation)
    · exact congrArg _ (computeLength_eq drv.toLCFGDerivation)

/-- The buffer is as long as the text which is written to it. -/
theorem Fresh.toString_spec (fresh : Fresh drv) (newline : Bool)
    (valid : Derivation.isValid drv.toLCFGDerivation = true) :
    drv.toString newline = .ok (drv.getLength.1,
      some (Derivation.toString drv.toLCFGDerivation ++ newlineText newline)) := by
  obtain ⟨length, -, same⟩ := fresh.getLength_spec valid
  have text : drv.getLength.1.toLCFGDerivation = drv.toLCFGDerivation := by
    rw [same]
  rw [CachedDerivation.toString, valid, Bool.not_true, if_neg Bool.false_ne_true]
  simp only [text, length, List.length_append, Int.toNat_natCast, if_true]

end CachedDerivation

end Lcfg
