import LcfgCore.Common
import LcfgCore.Library.Buffer
import LcfgCore.Library.Pieces

/-!
# Splitting a string

The pieces are counted first, for the size of the array, and cut afterwards. The count is an
`unsigned int` (`utils/utils.c`).

## Main result

`stringSplit_iff`: the array has the pieces and a NULL behind them, if the count is not cut
below the limit.
-/
namespace Lcfg.Utils

/-- A write behind the array. -/
inductive SplitFault
  | outOfBounds
deriving DecidableEq, Repr

/-- The limit on the pieces, with `INT_MAX` for zero. -/
def tokenLimit (maxTokens : UInt32) : Nat :=
  if maxTokens = 0 then 2 ^ 31 - 1 else maxTokens.toNat

/-- The loop which counts the pieces, at most `fuel` times. -/
def countTokens (delimiter : List Char) : Nat → Nat → List Char → Nat
  | 0, count, _ => count
  | fuel + 1, count, ptr =>
    match Substring.find delimiter ptr with
    | none => count
    | some found =>
      let ptr := ptr.drop (found + delimiter.length)
      countTokens delimiter fuel (if ptr ≠ [] then (count + 1) % 2 ^ 32 else count) ptr

/-- A piece is written to the array. -/
def putToken (result : List (Option (List Char))) (n : Nat) (piece : List Char) :
    Except SplitFault (List (Option (List Char))) :=
  if n < result.length then .ok (result.set n (some piece)) else .error .outOfBounds

/-- The loop which cuts the pieces, at most `fuel` times: the array, the next index and what is
left of the string. -/
def cutTokens (delimiter : List Char) (maxTokens : Nat) :
    Nat → List (Option (List Char)) → Nat → List Char →
      Except SplitFault (List (Option (List Char)) × Nat × List Char)
  | 0, result, n, remainder => .ok (result, n, remainder)
  | fuel + 1, result, n, remainder =>
    if n + 1 < maxTokens then
      match Substring.find delimiter remainder with
      | none => .ok (result, n, remainder)
      | some found => (putToken result n (remainder.take found)).bind fun result =>
        cutTokens delimiter maxTokens fuel result (n + 1)
          (remainder.drop (found + delimiter.length))
    else .ok (result, n, remainder)

/-- What is left of the string becomes the last piece. -/
def putRemainder : List (Option (List Char)) × Nat × List Char →
    Except SplitFault (List (Option (List Char)))
  | (result, n, remainder) => if remainder ≠ [] then putToken result n remainder else .ok result

/-- `lcfgutils_string_split`: the array, none for an empty string. The delimiter must not be
empty, otherwise the loops do not end. -/
def stringSplit (string : Option String) (delimiter : String) (maxTokens : UInt32) :
    Except SplitFault (Option (List (Option (List Char)))) :=
  if isEmpty string then .ok none
  else
    let string := (string.getD "").toList
    let maxTokens := tokenLimit maxTokens
    let count := countTokens delimiter.toList string.length 1 string
    let size := (if maxTokens < count then maxTokens else count) + 1
    ((cutTokens delimiter.toList maxTokens string.length (List.replicate size none) 0 string).bind
      putRemainder).map some

/-! ## The loops -/

section Loops

variable {delimiter text : List Char} (some_ : delimiter ≠ [])
include some_

/-- The count is that of the pieces, as far as it is not cut. -/
theorem countTokens_eq {fuel count : Nat} (small : count < 2 ^ 32) (enough : text.length ≤ fuel) :
    countTokens delimiter fuel count text =
      (count + ((Substring.pieces delimiter fuel text).length - 1)) % 2 ^ 32 := by
  have uncut (text : List Char) : (if text = [] then [] else [text]).length - 1 = 0 := by
    split <;> rfl
  induction fuel generalizing text count with
  | zero =>
    rw [countTokens, Substring.pieces, uncut, Nat.add_zero, Nat.mod_eq_of_lt small]
  | succ fuel ih =>
    rw [countTokens]
    cases found : Substring.find delimiter text with
    | none =>
      rw [Substring.pieces_of_none found, uncut, Nat.add_zero]
      exact (Nat.mod_eq_of_lt small).symm
    | some p =>
      have shorter := Substring.length_drop_lt some_ found
      rw [Substring.pieces_of_some found, List.length_cons, Nat.add_sub_cancel]
      dsimp only
      by_cases last : text.drop (p + delimiter.length) = []
      · rw [if_neg (not_not_intro last), ih small (by omega), last,
          (Substring.pieces_eq_nil_iff some_).mpr rfl]
        rfl
      · have more : 0 < (Substring.pieces delimiter fuel
            (text.drop (p + delimiter.length))).length :=
          List.length_pos_iff.mpr fun nothing => last ((Substring.pieces_eq_nil_iff some_).mp nothing)
        rw [if_pos last, ih (Nat.mod_lt _ (by decide)) (by omega), Nat.mod_add_mod]
        congr 1
        omega

end Loops

/-- The pieces are written one after another. -/
def putTokens (result : List (Option (List Char))) (n : Nat) :
    List (List Char) → Except SplitFault (List (Option (List Char)))
  | [] => .ok result
  | piece :: rest => (putToken result n piece).bind fun result => putTokens result (n + 1) rest

theorem putTokens_eq (pieces : List (List Char)) {result : List (Option (List Char))} {n : Nat}
    (inside : n ≤ result.length) :
    putTokens result n pieces =
      if n + pieces.length ≤ result.length then .ok (Buffer.write result n (pieces.map some))
      else .error .outOfBounds := by
  induction pieces generalizing result n with
  | nil =>
    rw [List.length_nil, Nat.add_zero, if_pos inside]
    rfl
  | cons piece rest ih =>
    rw [putTokens, putToken]
    by_cases free : n < result.length
    · rw [if_pos free]
      change putTokens (result.set n (some piece)) (n + 1) rest = _
      rw [ih (by rw [List.length_set]; exact free), List.length_set, List.length_cons,
        Nat.add_right_comm n 1, Nat.add_assoc n]
      rfl
    · rw [if_neg free, List.length_cons, if_neg (by omega)]
      rfl

section Loops

variable {delimiter text : List Char} (some_ : delimiter ≠ [])
include some_

theorem cutTokens_eq {fuel maxTokens n : Nat} (below : n < maxTokens) (enough : text.length ≤ fuel)
    (result : List (Option (List Char))) :
    (cutTokens delimiter maxTokens fuel result n text).bind putRemainder =
      putTokens result n (Substring.pieces delimiter (maxTokens - 1 - n) text) := by
  -- without another cut, the rest of the string is the last piece
  have uncut (result : List (Option (List Char))) (n : Nat) (text : List Char) :
      putRemainder (result, n, text) =
        putTokens result n (if text = [] then [] else [text]) := by
    rw [putRemainder]
    by_cases empty : text = []
    · rw [if_neg (not_not_intro empty), if_pos empty]
      rfl
    · rw [if_pos empty, if_neg empty, putTokens]
      cases putToken result n text <;> rfl
  induction fuel generalizing text n result with
  | zero =>
    obtain rfl := List.eq_nil_of_length_eq_zero (Nat.le_zero.mp enough)
    rw [(Substring.pieces_eq_nil_iff some_).mpr rfl]
    exact uncut result n []
  | succ fuel ih =>
    rw [cutTokens]
    by_cases more : n + 1 < maxTokens
    · obtain ⟨k, left⟩ : ∃ k, maxTokens - 1 - n = k + 1 := ⟨maxTokens - 2 - n, by omega⟩
      rw [if_pos more, left]
      cases found : Substring.find delimiter text with
      | none =>
        rw [Substring.pieces_of_none found]
        exact uncut result n text
      | some p =>
        have shorter := Substring.length_drop_lt some_ found
        rw [Substring.pieces_of_some found, putTokens]
        dsimp only
        cases stored : putToken result n (text.take p) with
        | error fault => rfl
        | ok result =>
          have enough' : (text.drop (p + delimiter.length)).length ≤ fuel := by omega
          have rest := ih more enough' result
          rw [show maxTokens - 1 - (n + 1) = k by omega] at rest
          exact rest
    · rw [if_neg more, show maxTokens - 1 - n = 0 by omega]
      exact uncut result n text

end Loops

/-! ## The array -/

/-- The number of pieces without a limit. -/
def tokenCount (string delimiter : String) : Nat :=
  (Substring.pieces delimiter.toList string.toList.length string.toList).length

/-- The array holds pieces with a NULL behind them; they are the string up to a final
delimiter, and only the last one may have the delimiter in it. -/
def Splits (string delimiter : String) (maxTokens : UInt32) : Prop :=
  ∃ pieces rest,
    stringSplit (some string) delimiter maxTokens = .ok (some (pieces.map some ++ none :: rest)) ∧
    (string.toList = delimiter.toList.intercalate pieces ∨
      string.toList = delimiter.toList.intercalate pieces ++ delimiter.toList) ∧
    (maxTokens ≠ 0 → pieces.length ≤ maxTokens.toNat) ∧
    ∀ piece ∈ pieces.dropLast, ¬ delimiter.toList <:+: piece

theorem tokenLimit_pos (maxTokens : UInt32) :
    0 < tokenLimit maxTokens ∧ tokenLimit maxTokens < 2 ^ 32 := by
  rw [tokenLimit]
  split
  case isTrue => decide
  case isFalse given =>
    refine ⟨Nat.pos_of_ne_zero fun zero => given ?_, maxTokens.toNat_lt⟩
    exact UInt32.toNat_inj.mp zero

/-- An array which is longer than what is written to it ends with NULLs. -/
theorem write_replicate {pieces : List (List Char)} {size : Nat} (fits : pieces.length ≤ size) :
    Buffer.write (List.replicate size none) 0 (pieces.map some) =
      pieces.map some ++ List.replicate (size - pieces.length) none := by
  have room : 0 + (pieces.map some).length ≤ (List.replicate size (none : Option (List Char))).length := by
    rw [List.length_map, List.length_replicate, Nat.zero_add]
    exact fits
  rw [Buffer.write_eq _ _ _ room, List.take_zero, List.nil_append, Nat.zero_add, List.drop_replicate,
    List.length_map]

section Split

variable {string delimiter : String} (some_ : string ≠ "") (delimits : delimiter ≠ "")
include some_ delimits

theorem tokenCount_pos : 0 < tokenCount string delimiter := by
  have delimits' : delimiter.toList ≠ [] := fun empty => delimits (String.toList_eq_nil_iff.mp empty)
  rw [tokenCount, List.length_pos_iff]
  intro nothing
  have empty := (Substring.pieces_eq_nil_iff delimits').mp nothing
  exact some_ (String.toList_eq_nil_iff.mp empty)

/-- The pieces are put into an array whose size is that of the count which has been cut. -/
theorem stringSplit_eq (maxTokens : UInt32) :
    let pieces := Substring.pieces delimiter.toList (tokenLimit maxTokens - 1) string.toList
    let size := min (tokenLimit maxTokens) (tokenCount string delimiter % 2 ^ 32) + 1
    pieces.length = min (tokenLimit maxTokens) (tokenCount string delimiter) ∧
      stringSplit (some string) delimiter maxTokens =
        if pieces.length ≤ size then
          .ok (some (Buffer.write (List.replicate size none) 0 (pieces.map some)))
        else .error .outOfBounds := by
  have delimits' : delimiter.toList ≠ [] := fun empty => delimits (String.toList_eq_nil_iff.mp empty)
  have given : isEmpty (some string) = false := by simp [isEmpty, some_]
  obtain ⟨pos, -⟩ := tokenLimit_pos maxTokens
  have count : countTokens delimiter.toList string.toList.length 1 string.toList =
      tokenCount string delimiter % 2 ^ 32 := by
    have many := tokenCount_pos some_ delimits
    rw [countTokens_eq delimits' (by decide) (Nat.le_refl _)]
    rw [tokenCount] at many ⊢
    rw [Nat.add_sub_cancel' many]
  have length := Substring.length_pieces delimits' (Nat.le_refl string.toList.length)
    (tokenLimit maxTokens - 1)
  rw [Nat.sub_add_cancel pos] at length
  refine ⟨length, ?_⟩
  have least (m n : Nat) : (if m < n then m else n) = min m n := by
    split <;> omega
  rw [stringSplit, given, if_neg Bool.false_ne_true]
  dsimp only [Option.getD_some]
  rw [count, least, cutTokens_eq delimits' pos (Nat.le_refl _), Nat.sub_zero,
    putTokens_eq _ (Nat.zero_le _), List.length_replicate, Nat.zero_add]
  split <;> rfl

/-- There is room for the pieces and a NULL. -/
theorem splits_iff_room (maxTokens : UInt32) :
    Splits string delimiter maxTokens ↔
      min (tokenLimit maxTokens) (tokenCount string delimiter) ≤
        min (tokenLimit maxTokens) (tokenCount string delimiter % 2 ^ 32) := by
  have delimits' : delimiter.toList ≠ [] := fun empty => delimits (String.toList_eq_nil_iff.mp empty)
  obtain ⟨length, result⟩ := stringSplit_eq some_ delimits maxTokens
  have joined := Substring.intercalate_pieces delimits' (tokenLimit maxTokens - 1) string.toList
  have free := fun piece => @Substring.free_of_mem_dropLast _ _ delimiter.toList string.toList
    (tokenLimit maxTokens - 1) delimits' piece
  generalize Substring.pieces delimiter.toList (tokenLimit maxTokens - 1) string.toList = pieces
    at length result joined free
  rw [← length]
  constructor
  · rintro ⟨pieces', rest, array, -⟩
    rw [result] at array
    split at array
    case isFalse => cases array
    case isTrue fits =>
      have same := Option.some.inj (Except.ok.inj array)
      rw [write_replicate fits] at same
      have ends : pieces.length ≠
          min (tokenLimit maxTokens) (tokenCount string delimiter % 2 ^ 32) + 1 := by
        intro full
        rw [full, Nat.sub_self, List.replicate_zero, List.append_nil] at same
        have null : none ∈ pieces.map some := by
          rw [same]
          simp
        obtain ⟨_, -, absurd_⟩ := List.mem_map.mp null
        cases absurd_
      omega
  · intro room
    have fits := Nat.le_succ_of_le room
    obtain ⟨left, behind⟩ : ∃ left,
        min (tokenLimit maxTokens) (tokenCount string delimiter % 2 ^ 32) + 1 - pieces.length =
          left + 1 :=
      Nat.exists_eq_add_one_of_ne_zero (by omega)
    refine ⟨pieces, List.replicate left none, ?_, joined, ?_, free⟩
    · rw [result, if_pos fits, write_replicate fits, behind, List.replicate_succ]
    · intro given
      rw [tokenLimit, if_neg given] at length
      omega

end Split

/-- There is a piece for each comma and one behind the last comma. -/
theorem length_pieces_commas (n : Nat) {fuel : Nat} (enough : n ≤ fuel) :
    (Substring.pieces [','] fuel (List.replicate n ',' ++ ['a'])).length = n + 1 := by
  induction n generalizing fuel with
  | zero =>
    rw [Substring.pieces_of_none (by decide)]
    rfl
  | succ n ih =>
    obtain ⟨fuel, rfl⟩ : ∃ m, fuel = m + 1 := ⟨fuel - 1, by omega⟩
    have found : Substring.find [','] (List.replicate (n + 1) ',' ++ ['a']) = some 0 :=
      Substring.find_append_right [','] (List.replicate n ',' ++ ['a'])
    rw [Substring.pieces_of_some found, List.length_cons]
    exact congrArg Nat.succ (ih (by omega))

theorem exists_tokenCount (n : Nat) :
    ∃ string : String, string ≠ "" ∧ tokenCount string "," = n + 1 := by
  refine ⟨String.ofList (List.replicate n ',' ++ ['a']), ?_, ?_⟩
  · intro empty
    rw [← String.toList_eq_nil_iff, String.toList_ofList] at empty
    exact List.append_ne_nil_of_right_ne_nil _ (List.cons_ne_nil 'a' []) empty
  · have comma : ",".toList = [','] := by decide
    have enough : n ≤ (List.replicate n ',' ++ ['a']).length := by
      rw [List.length_append, List.length_replicate]
      exact Nat.le_add_right n _
    rw [tokenCount, comma, String.toList_ofList]
    exact length_pieces_commas n enough

end Lcfg.Utils
