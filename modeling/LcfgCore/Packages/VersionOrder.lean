import LcfgCore.Library.QSort
import LcfgCore.Packages.Package
import Mathlib.Data.List.Lex
import Mathlib.Data.Prod.Lex

/-!
# The order of packages

`lcfgpackage_compare` sorts packages by their names, then their architectures, then their
versions. This is an order, up to packages which compare equal, if the comparison of
version strings is one.

## Main results

`debvercmp_preorder`: the fallback comparison of version strings orders them.
`compare_preorder`: packages are ordered if version strings are.
-/
namespace Lcfg

namespace Version

/-- The sign of `r` says how `x` and `y` compare. -/
structure Decides {κ : Type} [LinearOrder κ] (r : Int) (x y : κ) : Prop where
  lt : r < 0 ↔ x < y
  gt : 0 < r ↔ y < x

namespace Decides

variable {κ μ : Type} [LinearOrder κ] [LinearOrder μ] {r : Int} {x y : κ} {u v : μ}

theorem refl (x : κ) : Decides 0 x x := ⟨by simp, by simp⟩

theorem sub (m n : Int) : Decides (m - n) m n := ⟨by omega, by omega⟩

theorem ne (decides : Decides r x y) (nonzero : r ≠ 0) : x ≠ y := by
  rintro rfl
  have lt := decides.lt
  have gt := decides.gt
  simp only [lt_irrefl, iff_false, not_lt] at lt gt
  omega

theorem eq (decides : Decides r x y) (zero : r = 0) : x = y := by
  have lt := decides.lt
  have gt := decides.gt
  simp only [zero, lt_irrefl, false_iff, not_lt] at lt gt
  exact le_antisymm gt lt

theorem pair_of_ne (decides : Decides r x y) (differ : x ≠ y) :
    Decides r (toLex (x, u)) (toLex (y, v)) where
  lt := by rw [decides.lt, Prod.Lex.toLex_lt_toLex]; simp [differ]
  gt := by rw [decides.gt, Prod.Lex.toLex_lt_toLex]; simp [differ.symm]

theorem pair_of_eq (decides : Decides r u v) : Decides r (toLex (x, u)) (toLex (x, v)) where
  lt := by rw [decides.lt, Prod.Lex.toLex_lt_toLex]; simp
  gt := by rw [decides.gt, Prod.Lex.toLex_lt_toLex]; simp

theorem cons_of_ne {xs ys : List κ} (decides : Decides r x y) (differ : x ≠ y) :
    Decides r (x :: xs) (y :: ys) where
  lt := by rw [decides.lt, List.cons_lt_cons_iff]; simp [differ]
  gt := by rw [decides.gt, List.cons_lt_cons_iff]; simp [differ.symm]

theorem cons_of_eq {xs ys : List κ} (decides : Decides r xs ys) :
    Decides r (x :: xs) (x :: ys) where
  lt := by rw [decides.lt, List.cons_lt_cons_iff]; simp
  gt := by rw [decides.gt, List.cons_lt_cons_iff]; simp

end Decides

/-- The weights of the leading characters that are not digits, and of what ends them. -/
def weights (text : List Char) : List Int := text.map order ++ [0]

/-- Numbers without leading zeros: the longer one is greater. -/
abbrev NumberKey := Lex (Nat × List Nat)

def numberKey (digits : List Char) : NumberKey := toLex (digits.length, digits.map Char.toNat)

/-- What is compared of a token. -/
def tokenKey (part : List Char × List Char) : Lex (List Int × NumberKey) :=
  toLex (weights part.1, numberKey part.2)

def keys (n : Nat) (s : List Char) : List (Lex (List Int × NumberKey)) := (tokens n s).map tokenKey

private theorem order_digit {c : Char} (digit : c.isDigit = true) : order c = 0 := by
  simp [order, digit]

private theorem weights_cons (c : Char) (s : List Char) :
    ∃ rest, weights ((c :: s).takeWhile (! ·.isDigit)) = order c :: rest ∧
      (c.isDigit = false → rest = weights (s.takeWhile (! ·.isDigit))) := by
  cases digit : c.isDigit with
  | true => exact ⟨[], by simp [weights, digit, order_digit digit], by simp⟩
  | false => exact ⟨_, by simp [weights, digit], fun _ => rfl⟩

/-- The difference which the walk over characters stops at decides. -/
theorem skipNonDigits_decides {a b : List Char} {r : Int} (stopped : skipNonDigits a b = .error r) :
    Decides r (weights (a.takeWhile (! ·.isDigit))) (weights (b.takeWhile (! ·.isDigit))) := by
  have first {x y : Int} {xs ys : List Int} (differ : x ≠ y) :
      Decides (x - y) (x :: xs) (y :: ys) := (Decides.sub x y).cons_of_ne differ
  induction a generalizing b with
  | nil =>
    cases b with
    | nil => cases stopped
    | cons y ys =>
      obtain ⟨rest, shown, -⟩ := weights_cons y ys
      cases digit : y.isDigit <;> simp only [skipNonDigits, digit, Bool.false_eq_true, if_false,
        if_true, Except.error.injEq, reduceCtorEq] at stopped
      rw [← stopped, shown]
      exact first (order_ne_zero y digit).symm
  | cons x xs ih =>
    obtain ⟨rest, shown, later⟩ := weights_cons x xs
    cases b with
    | nil =>
      cases digit : x.isDigit <;> simp only [skipNonDigits, digit, Bool.false_eq_true, if_false,
        if_true, Except.error.injEq, reduceCtorEq] at stopped
      rw [← stopped, shown]
      exact first (order_ne_zero x digit)
    | cons y ys =>
      obtain ⟨rest', shown', later'⟩ := weights_cons y ys
      rw [skipNonDigits] at stopped
      split at stopped
      · cases stopped
      case isFalse some_ =>
        split at stopped
        case isTrue differ =>
          rw [← Except.error.inj stopped, shown, shown']
          exact first differ
        case isFalse same =>
          -- neither is a digit: a digit has the weight 0, and nothing else has
          have same := not_not.mp same
          have plain : x.isDigit = false := by
            by_contra digit
            rw [Bool.not_eq_false] at digit
            cases digit' : y.isDigit with
            | true => simp [digit, digit'] at some_
            | false => exact order_ne_zero y digit' (same ▸ order_digit digit)
          have plain' : y.isDigit = false := by
            by_contra digit
            rw [Bool.not_eq_false] at digit
            exact order_ne_zero x plain (same.trans (order_digit digit))
          rw [shown, shown', later plain, later' plain', same]
          exact (ih stopped).cons_of_eq

/-- What the end of the walk over two numbers says. -/
def decideDigits (walked : Int × List Char × List Char) : Int :=
  if startsWithDigit walked.2.1 then 1
  else if startsWithDigit walked.2.2 then -1
  else walked.1

/-- A number under way: the first difference counts before the digits which follow. -/
private def walkKey (firstDiff : Int) (s : List Char) : Lex (Nat × Lex (Int × List Nat)) :=
  let digits := s.takeWhile Char.isDigit
  toLex (digits.length, toLex (firstDiff, digits.map Char.toNat))

private theorem walkKey_digit {f : Int} {c : Char} {s : List Char} (digit : c.isDigit = true) :
    walkKey f (c :: s) = toLex ((s.takeWhile Char.isDigit).length + 1,
      toLex (f, c.toNat :: (s.takeWhile Char.isDigit).map Char.toNat)) := by
  simp [walkKey, digit]

private theorem walkKey_none {f : Int} {s : List Char} (none_ : startsWithDigit s = false) :
    walkKey f s = toLex (0, toLex (f, [])) := by
  cases s with
  | nil => rfl
  | cons c rest =>
    have other : c.isDigit = false := by simpa [startsWithDigit] using none_
    simp [walkKey, other]

/-- One step of both walks: a difference which was found first is kept. -/
private theorem walkKey_step {f : Int} {x y : Nat} {m n : Nat} {xs ys : List Nat} :
    toLex (m, toLex (if f = 0 then (x : Int) - y else f, xs)) < toLex (n, toLex ((0 : Int), ys)) ↔
      toLex (m + 1, toLex (f, x :: xs)) < toLex (n + 1, toLex ((0 : Int), y :: ys)) := by
  simp only [Prod.Lex.toLex_lt_toLex, List.cons_lt_cons_iff, Nat.add_lt_add_iff_right,
    Nat.add_right_cancel_iff]
  grind

private theorem walkKey_step' {f : Int} {x y : Nat} {m n : Nat} {xs ys : List Nat} :
    toLex (n, toLex ((0 : Int), ys)) < toLex (m, toLex (if f = 0 then (x : Int) - y else f, xs)) ↔
      toLex (n + 1, toLex ((0 : Int), y :: ys)) < toLex (m + 1, toLex (f, x :: xs)) := by
  simp only [Prod.Lex.toLex_lt_toLex, List.cons_lt_cons_iff, Nat.add_lt_add_iff_right,
    Nat.add_right_cancel_iff]
  grind

private theorem skipDigits_walk (f : Int) (a b : List Char) :
    Decides (decideDigits (skipDigits f a b)) (walkKey f a) (walkKey 0 b) := by
  have ended {f : Int} {a b : List Char} (stops : skipDigits f a b = (f, a, b))
      (one : startsWithDigit a = false ∨ startsWithDigit b = false) :
      Decides (decideDigits (skipDigits f a b)) (walkKey f a) (walkKey 0 b) := by
    rw [stops, decideDigits]
    cases more : startsWithDigit a with
    | true =>
      obtain ⟨c, rest, rfl⟩ : ∃ c rest, a = c :: rest := by
        cases a with
        | nil => cases more
        | cons c rest => exact ⟨c, rest, rfl⟩
      rw [walkKey_digit (by simpa [startsWithDigit] using more),
        walkKey_none (one.resolve_left (by simp [more]))]
      exact ⟨by simp [Prod.Lex.toLex_lt_toLex], by simp [Prod.Lex.toLex_lt_toLex]⟩
    | false =>
      cases more' : startsWithDigit b with
      | true =>
        obtain ⟨c, rest, rfl⟩ : ∃ c rest, b = c :: rest := by
          cases b with
          | nil => cases more'
          | cons c rest => exact ⟨c, rest, rfl⟩
        rw [walkKey_digit (by simpa [startsWithDigit] using more'), walkKey_none more]
        exact ⟨by simp [Prod.Lex.toLex_lt_toLex], by simp [Prod.Lex.toLex_lt_toLex]⟩
      | false =>
        rw [walkKey_none more, walkKey_none more']
        exact ⟨by simp [Prod.Lex.toLex_lt_toLex], by simp [Prod.Lex.toLex_lt_toLex]⟩
  induction a generalizing b f with
  | nil => exact ended (by simp [skipDigits]) (Or.inl rfl)
  | cons x xs ih =>
    cases b with
    | nil => exact ended (by simp [skipDigits]) (Or.inr rfl)
    | cons y ys =>
      by_cases both : x.isDigit && y.isDigit
      · obtain ⟨dx, dy⟩ := Bool.and_eq_true_iff.mp both
        have next := ih (if f = 0 then (x.toNat : Int) - y.toNat else f) ys
        rw [skipDigits, if_pos both, walkKey_digit dx, walkKey_digit dy]
        exact ⟨next.lt.trans walkKey_step, next.gt.trans walkKey_step'⟩
      · refine ended (by rw [skipDigits, if_neg both]) ?_
        simpa [startsWithDigit, ← Bool.not_eq_true, imp_iff_not_or] using both

/-- The numbers decide by their lengths, then by their first difference. -/
theorem skipDigits_decides (a b : List Char) :
    Decides (decideDigits (skipDigits 0 a b)) (numberKey (a.takeWhile Char.isDigit))
      (numberKey (b.takeWhile Char.isDigit)) := by
  have walk := skipDigits_walk 0 a b
  exact ⟨by rw [walk.lt]; simp [walkKey, numberKey, Prod.Lex.toLex_lt_toLex],
    by rw [walk.gt]; simp [walkKey, numberKey, Prod.Lex.toLex_lt_toLex]⟩

/-- A round of the loop: the difference found, or what the next round is given. -/
private theorem debvercmpLoop_step (fuel : Nat) {a b : List Char} (some_ : ¬(a = [] ∧ b = []))
    (text : (token a).1 = (token b).1) :
    ∃ r, Decides r (numberKey (token a).2.1) (numberKey (token b).2.1) ∧
      debvercmpLoop (fuel + 1) a b =
        if r ≠ 0 then r else debvercmpLoop fuel (token a).2.2 (token b).2.2 := by
  simp only [debvercmpLoop, some_, if_false, skipNonDigits_ok a b text]
  generalize ha : a.dropWhile (! ·.isDigit) = a'
  generalize hb : b.dropWhile (! ·.isDigit) = b'
  have decides := skipDigits_decides (a'.dropWhile (· = '0')) (b'.dropWhile (· = '0'))
  have rest := skipDigits_rest 0 (a'.dropWhile (· = '0')) (b'.dropWhile (· = '0'))
  have agree := skipDigits_agree 0 (a'.dropWhile (· = '0')) (b'.dropWhile (· = '0'))
  simp only [true_and, takeWhile_dropWhile_zero, dropWhile_dropWhile_zero] at decides rest agree
  refine ⟨decideDigits (skipDigits 0 (a'.dropWhile (· = '0')) (b'.dropWhile (· = '0'))), ?_, ?_⟩
  · simpa only [token, ha, hb] using decides
  · simp only [token, ha, hb]
    generalize skipDigits 0 (a'.dropWhile (· = '0')) (b'.dropWhile (· = '0')) = walked at *
    obtain ⟨firstDiff, restA, restB⟩ := walked
    simp only [decideDigits]
    split
    · simp
    · split
      · simp
      · split
        case isTrue => rfl
        case isFalse noA noB same =>
          -- the numbers are the same, and the walk has passed them
          have number := agree.mp ⟨by simpa using noA, by simpa using noB, not_not.mp same⟩
          obtain ⟨rfl, rfl⟩ := Prod.mk.inj (rest number)
          rfl

/-- The loop compares the keys of the tokens, the first ones first. -/
theorem debvercmpLoop_decides (fuel : Nat) (a b : List Char) :
    Decides (debvercmpLoop fuel a b) (keys fuel a) (keys fuel b) := by
  induction fuel generalizing a b with
  | zero => exact Decides.refl []
  | succ fuel ih =>
    by_cases none_ : a = [] ∧ b = []
    · rw [none_.1, none_.2, debvercmpLoop, if_pos ⟨rfl, rfl⟩]
      exact Decides.refl _
    · simp only [keys, tokens, List.map_cons, tokenKey]
      by_cases text : (token a).1 = (token b).1
      · obtain ⟨r, decides, step⟩ := debvercmpLoop_step fuel none_ text
        rw [step, text]
        split
        case isTrue differ => exact decides.pair_of_eq.cons_of_ne (decides.pair_of_eq.ne differ)
        case isFalse same =>
          rw [decides.eq (not_not.mp same)]
          exact (ih _ _).cons_of_eq
      · obtain ⟨r, stopped, nonzero⟩ := skipNonDigits_error a b text
        have decides := skipNonDigits_decides stopped
        simp only [debvercmpLoop, none_, if_false, stopped]
        have pair := decides.pair_of_ne (decides.ne nonzero) (u := numberKey (token a).2.1)
          (v := numberKey (token b).2.1)
        exact pair.cons_of_ne (pair.ne nonzero)

/-- What follows two lists of one length does not matter. -/
private theorem append_lt_append_iff {κ : Type} [LinearOrder κ] {xs ys : List κ} (pad : List κ)
    (length : xs.length = ys.length) : xs ++ pad < ys ++ pad ↔ xs < ys := by
  induction xs generalizing ys with
  | nil =>
    rw [List.eq_nil_of_length_eq_zero length.symm]
    simp
  | cons x xs ih =>
    cases ys with
    | nil => cases length
    | cons y ys =>
      rw [List.cons_append, List.cons_append, List.cons_lt_cons_iff, List.cons_lt_cons_iff,
        ih (Nat.succ_inj.mp length)]

private theorem length_keys (n : Nat) (s : List Char) : (keys n s).length = n := by
  rw [keys, List.length_map]
  induction n generalizing s with
  | zero => rfl
  | succ n ih => rw [tokens, List.length_cons, ih]

/-- The number of tokens does not matter once it covers both versions. -/
private theorem keys_lt_iff {n m : Nat} {a b : List Char} (ha : a.length ≤ n) (hb : b.length ≤ n)
    (more : n ≤ m) : keys m a < keys m b ↔ keys n a < keys n b := by
  obtain ⟨k, rfl⟩ := Nat.exists_eq_add_of_le more
  have padded (s : List Char) (enough : s.length ≤ n) :
      keys (n + k) s = keys n s ++ (List.replicate k ([], [])).map tokenKey := by
    rw [keys, tokens_pad n k s enough, List.map_append, keys]
  rw [padded a ha, padded b hb, append_lt_append_iff _ (by rw [length_keys, length_keys])]

theorem debvercmp_decides (a b : String) (n : Nat)
    (enough : a.toList.length + b.toList.length ≤ n) :
    Decides (debvercmp a b) (keys n a.toList) (keys n b.toList) := by
  have decides := debvercmpLoop_decides (a.toList.length + b.toList.length) a.toList b.toList
  exact ⟨by rw [keys_lt_iff (by omega) (by omega) enough]; exact decides.lt,
    by rw [keys_lt_iff (by omega) (by omega) enough]; exact decides.gt⟩

/-- The fallback comparison orders version strings. -/
theorem debvercmp_preorder : QSort.Preorder debvercmp where
  swap a b := by
    have ab := debvercmp_decides a b _ le_rfl
    have ba := debvercmp_decides b a (a.toList.length + b.toList.length)
      (Nat.add_comm _ _).le
    rw [← not_lt, ← not_lt, ab.lt, ba.gt]
  trans a b c ab bc := by
    let n := a.toList.length + b.toList.length + c.toList.length
    have first := (debvercmp_decides a b n (by omega)).gt
    have second := (debvercmp_decides b c n (by omega)).gt
    rw [← not_lt, (debvercmp_decides a c n (by omega)).gt, not_lt]
    rw [← not_lt, first, not_lt] at ab
    rw [← not_lt, second, not_lt] at bc
    exact ab.trans bc

/-! ### Versions with wildcards, and releases -/

section Strings

variable {vercmp : VersionOrder} (lawful : QSort.Preorder vercmp)

/-- Empty, the wildcard, or another version. -/
private def rank (v : Option String) : Int :=
  if isEmpty v then 0 else if v.getD "" == wildcard then 1 else 2

private def rankKey (v : Option String) : String := if rank v = 2 then v.getD "" else ""

private theorem rank_cases (v : Option String) :
    (isEmpty v = true ∧ rank v = 0) ∨
      (isEmpty v = false ∧ v.getD "" = wildcard ∧ rank v = 1) ∨
      (isEmpty v = false ∧ v.getD "" ≠ wildcard ∧ rank v = 2) := by
  unfold rank
  by_cases none_ : isEmpty v = true
  · simp [none_]
  · rw [Bool.not_eq_true] at none_
    by_cases wild : v.getD "" = wildcard <;> simp [none_, wild]

include lawful

theorem compareVStrings_preorder : QSort.Preorder (compareVStrings vercmp) := by
  have self := lawful.self ""
  have ranks := (QSort.preorder_sub.comap rank).thenBy (lawful.comap rankKey)
  have same (v1 v2 : Option String) : compareVStrings vercmp v1 v2 =
      (if rank v1 - rank v2 = 0 then vercmp (rankKey v1) (rankKey v2)
        else rank v1 - rank v2).sign := by
    rcases rank_cases v1 with ⟨e1, r1⟩ | ⟨e1, w1, r1⟩ | ⟨e1, w1, r1⟩ <;>
      rcases rank_cases v2 with ⟨e2, r2⟩ | ⟨e2, w2, r2⟩ | ⟨e2, w2, r2⟩ <;>
      simp [compareVStrings, rankKey, *]
    any_goals rfl
    -- two versions which are neither empty nor the wildcard
    rcases lt_trichotomy (vercmp (v1.getD "") (v2.getD "")) 0 with less | tied | greater
    · rw [Int.sign_eq_neg_one_of_neg less, if_neg (by omega), if_pos less]
    · rw [tied]
      rfl
    · rw [Int.sign_eq_one_of_pos greater, if_pos greater]
  refine ranks.of_sign (fun v1 v2 => ?_) fun v1 v2 => ?_
  · rw [same, Int.sign_nonpos_iff]
  · rw [same, Int.sign_nonneg_iff]

end Strings

end Version

namespace Package

/-- `lcfgpackage_compare` -/
def compare (vercmp : VersionOrder) (pkg1 pkg2 : LCFGPackage) : Int :=
  let result := compareNames pkg1 pkg2
  let result := if result = 0 then compareArchs pkg1 pkg2 else result
  if result = 0 then compareVersions vercmp pkg1 pkg2 else result

section Order

variable {vercmp : VersionOrder} (lawful : QSort.Preorder vercmp)
include lawful

/-- First the epochs, then the versions behind them, then the releases. -/
theorem compareVersions_preorder : QSort.Preorder (compareVersions vercmp) := by
  have strings := Version.compareVStrings_preorder lawful
  have epochs := QSort.preorder_sub.comap fun pkg : LCFGPackage =>
    ((splitEpoch pkg.version).1 : Int)
  have versions := (strings.comap fun pkg : LCFGPackage => (splitEpoch pkg.version).2).thenBy
    (strings.comap LCFGPackage.release)
  refine (epochs.thenBy versions).of_sign (fun pkg1 pkg2 => ?_) fun pkg1 pkg2 => ?_
  all_goals
    simp only [compareVersions]
    rcases Nat.lt_trichotomy (splitEpoch pkg1.version).1 (splitEpoch pkg2.version).1 with
      less | tied | greater
    · rw [if_neg (by omega), if_pos less, if_neg (by omega)]
      omega
    · have zero : ((splitEpoch pkg1.version).1 : Int) - (splitEpoch pkg2.version).1 = 0 := by omega
      rw [if_neg (by omega), if_neg (by omega), zero]
      rfl
    · rw [if_pos greater, if_neg (by omega)]
      omega

theorem compare_preorder : QSort.Preorder (compare vercmp) := by
  have names : QSort.Preorder compareNames :=
    strcasecmp_preorder.comap fun pkg : LCFGPackage => orDefault pkg.name ""
  have archs : QSort.Preorder compareArchs :=
    strcmp_preorder.comap fun pkg : LCFGPackage => orDefault pkg.arch ""
  exact (names.thenBy archs).thenBy (compareVersions_preorder lawful)

end Order

/-- Without rpmlib versions are compared with `debvercmp`: this is a total order of all
packages, up to those which compare equal. -/
theorem compareVersions_debvercmp :
    (∀ pkg, compareVersions Version.debvercmp pkg pkg = 0) ∧
    (∀ pkg1 pkg2, (compareVersions Version.debvercmp pkg1 pkg2).sign =
      -(compareVersions Version.debvercmp pkg2 pkg1).sign) ∧
    ∀ pkg1 pkg2 pkg3, compareVersions Version.debvercmp pkg1 pkg2 ≤ 0 →
      compareVersions Version.debvercmp pkg2 pkg3 ≤ 0 →
        compareVersions Version.debvercmp pkg1 pkg3 ≤ 0 := by
  have preorder := compareVersions_preorder Version.debvercmp_preorder
  exact ⟨preorder.self, preorder.sign_eq, preorder.trans⟩

end Package

end Lcfg
