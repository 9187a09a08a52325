import LcfgCore.Common

/-!
# Comparing package versions

The fallback comparison of `packages/package.c`, taken over from dpkg, and the
treatment of epochs, empty and wildcard versions. A build with rpmlib calls
`rpmvercmp` in the place of `debvercmp`, so the comparison of two plain version
strings is a parameter of everything above it.

## Main result

`debvercmp_equivalence`: comparing as equal is an equivalence of version strings.
-/
namespace Lcfg

/-- Compares two version strings: `debvercmp`, or `rpmvercmp` where rpmlib is there. -/
abbrev VersionOrder := String → String → Int

namespace Version

/-- The weight of a character in a part of a version that is not a number. -/
def order (c : Char) : Int :=
  if c.isDigit then 0
  else if c.isAlpha then c.toNat
  else if c = '~' then -1
  else c.toNat + 256

/-- Walk over the parts that are not numbers. The end of a string has weight 0,
as a digit has. The result is the difference found, or what is left of both. -/
def skipNonDigits : List Char → List Char → Except Int (List Char × List Char)
  | [], [] => .ok ([], [])
  | [], b :: bs => if b.isDigit then .ok ([], b :: bs) else .error (0 - order b)
  | a :: as, [] => if a.isDigit then .ok (a :: as, []) else .error (order a - 0)
  | a :: as, b :: bs =>
    if a.isDigit && b.isDigit then .ok (a :: as, b :: bs)
    else if order a ≠ order b then .error (order a - order b)
    else skipNonDigits as bs

/-- Walk over two numbers in step, keeping the first difference. -/
def skipDigits (firstDiff : Int) : List Char → List Char → Int × List Char × List Char
  | a :: as, b :: bs =>
    if a.isDigit && b.isDigit then
      skipDigits (if firstDiff = 0 then (a.toNat : Int) - b.toNat else firstDiff) as bs
    else (firstDiff, a :: as, b :: bs)
  | as, bs => (firstDiff, as, bs)

def startsWithDigit (s : List Char) : Bool := s.head?.any Char.isDigit

/-- `debvercmp`, at most `fuel` rounds of its outer loop. -/
def debvercmpLoop : Nat → List Char → List Char → Int
  | 0, _, _ => 0
  | fuel + 1, a, b =>
    if a = [] ∧ b = [] then 0
    else
      match skipNonDigits a b with
      | .error result => result
      | .ok (a, b) =>
        match skipDigits 0 (a.dropWhile (· = '0')) (b.dropWhile (· = '0')) with
        | (firstDiff, a, b) =>
          if startsWithDigit a then 1
          else if startsWithDigit b then -1
          else if firstDiff ≠ 0 then firstDiff
          else debvercmpLoop fuel a b

/-- Each round consumes a character, so the lengths bound the number of rounds. -/
def debvercmp : VersionOrder := fun a b =>
  debvercmpLoop (a.toList.length + b.toList.length) a.toList b.toList

def isSpace (c : Char) : Bool :=
  c = ' ' || c = '\t' || c = '\n' || c = '\x0b' || c = '\x0c' || c = '\r'

/-- `strtoul` in base 10 with 64-bit results: the value and what follows the
number, or `none` when there is no number to convert. -/
def strtoul (s : List Char) : Option (Nat × List Char) :=
  let s := s.dropWhile isSpace
  let (negative, s) :=
    match s with
    | '-' :: rest => (true, rest)
    | '+' :: rest => (false, rest)
    | _ => (false, s)
  let digits := s.takeWhile Char.isDigit
  if digits = [] then none
  else
    let value := digits.foldl (fun n c => 10 * n + (c.toNat - '0'.toNat)) 0
    let rest := s.dropWhile Char.isDigit
    if 2 ^ 64 ≤ value then some (2 ^ 64 - 1, rest)
    else if negative then some ((2 ^ 64 - value) % 2 ^ 64, rest)
    else some (value, rest)

/-- The epoch and the version behind it. A number is an epoch only before a colon. -/
def extractEpoch (version : String) : Nat × String :=
  match strtoul version.toList with
  | some (epoch, ':' :: rest) => (epoch, String.ofList rest)
  | _ => (0, version)

/-- `LCFG_PKG_WILDCARD`. -/
def wildcard : String := "*"

/-- Empty is less than everything else, and the wildcard less than any other version. -/
def compareVStrings (vercmp : VersionOrder) (v1 v2 : Option String) : Int :=
  let result : Int :=
    if isEmpty v1 || isEmpty v2 then
      if isEmpty v1 then (if isEmpty v2 then 0 else -1) else 1
    else
      let s1 := v1.getD ""
      let s2 := v2.getD ""
      if s1 == wildcard || s2 == wildcard then
        if s1 == wildcard then (if s2 == wildcard then 0 else -1) else 1
      else vercmp s1 s2
  if result > 0 then 1 else if result < 0 then -1 else 0

/-! ### Versions which compare as equal -/

/-- The three ranges of weights do not meet. -/
private theorem order_cases (c : Char) (other : c.isDigit = false) :
    (order c = c.toNat ∧ 0 < c.toNat ∧ c.toNat < 256) ∨ (order c = -1 ∧ c = '~') ∨
      order c = c.toNat + 256 := by
  unfold order
  simp only [other, Bool.false_eq_true, if_false]
  by_cases alpha : c.isAlpha = true
  · left
    have range := alpha
    unfold Char.isAlpha Char.isUpper Char.isLower at range
    simp only [Bool.or_eq_true, Bool.and_eq_true, decide_eq_true_eq, UInt32.le_iff_toNat_le,
      ge_iff_le] at range
    change (65 ≤ c.toNat ∧ c.toNat ≤ 90) ∨ (97 ≤ c.toNat ∧ c.toNat ≤ 122) at range
    simp only [alpha, if_true, true_and]
    omega
  · simp only [alpha, Bool.false_eq_true, if_false]
    by_cases tilde : c = '~'
    · exact Or.inr (Or.inl ⟨by simp [tilde], tilde⟩)
    · exact Or.inr (Or.inr (by simp [tilde]))

theorem order_ne_zero (c : Char) (other : c.isDigit = false) : order c ≠ 0 := by
  rcases order_cases c other with h | h | h <;> omega

private theorem order_injective (a b : Char) (ha : a.isDigit = false) (hb : b.isDigit = false)
    (same : order a = order b) : a = b := by
  have code : a.toNat = b.toNat → a = b := fun h => by
    rw [← Char.ofNat_toNat a, h, Char.ofNat_toNat]
  rcases order_cases a ha with ⟨h, _⟩ | ⟨h, tilde⟩ | h <;>
    rcases order_cases b hb with ⟨h', _⟩ | ⟨h', tilde'⟩ | h'
  case inr.inl.inr.inl => exact tilde.trans tilde'.symm
  all_goals exact code (by omega)

/-- The leading characters that are not digits, the number behind them without
its leading zeros, and the rest. -/
def token (s : List Char) : List Char × List Char × List Char :=
  let behind := s.dropWhile (! ·.isDigit)
  (s.takeWhile (! ·.isDigit), (behind.takeWhile Char.isDigit).dropWhile (· = '0'),
    behind.dropWhile Char.isDigit)

/-- The first `n` tokens of a version, padded with empty ones. -/
def tokens : Nat → List Char → List (List Char × List Char)
  | 0, _ => []
  | n + 1, s => ((token s).1, (token s).2.1) :: tokens n (token s).2.2

theorem skipNonDigits_ok (a b : List Char)
    (same : a.takeWhile (! ·.isDigit) = b.takeWhile (! ·.isDigit)) :
    skipNonDigits a b = .ok (a.dropWhile (! ·.isDigit), b.dropWhile (! ·.isDigit)) := by
  induction a generalizing b with
  | nil =>
    cases b with
    | nil => rfl
    | cons y ys => cases digit : y.isDigit <;> simp_all [skipNonDigits]
  | cons x xs ih =>
    cases b with
    | nil => cases digit : x.isDigit <;> simp_all [skipNonDigits]
    | cons y ys =>
      cases dx : x.isDigit <;> cases dy : y.isDigit <;> simp_all [skipNonDigits]

theorem skipNonDigits_error (a b : List Char)
    (differ : a.takeWhile (! ·.isDigit) ≠ b.takeWhile (! ·.isDigit)) :
    ∃ r, skipNonDigits a b = .error r ∧ r ≠ 0 := by
  induction a generalizing b with
  | nil =>
    cases b with
    | nil => exact absurd rfl differ
    | cons y ys =>
      cases digit : y.isDigit with
      | true => simp [digit] at differ
      | false =>
        have weight := order_ne_zero y digit
        exact ⟨0 - order y, by simp [skipNonDigits, digit], by omega⟩
  | cons x xs ih =>
    cases b with
    | nil =>
      cases digit : x.isDigit with
      | true => simp [digit] at differ
      | false =>
        have weight := order_ne_zero x digit
        exact ⟨order x - 0, by simp [skipNonDigits, digit], by omega⟩
    | cons y ys =>
      -- a digit ends the text, and weighs as much as its end
      cases dx : x.isDigit <;> cases dy : y.isDigit
      case true.true => simp [dx, dy] at differ
      case false.false =>
        by_cases same : order x = order y
        · have equal := order_injective x y dx dy same
          subst equal
          simp only [List.takeWhile_cons, dx, Bool.not_false, if_true, ne_eq, List.cons.injEq,
            true_and] at differ
          simpa [skipNonDigits, dx] using ih ys differ
        · exact ⟨order x - order y, by simp [skipNonDigits, dx, same], by omega⟩
      case false.true =>
        have zero : order y = 0 := by simp [order, dy]
        have weight := order_ne_zero x dx
        exact ⟨order x - order y, by simp [skipNonDigits, dx, zero, weight], by omega⟩
      case true.false =>
        have zero : order x = 0 := by simp [order, dx]
        have weight := order_ne_zero y dy
        exact ⟨order x - order y, by simp [skipNonDigits, dy, zero, weight.symm], by omega⟩

/-- Two numbers agree when the walk ends with neither a rest of digits nor a difference. -/
theorem skipDigits_agree (firstDiff : Int) (a b : List Char) :
    (startsWithDigit (skipDigits firstDiff a b).2.1 = false ∧
      startsWithDigit (skipDigits firstDiff a b).2.2 = false ∧ (skipDigits firstDiff a b).1 = 0) ↔
    firstDiff = 0 ∧ a.takeWhile Char.isDigit = b.takeWhile Char.isDigit := by
  induction a generalizing b firstDiff with
  | nil =>
    cases b with
    | nil => simp [skipDigits, startsWithDigit]
    | cons y ys =>
      cases digit : y.isDigit <;> simp [skipDigits, startsWithDigit, digit]
  | cons x xs ih =>
    cases b with
    | nil => cases digit : x.isDigit <;> simp [skipDigits, startsWithDigit, digit]
    | cons y ys =>
      cases dx : x.isDigit <;> cases dy : y.isDigit
      case true.true =>
        simp only [skipDigits, dx, dy, Bool.and_self, if_true, ih, List.takeWhile_cons,
          List.cons.injEq]
        have code : x = y ↔ (x.toNat : Int) - y.toNat = 0 := by
          constructor
          · rintro rfl
            omega
          · intro zero
            rw [← Char.ofNat_toNat x, show x.toNat = y.toNat by omega, Char.ofNat_toNat]
        by_cases first : firstDiff = 0
        · simp [first, code]
        · simp [first]
      all_goals simp [skipDigits, startsWithDigit, dx, dy]

/-- What the walk over equal numbers leaves. -/
theorem skipDigits_rest (firstDiff : Int) (a b : List Char)
    (same : a.takeWhile Char.isDigit = b.takeWhile Char.isDigit) :
    (skipDigits firstDiff a b).2 = (a.dropWhile Char.isDigit, b.dropWhile Char.isDigit) := by
  induction a generalizing b firstDiff with
  | nil =>
    cases b with
    | nil => rfl
    | cons y ys => cases digit : y.isDigit <;> simp_all [skipDigits]
  | cons x xs ih =>
    cases b with
    | nil => cases digit : x.isDigit <;> simp_all [skipDigits]
    | cons y ys => cases dx : x.isDigit <;> cases dy : y.isDigit <;> simp_all [skipDigits]

theorem takeWhile_dropWhile_zero (s : List Char) :
    (s.dropWhile (· = '0')).takeWhile Char.isDigit =
      (s.takeWhile Char.isDigit).dropWhile (· = '0') := by
  induction s with
  | nil => rfl
  | cons c cs ih =>
    by_cases zero : c = '0'
    · subst c
      simpa [show '0'.isDigit = true from rfl] using ih
    · cases digit : c.isDigit <;> simp [zero, digit]

theorem dropWhile_dropWhile_zero (s : List Char) :
    (s.dropWhile (· = '0')).dropWhile Char.isDigit = s.dropWhile Char.isDigit := by
  induction s with
  | nil => rfl
  | cons c cs ih =>
    by_cases zero : c = '0'
    · subst c
      simpa [show '0'.isDigit = true from rfl] using ih
    · simp [zero]

/-- The loop compares the versions token by token. -/
theorem debvercmpLoop_eq_zero (fuel : Nat) (a b : List Char) :
    debvercmpLoop fuel a b = 0 ↔ tokens fuel a = tokens fuel b := by
  induction fuel generalizing a b with
  | zero => simp [debvercmpLoop, tokens]
  | succ fuel ih =>
    simp only [debvercmpLoop, tokens]
    split
    next none => simp [none.1, none.2]
    next =>
      -- the texts before the number are the same, and the numbers decide
      by_cases text : a.takeWhile (! ·.isDigit) = b.takeWhile (! ·.isDigit)
      · rw [skipNonDigits_ok a b text]
        generalize ha : a.dropWhile (! ·.isDigit) = a'
        generalize hb : b.dropWhile (! ·.isDigit) = b'
        have agree := skipDigits_agree 0 (a'.dropWhile (· = '0')) (b'.dropWhile (· = '0'))
        have rest := skipDigits_rest 0 (a'.dropWhile (· = '0')) (b'.dropWhile (· = '0'))
        simp only [true_and, takeWhile_dropWhile_zero, dropWhile_dropWhile_zero] at agree rest
        simp only [token, ha, hb, text, List.cons.injEq, Prod.mk.injEq, true_and]
        by_cases number : (a'.takeWhile Char.isDigit).dropWhile (· = '0') =
            (b'.takeWhile Char.isDigit).dropWhile (· = '0')
        · obtain ⟨noA, noB, noDiff⟩ := agree.mpr number
          rw [rest number] at noA noB
          simp only [rest number, noA, noB, noDiff, number, Bool.false_eq_true, if_false, ne_eq,
            not_true_eq_false, true_and, ih]
        -- the numbers differ in length or in a digit
        · simp only [number, false_and, iff_false]
          intro zero
          apply number
          apply agree.mp
          split at zero
          · omega
          · split at zero
            · omega
            · split at zero
              · exact absurd zero ‹_›
              · simp_all
      · obtain ⟨r, stopped, nonzero⟩ := skipNonDigits_error a b text
        simp [stopped, nonzero, token, text]

private theorem token_rest_length (s : List Char) (some : s ≠ []) :
    (token s).2.2.length < s.length := by
  have whole : s.length = (s.takeWhile (! ·.isDigit)).length +
      (s.dropWhile (! ·.isDigit)).length := by
    rw [← List.length_append, List.takeWhile_append_dropWhile]
  have number := (List.dropWhile_sublist (l := s.dropWhile (! ·.isDigit)) Char.isDigit).length_le
  cases s with
  | nil => exact absurd rfl some
  | cons c cs =>
    simp only [token]
    cases digit : c.isDigit with
    | false =>
      simp only [List.takeWhile_cons, digit, Bool.not_false, if_true, List.length_cons] at whole
      simp only [List.length_cons]
      omega
    | true =>
      have shorter := (List.dropWhile_sublist (l := cs) Char.isDigit).length_le
      simp only [List.dropWhile_cons, digit, Bool.not_true, Bool.false_eq_true, if_false, if_true,
        List.length_cons]
      omega

/-- A version has no more tokens than characters. -/
theorem tokens_pad (n k : Nat) (s : List Char) (enough : s.length ≤ n) :
    tokens (n + k) s = tokens n s ++ List.replicate k ([], []) := by
  induction n generalizing s with
  | zero =>
    have none : s = [] := List.eq_nil_of_length_eq_zero (by omega)
    subst s
    induction k with
    | zero => rfl
    | succ k ih =>
      simp only [Nat.zero_add, tokens, List.nil_append, List.replicate_succ] at ih ⊢
      simpa [token] using ih
  | succ n ih =>
    have shorter : (token s).2.2.length ≤ n := by
      by_cases none : s = []
      · simp [none, token]
      · have := token_rest_length s none
        omega
    rw [show n + 1 + k = n + k + 1 by omega]
    simp only [tokens, ih _ shorter, List.cons_append]

/-- The number of rounds does not matter once it covers both versions. -/
private theorem tokens_enough (n m : Nat) (a b : List Char) (ha : a.length ≤ n)
    (hb : b.length ≤ n) (more : n ≤ m) : tokens m a = tokens m b ↔ tokens n a = tokens n b := by
  obtain ⟨k, rfl⟩ := Nat.exists_eq_add_of_le more
  rw [tokens_pad n k a ha, tokens_pad n k b hb, List.append_left_inj]

theorem debvercmp_eq_zero (a b : String) (n : Nat)
    (enough : a.toList.length + b.toList.length ≤ n) :
    debvercmp a b = 0 ↔ tokens n a.toList = tokens n b.toList := by
  rw [debvercmp, debvercmpLoop_eq_zero]
  exact (tokens_enough _ n _ _ (by omega) (by omega) enough).symm

/-- Comparing as equal is an equivalence of version strings. -/
theorem debvercmp_equivalence : Equivalence fun a b => debvercmp a b = 0 where
  refl a := (debvercmp_eq_zero a a _ (Nat.le_refl _)).mpr rfl
  symm {a b} equal := by
    rw [debvercmp_eq_zero b a _ (Nat.le_of_eq (Nat.add_comm _ _))]
    exact ((debvercmp_eq_zero a b _ (Nat.le_refl _)).mp equal).symm
  trans {a b c} ab bc := by
    let n := a.toList.length + b.toList.length + c.toList.length
    rw [debvercmp_eq_zero a c n (by omega)]
    exact ((debvercmp_eq_zero a b n (by omega)).mp ab).trans
      ((debvercmp_eq_zero b c n (by omega)).mp bc)

end Version
end Lcfg
