import LcfgCore.DerivationLength
import LcfgCore.Library.Buffer
import LcfgCore.Resources.Attributes
import LcfgCore.Resources.Compare

/-!
# Priorities as text

The length of the text is counted first, on a number which is made positive by a
multiplication. The smallest number of type `int` has no opposite of that type.

## Main results

* `getPriorityAsString_spec`: the text and its length, for every other priority.
* `priority_round_trips_iff`: the text is written, and sets the same priority, if and only if
  the priority is not the smallest one.
-/

namespace Lcfg

namespace TypedResource

inductive PriorityFault
  | overflow
  | assertion
deriving DecidableEq, Repr

/-- The product of two numbers of type `int`. -/
def mulInt (m n : Int) : Except PriorityFault Int :=
  if -2 ^ 31 ≤ m * n ∧ m * n < 2 ^ 31 then .ok (m * n) else .error .overflow

/-- The loop over the digits of the priority, at most `fuel` times. -/
def priorityDigits : Nat → Nat → Int → Nat
  | 0, newLen, _ => newLen + 1
  | fuel + 1, newLen, priority =>
    if priority > 9 then priorityDigits fuel (newLen + 1) (priority.tdiv 10) else newLen + 1

def priorityLength (priority : Int) : Except PriorityFault Nat :=
  if priority < 0 then
    match mulInt priority (-1) with
    | .error fault => .error fault
    | .ok priority => .ok (priorityDigits priority.toNat 1 priority)
  else .ok (priorityDigits priority.toNat 0 priority)

/-- The text for `%d`. -/
def decimal (n : Int) : List Char :=
  if n < 0 then '-' :: Nat.toDigits 10 n.natAbs else Nat.toDigits 10 n.natAbs

/-- `lcfgresource_get_priority_as_string`: the buffer, which is replaced when it is too small,
and the length. -/
def getPriorityAsString (res : TypedResource) (result : Option (List Char)) :
    Except PriorityFault (List Char × Nat) :=
  match priorityLength res.priority with
  | .error fault => .error fault
  | .ok newLen =>
    let size := match result with
      | none => newLen + 1
      | some result => if result.length < newLen + 1 then newLen + 1 else result.length
    let text := decimal res.priority
    let buffer := Buffer.write (List.replicate size '\x00') 0 (text.take newLen ++ ['\x00'])
    if 0 < text.length ∧ text.length = newLen then .ok (buffer, newLen) else .error .assertion

/-! ## The length -/

theorem priorityDigits_cast (fuel newLen n : Nat) :
    priorityDigits fuel newLen n = CachedDerivation.countDigits fuel newLen n := by
  induction fuel generalizing newLen n with
  | zero => rfl
  | succ fuel ih =>
    have less : (n : Int).tdiv 10 = ((n / 10 : Nat) : Int) := rfl
    have more : (n : Int) > 9 ↔ n > 9 := by omega
    rw [priorityDigits, CachedDerivation.countDigits, less, ih]
    simp only [more]

theorem length_decimal_pos (n : Int) : 0 < (decimal n).length := by
  unfold decimal
  split
  · exact Nat.succ_pos _
  · exact List.length_pos_iff.mpr Nat.toDigits_ne_nil

theorem priorityLength_eq {priority : Int} (int : -2 ^ 31 < priority ∧ priority < 2 ^ 31) :
    priorityLength priority = .ok (decimal priority).length := by
  unfold priorityLength decimal
  split
  case isTrue negative =>
    have opposite : priority * -1 = (priority.natAbs : Int) := by omega
    have fits : mulInt priority (-1) = .ok (priority.natAbs : Int) := by
      rw [mulInt, opposite, if_pos (by omega)]
    rw [fits]
    change Except.ok (priorityDigits priority.natAbs 1 priority.natAbs) = _
    rw [priorityDigits_cast, CachedDerivation.countDigits_eq _ _ _ (Nat.le_refl _),
      List.length_cons, Nat.add_comm]
  case isFalse positive =>
    obtain ⟨n, rfl⟩ := Int.eq_ofNat_of_zero_le (Int.not_lt.mp positive)
    change Except.ok (priorityDigits n 0 n) = _
    rw [priorityDigits_cast, CachedDerivation.countDigits_eq _ _ _ (Nat.le_refl _), Nat.zero_add,
      Int.natAbs_natCast]

theorem priorityLength_smallest : priorityLength (-2 ^ 31) = .error .overflow := by
  rw [priorityLength, if_pos (by decide)]
  rfl

/-! ## The text -/

private theorem nul_not_mem_decimal (n : Int) : '\x00' ∉ decimal n := by
  have digits : '\x00' ∉ Nat.toDigits 10 n.natAbs := fun member =>
    absurd (Nat.isDigit_of_mem_toDigits (by decide) (by decide) member) (by decide)
  unfold decimal
  split
  · intro member
    rcases List.mem_cons.mp member with sign | member
    · exact absurd sign (by decide)
    · exact digits member
  · exact digits

theorem getPriorityAsString_spec {res : TypedResource}
    (int : -2 ^ 31 < res.priority ∧ res.priority < 2 ^ 31) (result : Option (List Char)) :
    ∃ buffer, getPriorityAsString res result = .ok (buffer, (decimal res.priority).length) ∧
      Buffer.string '\x00' buffer 0 = decimal res.priority := by
  rw [getPriorityAsString, priorityLength_eq int]
  simp only [List.take_length]
  rw [if_pos ⟨length_decimal_pos _, trivial⟩]
  refine ⟨_, rfl, ?_⟩
  generalize sized : (match result with
    | none => (decimal res.priority).length + 1
    | some result =>
      if result.length < (decimal res.priority).length + 1 then (decimal res.priority).length + 1
      else result.length) = size
  have enough : (decimal res.priority).length + 1 ≤ size := by
    rw [← sized]
    split
    · exact Nat.le_refl _
    · split <;> omega
  have fits : 0 + (decimal res.priority ++ ['\x00']).length ≤
      (List.replicate size '\x00').length := by
    rw [List.length_append, List.length_replicate, List.length_singleton]
    omega
  apply Buffer.string_eq _ (nul_not_mem_decimal _)
  · exact (List.replicate size '\x00').drop (0 + (decimal res.priority ++ ['\x00']).length)
  · rw [Buffer.write_eq _ _ _ fits, List.take_zero, List.nil_append, List.drop_zero,
      List.append_assoc, List.singleton_append]

/-! ## Reading the text back -/

section Digits

variable (n : Nat)

private theorem digits_isDigit : ∀ c ∈ Nat.toDigits 10 n, c.isDigit = true := fun _ member =>
  Nat.isDigit_of_mem_toDigits (by decide) (by decide) member

private theorem digits_unsigned (rest : List Char) : Nat.toDigits 10 n ≠ '-' :: rest := fun same =>
  absurd (digits_isDigit n '-' (same ▸ List.mem_cons_self)) (by decide)

private theorem digits_valid : (decide (Nat.toDigits 10 n ≠ []) &&
    (decide ((Nat.toDigits 10 n).head? ≠ some '0') || decide (Nat.toDigits 10 n = ['0'])) &&
    (Nat.toDigits 10 n).all Char.isDigit) = true := by
  have zero : (Nat.toDigits 10 n).head? ≠ some '0' ∨ Nat.toDigits 10 n = ['0'] := by
    rcases Nat.eq_zero_or_pos n with rfl | pos
    · exact .inr (Nat.toDigits_zero 10)
    · obtain ⟨c, rest, same, other⟩ := toDigits_head pos
      exact .inl (by simpa [same] using other)
  simp only [Bool.and_eq_true, Bool.or_eq_true, decide_eq_true_eq, List.all_eq_true]
  exact ⟨⟨Nat.toDigits_ne_nil, zero⟩, digits_isDigit n⟩

private theorem foldl_toDigits :
    (Nat.toDigits 10 n).foldl (fun (n : Int) c => 10 * n + digitVal c) 0 = n := by
  have cast (digits : List Char) (m : Nat) :
      digits.foldl (fun (n : Int) c => 10 * n + digitVal c) m =
        (digits.foldl (fun n c => 10 * n + digitVal c) m : Nat) := by
    induction digits generalizing m with
    | nil => rfl
    | cons c rest ih => exact ih (10 * m + digitVal c)
  have start := cast (Nat.toDigits 10 n) 0
  rw [foldl_digits _ (digits_isDigit n), Nat.ofDigitChars_ten_toDigits] at start
  exact start

end Digits

private theorem validInteger_decimal (n : Int) :
    validInteger (String.ofList (decimal n)) = true := by
  rw [validInteger, String.toList_ofList]
  by_cases negative : n < 0
  · rw [decimal, if_pos negative]
    exact digits_valid n.natAbs
  · rw [decimal, if_neg negative]
    split
    case h_1 rest signed => exact absurd signed (digits_unsigned _ rest)
    case h_2 => exact digits_valid n.natAbs

private theorem integerOf_decimal (n : Int) : integerOf (String.ofList (decimal n)) = n := by
  rw [integerOf, String.toList_ofList]
  by_cases negative : n < 0
  · rw [decimal, if_pos negative]
    change -List.foldl (fun (n : Int) c => 10 * n + digitVal c) 0 (Nat.toDigits 10 n.natAbs) = n
    rw [foldl_toDigits]
    omega
  · rw [decimal, if_neg negative]
    split
    case h_1 rest signed => exact absurd signed (digits_unsigned _ rest)
    case h_2 =>
      rw [foldl_toDigits]
      omega

theorem atoi_decimal {n : Int} (int : -2 ^ 31 ≤ n ∧ n < 2 ^ 31) : atoi (decimal n) = n := by
  have number : strtol10 (decimal n) = n := by
    have read := strtol10_eq (validInteger_decimal n)
    rw [String.toList_ofList, integerOf_decimal] at read
    omega
  rw [atoi, number]
  exact Int.bmod_eq_of_le_mul_two (by omega) (by omega)

theorem setAttribute_decimal (signedChar : Bool) (res : TypedResource) {n : Int}
    (int : -2 ^ 31 ≤ n ∧ n < 2 ^ 31) :
    (setAttribute signedChar res '^' (String.ofList (decimal n)) (decimal n).length).done =
      some { res with priority := n } := by
  rw [setAttribute_priority (nul_not_mem_decimal n) (List.length_pos_iff.mp (length_decimal_pos n)),
    if_pos (validInteger_decimal n), atoi_decimal int]

/-- The text of a priority is written in full, its length is the one which was counted, and it
sets the same priority in another resource. -/
def PriorityRoundTrips (signedChar : Bool) (res res2 : TypedResource)
    (result : Option (List Char)) : Prop :=
  ∃ buffer newLen, getPriorityAsString res result = .ok (buffer, newLen) ∧
    Buffer.string '\x00' buffer 0 = decimal res.priority ∧ newLen = (decimal res.priority).length ∧
    (setAttribute signedChar res2 '^' (String.ofList (Buffer.string '\x00' buffer 0))
      newLen).done = some { res2 with priority := res.priority }

theorem priority_round_trips_iff (signedChar : Bool) (res res2 : TypedResource)
    (result : Option (List Char)) (int : -2 ^ 31 ≤ res.priority ∧ res.priority < 2 ^ 31) :
    PriorityRoundTrips signedChar res res2 result ↔ res.priority ≠ -2 ^ 31 := by
  constructor
  · rintro ⟨buffer, newLen, written, -⟩ smallest
    rw [getPriorityAsString, smallest, priorityLength_smallest] at written
    cases written
  · intro other
    have above : -2 ^ 31 < res.priority ∧ res.priority < 2 ^ 31 := by omega
    obtain ⟨buffer, written, text⟩ := getPriorityAsString_spec above result
    refine ⟨buffer, _, written, text, rfl, ?_⟩
    rw [text]
    exact setAttribute_decimal signedChar res2 int

theorem largest_priority_round_trips :
    PriorityRoundTrips true { new with priority := 2 ^ 31 - 1 } new none :=
  (priority_round_trips_iff true { new with priority := 2 ^ 31 - 1 } new none (by decide)).mpr
    (by decide)

theorem smallest_priority_overflows :
    ¬ ∀ (res : TypedResource), -2 ^ 31 ≤ res.priority ∧ res.priority < 2 ^ 31 →
      PriorityRoundTrips true res new none := by
  intro holds
  obtain ⟨buffer, newLen, written, -⟩ := holds { new with priority := -2 ^ 31 } (by decide)
  rw [getPriorityAsString, priorityLength_smallest] at written
  cases written

end TypedResource

end Lcfg
