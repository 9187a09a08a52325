import LcfgCore.Library.Fields
import LcfgCore.Library.Substring
import Mathlib.Data.List.Infix
import Mathlib.Data.Nat.Find

/-!
# Items of a text

Where a needle stands in a text between separators, and which of its occurrences are found
when each search goes on behind the last one.

## Main results

`Item.found`: without a separator in the needle no item is missed.
`exists_item_iff`: the items are the tokens of the text.
-/
namespace Items

open Substring (find)

variable {α : Type} {needle text : List α} {p q k : Nat}

/-! ### Occurrences -/

def OccursAt (needle text : List α) (p : Nat) : Prop :=
  p ≤ text.length ∧ needle <+: text.drop p

instance [DecidableEq α] (needle text : List α) (p : Nat) : Decidable (OccursAt needle text p) :=
  inferInstanceAs (Decidable (_ ∧ _))

theorem OccursAt.length_le (occurs : OccursAt needle text p) :
    p + needle.length ≤ text.length := by
  have fits := occurs.2.length_le
  have inside := occurs.1
  rw [List.length_drop] at fits
  omega

theorem occursAt_cons (x : α) (p : Nat) :
    OccursAt needle (x :: text) (p + 1) ↔ OccursAt needle text p := by
  rw [OccursAt, OccursAt, List.length_cons, List.drop_succ_cons, Nat.succ_le_succ_iff]

theorem occursAt_drop (inside : k ≤ text.length) (p : Nat) :
    OccursAt needle (text.drop k) p ↔ OccursAt needle text (p + k) := by
  rw [OccursAt, OccursAt, List.length_drop, List.drop_drop, Nat.add_comm k p]
  have same : p ≤ text.length - k ↔ p + k ≤ text.length := by omega
  rw [same]

theorem occursAt_nil (inside : p ≤ text.length) : OccursAt [] text p :=
  ⟨inside, List.nil_prefix⟩

/-! ### Items -/

variable {separator : α → Bool}

/-- The needle stands between separators or the ends of the text. -/
def Item (separator : α → Bool) (needle text : List α) (p : Nat) : Prop :=
  OccursAt needle text p ∧ (p = 0 ∨ (text[p - 1]?).any separator = true) ∧
    (p + needle.length = text.length ∨ (text[p + needle.length]?).any separator = true)

instance [DecidableEq α] (separator : α → Bool) (needle text : List α) (p : Nat) :
    Decidable (Item separator needle text p) :=
  inferInstanceAs (Decidable (_ ∧ _ ∧ _))

/-- The first item, or none if there is not any. -/
def FirstItem (separator : α → Bool) (needle text : List α) : Option Nat → Prop
  | some p => Item separator needle text p ∧ ∀ q < p, ¬ Item separator needle text q
  | none => ∀ p, ¬ Item separator needle text p

theorem FirstItem.unique {r r' : Option Nat} (first : FirstItem separator needle text r)
    (first' : FirstItem separator needle text r') : r = r' := by
  cases r with
  | none =>
    cases r' with
    | none => rfl
    | some p' => exact absurd first'.1 (first p')
  | some p =>
    cases r' with
    | none => exact absurd first.1 (first' p)
    | some p' =>
      rcases Nat.lt_trichotomy p p' with less | rfl | greater
      · exact absurd first.1 (first'.2 p less)
      · rfl
      · exact absurd first'.1 (first.2 p' greater)

theorem exists_firstItem (item : Item separator needle text p) :
    ∃ q, FirstItem separator needle text (some q) := by
  classical
  have some_ : ∃ q, Item separator needle text q := ⟨p, item⟩
  exact ⟨Nat.find some_, Nat.find_spec some_, fun q before => Nat.find_min some_ before⟩

/-- No occurrence before an item reaches into it, if the needle has no separators. -/
theorem Item.apart (item : Item separator needle text p)
    (free : ∀ x ∈ needle, separator x = false) (occurs : OccursAt needle text q) (before : q < p) :
    q + needle.length ≤ p := by
  by_contra reaches
  have splits : (text[p - 1]?).any separator = true := item.2.1.resolve_left (by omega)
  -- the separator before the item is a part of the needle
  obtain ⟨behind, cut⟩ := occurs.2
  have inside : p - 1 - q < needle.length := by omega
  have same : text[p - 1]? = needle[p - 1 - q]? := by
    have drop : (text.drop q)[p - 1 - q]? = text[p - 1]? := by
      rw [List.getElem?_drop]
      congr 1
      omega
    rw [← drop, ← cut, List.getElem?_append_left inside]
  rw [same, List.getElem?_eq_getElem inside, Option.any_some,
    free _ (List.getElem_mem inside)] at splits
  cases splits

/-! ### Items and tokens -/

open Fields (Closed Opens tokens)

theorem item_of_cut {before after : List α} (closed : Closed separator before)
    (opens : Opens separator after) :
    Item separator needle (before ++ (needle ++ after)) before.length := by
  -- on each side there is an end of the text or a separator
  refine ⟨⟨by simp, by simp⟩, ?_, ?_⟩
  · induction before using List.reverseRecOn with
    | nil => exact .inl rfl
    | append_singleton rest last _ =>
      have splits : separator last = true := closed last (by simp)
      exact .inr (by simp [splits])
  · cases after with
    | nil => exact .inl (by simp)
    | cons x rest =>
      have splits : separator x = true := opens x rfl
      have behind : (before ++ (needle ++ x :: rest))[before.length + needle.length]? = some x := by
        rw [← List.append_assoc, ← List.length_append,
          List.getElem?_append_right (Nat.le_refl _), Nat.sub_self]
        rfl
      exact .inr (by rw [behind, Option.any_some, splits])

theorem Item.cut (item : Item separator needle text p) :
    ∃ before after, text = before ++ (needle ++ after) ∧ before.length = p ∧
      Closed separator before ∧ Opens separator after := by
  obtain ⟨⟨inside, after, here⟩, left, right⟩ := item
  have whole : text = text.take p ++ (needle ++ after) := by
    rw [here, List.take_append_drop]
  refine ⟨text.take p, after, whole, List.length_take_of_le inside, fun x last => ?_,
    fun x first => ?_⟩
  · cases p with
    | zero => simp at last
    | succ p =>
      rw [List.getLast?_take, if_neg (Nat.succ_ne_zero p), Nat.add_sub_cancel,
        List.getElem?_eq_getElem (by omega)] at last
      have splits := left.resolve_left (Nat.succ_ne_zero p)
      rw [Nat.add_sub_cancel, List.getElem?_eq_getElem (by omega), Option.any_some] at splits
      exact (Option.some_inj.mp last) ▸ splits
  · obtain ⟨rest, rfl⟩ := List.head?_eq_some_iff.mp first
    have behind : text[p + needle.length]? = some x := by
      have drop : (text.drop p)[needle.length]? = text[p + needle.length]? := List.getElem?_drop
      rw [← drop, ← here, List.getElem?_append_right (Nat.le_refl _), Nat.sub_self]
      rfl
    have further : ¬ p + needle.length = text.length := by
      intro ends
      rw [ends, List.getElem?_length] at behind
      cases behind
    have splits := right.resolve_left further
    rw [behind, Option.any_some] at splits
    exact splits

/-- The items are the tokens of the text. -/
theorem exists_item_iff (some_ : needle ≠ []) (free : ∀ x ∈ needle, separator x = false) :
    (∃ p, Item separator needle text p) ↔ needle ∈ tokens separator text := by
  constructor
  · rintro ⟨p, item⟩
    obtain ⟨before, after, rfl, -, closed, opens⟩ := item.cut
    rw [Fields.tokens_around some_ free closed opens]
    exact List.mem_append_right _ List.mem_cons_self
  · intro member
    obtain ⟨before, after, rfl, closed, opens, -⟩ := Fields.exists_cut member
    exact ⟨_, item_of_cut closed opens⟩

/-- Before the first item there is no token which is equal to the needle. -/
theorem FirstItem.cut (some_ : needle ≠ []) (free : ∀ x ∈ needle, separator x = false)
    (first : FirstItem separator needle text (some p)) :
    ∃ before after, text = before ++ (needle ++ after) ∧ before.length = p ∧
      Closed separator before ∧ Opens separator after ∧ needle ∉ tokens separator before := by
  obtain ⟨before, after, rfl, length, closed, opens⟩ := first.1.cut
  refine ⟨before, after, rfl, length, closed, opens, fun earlier => ?_⟩
  obtain ⟨front, back, rfl, closedFront, opensBack, -⟩ := Fields.exists_cut earlier
  -- what is behind the earlier token does not end the text before the item
  have filled : back ≠ [] := by
    rintro rfl
    rw [List.append_nil] at closed
    have last := closed (needle.getLast some_) (by
      rw [List.getLast?_append, List.getLast?_eq_some_getLast some_, Option.some_or]
      rfl)
    rw [free _ (List.getLast_mem some_)] at last
    cases last
  have opens' : Opens separator (back ++ (needle ++ after)) := by
    intro x head
    rw [List.head?_append_of_ne_nil _ filled] at head
    exact opensBack x head
  have item : Item separator needle (front ++ (needle ++ (back ++ (needle ++ after))))
      front.length := item_of_cut closedFront opens'
  rw [← List.append_assoc needle, ← List.append_assoc front] at item
  refine first.2 front.length ?_ item
  have pos := List.length_pos_iff.mpr some_
  rw [← length, List.length_append, List.length_append]
  omega

/-! ### Searching -/

variable [DecidableEq α]

theorem find_spec (needle text : List α) :
    (∀ p, find needle text = some p → OccursAt needle text p ∧ ∀ q < p, ¬ OccursAt needle text q) ∧
      (find needle text = none → ∀ p, ¬ OccursAt needle text p) := by
  induction text with
  | nil =>
    rw [find]
    by_cases empty : needle = []
    · rw [if_pos empty, empty]
      refine ⟨fun p here => ?_, fun none_ => by cases none_⟩
      obtain rfl : 0 = p := Option.some_inj.mp here
      exact ⟨occursAt_nil (Nat.le_refl _), fun q before => absurd before (Nat.not_lt_zero q)⟩
    · rw [if_neg empty]
      refine ⟨fun p here => (by cases here), fun _ p occurs => empty ?_⟩
      have fits := occurs.length_le
      exact List.length_eq_zero_iff.mp (by rw [List.length_nil] at fits; omega)
  | cons x rest ih =>
    -- an occurrence is at the beginning, or one in the rest moved by one
    have first : OccursAt needle (x :: rest) 0 ↔ needle.isPrefixOf (x :: rest) = true := by
      rw [OccursAt, List.drop_zero, List.isPrefixOf_iff_prefix]
      exact and_iff_right (Nat.zero_le _)
    rw [find]
    by_cases here : needle.isPrefixOf (x :: rest) = true
    · rw [if_pos here]
      refine ⟨fun p found => ?_, fun none_ => by cases none_⟩
      obtain rfl := Option.some_inj.mp found
      exact ⟨first.mpr here, fun q before => absurd before (Nat.not_lt_zero q)⟩
    · rw [if_neg here]
      constructor
      · intro p found
        obtain ⟨p', found', rfl⟩ := Option.map_eq_some_iff.mp found
        obtain ⟨occurs, earlier⟩ := ih.1 p' found'
        refine ⟨(occursAt_cons x p').mpr occurs, fun q before there => ?_⟩
        cases q with
        | zero => exact here (first.mp there)
        | succ q => exact earlier q (by omega) ((occursAt_cons x q).mp there)
      · intro none_ p there
        cases p with
        | zero => exact here (first.mp there)
        | succ p =>
          exact ih.2 (Option.map_eq_none_iff.mp none_) p ((occursAt_cons x p).mp there)

/-- The first occurrence which does not begin before a position. -/
def findNext (needle text : List α) (k : Nat) : Option Nat :=
  (find needle (text.drop k)).map (· + k)

theorem findNext_zero (needle text : List α) : findNext needle text 0 = find needle text := by
  rw [findNext, List.drop_zero]
  exact Option.map_id'

theorem findNext_some (inside : k ≤ text.length) (found : findNext needle text k = some p) :
    k ≤ p ∧ OccursAt needle text p ∧ ∀ q, k ≤ q → q < p → ¬ OccursAt needle text q := by
  obtain ⟨p', found', rfl⟩ := Option.map_eq_some_iff.mp found
  obtain ⟨occurs, earlier⟩ := (find_spec needle (text.drop k)).1 p' found'
  refine ⟨Nat.le_add_left k p', (occursAt_drop inside p').mp occurs, fun q behind before there => ?_⟩
  obtain ⟨q', rfl⟩ := Nat.exists_eq_add_of_le' behind
  exact earlier q' (by omega) ((occursAt_drop inside q').mpr there)

theorem findNext_none (inside : k ≤ text.length) (none_ : findNext needle text k = none) :
    ∀ q, k ≤ q → ¬ OccursAt needle text q := by
  intro q behind there
  obtain ⟨q', rfl⟩ := Nat.exists_eq_add_of_le' behind
  exact (find_spec needle (text.drop k)).2 (Option.map_eq_none_iff.mp none_) q'
    ((occursAt_drop inside q').mpr there)

/-- The occurrences which are found from a position on, each search going on behind the
occurrence that was found last. -/
inductive FoundFrom (needle text : List α) : Nat → Nat → Prop
  | here {k p : Nat} (found : findNext needle text k = some p) : FoundFrom needle text k p
  | later {k p q : Nat} (found : findNext needle text k = some p)
      (rest : FoundFrom needle text (p + needle.length) q) : FoundFrom needle text k q

theorem FoundFrom.le (found : FoundFrom needle text k q) : k ≤ q := by
  induction found with
  | here found =>
    obtain ⟨p, -, rfl⟩ := Option.map_eq_some_iff.mp found
    exact Nat.le_add_left _ p
  | later found rest ih =>
    obtain ⟨p, -, rfl⟩ := Option.map_eq_some_iff.mp found
    omega

theorem foundFrom_iff (found : findNext needle text k = some p) :
    FoundFrom needle text k q ↔ q = p ∨ FoundFrom needle text (p + needle.length) q := by
  constructor
  · intro there
    cases there with
    | here found' =>
      rw [found, Option.some_inj] at found'
      exact .inl found'.symm
    | later found' rest =>
      rw [found, Option.some_inj] at found'
      rw [found']
      exact .inr rest
  · rintro (rfl | rest)
    · exact .here found
    · exact .later found rest

theorem not_foundFrom (none_ : findNext needle text k = none) : ¬ FoundFrom needle text k q := by
  intro there
  cases there with
  | here found => rw [none_] at found; cases found
  | later found rest => rw [none_] at found; cases found

theorem Item.found (item : Item separator needle text p) (some_ : needle ≠ [])
    (free : ∀ x ∈ needle, separator x = false) (behind : k ≤ p) : FoundFrom needle text k p := by
  have length : 0 < needle.length := List.length_pos_iff.mpr some_
  have inside : k ≤ text.length := behind.trans item.1.1
  induction gap : p - k using Nat.strongRecOn generalizing k with
  | ind gap ih =>
    cases found : findNext needle text k with
    | none => exact absurd item.1 (findNext_none inside found p behind)
    | some q =>
      obtain ⟨start, occurs, first⟩ := findNext_some inside found
      have notBehind : q ≤ p := by
        by_contra further
        exact first p behind (by omega) item.1
      -- an occurrence before the item does not overlap with it
      rcases Nat.lt_or_eq_of_le notBehind with before | rfl
      · have apart := item.apart free occurs before
        exact .later found (ih _ (by omega) apart (apart.trans item.1.1) rfl)
      · exact .here found

end Items
