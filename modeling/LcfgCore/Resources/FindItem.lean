import LcfgCore.Library.Items
import LcfgCore.Resources.Mutate

/-!
# Finding an item in a list

The search for an item of a text, and for a tag of a value (`utils/utils.c`,
`resources/mutate.c`).

## Main result

`stringFinditem_exact_iff`: for which needles the search ends and finds the first item.
-/
namespace Lcfg

open Items (Item FirstItem FoundFrom OccursAt findNext)

/-! ## The rounds of the search -/

section Rounds

variable {haystack needle : List Char} {separator : Char → Bool} {fuel k p : Nat}

/-- The first item among the occurrences which are found from a position on. -/
def FirstFound (separator : Char → Bool) (needle haystack : List Char) (k : Nat) :
    Option Nat → Prop
  | some p => FoundFrom needle haystack k p ∧ Item separator needle haystack p ∧
      ∀ q, FoundFrom needle haystack k q → Item separator needle haystack q → p ≤ q
  | none => ∀ q, FoundFrom needle haystack k q → ¬ Item separator needle haystack q

/-- The two checks of a round. -/
theorem item_iff_checks (separator : Char → Bool) (occurs : OccursAt needle haystack p) :
    (p = 0 ∨ (haystack[p - 1]?).any separator = true) ∧
        (p + needle.length = haystack.length ∨
          (haystack[p + needle.length]?).any separator = true) ↔
      Item separator needle haystack p :=
  (and_iff_right occurs).symm

theorem findItemRounds_spec (separator : Char → Bool) (some_ : needle ≠ []) (inside : k ≤ haystack.length)
    (enough : haystack.length < fuel + k) :
    ∃ r, findItemRounds haystack needle separator fuel (findNext needle haystack k) = some r ∧
      FirstFound separator needle haystack k r := by
  have length : 0 < needle.length := List.length_pos_iff.mpr some_
  induction fuel generalizing k with
  | zero => omega
  | succ fuel ih =>
    cases found : findNext needle haystack k with
    | none =>
      refine ⟨none, rfl, fun q there => ?_⟩
      exact absurd there (Items.not_foundFrom found)
    | some p =>
      obtain ⟨start, occurs, -⟩ := Items.findNext_some inside found
      have fits := occurs.length_le
      rw [findItemRounds]
      by_cases item : Item separator needle haystack p
      · rw [if_pos ((item_iff_checks separator occurs).mpr item)]
        refine ⟨some p, rfl, .here found, item, fun q there _ => ?_⟩
        rcases (Items.foundFrom_iff found).mp there with rfl | later
        · exact Nat.le_refl _
        · exact (Nat.le_add_right _ _).trans later.le
      · rw [if_neg (mt (item_iff_checks separator occurs).mp item)]
        -- the search goes on behind the occurrence, which is no item
        obtain ⟨r, done, first⟩ := ih fits (by omega)
        refine ⟨r, done, ?_⟩
        cases r with
        | none =>
          intro q there isItem
          rcases (Items.foundFrom_iff found).mp there with rfl | later
          · exact item isItem
          · exact first q later isItem
        | some p' =>
          obtain ⟨there, isItem, least⟩ := first
          refine ⟨(Items.foundFrom_iff found).mpr (.inr there), isItem, fun q here isItem' => ?_⟩
          rcases (Items.foundFrom_iff found).mp here with rfl | later
          · exact absurd isItem' item
          · exact least q later isItem'

/-- More rounds than are needed make no difference. -/
theorem findItemRounds_mono {found r : Option Nat} {fuel' : Nat} (le : fuel ≤ fuel')
    (done : findItemRounds haystack needle separator fuel found = some r) :
    findItemRounds haystack needle separator fuel' found = some r := by
  -- a round which ends the search also ends it with more rounds left
  induction fuel generalizing found fuel' with
  | zero =>
    cases found with
    | none =>
      obtain rfl := Option.some_inj.mp done
      cases fuel' <;> rfl
    | some p => cases done
  | succ fuel ih =>
    obtain ⟨fuel', rfl⟩ := Nat.exists_eq_add_of_lt (Nat.lt_of_succ_le le)
    cases found with
    | none =>
      obtain rfl := Option.some_inj.mp done
      rfl
    | some p =>
      rw [findItemRounds] at done ⊢
      split at done
      case isTrue item => rw [if_pos item, done]
      case isFalse none_ =>
        rw [if_neg none_]
        exact ih (Nat.le_add_right _ _) done

theorem findItemRounds_unique {found r r' : Option Nat} {fuel' : Nat}
    (done : findItemRounds haystack needle separator fuel found = some r)
    (done' : findItemRounds haystack needle separator fuel' found = some r') : r' = r := by
  have more := findItemRounds_mono (Nat.le_max_left fuel fuel') done
  have more' := findItemRounds_mono (Nat.le_max_right fuel fuel') done'
  exact Option.some_inj.mp (more'.symm.trans more)

theorem find_nil (haystack : List Char) : Substring.find [] haystack = some 0 := by
  cases haystack <;> rfl

theorem item_nil (filled : haystack ≠ []) :
    Item separator [] haystack 0 ↔ haystack.head?.any separator = true := by
  rw [Item, and_iff_right (Items.occursAt_nil (Nat.zero_le _)), and_iff_right (.inl rfl),
    List.length_nil, Nat.add_zero, ← List.head?_eq_getElem?]
  exact or_iff_right (Ne.symm (mt List.length_eq_zero_iff.mp filled))

/-- An empty needle is found at once or for ever. -/
theorem findItemRounds_nil (filled : haystack ≠ []) (fuel : Nat) :
    findItemRounds haystack [] separator fuel (some 0) =
      if haystack.head?.any separator = true ∧ fuel ≠ 0 then some (some 0) else none := by
  induction fuel with
  | zero => simp [findItemRounds]
  | succ fuel ih =>
    have checks := item_iff_checks separator
      (Items.occursAt_nil (Nat.zero_le haystack.length))
    rw [findItemRounds]
    -- the same place is tried in each round
    by_cases begins : haystack.head?.any separator = true
    · rw [if_pos (checks.mpr ((item_nil filled).mpr begins)),
        if_pos ⟨begins, Nat.succ_ne_zero fuel⟩]
    · rw [if_neg (mt checks.mp (mt (item_nil filled).mp begins)), if_neg (mt And.left begins)]
      simpa [find_nil, begins] using ih

/-- The first item which is found is the first item, unless that was skipped. -/
theorem FirstFound.first_iff {r : Option Nat} (found : FirstFound separator needle haystack 0 r) :
    FirstItem separator needle haystack r ↔
      ∀ p, FirstItem separator needle haystack (some p) → FoundFrom needle haystack 0 p := by
  constructor
  · intro first p first'
    obtain rfl := first.unique first'
    exact found.1
  · intro reached
    -- if there is an item at all, the first one is found by assumption
    by_cases none_ : ∀ p, ¬ Item separator needle haystack p
    · cases r with
      | none => exact none_
      | some p => exact absurd found.2.1 (none_ p)
    · obtain ⟨p, item⟩ := not_forall_not.mp none_
      obtain ⟨q, first⟩ := Items.exists_firstItem item
      have there := reached q first
      cases r with
      | none => exact absurd first.1 (found q there)
      | some p' =>
        have le := found.2.2 q there first.1
        have ge : q ≤ p' := by
          by_contra before
          exact first.2 p' (by omega) found.2.1
        obtain rfl : p' = q := Nat.le_antisymm le ge
        exact first

theorem FirstFound.some_iff {r : Option Nat} (found : FirstFound separator needle haystack 0 r) :
    r.isSome = true ↔
      ∃ p, Item separator needle haystack p ∧ FoundFrom needle haystack 0 p := by
  cases r with
  | none =>
    constructor
    · intro none_
      cases none_
    · rintro ⟨p, item, there⟩
      exact absurd item (found p there)
  | some p => exact ⟨fun _ => ⟨p, found.2.1, found.1⟩, fun _ => rfl⟩

theorem FirstFound.unique {r r' : Option Nat} (first : FirstFound separator needle haystack k r)
    (first' : FirstFound separator needle haystack k r') : r = r' := by
  cases r with
  | none =>
    cases r' with
    | none => rfl
    | some p' => exact absurd first'.2.1 (first p' first'.1)
  | some p =>
    cases r' with
    | none => exact absurd first.2.1 (first' p first.1)
    | some p' =>
      have le := first.2.2 p' first'.1 first'.2.1
      have ge := first'.2.2 p first.1 first.2.1
      rw [Nat.le_antisymm le ge]

/-- A needle which is not empty: the search ends, and is right if nothing was skipped. -/
theorem findItemRounds_iff (some_ : needle ≠ []) (good : Option Nat → Prop) :
    (∃ rounds r, findItemRounds haystack needle separator rounds
        (Substring.find needle haystack) = some r ∧ good r) ↔
      ∃ r, FirstFound separator needle haystack 0 r ∧ good r := by
  have enough : haystack.length < haystack.length + 1 + 0 := Nat.lt_succ_self _
  obtain ⟨r, done, first⟩ := findItemRounds_spec separator some_ (Nat.zero_le _) enough
  rw [Items.findNext_zero] at done
  constructor
  · rintro ⟨rounds, r', done', holds⟩
    exact ⟨r, first, findItemRounds_unique done done' ▸ holds⟩
  · rintro ⟨r', first', holds⟩
    exact ⟨_, r, done, first.unique first' ▸ holds⟩

/-- An empty needle is found if the text begins with a separator, and for ever otherwise. -/
theorem findItemRounds_nil_iff (filled : haystack ≠ []) (good : Option Nat → Prop) :
    (∃ rounds r, findItemRounds haystack [] separator rounds
        (Substring.find [] haystack) = some r ∧ good r) ↔
      haystack.head?.any separator = true ∧ good (some 0) := by
  simp only [find_nil, findItemRounds_nil filled]
  constructor
  · rintro ⟨rounds, r, done, holds⟩
    split at done
    case isTrue begins =>
      obtain rfl := Option.some_inj.mp done
      exact ⟨begins.1, holds⟩
    case isFalse => cases done
  · rintro ⟨begins, holds⟩
    exact ⟨1, some 0, if_pos ⟨begins, Nat.one_ne_zero⟩, holds⟩

theorem item_empty : Item separator needle [] p ↔ needle = [] ∧ p = 0 := by
  constructor
  · intro item
    have fits := item.1.length_le
    rw [List.length_nil] at fits
    exact ⟨List.length_eq_zero_iff.mp (by omega), by omega⟩
  · rintro ⟨rfl, rfl⟩
    exact ⟨Items.occursAt_nil (Nat.le_refl _), .inl rfl, .inl rfl⟩

end Rounds

/-! ## The search -/

/-- `lcfgutils_string_finditem` within a number of rounds, for a needle which is not the null
pointer. -/
def stringFinditem (rounds : Nat) (haystack : Option String) (needle : String)
    (separator : Option String) : Option (Option Nat) :=
  let text := (haystack.getD "").toList
  let found := Substring.find needle.toList text
  if isEmpty haystack then some none
  else if isEmpty separator then some found
  else findItemRounds text needle.toList (separator.getD "").toList.contains rounds found

/-- The search ends, and if there are separators it finds the first item. -/
def FindsFirst (haystack : Option String) (needle : String) (separator : Option String) : Prop :=
  ∃ rounds result, stringFinditem rounds haystack needle separator = some result ∧
    (isEmpty separator = false →
      match haystack with
      | none => result = none
      | some text =>
        FirstItem (separator.getD "").toList.contains needle.toList text.toList result)

/-- The first item is one of the occurrences which are found from the left, each search
going on behind the last occurrence. -/
def NothingSkipped (separator : Char → Bool) (haystack needle : String) : Prop :=
  ∀ p, FirstItem separator needle.toList haystack.toList (some p) →
    FoundFrom needle.toList haystack.toList 0 p

/-- Nothing is skipped if the needle has no separators. -/
theorem nothingSkipped_of_free {separator : Char → Bool} {needle : String} (some_ : needle ≠ "")
    (free : ∀ c ∈ needle.toList, separator c = false) (haystack : String) :
    NothingSkipped separator haystack needle := by
  intro p first
  have filled : needle.toList ≠ [] := mt String.toList_eq_nil_iff.mp some_
  exact first.1.found filled free (Nat.zero_le p)

/-- The condition under which the search does what it should. -/
def Searchable (haystack : Option String) (needle : String) (separator : Option String) : Prop :=
  isEmpty separator = true ∨ ∀ text, haystack = some text →
    if needle = "" then text.toList.head?.any (separator.getD "").toList.contains = true
    else NothingSkipped (separator.getD "").toList.contains text needle

theorem isEmpty_eq_false {text : String} : isEmpty (some text) = false ↔ text.toList ≠ [] := by
  simp [isEmpty]

theorem findsFirst_iff (haystack : Option String) (needle : String) (separator : Option String) :
    FindsFirst haystack needle separator ↔ Searchable haystack needle separator := by
  rw [FindsFirst, Searchable]
  cases plain : isEmpty separator with
  | true =>
    refine ⟨fun _ => .inl rfl, fun _ => ⟨0, ?_⟩⟩
    -- without separators there is no loop
    rw [stringFinditem, plain]
    split
    · exact ⟨_, rfl, fun none_ => (by cases none_)⟩
    · exact ⟨_, rfl, fun none_ => (by cases none_)⟩
  | false =>
    rw [or_iff_right Bool.false_ne_true]
    cases haystack with
    | none =>
      refine ⟨fun _ text none_ => (by cases none_), fun _ => ⟨0, none, rfl, fun _ => rfl⟩⟩
    | some text =>
      simp only [stringFinditem, plain, Option.some.injEq, forall_eq', Option.getD_some,
        Bool.false_eq_true, if_false, true_implies]
      generalize (separator.getD "").toList.contains = splits
      by_cases filled : text.toList = []
      · -- an empty text has the empty needle for an item, which is not looked for
        have empty : isEmpty (some text) = true := by simpa [isEmpty] using filled
        simp only [empty, if_true, NothingSkipped, filled, FirstItem, item_empty]
        by_cases some_ : needle = ""
        · simp [some_]
        · simp [some_]
      · rw [isEmpty_eq_false.mpr filled]
        simp only [Bool.false_eq_true, if_false]
        by_cases some_ : needle = ""
        · subst some_
          have first : FirstItem splits [] text.toList (some 0) ↔
              text.toList.head?.any splits = true := by
            refine ⟨fun first => (item_nil filled).mp first.1, fun begins => ?_⟩
            exact ⟨(item_nil filled).mpr begins, fun q before => absurd before (Nat.not_lt_zero q)⟩
          rw [if_pos rfl]
          refine (findItemRounds_nil_iff filled _).trans ?_
          exact (and_congr_right fun _ => first).trans and_self_iff
        · have some_' : needle.toList ≠ [] := mt String.toList_eq_nil_iff.mp some_
          rw [if_neg some_, NothingSkipped]
          refine (findItemRounds_iff some_' _).trans ?_
          have enough : text.toList.length < text.toList.length + 1 + 0 := Nat.lt_succ_self _
          obtain ⟨r, -, found⟩ := findItemRounds_spec splits some_' (Nat.zero_le _) enough
          constructor
          · rintro ⟨r', found', first⟩
            exact found'.first_iff.mp first
          · intro reached
            exact ⟨r, found, found.first_iff.mpr reached⟩

/-! ## Tags of a value -/

namespace TypedResource

variable {res : TypedResource} {tag : Option String} {found : Bool}

/-- `lcfgresource_value_has_tag` within a number of rounds of the search. -/
def valueHasTagWithin (rounds : Nat) (res : TypedResource) (tag : Option String) : Option Bool :=
  match tag with
  | none => some false
  | some tag =>
    if hasValue res then
      (stringFinditem rounds res.value tag (some " \t\r\n")).map Option.isSome
    else some false

/-- The tag stands in the value as an item. -/
def HasItem (res : TypedResource) (tag : Option String) : Prop :=
  ∃ text, res.value = some text ∧ ∃ name, tag = some name ∧
    ∃ p, Item allowedSeparator name.toList text.toList p

/-- The search for the tag ends, and finds it if and only if it is there. -/
def HasTagExact (res : TypedResource) (tag : Option String) : Prop :=
  ∃ rounds found, valueHasTagWithin rounds res tag = some found ∧
    (found = true ↔ HasItem res tag)

/-- The condition for a search for a tag: not all items are skipped. -/
def TagSearchable (res : TypedResource) (tag : Option String) : Prop :=
  ∀ text, res.value = some text → ∀ name, tag = some name →
    if name = "" then text.toList.head?.any allowedSeparator = true
    else (∃ p, Item allowedSeparator name.toList text.toList p) →
      ∃ p, Item allowedSeparator name.toList text.toList p ∧
        FoundFrom name.toList text.toList 0 p

/-- The search in a value which is not empty. -/
private theorem valueHasTagWithin_iff {res : TypedResource} {text : String}
    (valued : res.value = some text) (filled : text.toList ≠ []) (name : String)
    (good : Bool → Prop) :
    (∃ rounds found, valueHasTagWithin rounds res (some name) = some found ∧ good found) ↔
      ∃ rounds r, findItemRounds text.toList name.toList allowedSeparator rounds
        (Substring.find name.toList text.toList) = some r ∧ good r.isSome := by
  have has : hasValue res = true := by simpa [hasValue, valued, isEmpty] using filled
  have search (rounds : Nat) : valueHasTagWithin rounds res (some name) =
      (findItemRounds text.toList name.toList allowedSeparator rounds
        (Substring.find name.toList text.toList)).map Option.isSome := by
    simp only [valueHasTagWithin, has, if_true, stringFinditem, valued,
      isEmpty_eq_false.mpr filled, Bool.false_eq_true, if_false]
    rfl
  simp only [search, Option.map_eq_some_iff]
  constructor
  · rintro ⟨rounds, _, ⟨r, done, rfl⟩, holds⟩
    exact ⟨rounds, r, done, holds⟩
  · rintro ⟨rounds, r, done, holds⟩
    exact ⟨rounds, _, ⟨r, done, rfl⟩, holds⟩

theorem hasTagExact_iff (res : TypedResource) (tag : Option String) :
    HasTagExact res tag ↔ TagSearchable res tag := by
  rw [HasTagExact, TagSearchable, HasItem]
  cases tag with
  | none => exact ⟨fun _ text _ name none_ => (by cases none_), fun _ => ⟨0, false, rfl, by simp⟩⟩
  | some name =>
    cases valued : res.value with
    | none =>
      have missing : hasValue res = false := by simp [hasValue, valued, isEmpty]
      refine ⟨fun _ text none_ => (by cases none_), fun _ => ⟨0, false, ?_, by simp⟩⟩
      rw [valueHasTagWithin, missing]
      rfl
    | some text =>
      simp only [Option.some.injEq, exists_eq_left', forall_eq']
      -- an empty value is not searched
      by_cases filled : text.toList = []
      · have missing : hasValue res = false := by simpa [hasValue, valued, isEmpty] using filled
        simp only [valueHasTagWithin, missing, filled, item_empty, Bool.false_eq_true, if_false]
        by_cases some_ : name = ""
        · simp [some_]
        · simp [some_]
      · refine (valueHasTagWithin_iff valued filled name _).trans ?_
        -- an empty tag is found at the beginning of the value or never
        by_cases some_ : name = ""
        · subst some_
          rw [if_pos rfl]
          refine (findItemRounds_nil_iff filled _).trans ⟨And.left, fun begins => ⟨begins, ?_⟩⟩
          exact ⟨fun _ => ⟨0, (item_nil filled).mpr begins⟩, fun _ => rfl⟩
        · have some_' : name.toList ≠ [] := mt String.toList_eq_nil_iff.mp some_
          rw [if_neg some_]
          refine (findItemRounds_iff some_' _).trans ?_
          have enough : text.toList.length < text.toList.length + 1 + 0 := Nat.lt_succ_self _
          obtain ⟨r, -, found⟩ := findItemRounds_spec allowedSeparator some_' (Nat.zero_le _) enough
          constructor
          · rintro ⟨r', found', exact_⟩ there
            exact found'.some_iff.mp (exact_.mpr there)
          · intro reached
            refine ⟨r, found, ?_⟩
            rw [found.some_iff]
            exact ⟨Exists.imp fun p both => both.1, reached⟩

/-- Within enough rounds, the answer is that of `valueHasTag`. -/
theorem valueHasTag_eq {rounds : Nat} {name : String} (some_ : name ≠ "")
    (done : valueHasTagWithin rounds res (some name) = some found) :
    valueHasTag res (some name) = found := by
  rw [valueHasTagWithin] at done
  rw [valueHasTag, Option.any_some, valueFindTag]
  split at done
  case isFalse missing =>
    rw [if_neg missing]
    exact Option.some_inj.mp done
  case isTrue has =>
    rw [if_pos has]
    cases valued : res.value with
    | none => simp [hasValue, valued, isEmpty] at has
    | some text =>
      have filled : text.toList ≠ [] := by simpa [hasValue, valued, isEmpty] using has
      have some_' : name.toList ≠ [] := mt String.toList_eq_nil_iff.mp some_
      rw [valued, stringFinditem, isEmpty_eq_false.mpr filled] at done
      obtain ⟨r, ended, rfl⟩ := Option.map_eq_some_iff.mp done
      have enough : text.toList.length < text.toList.length + 1 + 0 := Nat.lt_succ_self _
      obtain ⟨r', ended', -⟩ := findItemRounds_spec allowedSeparator some_' (Nat.zero_le _) enough
      rw [Items.findNext_zero] at ended'
      have same : r' = r := findItemRounds_unique ended ended'
      have current : curValue res = text.toList := by rw [curValue, valued, Option.getD_some]
      rw [current, stringFindItem, if_neg filled, ended', Option.join_some, same]

end TypedResource

/-- The search ends and finds the first item, if there are separators, unless it skips the
first item, or looks for an empty needle in a text which does not begin with a separator. For a
tag it is enough that not all items are skipped. -/
theorem stringFinditem_exact_iff (haystack : Option String) (needle : String)
    (separator : Option String) (res : TypedResource) (tag : Option String) :
    (FindsFirst haystack needle separator ↔ Searchable haystack needle separator) ∧
      (TypedResource.HasTagExact res tag ↔ TypedResource.TagSearchable res tag) :=
  ⟨findsFirst_iff haystack needle separator, TypedResource.hasTagExact_iff res tag⟩

/-- An empty tag is looked for without an end, and a tag with a separator in it is missed. -/
theorem stringFinditem_inexact :
    ¬ TypedResource.HasTagExact { TypedResource.new with value := some "a" } (some "") ∧
      ¬ TypedResource.HasTagExact { TypedResource.new with value := some "xa a a" }
        (some "a a") := by
  constructor
  · intro exact_
    have begins := (TypedResource.hasTagExact_iff _ _).mp exact_ "a" rfl "" rfl
    rw [if_pos rfl] at begins
    revert begins
    decide
  · intro exact_
    have searchable := (TypedResource.hasTagExact_iff _ _).mp exact_ "xa a a" rfl "a a" rfl
    rw [if_neg (by decide)] at searchable
    obtain ⟨p, item, found⟩ := searchable ⟨3, by decide⟩
    -- the only occurrence which is found begins within a word
    have first : findNext "a a".toList "xa a a".toList 0 = some 1 := by decide
    have second : findNext "a a".toList "xa a a".toList (1 + "a a".toList.length) = none := by decide
    rcases (Items.foundFrom_iff first).mp found with rfl | later
    · revert item
      decide
    · exact Items.not_foundFrom second later

end Lcfg
