import LcfgCore.Resources.Atomicity
import LcfgCore.Resources.FindItem

/-!
# Tags as tokens

A value is a list of tags with white space between them, and the functions for tags work on
its text (`resources/mutate.c`).

## Main results

`added_replaced_tokens`: adding and replacing tags on the list of tokens.
`removals_undefined`: the functions which remove tags compare one with a null pointer.
-/
namespace Lcfg

namespace TypedResource

open Fields (tokens)
open Items (FirstItem)

/-- The tags of a value. -/
def tagsOf (res : TypedResource) : List (List Char) := tokens allowedSeparator (curValue res)

/-- A tag is not empty and has no separators in it. -/
def IsTag (tag : String) : Prop := tag ≠ "" ∧ ∀ c ∈ tag.toList, allowedSeparator c = false

variable {res after : TypedResource} {tag : String}

theorem IsTag.filled (isTag : IsTag tag) : tag.toList ≠ [] :=
  mt String.toList_eq_nil_iff.mp isTag.1

theorem IsTag.given (isTag : IsTag tag) : Lcfg.isEmpty (some tag) = false :=
  isEmpty_eq_false.mpr isTag.filled

theorem isTag_of_mem {text token : List Char} (member : token ∈ tokens allowedSeparator text) :
    IsTag (String.ofList token) := by
  obtain ⟨some_, free⟩ := Fields.mem_tokens member
  refine ⟨fun empty => some_ ?_, by rwa [String.toList_ofList]⟩
  rw [← String.toList_ofList (l := token), empty]
  rfl

/-! ## Finding a tag -/

theorem valueFindTag_spec (res : TypedResource) (isTag : IsTag tag) :
    FirstItem allowedSeparator tag.toList (curValue res) (valueFindTag res tag) := by
  rw [valueFindTag]
  by_cases has : hasValue res = true
  · have filled : curValue res ≠ [] := (hasValue_iff_curValue res).mp has
    have enough : (curValue res).length < (curValue res).length + 1 + 0 := Nat.lt_succ_self _
    obtain ⟨r, done, first⟩ :=
      findItemRounds_spec allowedSeparator isTag.filled (Nat.zero_le _) enough
    rw [Items.findNext_zero] at done
    rw [if_pos has, stringFindItem, if_neg filled, done, Option.join_some]
    exact first.first_iff.mpr fun p item =>
      item.1.found isTag.filled isTag.2 (Nat.zero_le p)
  · have empty : curValue res = [] := not_not.mp (mt (hasValue_iff_curValue res).mpr has)
    rw [if_neg has, empty]
    exact fun p item => isTag.filled (item_empty.mp item).1

theorem valueHasTag_iff (res : TypedResource) (isTag : IsTag tag) :
    valueHasTag res (some tag) = true ↔ tag.toList ∈ tagsOf res := by
  have first := valueFindTag_spec res isTag
  rw [valueHasTag, Option.any_some, tagsOf, ← Items.exists_item_iff isTag.filled isTag.2]
  cases found : valueFindTag res tag with
  | none =>
    rw [found] at first
    constructor
    · intro none_
      cases none_
    · rintro ⟨p, item⟩
      exact absurd item (first p)
  | some p =>
    rw [found] at first
    exact ⟨fun _ => ⟨p, first.1⟩, fun _ => rfl⟩

/-! ## Adding tags -/

theorem setValue_done {value : String} (done : setValue res (some value) = (after, true)) :
    after = { res with value := some value } := by
  rcases setValue_cases res value with fails | ok
  · rw [fails] at done
    cases (Prod.mk.inj done).2
  · rw [ok] at done
    exact (Prod.mk.inj done).1.symm

theorem curValue_set (res : TypedResource) (text : List Char) :
    curValue { res with value := some (String.ofList text) } = text := by
  rw [curValue, Option.getD_some, String.toList_ofList]

theorem tagsOf_append (cur : List Char) (isTag : IsTag tag) :
    tokens allowedSeparator
        (cur ++ (if cur.getLast?.any fun c => !allowedSeparator c then [' '] else []) ++ tag.toList) =
      tokens allowedSeparator cur ++ [tag.toList] := by
  have behind := Fields.opens_nil (p := allowedSeparator)
  -- the text before the tag ends with a separator, if there is any
  split
  case isTrue =>
    have closed : Fields.Closed allowedSeparator (cur ++ [' ']) :=
      Fields.closed_nil.append_cons (by decide)
    have space : tokens allowedSeparator (cur ++ [' ']) = tokens allowedSeparator cur := by
      rw [Fields.tokens_append_cons (by decide)]
      exact List.append_nil _
    rw [closed.tokens_append, space, Fields.tokens_free isTag.filled isTag.2]
  case isFalse ends =>
    have closed : Fields.Closed allowedSeparator cur := by
      intro c last
      rw [last] at ends
      simpa using ends
    rw [List.append_nil, closed.tokens_append, Fields.tokens_free isTag.filled isTag.2]

theorem valueAppendTag_tokens (isTag : IsTag tag)
    (done : valueAppendTag res (some tag) = (after, true)) :
    tagsOf after = tagsOf res ++ [tag.toList] := by
  rw [valueAppendTag, valueExtend, isTag.given] at done
  split at done
  · cases (Prod.mk.inj done).2
  · rw [if_neg Bool.false_ne_true] at done
    split at done
    · cases (Prod.mk.inj done).2
    · rw [setValue_done done, tagsOf, curValue_set, Option.getD_some, tagsOf_append _ isTag]
      rfl

/-- A tag is added at the end, unless it is there. -/
theorem valueAddTag_tokens (isTag : IsTag tag)
    (done : valueAddTag res (some tag) = (after, true)) :
    tagsOf after = tagsOf res ++ if tag.toList ∈ tagsOf res then [] else [tag.toList] := by
  rw [valueAddTag, isTag.given] at done
  split at done
  · cases (Prod.mk.inj done).2
  · rw [if_neg Bool.false_ne_true] at done
    split at done
    case isTrue has =>
      rw [← (Prod.mk.inj done).1, if_pos ((valueHasTag_iff res isTag).mp has), List.append_nil]
    case isFalse hasNot =>
      rw [if_neg (mt (valueHasTag_iff res isTag).mpr hasNot), valueAppendTag_tokens isTag done]

/-- The elements which are not among the old ones, each once, where it occurs first. -/
def newOnes (old more : List (List Char)) : List (List Char) :=
  (more.filter fun token => decide (token ∉ old)).eraseDups

theorem newOnes_cons_old {old more : List (List Char)} {token : List Char} (there : token ∈ old) :
    newOnes old (token :: more) = newOnes old more := by
  rw [newOnes, List.filter_cons_of_neg (by simpa using there), newOnes]

theorem newOnes_cons_new {old more : List (List Char)} {token : List Char} (new : token ∉ old) :
    newOnes old (token :: more) = token :: newOnes (old ++ [token]) more := by
  have rest : (more.filter fun token' => decide (token' ∉ old)).filter (fun b => !b == token) =
      more.filter fun token' => decide (token' ∉ old ++ [token]) := by
    rw [List.filter_filter]
    apply List.filter_congr
    intro token' _
    by_cases same : token' = token
    · simp [same]
    · simp [same]
  rw [newOnes, List.filter_cons_of_pos (by simpa using new), List.eraseDups_cons, rest, newOnes]

theorem mapTags_tokens {more : List (List Char)} (tags : ∀ token ∈ more, IsTag (String.ofList token))
    (done : mapTags valueAddTag res more = (after, true)) :
    tagsOf after = tagsOf res ++ newOnes (tagsOf res) more := by
  induction more generalizing res with
  | nil =>
    rw [← (Prod.mk.inj done).1]
    exact (List.append_nil _).symm
  | cons token more ih =>
    have isTag := tags token List.mem_cons_self
    rw [mapTags] at done
    split at done
    case h_1 => cases (Prod.mk.inj done).2
    case h_2 next added =>
      have later := ih (fun token' member => tags token' (List.mem_cons_of_mem _ member)) done
      have first := valueAddTag_tokens isTag added
      rw [String.toList_ofList] at first
      -- a tag which is there already is not added again
      by_cases there : token ∈ tagsOf res
      · rw [if_pos there, List.append_nil] at first
        rw [later, first, newOnes_cons_old there]
      · rw [if_neg there] at first
        rw [later, first, newOnes_cons_new there, List.append_assoc, List.singleton_append]

theorem other_iff : (!isString res && !isList res) = true ↔ ¬ (isString res || isList res) = true := by
  cases isString res with
  | false => cases isList res <;> simp
  | true => simp

/-- Tags which are there are not added again. -/
theorem mapTags_there {more : List (List Char)} (tags : ∀ token ∈ more, IsTag (String.ofList token))
    (either : (isString res || isList res) = true) (there : more ⊆ tagsOf res) :
    mapTags valueAddTag res more = (res, true) := by
  induction more with
  | nil => rfl
  | cons token more ih =>
    have isTag := tags token List.mem_cons_self
    have has := (valueHasTag_iff res isTag).mpr (by
      rw [String.toList_ofList]
      exact there List.mem_cons_self)
    have added : valueAddTag res (some (String.ofList token)) = (res, true) := by
      rw [valueAddTag, isTag.given, if_neg (mt other_iff.mp (not_not_intro either)), if_neg Bool.false_ne_true,
        if_pos has]
    rw [mapTags, added]
    exact ih (fun token' member => tags token' (List.mem_cons_of_mem _ member))
      fun token' member => there (List.mem_cons_of_mem _ member)

theorem newOnes_subset (old more : List (List Char)) : more ⊆ old ++ newOnes old more := by
  intro token member
  by_cases there : token ∈ old
  · exact List.mem_append_left _ there
  · refine List.mem_append_right _ (List.mem_eraseDups.mpr (List.mem_filter.mpr ⟨member, ?_⟩))
    simpa using there

theorem setValue_type {value : Option String} (done : setValue res value = (after, true)) :
    after.type = res.type := by
  rw [setValue] at done
  split at done
  · rw [← (Prod.mk.inj done).1]
  · cases (Prod.mk.inj done).2

/-- Only the value of a string or a list changes. -/
theorem valueAddTag_type {extra : Option String} (done : valueAddTag res extra = (after, true)) :
    (isString res || isList res) = true ∧ after.type = res.type := by
  rw [valueAddTag] at done
  split at done
  case isTrue => cases (Prod.mk.inj done).2
  case isFalse other =>
    refine ⟨not_not.mp (mt other_iff.mpr other), ?_⟩
    -- the value is kept, or set without a look at the type
    split at done
    · rw [← (Prod.mk.inj done).1]
    · split at done
      · rw [← (Prod.mk.inj done).1]
      · rw [valueAppendTag, valueExtend, if_neg other] at done
        split at done
        · rw [← (Prod.mk.inj done).1]
        · split at done
          · cases (Prod.mk.inj done).2
          · exact setValue_type done

theorem mapTags_type {more : List (List Char)}
    (done : mapTags valueAddTag res more = (after, true)) : after.type = res.type := by
  induction more generalizing res with
  | nil => rw [← (Prod.mk.inj done).1]
  | cons token more ih =>
    rw [mapTags] at done
    split at done
    case h_1 => cases (Prod.mk.inj done).2
    case h_2 next added => exact (ih done).trans (valueAddTag_type added).2

theorem either_congr (same : after.type = res.type) :
    (isString after || isList after) = (isString res || isList res) := by
  simp only [isString, isList, same]

/-- The new tags come behind the old ones, and adding them again changes nothing. -/
theorem valueAddTags_tokens {extraTags : String} (done : valueAddTags res extraTags = (after, true)) :
    tagsOf after = tagsOf res ++
        newOnes (tagsOf res) (tokens allowedSeparator extraTags.toList) ∧
      valueAddTags after extraTags = (after, true) := by
  have tags : ∀ token ∈ tokens allowedSeparator extraTags.toList, IsTag (String.ofList token) :=
    fun token member => isTag_of_mem member
  rw [valueAddTags, valueMapTagstring] at done
  split at done
  case isTrue => cases (Prod.mk.inj done).2
  case isFalse other =>
    have either := not_not.mp (mt other_iff.mpr other)
    have added := mapTags_tokens tags done
    have either' := (either_congr (mapTags_type done)).trans either
    refine ⟨added, ?_⟩
    rw [valueAddTags, valueMapTagstring, if_neg (mt other_iff.mp (not_not_intro either'))]
    apply mapTags_there tags either'
    rw [added]
    exact newOnes_subset _ _

/-! ## Replacing a tag -/

/-- The new text stands in the place of the first tag which is equal to the old one. -/
def ReplacedFirst (oldTag newTag : String) (res after : TypedResource) : Prop :=
  ∃ before behind, curValue res = before ++ (oldTag.toList ++ behind) ∧
    curValue after = before ++ (newTag.toList ++ behind) ∧
    oldTag.toList ∉ tokens allowedSeparator before ∧
    tagsOf res = tokens allowedSeparator before ++ oldTag.toList :: tokens allowedSeparator behind ∧
    tagsOf after = tokens allowedSeparator before ++ newTag.toList :: tokens allowedSeparator behind

theorem splice_done {location oldLen : Nat} {newText : List Char}
    (done : splice res location oldLen newText = (after, true)) :
    curValue after =
      (curValue res).take location ++ newText ++ (curValue res).drop (location + oldLen) := by
  rw [splice] at done
  split at done
  case isTrue empty =>
    rw [unsetValue] at done
    rw [← (Prod.mk.inj done).1, empty]
    rfl
  case isFalse => rw [setValue_done done, curValue_set]

theorem cut_around {before old behind : List Char} {location : Nat}
    (length : before.length = location) (more : Nat) :
    (before ++ (old ++ behind)).take location = before ∧
      (before ++ (old ++ behind)).drop (location + (old.length + more)) = behind.drop more := by
  subst length
  refine ⟨List.take_left, ?_⟩
  rw [← List.drop_drop, List.drop_left, ← List.drop_drop, List.drop_left]

theorem valueReplaceTag_tokens {oldTag newTag : String} (isOld : IsTag oldTag) (isNew : IsTag newTag)
    (different : oldTag ≠ newTag)
    (done : valueReplaceTag res (some oldTag) (some newTag) = some (after, true)) :
    ReplacedFirst oldTag newTag res after := by
  have noRemoval : (newTag == "") = false := beq_eq_false_iff_ne.mpr isNew.1
  rw [valueReplaceTag, replaceText] at done
  split at done
  · cases (Prod.mk.inj (Option.some_inj.mp done)).2
  · rw [isOld.given, if_neg Bool.false_ne_true, Option.map_some, Option.some_inj] at done
    simp only [Option.getD_some, if_neg different, noRemoval, Bool.false_eq_true, if_false] at done
    split at done
    · cases (Prod.mk.inj done).2
    · split at done
      · cases (Prod.mk.inj done).2
      · split at done
        case h_1 => cases (Prod.mk.inj done).2
        case h_2 location found =>
          have first := valueFindTag_spec res isOld
          rw [found] at first
          obtain ⟨before, behind, whole, length, closed, opens, new⟩ :=
            first.cut isOld.filled isOld.2
          have result := splice_done done
          obtain ⟨front, back⟩ := @cut_around before oldTag.toList behind location length 0
          rw [whole, front, String.length_toList.symm, back, List.drop_zero, List.append_assoc]
            at result
          refine ⟨before, behind, whole, result, new, ?_, ?_⟩
          · rw [tagsOf, whole, Fields.tokens_around isOld.filled isOld.2 closed opens]
          · rw [tagsOf, result, Fields.tokens_around isNew.filled isNew.2 closed opens]

/-- The length of the new text as it is computed, where the difference of the two lengths may
be negative. -/
def spliceLen (curLen oldLen newLen : Nat) : Nat :=
  (curLen + 2 ^ 64 - (oldLen + 2 ^ 64 - newLen) % 2 ^ 64) % 2 ^ 64

/-- The buffer has the length of what is written to it. -/
theorem spliceLen_eq {text newText : List Char} {location oldLen : Nat}
    (inside : location + oldLen ≤ text.length) (small : text.length < 2 ^ 64)
    (fits : text.length + newText.length < 2 ^ 64) :
    spliceLen text.length oldLen newText.length =
      (text.take location ++ newText ++ text.drop (location + oldLen)).length := by
  rw [spliceLen, List.length_append, List.length_append, List.length_take, List.length_drop,
    Nat.min_eq_left (by omega)]
  omega

/-- Tags are added behind the others, each once, and adding them again changes nothing; a
replacement changes the first tag which is equal to the old one, and nothing around it. -/
theorem added_replaced_tokens (res : TypedResource) :
    (∀ extraTags after, valueAddTags res extraTags = (after, true) →
      tagsOf after = tagsOf res ++
          newOnes (tagsOf res) (tokens allowedSeparator extraTags.toList) ∧
        valueAddTags after extraTags = (after, true)) ∧
    ∀ oldTag newTag after, IsTag oldTag → IsTag newTag → oldTag ≠ newTag →
      valueReplaceTag res (some oldTag) (some newTag) = some (after, true) →
      ReplacedFirst oldTag newTag res after :=
  ⟨fun _ _ done => valueAddTags_tokens done,
    fun _ _ _ isOld isNew different done => valueReplaceTag_tokens isOld isNew different done⟩

instance (tag : String) : Decidable (IsTag tag) :=
  @instDecidableAnd _ _ _ (List.decidableBAll _ _)

/-- A value with two tags. -/
def tagsSample : TypedResource := { new with value := some "alice bob" }

theorem tagsSample_tokens :
    tagsOf { tagsSample with value := some "alice bob carol" } =
        tagsOf tagsSample ++ ["carol".toList] ∧
      ReplacedFirst "bob" "al" tagsSample { tagsSample with value := some "alice al" } := by
  obtain ⟨adds, replaces⟩ := added_replaced_tokens tagsSample
  constructor
  · have added := adds "bob carol\tcarol" { tagsSample with value := some "alice bob carol" }
      (by decide)
    have new_ : newOnes (tagsOf tagsSample) (tokens allowedSeparator "bob carol\tcarol".toList) =
        ["carol".toList] := by decide
    rw [new_] at added
    exact added.1
  · exact replaces "bob" "al" _ (by decide) (by decide) (by decide) (by decide)

/-! ## Removing tags -/

/-- `lcfgresource_value_remove_tag` -/
def valueRemoveTag (res : TypedResource) (unwantedTag : Option String) :
    Option (TypedResource × Bool) :=
  valueReplaceTag res unwantedTag none

/-- The loop of `lcfgresource_value_map_tagstring` for removals, which may be undefined. -/
def mapRemovals (res : TypedResource) : List (List Char) → Option (TypedResource × Bool)
  | [] => some (res, true)
  | tag :: tags =>
    match valueRemoveTag res (some (String.ofList tag)) with
    | none => none
    | some (res, false) => some (res, false)
    | some (res, true) => mapRemovals res tags

/-- `lcfgresource_value_remove_tags` -/
def valueRemoveTags (res : TypedResource) (unwantedTags : String) : Option (TypedResource × Bool) :=
  if !isString res && !isList res then some (res, false)
  else mapRemovals res (tokens allowedSeparator unwantedTags.toList)

/-- The removal is defined, succeeds, and erases the first occurrence of the tag. -/
def RemovesTag (res : TypedResource) (unwantedTag : String) : Prop :=
  ∃ after, valueRemoveTag res (some unwantedTag) = some (after, true) ∧
    tagsOf after = (tagsOf res).erase unwantedTag.toList

/-- The same for one tag after another. -/
def RemovesTags (res : TypedResource) (unwantedTags : String) : Prop :=
  ∃ after, valueRemoveTags res unwantedTags = some (after, true) ∧
    tagsOf after = (tokens allowedSeparator unwantedTags.toList).foldl List.erase (tagsOf res)

/-- The tag is compared with the null pointer. -/
theorem valueRemoveTag_undefined (either : (isString res || isList res) = true)
    (some_ : tag ≠ "") : valueRemoveTag res (some tag) = none := by
  have given : Lcfg.isEmpty (some tag) = false :=
    isEmpty_eq_false.mpr (mt String.toList_eq_nil_iff.mp some_)
  rw [valueRemoveTag, valueReplaceTag, replaceText, if_neg (mt other_iff.mp (not_not_intro either)),
    given]
  rfl

theorem removesTags_iff (either : (isString res || isList res) = true) (unwantedTags : String) :
    RemovesTags res unwantedTags ↔ tokens allowedSeparator unwantedTags.toList = [] := by
  rw [RemovesTags, valueRemoveTags, if_neg (mt other_iff.mp (not_not_intro either))]
  cases tags : tokens allowedSeparator unwantedTags.toList with
  | nil => exact ⟨fun _ => rfl, fun _ => ⟨res, rfl, rfl⟩⟩
  | cons token more =>
    have isTag : IsTag (String.ofList token) := isTag_of_mem (by
      rw [tags]
      exact List.mem_cons_self)
    rw [mapRemovals, valueRemoveTag_undefined either isTag.1]
    constructor
    · rintro ⟨after, done, -⟩
      cases done
    · intro none_
      cases none_

theorem validList_sub {value value' : String} (valid : validList value = true)
    (sub : value'.toList ⊆ value.toList) : validList value' = true := by
  rw [validList, List.all_eq_true] at valid ⊢
  exact fun c member => valid c (sub member)

/-- A value of a string or a list stays valid when a part of it is left out. -/
theorem fits_sub (either : (isString res || isList res) = true) (fits : Fits res)
    {text : List Char} (sub : text ⊆ curValue res) (some_ : text ≠ []) :
    validValueForType res.type (String.ofList text) = true := by
  cases valued : res.value with
  | none =>
    rw [curValue, valued] at sub
    exact absurd (List.subset_nil.mp sub) some_
  | some value =>
    rw [curValue, valued, Option.getD_some] at sub
    have valid := fits value valued
    cases type : res.type with
    | list =>
      rw [type] at valid
      exact validList_sub valid (by rwa [String.toList_ofList])
    | string => rfl
    | publish => rfl
    | subscribe => rfl
    | integer => simp [isString, isList, type] at either
    | boolean => simp [isString, isList, type] at either

theorem splice_ok {location oldLen : Nat} (either : (isString res || isList res) = true)
    (fits : Fits res) : (splice res location oldLen []).2 = true := by
  rw [splice]
  split
  case isTrue => rfl
  case isFalse some_ =>
    rw [List.append_nil] at some_ ⊢
    have sub : (curValue res).take location ++ (curValue res).drop (location + oldLen) ⊆
        curValue res :=
      List.append_subset.mpr ⟨List.take_subset _ _, List.drop_subset _ _⟩
    rw [setValue, validValue, Option.any_some, fits_sub either fits sub some_]
    rfl

/-- A replacement by the empty string does remove the tag. -/
theorem valueReplaceTag_removes (either : (isString res || isList res) = true) (fits : Fits res)
    (isTag : IsTag tag) :
    ∃ after, valueReplaceTag res (some tag) (some "") = some (after, true) ∧
      tagsOf after = (tagsOf res).erase tag.toList := by
  have empty : validList "" = true := by decide
  have notFound (none_ : tag.toList ∉ tagsOf res) :
      tagsOf res = (tagsOf res).erase tag.toList := (List.erase_of_not_mem none_).symm
  rw [valueReplaceTag, replaceText, if_neg (mt other_iff.mp (not_not_intro either)), isTag.given,
    if_neg Bool.false_ne_true, Option.map_some]
  simp only [Option.getD_some, if_neg isTag.1, empty, Bool.not_true, Bool.and_false,
    Bool.false_eq_true, if_false, beq_self_eq_true, if_true]
  have first := valueFindTag_spec res isTag
  split
  case isTrue missing =>
    refine ⟨res, rfl, notFound ?_⟩
    have none_ : ¬hasValue res = true := by simpa using missing
    have nothing : curValue res = [] := not_not.mp (mt (hasValue_iff_curValue res).mpr none_)
    rw [tagsOf, nothing]
    exact List.not_mem_nil
  case isFalse =>
    split
    case h_1 found =>
      rw [found] at first
      refine ⟨res, rfl, notFound fun member => ?_⟩
      obtain ⟨p, item⟩ := (Items.exists_item_iff isTag.filled isTag.2).mpr member
      exact first p item
    case h_2 location found =>
      rw [found] at first
      obtain ⟨before, behind, whole, length, closed, opens, new⟩ := first.cut isTag.filled isTag.2
      obtain ⟨front, back⟩ := @cut_around before tag.toList behind location length 0
      obtain ⟨-, rest⟩ := @cut_around before tag.toList behind location length
        (behind.takeWhile allowedSeparator).length
      rw [Nat.add_zero, List.drop_zero, ← whole] at back
      rw [← whole] at front rest
      rw [← String.length_toList, back, String.toList_empty]
      have done := @splice_ok res location
        (tag.toList.length + (behind.takeWhile allowedSeparator).length) either fits
      refine ⟨_, congrArg some (Prod.ext rfl done), ?_⟩
      have result := splice_done (Prod.ext rfl done)
      rw [front, rest, List.append_nil, Fields.drop_takeWhile] at result
      rw [tagsOf, result, closed.tokens_append, Fields.tokens_dropWhile, tagsOf, whole,
        Fields.tokens_around isTag.filled isTag.2 closed opens, List.erase_append_right _ new,
        List.erase_cons_head]

/-- Whenever a tag is to be removed from a string or a list, it is compared with a null
pointer. -/
theorem removals_undefined (res : TypedResource) (either : (isString res || isList res) = true)
    (tag : String) (isTag : IsTag tag) (unwantedTags : String) :
    ¬ RemovesTag res tag ∧
      (RemovesTags res unwantedTags ↔ tokens allowedSeparator unwantedTags.toList = []) := by
  refine ⟨?_, removesTags_iff either unwantedTags⟩
  rintro ⟨after, done, -⟩
  rw [valueRemoveTag_undefined either isTag.1] at done
  cases done

theorem tagsSample_undefined :
    ¬ RemovesTag tagsSample "alice" ∧
      (RemovesTags tagsSample "alice" ↔ tokens allowedSeparator "alice".toList = []) :=
  removals_undefined tagsSample (by decide) "alice" (by decide) "alice"

theorem tagsSample_not_removed :
    ¬ RemovesTag tagsSample "bob" ∧ ¬ RemovesTags tagsSample "alice bob" := by
  constructor
  · rintro ⟨after, done, -⟩
    rw [valueRemoveTag_undefined (by decide) (by decide)] at done
    cases done
  · intro removes
    have none_ := (removesTags_iff (by decide) _).mp removes
    revert none_
    decide

end TypedResource

end Lcfg
