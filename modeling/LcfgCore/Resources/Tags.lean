import LcfgCore.Components.ResList
import LcfgCore.Library.BubbleSort
import LcfgCore.Library.Fields
import LcfgCore.Library.Select

/-!
# Tag lists

Lists of names (`resources/tags`). A tag is represented by its name.
-/
namespace Lcfg

abbrev LCFGTagList := List String

namespace TagList

def validTag (name : String) : Bool := name != "" && name.toList.all isWord

def contains (taglist : LCFGTagList) (name : String) : Bool := taglist.any fun tag => tag == name

/-- `lcfgtaglist_mutate_append`: white space before the name is left out. -/
def mutateAppend (taglist : LCFGTagList) (tagname : String) : LCFGTagList × LCFGChange :=
  let name := String.ofList (tagname.toList.dropWhile isSpace)
  if validTag name then (taglist ++ [name], .added) else (taglist, .error)

def mutateAdd (taglist : LCFGTagList) (tagname : String) : LCFGTagList × LCFGChange :=
  if contains taglist tagname then (taglist, .none) else mutateAppend taglist tagname

/-- `tag_seps` -/
def isTagSep (c : Char) : Bool := " \t\r\n".toList.contains c

/-- One round of the loop in `lcfgtaglist_from_string`. -/
def appendToken (taglist : LCFGTagList) (token : List Char) : Except String LCFGTagList :=
  match mutateAppend taglist (String.ofList token) with
  | (_, .error) =>
    let name := String.ofList (token.dropWhile isSpace)
    .error (if name = "" then "Empty tag" else "Invalid tag name '" ++ name ++ "'")
  | (taglist, _) => .ok taglist

/-- `lcfgtaglist_from_string` -/
def fromString (input : List Char) : Except String LCFGTagList :=
  (Fields.tokens isTagSep input).foldlM appendToken []

/-- Appends the tags which pass, each of them once. -/
def collect (keep : String → Bool) (result : LCFGTagList) : LCFGTagList → LCFGTagList
  | [] => result
  | name :: rest =>
    if keep name && !contains result name then collect keep (result ++ [name]) rest
    else collect keep result rest

def setUnique (taglist : LCFGTagList) : LCFGTagList := collect (fun _ => true) [] taglist

def setUnion (taglist1 taglist2 : LCFGTagList) : LCFGTagList :=
  collect (fun _ => true) (setUnique taglist1) taglist2

def setIntersection (taglist1 taglist2 : LCFGTagList) : LCFGTagList :=
  collect (contains taglist2) [] taglist1

def setSubtract (taglist1 taglist2 : LCFGTagList) : LCFGTagList :=
  collect (fun name => !contains taglist2 name) [] taglist1

/-- `lcfgtaglist_sort` -/
def sort (taglist : LCFGTagList) : LCFGTagList :=
  if taglist.length < 2 then taglist
  else BubbleSort.sort (fun cur next => strcmp cur next > 0) taglist

@[simp] theorem contains_iff {taglist : LCFGTagList} {name : String} :
    contains taglist name = true ↔ name ∈ taglist := by
  simp [contains]

/-- A valid tag is appended as it is. -/
theorem mutateAppend_valid (taglist : LCFGTagList) {name : String} (valid : validTag name = true) :
    mutateAppend taglist name = (taglist ++ [name], .added) := by
  have word : ∀ c ∈ name.toList, isWord c = true := by
    rw [validTag, Bool.and_eq_true, List.all_eq_true] at valid
    exact valid.2
  have same : name.toList.dropWhile isSpace = name.toList := by
    cases text : name.toList with
    | nil => rfl
    | cons c rest =>
      have first := isSpace_of_word (word c (text ▸ List.mem_cons_self))
      exact List.dropWhile_cons_of_neg (by simp [first])
  rw [mutateAppend, same, String.ofList_toList, if_pos valid]

/-- The names of resources and components are tags. -/
theorem validTag_of_validName {name : String} (valid : Resource.validName (some name) = true) :
    validTag name = true := by
  rw [Resource.validName] at valid
  split at valid
  · cases valid
  · next c rest text =>
    rw [Bool.and_eq_true, List.all_eq_true] at valid
    have word : isWord c = true := by simp [isWord, Char.isAlphanum, valid.1]
    rw [validTag, text, Bool.and_eq_true, List.all_cons, word, Bool.true_and,
      List.all_eq_true]
    refine ⟨?_, valid.2⟩
    rw [bne_iff_ne]
    rintro rfl
    cases text

theorem mutateAdd_valid (taglist : LCFGTagList) {name : String}
    (valid : Resource.validName (some name) = true) :
    (mutateAdd taglist name).2 ≠ .error ∧
      ∀ tag, tag ∈ (mutateAdd taglist name).1 ↔ tag ∈ taglist ∨ tag = name := by
  rw [mutateAdd]
  split
  case isTrue old =>
    rw [contains_iff] at old
    refine ⟨by simp, fun tag => ⟨Or.inl, ?_⟩⟩
    rintro (here | rfl)
    · exact here
    · exact old
  case isFalse =>
    rw [mutateAppend_valid _ (validTag_of_validName valid)]
    exact ⟨by simp, fun tag => by simp⟩

/-- A list of valid tags is read back from the text with its names. -/
theorem fromString_intercalate {names : List String}
    (valid : ∀ name ∈ names, validTag name = true) :
    fromString ([' '].intercalate (names.map String.toList)) = .ok names := by
  have word {name : String} (member : name ∈ names) {c : Char} (inside : c ∈ name.toList) :
      isWord c = true := by
    have good := valid name member
    rw [validTag, Bool.and_eq_true, List.all_eq_true] at good
    exact good.2 c inside
  have read : Fields.tokens isTagSep ([' '].intercalate (names.map String.toList)) =
      names.map String.toList := by
    apply Fields.tokens_intercalate (by decide)
    intro part inside
    obtain ⟨name, member, rfl⟩ := List.mem_map.mp inside
    constructor
    · intro empty
      have good := valid name member
      rw [String.toList_eq_nil_iff.mp empty] at good
      cases good
    · intro c there
      have blank : ∀ d ∈ " \t\r\n".toList, isWord d = false := Fields.of_all (by decide)
      have isWord_c := word member there
      rw [Bool.eq_false_iff]
      intro sep
      rw [blank c (List.contains_iff_mem.mp sep)] at isWord_c
      cases isWord_c
  have appended (names : List String) (ok : ∀ name ∈ names, validTag name = true)
      (taglist : LCFGTagList) :
      (names.map String.toList).foldlM appendToken taglist = .ok (taglist ++ names) := by
    induction names generalizing taglist with
    | nil =>
      rw [List.append_nil]
      rfl
    | cons name rest ih =>
      have first : appendToken taglist name.toList = .ok (taglist ++ [name]) := by
        rw [appendToken, String.ofList_toList, mutateAppend_valid _ (ok name List.mem_cons_self)]
      rw [List.map_cons, List.foldlM_cons, first]
      have later := ih (fun other member => ok other (List.mem_cons_of_mem _ member))
        (taglist ++ [name])
      rw [List.append_assoc] at later
      exact later
  rw [fromString, read]
  exact appended names valid []

theorem length_le_collect (keep : String → Bool) (result taglist : LCFGTagList) :
    result.length ≤ (collect keep result taglist).length := by
  induction taglist generalizing result with
  | nil => exact Nat.le_refl _
  | cons tag rest ih =>
    rw [collect]
    split
    · have longer := ih (result ++ [tag])
      rw [List.length_append] at longer
      exact Nat.le_of_add_right_le longer
    · exact ih result

/-- The loop selects the tags which pass. -/
theorem collect_selects (keep : String → Bool) {seen result : LCFGTagList}
    (selects : Selects (keep · = true) seen result) (taglist : LCFGTagList) :
    Selects (keep · = true) (seen ++ taglist) (collect keep result taglist) := by
  induction taglist generalizing seen result with
  | nil => rwa [List.append_nil]
  | cons tag rest ih =>
    rw [List.append_cons, collect]
    split
    case isTrue fresh =>
      rw [Bool.and_eq_true, Bool.not_eq_true', ← Bool.not_eq_true, contains_iff] at fresh
      exact ih (selects.add fresh.1 fresh.2)
    case isFalse stale =>
      rw [Bool.and_eq_true, Bool.not_eq_true', ← Bool.not_eq_true, contains_iff, not_and,
        not_not] at stale
      exact ih (selects.skip stale)

theorem setUnique_selects (taglist : LCFGTagList) :
    Selects (fun _ => True) taglist (setUnique taglist) := by
  have selects := collect_selects (fun _ => true) .nil taglist
  simp only at selects
  exact selects

theorem setUnion_selects (taglist1 taglist2 : LCFGTagList) :
    Selects (fun _ => True) (taglist1 ++ taglist2) (setUnion taglist1 taglist2) := by
  have selects := collect_selects (fun _ => true)
    (collect_selects (fun _ => true) .nil taglist1) taglist2
  simp only [List.nil_append] at selects
  exact selects

theorem setIntersection_selects (taglist1 taglist2 : LCFGTagList) :
    Selects (· ∈ taglist2) taglist1 (setIntersection taglist1 taglist2) := by
  have selects := collect_selects (contains taglist2) .nil taglist1
  simp only [contains_iff] at selects
  exact selects

theorem setSubtract_selects (taglist1 taglist2 : LCFGTagList) :
    Selects (· ∉ taglist2) taglist1 (setSubtract taglist1 taglist2) := by
  have selects := collect_selects (fun name => !contains taglist2 name) .nil taglist1
  simp only [Bool.not_eq_true', ← Bool.not_eq_true, contains_iff] at selects
  exact selects

theorem mem_setIntersection {taglist1 taglist2 : LCFGTagList} {name : String} :
    name ∈ setIntersection taglist1 taglist2 ↔ name ∈ taglist1 ∧ name ∈ taglist2 :=
  (setIntersection_selects taglist1 taglist2).mem_iff name

theorem mem_setSubtract {taglist1 taglist2 : LCFGTagList} {name : String} :
    name ∈ setSubtract taglist1 taglist2 ↔ name ∈ taglist1 ∧ name ∉ taglist2 :=
  (setSubtract_selects taglist1 taglist2).mem_iff name

theorem setIntersection_nodup (taglist1 taglist2 : LCFGTagList) :
    (setIntersection taglist1 taglist2).Nodup :=
  (setIntersection_selects taglist1 taglist2).nodup

theorem setSubtract_nodup (taglist1 taglist2 : LCFGTagList) :
    (setSubtract taglist1 taglist2).Nodup :=
  (setSubtract_selects taglist1 taglist2).nodup

theorem sort_perm (taglist : LCFGTagList) : (sort taglist).Perm taglist := by
  rw [sort]
  split
  · exact .refl _
  · exact BubbleSort.sort_perm _

end TagList

end Lcfg
