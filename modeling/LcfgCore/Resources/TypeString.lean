import LcfgCore.Resources.Setters

/-!
# Types read back

The text for the type of a resource has its name, its comment and its templates, one after
the other (`resources/resource.c`).

## Main result

`setTypeAsString_getTypeAsString`: a new resource for which the text is set has the type, the
comment and the templates of the resource it was written for.
-/
namespace Lcfg

namespace TypedResource

/-- The texts of templates which have been read from a string, if there are any. -/
def Accepted (template : List String) : Prop :=
  template = [] ∨ ∃ input templates, Template.fromString input = .ok templates ∧
    template = templates.map Template.text

/-- An empty comment is none. -/
def givenComment (res : TypedResource) : Option String := res.comment.filter (· ≠ "")

/-- The comment in its brackets. -/
def commentText (comment : Option String) : List Char :=
  comment.elim [] fun comment => '(' :: comment.toList ++ [')']

/-- The templates of a list. -/
def detailsText (type : LCFGResourceType) (template : List String) : List Char :=
  if type = .list then ": ".toList ++ templateText template else []

/-- A resource for which no type has been set yet, with a value which the type allows. -/
structure Untyped (type : LCFGResourceType) (start : TypedResource) : Prop where
  string : start.type = .string
  comment : start.comment = none
  template : start.template = []
  fits : start.value.all (validValueForType type) = true

variable {res start : TypedResource}

theorem new_untyped (type : LCFGResourceType) : Untyped type new := ⟨rfl, rfl, rfl, rfl⟩

theorem givenComment_ne (res : TypedResource) : givenComment res ≠ some "" := by
  intro same
  rw [givenComment, Option.filter_eq_some_iff] at same
  simp at same

theorem getTypeAsString_eq (res : TypedResource) : getTypeAsString res false =
    (typeName res.type).toList ++
      (commentText (givenComment res) ++ detailsText res.type res.template) := by
  have commented : (if hasComment res then '(' :: (res.comment.getD "").toList ++ [')'] else []) =
      commentText (givenComment res) := by
    cases given : res.comment with
    | none => simp [hasComment, isEmpty, given, givenComment, commentText]
    | some text =>
      by_cases empty : text = ""
      · simp [hasComment, isEmpty, given, givenComment, Option.filter_some, empty, commentText]
      · simp [hasComment, isEmpty, given, givenComment, Option.filter_some, empty, commentText]
  rw [getTypeAsString, commented, detailsText, List.append_assoc]
  simp

/-! ## The type -/

theorem typeName_begins (type : LCFGResourceType) :
    ∃ c more, (typeName type).toList = c :: more ∧ isSpace c = false ∧ c ≠ '%' := by
  cases type <;> exact ⟨_, _, rfl, by decide, by decide⟩

theorem typeName_free (type : LCFGResourceType) :
    ∀ c ∈ (typeName type).toList, c ≠ '(' ∧ c ≠ ':' := by
  cases type <;> exact Fields.of_all (by decide)

theorem typeOfText_typeName (type : LCFGResourceType) (rest : List Char) :
    typeOfText ((typeName type).toList ++ rest) = some type := by
  cases type <;> simp [typeOfText, typeName, List.isPrefixOf]

/-- For a text which begins with a type, only the details are left to be read. -/
theorem setTypeAsString_typeName {type : LCFGResourceType} (untyped : Untyped type start)
    (rest : List Char) :
    setTypeAsString start (some (String.ofList ((typeName type).toList ++ rest))) =
      setTypeDetails { start with type } type ((typeName type).toList ++ rest) := by
  obtain ⟨c, more, begins, spaced, other⟩ := typeName_begins type
  have found := typeOfText_typeName type rest
  have typed : setType start type = ({ start with type }, true) := by
    rw [setType, if_pos untyped.fits]
    split
    case isTrue same =>
      subst same
      rfl
    case isFalse => rfl
  rw [begins] at found ⊢
  rw [setTypeAsString, Option.getD_some, String.toList_ofList, List.cons_append,
    List.dropWhile_cons_of_neg (by simp [spaced])]
  have notPercent : ¬ (c :: (more ++ rest)).head? = some '%' := by
    rw [List.head?_cons, Option.some_inj]
    exact other
  simp only [List.cons_ne_nil, if_false, if_neg notPercent]
  rw [List.cons_append] at found
  rw [found]
  simp only [typed]

/-! ## The comment -/

theorem cutComment_none {typeStr : List Char} (free : '(' ∉ typeStr) :
    cutComment typeStr = (none, typeStr) := by
  have all : typeStr.dropWhile (· != '(') = [] := by
    rw [List.dropWhile_eq_nil_iff]
    intro c member
    simpa using fun same : c = '(' => free (same ▸ member)
  rw [cutComment, all]

theorem cutComment_some {before comment : List Char} (free : '(' ∉ before) (closed : ')' ∉ comment)
    (rest : List Char) :
    cutComment (before ++ '(' :: (comment ++ ')' :: rest)) = (some comment, rest) := by
  have opens : (before ++ '(' :: (comment ++ ')' :: rest)).dropWhile (· != '(') =
      '(' :: (comment ++ ')' :: rest) := by
    apply Fields.dropWhile_cut _ (by decide)
    intro c member
    simpa using fun same : c = '(' => free (same ▸ member)
  have inside : ∀ c ∈ comment, (c != ')') = true := by
    intro c member
    simpa using fun same : c = ')' => closed (same ▸ member)
  rw [cutComment, opens]
  simp only [Fields.dropWhile_cut inside (by decide : (')' != ')') = false),
    Fields.takeWhile_cut inside (by decide : (')' != ')') = false)]

/-! ## The templates -/

theorem templateText_map (templates : List LCFGTemplate) :
    templateText (templates.map Template.text) = Template.toString templates none false := by
  simp [templateText, Template.toString, Function.comp_def]

theorem setTemplate_parsed {templates : List LCFGTemplate}
    (parsed : ∀ template ∈ templates, Template.Parsed template) (res : TypedResource) :
    setTemplate res templates = ({ res with template := templates.map Template.text }, true) := by
  rw [setTemplate, if_pos]
  rw [Option.all_eq_true]
  intro template first
  cases text : template.tmpl with
  | some _ => rfl
  | none =>
    have some_ := (Template.parsed_plain (parsed template (List.mem_of_mem_head? first))).1
    rw [Template.text, text] at some_
    exact absurd rfl some_

/-- Templates are read back from where they begin. -/
theorem setTemplateAsString_templateText {template : List String} (accepted : Accepted template)
    (some_ : template ≠ []) (res : TypedResource) :
    (templateText template).dropWhile isSpace = templateText template ∧
      templateText template ≠ [] ∧
      setTemplateAsString res (some (String.ofList (templateText template))) =
        { res := { res with template }, ok := true } := by
  obtain ⟨input, templates, read, rfl⟩ := accepted.resolve_left some_
  have parsed := Template.fromString_parsed read
  have notNil : templates ≠ [] := by
    rintro rfl
    exact some_ rfl
  obtain ⟨c, rest, begins, plain⟩ := Template.toString_first parsed notNil
  have again := Template.fromString_toString parsed notNil
  have notEmpty : String.ofList (c :: rest) ≠ "" := by
    intro empty
    have nothing := congrArg String.toList empty
    rw [String.toList_ofList] at nothing
    cases nothing
  rw [templateText_map]
  rw [begins] at again ⊢
  refine ⟨?_, List.cons_ne_nil _ _, ?_⟩
  · exact List.dropWhile_cons_of_neg (by simp [Template.isSpace_of_plain plain])
  · rw [setTemplateAsString]
    simp only [if_neg notEmpty, again]
    cases templates with
    | nil => exact absurd rfl notNil
    | cons template templates => simp only [setTemplate_parsed parsed]

theorem templateText_free {template : List String} (accepted : Accepted template) :
    '(' ∉ templateText template := by
  intro member
  rcases accepted with rfl | ⟨input, templates, read, rfl⟩
  · cases member
  · rcases Fields.mem_intercalate member with blank | ⟨part, inside, there⟩
    · exact absurd blank (by decide)
    · obtain ⟨text, there', rfl⟩ := List.mem_map.mp inside
      obtain ⟨template, from_, rfl⟩ := List.mem_map.mp there'
      have plain := (Template.parsed_plain (Template.fromString_parsed read template from_)).2
      exact absurd (plain '(' there) (by decide)

/-! ## All of it -/

/-- The details of a text after its name and its comment. -/
private theorem detailsText_read {posn before : List Char} {template : List String}
    (free : ∀ c ∈ before, c ≠ ':') (cut : posn = before ++ (": ".toList ++ templateText template)) :
    Substring.find [':', ' '] posn = some before.length ∧
      posn.drop (before.length + 2) = templateText template := by
  have walked : ∀ x ∈ before, [':', ' '].head? ≠ some x := by
    intro x member same
    exact free x member (Option.some_inj.mp same).symm
  have starts : ": ".toList ++ templateText template = [':', ' '] ++ templateText template := rfl
  rw [cut]
  constructor
  · rw [Substring.find_append_of_free (by simp) walked, starts, Substring.find_append_right]
    simp
  · rw [List.drop_append, List.drop_eq_nil_of_le (by omega), List.nil_append,
      Nat.add_sub_cancel_left, starts]
    rfl

/-- A resource for which a type is set with its details. -/
def typed (start : TypedResource) (type : LCFGResourceType) (comment : Option String)
    (template : List String) : TypedResource :=
  { start with type, comment, template := if type = .list then template else [] }

/-- A string without a comment is what a new resource is. -/
theorem typed_plain (untyped : Untyped .string start) (plain : hasComment res = false) :
    typed start .string (givenComment res) res.template = start := by
  have noComment : givenComment res = none := by
    rw [hasComment, Bool.not_eq_false'] at plain
    rw [givenComment, Option.filter_eq_none_iff]
    intro comment said
    rw [said, isEmpty, beq_iff_eq] at plain
    simp [plain]
  obtain ⟨string, comment, template, -⟩ := untyped
  rw [typed, noComment, if_neg (by decide)]
  cases start
  cases string
  cases comment
  cases template
  rfl

/-- The details of a type which has been set, from where the templates are looked for. -/
private theorem setTypeDetails_read {typeStr posn before : List Char} {cut : Option (List Char)}
    {comment : Option String} {type : LCFGResourceType} {template : List String}
    (untyped : Untyped type start) (given : cutComment typeStr = (cut, posn)) (same : comment = cut.map String.ofList)
    (some_ : cut ≠ some []) (free : ∀ c ∈ before, c ≠ ':')
    (follows : posn = before ++ detailsText type template)
    (accepted : type = .list → Accepted template) :
    setTypeDetails { start with type } type typeStr =
      { res := typed start type comment template, ok := true } := by
  have commented : setFoundComment { start with type } cut = ({ start with type, comment }, true) := by
    subst same
    match cut, some_ with
    | none, _ => simp [setFoundComment, ← untyped.comment]
    | some [], some_ => exact absurd rfl some_
    | some (c :: more), _ => rfl
  rw [setTypeDetails, given]
  simp only [commented, Bool.true_and, decide_eq_true_eq, typed]
  -- only the type list is followed by templates
  by_cases list : type = .list
  · have details : posn = before ++ (": ".toList ++ templateText template) := by
      rw [follows, detailsText, if_pos list]
    obtain ⟨found, rest⟩ := detailsText_read free details
    simp only [if_pos list, found, rest]
    by_cases none_ : template = []
    · have nothing : (templateText template).dropWhile isSpace = [] := by
        rw [none_]
        rfl
      rw [if_pos nothing]
      simp only [none_, untyped.template]
    · obtain ⟨unspaced, notNil, done⟩ := setTemplateAsString_templateText (accepted list) none_
        { start with type, comment }
      simp only [unspaced, if_neg notNil, done]
  · simp only [if_neg list, ← untyped.template]

/-- The comment, if any, has no closing bracket, and the templates of a list have been
accepted: then the type is read back with all it says. -/
theorem setTypeAsString_eq (untyped : Untyped res.type start)
    (closed : ∀ comment ∈ givenComment res, ')' ∉ comment.toList)
    (accepted : res.type = .list → Accepted res.template) :
    setTypeAsString start (some (String.ofList (getTypeAsString res false))) =
      { res := typed start res.type (givenComment res) res.template, ok := true } := by
  rw [getTypeAsString_eq, setTypeAsString_typeName untyped]
  have nameFree : '(' ∉ (typeName res.type).toList := fun member =>
    (typeName_free res.type '(' member).1 rfl
  cases given : givenComment res with
  -- without a comment there is no opening bracket before the details
  | none =>
    have free : '(' ∉ (typeName res.type).toList ++ detailsText res.type res.template := by
      rw [List.mem_append, not_or, detailsText]
      refine ⟨nameFree, ?_⟩
      split
      case isTrue list =>
        rw [List.mem_append, not_or]
        exact ⟨by decide, templateText_free (accepted list)⟩
      case isFalse => simp
    rw [commentText, Option.elim_none, List.nil_append]
    exact setTypeDetails_read untyped (cutComment_none free) rfl (by simp)
      (fun c member => (typeName_free res.type c member).2) rfl accepted
  -- the comment ends at the first closing bracket
  | some text =>
    have some_ : some text.toList ≠ some [] := by
      intro empty
      rw [Option.some_inj, String.toList_eq_nil_iff] at empty
      exact givenComment_ne res (by rw [given, empty])
    have cut := cutComment_some nameFree (closed text (by rw [given, Option.mem_some_iff]))
      (detailsText res.type res.template)
    have whole : (typeName res.type).toList ++
        (commentText (some text) ++ detailsText res.type res.template) =
        (typeName res.type).toList ++
          '(' :: (text.toList ++ ')' :: detailsText res.type res.template) := by
      simp [commentText]
    rw [whole]
    exact setTypeDetails_read untyped cut (by simp) some_ (by simp) (List.nil_append _).symm accepted

theorem setTypeAsString_getTypeAsString (res : TypedResource) (comment : res.comment ≠ some "")
    (closed : ∀ comment ∈ res.comment, ')' ∉ comment.toList)
    (accepted : res.type = .list → Accepted res.template) :
    (setTypeAsString new (some (String.ofList (getTypeAsString res false)))).ok = true ∧
      (setTypeAsString new (some (String.ofList (getTypeAsString res false)))).res.type = res.type ∧
      (setTypeAsString new (some (String.ofList (getTypeAsString res false)))).res.comment =
        res.comment ∧
      (res.type = .list →
        (setTypeAsString new (some (String.ofList (getTypeAsString res false)))).res.template =
          res.template) := by
  have given : givenComment res = res.comment := by
    rw [givenComment]
    cases said : res.comment with
    | none => rfl
    | some text =>
      have some_ : text ≠ "" := fun empty => comment (by rw [said, empty])
      simp [Option.filter_some, some_]
  rw [setTypeAsString_eq (new_untyped res.type) (given ▸ closed) accepted, given]
  exact ⟨rfl, rfl, rfl, fun list => if_pos list⟩

/-- A list with a comment and two templates. -/
def sampleList : TypedResource :=
  { new with
    name := some "users"
    type := .list
    comment := some "who may (log: in"
    template := ["name_$", "group_$_$"] }

theorem sampleList_read :
    (setTypeAsString new (some (String.ofList (getTypeAsString sampleList false)))).ok = true ∧
      (setTypeAsString new (some (String.ofList (getTypeAsString sampleList false)))).res.type =
        sampleList.type ∧
      (setTypeAsString new (some (String.ofList (getTypeAsString sampleList false)))).res.comment =
        sampleList.comment ∧
      (sampleList.type = .list →
        (setTypeAsString new (some (String.ofList (getTypeAsString sampleList false)))).res.template =
          sampleList.template) :=
  setTypeAsString_getTypeAsString sampleList (by decide) (by decide)
    fun _ => .inr ⟨" name_$\tgroup_$_$", _, rfl, rfl⟩

end TypedResource

end Lcfg
