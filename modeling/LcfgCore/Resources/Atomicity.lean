import LcfgCore.Resources.Mutate
import LcfgCore.Resources.TypeString

/-!
# Setters which fail on the way

Setting a type from a text and adding several tags are done in steps, and nothing undoes
the steps before the one which fails (`resources/resource.c`, `resources/mutate.c`).

## Main result

`failed_setters`: what a failure leaves behind, and when that is the resource as it was.
-/
namespace Lcfg

namespace TypedResource

/-! ## Types -/

/-- The text from where a type is looked for. -/
def bareType (typeStr : Option String) : List Char :=
  let text := (typeStr.getD "").toList.dropWhile isSpace
  if text.head? = some '%' then text.tail else text

/-- The comment in a text for a type, unless it is empty. -/
def commentOf (text : List Char) : Option String :=
  ((cutComment text).1.filter (· ≠ [])).map String.ofList

/-- Where the templates begin in a text for a list. -/
def templatesOf (text : List Char) : Option (List Char) :=
  let posn := (cutComment text).2
  ((Substring.find [':', ' '] posn).map fun start => (posn.drop (start + 2)).dropWhile isSpace).filter
    (· ≠ [])

/-- A text which gives no template. -/
def noTemplates (text : List Char) : Bool :=
  match Template.fromString (String.ofList text) with
  | .ok (_ :: _) => false
  | _ => true

/-- The text is for a list, which the value allows, but its templates cannot be read. -/
def refusesTemplates (res : TypedResource) (text : List Char) : Bool :=
  typeOfText text = some .list && (res.type = .list || res.value.all (validValueForType .list)) &&
    (templatesOf text).any noTemplates

/-- The resource after the type and the comment have been set. -/
def listTyped (res : TypedResource) (text : List Char) : TypedResource :=
  { res with type := .list, comment := (commentOf text).or res.comment }

variable {res after : TypedResource}

theorem setType_fails {newType : LCFGResourceType} (failed : (setType res newType).2 = false) :
    (setType res newType).1 = res ∧ ¬(res.type = newType ∨ res.value.all (validValueForType newType)) := by
  rw [setType] at failed ⊢
  split_ifs at failed ⊢ with same fits
  exact ⟨rfl, fun allowed => allowed.elim same fits⟩

theorem setType_done {newType : LCFGResourceType} (done : setType res newType = (after, true)) :
    after = { res with type := newType } ∧
      (res.type = newType ∨ res.value.all (validValueForType newType)) := by
  rw [setType] at done
  split_ifs at done with same fits
  · obtain rfl := (Prod.mk.inj done).1
    subst same
    exact ⟨rfl, .inl rfl⟩
  · exact ⟨(Prod.mk.inj done).1.symm, .inr fits⟩
  · cases (Prod.mk.inj done).2

/-- Templates are read as a whole before any of them is set. -/
theorem setTemplateAsString_fails {text : List Char} (some_ : text ≠ []) :
    ((setTemplateAsString res (some (String.ofList text))).ok = false ↔ noTemplates text = true) ∧
      ((setTemplateAsString res (some (String.ofList text))).ok = false →
        (setTemplateAsString res (some (String.ofList text))).res = res) := by
  have notEmpty : String.ofList text ≠ "" := by
    intro empty
    have nothing := congrArg String.toList empty
    rw [String.toList_ofList] at nothing
    exact some_ nothing
  rw [setTemplateAsString]
  simp only [if_neg notEmpty, noTemplates]
  cases read : Template.fromString (String.ofList text) with
  | error message => simp
  | ok templates =>
    cases templates with
    | nil => simp
    | cons template templates =>
      have set := setTemplate_parsed (Template.fromString_parsed read) res
      simp only [set]
      simp

/-- The comment is set whatever becomes of the templates. -/
theorem setFoundComment_eq (res : TypedResource) (text : List Char) :
    setFoundComment res (cutComment text).1 =
      ({ res with comment := (commentOf text).or res.comment }, true) := by
  rw [commentOf]
  cases (cutComment text).1 with
  | none => rfl
  | some comment =>
    cases comment with
    | nil => rfl
    | cons c more => rfl

theorem setTypeDetails_fails {newType : LCFGResourceType} {text : List Char} :
    ((setTypeDetails res newType text).ok = false ↔
      newType = .list ∧ (templatesOf text).any noTemplates = true) ∧
    ((setTypeDetails res newType text).ok = false →
      (setTypeDetails res newType text).res =
        { res with comment := (commentOf text).or res.comment }) := by
  have commented := setFoundComment_eq res text
  rw [setTypeDetails]
  simp only [commented, Bool.true_and, decide_eq_true_eq]
  by_cases list : newType = .list
  · rw [if_pos list, templatesOf]
    cases Substring.find [':', ' '] (cutComment text).2 with
    | none => simp
    | some start =>
      simp only [Option.map_some]
      by_cases nothing : ((cutComment text).2.drop (start + 2)).dropWhile isSpace = []
      · simp [nothing, Option.filter_some]
      · obtain ⟨refused, same⟩ := @setTemplateAsString_fails
          { res with comment := (commentOf text).or res.comment } _ nothing
        simp only [Option.filter_some, ne_eq, nothing, not_false_eq_true,
          decide_true, if_true, Option.any_some, list, true_and]
        exact ⟨refused, same⟩
  · simp [list]

/-- A type is not set at all, or it is the type of a list with templates which are refused. -/
private theorem setTypeAsString_steps (res : TypedResource) (typeStr : Option String) :
    setTypeAsString res typeStr =
      if (typeStr.getD "").toList.dropWhile isSpace = [] then
        { res := (setType res .string).1, ok := (setType res .string).2 }
      else
        match typeOfText (bareType typeStr) with
        | none => { res, ok := false, msg := some ("invalid resource type '" ++
            String.ofList (bareType typeStr) ++ "'") }
        | some newType =>
          match setType res newType with
          | (res, false) => { res, ok := false }
          | (res, true) => setTypeDetails res newType (bareType typeStr) := rfl

theorem setTypeAsString_fails (typeStr : Option String)
    (failed : (setTypeAsString res typeStr).ok = false) :
    (setTypeAsString res typeStr).res =
      if refusesTemplates res (bareType typeStr) then listTyped res (bareType typeStr) else res := by
  rw [setTypeAsString_steps] at failed ⊢
  -- an empty text means the type string, and has no templates to refuse
  by_cases empty : (typeStr.getD "").toList.dropWhile isSpace = []
  · have noType : typeOfText (bareType typeStr) = none := by
      rw [bareType, empty]
      decide
    have none_ : refusesTemplates res (bareType typeStr) = false := by
      simp [refusesTemplates, noType]
    rw [if_pos empty] at failed ⊢
    rw [none_, if_neg Bool.false_ne_true]
    exact (setType_fails failed).1
  · rw [if_neg empty] at failed ⊢
    generalize bareType typeStr = text at failed ⊢
    cases found : typeOfText text with
    | none =>
      have none_ : refusesTemplates res text = false := by simp [refusesTemplates, found]
      simp [none_]
    | some newType =>
      simp only [found] at failed ⊢
      cases set : setType res newType with
      | mk after ok =>
        rw [set] at failed
        cases ok with
        | false =>
          obtain ⟨same, refused⟩ := setType_fails (congrArg Prod.snd set)
          rw [set] at same
          have none_ : refusesTemplates res text = false := by
            rw [refusesTemplates, found]
            by_cases list : newType = .list
            · subst list
              simp only [not_or] at refused
              simp [refused]
            · simp [list]
          simp only [none_, Bool.false_eq_true, if_false]
          exact same
        | true =>
          -- the type has been set here, and only the templates can still be refused
          obtain ⟨rfl, allowed⟩ := setType_done set
          obtain ⟨refused, same⟩ := @setTypeDetails_fails { res with type := newType } newType text
          obtain ⟨rfl, templates⟩ := refused.mp failed
          have refuses : refusesTemplates res text = true := by
            rw [refusesTemplates, found, templates]
            simpa using allowed
          simp only [refuses, if_true]
          exact same failed

/-! ## Tags -/

/-- The steps before the one which fails have been done. -/
theorem mapTags_fails {fn : TypedResource → Option String → TypedResource × Bool}
    {tags : List (List Char)} (failed : (mapTags fn res tags).2 = false) :
    ∃ before bad rest mid, tags = before ++ bad :: rest ∧ mapTags fn res before = (mid, true) ∧
      fn mid (some (String.ofList bad)) = ((mapTags fn res tags).1, false) := by
  induction tags generalizing res with
  | nil => cases failed
  | cons tag tags ih =>
    rw [mapTags] at failed ⊢
    cases step : fn res (some (String.ofList tag)) with
    | mk next ok =>
      rw [step] at failed
      cases ok with
      | false => exact ⟨[], tag, tags, res, rfl, rfl, step⟩
      | true =>
        obtain ⟨before, bad, rest, mid, rfl, done, stops⟩ := ih failed
        refine ⟨tag :: before, bad, rest, mid, rfl, ?_, stops⟩
        rw [mapTags, step]
        exact done

theorem setValue_cases (res : TypedResource) (value : String) :
    setValue res (some value) = (res, false) ∨
      setValue res (some value) = ({ res with value := some value }, true) := by
  rw [setValue]
  split
  · exact .inr rfl
  · exact .inl rfl

/-- One tag: it fails without a change, or the tag is there, or the value gets longer. -/
theorem valueAddTag_cases (res : TypedResource) {tag : String} (some_ : tag ≠ "") :
    valueAddTag res (some tag) = (res, false) ∨
      (valueAddTag res (some tag) = (res, true) ∧ valueHasTag res (some tag) = true) ∨
      ((valueAddTag res (some tag)).2 = true ∧ valueHasTag res (some tag) = false ∧
        (curValue res).length < (curValue (valueAddTag res (some tag)).1).length) := by
  have given : Lcfg.isEmpty (some tag) = false := by simpa [Lcfg.isEmpty] using some_
  rw [valueAddTag, given]
  cases has : valueHasTag res (some tag) with
  | true =>
    by_cases other : (!isString res && !isList res) = true
    · simp [other]
    · simp [other]
  | false =>
    by_cases other : (!isString res && !isList res) = true
    · simp [other]
    · simp only [if_neg other, Bool.false_eq_true, if_false, valueAppendTag, valueExtend, given]
      split
      · exact .inl rfl
      · obtain ⟨c, more, text⟩ : ∃ c more, tag.toList = c :: more := by
          apply List.exists_cons_of_ne_nil
          intro nothing
          -- the tag is appended, after a separator where there is none
          exact some_ (String.toList_eq_nil_iff.mp nothing)
        rcases setValue_cases res (String.ofList (curValue res ++
          (if (curValue res).getLast?.any fun c => !allowedSeparator c then [' '] else []) ++
            (((some tag).getD "").toList))) with fails | done
        · exact .inl fails
        · right
          right
          rw [done]
          refine ⟨rfl, trivial, ?_⟩
          change (curValue res).length < (String.ofList _).toList.length
          rw [String.toList_ofList, List.length_append, List.length_append, Option.getD_some, text,
            List.length_cons]
          omega

/-- Tags which could be added leave the value alone only if all of them were there. -/
theorem mapTags_added {tags : List (List Char)} (some_ : ∀ tag ∈ tags, tag ≠ [])
    (done : mapTags valueAddTag res tags = (after, true)) :
    (curValue res).length ≤ (curValue after).length ∧
      (after = res ↔ ∀ tag ∈ tags, valueHasTag res (some (String.ofList tag)) = true) ∧
      (after = res ∨ (curValue res).length < (curValue after).length) := by
  induction tags generalizing res with
  | nil =>
    obtain rfl := (Prod.mk.inj done).1
    simp
  | cons tag tags ih =>
    have notEmpty : String.ofList tag ≠ "" := by
      intro empty
      have nothing := congrArg String.toList empty
      rw [String.toList_ofList] at nothing
      exact some_ tag List.mem_cons_self nothing
    have later : ∀ tag ∈ tags, tag ≠ [] := fun tag member => some_ tag (List.mem_cons_of_mem _ member)
    rw [mapTags] at done
    rcases valueAddTag_cases res notEmpty with fails | ⟨same, has⟩ | ⟨ok, fresh, longer⟩
    · rw [fails] at done
      cases done
    -- the value has this tag already: nothing changes for it
    · rw [same] at done
      obtain ⟨grows, all, strict⟩ := ih later done
      refine ⟨grows, ?_, strict⟩
      rw [all, List.forall_mem_cons]
      simp [has]
    -- the value grows, and never shrinks again
    · cases step : valueAddTag res (some (String.ofList tag)) with
      | mk next ok' =>
        rw [step] at done ok longer
        dsimp only at ok longer
        subst ok
        obtain ⟨grows, -, -⟩ := ih later done
        have more : (curValue res).length < (curValue after).length := by omega
        refine ⟨more.le, ?_, .inr more⟩
        constructor
        · rintro rfl
          omega
        · intro all
          rw [all tag List.mem_cons_self] at fresh
          cases fresh

/-- What failures leave behind. A type which is not set changes nothing, unless it is the one of
a list with templates which are refused; then the type and the comment have been set. The tags
before the one which is refused have been added: the resource is as it was if and only if
its value had them all. -/
theorem failed_setters (res : TypedResource) (typeStr : Option String) (extraTags : String) :
    ((setTypeAsString res typeStr).ok = false → (setTypeAsString res typeStr).res =
      if refusesTemplates res (bareType typeStr) then listTyped res (bareType typeStr) else res) ∧
    ((valueAddTags res extraTags).2 = false →
      valueAddTags res extraTags = (res, false) ∧ ¬(isString res ∨ isList res) ∨
      ∃ before bad rest, Fields.tokens allowedSeparator extraTags.toList = before ++ bad :: rest ∧
        mapTags valueAddTag res before = ((valueAddTags res extraTags).1, true) ∧
        (valueAddTag (valueAddTags res extraTags).1 (some (String.ofList bad))).2 = false ∧
        ((valueAddTags res extraTags).1.value = res.value ↔
          ∀ tag ∈ before, valueHasTag res (some (String.ofList tag)) = true)) := by
  refine ⟨setTypeAsString_fails typeStr, fun failed => ?_⟩
  rw [valueAddTags, valueMapTagstring] at failed ⊢
  split
  case isTrue other =>
    left
    refine ⟨rfl, ?_⟩
    simpa using other
  case isFalse other =>
    right
    rw [if_neg other] at failed
    obtain ⟨before, bad, rest, mid, tokens, done, stops⟩ := mapTags_fails failed
    have some_ : ∀ tag ∈ before ++ bad :: rest, tag ≠ [] := by
      intro tag member
      rw [← tokens] at member
      exact (Fields.mem_tokens member).1
    have badSome : String.ofList bad ≠ "" := by
      intro empty
      have nothing := congrArg String.toList empty
      rw [String.toList_ofList] at nothing
      exact some_ bad (by simp) nothing
    -- the step which fails changes nothing
    have same : mid = (mapTags valueAddTag res
        (Fields.tokens allowedSeparator extraTags.toList)).1 := by
      rcases valueAddTag_cases mid badSome with fails | ⟨adds, -⟩ | ⟨ok, -, -⟩
      · rw [fails] at stops
        exact (Prod.mk.inj stops).1
      · rw [adds] at stops
        cases (Prod.mk.inj stops).2
      · rw [stops] at ok
        cases ok
    rw [← same] at stops ⊢
    obtain ⟨-, all, strict⟩ := mapTags_added (fun tag member =>
      some_ tag (List.mem_append_left _ member)) done
    refine ⟨before, bad, rest, tokens, done, by rw [stops], ?_⟩
    rw [← all]
    constructor
    · intro value
      apply strict.resolve_right
      rw [curValue, curValue, value]
      omega
    · rintro rfl
      rfl

/-- A resource without a value, and a list with one tag. -/
def blankSample : TypedResource := { TypedResource.new with name := some "users" }

def tagSample : TypedResource :=
  { TypedResource.new with name := some "users", type := .list, value := some "alice" }

/-- The type and the comment of the first one have been set, and a tag of the second one. -/
theorem failed_setters_change :
    (setTypeAsString blankSample (some "list (logins): name")).ok = false ∧
    (setTypeAsString blankSample (some "list (logins): name")).res =
      { blankSample with type := .list, comment := some "logins" } ∧
    (valueAddTags tagSample "bob carol!").2 = false ∧
    (valueAddTags tagSample "bob carol!").1.value = some "alice bob" ∧
    tagSample.value = some "alice" := by
  decide

end TypedResource

end Lcfg
