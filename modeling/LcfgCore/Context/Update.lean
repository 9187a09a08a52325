import LcfgCore.Context.List
import LcfgCore.Library.BubbleSort
import LcfgCore.Library.Fields
import Mathlib.Data.List.Nodup

/-!
# Building context lists

Contexts are read from strings of the form `NAME = VALUE`, and a list has at most one
context of each name (`lcfgcontext_from_string`, `lcfgctxlist_update`).
-/
namespace Lcfg

namespace LCFGContext

def validName (name : String) : Bool :=
  match name.toList with
  | [] => false
  | first :: rest => first.isAlpha && rest.all isWord

def setName (ctx : LCFGContext) (newName : String) : Option LCFGContext :=
  if validName newName then some { ctx with name := some newName } else none

/-- Any string is a valid value, also the empty one. -/
def setValue (ctx : LCFGContext) (newValue : String) : LCFGContext :=
  { ctx with value := some newValue }

def setPriority (ctx : LCFGContext) (priority : Int) : Option LCFGContext :=
  if priority ≥ 1 then some { ctx with priority } else none

def hasValue (ctx : LCFGContext) : Bool := !isEmpty ctx.value

def sameName (ctx1 ctx2 : LCFGContext) : Bool :=
  strcmp (orDefault ctx1.name "") (orDefault ctx2.name "") = 0

def sameValue (ctx1 ctx2 : LCFGContext) : Bool :=
  strcmp (orDefault ctx1.value "") (orDefault ctx2.value "") = 0

/-- The priorities are not compared. -/
def equals (ctx1 ctx2 : LCFGContext) : Bool := sameName ctx1 ctx2 && sameValue ctx1 ctx2

def identical (ctx1 ctx2 : LCFGContext) : Bool :=
  sameName ctx1 ctx2 && sameValue ctx1 ctx2 && ctx1.priority == ctx2.priority

def invalidContext (reason : String) : String := "Invalid context (" ++ reason ++ ")"

/-- `lcfgcontext_new` -/
def new : LCFGContext := { name := none, value := none, priority := 1 }

/-- What stands before the first `=`, without the white space at its end. -/
def nameText (text : List Char) : List Char := (text.takeWhile (· != '=')).rdropWhile isSpace

/-- What stands after the first `=`, without the white space around it. -/
def valueText (text : List Char) : List Char :=
  (((text.dropWhile (· != '=')).drop 1).dropWhile isSpace).rdropWhile isSpace

/-- `lcfgcontext_from_string` -/
def fromString (ctxStr : Option String) (priority : Int) : Except String LCFGContext :=
  if isEmpty ctxStr then .error (invalidContext "undefined value")
  else
    let text := (ctxStr.getD "").toList.dropWhile isSpace
    if text = [] then .error (invalidContext "empty string")
    else if !text.contains '=' then .error (invalidContext "missing '=' assignment character")
    else if nameText text = [] then .error (invalidContext "missing name")
    else
      match new.setName (String.ofList (nameText text)) with
      | none => .error (invalidContext "bad name")
      | some ctx =>
        let ctx := if valueText text = [] then ctx
          else ctx.setValue (String.ofList (valueText text))
        match ctx.setPriority priority with
        | none => .error (invalidContext "unknown error")
        | some ctx => .ok ctx

/-! ## What a string can give -/

theorem validName_word {name : String} (valid : validName name = true) :
    name ≠ "" ∧ ∀ c ∈ name.toList, isWord c = true := by
  rw [validName] at valid
  cases text : name.toList with
  | nil => simp [text] at valid
  | cons first rest =>
    simp only [text, Bool.and_eq_true, List.all_eq_true] at valid
    refine ⟨fun none_ => by simp [none_] at text, fun c member => ?_⟩
    rcases List.mem_cons.mp member with rfl | later
    · simp [isWord, Char.isAlphanum, valid.1]
    · exact valid.2 c later

/-- A string is read exactly if it has a valid name before a `=` and the priority is
positive. -/
theorem fromString_eq_ok {ctxStr : String} {priority : Int} {ctx : LCFGContext} :
    fromString (some ctxStr) priority = .ok ctx ↔
      '=' ∈ ctxStr.toList.dropWhile isSpace ∧
        validName (String.ofList (nameText (ctxStr.toList.dropWhile isSpace))) = true ∧
        1 ≤ priority ∧
        ctx = {
          name := some (String.ofList (nameText (ctxStr.toList.dropWhile isSpace)))
          value := if valueText (ctxStr.toList.dropWhile isSpace) = [] then none
            else some (String.ofList (valueText (ctxStr.toList.dropWhile isSpace)))
          priority } := by
  simp only [fromString, isEmpty, Option.getD_some]
  generalize read : ctxStr.toList.dropWhile isSpace = text
  -- each check of the code fails on its own: first the separator, then the name, then the priority
  by_cases equals : '=' ∈ text
  case neg =>
    have none_ : text.contains '=' = false := by simpa using equals
    simp only [equals, none_, false_and, iff_false]
    split
    · simp
    · split <;> simp
  have some_ : (ctxStr == "") = false := by
    rw [beq_eq_false_iff_ne]
    rintro rfl
    rw [← read] at equals
    cases equals
  have filled : text ≠ [] := List.ne_nil_of_mem equals
  rw [if_neg (by simp [some_]), if_neg filled, if_neg (by simpa using equals)]
  by_cases valid : validName (String.ofList (nameText text)) = true
  case neg =>
    simp only [valid, Bool.false_eq_true, false_and, and_false, iff_false, setName]
    split <;> simp
  have named : nameText text ≠ [] := fun none_ => by
    rw [none_] at valid
    exact (validName_word valid).1 rfl
  rw [if_neg named]
  simp only [equals, valid, setName, if_true, true_and]
  by_cases positive : 1 ≤ priority
  · simp only [setPriority, ge_iff_le, positive, if_true, true_and, Except.ok.injEq]
    -- an empty value is left unset
    by_cases empty : valueText text = []
    · simp only [empty, if_true, new]
      exact eq_comm
    · simp only [empty, if_false, setValue]
      exact eq_comm
  · simp [setPriority, positive]

/-- A value is not empty and has no white space around it. -/
def PlainValue (value : String) : Prop :=
  value ≠ "" ∧ (∀ c ∈ value.toList.head?, isSpace c = false) ∧
    ∀ c ∈ value.toList.getLast?, isSpace c = false

/-- A context as a string can give it. -/
structure Parsed (ctx : LCFGContext) : Prop where
  name : ∃ name, ctx.name = some name ∧ validName name = true
  value : ∀ value, ctx.value = some value → PlainValue value
  positive : 1 ≤ ctx.priority

theorem Parsed.isValid {ctx : LCFGContext} (parsed : Parsed ctx) : ctx.isValid = true := by
  obtain ⟨name, named, valid⟩ := parsed.name
  have some_ := (validName_word valid).1
  simp [LCFGContext.isValid, isEmpty, named, some_]

theorem fromString_parsed {ctxStr : Option String} {priority : Int} {ctx : LCFGContext}
    (read : fromString ctxStr priority = .ok ctx) : Parsed ctx ∧ ctx.priority = priority := by
  cases ctxStr with
  | none => cases read
  | some ctxStr =>
    obtain ⟨-, valid, positive, rfl⟩ := fromString_eq_ok.mp read
    refine ⟨⟨⟨_, rfl, valid⟩, fun value here => ?_, positive⟩, rfl⟩
    dsimp only at here
    split at here
    · cases here
    case isFalse some_ =>
      injection here with here
      subst here
      rw [PlainValue, String.toList_ofList]
      exact ⟨fun none_ => some_ (by simpa using none_),
        fun c => Fields.trimmed_ends.1, fun c => Fields.trimmed_ends.2⟩

/-- The value stands in the string as it is. -/
theorem fromString_value {ctxStr value : String} {priority : Int} {ctx : LCFGContext}
    (read : fromString (some ctxStr) priority = .ok ctx) (here : ctx.value = some value) :
    value.toList <:+: ctxStr.toList := by
  obtain ⟨-, -, -, rfl⟩ := fromString_eq_ok.mp read
  dsimp only at here
  split at here
  · cases here
  · injection here with here
    rw [← here, String.toList_ofList]
    refine (List.rdropWhile_prefix _ _).isInfix.trans ?_
    refine (List.dropWhile_suffix _).isInfix.trans ?_
    refine (List.drop_suffix _ _).isInfix.trans ?_
    exact ((List.dropWhile_suffix _).trans (List.dropWhile_suffix _)).isInfix

end LCFGContext

/-! ## Lists -/

namespace LCFGContextList

open LCFGContext

/-- `lcfgctxlist_append` -/
def append (ctxlist : List LCFGContext) (item : LCFGContext) : List LCFGContext × LCFGChange :=
  if !item.isValid then (ctxlist, .error) else (ctxlist ++ [item], .added)

/-- What `lcfgctxlist_update` does to the first node of the name, if there is one. -/
def updateNode (newCtx : LCFGContext) : List LCFGContext → Option (List LCFGContext × LCFGChange)
  | [] => none
  | curCtx :: rest =>
    if curCtx.isValid && curCtx.match (newCtx.name.getD "") then
      if equals curCtx newCtx then some (curCtx :: rest, .none)
      -- the whole context is replaced, as the old one may be shared with a clone of the list
      else some (newCtx :: rest, .modified)
    else (updateNode newCtx rest).map fun (rest, change) => (curCtx :: rest, change)

/-- `lcfgctxlist_update` -/
def update (ctxlist : List LCFGContext) (newCtx : LCFGContext) :
    List LCFGContext × LCFGChange :=
  if !newCtx.isValid then (ctxlist, .error)
  else (updateNode newCtx ctxlist).getD (append ctxlist newCtx)

/-- `lcfgctxlist_max_priority`: 0 for an empty list. -/
def maxPriority (ctxlist : List LCFGContext) : Int :=
  ctxlist.foldl (fun highest ctx => if ctx.priority > highest then ctx.priority else highest) 0

/-- `lcfgctxlist_sort_by_priority` -/
def sortByPriority (ctxlist : List LCFGContext) : List LCFGContext :=
  if ctxlist.length < 2 then ctxlist
  else BubbleSort.sort (fun curCtx nextCtx => curCtx.priority > nextCtx.priority) ctxlist

/-- `lcfgctxlist_diff` without a directory of profiles. -/
def diff (ctxlist1 ctxlist2 : List LCFGContext) : Bool :=
  ctxlist1.any (fun curCtx => curCtx.isValid &&
    match findContext (some ctxlist2) (curCtx.name.getD "") with
    | none => true
    | some otherCtx => !identical curCtx otherCtx) ||
  ctxlist2.any fun curCtx => curCtx.isValid &&
    (findContext (some ctxlist1) (curCtx.name.getD "")).isNone

/-! ### The lists which are built from strings -/

/-- A call of `lcfgcontext_from_string` and, if it succeeds, of `lcfgctxlist_update`. -/
def enter (ctxlist : List LCFGContext) (call : Option String × Int) : List LCFGContext :=
  match fromString call.1 call.2 with
  | .ok ctx => (update ctxlist ctx).1
  | .error _ => ctxlist

def build (calls : List (Option String × Int)) : List LCFGContext := calls.foldl enter []

/-- Contexts as strings give them, each name once. -/
structure Built (ctxlist : List LCFGContext) : Prop where
  parsed : ∀ ctx ∈ ctxlist, Parsed ctx
  distinct : (ctxlist.map LCFGContext.name).Nodup

/-- Contexts with names, each name once. -/
structure Keyed (ctxlist : List LCFGContext) : Prop where
  valid : ∀ ctx ∈ ctxlist, ctx.isValid = true
  distinct : (ctxlist.map LCFGContext.name).Nodup

theorem Built.keyed {ctxlist : List LCFGContext} (built : Built ctxlist) : Keyed ctxlist :=
  ⟨fun ctx member => (built.parsed ctx member).isValid, built.distinct⟩

theorem exists_name_of_isValid {ctx : LCFGContext} (valid : ctx.isValid = true) :
    ∃ name, ctx.name = some name := by
  cases named : ctx.name with
  | none => simp [LCFGContext.isValid, isEmpty, named] at valid
  | some name => exact ⟨name, rfl⟩

/-- Which node an update looks for. -/
theorem match_iff {ctx newCtx : LCFGContext} (valid : ctx.isValid = true)
    (new_ : newCtx.isValid = true) :
    (ctx.isValid && ctx.match (newCtx.name.getD "")) = true ↔ ctx.name = newCtx.name := by
  obtain ⟨name, named⟩ := exists_name_of_isValid valid
  obtain ⟨newName, newNamed⟩ := exists_name_of_isValid new_
  simp [valid, LCFGContext.match, named, newNamed]

/-- An update changes at most the context of this name, and gives it the new value. -/
theorem updateNode_spec {ctxlist : List LCFGContext} {newCtx : LCFGContext}
    (valid : ∀ ctx ∈ ctxlist, ctx.isValid = true) (new_ : newCtx.isValid = true) :
    (updateNode newCtx ctxlist = none ∧ newCtx.name ∉ ctxlist.map LCFGContext.name) ∨
      ∃ before curCtx after, ctxlist = before ++ curCtx :: after ∧ curCtx.name = newCtx.name ∧
        newCtx.name ∉ before.map LCFGContext.name ∧
        (equals curCtx newCtx = true ∧ updateNode newCtx ctxlist = some (ctxlist, .none) ∨
          equals curCtx newCtx = false ∧
            updateNode newCtx ctxlist = some (before ++ newCtx :: after, .modified)) := by
  induction ctxlist with
  | nil => exact .inl ⟨rfl, by simp⟩
  | cons ctx rest ih =>
    have first := match_iff (valid ctx List.mem_cons_self) new_
    rw [updateNode]
    by_cases same : ctx.name = newCtx.name
    · right
      refine ⟨[], ctx, rest, rfl, same, by simp, ?_⟩
      rw [if_pos (first.mpr same)]
      cases unchanged : equals ctx newCtx with
      | true => exact .inl ⟨rfl, if_pos rfl⟩
      | false => exact .inr ⟨rfl, if_neg Bool.false_ne_true⟩
    · rw [if_neg (mt first.mp same)]
      rcases ih fun later member => valid later (List.mem_cons_of_mem _ member) with
        ⟨none_, absent⟩ | ⟨before, curCtx, after, rfl, named, absent, changed⟩
      · left
        exact ⟨by rw [none_]; rfl, by simpa [Ne.symm same] using absent⟩
      · right
        refine ⟨ctx :: before, curCtx, after, rfl, named, ?_, ?_⟩
        · rw [List.map_cons, List.mem_cons, not_or]
          exact ⟨Ne.symm same, absent⟩
        · rcases changed with ⟨unchanged, kept⟩ | ⟨changed, replaced⟩
          · exact .inl ⟨unchanged, by rw [kept]; rfl⟩
          · exact .inr ⟨changed, by rw [replaced]; rfl⟩

private theorem mem_updateNode {ctxlist : List LCFGContext} {newCtx ctx : LCFGContext}
    {result : List LCFGContext × LCFGChange} (found : updateNode newCtx ctxlist = some result)
    (member : ctx ∈ result.1) : ctx ∈ ctxlist ∨ ctx = newCtx := by
  induction ctxlist generalizing result with
  | nil => cases found
  | cons curCtx rest ih =>
    rw [updateNode] at found
    split at found
    · split at found
      · injection found with found
        exact .inl (by rw [← found] at member; exact member)
      · injection found with found
        rw [← found] at member
        rcases List.mem_cons.mp member with rfl | later
        · exact .inr rfl
        · exact .inl (List.mem_cons_of_mem _ later)
    · obtain ⟨tail, there, rfl⟩ := Option.map_eq_some_iff.mp found
      rcases List.mem_cons.mp member with rfl | later
      · exact .inl List.mem_cons_self
      · exact (ih there later).imp_left (List.mem_cons_of_mem _)

/-- An update brings in nothing but the new context. -/
theorem mem_update {ctxlist : List LCFGContext} {newCtx ctx : LCFGContext}
    (member : ctx ∈ (update ctxlist newCtx).1) : ctx ∈ ctxlist ∨ ctx = newCtx := by
  rw [update] at member
  split at member
  · exact .inl member
  case isFalse valid =>
    cases found : updateNode newCtx ctxlist with
    | some result => exact mem_updateNode found (by simpa [found] using member)
    | none =>
      rw [found, Option.getD_none, append, if_neg valid] at member
      exact (List.mem_append.mp member).imp_right List.mem_singleton.mp

theorem update_fresh {ctxlist : List LCFGContext} {newCtx : LCFGContext}
    (valid : ∀ ctx ∈ ctxlist, ctx.isValid = true) (new_ : newCtx.isValid = true)
    (fresh : newCtx.name ∉ ctxlist.map LCFGContext.name) :
    update ctxlist newCtx = (ctxlist ++ [newCtx], .added) := by
  rcases updateNode_spec valid new_ with
    ⟨none_, -⟩ | ⟨before, curCtx, after, rfl, named, -⟩
  · simp [update, append, none_, new_]
  · simp [named] at fresh

/-- A context with a name is always taken, and the names stay distinct. -/
theorem Keyed.update {ctxlist : List LCFGContext} {newCtx : LCFGContext}
    (keyed : Keyed ctxlist) (new_ : newCtx.isValid = true) :
    Keyed (LCFGContextList.update ctxlist newCtx).1 ∧
      (LCFGContextList.update ctxlist newCtx).2 ≠ .error := by
  rcases updateNode_spec keyed.valid new_ with
    ⟨-, fresh⟩ | ⟨before, curCtx, after, rfl, named, -, ⟨-, kept⟩ | ⟨-, replaced⟩⟩
  -- the context is new and goes to the end
  · rw [update_fresh keyed.valid new_ fresh]
    refine ⟨⟨fun ctx member => ?_, ?_⟩, LCFGChange.noConfusion⟩
    · rcases List.mem_append.mp member with old | last
      · exact keyed.valid ctx old
      · exact List.mem_singleton.mp last ▸ new_
    · rw [List.map_append]
      refine List.nodup_append.mpr ⟨keyed.distinct, by simp, fun name old last new_ => ?_⟩
      rw [List.map_singleton, List.mem_singleton] at new_
      rintro rfl
      exact fresh (new_ ▸ old)
  -- the context is there already, unchanged
  · simp only [LCFGContextList.update, new_, Bool.not_true, Bool.false_eq_true, if_false, kept,
      Option.getD_some]
    exact ⟨keyed, by decide⟩
  -- it takes the place of the old one, which has the same name
  · simp only [LCFGContextList.update, new_, Bool.not_true, Bool.false_eq_true, if_false, replaced,
      Option.getD_some]
    refine ⟨⟨fun ctx member => ?_, ?_⟩, by decide⟩
    · rcases List.mem_append.mp member with old | here
      · exact keyed.valid ctx (List.mem_append_left _ old)
      · rcases List.mem_cons.mp here with rfl | later
        · exact new_
        · exact keyed.valid ctx (List.mem_append_right _ (List.mem_cons_of_mem _ later))
    · have names := keyed.distinct
      rw [List.map_append, List.map_cons] at names ⊢
      rw [← named]
      exact names

theorem update_built {ctxlist : List LCFGContext} {newCtx : LCFGContext}
    (built : Built ctxlist) (new_ : Parsed newCtx) :
    Built (update ctxlist newCtx).1 ∧ (update ctxlist newCtx).2 ≠ .error := by
  obtain ⟨keyed, taken⟩ := built.keyed.update new_.isValid
  refine ⟨⟨fun ctx member => ?_, keyed.distinct⟩, taken⟩
  rcases mem_update member with old | rfl
  · exact built.parsed ctx old
  · exact new_

theorem build_built (calls : List (Option String × Int)) : Built (build calls) := by
  have keeps : ∀ ctxlist, Built ctxlist → Built (calls.foldl enter ctxlist) := by
    induction calls with
    | nil => exact fun _ built => built
    | cons call calls ih =>
      intro ctxlist built
      refine ih _ ?_
      rw [enter]
      cases read : fromString call.1 call.2 with
      | error msg => exact built
      | ok ctx => exact (update_built built (fromString_parsed read).1).1
  exact keeps [] ⟨by simp, by simp⟩

/-! ### Priorities -/

/-- The higher one of two priorities. -/
private theorem higher_spec (highest priority : Int) :
    highest ≤ (if priority > highest then priority else highest) ∧
      priority ≤ (if priority > highest then priority else highest) ∧
      ∀ bound, highest < bound → priority < bound →
        (if priority > highest then priority else highest) < bound := by
  split
  case isTrue above => exact ⟨Int.le_of_lt above, Int.le_refl _, fun _ _ below => below⟩
  case isFalse above => exact ⟨Int.le_refl _, Int.not_lt.mp above, fun _ below _ => below⟩

private theorem highest_spec (ctxlist : List LCFGContext) (start : Int) :
    let highest := ctxlist.foldl (fun highest ctx =>
      if ctx.priority > highest then ctx.priority else highest) start
    start ≤ highest ∧ (∀ ctx ∈ ctxlist, ctx.priority ≤ highest) ∧
      ∀ bound, start < bound → (∀ ctx ∈ ctxlist, ctx.priority < bound) → highest < bound := by
  induction ctxlist generalizing start with
  | nil => exact ⟨Int.le_refl start, by simp, fun _ below _ => below⟩
  | cons ctx rest ih =>
    obtain ⟨old, new_, least⟩ := higher_spec start ctx.priority
    obtain ⟨above, all, leastOf⟩ := ih (if ctx.priority > start then ctx.priority else start)
    refine ⟨Int.le_trans old above, fun other member => ?_, fun bound below each => ?_⟩
    · rcases List.mem_cons.mp member with rfl | later
      · exact Int.le_trans new_ above
      · exact all other later
    · apply leastOf bound (least bound below (each ctx List.mem_cons_self))
      exact fun other member => each other (List.mem_cons_of_mem _ member)

/-- No priority is above the highest one, which is 0 or that of a context. -/
theorem maxPriority_spec (ctxlist : List LCFGContext) :
    0 ≤ maxPriority ctxlist ∧ (∀ ctx ∈ ctxlist, ctx.priority ≤ maxPriority ctxlist) ∧
      ∀ bound, 0 < bound → (∀ ctx ∈ ctxlist, ctx.priority < bound) →
        maxPriority ctxlist < bound :=
  highest_spec ctxlist 0

/-! ### Sorting -/

theorem sortByPriority_spec (ctxlist : List LCFGContext) :
    (sortByPriority ctxlist).Perm ctxlist ∧
      (sortByPriority ctxlist).Pairwise fun ctx later => ctx.priority ≤ later.priority := by
  rw [sortByPriority]
  split
  case isTrue short =>
    refine ⟨.refl _, ?_⟩
    cases ctxlist with
    | nil => exact .nil
    | cons ctx rest =>
      rw [List.length_cons] at short
      have none_ : rest = [] := List.length_eq_zero_iff.mp (by omega)
      rw [none_]
      exact List.pairwise_singleton _ ctx
  · refine ⟨BubbleSort.sort_perm _, ?_⟩
    refine (BubbleSort.sort_pairwise ?_ ?_ ctxlist).imp ?_
    · intro ctx later wrong
      simp only [decide_eq_true_eq, decide_eq_false_iff_not] at wrong ⊢
      omega
    · intro ctx next later first second
      simp only [decide_eq_false_iff_not] at first second ⊢
      omega
    · intro ctx later ordered
      simpa using ordered

theorem sortByPriority_built {ctxlist : List LCFGContext} (built : Built ctxlist) :
    Built (sortByPriority ctxlist) := by
  have perm := (sortByPriority_spec ctxlist).1
  exact ⟨fun ctx member => built.parsed ctx (perm.mem_iff.mp member),
    (perm.map _).nodup_iff.mpr built.distinct⟩

end LCFGContextList

end Lcfg
