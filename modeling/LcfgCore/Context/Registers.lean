import LcfgCore.Context.Diff
import LcfgCore.Library.Stamped

/-!
# Contexts as registers

A list in which each name is once is a register for each name, with the priority as the
stamp. An update is an assignment, and two lists differ when one of their registers does
(`lcfgctxlist_update`, `lcfgctxlist_diff`).

## Main results

`register_update`, `diff_iff`, `valued_eq`
-/
namespace Lcfg.LCFGContextList

open LCFGContext

def register (ctxlist : List LCFGContext) (name : String) : Option (Stamped (Option String)) :=
  (findContext (some ctxlist) name).map fun ctx => ⟨ctx.value, ctx.priority⟩

/-- The contexts with a value: the map from their names to the values and priorities. -/
def valued (ctxlist : List LCFGContext) (name : String) : Option (String × Int) :=
  (findContext (some ctxlist) name).bind fun ctx =>
    if ctx.hasValue then some (ctx.value.getD "", ctx.priority) else none

/-! ## Values -/

/-- Two parsed contexts have the same value if their values compare as equal. -/
theorem sameValue_iff_eq {ctx other : LCFGContext} (parsed : Parsed ctx) (parsed' : Parsed other) :
    sameValue ctx other = true ↔ ctx.value = other.value := by
  rw [sameValue, orDefault_empty, orDefault_empty, decide_eq_true_iff, strcmp_eq_zero]
  cases here : ctx.value with
  | none =>
    cases there : other.value with
    | none => exact iff_of_true rfl rfl
    | some value =>
      refine iff_of_false (fun same => ?_) (Option.some_ne_none value).symm
      exact (parsed'.value value there).1 same.symm
  | some value =>
    cases there : other.value with
    | none =>
      refine iff_of_false (fun same => ?_) (Option.some_ne_none value)
      exact (parsed.value value here).1 same
    | some value' => exact Option.some_inj.symm

theorem equals_iff {ctx other : LCFGContext} (parsed : Parsed ctx) (parsed' : Parsed other)
    (named : ctx.name = other.name) : equals ctx other = true ↔ ctx.value = other.value := by
  rw [equals, sameName_of_eq named, Bool.true_and, sameValue_iff_eq parsed parsed']

theorem identical_iff {ctx other : LCFGContext} (parsed : Parsed ctx) (parsed' : Parsed other)
    (named : ctx.name = other.name) :
    identical ctx other = true ↔ ctx.value = other.value ∧ ctx.priority = other.priority := by
  rw [identical, sameName_of_eq named, Bool.true_and, Bool.and_eq_true,
    sameValue_iff_eq parsed parsed', beq_iff_eq]

/-! ## Updates and differences -/

private theorem register_eq_some_iff {ctxlist : List LCFGContext} (built : Built ctxlist)
    {name : String} {held : Stamped (Option String)} :
    register ctxlist name = some held ↔ ⟨some name, held.value, held.stamp⟩ ∈ ctxlist := by
  rw [register, Option.map_eq_some_iff]
  constructor
  · rintro ⟨ctx, found, rfl⟩
    obtain ⟨member, named⟩ := (findContext_iff built.keyed).mp found
    rw [← named]
    exact member
  · intro member
    exact ⟨_, (findContext_iff built.keyed).mpr ⟨member, rfl⟩, rfl⟩

/-- Lists with the same contexts are the same registers. -/
theorem register_perm {ctxlist sorted : List LCFGContext} (built : Built ctxlist)
    (built' : Built sorted) (perm : sorted.Perm ctxlist) (name : String) :
    register sorted name = register ctxlist name := by
  apply Option.ext
  intro held
  rw [register_eq_some_iff built, register_eq_some_iff built', perm.mem_iff]

/-- A list in which a context takes the place of another one of its name. -/
private theorem register_replaced {before after : List LCFGContext} {curCtx newCtx : LCFGContext}
    {newName name : String} (built : Built (before ++ curCtx :: after))
    (updated : Built (before ++ newCtx :: after)) (curNamed : curCtx.name = some newName)
    (newNamed : newCtx.name = some newName) (other : newName ≠ name) :
    register (before ++ newCtx :: after) name = register (before ++ curCtx :: after) name := by
  apply Option.ext
  intro held
  have elsewhere : ∀ ctx : LCFGContext, ctx.name = some newName →
      (⟨some name, held.value, held.stamp⟩ : LCFGContext) ≠ ctx := by
    rintro ctx named rfl
    injection named with named
    exact other named.symm
  rw [register_eq_some_iff updated, register_eq_some_iff built, List.mem_append,
    List.mem_append, List.mem_cons, List.mem_cons, or_iff_right (elsewhere newCtx newNamed),
    or_iff_right (elsewhere curCtx curNamed)]

/-- An update is an assignment to the register with the name of the context. -/
theorem register_update {ctxlist : List LCFGContext} {newCtx : LCFGContext} {newName : String}
    (built : Built ctxlist) (new_ : Parsed newCtx) (named : newCtx.name = some newName)
    (name : String) :
    register (update ctxlist newCtx).1 name =
      if newName = name then
        Stamped.assign (register ctxlist name) newCtx.value newCtx.priority
      else register ctxlist name := by
  have updated := (update_built built new_).1
  have valid := new_.isValid
  have self : newCtx = ⟨some newName, newCtx.value, newCtx.priority⟩ := by rw [← named]
  rcases updateNode_spec built.keyed.valid new_.isValid with
    ⟨-, fresh⟩ | ⟨before, curCtx, after, rfl, curNamed, -, changed⟩
  -- a new name
  · rw [update_fresh built.keyed.valid new_.isValid fresh] at updated ⊢
    split
    case isTrue same =>
      subst same
      have none_ : register ctxlist newName = none := by
        rw [register, (findContext_eq_none_iff built.keyed).mpr (named ▸ fresh)]
        rfl
      rw [none_, Stamped.assign_other (by simp), register_eq_some_iff updated, ← self]
      exact List.mem_append_right _ List.mem_cons_self
    case isFalse other =>
      apply Option.ext
      intro held
      rw [register_eq_some_iff updated, register_eq_some_iff built, List.mem_append,
        List.mem_singleton, self]
      refine or_iff_left fun same => other ?_
      injection same with same
      injection same with same
      exact same.symm
  -- the name of a context in the list
  · have member : curCtx ∈ before ++ curCtx :: after := by simp
    have held : (register (before ++ curCtx :: after) newName).map Stamped.value =
        some curCtx.value := by
      have here : register (before ++ curCtx :: after) newName =
          some ⟨curCtx.value, curCtx.priority⟩ := by
        rw [register_eq_some_iff built, ← named, ← curNamed]
        exact member
      rw [here]
      rfl
    have equal := equals_iff (built.parsed curCtx member) new_ curNamed
    rcases changed with ⟨same, kept⟩ | ⟨differ, replaced⟩
    · have unchanged : update (before ++ curCtx :: after) newCtx =
          (before ++ curCtx :: after, .none) := by
        simp [update, valid, kept]
      rw [unchanged]
      split
      case isTrue there =>
        subst there
        rw [Stamped.assign_same (held.trans (congrArg some (equal.mp same)))]
      · rfl
    · have other : update (before ++ curCtx :: after) newCtx =
          (before ++ newCtx :: after, .modified) := by
        simp [update, valid, replaced]
      rw [other] at updated ⊢
      split
      case isTrue there =>
        subst there
        have values : curCtx.value ≠ newCtx.value := by
          intro same
          rw [equal.mpr same] at differ
          cases differ
        rw [Stamped.assign_other (held.symm ▸ fun same => values (Option.some_inj.mp same)),
          register_eq_some_iff updated, ← self]
        exact List.mem_append_right _ List.mem_cons_self
      case isFalse there =>
        exact register_replaced built updated (curNamed.trans named) named there

/-- Registers of parsed contexts hold the same when the maps give the same. -/
private theorem register_ne_iff_contents {ctxlist1 ctxlist2 : List LCFGContext}
    (built1 : Built ctxlist1) (built2 : Built ctxlist2) (name : String) :
    register ctxlist1 name ≠ register ctxlist2 name ↔
      contents ctxlist1 name ≠ contents ctxlist2 name := by
  rw [Ne, Ne, not_iff_not, register, register, contents, contents]
  cases here : findContext (some ctxlist1) name with
  | none => cases findContext (some ctxlist2) name <;> simp
  | some ctx =>
    cases there : findContext (some ctxlist2) name with
    | none => simp
    | some other =>
      have parsed := built1.parsed ctx ((findContext_iff built1.keyed).mp here).1
      have parsed' := built2.parsed other ((findContext_iff built2.keyed).mp there).1
      have values := sameValue_iff_eq parsed parsed'
      rw [sameValue, decide_eq_true_iff, strcmp_eq_zero] at values
      rw [Option.map_some, Option.map_some, Option.map_some, Option.map_some, Option.some_inj,
        Option.some_inj, Stamped.mk.injEq, Prod.mk.injEq, values]

/-- Two lists differ when a register differs. -/
theorem diff_iff {ctxlist1 ctxlist2 : List LCFGContext} (built1 : Built ctxlist1)
    (built2 : Built ctxlist2) :
    diff ctxlist1 ctxlist2 = true ↔ ∃ name, register ctxlist1 name ≠ register ctxlist2 name := by
  rw [diff_iff_contents built1.keyed built2.keyed]
  exact exists_congr fun name => (register_ne_iff_contents built1 built2 name).symm

theorem valued_eq {ctxlist : List LCFGContext} (built : Built ctxlist) (name : String) :
    valued ctxlist name = Stamped.shown (register ctxlist name) := by
  rw [valued, register, Stamped.shown]
  cases found : findContext (some ctxlist) name with
  | none => rfl
  | some ctx =>
    obtain ⟨member, -⟩ := (findContext_iff built.keyed).mp found
    cases value : ctx.value with
    | none => simp [hasValue, value, isEmpty]
    | some text =>
      have some_ := ((built.parsed ctx member).value text value).1
      simp [hasValue, value, isEmpty, some_]

end Lcfg.LCFGContextList
