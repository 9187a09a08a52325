import LcfgCore.Context.Update

/-!
# Comparing context lists

Two passes over two context lists find out whether they differ (`lcfgctxlist_diff`, without a
directory of profiles).

## Main result

`contexts_diff_exact`: no difference is found if and only if the lists are the same map from names
to values and priorities.
-/
namespace Lcfg.LCFGContextList

open LCFGContext

/-- The map from names to values and priorities; a missing value is taken for an empty one. -/
def contents (ctxlist : List LCFGContext) (name : String) : Option (String × Int) :=
  (findContext (some ctxlist) name).map fun ctx => (orDefault ctx.value "", ctx.priority)

/-- The pairs of names with values and priorities which are in a list. -/
def bindings (ctxlist : List LCFGContext) : Set (String × String × Int) :=
  {b | ∃ ctx ∈ ctxlist, ctx.name = some b.1 ∧ ctx.value.getD "" = b.2.1 ∧ ctx.priority = b.2.2}

/-- What any number of updates make of an empty list. -/
def updated (ctxs : List LCFGContext) : List LCFGContext :=
  ctxs.foldl (fun ctxlist ctx => (update ctxlist ctx).1) []

theorem updated_keyed (ctxs : List LCFGContext) : Keyed (updated ctxs) := by
  rw [updated]
  induction ctxs using List.reverseRecOn with
  | nil => exact ⟨by simp, by simp⟩
  | append_singleton ctxs ctx ih =>
    rw [List.foldl_append, List.foldl_cons, List.foldl_nil]
    by_cases new_ : ctx.isValid = true
    · exact (ih.update new_).1
    · rw [update, if_pos (by simpa using new_)]
      exact ih

/-! ## What is found under a name -/

theorem wanted_iff {ctx : LCFGContext} (valid : ctx.isValid = true) (name : String) :
    (ctx.isValid && ctx.match name) = true ↔ ctx.name = some name := by
  obtain ⟨own, named⟩ := exists_name_of_isValid valid
  simp [valid, LCFGContext.match, named]

theorem findContext_iff {ctxlist : List LCFGContext} (keyed : Keyed ctxlist) {name : String}
    {ctx : LCFGContext} :
    findContext (some ctxlist) name = some ctx ↔ ctx ∈ ctxlist ∧ ctx.name = some name := by
  -- what is found is in the list and has the name
  have named : ∀ other, findContext (some ctxlist) name = some other →
      other ∈ ctxlist ∧ other.name = some name := by
    intro other found
    have member : other ∈ ctxlist := findContext_mem found
    rw [findContext] at found
    have wanted := List.find?_some found
    exact ⟨member, (wanted_iff (keyed.valid other member) name).mp wanted⟩
  constructor
  · exact named ctx
  · rintro ⟨member, here⟩
    cases found : findContext (some ctxlist) name with
    | none =>
      rw [findContext, List.find?_eq_none] at found
      exact absurd ((wanted_iff (keyed.valid ctx member) name).mpr here) (found ctx member)
    | some first =>
      -- each name is in the list once
      obtain ⟨there, firstNamed⟩ := named first found
      exact congrArg some
        (List.inj_on_of_nodup_map keyed.distinct there member (firstNamed.trans here.symm))

theorem findContext_eq_none_iff {ctxlist : List LCFGContext} (keyed : Keyed ctxlist)
    {name : String} :
    findContext (some ctxlist) name = none ↔ some name ∉ ctxlist.map LCFGContext.name := by
  rw [Option.eq_none_iff_forall_ne_some]
  constructor
  · intro absent member
    obtain ⟨ctx, there, named⟩ := List.mem_map.mp member
    exact absent ctx ((findContext_iff keyed).mpr ⟨there, named⟩)
  · intro absent ctx found
    obtain ⟨member, named⟩ := (findContext_iff keyed).mp found
    exact absent (named ▸ List.mem_map_of_mem member)

theorem sameName_of_eq {ctx other : LCFGContext} (named : ctx.name = other.name) :
    sameName ctx other = true := by
  rw [sameName, named]
  exact decide_eq_true ((strcmp_eq_zero _ _).mpr rfl)

/-! ## The two passes -/

variable {ctxlist1 ctxlist2 : List LCFGContext}

/-- What the first pass finds out about a context. -/
private theorem differs_iff (keyed1 : Keyed ctxlist1) (keyed2 : Keyed ctxlist2) {ctx : LCFGContext}
    {name : String} (member : ctx ∈ ctxlist1) (named : ctx.name = some name) :
    (match findContext (some ctxlist2) (ctx.name.getD "") with
      | none => true
      | some otherCtx => !identical ctx otherCtx) = true ↔
      contents ctxlist1 name ≠ contents ctxlist2 name := by
  have here := (findContext_iff keyed1).mpr ⟨member, named⟩
  rw [contents, contents, here, named, Option.getD_some]
  cases there : findContext (some ctxlist2) name with
  | none => exact iff_of_true rfl (Option.some_ne_none _)
  | some other =>
    obtain ⟨-, named'⟩ := (findContext_iff keyed2).mp there
    dsimp only
    rw [Bool.not_eq_true', ← Bool.not_eq_true, identical, sameName_of_eq (named.trans named'.symm),
      Bool.true_and, Bool.and_eq_true, sameValue, decide_eq_true_iff, strcmp_eq_zero, beq_iff_eq,
      Option.map_some, Option.map_some, Ne, Option.some_inj, Prod.mk.injEq]

/-- A difference is one at a name of the first list, or a name which it lacks. -/
theorem diff_iff_contents (keyed1 : Keyed ctxlist1) (keyed2 : Keyed ctxlist2) :
    diff ctxlist1 ctxlist2 = true ↔ ∃ name, contents ctxlist1 name ≠ contents ctxlist2 name := by
  rw [diff, Bool.or_eq_true, List.any_eq_true, List.any_eq_true]
  constructor
  · rintro (⟨ctx, member, differs⟩ | ⟨ctx, member, missing⟩)
    · obtain ⟨name, named⟩ := exists_name_of_isValid (keyed1.valid ctx member)
      rw [Bool.and_eq_true] at differs
      exact ⟨name, (differs_iff keyed1 keyed2 member named).mp differs.2⟩
    · obtain ⟨name, named⟩ := exists_name_of_isValid (keyed2.valid ctx member)
      have there := (findContext_iff keyed2).mpr ⟨member, named⟩
      rw [named, Option.getD_some, Bool.and_eq_true, Option.isNone_iff_eq_none] at missing
      refine ⟨name, ?_⟩
      rw [contents, contents, there, missing.2]
      exact (Option.some_ne_none _).symm
  · rintro ⟨name, differ⟩
    cases here : findContext (some ctxlist1) name with
    | some ctx =>
      left
      obtain ⟨member, named⟩ := (findContext_iff keyed1).mp here
      refine ⟨ctx, member, ?_⟩
      rw [keyed1.valid ctx member, Bool.true_and]
      exact (differs_iff keyed1 keyed2 member named).mpr differ
    -- a name which only the second list has
    | none =>
      right
      cases there : findContext (some ctxlist2) name with
      | none =>
        rw [contents, contents, here, there] at differ
        exact absurd rfl differ
      | some other =>
        obtain ⟨member, named⟩ := (findContext_iff keyed2).mp there
        refine ⟨other, member, ?_⟩
        rw [keyed2.valid other member, Bool.true_and, named, Option.getD_some, here]
        rfl

theorem mem_bindings {ctxlist : List LCFGContext} (keyed : Keyed ctxlist) {name value : String}
    {priority : Int} :
    (name, value, priority) ∈ bindings ctxlist ↔ contents ctxlist name = some (value, priority) := by
  rw [contents, Option.map_eq_some_iff]
  constructor
  · rintro ⟨ctx, member, named, rfl, rfl⟩
    exact ⟨ctx, (findContext_iff keyed).mpr ⟨member, named⟩, by rw [orDefault_empty]⟩
  · rintro ⟨ctx, found, same⟩
    obtain ⟨member, named⟩ := (findContext_iff keyed).mp found
    obtain ⟨value_, priority_⟩ := Prod.mk.inj same
    exact ⟨ctx, member, named, by rw [← value_, orDefault_empty], priority_⟩

/-- Where each name is once, equal pairs are an equal map. -/
theorem bindings_eq_iff (keyed1 : Keyed ctxlist1) (keyed2 : Keyed ctxlist2) :
    bindings ctxlist1 = bindings ctxlist2 ↔ contents ctxlist1 = contents ctxlist2 := by
  constructor
  · intro same
    funext name
    apply Option.ext
    rintro ⟨value, priority⟩
    rw [← mem_bindings keyed1, ← mem_bindings keyed2, same]
  · intro same
    ext ⟨name, value, priority⟩
    rw [mem_bindings keyed1, mem_bindings keyed2, same]

theorem diff_eq_false_iff (keyed1 : Keyed ctxlist1) (keyed2 : Keyed ctxlist2) :
    diff ctxlist1 ctxlist2 = false ↔ bindings ctxlist1 = bindings ctxlist2 := by
  rw [bindings_eq_iff keyed1 keyed2, ← Bool.not_eq_true, diff_iff_contents keyed1 keyed2, not_exists,
    funext_iff]
  exact forall_congr' fun name => not_not

/-- The diff of lists which are built by updates is exact, and the same both ways. -/
theorem contexts_diff_exact (ctxs1 ctxs2 : List LCFGContext) :
    (diff (updated ctxs1) (updated ctxs2) = false ↔
      bindings (updated ctxs1) = bindings (updated ctxs2)) ∧
    diff (updated ctxs1) (updated ctxs2) = diff (updated ctxs2) (updated ctxs1) ∧
    ((updated ctxs1).map LCFGContext.name).Nodup := by
  have keyed1 := updated_keyed ctxs1
  have keyed2 := updated_keyed ctxs2
  have exact_ := diff_eq_false_iff keyed1 keyed2
  refine ⟨exact_, ?_, keyed1.distinct⟩
  -- equality is symmetric, so that the other answer has to be the same
  have exact' := diff_eq_false_iff keyed2 keyed1
  rw [@eq_comm _ (bindings (updated ctxs2)), ← exact_] at exact'
  cases answer : diff (updated ctxs1) (updated ctxs2) with
  | false => exact (exact'.mpr answer).symm
  | true =>
    rw [answer, Bool.true_eq_false, iff_false, Bool.not_eq_false] at exact'
    exact exact'.symm

end Lcfg.LCFGContextList
