import LcfgCore.Context.Pending
import LcfgCore.Context.Registers

/-!
# Changes of the pending contexts

Whether `lcfgcontext_update_pending` has to write the pending file is decided by a
comparison of the lists in memory, which also hold contexts without a value. These are
not written, so that it may report a modification where there is none.

## Main results

`updatePending_run`, `applyUpdates_spec`, `updatePending_reports_iff`
-/
namespace Lcfg.Pending

open LCFGContext LCFGContextList

/-- `lcfgcontext_update_pending` when no other process is there and no system call fails:
the file which it leaves, and what it returns. It does not return when a counter goes
beyond its greatest value. -/
def updatePending (contextdir : String) (file : ContextFile) (contexts : List String) :
    Option (ContextFile × Report) :=
  if contexts = [] then some (file, { change := .none, result := none, msg := none })
  else
    match fromFile (pendingfile contextdir) file { allowNoExist := true } with
    | .error .overflow => none
    | .error (.message loadMsg) =>
      some (file, report none (some ("Failed to load pending contexts: " ++ loadMsg)))
    | .ok pending =>
      match revise pending contexts with
      | .error .overflow => none
      | .error (.message text) => some (file, report none (some text))
      | .ok revision =>
        if revision.changed then
          match print revision.newlist with
          | none => some (file, report none none)
          | some text => some (.text text, report (some revision) none)
        else some (file, report (some revision) none)

section Process

variable {Pid : Type} [DecidableEq Pid]

/-- A process which is alone, and whose system calls work, computes this in nine of them. -/
theorem updatePending_run (contextdir : String) (tmpfile : Pid → String)
    (contexts : Pid → List String) (file : ContextFile) (p : Pid) :
    let last := (List.replicate 9 (p, .works)).foldl (step contextdir tmpfile contexts)
      (initial file)
    match updatePending contextdir file (contexts p) with
    | some (written, result) => last.pending = written ∧ last.phase p = .done result
    | none => last.phase p = .stopped := by
  intro last
  simp only [last, List.replicate, List.foldl, updatePending]
  -- each case is a run through the phases to its end
  by_cases none_ : contexts p = []
  · simp [step, initial, World.goto, none_]
  · cases read : fromFile (pendingfile contextdir) file { allowNoExist := true } with
    | error error =>
      cases error with
      | overflow => simp [step, initial, World.goto, none_, read]
      | message loadMsg => simp [step, initial, World.goto, none_, read]
    | ok pending =>
      cases revised : revise pending (contexts p) with
      | error error =>
        cases error with
        | overflow => simp [step, initial, World.goto, none_, read, revised, failed]
        | message text => simp [step, initial, World.goto, none_, read, revised, failed]
      | ok revision =>
        cases changed : revision.changed with
        | false => simp [step, initial, World.goto, none_, read, revised, changed]
        | true =>
          cases text : print revision.newlist with
          | none => simp [step, initial, World.goto, none_, read, revised, changed, text]
          | some text => simp [step, initial, World.goto, none_, read, revised, changed, text, report]

end Process

/-! ## The changes -/

/-- The name and the value for which a change string asks. -/
def assignment (ctxStr : String) : Option (String × Option String) :=
  match fromString (some ctxStr) 1 with
  | .ok ctx => some (ctx.name.getD "", ctx.value)
  | .error _ => none

/-- All change strings can be read, and their priorities are in range. -/
structure Taken (priority : Int) (contexts : List String)
    (assignments : List (String × Option String)) : Prop where
  read : contexts.map assignment = assignments.map some
  inRange : priority + contexts.length < 2 ^ 31

/-- A change string cannot be read, and the priorities up to it are in range. -/
def Refused (priority : Int) (contexts : List String) : Prop :=
  ∃ before ctxStr after, contexts = before ++ ctxStr :: after ∧ assignment ctxStr = none ∧
    priority + before.length + 1 < 2 ^ 31

theorem fromString_of_assignment {ctxStr name : String} {value : Option String} {priority : Int}
    (positive : 1 ≤ priority) (assigned : assignment ctxStr = some (name, value)) :
    fromString (some ctxStr) priority = .ok ⟨some name, value, priority⟩ := by
  cases first : fromString (some ctxStr) 1 with
  | error msg => simp [assignment, first] at assigned
  | ok ctx =>
    rw [assignment, first, Option.some_inj, Prod.mk.injEq] at assigned
    obtain ⟨separated, valid, -, parts⟩ := fromString_eq_ok.mp first
    refine fromString_eq_ok.mpr ⟨separated, valid, positive, ?_⟩
    obtain ⟨named, valued⟩ := assigned
    rw [← named, ← valued, parts]
    rfl

theorem fromString_of_no_assignment {ctxStr : String} (priority : Int)
    (unread : assignment ctxStr = none) : ∃ msg, fromString (some ctxStr) priority = .error msg := by
  cases read : fromString (some ctxStr) priority with
  | error msg => exact ⟨msg, rfl⟩
  | ok ctx =>
    obtain ⟨separated, valid, -, -⟩ := fromString_eq_ok.mp read
    have first := fromString_eq_ok.mpr ⟨separated, valid, Int.le_refl 1, rfl⟩
    rw [assignment, first] at unread
    cases unread

theorem refused_cons {priority : Int} {ctxStr : String} {rest : List String} :
    Refused priority (ctxStr :: rest) ↔
      assignment ctxStr = none ∧ priority + 1 < 2 ^ 31 ∨ Refused (priority + 1) rest := by
  -- the string which cannot be read is the first one or comes later
  constructor
  · rintro ⟨before, unread, after, split, none_, inRange⟩
    cases before with
    | nil =>
      injection split with same
      exact .inl ⟨same ▸ none_, by simpa using inRange⟩
    | cons first before =>
      injection split with _ split
      rw [List.length_cons] at inRange
      exact .inr ⟨before, unread, after, split, none_, by omega⟩
  · rintro (⟨none_, inRange⟩ | ⟨before, unread, after, rfl, none_, inRange⟩)
    · exact ⟨[], ctxStr, rest, rfl, none_, by simpa using inRange⟩
    · refine ⟨ctxStr :: before, unread, after, rfl, none_, ?_⟩
      rw [List.length_cons]
      omega

theorem Taken.cons {priority : Int} {ctxStr : String} {rest : List String}
    {first : String × Option String} {assignments : List (String × Option String)}
    (read : assignment ctxStr = some first) (taken : Taken (priority + 1) rest assignments) :
    Taken priority (ctxStr :: rest) (first :: assignments) := by
  refine ⟨by rw [List.map_cons, List.map_cons, read, taken.read], ?_⟩
  have inRange := taken.inRange
  rw [List.length_cons]
  omega

theorem Taken.unique {priority : Int} {contexts : List String}
    {assignments others : List (String × Option String)} (taken : Taken priority contexts assignments)
    (also : Taken priority contexts others) : assignments = others :=
  List.map_injective_iff.mpr (Option.some_injective _) (taken.read.symm.trans also.read)

theorem Refused.not_read {priority : Int} {contexts : List String}
    (refused : Refused priority contexts) (assignments : List (String × Option String)) :
    contexts.map assignment ≠ assignments.map some := by
  obtain ⟨before, ctxStr, after, rfl, none_, -⟩ := refused
  intro same
  have member : none ∈ assignments.map some := by
    rw [← same, ← none_]
    exact List.mem_map_of_mem (by simp)
  simp at member

theorem Taken.tail {priority : Int} {ctxStr : String} {rest : List String}
    {assignments : List (String × Option String)} (taken : Taken priority (ctxStr :: rest) assignments) :
    ∃ later, Taken (priority + 1) rest later := by
  obtain ⟨read, inRange⟩ := taken
  cases assignments with
  | nil => cases read
  | cons first later =>
    injection read with _ read
    rw [List.length_cons] at inRange
    exact ⟨later, read, by omega⟩

/-- What `applyUpdates` ends in: every change was an assignment, or one could not be read,
or the priorities are out of range. -/
inductive Applied (newlist : List LCFGContext) (priority : Int) (contexts : List String) :
    Except FileError (List LCFGContext) → Prop
  | taken (assignments : List (String × Option String)) (result : List LCFGContext)
    (taken : Taken priority contexts assignments) (built : Built result)
    (follows : ∀ name, register result name =
      Stamped.follow name (register newlist name) priority assignments) :
    Applied newlist priority contexts (.ok result)
  | refused (text : String) (refused : Refused priority contexts) :
    Applied newlist priority contexts (.error (.message text))
  | overflow (notRefused : ¬Refused priority contexts)
    (notTaken : ∀ assignments, ¬Taken priority contexts assignments) :
    Applied newlist priority contexts (.error .overflow)

theorem applyUpdates_spec {newlist : List LCFGContext} {priority : Int} (contexts : List String)
    (built : Built newlist) (positive : 0 ≤ priority) (inRange : priority < 2 ^ 31) :
    Applied newlist priority contexts (applyUpdates newlist priority contexts) := by
  induction contexts generalizing newlist priority with
  | nil => exact .taken [] newlist ⟨rfl, by simpa using inRange⟩ built fun _ => rfl
  | cons ctxStr rest ih =>
    rw [applyUpdates]
    by_cases limit : priority + 1 = 2 ^ 31
    · rw [if_pos limit]
      refine .overflow (fun refused => ?_) fun assignments taken => ?_
      · obtain ⟨before, unread, after, -, -, below⟩ := refused
        omega
      · have below := taken.inRange
        rw [List.length_cons] at below
        omega
    · rw [if_neg limit]
      have next : priority + 1 < 2 ^ 31 := by omega
      -- a change which is read is an assignment with the next priority
      cases read : assignment ctxStr with
      | none =>
        obtain ⟨parseMsg, unread⟩ := fromString_of_no_assignment (priority + 1) read
        rw [unread]
        exact .refused _ (refused_cons.mpr (.inl ⟨read, next⟩))
      | some first =>
        obtain ⟨newName, value⟩ := first
        have raised : 1 ≤ priority + 1 := by omega
        have parsed := fromString_of_assignment raised read
        have new_ := (fromString_parsed parsed).1
        obtain ⟨updated, accepted⟩ := update_built built new_
        rw [parsed]
        dsimp only
        rw [if_neg accepted]
        have later := ih updated (by omega) next
        generalize applyUpdates (update newlist ⟨some newName, value, priority + 1⟩).1
          (priority + 1) rest = outcome at later ⊢
        cases later with
        | taken assignments result taken built' follows =>
          refine .taken ((newName, value) :: assignments) result (taken.cons read) built' ?_
          intro name
          rw [follows, register_update built new_ rfl]
          rfl
        | refused text refused => exact .refused text (refused_cons.mpr (.inr refused))
        | overflow notRefused notTaken =>
          refine .overflow (fun refused => ?_) fun assignments taken => ?_
          · rcases refused_cons.mp refused with ⟨none_, -⟩ | later
            · rw [read] at none_
              cases none_
            · exact notRefused later
          · obtain ⟨later, there⟩ := taken.tail
            exact notTaken later there

theorem clone_eq {ctxlist : List LCFGContext} (valid : ∀ ctx ∈ ctxlist, ctx.isValid = true) :
    clone ctxlist = some ctxlist := by
  have copies (copied : List LCFGContext) : ctxlist.foldlM (fun clone ctx =>
      let appended := append clone ctx
      if appended.2 = .added then some appended.1 else none) copied =
      some (copied ++ ctxlist) := by
    induction ctxlist generalizing copied with
    | nil => rw [List.append_nil]; rfl
    | cons ctx rest ih =>
      have here := valid ctx List.mem_cons_self
      have appended : append copied ctx = (copied ++ [ctx], .added) := by simp [append, here]
      rw [List.foldlM_cons]
      dsimp only
      rw [appended, if_pos rfl]
      exact (ih (fun other member => valid other (List.mem_cons_of_mem _ member)) _).trans
        (by rw [List.append_assoc]; rfl)
  exact copies []

/-! ## What is reported -/

/-- The new list differs from the one which was read, as a map from the names of contexts
with a value to the values and priorities. -/
def WouldDiffer (contextdir : String) (file : ContextFile) (contexts : List String) : Prop :=
  ∃ pending revision,
    fromFile (pendingfile contextdir) file { allowNoExist := true } = .ok pending ∧
      revise pending contexts = .ok revision ∧ valued pending ≠ valued revision.newlist

/-- A modification is reported just when the new list differs, and otherwise the file
stays as it is. -/
def ReportsChange (contextdir : String) (file : ContextFile) (contexts : List String) : Prop :=
  ∃ written result, updatePending contextdir file contexts = some (written, result) ∧
    (result.change = .modified ↔ WouldDiffer contextdir file contexts) ∧
    (result.change ≠ .modified → written = file)

/-- Nothing is to be done, or the file or a change cannot be read, or some change has an
effect on a context, or no context is assigned to in vain. -/
def Purposeful (contextdir : String) (file : ContextFile) (contexts : List String) : Prop :=
  contexts = [] ∨
    (∃ text, fromFile (pendingfile contextdir) file { allowNoExist := true } =
      .error (.message text)) ∨
    ∃ pending, fromFile (pendingfile contextdir) file { allowNoExist := true } = .ok pending ∧
      (Refused (maxPriority pending) contexts ∨
        ∃ assignments, Taken (maxPriority pending) contexts assignments ∧
          ((∃ name, Stamped.Effective name (register pending name) assignments) ∨
            ∀ name, ¬Stamped.Vain name (register pending name) assignments))

/-- What `revise` ends in. -/
inductive Revised (pending : List LCFGContext) (contexts : List String) :
    Except FileError Revision → Prop
  | taken (assignments : List (String × Option String)) (revision : Revision)
    (taken : Taken (maxPriority pending) contexts assignments) (built : Built revision.newlist)
    (follows : ∀ name, register revision.newlist name =
      Stamped.follow name (register pending name) (maxPriority pending) assignments)
    (changed : revision.changed = true ↔
      ∃ name, register revision.newlist name ≠ register pending name) :
    Revised pending contexts (.ok revision)
  | refused (text : String) (refused : Refused (maxPriority pending) contexts) :
    Revised pending contexts (.error (.message text))
  | overflow (notRefused : ¬Refused (maxPriority pending) contexts)
    (notTaken : ∀ assignments, ¬Taken (maxPriority pending) contexts assignments) :
    Revised pending contexts (.error .overflow)

theorem revise_spec {pending : List LCFGContext} (contexts : List String) (built : Built pending)
    (inRange : ∀ ctx ∈ pending, ctx.priority < 2 ^ 31) :
    Revised pending contexts (revise pending contexts) := by
  obtain ⟨positive, -, least⟩ := maxPriority_spec pending
  have applied := applyUpdates_spec contexts built positive (least _ (by decide) inRange)
  rw [revise, clone_eq fun ctx member => (built.parsed ctx member).isValid]
  dsimp only
  generalize applyUpdates pending (maxPriority pending) contexts = outcome at applied ⊢
  cases applied with
  | refused text refused => exact .refused text refused
  | overflow notRefused notTaken => exact .overflow notRefused notTaken
  | taken assignments result taken built' follows =>
    -- the new list is the same set of registers when it is sorted
    have sorted := sortByPriority_built built'
    have same := register_perm built' sorted (sortByPriority_spec result).1
    have differs := diff_iff built built'
    simp only [ne_comm (a := register pending _)] at differs
    dsimp only
    cases changed : diff pending result with
    | true =>
      rw [if_pos rfl]
      refine .taken assignments ⟨true, sortByPriority result⟩ taken sorted (fun name => ?_) ?_
      · rw [same, follows]
      · simp only [same, ← differs, changed]
    | false =>
      rw [if_neg Bool.false_ne_true]
      refine .taken assignments ⟨false, result⟩ taken built' follows ?_
      rw [← differs, changed]

section Registers

variable {pending : List LCFGContext} {revision : Revision}
  {assignments : List (String × Option String)} {contexts : List String}

theorem register_old (built : Built pending) (name : String) :
    ∀ held, register pending name = some held → held.stamp ≤ maxPriority pending := by
  intro held found
  obtain ⟨ctx, here, rfl⟩ := Option.map_eq_some_iff.mp found
  exact (maxPriority_spec pending).2.1 ctx ((findContext_iff built.keyed).mp here).1

/-- The valued contexts change by the assignments which have an effect. -/
theorem valued_ne_iff (built : Built pending) (built' : Built revision.newlist)
    (follows : ∀ name, register revision.newlist name =
      Stamped.follow name (register pending name) (maxPriority pending) assignments) :
    valued pending ≠ valued revision.newlist ↔
      ∃ name, Stamped.Effective name (register pending name) assignments := by
  rw [Function.ne_iff]
  refine exists_congr fun name => ?_
  rw [valued_eq built, valued_eq built', follows, ne_comm]
  exact Stamped.shown_follow_iff (register_old built name) assignments

/-- The registers also change by those which are vain. -/
theorem register_ne_iff (built : Built pending)
    (follows : ∀ name, register revision.newlist name =
      Stamped.follow name (register pending name) (maxPriority pending) assignments) :
    (∃ name, register revision.newlist name ≠ register pending name) ↔
      (∃ name, Stamped.Effective name (register pending name) assignments) ∨
        ∃ name, Stamped.Vain name (register pending name) assignments := by
  rw [← exists_or]
  refine exists_congr fun name => ?_
  rw [follows]
  exact Stamped.follow_ne_iff (register_old built name) assignments

end Registers

section Report

variable {contextdir : String} {file : ContextFile} {contexts : List String}
  {pending : List LCFGContext}

/-- A list which was read and revised is written if it has changed. -/
theorem updatePending_of_revise (some_ : contexts ≠ [])
    (read : fromFile (pendingfile contextdir) file { allowNoExist := true } = .ok pending)
    {revision : Revision} (revised : revise pending contexts = .ok revision)
    (built : Built revision.newlist) :
    ∃ written, updatePending contextdir file contexts =
        some (written, report (some revision) none) ∧
      (revision.changed = false → written = file) := by
  rw [updatePending, if_neg some_, read]
  dsimp only
  rw [revised]
  dsimp only
  cases changed : revision.changed with
  | false => exact ⟨file, rfl, fun _ => rfl⟩
  | true =>
    rw [print_eq fun ctx member => (built.parsed ctx member).isValid, if_pos rfl]
    exact ⟨_, rfl, fun same => by cases same⟩

theorem report_modified_iff (revision : Revision) (msg : Option String) :
    (report (some revision) msg).change = .modified ↔ revision.changed = true := by
  rw [report]
  cases revision.changed with
  | false => simp
  | true => simp

theorem report_none_change (msg : Option String) : (report none msg).change ≠ .modified := by
  rw [report]
  exact LCFGChange.noConfusion

theorem wouldDiffer_iff
    (read : fromFile (pendingfile contextdir) file { allowNoExist := true } = .ok pending) :
    WouldDiffer contextdir file contexts ↔
      ∃ revision, revise pending contexts = .ok revision ∧
        valued pending ≠ valued revision.newlist := by
  constructor
  · rintro ⟨other, revision, same, differ⟩
    rw [read] at same
    injection same with same
    exact ⟨revision, same ▸ differ⟩
  · rintro ⟨revision, differ⟩
    exact ⟨pending, revision, read, differ⟩

/-- No changes at all. -/
theorem not_wouldDiffer_nil : ¬WouldDiffer contextdir file [] := by
  rintro ⟨pending, revision, read, revised, differ⟩
  obtain ⟨built, inRange⟩ := fromFile_built read
  have spec := revise_spec [] built inRange
  rw [revised] at spec
  cases spec with
  | taken assignments _ taken built' follows _ =>
    have none_ : assignments = [] := List.map_eq_nil_iff.mp taken.read.symm
    subst none_
    obtain ⟨name, effective⟩ := (valued_ne_iff built built' follows).mp differ
    exact (Stamped.follow_ne_iff (register_old built name) []).mpr (.inl effective) rfl

/-- All the changes are taken: what is reported is right if some register with a value
changes, or none at all. -/
private theorem reportsChange_of_taken {revision : Revision}
    {assignments : List (String × Option String)} (some_ : contexts ≠ [])
    (read : fromFile (pendingfile contextdir) file { allowNoExist := true } = .ok pending)
    (revised : revise pending contexts = .ok revision) (built : Built pending)
    (built' : Built revision.newlist)
    (follows : ∀ name, register revision.newlist name =
      Stamped.follow name (register pending name) (maxPriority pending) assignments)
    (changed : revision.changed = true ↔
      ∃ name, register revision.newlist name ≠ register pending name) :
    ReportsChange contextdir file contexts ↔
      (∃ name, Stamped.Effective name (register pending name) assignments) ∨
        ∀ name, ¬Stamped.Vain name (register pending name) assignments := by
  obtain ⟨written, returned, kept⟩ := updatePending_of_revise some_ read revised built'
  have differ : WouldDiffer contextdir file contexts ↔
      ∃ name, Stamped.Effective name (register pending name) assignments := by
    rw [← valued_ne_iff built built' follows, wouldDiffer_iff read, revised]
    constructor
    · rintro ⟨other, same, unequal⟩
      injection same with same
      exact same ▸ unequal
    · exact fun unequal => ⟨revision, rfl, unequal⟩
  have reported : (report (some revision) none).change = .modified ↔
      (∃ name, Stamped.Effective name (register pending name) assignments) ∨
        ∃ name, Stamped.Vain name (register pending name) assignments := by
    rw [report_modified_iff, changed, register_ne_iff built follows]
  -- a vain assignment is reported as well, so there must be one with an effect
  constructor
  · rintro ⟨_, _, returned', modified, -⟩
    rw [returned] at returned'
    injection returned' with returned'
    injection returned' with _ same
    subst same
    rw [reported, differ] at modified
    by_cases effective : ∃ name, Stamped.Effective name (register pending name) assignments
    · exact .inl effective
    · exact .inr fun name vain => effective (modified.mp (.inr ⟨name, vain⟩))
  · intro purposeful
    refine ⟨written, _, returned, ?_, fun unmodified => kept ?_⟩
    · rw [reported, differ]
      constructor
      · rintro (effective | ⟨name, vain⟩)
        · exact effective
        · exact purposeful.resolve_right fun none_ => none_ name vain
      · exact Or.inl
    · rwa [Ne, report_modified_iff, Bool.not_eq_true] at unmodified

/-- A file which was read, and some changes. -/
private theorem reportsChange_of_read (some_ : contexts ≠ [])
    (read : fromFile (pendingfile contextdir) file { allowNoExist := true } = .ok pending) :
    ReportsChange contextdir file contexts ↔
      Refused (maxPriority pending) contexts ∨
        ∃ assignments, Taken (maxPriority pending) contexts assignments ∧
          ((∃ name, Stamped.Effective name (register pending name) assignments) ∨
            ∀ name, ¬Stamped.Vain name (register pending name) assignments) := by
  obtain ⟨built, inRange⟩ := fromFile_built read
  have spec := revise_spec contexts built inRange
  cases revised : revise pending contexts with
  | error error =>
    rw [revised] at spec
    -- before the string which cannot be read nothing has been written
    cases spec with
    | refused text refused =>
      refine iff_of_true ⟨file, report none (some text), ?_, ?_, fun _ => rfl⟩ (.inl refused)
      · rw [updatePending, if_neg some_, read]
        dsimp only
        rw [revised]
      · rw [wouldDiffer_iff read, revised]
        refine iff_of_false (report_none_change _) ?_
        rintro ⟨revision, none_, -⟩
        cases none_
    | overflow notRefused notTaken =>
      refine iff_of_false ?_ ?_
      · rintro ⟨written, result, returned, -⟩
        rw [updatePending, if_neg some_, read] at returned
        dsimp only at returned
        rw [revised] at returned
        cases returned
      · rintro (refused | ⟨assignments, taken, -⟩)
        · exact notRefused refused
        · exact notTaken assignments taken
  | ok revision =>
    rw [revised] at spec
    cases spec with
    | taken assignments _ taken built' follows changed =>
    rw [reportsChange_of_taken some_ read revised built built' follows changed]
    constructor
    · exact fun purposeful => .inr ⟨assignments, taken, purposeful⟩
    · rintro (refused | ⟨others, taken', purposeful⟩)
      · exact absurd taken.read (refused.not_read assignments)
      · obtain rfl := taken.unique taken'
        exact purposeful

private theorem reportsChange_iff_purposeful :
    ReportsChange contextdir file contexts ↔ Purposeful contextdir file contexts := by
  by_cases some_ : contexts = []
  · subst some_
    refine iff_of_true ⟨file, _, rfl, ?_, fun _ => rfl⟩ (.inl rfl)
    exact iff_of_false (by decide) not_wouldDiffer_nil
  rw [Purposeful, or_iff_right some_]
  cases read : fromFile (pendingfile contextdir) file { allowNoExist := true } with
  | ok pending =>
    rw [reportsChange_of_read some_ read]
    constructor
    · exact fun purposeful => .inr ⟨pending, rfl, purposeful⟩
    · rintro (⟨text, none_⟩ | ⟨other, same, purposeful⟩)
      · cases none_
      · injection same with same
        exact same ▸ purposeful
  | error error =>
    cases error with
    | overflow =>
      refine iff_of_false ?_ ?_
      · rintro ⟨written, result, returned, -⟩
        rw [updatePending, if_neg some_, read] at returned
        cases returned
      · rintro (⟨text, none_⟩ | ⟨pending, none_, -⟩)
        · cases none_
        · cases none_
    | message loadMsg =>
      refine iff_of_true ⟨file, report none (some ("Failed to load pending contexts: " ++ loadMsg)),
        ?_, ?_, fun _ => rfl⟩ (.inl ⟨loadMsg, rfl⟩)
      · rw [updatePending, if_neg some_, read]
      · refine iff_of_false (report_none_change _) ?_
        rintro ⟨pending, revision, none_, -⟩
        rw [read] at none_
        cases none_

end Report

theorem updatePending_reports_iff (contextdir : String) (file : ContextFile)
    (contexts : List String) :
    ReportsChange contextdir file contexts ↔ Purposeful contextdir file contexts :=
  reportsChange_iff_purposeful

/-- A context without a value is added to the list in memory only. -/
theorem updatePending_not_reports :
    updatePending "conf" (.text "a=1\n".toList) ["b="] =
        some (.text "a=1\n".toList, ⟨.modified,
          some [⟨some "a", some "1", 1⟩, ⟨some "b", none, 2⟩], none⟩) ∧
      ¬ReportsChange "conf" (.text "a=1\n".toList) ["b="] := by
  have returned : updatePending "conf" (.text "a=1\n".toList) ["b="] =
      some (.text "a=1\n".toList, ⟨.modified,
        some [⟨some "a", some "1", 1⟩, ⟨some "b", none, 2⟩], none⟩) := by decide
  refine ⟨returned, ?_⟩
  rintro ⟨written, result, returned', modified, -⟩
  rw [returned] at returned'
  injection returned' with returned'
  injection returned' with _ same
  obtain ⟨pending, revision, read, revised, differ⟩ := modified.mp (by rw [← same])
  have pendingList : fromFile (pendingfile "conf") (.text "a=1\n".toList)
      { allowNoExist := true } = .ok [⟨some "a", some "1", 1⟩] := by decide
  have newList : revise [⟨some "a", some "1", 1⟩] ["b="] =
      .ok ⟨true, [⟨some "a", some "1", 1⟩, ⟨some "b", none, 2⟩]⟩ := by decide
  rw [pendingList] at read
  injection read with read
  rw [← read, newList] at revised
  injection revised with revised
  apply differ
  funext name
  rw [← read, ← revised]
  -- only the first one has a value
  rw [valued, valued, findContext, findContext, Option.getD_some, Option.getD_some,
    List.find?_cons, List.find?_cons, List.find?_cons, List.find?_nil]
  cases (LCFGContext.isValid ⟨some "a", some "1", 1⟩ &&
    LCFGContext.match ⟨some "a", some "1", 1⟩ name) with
  | true => rfl
  | false =>
    cases (LCFGContext.isValid ⟨some "b", none, 2⟩ &&
      LCFGContext.match ⟨some "b", none, 2⟩ name) with
    | true => rfl
    | false => rfl

end Lcfg.Pending
