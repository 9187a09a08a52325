import LcfgCore.Context.File
import LcfgCore.Library.Run
import LcfgCore.Library.Serial
import Mathlib.Logic.Function.Basic
import Mathlib.Data.Fintype.Basic

/-!
# Updating the pending contexts

Any number of processes run `lcfgcontext_update_pending` at once. Each of them creates a
lock file, reads the pending contexts, writes the new ones to a temporary file, renames it
and removes the lock file (`context/tools.c`). A step is one system call of one process,
with what it computes up to the next one.
-/
namespace Lcfg.Pending

open LCFGContext LCFGContextList

/-! ## What one process computes -/

/-- `lcfgutils_catfile` -/
def catfile (dir file : String) : String :=
  if dir = "" then file
  else
    let stem := String.ofList (dir.toList.rdropWhile (· == '/'))
    if file.toList.head? = some '/' then stem ++ file else stem ++ "/" ++ file

def pendingfile (contextdir : String) : String := catfile contextdir ".context"

def lockfile (contextdir : String) : String := catfile contextdir ".lockfile"

/-- `lcfgctxlist_clone`: the nodes are new, the contexts are shared. -/
def clone (ctxlist : List LCFGContext) : Option (List LCFGContext) :=
  ctxlist.foldlM (fun clone ctx =>
    let appended := append clone ctx
    if appended.2 = .added then some appended.1 else none) []

/-- The loop over the updates; the priority is an `int`. -/
def applyUpdates (newlist : List LCFGContext) (priority : Int) :
    List String → Except FileError (List LCFGContext)
  | [] => .ok newlist
  | ctxStr :: rest =>
    let priority := priority + 1
    if priority = 2 ^ 31 then .error .overflow
    else
      match fromString (some ctxStr) priority with
      | .error parseMsg =>
        .error (.message ("Failed to parse context '" ++ ctxStr ++ "': " ++ parseMsg))
      | .ok ctx =>
        let updated := update newlist ctx
        if updated.2 = .error then
          .error (.message ("Failed to merge context '" ++ ctxStr ++ "'"))
        else applyUpdates updated.1 priority rest

/-- The new list, and whether it has to be written. -/
structure Revision where
  changed : Bool
  newlist : List LCFGContext
deriving DecidableEq, Repr

/-- From the pending list to the new one, which is sorted if it is to be written. -/
def revise (pending : List LCFGContext) (contexts : List String) : Except FileError Revision :=
  match clone pending with
  | none => .error (.message "Failed to clone pending context list")
  | some newlist =>
    match applyUpdates newlist (maxPriority pending) contexts with
    | .error error => .error error
    | .ok newlist =>
      let changed := diff pending newlist
      .ok { changed, newlist := if changed then sortByPriority newlist else newlist }

/-! ## The processes -/

/-- What `lcfgcontext_update_pending` returns. -/
structure Report where
  change : LCFGChange
  result : Option (List LCFGContext)
  msg : Option String
deriving DecidableEq, Repr

/-- Where a process is. -/
inductive Phase where
  | start
  | opening
  -- about to create the lock file, with `symlink` at first and with `link` from then on
  | locking (first : Bool) (timeout : Nat)
  -- the lock file exists already
  | waiting (timeout : Nat)
  | locked
  | loaded (pending : List LCFGContext)
  | revised (newlist : List LCFGContext)
  | printed (newlist : List LCFGContext) (text : List Char)
  | closed (newlist : List LCFGContext) (text : List Char)
  -- the code behind the label `cleanup`, with the revision if all is well
  | cleanup (locked : Bool) (ok : Option Revision) (msg : Option String)
  | done (report : Report)
  -- `exit`, or a counter beyond its greatest value
  | stopped
deriving DecidableEq, Repr

/-- How the next system call of a process ends. The last two are reasons for the directory
not to be usable, and failures like others everywhere else. -/
inductive Outcome where
  | works | fails | notDirectory | notCreated
deriving DecidableEq, Repr

section Steps

variable {Pid : Type} [DecidableEq Pid]

/-- What the processes share, and where each of them is. The lock file is a link to the
temporary file of a process. -/
structure World (Pid : Type) where
  pending : ContextFile
  lock : Option Pid
  phase : Pid → Phase

def World.goto (w : World Pid) (p : Pid) (phase : Phase) : World Pid :=
  { w with phase := Function.update w.phase p phase }

variable (contextdir : String) (tmpfile : Pid → String) (contexts : Pid → List String)

/-- What happens after an error in the critical section. -/
def failed : FileError → Phase
  | .overflow => .stopped
  | .message text => .cleanup true none (some text)

/-- The report at the end of `cleanup`. -/
def report (ok : Option Revision) (msg : Option String) : Report :=
  match ok with
  | none => { change := .error, result := none, msg }
  | some revision =>
    { change := if revision.changed then .modified else .none
      result := some revision.newlist
      msg }

/-- One system call of one process. -/
def step (w : World Pid) (event : Pid × Outcome) : World Pid :=
  let p := event.1
  let works := event.2 = .works
  match w.phase p with
  | .start =>
    if contexts p = [] then
      w.goto p (.done { change := .none, result := none, msg := none })
    else
      match event.2 with
      | .works => w.goto p .opening
      | .fails => w.goto p (.done (report none none))
      | .notDirectory =>
        w.goto p (.done (report none (some ("'" ++ contextdir ++
          "' exists but is not a directory"))))
      | .notCreated =>
        w.goto p (.done (report none (some ("'" ++ contextdir ++
          "' does not exist and could not be created"))))
  | .opening => if works then w.goto p (.locking true 5) else w.goto p .stopped
  | .locking _ timeout =>
    if works then
      match w.lock with
      | none => { w with lock := some p }.goto p .locked
      | some _ => w.goto p (.waiting timeout)
    else w.goto p (.cleanup false none (some ("Failed to lock context directory: " ++
      "Cannot link '" ++ tmpfile p ++ "' => '" ++ lockfile contextdir ++ "'")))
  | .waiting (timeout + 1) => w.goto p (.locking false timeout)
  | .waiting 0 =>
    -- the wait has expired, and the lock is broken
    if works then { w with lock := none }.goto p (.locking false 0)
    else w.goto p (.cleanup false none (some ("Failed to lock context directory: " ++
      "Failed to remove lockfile")))
  | .locked =>
    let file := if works then w.pending else .unreadable
    match fromFile (pendingfile contextdir) file { allowNoExist := true } with
    | .ok pending => w.goto p (.loaded pending)
    | .error .overflow => w.goto p .stopped
    | .error (.message loadMsg) =>
      w.goto p (.cleanup true none (some ("Failed to load pending contexts: " ++ loadMsg)))
  | .loaded pending =>
    match revise pending (contexts p) with
    | .error error => w.goto p (failed error)
    | .ok revision =>
      if revision.changed then w.goto p (.revised revision.newlist)
      else w.goto p (.cleanup true (some revision) none)
  | .revised newlist =>
    match print newlist with
    | some text =>
      if works then w.goto p (.printed newlist text) else w.goto p (.cleanup true none none)
    | none => w.goto p (.cleanup true none none)
  | .printed newlist text =>
    if works then w.goto p (.closed newlist text)
    else w.goto p (.cleanup true none (some ("Failed to close file '" ++ tmpfile p ++ "'")))
  | .closed newlist text =>
    if works then
      { w with pending := .text text }.goto p (.cleanup true (some ⟨true, newlist⟩) none)
    else w.goto p (.cleanup true none none)
  | .cleanup _ ok msg =>
    -- a lock file which is not there counts as removed
    if works then { w with lock := none }.goto p (.done (report ok msg))
    else w.goto p (.done (report none (some "Failed to unlock: Failed to remove lockfile")))
  | .done _ => w
  | .stopped => w

/-- Before any process has started. -/
def initial (file : ContextFile) : World Pid := { pending := file, lock := none, phase := fun _ => .start }

/-! ## Exclusion and serial order -/

/-- Between acquiring and releasing the lock. -/
def Critical : Phase → Prop
  | .locked | .loaded _ | .revised _ | .printed _ _ | .closed _ _ => True
  | .cleanup locked _ _ => locked = true
  | _ => False

instance : DecidablePred Critical
  | .start | .opening | .locking _ _ | .waiting _ | .done _ | .stopped =>
    inferInstanceAs (Decidable False)
  | .locked | .loaded _ | .revised _ | .printed _ _ | .closed _ _ =>
    inferInstanceAs (Decidable True)
  | .cleanup locked _ _ => inferInstanceAs (Decidable (locked = true))

/-- No two processes are between acquiring and releasing the lock. -/
def Exclusive (w : World Pid) : Prop :=
  ∀ p q, Critical (w.phase p) → Critical (w.phase q) → p = q

instance [Fintype Pid] (w : World Pid) : Decidable (Exclusive w) :=
  inferInstanceAs (Decidable (∀ p q, Critical (w.phase p) → Critical (w.phase q) → p = q))

/-- The update of a process when nothing fails and no other process is there. -/
def atomically (file : ContextFile) (p : Pid) : ContextFile × Option Revision :=
  match fromFile (pendingfile contextdir) file { allowNoExist := true } with
  | .error _ => (file, none)
  | .ok pending =>
    match revise pending (contexts p) with
    | .error _ => (file, none)
    | .ok revision =>
      if revision.changed then
        match print revision.newlist with
        | some text => (.text text, some revision)
        | none => (file, none)
      else (file, some revision)

/-- The pending contexts are the result of some updates, one after another, and each update
which reported success is one of them and reported what it did at its place. -/
structure Serializable (file : ContextFile) (w : World Pid) (order : List Pid) : Prop where
  distinct : order.Nodup
  pending : w.pending = Serial.replay (atomically contextdir contexts) file order
  reported : ∀ p result, w.phase p = .done result → result.change ≠ .error → contexts p ≠ [] →
    ∃ revision, report (some revision) none = result ∧
      Serial.Explains (atomically contextdir contexts) file order p (some revision)

/-- The wait of this process for the lock has expired. -/
def Expires (w : World Pid) (event : Pid × Outcome) : Prop := w.phase event.1 = .waiting 0

def GaveUp : Phase → Prop
  | .cleanup locked _ _ => locked = false
  | _ => False

instance : DecidablePred GaveUp
  | .start | .opening | .locking _ _ | .waiting _ | .locked | .loaded _ | .revised _
  | .printed _ _ | .closed _ _ | .done _ | .stopped => inferInstanceAs (Decidable False)
  | .cleanup locked _ _ => inferInstanceAs (Decidable (locked = false))

/-- A process which never got the lock removes the lock file while another one holds the
lock. -/
def RemovesOthers (w : World Pid) (event : Pid × Outcome) : Prop :=
  GaveUp (w.phase event.1) ∧ event.2 = .works ∧ ∃ q, Critical (w.phase q)

instance (w : World Pid) (event : Pid × Outcome) : Decidable (Expires w event) :=
  inferInstanceAs (Decidable (w.phase event.1 = .waiting 0))

instance [Fintype Pid] (w : World Pid) (event : Pid × Outcome) : Decidable (RemovesOthers w event) :=
  inferInstanceAs (Decidable (_ ∧ _ ∧ _))

/-- No wait expires, and no lock is removed by a process which never got it. -/
def Undisturbed (w : World Pid) (event : Pid × Outcome) : Prop :=
  ¬Expires w event ∧ ¬RemovesOthers w event

instance [Fintype Pid] (w : World Pid) (event : Pid × Outcome) : Decidable (Undisturbed w event) :=
  inferInstanceAs (Decidable (_ ∧ _))

/-! ## The invariant -/

/-- What a process knows about the pending file, and what a finished one has done. -/
def Knows (file pending : ContextFile) (order : List Pid) (p : Pid) : Phase → Prop
  | .loaded list => fromFile (pendingfile contextdir) pending { allowNoExist := true } = .ok list
  | .revised newlist => ∃ list,
      fromFile (pendingfile contextdir) pending { allowNoExist := true } = .ok list ∧
      revise list (contexts p) = .ok ⟨true, newlist⟩
  | .printed newlist text | .closed newlist text =>
    atomically contextdir contexts pending p = (.text text, some ⟨true, newlist⟩)
  | .cleanup _ ok msg => ∀ revision, ok = some revision → msg = none ∧
      Serial.Explains (atomically contextdir contexts) file order p (some revision)
  | .done result => result.change ≠ .error → contexts p ≠ [] →
    ∃ revision, report (some revision) none = result ∧
      Serial.Explains (atomically contextdir contexts) file order p (some revision)
  | _ => True

/-- Behind the only step at which a process can enter the order. -/
def Settled : Phase → Prop
  | .cleanup _ _ _ | .done _ => True
  | _ => False

structure Inv (file : ContextFile) (w : World Pid) (order : List Pid) : Prop where
  distinct : order.Nodup
  pending : w.pending = Serial.replay (atomically contextdir contexts) file order
  holds : ∀ p, Critical (w.phase p) → w.lock = some p
  knows : ∀ p, Knows contextdir contexts file w.pending order p (w.phase p)
  settled : ∀ p ∈ order, Settled (w.phase p)

variable {contextdir contexts} {file pending' : ContextFile} {w : World Pid}
  {order order' : List Pid} {p : Pid} {lock' : Option Pid} {new : Phase}

omit [DecidableEq Pid] in
theorem Inv.exclusive (inv : Inv contextdir contexts file w order) : Exclusive w := by
  intro p q here there
  exact Option.some_inj.mp ((inv.holds p here).symm.trans (inv.holds q there))

omit [DecidableEq Pid] in
theorem Inv.serializable (inv : Inv contextdir contexts file w order) :
    Serializable contextdir contexts file w order := by
  refine ⟨inv.distinct, inv.pending, fun p result finished => ?_⟩
  have knows := inv.knows p
  rw [finished] at knows
  exact knows

omit [DecidableEq Pid] in
theorem knows_failed {locked : Bool} {msg : Option String} :
    Knows contextdir contexts file pending' order p (.cleanup locked none msg) := by
  intro revision none_
  cases none_

omit [DecidableEq Pid] in
/-- Knowledge about the file is only needed in the critical section; the order may grow. -/
theorem Knows.frame {q : Pid} {phase : Phase}
    (knows : Knows contextdir contexts file w.pending order q phase)
    (grown : order' = order ∨ ∃ p, order' = order ++ [p])
    (same : Critical phase → pending' = w.pending) :
    Knows contextdir contexts file pending' order' q phase := by
  have explains : ∀ revision,
      Serial.Explains (atomically contextdir contexts) file order q revision →
      Serial.Explains (atomically contextdir contexts) file order' q revision := by
    intro revision here
    rcases grown with rfl | ⟨p, rfl⟩
    · exact here
    · exact here.concat p
  cases phase with
  | loaded list => rw [same trivial]; exact knows
  | revised newlist => rw [same trivial]; exact knows
  | printed newlist text => rw [same trivial]; exact knows
  | closed newlist text => rw [same trivial]; exact knows
  | cleanup locked ok msg =>
    exact fun revision here => (knows revision here).imp_right (explains _)
  | done result =>
    intro success asked
    obtain ⟨revision, reported, here⟩ := knows success asked
    exact ⟨revision, reported, explains _ here⟩
  | _ => trivial

/-- A step of one process: what it has to leave alone, and what it has to establish. -/
theorem Inv.move (inv : Inv contextdir contexts file w order)
    (others : ∀ q, q ≠ p → Critical (w.phase q) → lock' = some q ∧ pending' = w.pending)
    (grown : order' = order ∨ order' = order ++ [p])
    (replayed : pending' = Serial.replay (atomically contextdir contexts) file order')
    (holds : Critical new → lock' = some p)
    (knows : Knows contextdir contexts file pending' order' p new)
    (unsettled : order' = order ++ [p] → ¬Settled (w.phase p))
    (settled : p ∈ order' → Settled new) :
    Inv contextdir contexts file
      { pending := pending', lock := lock', phase := Function.update w.phase p new } order' := by
  -- only a process which has not settled is appended
  have distinct : order'.Nodup := by
    rcases grown with rfl | rfl
    · exact inv.distinct
    · refine List.nodup_append.mpr ⟨inv.distinct, List.nodup_singleton p, ?_⟩
      rintro q old last here rfl
      rw [List.mem_singleton.mp here] at old
      exact unsettled rfl (inv.settled p old)
  refine ⟨distinct, replayed, fun q critical => ?_, fun q => ?_, fun q member => ?_⟩
  -- the moving process and the others are told apart
  all_goals
    dsimp only at *
    by_cases same : q = p
  · subst same
    rw [Function.update_self] at critical
    exact holds critical
  · rw [Function.update_of_ne same] at critical
    exact (others q same critical).1
  · subst same
    rw [Function.update_self]
    exact knows
  · rw [Function.update_of_ne same]
    exact (inv.knows q).frame (grown.imp_right fun here => ⟨p, here⟩) fun critical =>
      (others q same critical).2
  · subst same
    rw [Function.update_self]
    exact settled member
  · rw [Function.update_of_ne same]
    refine inv.settled q ?_
    rcases grown with rfl | rfl
    · exact member
    · exact (List.mem_append.mp member).resolve_right fun last =>
        same (List.mem_singleton.mp last)

/-- A step which touches nothing that is shared. -/
theorem Inv.goto (inv : Inv contextdir contexts file w order)
    (holds : Critical new → Critical (w.phase p))
    (knows : Knows contextdir contexts file w.pending order p new)
    (settled : Settled (w.phase p) → Settled new) :
    Inv contextdir contexts file (w.goto p new) order :=
  inv.move (fun q _ critical => ⟨inv.holds q critical, rfl⟩) (.inl rfl) inv.pending
    (fun critical => inv.holds p (holds critical)) knows
    (fun grown => absurd grown (by simp)) (fun member => settled (inv.settled p member))

omit [DecidableEq Pid] in
/-- The process which holds the lock is the only critical one. -/
theorem Inv.alone (inv : Inv contextdir contexts file w order) (critical : Critical (w.phase p))
    {q : Pid} (other : q ≠ p) : ¬Critical (w.phase q) :=
  fun there => other (inv.exclusive q p there critical)

/-- The updated file takes the place of the old one, and the update its place in the order. -/
theorem Inv.commit (inv : Inv contextdir contexts file w order) {revision : Revision}
    (critical : Critical (w.phase p)) (unsettled : ¬Settled (w.phase p))
    (effect : atomically contextdir contexts w.pending p = (pending', some revision)) :
    Inv contextdir contexts file
      ({ w with pending := pending' }.goto p (.cleanup true (some revision) none))
      (order ++ [p]) := by
  have result : (atomically contextdir contexts
      (Serial.replay (atomically contextdir contexts) file order) p).2 = some revision := by
    rw [← inv.pending, effect]
  refine inv.move (fun q other there => absurd there (inv.alone critical other)) (.inr rfl) ?_
    (fun _ => inv.holds p critical) ?_ (fun _ => unsettled) (fun _ => trivial)
  · rw [Serial.replay_concat, ← inv.pending, effect]
  · intro revision' here
    injection here with here
    exact ⟨rfl, here ▸ Serial.explains_last result⟩

variable {tmpfile : Pid → String} {event : Pid × Outcome}

/-- Each step keeps the invariant, unless a lock is broken or removed by another process. -/
theorem step_inv (inv : Inv contextdir contexts file w order) (undisturbed : Undisturbed w event) :
    ∃ order', Inv contextdir contexts file (step contextdir tmpfile contexts w event) order' := by
  obtain ⟨p, outcome⟩ := event
  obtain ⟨patient, careful⟩ := undisturbed
  have knows := inv.knows p
  cases here : w.phase p with
  | start =>
    have quiet : ∀ result, (result.change ≠ .error → contexts p = []) →
        Inv contextdir contexts file (w.goto p (.done result)) order := by
      intro result reports
      refine inv.goto (fun critical => critical.elim) ?_ (fun settled => trivial)
      exact fun success asked => absurd (reports success) asked
    simp only [step, here]
    split
    case isTrue none_ => exact ⟨order, quiet _ fun _ => none_⟩
    case isFalse asked =>
      cases outcome with
      | works =>
        exact ⟨order, inv.goto (fun critical => critical.elim) trivial
          (fun settled => by rw [here] at settled; exact settled.elim)⟩
      | fails => exact ⟨order, quiet _ fun success => absurd rfl success⟩
      | notDirectory => exact ⟨order, quiet _ fun success => absurd rfl success⟩
      | notCreated => exact ⟨order, quiet _ fun success => absurd rfl success⟩
  | opening =>
    simp only [step, here]
    have unsettled : ¬Settled (w.phase p) := by rw [here]; exact id
    split
    · exact ⟨order, inv.goto (fun critical => critical.elim) trivial (absurd · unsettled)⟩
    · exact ⟨order, inv.goto (fun critical => critical.elim) trivial (absurd · unsettled)⟩
  | locking first timeout =>
    simp only [step, here]
    have unsettled : ¬Settled (w.phase p) := by rw [here]; exact id
    split
    · cases free : w.lock with
      | none =>
        refine ⟨order, inv.move (fun q _ critical => ?_) (.inl rfl) inv.pending (fun _ => rfl)
          trivial (fun grown => absurd grown (by simp))
          fun member => absurd (inv.settled p member) unsettled⟩
        -- the lock was free, so nobody is in the critical section
        have held := inv.holds q critical
        rw [free] at held
        cases held
      | some owner =>
        exact ⟨order, inv.goto (fun critical => critical.elim) trivial (absurd · unsettled)⟩
    · exact ⟨order, inv.goto (fun critical => Bool.noConfusion critical)
        knows_failed (absurd · unsettled)⟩
  | waiting timeout =>
    have unsettled : ¬Settled (w.phase p) := by rw [here]; exact id
    cases timeout with
    | zero => exact absurd here patient
    | succ timeout =>
      simp only [step, here]
      exact ⟨order, inv.goto (fun critical => critical.elim) trivial (absurd · unsettled)⟩
  | locked =>
    have unsettled : ¬Settled (w.phase p) := by rw [here]; exact id
    have critical : Critical (w.phase p) := by rw [here]; trivial
    simp only [step, here]
    split
    case h_1 pending read =>
      refine ⟨order, inv.goto (fun _ => critical) ?_ (absurd · unsettled)⟩
      split at read
      · exact read
      · cases read
    case h_2 => exact ⟨order, inv.goto (fun _ => critical) trivial (absurd · unsettled)⟩
    case h_3 =>
      exact ⟨order, inv.goto (fun _ => critical) knows_failed
        (absurd · unsettled)⟩
  | loaded pending =>
    have unsettled : ¬Settled (w.phase p) := by rw [here]; exact id
    have critical : Critical (w.phase p) := by rw [here]; trivial
    rw [here] at knows
    simp only [step, here]
    cases revised : revise pending (contexts p) with
    | error error =>
      refine ⟨order, inv.goto (fun _ => critical) ?_ (absurd · unsettled)⟩
      cases error with
      | overflow => trivial
      | message text => exact knows_failed
    | ok revision =>
      obtain ⟨changed, newlist⟩ := revision
      dsimp only
      split
      case isTrue changed_ =>
        subst changed_
        exact ⟨order, inv.goto (fun _ => critical) ⟨pending, knows, revised⟩ (absurd · unsettled)⟩
      case isFalse same =>
        -- an update which changes nothing has its place in the order here
        refine ⟨order ++ [p], inv.commit critical unsettled ?_⟩
        simp only [atomically, Knows.eq_def] at knows ⊢
        rw [knows]
        dsimp only
        rw [revised]
        exact if_neg same
  | revised newlist =>
    have unsettled : ¬Settled (w.phase p) := by rw [here]; exact id
    have critical : Critical (w.phase p) := by rw [here]; trivial
    rw [here] at knows
    obtain ⟨pending, read, revised⟩ := knows
    have given_up := inv.goto (p := p) (fun (_ : Critical (.cleanup true none none)) => critical)
      knows_failed (absurd · unsettled)
    simp only [step, here]
    cases text : print newlist with
    | none => exact ⟨order, given_up⟩
    | some text =>
      dsimp only
      split
      · refine ⟨order, inv.goto (fun _ => critical) ?_ (absurd · unsettled)⟩
        simp only [Knows, atomically, read, revised, if_true, text]
      · exact ⟨order, given_up⟩
  | printed newlist text =>
    have unsettled : ¬Settled (w.phase p) := by rw [here]; exact id
    have critical : Critical (w.phase p) := by rw [here]; trivial
    rw [here] at knows
    simp only [step, here]
    split
    · exact ⟨order, inv.goto (fun _ => critical) knows (absurd · unsettled)⟩
    · exact ⟨order, inv.goto (fun _ => critical)
        knows_failed (absurd · unsettled)⟩
  | closed newlist text =>
    have unsettled : ¬Settled (w.phase p) := by rw [here]; exact id
    have critical : Critical (w.phase p) := by rw [here]; trivial
    rw [here] at knows
    simp only [step, here]
    split
    · exact ⟨order ++ [p], inv.commit critical unsettled knows⟩
    · exact ⟨order, inv.goto (fun _ => critical)
        knows_failed (absurd · unsettled)⟩
  | cleanup locked ok msg =>
    rw [here] at knows
    simp only [step, here]
    split
    case isTrue works =>
      have others : ∀ q, q ≠ p → ¬Critical (w.phase q) := by
        intro q other critical
        cases locked with
        | true => exact inv.alone (by rw [here]; rfl) other critical
        | false => exact careful ⟨by rw [here]; rfl, works, q, critical⟩
      refine ⟨order, inv.move (fun q other critical => absurd critical (others q other)) (.inl rfl)
        inv.pending (fun critical => critical.elim) ?_ (fun grown => absurd grown (by simp))
        (fun _ => trivial)⟩
      intro success asked
      cases ok with
      | none => exact absurd rfl success
      | some revision =>
        obtain ⟨rfl, explains⟩ := knows revision rfl
        exact ⟨revision, rfl, explains⟩
    case isFalse =>
      exact ⟨order, inv.goto (fun critical => critical.elim)
        (fun success => absurd rfl success) (fun _ => trivial)⟩
  | done result =>
    simp only [step, here]
    exact ⟨order, inv⟩
  | stopped =>
    simp only [step, here]
    exact ⟨order, inv⟩

/-! ## Runs -/

omit [DecidableEq Pid] in
theorem initial_inv (file : ContextFile) :
    Inv contextdir contexts file (initial file : World Pid) [] :=
  ⟨List.nodup_nil, rfl, fun _ critical => critical.elim, fun _ => trivial, by simp⟩

/-- In every run in which no wait expires, and in which no process without the lock removes
the lock file of one which has it, the critical sections exclude each other and the updates
are as if made one after another. -/
theorem run_serializable (contextdir : String) (tmpfile : Pid → String)
    (contexts : Pid → List String) (file : ContextFile) (events : List (Pid × Outcome))
    (undisturbed : Run.Every (step contextdir tmpfile contexts) Undisturbed (initial file) events) :
    Run.Always (step contextdir tmpfile contexts)
      (fun w => Exclusive w ∧ ∃ order, Serializable contextdir contexts file w order)
      (initial file) events := by
  rw [Run.always_iff]
  rintro before after rfl
  obtain ⟨order, inv⟩ := Run.invariant
    (P := fun w => ∃ order, Inv contextdir contexts file w order)
    (fun w event ⟨order, inv⟩ allowed => step_inv inv allowed)
    ⟨[], initial_inv file⟩ ((Run.every_append _ before after).mp undisturbed).1
  exact ⟨inv.exclusive, order, inv.serializable⟩

end Steps

/-! ### Sample runs -/

def sampleContexts : Fin 3 → List String
  | 0 => ["a=1"]
  | 1 => ["b=2"]
  | 2 => ["c=3"]

def sampleStep : World (Fin 3) → Fin 3 × Outcome → World (Fin 3) :=
  step "conf" (fun _ => "conf/.context.tmp") sampleContexts

/-- Process 1 waits for process 0. Process 2 cannot create the lock file, and gives up when
nobody holds the lock. -/
def waiting : List (Fin 3 × Outcome) :=
  [(0, .works), (0, .works), (0, .works), (1, .works), (1, .works), (1, .works), (1, .works)] ++
    List.replicate 6 (0, .works) ++ List.replicate 7 (1, .works) ++
    [(2, .works), (2, .works), (2, .fails), (2, .works)]

theorem sample_serializable :
    Run.Every sampleStep Undisturbed (initial .missing) waiting ∧
      Run.Always sampleStep (fun w => Exclusive w ∧
        ∃ order, Serializable "conf" sampleContexts .missing w order) (initial .missing) waiting :=
  have undisturbed : Run.Every sampleStep Undisturbed (initial .missing) waiting := by
    decide +kernel
  ⟨undisturbed, run_serializable "conf" _ sampleContexts .missing waiting undisturbed⟩

example : (waiting.foldl sampleStep (initial .missing)).pending =
    .text "a=1\nb=2\n".toList := by decide

/-- Process 1 cannot create the lock file, and removes the one of process 0. -/
def foreignUnlock : List (Fin 3 × Outcome) :=
  [(0, .works), (0, .works), (0, .works), (1, .works), (1, .works), (1, .fails), (1, .works),
    (2, .works), (2, .works), (2, .works)]

/-- Processes 0 and 2 go on from there. -/
def bothUpdate : List (Fin 3 × Outcome) :=
  [(0, .works), (2, .works)] ++ List.replicate 5 (0, .works) ++ List.replicate 5 (2, .works)

theorem sample_lock_removed :
    Run.Every sampleStep (fun w event => ¬Expires w event) (initial .missing)
        (foreignUnlock ++ bothUpdate) ∧
      ¬Exclusive (foreignUnlock.foldl sampleStep (initial .missing)) ∧
      ((foreignUnlock ++ bothUpdate).foldl sampleStep (initial .missing)).phase 0 =
        .done ⟨.modified, some [⟨some "a", some "1", 1⟩], none⟩ ∧
      ((foreignUnlock ++ bothUpdate).foldl sampleStep (initial .missing)).pending =
        .text "c=3\n".toList := by
  refine ⟨?_, ?_, ?_, ?_⟩
  · decide
  · decide
  · decide
  · decide

end Lcfg.Pending
