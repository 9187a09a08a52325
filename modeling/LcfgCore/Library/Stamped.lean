import Mathlib.Data.List.Basic

/-!
# Assignments with stamps

A register holds a value and the stamp of the assignment which gave it this value. To
assign the value which it has already changes nothing, and the stamp stays. A list of
assignments to registers with keys is followed for one key; its stamps go up by one.

## Main results

`follow_eq_iff`, `follow_value`: when a register stays as it was, and what it holds.
`shown_follow_iff`, `follow_ne_iff`: the same for registers which may be unset.
-/

/-- What a register holds. -/
structure Stamped (β : Type*) where
  value : β
  stamp : Int
deriving DecidableEq

namespace Stamped

section Assignments

variable {κ β : Type*} [DecidableEq κ] [DecidableEq β]

def assign (entry : Option (Stamped β)) (value : β) (stamp : Int) : Option (Stamped β) :=
  if entry.map Stamped.value = some value then entry else some ⟨value, stamp⟩

/-- What becomes of the register with this key. The first assignment has the stamp after
the given one. -/
def follow (key : κ) : Option (Stamped β) → Int → List (κ × β) → Option (Stamped β)
  | entry, _, [] => entry
  | entry, stamp, (other, value) :: rest =>
    follow key (if other = key then assign entry value (stamp + 1) else entry) (stamp + 1) rest

/-- The value of the last assignment to a key. -/
def lastAssigned (key : κ) : List (κ × β) → Option β
  | [] => none
  | (other, value) :: rest =>
    (lastAssigned key rest).or (if other = key then some value else none)

omit [DecidableEq β] in
theorem lastAssigned_eq_none_iff {key : κ} {assignments : List (κ × β)} :
    lastAssigned key assignments = none ↔ ∀ value, (key, value) ∉ assignments := by
  induction assignments with
  | nil => simp [lastAssigned]
  | cons first rest ih =>
    obtain ⟨other, value⟩ := first
    rw [lastAssigned, Option.or_eq_none_iff, ih]
    by_cases same : other = key
    · refine iff_of_false (fun none_ => ?_) fun all => all value (same ▸ List.mem_cons_self)
      rw [if_pos same] at none_
      cases none_.2
    · simp [same, Ne.symm same]

omit [DecidableEq β] in
theorem mem_of_lastAssigned {key : κ} {value : β} {assignments : List (κ × β)}
    (last : lastAssigned key assignments = some value) : (key, value) ∈ assignments := by
  induction assignments with
  | nil => cases last
  | cons first rest ih =>
    obtain ⟨other, assigned⟩ := first
    rw [lastAssigned] at last
    -- the first assignment counts only if there is no later one
    cases later : lastAssigned key rest with
    | some found =>
      rw [later, Option.some_or] at last
      exact List.mem_cons_of_mem _ (ih (later.trans last))
    | none =>
      rw [later, Option.none_or] at last
      split at last
      case isTrue same =>
        injection last with last
        rw [same, last]
        exact List.mem_cons_self
      · cases last

theorem assign_same {entry : Option (Stamped β)} {value : β}
    (same : entry.map Stamped.value = some value) (stamp : Int) :
    assign entry value stamp = entry := if_pos same

theorem assign_other {entry : Option (Stamped β)} {value : β}
    (other : entry.map Stamped.value ≠ some value) (stamp : Int) :
    assign entry value stamp = some ⟨value, stamp⟩ := if_neg other

theorem assign_value (entry : Option (Stamped β)) (value : β) (stamp : Int) :
    (assign entry value stamp).map Stamped.value = some value := by
  by_cases same : entry.map Stamped.value = some value
  · rw [assign_same same, same]
  · rw [assign_other same]
    rfl

theorem follow_value (key : κ) (entry : Option (Stamped β)) (stamp : Int)
    (assignments : List (κ × β)) :
    (follow key entry stamp assignments).map Stamped.value =
      (lastAssigned key assignments).or (entry.map Stamped.value) := by
  induction assignments generalizing entry stamp with
  | nil => rfl
  | cons first rest ih =>
    obtain ⟨other, value⟩ := first
    rw [follow, ih, lastAssigned, Option.or_assoc]
    by_cases same : other = key
    · rw [if_pos same, if_pos same, assign_value, Option.some_or]
    · rw [if_neg same, if_neg same, Option.none_or]

/-- A register which does not stay as it was has got a new stamp. -/
theorem follow_recent {key : κ} {entry : Option (Stamped β)} {stamp : Int}
    {assignments : List (κ × β)} (changed : follow key entry stamp assignments ≠ entry) :
    ∃ new, follow key entry stamp assignments = some new ∧ stamp < new.stamp := by
  induction assignments generalizing entry stamp with
  | nil => exact absurd rfl changed
  | cons first rest ih =>
    obtain ⟨other, value⟩ := first
    rw [follow] at changed ⊢
    generalize next : (if other = key then assign entry value (stamp + 1) else entry) = entry'
      at changed ⊢
    by_cases kept : follow key entry' (stamp + 1) rest = entry'
    · -- the first assignment was the only one to change it
      rw [kept] at changed ⊢
      split at next
      · by_cases same : entry.map Stamped.value = some value
        · rw [assign_same same] at next
          exact absurd next.symm changed
        · rw [assign_other same] at next
          exact ⟨_, next.symm, Int.lt_succ stamp⟩
      · exact absurd next.symm changed
    · obtain ⟨new, found, recent⟩ := ih kept
      exact ⟨new, found, by omega⟩

/-- A register stays as it was if every assignment to it is one of its own value. -/
theorem follow_eq_iff {key : κ} {entry : Option (Stamped β)} {stamp : Int}
    (old : ∀ held, entry = some held → held.stamp ≤ stamp) (assignments : List (κ × β)) :
    follow key entry stamp assignments = entry ↔
      ∀ value, (key, value) ∈ assignments → entry.map Stamped.value = some value := by
  induction assignments generalizing stamp with
  | nil => simp [follow]
  | cons first rest ih =>
    obtain ⟨other, value⟩ := first
    have later : ∀ held, entry = some held → held.stamp ≤ stamp + 1 := fun held here =>
      Int.le_trans (old held here) (by omega)
    rw [follow]
    by_cases same : other = key
    · subst same
      rw [if_pos rfl]
      by_cases equal : entry.map Stamped.value = some value
      · rw [assign_same equal, ih later]
        simp only [List.mem_cons, Prod.mk.injEq, true_and]
        constructor
        · rintro all again (rfl | member)
          · exact equal
          · exact all again member
        · exact fun all again member => all again (.inr member)
      · -- the new stamp is later than that of the register
        rw [assign_other equal]
        refine iff_of_false (fun back => ?_) fun all => equal (all value List.mem_cons_self)
        by_cases kept : follow other (some ⟨value, stamp + 1⟩) (stamp + 1) rest =
            some ⟨value, stamp + 1⟩
        · have bound := old _ (back.symm.trans kept)
          simp only at bound
          omega
        · obtain ⟨new, found, recent⟩ := follow_recent kept
          have bound := old _ (back.symm.trans found)
          omega
    · rw [if_neg same, ih later]
      simp [Ne.symm same]

end Assignments

section Unset

variable {κ γ : Type*} [DecidableEq κ] [DecidableEq γ]

/-- A register which is set, with its stamp. -/
def shown (entry : Option (Stamped (Option γ))) : Option (γ × Int) :=
  entry.bind fun held => held.value.map (·, held.stamp)

/-- The assignments have an effect: a register which is set gets another value or none,
or one which is not set has a value in the end. -/
def Effective (key : κ) (entry : Option (Stamped (Option γ)))
    (assignments : List (κ × Option γ)) : Prop :=
  (∃ value stamp, shown entry = some (value, stamp) ∧
    ∃ assigned, (key, assigned) ∈ assignments ∧ assigned ≠ some value) ∨
  shown entry = none ∧ ∃ value, lastAssigned key assignments = some (some value)

/-- The assignments leave a register unset, but it is new, or it was set in between. -/
def Vain (key : κ) (entry : Option (Stamped (Option γ)))
    (assignments : List (κ × Option γ)) : Prop :=
  shown entry = none ∧ lastAssigned key assignments = some none ∧
    (entry = none ∨ ∃ value, (key, some value) ∈ assignments)

omit [DecidableEq γ] in
theorem shown_eq_none_iff {entry : Option (Stamped (Option γ))} :
    shown entry = none ↔ entry = none ∨ ∃ stamp, entry = some ⟨none, stamp⟩ := by
  cases entry with
  | none => simp [shown]
  | some held =>
    obtain ⟨value, stamp⟩ := held
    cases value with
    | none => simp [shown]
    | some value => simp [shown]

omit [DecidableEq γ] in
theorem shown_eq_some_iff {entry : Option (Stamped (Option γ))} {value : γ} {stamp : Int} :
    shown entry = some (value, stamp) ↔ entry = some ⟨some value, stamp⟩ := by
  cases entry with
  | none => simp [shown]
  | some held =>
    obtain ⟨held, old⟩ := held
    cases held with
    | none => simp [shown]
    | some held => simp [shown]

variable {key : κ} {entry : Option (Stamped (Option γ))} {stamp : Int}

omit [DecidableEq γ] in
theorem effective_iff_of_set {value : γ} {since : Int} (set_ : entry = some ⟨some value, since⟩)
    (assignments : List (κ × Option γ)) :
    Effective key entry assignments ↔
      ∃ assigned, (key, assigned) ∈ assignments ∧ assigned ≠ some value := by
  have before := shown_eq_some_iff.mpr set_
  rw [Effective, before]
  constructor
  · rintro (⟨held, stamp, same, changed⟩ | ⟨none_, _⟩)
    · cases same
      exact changed
    · cases none_
  · exact fun changed => .inl ⟨value, since, rfl, changed⟩

omit [DecidableEq γ] in
theorem effective_iff_of_unset (unset : shown entry = none) (assignments : List (κ × Option γ)) :
    Effective key entry assignments ↔
      ∃ value, lastAssigned key assignments = some (some value) := by
  rw [Effective, unset]
  constructor
  · rintro (⟨_, _, none_, _⟩ | ⟨_, last⟩)
    · cases none_
    · exact last
  · exact fun last => .inr ⟨rfl, last⟩

omit [DecidableEq κ] [DecidableEq γ] in
theorem value_ne_some {value : γ} (unset : shown entry = none) :
    entry.map Stamped.value ≠ some (some value) := by
  intro same
  rcases shown_eq_none_iff.mp unset with rfl | ⟨since, rfl⟩
  · cases same
  · cases same

theorem shown_follow_iff (old : ∀ held, entry = some held → held.stamp ≤ stamp)
    (assignments : List (κ × Option γ)) :
    shown (follow key entry stamp assignments) ≠ shown entry ↔ Effective key entry assignments := by
  have kept : follow key entry stamp assignments = entry ↔ _ := follow_eq_iff old assignments
  cases before : shown entry with
  | some held =>
    have set_ := shown_eq_some_iff.mp before
    rw [effective_iff_of_set set_]
    constructor
    · intro differs
      by_contra none_
      simp only [not_exists, not_and, not_not] at none_
      apply differs
      rw [kept.mpr, before]
      intro assigned member
      rw [none_ assigned member, set_]
      rfl
    · rintro ⟨assigned, member, other⟩ same
      have changed : follow key entry stamp assignments ≠ entry := by
        intro same
        have equal := kept.mp same assigned member
        rw [set_] at equal
        injection equal with equal
        exact other equal.symm
      -- what it holds now is of a later assignment
      obtain ⟨new, found, recent⟩ := follow_recent changed
      have equal := found.symm.trans (shown_eq_some_iff.mp same)
      injection equal with equal
      have bound := old _ set_
      rw [equal] at recent
      exact absurd recent (Int.not_lt.mpr bound)
  | none =>
    have values := follow_value key entry stamp assignments
    rw [effective_iff_of_unset before]
    constructor
    · intro set_
      obtain ⟨⟨value, since⟩, after⟩ := Option.ne_none_iff_exists'.mp set_
      rw [shown_eq_some_iff.mp after] at values
      refine ⟨value, ?_⟩
      cases last : lastAssigned key assignments with
      | some assigned =>
        rw [last, Option.some_or] at values
        exact values.symm
      | none =>
        rw [last, Option.none_or] at values
        exact absurd values.symm (value_ne_some before)
    · rintro ⟨value, last⟩ unset
      rw [last, Option.some_or] at values
      exact value_ne_some unset values

/-- A register changes by assignments which have an effect, or by vain ones. -/
theorem follow_ne_iff (old : ∀ held, entry = some held → held.stamp ≤ stamp)
    (assignments : List (κ × Option γ)) :
    follow key entry stamp assignments ≠ entry ↔
      Effective key entry assignments ∨ Vain key entry assignments := by
  rw [Ne, follow_eq_iff old]
  simp only [not_forall]
  cases before : shown entry with
  | some held =>
    have set_ := shown_eq_some_iff.mp before
    have useful : ¬Vain key entry assignments := by
      rintro ⟨none_, _⟩
      rw [before] at none_
      cases none_
    rw [effective_iff_of_set set_, or_iff_left useful, set_]
    simp only [Option.map_some, Option.some_inj, exists_prop, eq_comm, Ne]
  | none =>
    rw [effective_iff_of_unset before, Vain, before]
    constructor
    · rintro ⟨assigned, member, other⟩
      cases last : lastAssigned key assignments with
      | none => exact absurd member (lastAssigned_eq_none_iff.mp last assigned)
      | some final =>
        cases final with
        | some value => exact .inl ⟨value, rfl⟩
        | none =>
          refine .inr ⟨rfl, rfl, ?_⟩
          rcases shown_eq_none_iff.mp before with rfl | ⟨since, rfl⟩
          · exact .inl rfl
          · cases assigned with
            | none => exact absurd rfl other
            | some value => exact .inr ⟨value, member⟩
    · rintro (⟨value, last⟩ | ⟨_, last, rfl | ⟨value, member⟩⟩)
      · exact ⟨some value, mem_of_lastAssigned last, value_ne_some before⟩
      · exact ⟨none, mem_of_lastAssigned last, fun same => by cases same⟩
      · exact ⟨some value, member, value_ne_some before⟩

end Unset

end Stamped
