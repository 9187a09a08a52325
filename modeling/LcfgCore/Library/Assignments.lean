import Mathlib.Data.List.Induction
import Mathlib.Logic.Function.Basic

/-!
# Assignments

Values which are assigned to keys one after another, as in an environment, and what is read
from them afterwards.

## Main results

`unambiguous_iff`: what is read is what has been assigned if and only if no key is expected to
have two values.
-/
namespace Assignments

variable {κ β : Type}

/-- What there is under the keys after some assignments. -/
def assign [DecidableEq κ] (env : κ → Option β) (as : List (κ × β)) : κ → Option β :=
  as.foldl (fun env a => Function.update env a.1 (some a.2)) env

/-- The assignments among some readings: nothing is assigned where nothing is to be read. -/
def assigned (readings : List (κ × Option β)) : List (κ × β) :=
  readings.filterMap fun reading => reading.2.map (Prod.mk reading.1)

/-- No key is expected to have two values, or one and none. -/
def Unambiguous (readings : List (κ × Option β)) : Prop :=
  ∀ r ∈ readings, ∀ s ∈ readings, r.1 = s.1 → r.2 = s.2

variable {env : κ → Option β} {as : List (κ × β)} {key : κ} {value : Option β}
  {readings : List (κ × Option β)}

theorem mem_assigned {a : κ × β} : a ∈ assigned readings ↔ (a.1, some a.2) ∈ readings := by
  rw [assigned, List.mem_filterMap]
  constructor
  · rintro ⟨⟨key, value⟩, member, here⟩
    obtain ⟨text, rfl, rfl⟩ := Option.map_eq_some_iff.mp here
    exact member
  · intro member
    exact ⟨_, member, rfl⟩

theorem assigned_append (first second : List (κ × Option β)) :
    assigned (first ++ second) = assigned first ++ assigned second :=
  List.filterMap_append

variable [DecidableEq κ]

theorem assign_append (as bs : List (κ × β)) :
    assign env (as ++ bs) = assign (assign env as) bs := List.foldl_append

/-- The last assignment counts. -/
theorem assign_concat (as : List (κ × β)) (a : κ × β) :
    assign env (as ++ [a]) = Function.update (assign env as) a.1 (some a.2) := by
  rw [assign, List.foldl_append]
  rfl

theorem isSome_assign : (assign env as key).isSome = true ↔
    (∃ a ∈ as, a.1 = key) ∨ (env key).isSome = true := by
  induction as using List.reverseRecOn with
  | nil => simp [assign]
  | append_singleton before a ih =>
    rw [assign_concat]
    by_cases last : a.1 = key
    · simp [← last]
    · rw [Function.update_of_ne (Ne.symm last), ih]
      simp [last]

/-- Where all assignments to a key agree, this is its value. -/
theorem assign_eq (agree : ∀ a ∈ as, a.1 = key → some a.2 = value)
    (given : (∃ a ∈ as, a.1 = key) ∨ env key = value) : assign env as key = value := by
  induction as using List.reverseRecOn with
  | nil =>
    rcases given with ⟨a, member, -⟩ | before
    · cases member
    · exact before
  | append_singleton before a ih =>
    rw [assign_concat]
    by_cases last : a.1 = key
    · rw [← last, Function.update_self]
      exact agree a (by simp) last
    · rw [Function.update_of_ne (Ne.symm last)]
      apply ih
      · exact fun b member => agree b (List.mem_append_left _ member)
      · rcases given with ⟨b, member, here⟩ | before'
        · rcases List.mem_append.mp member with old | own
          · exact .inl ⟨b, old, here⟩
          · exact absurd (List.mem_singleton.mp own ▸ here) last
        · exact .inr before'

theorem Unambiguous.assign (unambiguous : Unambiguous readings) {reading : κ × Option β}
    (member : reading ∈ readings) :
    Assignments.assign (fun _ => none) (assigned readings) reading.1 = reading.2 := by
  apply assign_eq
  · intro a inside same
    exact unambiguous _ (mem_assigned.mp inside) reading member same
  · cases value : reading.2 with
    | none => exact .inr rfl
    | some text =>
      refine .inl ⟨(reading.1, text), mem_assigned.mpr ?_, rfl⟩
      rw [← value]
      exact member

theorem unambiguous_iff : Unambiguous readings ↔
    ∀ reading ∈ readings, assign (fun _ => none) (assigned readings) reading.1 = reading.2 := by
  constructor
  · exact fun unambiguous reading member => unambiguous.assign member
  · intro reads r inR s inS same
    rw [← reads r inR, ← reads s inS, same]

end Assignments
