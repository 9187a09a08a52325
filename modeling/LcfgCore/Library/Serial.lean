import Mathlib.Data.List.Basic

/-!
# Serial histories

Operations on a shared state are applied one after another. A history explains the
result of an operation if it puts the operation at a place where it has this result.
-/
namespace Serial

variable {σ ι ρ : Type} (apply : σ → ι → σ × ρ)

/-- The state after the operations of a history. -/
def replay (s : σ) (order : List ι) : σ := order.foldl (fun s i => (apply s i).1) s

/-- The operation has its result at its place in the history. -/
def Explains (s : σ) (order : List ι) (i : ι) (r : ρ) : Prop :=
  ∃ before after, order = before ++ i :: after ∧ (apply (replay apply s before) i).2 = r

variable {apply} {s : σ} {order : List ι} {i : ι} {r : ρ}

theorem replay_concat : replay apply s (order ++ [i]) = (apply (replay apply s order) i).1 := by
  rw [replay, List.foldl_append, List.foldl_cons, List.foldl_nil, ← replay]

theorem Explains.concat (explains : Explains apply s order i r) (j : ι) :
    Explains apply s (order ++ [j]) i r := by
  obtain ⟨before, after, rfl, result⟩ := explains
  exact ⟨before, after ++ [j], by simp, result⟩

/-- The last operation has the result which the present state gives. -/
theorem explains_last (result : (apply (replay apply s order) i).2 = r) :
    Explains apply s (order ++ [i]) i r :=
  ⟨order, [], rfl, result⟩

theorem Explains.mem (explains : Explains apply s order i r) : i ∈ order := by
  obtain ⟨before, after, rfl, -⟩ := explains
  exact List.mem_append_right _ List.mem_cons_self

end Serial
