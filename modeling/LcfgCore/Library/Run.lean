import Mathlib.Data.List.Basic

/-!
# Runs of a state machine

A run folds a step function over a list of events. `Every` is a condition on
the steps of a run, `Always` a property of the states it goes through.
-/
namespace Run

variable {σ ε : Type} (step : σ → ε → σ)

/-- Each step is taken in a state where `ok` allows it. -/
def Every (ok : σ → ε → Prop) : σ → List ε → Prop
  | _, [] => True
  | s, e :: es => ok s e ∧ Every ok (step s e) es

/-- Each state of the run, the first and the last included, has the property. -/
def Always (P : σ → Prop) : σ → List ε → Prop
  | s, [] => P s
  | s, e :: es => P s ∧ Always P (step s e) es

variable {step} {ok : σ → ε → Prop} {P : σ → Prop}

instance decidableEvery [∀ s e, Decidable (ok s e)] : ∀ s es, Decidable (Every step ok s es)
  | _, [] => inferInstanceAs (Decidable True)
  | s, e :: es =>
    have := decidableEvery (step s e) es
    inferInstanceAs (Decidable (ok s e ∧ Every step ok (step s e) es))

theorem every_true (s : σ) (es : List ε) : Every step (fun _ _ => True) s es := by
  induction es generalizing s with
  | nil => trivial
  | cons e es ih => exact ⟨trivial, ih (step s e)⟩

theorem every_append (s : σ) (before after : List ε) :
    Every step ok s (before ++ after) ↔
      Every step ok s before ∧ Every step ok (before.foldl step s) after := by
  induction before generalizing s with
  | nil => simp [Every]
  | cons e es ih => simp [Every, ih, and_assoc]

/-- The condition holds wherever the run is cut. -/
theorem every_iff (s : σ) (es : List ε) :
    Every step ok s es ↔
      ∀ before e after, es = before ++ e :: after → ok (before.foldl step s) e := by
  constructor
  · rintro every before e after rfl
    exact ((every_append s before (e :: after)).mp every).2.1
  · intro cut
    induction es generalizing s with
    | nil => trivial
    | cons e es ih =>
      exact ⟨cut [] e es rfl, ih (step s e) fun before e' after split =>
        cut (e :: before) e' after (by rw [split, List.cons_append])⟩

theorem Always.first {s : σ} {es : List ε} (always : Always step P s es) : P s := by
  cases es with
  | nil => exact always
  | cons e es => exact always.1

theorem always_append (s : σ) (before after : List ε) :
    Always step P s (before ++ after) ↔
      Always step P s before ∧ Always step P (before.foldl step s) after := by
  induction before generalizing s with
  | nil => exact ⟨fun always => ⟨always.first, always⟩, fun both => both.2⟩
  | cons e es ih => simp [Always, ih, and_assoc]

theorem always_iff (s : σ) (es : List ε) :
    Always step P s es ↔ ∀ before after, es = before ++ after → P (before.foldl step s) := by
  constructor
  · rintro always before after rfl
    exact ((always_append s before after).mp always).2.first
  · intro cut
    induction es generalizing s with
    | nil => exact cut [] [] rfl
    | cons e es ih =>
      exact ⟨cut [] (e :: es) rfl, ih (step s e) fun before after split =>
        cut (e :: before) after (by rw [split, List.cons_append])⟩

/-- The rule for invariants which a step keeps where it is allowed. -/
theorem invariant (keeps : ∀ s e, P s → ok s e → P (step s e)) {s : σ} {es : List ε} (init : P s)
    (every : Every step ok s es) : P (es.foldl step s) := by
  induction es generalizing s with
  | nil => exact init
  | cons e es ih => exact ih (keeps s e init every.1) every.2

/-- An invariant which a step keeps exactly where it is allowed. -/
theorem invariant_iff (exact : ∀ s e, P (step s e) ↔ P s ∧ ok s e) (s : σ) (es : List ε) :
    P (es.foldl step s) ↔ P s ∧ Every step ok s es := by
  induction es generalizing s with
  | nil => simp [Every]
  | cons e es ih => simp [Every, ih, exact, and_assoc]

/-- Conditions which agree in all states that a run can reach. -/
theorem every_congr {W : σ → Prop} {ok' : σ → ε → Prop} (weak : ∀ s e, W s → W (step s e))
    (same : ∀ s e, W s → (ok s e ↔ ok' s e)) {s : σ} (w : W s) (es : List ε) :
    Every step ok s es ↔ Every step ok' s es := by
  induction es generalizing s with
  | nil => exact Iff.rfl
  | cons e es ih => simp only [Every, same s e w, ih (weak s e w)]

/-- A property of all states is kept exactly by the steps which are allowed,
`W` being what every step keeps. -/
theorem always_iff_every {W : σ → Prop} (weak : ∀ s e, W s → W (step s e))
    (exact : ∀ s e, W s → P s → (P (step s e) ↔ ok s e)) {s : σ} (w : W s) (p : P s)
    (es : List ε) : Always step P s es ↔ Every step ok s es := by
  induction es generalizing s with
  | nil => exact ⟨fun _ => trivial, fun _ => p⟩
  | cons e es ih =>
    simp only [Always, Every, p, true_and]
    constructor
    · intro always
      have next := always.first
      exact ⟨(exact s e w p).mp next, (ih (weak s e w) next).mp always⟩
    · rintro ⟨allowed, every⟩
      exact (ih (weak s e w) ((exact s e w p).mpr allowed)).mpr every

/-- An invariant which is kept by the steps that are allowed, while any other step leads to a
state without the property. -/
theorem always_iff_every_of_invariant {I : σ → Prop} (has : ∀ s, I s → P s)
    (keeps : ∀ s e, I s → ok s e → I (step s e))
    (breaks : ∀ s e, I s → ¬ ok s e → ¬ P (step s e)) {s : σ} (init : I s) (es : List ε) :
    Always step P s es ↔ Every step ok s es := by
  induction es generalizing s with
  | nil => exact ⟨fun _ => trivial, fun _ => has s init⟩
  | cons e es ih =>
    constructor
    · rintro ⟨-, always⟩
      have allowed : ok s e := by
        by_contra refused
        exact breaks s e init refused always.first
      exact ⟨allowed, (ih (keeps s e init allowed)).mp always⟩
    · rintro ⟨allowed, every⟩
      exact ⟨has s init, (ih (keeps s e init allowed)).mpr every⟩

/-- A run of one machine simulates a run of another. -/
theorem simulation {τ : Type} {step' : τ → ε → τ} {R : σ → τ → Prop}
    (steps : ∀ s t e, R s t → R (step s e) (step' t e)) {s : σ} {t : τ} (init : R s t)
    (es : List ε) : R (es.foldl step s) (es.foldl step' t) := by
  induction es generalizing s t with
  | nil => exact init
  | cons e es ih => exact ih (steps s t e init)

/-- Related machines meet related conditions together. -/
theorem every_simulation {τ : Type} {step' : τ → ε → τ} {R : σ → τ → Prop} {ok' : τ → ε → Prop}
    (steps : ∀ s t e, R s t → R (step s e) (step' t e))
    (same : ∀ s t e, R s t → (ok s e ↔ ok' t e)) {s : σ} {t : τ} (init : R s t) (es : List ε) :
    Every step ok s es ↔ Every step' ok' t es := by
  induction es generalizing s t with
  | nil => exact Iff.rfl
  | cons e es ih => simp only [Every, same s t e init, ih (steps s t e init)]

end Run
