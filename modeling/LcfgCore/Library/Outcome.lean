/-!
# Outcomes

A computation in `Except` which gives a result with a property, or else stops with
one particular error. Such statements compose along `bind`.
-/
namespace Outcome

variable {ε α β : Type} {error : ε} {r : Except ε α} {post : α → Prop}

def Yields (error : ε) (r : Except ε α) (post : α → Prop) : Prop :=
  r = .error error ∨ ∃ x, r = .ok x ∧ post x

theorem Yields.pure {x : α} (holds : post x) : Yields error (.ok x) post := .inr ⟨x, rfl, holds⟩

theorem Yields.stop : Yields error (.error error : Except ε α) post := .inl rfl

theorem Yields.bind {f : α → Except ε β} {post' : β → Prop} (first : Yields error r post)
    (next : ∀ x, post x → Yields error (f x) post') : Yields error (r >>= f) post' := by
  obtain stopped | ⟨x, done, holds⟩ := first
  · exact .inl (by rw [stopped]; rfl)
  · rw [done]
    exact next x holds

theorem Yields.mono {post' : α → Prop} (yields : Yields error r post)
    (weaker : ∀ x, post x → post' x) : Yields error r post' := by
  obtain stopped | ⟨x, done, holds⟩ := yields
  · exact .inl stopped
  · exact .inr ⟨x, done, weaker x holds⟩

/-- Two computations of which the second shows less of each result. -/
theorem map_bind {α' β' : Type} {g : α → α'} {h : β → β'} {r' : Except ε α'} {f : α → Except ε β}
    {f' : α' → Except ε β'} (first : r.map g = r') (next : ∀ x, (f x).map h = f' (g x)) :
    (r >>= f).map h = r' >>= f' := by
  subst first
  cases r with
  | error e => rfl
  | ok x => exact next x

/-- A result with a property, or an error of some kind. -/
def Ends (allowed : ε → Prop) (r : Except ε α) (post : α → Prop) : Prop :=
  (∃ e, r = .error e ∧ allowed e) ∨ ∃ x, r = .ok x ∧ post x

section Ends

variable {allowed : ε → Prop}

theorem Ends.pure {x : α} (holds : post x) : Ends allowed (.ok x) post := .inr ⟨x, rfl, holds⟩

theorem Ends.bind {f : α → Except ε β} {post' : β → Prop} (first : Ends allowed r post)
    (next : ∀ x, post x → Ends allowed (f x) post') : Ends allowed (r >>= f) post' := by
  obtain ⟨e, stopped, kind⟩ | ⟨x, done, holds⟩ := first
  · exact .inl ⟨e, by rw [stopped]; rfl, kind⟩
  · rw [done]
    exact next x holds

theorem Ends.mono {post' : α → Prop} (ends : Ends allowed r post)
    (weaker : ∀ x, post x → post' x) : Ends allowed r post' :=
  ends.imp_right fun ⟨x, done, holds⟩ => ⟨x, done, weaker x holds⟩

theorem Ends.map {f : α → β} {post' : β → Prop} (ends : Ends allowed r post)
    (weaker : ∀ x, post x → post' (f x)) : Ends allowed (r.map f) post' := by
  obtain ⟨e, stopped, kind⟩ | ⟨x, done, holds⟩ := ends
  · exact .inl ⟨e, by rw [stopped]; rfl, kind⟩
  · exact .inr ⟨f x, by rw [done]; rfl, weaker x holds⟩

/-- The error is one of another kind to the caller. -/
theorem Ends.mapError {δ : Type} {allowed' : δ → Prop} {g : ε → δ} (ends : Ends allowed r post)
    (kinds : ∀ e, allowed e → allowed' (g e)) : Ends allowed' (r.mapError g) post := by
  obtain ⟨e, stopped, kind⟩ | ⟨x, done, holds⟩ := ends
  · exact .inl ⟨g e, by rw [stopped]; rfl, kinds e kind⟩
  · exact .inr ⟨x, by rw [done]; rfl, holds⟩

end Ends

/-- Two computations which stop with the same error of some kind, or give results which belong
together. -/
def Agree (allowed : ε → Prop) (belong : α → β → Prop) (r : Except ε α) (r' : Except ε β) : Prop :=
  (∃ e, r = .error e ∧ r' = .error e ∧ allowed e) ∨
    ∃ x y, r = .ok x ∧ r' = .ok y ∧ belong x y

section Agree

variable {allowed : ε → Prop} {α' β' : Type} {belong : α → α' → Prop} {belong' : β → β' → Prop}
  {r' : Except ε α'}

theorem Agree.pure {x : α} {y : α'} (together : belong x y) :
    Agree allowed belong (.ok x) (.ok y) := .inr ⟨x, y, rfl, rfl, together⟩

theorem Agree.stop {e : ε} (kind : allowed e) : Agree allowed belong (.error e) (.error e) :=
  .inl ⟨e, rfl, rfl, kind⟩

theorem Agree.bind {f : α → Except ε β} {f' : α' → Except ε β'} (first : Agree allowed belong r r')
    (next : ∀ x y, belong x y → Agree allowed belong' (f x) (f' y)) :
    Agree allowed belong' (r >>= f) (r' >>= f') := by
  obtain ⟨e, stopped, stopped', kind⟩ | ⟨x, y, done, done', together⟩ := first
  · rw [stopped, stopped']
    exact .stop kind
  · rw [done, done']
    exact next x y together

theorem Agree.map {f : α → β} {f' : α' → β'} (first : Agree allowed belong r r')
    (next : ∀ x y, belong x y → belong' (f x) (f' y)) :
    Agree allowed belong' (r.map f) (r'.map f') := by
  obtain ⟨e, stopped, stopped', kind⟩ | ⟨x, y, done, done', together⟩ := first
  · rw [stopped, stopped']
    exact .stop kind
  · rw [done, done']
    exact .pure (next x y together)

/-- One computation for both. -/
theorem Ends.agree (ends : Ends allowed r post) : Agree allowed (fun x y => y = x ∧ post x) r r := by
  obtain ⟨e, stopped, kind⟩ | ⟨x, done, holds⟩ := ends
  · rw [stopped]
    exact .stop kind
  · rw [done]
    exact .pure ⟨rfl, holds⟩

end Agree

end Outcome
