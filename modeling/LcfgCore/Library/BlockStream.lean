import Mathlib.Data.List.Basic
import Mathlib.Tactic.Linarith

/-!
# Streams in blocks

A text is taken in by blocks of a fixed size. What does not fill a block is kept until more
of the text comes.

## Main results

`absorb_append`: the text may come in any pieces.
`length_rest`: what is kept is less than a block.
-/
namespace BlockStream

variable {σ β : Type} {size : Nat} {step : σ → List β → σ} {s : σ} {text block rest : List β}

/-- Taking in `n` blocks; the rest of the text is kept. -/
def absorbBlocks (size : Nat) (step : σ → List β → σ) : Nat → σ → List β → σ × List β
  | 0, s, text => (s, text)
  | n + 1, s, text => absorbBlocks size step n (step s (text.take size)) (text.drop size)

/-- Taking in all blocks of a text. -/
def absorb (size : Nat) (step : σ → List β → σ) (s : σ) (text : List β) : σ × List β :=
  absorbBlocks size step (text.length / size) s text

theorem absorb_of_lt (short : text.length < size) : absorb size step s text = (s, text) := by
  rw [absorb, Nat.div_eq_of_lt short]
  rfl

theorem absorb_block (pos : 0 < size) (whole : block.length = size) :
    absorb size step s (block ++ rest) = absorb size step (step s block) rest := by
  have blocks : (block ++ rest).length / size = rest.length / size + 1 := by
    rw [List.length_append, whole, Nat.add_comm, Nat.add_div_right _ pos]
  rw [absorb, blocks, absorbBlocks, ← whole, List.take_left', List.drop_left', whole]
  · rfl
  · rfl
  · rfl

/-- A text is shorter than a block, or begins with one. -/
theorem short_or_block (size : Nat) (text : List β) : text.length < size ∨
    ∃ block rest, text = block ++ rest ∧ block.length = size := by
  rcases Nat.lt_or_ge text.length size with short | long
  · exact .inl short
  · exact .inr ⟨text.take size, text.drop size, (List.take_append_drop ..).symm,
      List.length_take_of_le long⟩

theorem length_rest (pos : 0 < size) (s : σ) (text : List β) :
    (absorb size step s text).2.length = text.length % size := by
  induction len : text.length using Nat.strong_induction_on generalizing s text with
  | _ n ih =>
    rcases short_or_block size text with short | ⟨block, rest, rfl, whole⟩
    · rw [absorb_of_lt short, ← len, Nat.mod_eq_of_lt short]
    · rw [List.length_append] at len
      rw [absorb_block pos whole, ih rest.length (by omega) _ rest rfl, ← len, whole,
        Nat.add_mod_left]

/-- It does not matter where a text is cut. -/
theorem absorb_append (pos : 0 < size) (s : σ) (text more : List β) :
    absorb size step s (text ++ more) =
      absorb size step (absorb size step s text).1 ((absorb size step s text).2 ++ more) := by
  induction len : text.length using Nat.strong_induction_on generalizing s text with
  | _ n ih =>
    rcases short_or_block size text with short | ⟨block, rest, rfl, whole⟩
    · rw [absorb_of_lt short]
    · rw [List.length_append] at len
      rw [List.append_assoc, absorb_block pos whole, absorb_block pos whole,
        ih rest.length (by omega) _ rest rfl]

end BlockStream
