import Mathlib.Data.List.Basic

/-!
# Buffers

A buffer is an array which is written to in place. A string in a buffer goes up to the
first terminator.

## Main results

`take_write`, `drop_write`: what stands before, in and behind the part that is written.
-/
namespace Buffer

variable {α : Type}

/-- Copies `bytes` to the position. -/
def write (buffer : List α) : Nat → List α → List α
  | _, [] => buffer
  | pos, byte :: rest => write (buffer.set pos byte) (pos + 1) rest

@[simp] theorem length_write (buffer bytes : List α) (pos : Nat) :
    (write buffer pos bytes).length = buffer.length := by
  induction bytes generalizing buffer pos with
  | nil => rfl
  | cons byte rest ih => rw [write, ih, List.length_set]

/-- What stands behind is not changed. -/
theorem drop_write (buffer bytes : List α) {pos k : Nat} (behind : pos + bytes.length ≤ k) :
    (write buffer pos bytes).drop k = buffer.drop k := by
  induction bytes generalizing buffer pos with
  | nil => rfl
  | cons byte rest ih =>
    rw [List.length_cons] at behind
    rw [write, ih _ (by omega), List.drop_set_of_lt (by omega)]

/-- What stands before is not changed, and the bytes follow it. -/
theorem take_write (buffer bytes : List α) (pos : Nat) (fits : pos + bytes.length ≤ buffer.length) :
    (write buffer pos bytes).take (pos + bytes.length) = buffer.take pos ++ bytes := by
  induction bytes generalizing buffer pos with
  | nil => simp [write]
  | cons byte rest ih =>
    rw [List.length_cons] at fits
    have later := ih (buffer.set pos byte) (pos + 1) (by rw [List.length_set]; omega)
    rw [write, List.length_cons, Nat.add_comm rest.length, ← Nat.add_assoc, later, List.take_set,
      List.take_succ_eq_append_getElem (by omega)]
    have before : (buffer.take pos).length = pos := by
      rw [List.length_take]
      omega
    rw [List.set_append_right _ _ (Nat.le_of_eq before), before]
    simp

theorem write_eq (buffer bytes : List α) (pos : Nat) (fits : pos + bytes.length ≤ buffer.length) :
    write buffer pos bytes = buffer.take pos ++ (bytes ++ buffer.drop (pos + bytes.length)) := by
  calc write buffer pos bytes
      = (write buffer pos bytes).take (pos + bytes.length) ++
          (write buffer pos bytes).drop (pos + bytes.length) := (List.take_append_drop _ _).symm
    _ = buffer.take pos ++ (bytes ++ buffer.drop (pos + bytes.length)) := by
        rw [take_write _ _ _ fits, drop_write _ _ (Nat.le_refl _), List.append_assoc]

section Strings

variable [DecidableEq α] (terminator : α)

/-- The string which begins at the position. -/
def string (buffer : List α) (pos : Nat) : List α :=
  (buffer.drop pos).takeWhile (· ≠ terminator)

variable {terminator}

theorem string_eq {buffer text tail : List α} {pos : Nat}
    (here : buffer.drop pos = text ++ terminator :: tail) (inside : terminator ∉ text) :
    string terminator buffer pos = text := by
  have plain : ∀ byte ∈ text, decide (byte ≠ terminator) = true := fun byte member => by
    have other : byte ≠ terminator := fun same => inside (same ▸ member)
    simpa using other
  rw [string, here, List.takeWhile_append_of_pos plain]
  simp

end Strings

end Buffer
