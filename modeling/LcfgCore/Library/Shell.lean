import Mathlib.Data.List.Basic

/-!
# Shell words

Quoting in the POSIX shell, for scripts which do nothing but `export` variables. A word may
be put together from characters without quotes, from single quotes, in which every character
stands for itself, and from double quotes, in which a dollar, a backquote and a backslash do
not. A script with
anything else in it, so that something may be expanded or another command may run, is not
evaluated.

## Main results

`read_plain`, `step_single`: what is read without quotes and in single quotes.
`assigns_export`: a command which exports one variable, with any text for its value.
-/
namespace Shell

inductive Quoting where
  | none | single | double
deriving DecidableEq

/-- A variable and its new value. -/
abbrev Assignment := List Char × List Char

structure State where
  quoting : Quoting := .none
  /-- The word which has been begun; it may be empty because of quotes. -/
  word : Option (List Char) := .none
  words : List (List Char) := []
  /-- What the commands up to here have assigned. -/
  assigned : List Assignment := []
deriving DecidableEq

/-- Characters without a meaning of their own outside of quotes. -/
def plain (c : Char) : Bool := c.isAlphanum || c == '_' || c == '='

/-- The name of a variable. -/
def isName (name : List Char) : Bool :=
  match name with
  | [] => false
  | first :: rest => (first.isAlpha || first == '_') && rest.all fun c => c.isAlphanum || c == '_'

/-- An operand `name=value` of `export`. -/
def operand (word : List Char) : Option Assignment :=
  match word.dropWhile (· != '=') with
  | [] => none
  | _ :: value =>
    let name := word.takeWhile (· != '=')
    if isName name then some (name, value) else none

/-- The command which is known. -/
def exportName : List Char := ['e', 'x', 'p', 'o', 'r', 't']

/-- Runs a command. -/
def command : List (List Char) → Option (List Assignment)
  | [] => some []
  | name :: operands => if name = exportName then operands.mapM operand else none

namespace State

def push (s : State) (text : List Char) : State := { s with word := some (s.word.getD [] ++ text) }

def endWord (s : State) : State := { s with word := none, words := s.words ++ s.word.toList }

def endCommand (s : State) : Option State :=
  let s := endWord s
  (command s.words).map fun more => { s with words := [], assigned := s.assigned ++ more }

end State

/-- Reads a character. -/
def step (s : State) (c : Char) : Option State :=
  match s.quoting with
  | .none =>
    if c = '\'' then some { s.push [] with quoting := .single }
    else if c = '"' then some { s.push [] with quoting := .double }
    else if c = ' ' ∨ c = '\t' then some s.endWord
    else if c = '\n' then s.endCommand
    else if plain c then some (s.push [c])
    else none
  | .single => if c = '\'' then some { s with quoting := .none } else some (s.push [c])
  | .double =>
    if c = '"' then some { s with quoting := .none }
    else if c = '$' ∨ c = '\x60' ∨ c = '\\' then none
    else some (s.push [c])

def read (s : State) (text : List Char) : Option State := text.foldlM step s

/-- What a script assigns, in this order, if it does nothing else. -/
def evaluate (script : List Char) : Option (List Assignment) :=
  ((read {} script).filter fun s => s.quoting = .none).bind fun s =>
    s.endCommand.map State.assigned

/-! ## Reading -/

variable {s : State}

@[simp] theorem read_nil (s : State) : read s [] = some s := rfl

theorem read_cons (s : State) (c : Char) (rest : List Char) :
    read s (c :: rest) = (step s c).bind fun next => read next rest := List.foldlM_cons ..

theorem read_append (s : State) (text rest : List Char) :
    read s (text ++ rest) = (read s text).bind fun next => read next rest := List.foldlM_append ..

theorem State.push_push (s : State) (text rest : List Char) :
    (s.push text).push rest = s.push (text ++ rest) := by
  simp [push]

theorem State.push_nil {word : List Char} (begun : s.word = some word) : s.push [] = s := by
  cases s
  cases begun
  simp [push]

theorem plain_of_name {c : Char} (name : (c.isAlphanum || c == '_') = true) : plain c = true := by
  rw [plain, name, Bool.true_or]

theorem step_plain (open_ : s.quoting = .none) {c : Char} (here : plain c = true) :
    step s c = some (s.push [c]) := by
  -- the characters with a meaning are not plain
  have other : ∀ d : Char, plain d = false → c ≠ d := by
    rintro d special rfl
    rw [here] at special
    cases special
  have blank : ¬ (c = ' ' ∨ c = '\t') := by
    rintro (blank | tab)
    · exact other ' ' (by decide) blank
    · exact other '\t' (by decide) tab
  rw [step, open_]
  simp only [if_neg (other '\'' (by decide)), if_neg (other '"' (by decide)), if_neg blank,
    if_neg (other '\n' (by decide)), if_pos here]

/-- Without quotes. -/
theorem read_plain {text : List Char} (all : ∀ c ∈ text, plain c = true) (some_ : text ≠ [])
    (open_ : s.quoting = .none) : read s text = some (s.push text) := by
  induction text generalizing s with
  | nil => exact absurd rfl some_
  | cons c rest ih =>
    have first := step_plain open_ (all c List.mem_cons_self)
    rw [read_cons, first, Option.bind_some]
    by_cases last : rest = []
    · rw [last, read_nil]
    · have later := ih (s := s.push [c]) (fun d member => all d (List.mem_cons_of_mem _ member)) last
        open_
      rw [later, State.push_push, List.singleton_append]

/-- In single quotes. -/
theorem step_single (inside : s.quoting = .single) {c : Char} (other : c ≠ '\'') :
    step s c = some (s.push [c]) := by
  rw [step, inside]
  exact if_neg other

/-! ## Scripts -/

/-- A text which is one or more complete commands with these assignments. -/
def Assigns (text : List Char) (assignments : List Assignment) : Prop :=
  ∀ before, read { assigned := before } text = some { assigned := before ++ assignments }

theorem Assigns.nil : Assigns [] [] := fun before => by rw [read_nil, List.append_nil]

theorem Assigns.append {text more : List Char} {assignments rest : List Assignment}
    (first : Assigns text assignments) (second : Assigns more rest) :
    Assigns (text ++ more) (assignments ++ rest) := by
  intro before
  rw [read_append, first before, Option.bind_some, second, List.append_assoc]

theorem Assigns.evaluate {text : List Char} {assignments : List Assignment}
    (assigns : Assigns text assignments) : evaluate text = some assignments := by
  have whole := assigns []
  rw [List.nil_append] at whole
  rw [Shell.evaluate, whole]
  simp [Option.filter_some, State.endCommand, State.endWord, command]

theorem isName_free {name : List Char} (valid : isName name = true) :
    ∀ c ∈ name, (c.isAlphanum || c == '_') = true := by
  cases name with
  | nil => cases valid
  | cons first rest =>
    rw [isName, Bool.and_eq_true] at valid
    intro c member
    rcases List.mem_cons.mp member with rfl | later
    · rcases Bool.or_eq_true _ _ ▸ valid.1 with alpha | under
      · simp [Char.isAlphanum, alpha]
      · simp [under]
    · exact List.all_eq_true.mp valid.2 c later

theorem operand_assignment {name : List Char} (valid : isName name = true) (value : List Char) :
    operand (name ++ '=' :: value) = some (name, value) := by
  have before : ∀ c ∈ name, (c != '=') = true := by
    intro c member
    have part := isName_free valid c member
    rw [bne_iff_ne]
    rintro rfl
    revert part
    decide
  have rest : (name ++ '=' :: value).dropWhile (· != '=') = '=' :: value := by
    rw [List.dropWhile_append_of_pos before]
    rfl
  have front : (name ++ '=' :: value).takeWhile (· != '=') = name := by
    rw [List.takeWhile_append_of_pos before]
    simp
  simp only [operand, rest, front, if_pos valid]

theorem command_export (operands : List (List Char)) :
    command (exportName :: operands) = operands.mapM operand := by
  rw [command, if_pos rfl]

/-- A command which exports one variable; `quoted` is a text for its value which ends outside of
quotes. -/
theorem assigns_export {name value quoted : List Char} (valid : isName name = true)
    (reads : ∀ s : State, s.quoting = .none → s.word ≠ none →
      read s quoted = some (s.push value)) :
    Assigns (exportName ++ ' ' :: (name ++ '=' :: (quoted ++ ['\n']))) [(name, value)] := by
  intro before
  -- the command name is a word of its own
  have begins : read { assigned := before } (exportName ++ [' ']) =
      some { words := [exportName], assigned := before } := rfl
  -- the name and the equals sign begin the next word, which the quoted text goes on
  have nameEq : ∀ c ∈ name ++ ['='], plain c = true := by
    intro c member
    rcases List.mem_append.mp member with inName | sign
    · exact plain_of_name (isName_free valid c inName)
    · rw [List.mem_singleton.mp sign]
      decide
  have split : exportName ++ ' ' :: (name ++ '=' :: (quoted ++ ['\n'])) =
      (exportName ++ [' ']) ++ ((name ++ ['=']) ++ (quoted ++ ['\n'])) := by
    simp only [List.append_assoc, List.cons_append, List.nil_append]
  rw [split, read_append, begins, Option.bind_some, read_append,
    read_plain nameEq (by simp) rfl, Option.bind_some, read_append,
    reads _ rfl (by simp [State.push]), Option.bind_some, read_cons, State.push_push]
  have whole : name ++ ['='] ++ value = name ++ '=' :: value := by simp
  have runs : command [exportName, name ++ '=' :: value] = some [(name, value)] := by
    rw [command_export, List.mapM_cons, operand_assignment valid]
    rfl
  -- the newline ends the word and the command
  have done : step (State.push { words := [exportName], assigned := before }
      (name ++ ['='] ++ value)) '\n' = some { assigned := before ++ [(name, value)] } := by
    rw [whole]
    change (command [exportName, name ++ '=' :: value]).map _ = _
    rw [runs]
    rfl
  rw [done, Option.bind_some, read_nil]

end Shell
