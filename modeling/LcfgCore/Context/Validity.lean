import LcfgCore.Context.Scanner

/-!
# Valid expressions

`lcfgcontext_valid_expression` evaluates an expression without any contexts. A
scanner which stops at an error does so with `END`, where a parser that has read
a query accepts it: an expression which breaks off behind a query is valid.
-/
namespace Lcfg.Context

/-- A missing string is not valid, the empty one is not parsed. -/
def validExpression (signedChar : Bool) : Option String → Bool × Option String
  | none => (false, none)
  | some expr =>
    if expr == "" then (true, none)
    else
      let evaluation := evalExpression signedChar none expr
      (evaluation.ok, evaluation.msg)

/-- The characters of a C string. -/
def text (expr : String) : List Char := expr.toList.takeWhile (·.toNat ≠ 0)

theorem scanString_eq (signedChar : Bool) (expr : String) :
    scanString signedChar expr = lexFrom signedChar .initial (text expr) := rfl

/-- All of the text is scanned without an error, and into a query. -/
def Derives (signedChar : Bool) (expr : String) : Prop :=
  ∃ query : Query, scanString signedChar expr = (query.yield, none)

/-! ## Where a text breaks off -/

/-- A quoted string is not closed on its line; a doubled quote does not close it. -/
def openQuote (quote : Char) : List Char → Bool
  | [] => true
  | c :: rest =>
    if c = quote then
      match rest with
      | [] => false
      | next :: rest => if next = quote then openQuote quote rest else false
    else if c = '\n' || c = '\r' then true
    else openQuote quote rest

/-- The text starts with something at which the scanner stops. -/
def stops (signedChar : Bool) : List Char → Bool
  | [] => false
  | c :: inside =>
    ((c == '"' || c == '\'') && openQuote c inside) || (signedChar && 128 ≤ c.toNat)

namespace LexState

/-- Before this character the match under way is over. -/
def boundary (c : Char) : LexState → Bool
  | .initial | .word _ | .bang => true
  | .quoted _ _ => false
  | .quoteSeen quote _ => c ≠ quote

end LexState

/-- The tokens of a first part of the text, and the state behind it. -/
def lexRun (signedChar : Bool) (state : LexState) : List Char → Option (List Token × LexState)
  | [] => some ([], state)
  | c :: rest =>
    match lexStep signedChar state c with
    | .go tokens state =>
      (lexRun signedChar state rest).map fun run => (tokens ++ run.1, run.2)
    | .stop _ _ => none

/-- The tokens before the place where the scanner, begun in this state, stops. -/
def BreaksOffAfter (signedChar : Bool) (state : LexState) (text : List Char)
    (tokens : List Token) : Prop :=
  ∃ before inside c earlier last, text = before ++ c :: inside ∧
    lexRun signedChar state before = some (earlier, last) ∧ last.boundary c = true ∧
    stops signedChar (c :: inside) = true ∧ tokens = earlier ++ (lexEnd last).1

/-- The text breaks off in a quoted string, or for a signed `char` at a byte
above 127, and what stands before is a query. -/
def BreaksOff (signedChar : Bool) (expr : String) : Prop :=
  ∃ query : Query, BreaksOffAfter signedChar .initial (text expr) query.yield

/-! ## The scanner stops exactly there -/

/-- An open string goes on, in a state where one is under way. -/
private def InsideOpen (text : List Char) : LexState → Prop
  | .quoted quote _ => openQuote quote text = true
  | .quoteSeen quote _ => ∃ rest, text = quote :: rest ∧ openQuote quote rest = true
  | _ => False

theorem lexFrom_cons {signedChar : Bool} {state next : LexState} {c : Char}
    {rest : List Char} {tokens : List Token}
    (step : lexStep signedChar state c = .go tokens next) :
    lexFrom signedChar state (c :: rest) =
      (tokens ++ (lexFrom signedChar next rest).1, (lexFrom signedChar next rest).2) := by
  rw [lexFrom, step]

theorem lexFrom_append {signedChar : Bool} {before more : List Char}
    {state last : LexState} {tokens : List Token}
    (run : lexRun signedChar state before = some (tokens, last)) :
    lexFrom signedChar state (before ++ more) =
      (tokens ++ (lexFrom signedChar last more).1, (lexFrom signedChar last more).2) := by
  induction before generalizing state tokens with
  | nil =>
    cases run
    rfl
  | cons c rest ih =>
    rw [lexRun] at run
    cases step : lexStep signedChar state c with
    | stop tokens errmsg => simp [step] at run
    | go first next =>
      simp only [step, Option.map_eq_some_iff, Prod.mk.injEq] at run
      obtain ⟨⟨others, _⟩, run, rfl, rfl⟩ := run
      rw [List.cons_append, lexFrom_cons step, ih run, List.append_assoc]

/-- At a boundary the finished token is followed by what the character starts. -/
theorem lexStep_boundary {signedChar : Bool} {state : LexState} {c : Char}
    (plain : isWord c = false) (assign : c ≠ '=') (boundary : state.boundary c = true) :
    lexStep signedChar state c =
      match start signedChar c with
      | .go tokens next => .go ((lexEnd state).1 ++ tokens) next
      | .stop tokens errmsg => .stop ((lexEnd state).1 ++ tokens) errmsg := by
  cases state with
  | initial =>
    simp only [lexStep, lexEnd, List.nil_append]
    cases start signedChar c <;> rfl
  | word word =>
    simp only [lexStep, lexEnd, plain, Bool.false_eq_true, if_false]
    cases start signedChar c <;> rfl
  | bang =>
    simp only [lexStep, lexEnd, if_neg assign]
    cases start signedChar c <;> rfl
  | quoted quote strbuf => cases boundary
  | quoteSeen quote strbuf =>
    have other : c ≠ quote := by simpa [LexState.boundary] using boundary
    simp only [lexStep, lexEnd, if_neg other]
    cases start signedChar c <;> rfl

private theorem lexFrom_openQuote (signedChar : Bool) (quote : Char) (text strbuf : List Char)
    (isOpen : openQuote quote text = true) :
    ∃ errmsg, lexFrom signedChar (.quoted quote strbuf) text = ([], some errmsg) := by
  induction text using openQuote.induct quote generalizing strbuf with
  | case1 => exact ⟨_, rfl⟩
  | case2 => simp [openQuote] at isOpen
  | case3 rest ih =>
    rw [openQuote.eq_def] at isOpen
    simp only [if_true] at isOpen
    obtain ⟨errmsg, inside⟩ := ih (strbuf ++ [quote]) isOpen
    refine ⟨errmsg, ?_⟩
    simp [lexFrom, lexStep, inside]
  | case4 next rest other => simp [openQuote, other] at isOpen
  | case5 c rest other newline =>
    refine ⟨unterminated quote, ?_⟩
    simp [lexFrom, lexStep, other, newline]
  | case6 c rest other inLine ih =>
    rw [openQuote.eq_def] at isOpen
    simp only [if_neg other, if_neg inLine] at isOpen
    obtain ⟨errmsg, inside⟩ := ih (strbuf ++ [c]) isOpen
    refine ⟨errmsg, ?_⟩
    simp [lexFrom, lexStep, other, inLine, inside]

private theorem isWord_of_high {c : Char} (high : 128 ≤ c.toNat) : isWord c = false := by
  have value : 128 ≤ c.val.toNat := high
  have score : c ≠ '_' := by
    rintro rfl
    exact absurd high (by decide)
  have upper : 'Z'.val.toNat = 90 := rfl
  have lower : 'z'.val.toNat = 122 := rfl
  have digit : '9'.val.toNat = 57 := rfl
  unfold isWord Char.isAlphanum Char.isAlpha Char.isUpper Char.isLower Char.isDigit
  simp only [Bool.or_eq_false_iff, beq_eq_false_iff_ne, decide_eq_false_iff_not, Bool.and_eq_false_iff,
    UInt32.le_iff_toNat_le, ge_iff_le]
  refine ⟨⟨⟨?_, ?_⟩, ?_⟩, score⟩ <;> omega

private theorem start_high {c : Char} (high : 128 ≤ c.toNat) :
    start true c = .stop [] (invalidCharacter c) := by
  have other : ∀ known : Char, known.toNat < 128 → c ≠ known := by
    rintro known low rfl
    exact absurd high (not_le.mpr low)
  have blank : isWhitespace c = false := by
    have feed : c.toNat ≠ 12 := by omega
    simp [isWhitespace, other ' ' (by decide), other '\t' (by decide), other '\n' (by decide),
      other '\r' (by decide), feed]
  have plain := isWord_of_high high
  simp [start, blank, plain, other '!' (by decide), other '=' (by decide), other '|' (by decide),
    other '^' (by decide), other '&' (by decide), other '(' (by decide), other ')' (by decide),
    other '"' (by decide), other '\'' (by decide), high]

/-- Backwards: where the text stops, the tokens found are those of the part before. -/
private theorem lexFrom_stops {signedChar : Bool} {last : LexState} {c : Char} {inside : List Char}
    (boundary : last.boundary c = true) (stopped : stops signedChar (c :: inside) = true) :
    ∃ errmsg, lexFrom signedChar last (c :: inside) = ((lexEnd last).1, some errmsg) := by
  simp only [stops, Bool.or_eq_true, Bool.and_eq_true, beq_iff_eq, decide_eq_true_eq] at stopped
  rcases stopped with ⟨quote, isOpen⟩ | ⟨signed, high⟩
  · have plain : isWord c = false ∧ c ≠ '=' ∧ start signedChar c = .go [] (.quoted c []) := by
      rcases quote with rfl | rfl <;> exact ⟨by decide, by decide, rfl⟩
    obtain ⟨errmsg, inString⟩ := lexFrom_openQuote signedChar c inside [] isOpen
    refine ⟨errmsg, ?_⟩
    have step : lexStep signedChar last c = .go ((lexEnd last).1 ++ []) (.quoted c []) := by
      rw [lexStep_boundary plain.1 plain.2.1 boundary, plain.2.2]
    rw [lexFrom_cons step, inString, List.append_nil, List.append_nil]
  · have assign : c ≠ '=' := by
      rintro rfl
      exact absurd high (by decide)
    refine ⟨invalidCharacter c, ?_⟩
    subst signed
    have step : lexStep true last c = .stop ((lexEnd last).1 ++ []) (invalidCharacter c) := by
      rw [lexStep_boundary (isWord_of_high high) assign boundary, start_high high]
    rw [lexFrom, step, List.append_nil]

/-- A step which stops the scan, or goes on in an open string. -/
private def Breaks (rest : List Char) (tokens : List Token) : LexStep → Prop
  | .go found next => found = tokens ∧ InsideOpen rest next
  | .stop found _ => found = tokens

private theorem start_breaks {signedChar : Bool} {c : Char} {rest : List Char}
    {tokens : List Token} (breaks : Breaks rest tokens (start signedChar c)) :
    tokens = [] ∧ stops signedChar (c :: rest) = true := by
  unfold start at breaks
  split at breaks
  · exact breaks.2.elim
  split at breaks
  · exact breaks.2.elim
  split at breaks
  case h_8 =>
    obtain ⟨rfl, inside⟩ := breaks
    exact ⟨rfl, Bool.or_eq_true_iff.mpr (.inl inside)⟩
  case h_9 =>
    obtain ⟨rfl, inside⟩ := breaks
    exact ⟨rfl, Bool.or_eq_true_iff.mpr (.inl inside)⟩
  case h_10 =>
    split at breaks
    next high =>
      cases breaks
      exact ⟨rfl, Bool.or_eq_true_iff.mpr (.inr high)⟩
    · exact breaks.2.elim
  all_goals exact breaks.2.elim

private theorem after_breaks {signedChar : Bool} {c : Char} {rest : List Char} {token : Token}
    {tokens : List Token} (breaks : Breaks rest tokens ((start signedChar c).after token)) :
    stops signedChar (c :: rest) = true ∧ tokens = [token] := by
  cases tokens with
  | nil => cases step : start signedChar c <;> simp [step, LexStep.after, Breaks] at breaks
  | cons first others =>
    have tail : first = token ∧ Breaks rest others (start signedChar c) := by
      cases step : start signedChar c with
      | go found next =>
        simp only [step, LexStep.after, Breaks, List.cons.injEq] at breaks ⊢
        obtain ⟨⟨rfl, rfl⟩, inside⟩ := breaks
        exact ⟨rfl, rfl, inside⟩
      | stop found errmsg =>
        simp only [step, LexStep.after, Breaks, List.cons.injEq] at breaks ⊢
        exact ⟨breaks.1.symm, breaks.2⟩
    obtain ⟨rfl, inner⟩ := tail
    obtain ⟨rfl, stopped⟩ := start_breaks inner
    exact ⟨stopped, rfl⟩

/-- Forwards: a step into an open string, or one which stops the scan, is in an
open string already or at the place where the text breaks off. -/
private theorem lexStep_breaks {signedChar : Bool} {state : LexState} {c : Char}
    {rest : List Char} {tokens : List Token}
    (breaks : Breaks rest tokens (lexStep signedChar state c)) :
    InsideOpen (c :: rest) state ∧ tokens = [] ∨
      state.boundary c = true ∧ stops signedChar (c :: rest) = true ∧ tokens = (lexEnd state).1 := by
  cases state with
  | initial => exact .inr ⟨rfl, (start_breaks breaks).symm⟩
  | word word =>
    refine .inr ⟨rfl, ?_⟩
    simp only [lexStep] at breaks
    split at breaks
    · exact breaks.2.elim
    · exact after_breaks breaks
  | bang =>
    refine .inr ⟨rfl, ?_⟩
    simp only [lexStep] at breaks
    split at breaks
    · exact breaks.2.elim
    · exact after_breaks breaks
  | quoted quote strbuf =>
    refine .inl ?_
    simp only [lexStep] at breaks
    split at breaks
    next same =>
      -- the string goes on behind a doubled quote
      obtain ⟨rfl, more, rfl, isOpen⟩ := breaks
      refine ⟨?_, rfl⟩
      simp [InsideOpen, openQuote, same, isOpen]
    next other =>
      split at breaks
      next newline =>
        cases breaks
        refine ⟨?_, rfl⟩
        simp only [InsideOpen]
        rw [openQuote.eq_def]
        simp only [if_neg other, if_pos newline]
      next inLine =>
        obtain ⟨rfl, isOpen⟩ := breaks
        refine ⟨?_, rfl⟩
        simp only [InsideOpen] at isOpen ⊢
        rw [openQuote.eq_def]
        simp only [if_neg other, if_neg inLine, isOpen]
  | quoteSeen quote strbuf =>
    simp only [lexStep] at breaks
    split at breaks
    next same =>
      obtain ⟨rfl, isOpen⟩ := breaks
      exact .inl ⟨⟨rest, by rw [same], isOpen⟩, rfl⟩
    next other =>
      refine .inr ⟨?_, after_breaks breaks⟩
      simpa [LexState.boundary] using other

private theorem lexFrom_error {signedChar : Bool} {state : LexState} {text : List Char}
    (failed : (lexFrom signedChar state text).2 ≠ none) :
    InsideOpen text state ∧ (lexFrom signedChar state text).1 = [] ∨
      BreaksOffAfter signedChar state text (lexFrom signedChar state text).1 := by
  induction text generalizing state with
  | nil =>
    cases state with
    | quoted quote strbuf => exact .inl ⟨rfl, rfl⟩
    | _ => exact absurd rfl failed
  | cons c rest ih =>
    -- the step breaks the scan here, or leaves it to the rest
    have here : ∀ tokens, Breaks rest tokens (lexStep signedChar state c) →
        InsideOpen (c :: rest) state ∧ tokens = [] ∨
          BreaksOffAfter signedChar state (c :: rest) tokens := by
      intro tokens breaks
      refine (lexStep_breaks breaks).imp_right ?_
      rintro ⟨boundary, stopped, rfl⟩
      exact ⟨[], rest, c, [], state, rfl, rfl, boundary, stopped, rfl⟩
    cases step : lexStep signedChar state c with
    | stop tokens errmsg =>
      rw [step] at here
      rw [lexFrom, step]
      exact here tokens rfl
    | go tokens next =>
      rw [step] at here
      rw [lexFrom_cons step] at failed ⊢
      rcases ih failed with ⟨inside, nothing⟩ | later
      · rw [nothing, List.append_nil]
        exact here tokens ⟨rfl, inside⟩
      · obtain ⟨before, inside, d, earlier, last, split, run, boundary, stopped, same⟩ := later
        refine .inr ⟨c :: before, inside, d, tokens ++ earlier, last, ?_, ?_, boundary, stopped, ?_⟩
        · rw [split, List.cons_append]
        · rw [lexRun, step]
          simp only [run, Option.map_some]
        · rw [same, List.append_assoc]

/-- The scanner stops with an error exactly where the text breaks off. -/
theorem scanString_breaks_iff (signedChar : Bool) (expr : String) (tokens : List Token) :
    (∃ errmsg, scanString signedChar expr = (tokens, some errmsg)) ↔
      BreaksOffAfter signedChar .initial (text expr) tokens := by
  constructor
  · rintro ⟨errmsg, scanned⟩
    have failed : (lexFrom signedChar .initial (text expr)).2 ≠ none := by
      rw [← scanString_eq, scanned]
      exact Option.some_ne_none errmsg
    rcases lexFrom_error failed with ⟨inside, -⟩ | breaks
    · exact inside.elim
    · rw [← scanString_eq, scanned] at breaks
      exact breaks
  · rintro ⟨before, inside, c, earlier, last, split, run, boundary, stopped, rfl⟩
    obtain ⟨errmsg, found⟩ := lexFrom_stops boundary stopped
    refine ⟨errmsg, ?_⟩
    rw [scanString_eq, split, lexFrom_append run, found]

/-! ## Validity -/

theorem validExpression_iff_query (signedChar : Bool) (expr : String) :
    (validExpression signedChar (some expr)).1 = true ↔
      ∃ query : Query, (scanString signedChar expr).1 = query.yield := by
  by_cases empty : expr = ""
  · subst empty
    refine iff_of_true rfl ⟨.empty, rfl⟩
  · rw [← evalExpression_ok_iff signedChar none expr]
    simp [validExpression, empty]

/-- A string is valid just when it derives a query, unless it breaks off behind a
query: then it is valid although the rest of it was never read. -/
theorem validExpression_derives_iff (signedChar : Bool) (expr : String) :
    ((validExpression signedChar (some expr)).1 = true ↔ Derives signedChar expr) ↔
      ¬BreaksOff signedChar expr := by
  have broken : BreaksOff signedChar expr ↔
      ∃ (query : Query) (errmsg : String), scanString signedChar expr = (query.yield, some errmsg) :=
    exists_congr fun query => (scanString_breaks_iff signedChar expr query.yield).symm
  rw [validExpression_iff_query, broken]
  rcases scanned : scanString signedChar expr with ⟨tokens, errmsg⟩
  cases errmsg with
  | none => simp [Derives, scanned]
  | some errmsg => simp [Derives, scanned]

/-! ## What stands before the first comparison -/

/-- Comparisons are told from values and from characters which are no tokens. -/
def Token.isValue : Token → Option Bool
  | .cmp _ => some false
  | .valueString _ | .invalid _ => some true
  | _ => none

/-- A value stands before all comparisons. -/
def valueFirst (tokens : List Token) : Bool := tokens.findSome? Token.isValue = some true

theorem valueFirst_append (first second : List Token) :
    valueFirst (first ++ second) = true ↔
      valueFirst first = true ∨ first.findSome? Token.isValue = none ∧ valueFirst second = true := by
  simp only [valueFirst, List.findSome?_append, decide_eq_true_eq]
  cases first.findSome? Token.isValue <;> simp

theorem valueFirst_cons_of_none {token : Token} (plain : token.isValue = none)
    (rest : List Token) : valueFirst (token :: rest) = valueFirst rest := by
  rw [valueFirst, valueFirst, List.findSome?_cons_of_isNone (by rw [plain]; rfl)]

mutual

/-- In a query a value can only follow a comparison. -/
theorem Expression.valueFirst_yield : ∀ expression : Expression, valueFirst expression.yield = false
  | .binary left connective right => by
    rw [Expression.yield, Bool.eq_false_iff, ne_eq, valueFirst_append,
      valueFirst_cons_of_none (by rfl), left.valueFirst_yield, right.valueFirst_yield]
    simp
  | .term term => by
    rw [Expression.yield]
    exact term.valueFirst_yield

theorem Term.valueFirst_yield : ∀ term : Term, valueFirst term.yield = false
  | .paren expression => by
    rw [Term.yield, valueFirst_cons_of_none (by rfl), Bool.eq_false_iff, ne_eq, valueFirst_append,
      expression.valueFirst_yield]
    simp [valueFirst, Token.isValue]
  | .notParen expression => by
    rw [Term.yield, valueFirst_cons_of_none (by rfl), valueFirst_cons_of_none (by rfl),
      Bool.eq_false_iff, ne_eq, valueFirst_append, expression.valueFirst_yield]
    simp [valueFirst, Token.isValue]
  | .name _ => rfl
  | .notName _ => rfl
  | .compare _ _ _ => rfl

end

theorem Query.valueFirst_yield (query : Query) : valueFirst query.yield = false := by
  cases query with
  | empty => rfl
  | expression tree => exact tree.valueFirst_yield

/-- A value comes first, or nothing which decides has come yet and this is no full stop. -/
private def Passes (c : Char) (tokens : List Token) : Prop :=
  valueFirst tokens = true ∨ tokens.findSome? Token.isValue = none ∧ c ≠ '.'

private theorem start_passes {signedChar : Bool} {c : Char} (assign : c ≠ '=')
    {tokens : List Token} {next : LexState} (goes : start signedChar c = .go tokens next) :
    Passes c tokens := by
  unfold start at goes
  split at goes
  -- a character which gives no token is a blank or begins a word, and so is no dot
  case isTrue blank =>
    cases goes
    refine .inr ⟨rfl, ?_⟩
    rintro rfl
    revert blank
    decide
  case isFalse =>
    split at goes
    case isTrue word =>
      cases goes
      refine .inr ⟨rfl, ?_⟩
      rintro rfl
      revert word
      decide
    case isFalse =>
      split at goes
      case h_2 => exact absurd rfl assign
      case h_10 =>
        split at goes
        · cases goes
        · cases goes
          exact .inl rfl
      -- each of the others is an operator or a bracket
      all_goals
        cases goes
        exact .inr ⟨rfl, by decide⟩

private theorem after_passes {token : Token} (plain : token.isValue ≠ some false) {step : LexStep}
    {c : Char} {tokens : List Token} {next : LexState}
    (passes : ∀ tokens, step = .go tokens next → Passes c tokens)
    (goes : step.after token = .go tokens next) : Passes c tokens := by
  cases step with
  | stop => cases goes
  | go first state =>
    obtain ⟨rfl, rfl⟩ : token :: first = tokens ∧ state = next := by
      simpa [LexStep.after] using goes
    cases mark : token.isValue with
    | none =>
      rw [Passes, valueFirst_cons_of_none mark, List.findSome?_cons_of_isNone (by rw [mark]; rfl)]
      exact passes first rfl
    | some value =>
      cases value with
      | false => exact absurd mark plain
      | true =>
        refine .inl ?_
        rw [valueFirst, List.findSome?_cons_of_isSome (by rw [mark]; rfl), mark]
        rfl

private theorem wordToken_isValue (text : List Char) :
    (wordToken text).isValue ≠ some false := by
  rw [wordToken]
  split
  · decide
  · split
    · decide
    · split <;> simp [Token.isValue]

/-- In a quoted string, or behind one which may have been closed. -/
private def InQuotes : LexState → Prop
  | .quoted _ _ | .quoteSeen _ _ => True
  | _ => False

/-- What is under way becomes a value, unless the scan stops. -/
private theorem lexStep_inQuotes {signedChar : Bool} {state next : LexState} {c : Char}
    {tokens : List Token} (inside : InQuotes state)
    (goes : lexStep signedChar state c = .go tokens next) :
    valueFirst tokens = true ∨ tokens = [] ∧ InQuotes next := by
  cases state with
  | initial | word | bang => cases inside
  | quoted quote strbuf =>
    rw [lexStep] at goes
    split at goes
    · cases goes
      exact .inr ⟨rfl, trivial⟩
    · split at goes
      · cases goes
      · cases goes
        exact .inr ⟨rfl, trivial⟩
  | quoteSeen quote strbuf =>
    rw [lexStep] at goes
    split at goes
    · cases goes
      exact .inr ⟨rfl, trivial⟩
    · cases step : start signedChar c with
      | stop => rw [step] at goes; cases goes
      | go first state =>
        rw [step] at goes
        obtain ⟨rfl, rfl⟩ : _ :: first = tokens ∧ state = next := by
          simpa [LexStep.after] using goes
        exact .inl rfl

private theorem lexStep_passes {signedChar : Bool} {state next : LexState} {c : Char}
    {tokens : List Token} (outside : ¬InQuotes state) (assign : c ≠ '=')
    (goes : lexStep signedChar state c = .go tokens next) : Passes c tokens := by
  have begins : ∀ tokens, start signedChar c = .go tokens next → Passes c tokens :=
    fun _ => start_passes assign
  cases state with
  | quoted | quoteSeen => exact absurd trivial outside
  | initial => exact begins tokens goes
  | bang =>
    rw [lexStep, if_neg assign] at goes
    exact after_passes (by decide) begins goes
  | word text =>
    rw [lexStep] at goes
    split at goes
    case isTrue word =>
      cases goes
      refine .inr ⟨rfl, ?_⟩
      rintro rfl
      revert word
      decide
    case isFalse => exact after_passes (wordToken_isValue text) begins goes

/-- A full stop can only stand in a quoted string, and this is a value. -/
private theorem lexFrom_valueFirst {signedChar : Bool} {rest : List Char} {state : LexState}
    (early : InQuotes state ∨ '.' ∈ rest.takeWhile (· != '='))
    (closed : (lexFrom signedChar state rest).2 = none) :
    valueFirst (lexFrom signedChar state rest).1 = true := by
  induction rest generalizing state with
  | nil =>
    rcases early with inside | stop
    · cases state with
      | initial | word | bang => cases inside
      | quoted => cases closed
      | quoteSeen => rfl
    · cases stop
  | cons c rest ih =>
    cases step : lexStep signedChar state c with
    | stop tokens errmsg =>
      rw [lexFrom, step] at closed
      cases closed
    | go tokens next =>
      rw [lexFrom_cons step] at closed ⊢
      rw [valueFirst_append]
      -- inside quotes the string becomes the first value
      by_cases inside : InQuotes state
      · rcases lexStep_inQuotes inside step with now | ⟨rfl, still⟩
        · exact .inl now
        · exact .inr ⟨rfl, ih (.inl still) closed⟩
      · have stop := early.resolve_left inside
        rw [List.takeWhile_cons] at stop
        split at stop
        case isFalse => cases stop
        -- outside of them the dot is still to come
        case isTrue assign =>
          rcases lexStep_passes inside (bne_iff_ne.mp assign) step with now | ⟨nothing, other⟩
          · exact .inl now
          · refine .inr ⟨nothing, ih (.inr ?_) closed⟩
            exact (List.mem_cons.mp stop).resolve_left (Ne.symm other)

/-- In a text which derives a query there is no full stop before the first `=`. -/
theorem Derives.assign_first {signedChar : Bool} {expr : String}
    (derives : Derives signedChar expr) : '.' ∉ (text expr).takeWhile (· != '=') := by
  intro stop
  obtain ⟨query, scanned⟩ := derives
  rw [scanString_eq] at scanned
  have first := @lexFrom_valueFirst signedChar _ .initial (.inr stop) (congrArg Prod.snd scanned)
  rw [scanned, query.valueFirst_yield] at first
  cases first

theorem sample_breaks_off :
    (validExpression true (some "laptop \"office")).1 = true ∧
      scanString true "laptop \"office" =
        ([.ctxName "laptop"], some "unterminated double-quoted string") ∧
      ¬Derives true "laptop \"office" := by
  have scanned : scanString true "laptop \"office" =
    ([.ctxName "laptop"], some "unterminated double-quoted string") := by decide +kernel
  refine ⟨by decide +kernel, scanned, ?_⟩
  rintro ⟨query, derived⟩
  rw [scanned] at derived
  exact Option.some_ne_none _ (congrArg Prod.snd derived)

end Lcfg.Context
