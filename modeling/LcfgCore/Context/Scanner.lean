import LcfgCore.Context.Parser

/-!
# Scanning and evaluating context expressions

The automaton of `lexer.l`, which always takes the longest match, and
`lcfgctxlist_eval_expression`, which scans, parses and evaluates a query. Each
`Char` of a query stands for one byte of the C string.
-/
namespace Lcfg.Context

open SignedTruth

/-! ## The scanner -/

/-- The text matched so far. -/
inductive LexState where
  | initial
  | word (text : List Char)
  | bang
  | quoted (quote : Char) (strbuf : List Char)
  -- after a quote inside a quoted string: its end, or one half of a doubled quote
  | quoteSeen (quote : Char) (strbuf : List Char)

/-- One character either goes on, maybe after some finished tokens, or ends the
scan with `END` and an error. -/
inductive LexStep where
  | go (tokens : List Token) (state : LexState)
  | stop (tokens : List Token) (errmsg : String)

def LexStep.after (token : Token) : LexStep → LexStep
  | .go tokens state => .go (token :: tokens) state
  | .stop tokens errmsg => .stop (token :: tokens) errmsg

def isWhitespace (c : Char) : Bool :=
  c == ' ' || c == '\t' || c == '\n' || c == '\r' || c.toNat == 12

/-- A whole word; letters are compared in either case, and the names of the
Boolean values come before the names of contexts. -/
def wordToken (text : List Char) : Token :=
  let word := String.ofList (text.map Char.toLower)
  if ["yes", "true", "on"].contains word then .valueBool true
  else if ["no", "false", "off"].contains word then .valueBool false
  else if (text.head?.map Char.isAlpha).getD false then .ctxName (String.ofList text)
  else .valueString (String.ofList text)

def invalidCharacter (c : Char) : String := "Invalid character '" ++ String.singleton c ++ "'"

def unterminated (quote : Char) : String :=
  if quote = '"' then "unterminated double-quoted string"
  else "unterminated single-quoted string"

/-- A character where no match is under way. An unknown character is passed to
the parser as a token; as a negative `char` the parser takes it for `END`. -/
def start (signedChar : Bool) (c : Char) : LexStep :=
  if isWhitespace c then .go [] .initial
  else if isWord c then .go [] (.word [c])
  else
    match c with
    | '!' => .go [] .bang
    | '=' => .go [.cmp .eq] .initial
    | '|' => .go [.op .or] .initial
    | '^' => .go [.op .xor] .initial
    | '&' => .go [.op .and] .initial
    | '(' => .go [.parenLeft] .initial
    | ')' => .go [.parenRight] .initial
    | '"' => .go [] (.quoted '"' [])
    | '\'' => .go [] (.quoted '\'' [])
    | _ =>
      if signedChar && 128 ≤ c.toNat then .stop [] (invalidCharacter c)
      else .go [.invalid c] .initial

def lexStep (signedChar : Bool) : LexState → Char → LexStep
  | .initial, c => start signedChar c
  | .word text, c =>
    if isWord c then .go [] (.word (text ++ [c]))
    else (start signedChar c).after (wordToken text)
  | .bang, c =>
    if c = '=' then .go [.cmp .ne] .initial else (start signedChar c).after .opNot
  | .quoted quote strbuf, c =>
    if c = quote then .go [] (.quoteSeen quote strbuf)
    else if c = '\n' || c = '\r' then .stop [] (unterminated quote)
    else .go [] (.quoted quote (strbuf ++ [c]))
  | .quoteSeen quote strbuf, c =>
    if c = quote then .go [] (.quoted quote (strbuf ++ [quote]))
    else (start signedChar c).after (.valueString (String.ofList strbuf))

/-- The end of the string. -/
def lexEnd : LexState → List Token × Option String
  | .initial => ([], none)
  | .word text => ([wordToken text], none)
  | .bang => ([.opNot], none)
  | .quoted quote _ => ([], some (unterminated quote))
  | .quoteSeen _ strbuf => ([.valueString (String.ofList strbuf)], none)

/-- The tokens before `END`, and the error which `END` came with. -/
def lexFrom (signedChar : Bool) (state : LexState) : List Char → List Token × Option String
  | [] => lexEnd state
  | c :: rest =>
    match lexStep signedChar state c with
    | .go tokens state =>
      let (more, errmsg) := lexFrom signedChar state rest
      (tokens ++ more, errmsg)
    | .stop tokens errmsg => (tokens, some errmsg)

/-- `expr` is a C string, which ends at its first NUL. -/
def scanString (signedChar : Bool) (expr : String) : List Token × Option String :=
  lexFrom signedChar .initial (expr.toList.takeWhile (·.toNat ≠ 0))

/-! ## Evaluation -/

/-- The result of `lcfgctxlist_eval_expression`: its return value, the integer and
the diagnostic message. -/
structure Evaluation where
  ok : Bool
  result : Int
  msg : Option String
deriving DecidableEq, Repr

/-- The first error is kept: the scanner reports a bad character, or an open
string, before the parser finds a syntax error at it. -/
def errorMessage (endError : Option String) : Option Token → String
  | some (.invalid c) => invalidCharacter c
  | some _ => "syntax error"
  | none => endError.getD "syntax error"

def evalExpression (signedChar : Bool) (ctxlist : LCFGContextList) (expr : String) : Evaluation :=
  let (tokens, endError) := scanString signedChar expr
  match parse tokens with
  | .accepted query => ⟨true, query.value ctxlist, none⟩
  | .rejected token reduced =>
    ⟨false, (reduced.map (Query.value ctxlist)).getD 0, some (errorMessage endError token)⟩

theorem evalExpression_of_yield (signedChar : Bool) (ctxlist : LCFGContextList) (expr : String)
    {query : Query} (parsed : (scanString signedChar expr).1 = query.yield) :
    evalExpression signedChar ctxlist expr = ⟨true, query.value ctxlist, none⟩ := by
  simp only [evalExpression, (parse_eq_accepted_iff _ query).mpr parsed]

theorem evalExpression_ok_iff (signedChar : Bool) (ctxlist : LCFGContextList) (expr : String) :
    (evalExpression signedChar ctxlist expr).ok = true ↔
      ∃ query : Query, (scanString signedChar expr).1 = query.yield := by
  constructor
  · intro ok
    unfold evalExpression at ok
    cases parsed : parse (scanString signedChar expr).1 with
    | accepted query => exact ⟨query, (parse_eq_accepted_iff _ query).mp parsed⟩
    | rejected token reduced => simp [parsed] at ok
  · rintro ⟨query, parsed⟩
    rw [evalExpression_of_yield signedChar ctxlist expr parsed]

/-- The query of a string is accepted when it is a sentence of the grammar, and
its value then tells the truth of the expression by its sign, with the priority
of a context mentioned (or 1) as magnitude; only the empty query has value 0. -/
theorem evalExpression_sound (signedChar : Bool) (ctxlist : LCFGContextList)
    (positive : ∀ ctx ∈ ctxlist.getD [], 1 ≤ ctx.priority) (expr : String) :
    ((evalExpression signedChar ctxlist expr).ok = true ↔
      ∃ query : Query, (scanString signedChar expr).1 = query.yield) ∧
    ∀ query : Query, (scanString signedChar expr).1 = query.yield →
      ((evalExpression signedChar ctxlist expr).result = 0 ↔ query = .empty) ∧
      ∀ expression : Expression, query = .expression expression →
        (0 < (evalExpression signedChar ctxlist expr).result ↔
          expression.truth ctxlist = true) ∧
        (|(evalExpression signedChar ctxlist expr).result| = 1 ∨
          ∃ name ∈ expression.names, ∃ ctx, ctxlist.findContext name = some ctx ∧
            |(evalExpression signedChar ctxlist expr).result| = ctx.priority) := by
  refine ⟨evalExpression_ok_iff signedChar ctxlist expr, ?_⟩
  intro query parsed
  rw [evalExpression_of_yield signedChar ctxlist expr parsed]
  cases query with
  | empty =>
    refine ⟨iff_of_true rfl rfl, ?_⟩
    intro expression other
    cases other
  | expression tree =>
    have carries := tree.value_carries positive
    refine ⟨iff_of_false carries.ne_zero Query.noConfusion, ?_⟩
    intro expression same
    cases same
    exact ⟨carries.pos_iff, carries.abs_mem⟩

def sampleContexts : LCFGContextList :=
  some [⟨some "location", some "office", 4⟩, ⟨some "laptop", some "No", 2⟩]

def sampleExpression : Expression :=
  .binary (.term (.compare "location" .eq (.string "office"))) .and (.notName "laptop")

theorem sample_evaluated :
    let evaluation := evalExpression true sampleContexts "location='office' & !laptop"
    (∀ ctx ∈ sampleContexts.getD [], 1 ≤ ctx.priority) ∧ evaluation.ok = true ∧
      0 < evaluation.result ∧ sampleExpression.truth sampleContexts = true := by
  have positive : ∀ ctx ∈ sampleContexts.getD [], 1 ≤ ctx.priority := by decide
  obtain ⟨accepted, sound⟩ :=
    evalExpression_sound true sampleContexts positive "location='office' & !laptop"
  have parsed : (scanString true "location='office' & !laptop").1 =
    (Query.expression sampleExpression).yield := by decide
  have truth : sampleExpression.truth sampleContexts = true := by decide
  obtain ⟨-, meaning⟩ := sound (.expression sampleExpression) parsed
  obtain ⟨sign, -⟩ := meaning sampleExpression rfl
  exact ⟨positive, accepted.mpr ⟨_, parsed⟩, sign.mpr truth, truth⟩

end Lcfg.Context
