import LcfgCore.Context.Validity
import Mathlib.Data.List.TakeWhile

/-!
# Combined expressions

`lcfgcontext_combine_expressions` joins two expressions with `&`, each of them in
brackets unless it begins with one.
-/
namespace Lcfg.Context

abbrev CString := {string : String // NoNul string}

def CString.ofString (string : String) (noNul : string.toList.all (·.toNat != 0) = true) : CString :=
  ⟨string, fun c member => bne_iff_ne.mp (List.all_eq_true.mp noNul c member)⟩

def beginsWithBracket (expr : String) : Bool := expr.toList.head? == some '('

def bracketifyExpression : Option String → Option String
  | none => none
  | some expr =>
    if expr == "" || beginsWithBracket expr then some expr else some ("(" ++ expr ++ ")")

/-- `lcfgutils_string_join`. -/
def stringJoin (sep str1 str2 : String) : String := str1 ++ sep ++ str2

/-- `compare` is the `strcmp` of the platform, of which only the sign of the
result is specified. -/
def combineExpressions (compare : String → String → Int) (expr1 expr2 : Option String) : String :=
  if isEmpty expr1 then
    if isEmpty expr2 then "" else expr2.getD ""
  else if isEmpty expr2 then expr1.getD ""
  else if compare (expr1.getD "") (expr2.getD "") = 0 then expr1.getD ""
  else
    let safe1 := (bracketifyExpression expr1).getD ""
    let safe2 := (bracketifyExpression expr2).getD ""
    let cmp := compare safe1 safe2
    if cmp = 0 then safe1
    else if cmp = -1 then stringJoin " & " safe1 safe2
    else stringJoin " & " safe2 safe1

/-! ## What a combination stands for -/

/-- The value 0 of an empty expression counts as true. -/
def holds (signedChar : Bool) (ctxlist : LCFGContextList) (expr : String) : Bool :=
  0 ≤ (evalExpression signedChar ctxlist expr).result

def Query.truth (ctxlist : LCFGContextList) : Query → Bool
  | .empty => true
  | .expression tree => tree.truth ctxlist

namespace Expression

/-- The expression behind another one and a connective. -/
def graft (front : Expression) (link : Connective) : Expression → Expression
  | .term first => .binary front link first
  | .binary left connective right => .binary (front.graft link left) connective right

/-- The truth of an expression whose first term is joined to a truth by `&`. -/
def truthAfter (ctxlist : LCFGContextList) (before : Bool) : Expression → Bool
  | .term first => before && first.truth ctxlist
  | .binary left connective right =>
    connective.truth (left.truthAfter ctxlist before) (right.truth ctxlist)

theorem yield_graft (front : Expression) (link : Connective) :
    ∀ tree : Expression, (front.graft link tree).yield = front.yield ++ .op link :: tree.yield
  | .term _ => rfl
  | .binary left connective right => by
    simp [graft, Expression.yield, yield_graft front link left]

theorem truth_graft_and (ctxlist : LCFGContextList) (front : Expression) :
    ∀ tree : Expression,
      (front.graft .and tree).truth ctxlist = tree.truthAfter ctxlist (front.truth ctxlist)
  | .term _ => rfl
  | .binary left connective right => by
    simp only [graft, Expression.truth, truthAfter, truth_graft_and ctxlist front left]

theorem truthAfter_true (ctxlist : LCFGContextList) :
    ∀ tree : Expression, tree.truthAfter ctxlist true = tree.truth ctxlist
  | .term _ => rfl
  | .binary left connective right => by
    simp only [truthAfter, Expression.truth, truthAfter_true ctxlist left]

end Expression

theorem holds_of_yield {signedChar : Bool} {ctxlist : LCFGContextList}
    (positive : ∀ ctx ∈ ctxlist.getD [], 1 ≤ ctx.priority) {expr : String} {query : Query}
    (parsed : (scanString signedChar expr).1 = query.yield) :
    holds signedChar ctxlist expr = query.truth ctxlist := by
  rw [holds, evalExpression_of_yield signedChar ctxlist expr parsed]
  cases query with
  | empty => rfl
  | expression tree =>
    have carries := tree.value_carries positive
    have sign := carries.pos_iff
    have nonzero := carries.ne_zero
    rw [Bool.eq_iff_iff, decide_eq_true_iff]
    change 0 ≤ tree.value ctxlist ↔ tree.truth ctxlist = true
    rw [← sign]
    omega

/-! ## Scanning what was put together -/

theorem text_eq (expr : CString) : text expr.val = expr.val.toList := by
  apply List.takeWhile_eq_self_iff.mpr
  intro c member
  exact decide_eq_true (expr.property c member)

namespace LexState

/-- Strings are quoted by one of the two quote characters. -/
def Quotes : LexState → Prop
  | .quoted quote _ | .quoteSeen quote _ => quote = '"' ∨ quote = '\''
  | _ => True

end LexState

private theorem start_quotes {signedChar : Bool} {c : Char} {tokens : List Token}
    {next : LexState} (step : start signedChar c = .go tokens next) : next.Quotes := by
  unfold start at step
  split at step
  · cases step
    trivial
  split at step
  · cases step
    trivial
  split at step
  case h_8 =>
    cases step
    exact .inl rfl
  case h_9 =>
    cases step
    exact .inr rfl
  case h_10 =>
    split at step
    · cases step
    · cases step
      trivial
  all_goals
    cases step
    trivial

private theorem after_quotes {signedChar : Bool} {c : Char} {token : Token} {tokens : List Token}
    {next : LexState} (step : (start signedChar c).after token = .go tokens next) :
    next.Quotes := by
  cases started : start signedChar c with
  | go found state =>
    rw [started] at step
    cases step
    exact start_quotes started
  | stop found errmsg =>
    rw [started] at step
    cases step

private theorem lexStep_quotes {signedChar : Bool} {state next : LexState} {c : Char}
    {tokens : List Token} (quotes : state.Quotes)
    (step : lexStep signedChar state c = .go tokens next) : next.Quotes := by
  cases state with
  | initial => exact start_quotes step
  | word word =>
    simp only [lexStep] at step
    split at step
    · cases step
      trivial
    · exact after_quotes step
  | bang =>
    simp only [lexStep] at step
    split at step
    · cases step
      trivial
    · exact after_quotes step
  -- inside quotes the quote stays the one which has opened
  | quoted quote strbuf =>
    simp only [lexStep] at step
    split at step
    · cases step
      exact quotes
    split at step
    · cases step
    · cases step
      exact quotes
  | quoteSeen quote strbuf =>
    simp only [lexStep] at step
    split at step
    · cases step
      exact quotes
    · exact after_quotes step

/-- A text which is scanned without an error, up to its last match. -/
private theorem lexRun_of_clean {signedChar : Bool} {state : LexState} {text : List Char}
    (quotes : state.Quotes) (clean : (lexFrom signedChar state text).2 = none) :
    ∃ tokens last, lexRun signedChar state text = some (tokens, last) ∧ last.Quotes ∧
      (lexEnd last).2 = none ∧ (lexFrom signedChar state text).1 = tokens ++ (lexEnd last).1 := by
  induction text generalizing state with
  | nil => exact ⟨[], state, rfl, quotes, clean, rfl⟩
  | cons c rest ih =>
    cases step : lexStep signedChar state c with
    | stop tokens errmsg => simp [lexFrom, step] at clean
    | go tokens next =>
      rw [lexFrom_cons step] at clean ⊢
      obtain ⟨more, last, run, quoted, ended, same⟩ := ih (lexStep_quotes quotes step) clean
      refine ⟨tokens ++ more, last, ?_, quoted, ended, ?_⟩
      · rw [lexRun, step]
        simp only [run, Option.map_some]
      · rw [same, List.append_assoc]

/-- Behind a text which is scanned without an error, a blank or a bracket ends the
last match. -/
theorem lexFrom_clean_append {signedChar : Bool} {text more : List Char} {tokens ends : List Token}
    {c : Char} (clean : lexFrom signedChar .initial text = (tokens, none))
    (other : isWord c = false ∧ c ≠ '=' ∧ c ≠ '"' ∧ c ≠ '\'')
    (started : start signedChar c = .go ends .initial) :
    lexFrom signedChar .initial (text ++ c :: more) =
      (tokens ++ ends ++ (lexFrom signedChar .initial more).1,
        (lexFrom signedChar .initial more).2) := by
  have quotesBefore : LexState.initial.Quotes := trivial
  obtain ⟨found, last, run, quotes, ended, same⟩ :=
    lexRun_of_clean quotesBefore (congrArg Prod.snd clean)
  obtain ⟨plain, assign, double, single⟩ := other
  have boundary : last.boundary c = true := by
    cases last with
    | quoted quote strbuf => cases ended
    | quoteSeen quote strbuf =>
      rcases quotes with rfl | rfl
      · simpa [LexState.boundary] using double
      · simpa [LexState.boundary] using single
    | _ => rfl
  have step : lexStep signedChar last c = .go ((lexEnd last).1 ++ ends) .initial := by
    rw [lexStep_boundary plain assign boundary, started]
  rw [lexFrom_append run, lexFrom_cons step]
  rw [clean] at same
  change tokens = found ++ (lexEnd last).1 at same
  simp only [same, List.append_assoc]

/-- An open string goes on in what follows it, and may be closed there. -/
private theorem lexFrom_quoted (signedChar : Bool) (quote : Char) (text strbuf : List Char) :
    (∃ errmsg, lexFrom signedChar (.quoted quote strbuf) text = ([], some errmsg)) ∨
      ∃ value others error,
        lexFrom signedChar (.quoted quote strbuf) text = (.valueString value :: others, error) := by
  induction text using openQuote.induct quote generalizing strbuf with
  | case1 => exact .inl ⟨_, rfl⟩
  | case2 =>
    refine .inr ⟨String.ofList strbuf, [], none, ?_⟩
    simp [lexFrom, lexStep, lexEnd]
  -- a doubled quote stands for one of the text
  | case3 rest ih =>
    have doubled : lexFrom signedChar (.quoted quote strbuf) (quote :: quote :: rest) =
        lexFrom signedChar (.quoted quote (strbuf ++ [quote])) rest := by
      simp [lexFrom, lexStep]
    rw [doubled]
    exact ih _
  -- the string ends before any other character
  | case4 next rest other =>
    right
    have closed : lexFrom signedChar (.quoted quote strbuf) (quote :: next :: rest) =
        lexFrom signedChar (.quoteSeen quote strbuf) (next :: rest) := by
      simp [lexFrom, lexStep]
    rw [closed, lexFrom, lexStep, if_neg other]
    cases start signedChar next with
    | go tokens state => exact ⟨_, _, _, rfl⟩
    | stop tokens errmsg => exact ⟨_, _, _, rfl⟩
  -- a newline ends the text without an end of the string
  | case5 c rest other newline =>
    left
    refine ⟨unterminated quote, ?_⟩
    simp [lexFrom, lexStep, other, newline]
  | case6 c rest other inLine ih =>
    have goes : lexFrom signedChar (.quoted quote strbuf) (c :: rest) =
        lexFrom signedChar (.quoted quote (strbuf ++ [c])) rest := by
      simp [lexFrom, lexStep, other, inLine]
    rw [goes]
    exact ih _

/-- Behind a text which breaks off nothing is read, unless its open string is
closed there. -/
theorem lexFrom_error_append {signedChar : Bool} {state : LexState} {text : List Char}
    {tokens : List Token} {errmsg : String}
    (failed : lexFrom signedChar state text = (tokens, some errmsg)) (more : List Char) :
    (∃ errmsg, lexFrom signedChar state (text ++ more) = (tokens, some errmsg)) ∨
      ∃ value others error, lexFrom signedChar state (text ++ more) =
        (tokens ++ .valueString value :: others, error) := by
  induction text generalizing state tokens with
  | nil =>
    cases state with
    | quoted quote strbuf =>
      cases failed
      exact lexFrom_quoted signedChar quote more strbuf
    | _ => cases failed
  | cons c rest ih =>
    cases step : lexStep signedChar state c with
    | stop found error =>
      rw [lexFrom, step] at failed
      cases failed
      refine .inl ⟨errmsg, ?_⟩
      rw [List.cons_append, lexFrom, step]
    | go found next =>
      rw [lexFrom_cons step, Prod.mk.injEq] at failed
      obtain ⟨rfl, failed⟩ := failed
      rw [List.cons_append, lexFrom_cons step]
      rcases ih (Prod.ext rfl failed) with ⟨errmsg, same⟩ | ⟨value, others, error, same⟩
      · exact .inl ⟨errmsg, by rw [same]⟩
      · exact .inr ⟨value, others, error, by rw [same, List.append_assoc]⟩

/-! ## Parsing what was put together -/

/-- Wherever a term is expected, the tokens do not complete a query. -/
private def Unfinished (tokens : List Token) : Prop :=
  ∀ (stack : List Frame) (left : Left) (query : Query),
    parseFrom stack (.operand left) tokens ≠ .accepted query

/-- An open bracket, a query and something which can not follow it. -/
private theorem unfinished_bracket (query : Query) {rest : List Token}
    (follows : rest = [] ∨ ∃ value others, rest = .valueString value :: others) :
    Unfinished (.parenLeft :: (query.yield ++ rest)) := by
  intro stack left other accepted
  change parseFrom (⟨left, false⟩ :: stack) (.operand none) (query.yield ++ rest) = _ at accepted
  cases query with
  | empty => rcases follows with rfl | ⟨value, others, rfl⟩ <;> cases accepted
  | expression tree =>
    have ends : ¬Continues rest := by
      rintro ⟨comparison, more, equal⟩
      rcases follows with rfl | ⟨value, others, rfl⟩ <;> cases equal
    rw [Query.yield, tree.parseFrom_yield _ ends] at accepted
    rcases follows with rfl | ⟨value, others, rfl⟩ <;> cases accepted

private theorem unfinished_blank (rest : List Token) :
    Unfinished (.parenLeft :: .parenRight :: rest) := by
  intro stack left query accepted
  cases accepted

private theorem Unfinished.not_query {tokens : List Token} (unfinished : Unfinished tokens)
    (query : Query) : tokens ≠ query.yield := by
  intro same
  exact unfinished [] none query ((parse_eq_accepted_iff tokens query).mpr same)

private theorem Unfinished.not_query_behind {tokens : List Token} (unfinished : Unfinished tokens)
    (front : Expression) (query : Query) :
    front.yield ++ .op .and :: tokens ≠ query.yield := by
  intro same
  have accepted := (parse_eq_accepted_iff _ query).mpr same
  have ends : ¬Continues (.op .and :: tokens) := by
    rintro ⟨comparison, more, equal⟩
    cases equal
  rw [parse, front.parseFrom_yield [] ends] at accepted
  exact unfinished [] (some (front, .and)) query accepted

/-- No value stands behind a complete expression. -/
private theorem value_behind_not_query (front : Expression) (value : String) (others : List Token)
    (query : Query) : front.yield ++ .valueString value :: others ≠ query.yield := by
  intro same
  have accepted := (parse_eq_accepted_iff _ query).mpr same
  have ends : ¬Continues (.valueString value :: others) := by
    rintro ⟨comparison, more, equal⟩
    cases equal
  rw [parse, front.parseFrom_yield [] ends] at accepted
  cases accepted

/-! ## Conjunctions -/

/-- The expression in the brackets which it needs. -/
def bracketed (expr : String) : String := (bracketifyExpression (some expr)).getD ""

/-- The combined string is valid, and its truth is that of both expressions. -/
def Conjoins (signedChar : Bool) (ctxlist : LCFGContextList) (combined expr1 expr2 : String) :
    Prop :=
  (validExpression signedChar (some combined)).1 = true ∧
    holds signedChar ctxlist combined =
      (holds signedChar ctxlist expr1 && holds signedChar ctxlist expr2)

def Clean (signedChar : Bool) (expr : String) : Prop := (scanString signedChar expr).2 = none

/-- In brackets an expression must not be blank, and must not break off. -/
def Wraps (signedChar : Bool) (expr : String) : Prop :=
  Clean signedChar expr ∧ (scanString signedChar expr).1 ≠ []

/-- An expression which is left as it is, since it begins with a bracket, may be
joined by its first term only: where the other one is false, it must not become
true by the terms that follow. -/
def FitsBehind (signedChar : Bool) (ctxlist : LCFGContextList) (first second : String) : Prop :=
  if beginsWithBracket second then
    holds signedChar ctxlist first = true ∨
      ∃ tree : Expression, (scanString signedChar second).1 = tree.yield ∧
        tree.truthAfter ctxlist false = false
  else Wraps signedChar second

/-- When two expressions, joined in this order, make their conjunction. One which
begins with a bracket and breaks off hides the other one. -/
def Fits (signedChar : Bool) (ctxlist : LCFGContextList) (first second : String) : Prop :=
  if beginsWithBracket first then
    Clean signedChar first ∧ FitsBehind signedChar ctxlist first second ∨
      ¬Clean signedChar first ∧
        (∃ errmsg, scanString signedChar
          (stringJoin " & " first (bracketed second)) =
            ((scanString signedChar first).1, some errmsg)) ∧
        (holds signedChar ctxlist first = true → holds signedChar ctxlist second = true)
  else Wraps signedChar first ∧ FitsBehind signedChar ctxlist first second

/-! ## The two parts of the combined string -/

private theorem bracketed_of_bracket {expr : String} (bracket : beginsWithBracket expr = true) :
    bracketed expr = expr := by
  rw [bracketed, bracketifyExpression, bracket, Bool.or_true, if_pos rfl, Option.getD_some]

private theorem bracketed_toList {expr : String} (some_ : expr ≠ "") :
    (bracketed expr).toList =
      if beginsWithBracket expr then expr.toList else '(' :: (expr.toList ++ [')']) := by
  unfold bracketed bracketifyExpression
  by_cases bracket : beginsWithBracket expr = true
  · simp [bracket]
  · simp [bracket, some_, String.toList_append]

private theorem lexFrom_bracket (signedChar : Bool) (rest : List Char) :
    lexFrom signedChar .initial ('(' :: rest) =
      (.parenLeft :: (lexFrom signedChar .initial rest).1,
        (lexFrom signedChar .initial rest).2) := by
  have step : lexStep signedChar .initial '(' = .go [.parenLeft] .initial := rfl
  rw [lexFrom_cons step, List.singleton_append]

private theorem lexFrom_blank (signedChar : Bool) (rest : List Char) :
    lexFrom signedChar .initial (' ' :: rest) = lexFrom signedChar .initial rest := by
  have step : lexStep signedChar .initial ' ' = .go [] .initial := rfl
  rw [lexFrom_cons step, List.nil_append]

private theorem lexFrom_ampersand (signedChar : Bool) (rest : List Char) :
    lexFrom signedChar .initial ('&' :: ' ' :: rest) =
      (.op .and :: (lexFrom signedChar .initial rest).1,
        (lexFrom signedChar .initial rest).2) := by
  have step : lexStep signedChar .initial '&' = .go [.op .and] .initial := rfl
  rw [lexFrom_cons step, lexFrom_blank, List.singleton_append]

/-- A bracket behind a text which is scanned without an error. -/
private theorem lexFrom_close {signedChar : Bool} {text : List Char} {tokens : List Token}
    (clean : lexFrom signedChar .initial text = (tokens, none)) (rest : List Char) :
    lexFrom signedChar .initial (text ++ ')' :: rest) =
      (tokens ++ .parenRight :: (lexFrom signedChar .initial rest).1,
        (lexFrom signedChar .initial rest).2) := by
  have started : start signedChar ')' = .go [.parenRight] .initial := rfl
  rw [lexFrom_clean_append clean (by decide) started, List.append_assoc, List.singleton_append]

/-- The tree of an expression as it stands in the combined string. -/
private def wrapped (expr : String) (tree : Expression) : Expression :=
  if beginsWithBracket expr then tree else .term (.paren tree)

section Parts

variable {signedChar : Bool} {expr : CString} {query : Query} {tree : Expression}

private theorem scan_eq (expr : CString) :
    scanString signedChar expr.val = lexFrom signedChar .initial expr.val.toList := by
  rw [scanString_eq, text_eq]

private theorem tree_of_bracket (bracket : beginsWithBracket expr.val = true)
    (parsed : (scanString signedChar expr.val).1 = query.yield) :
    ∃ tree, query = .expression tree := by
  cases query with
  | expression tree => exact ⟨tree, rfl⟩
  | empty =>
    obtain ⟨rest, chars⟩ := List.head?_eq_some_iff.mp (beq_iff_eq.mp bracket)
    rw [scan_eq, chars, lexFrom_bracket] at parsed
    cases parsed

private theorem scan_wrapped (scanned : scanString signedChar expr.val = (tree.yield, none))
    (rest : List Char) :
    lexFrom signedChar .initial ('(' :: (expr.val.toList ++ ')' :: rest)) =
      ((Expression.term (.paren tree)).yield ++ (lexFrom signedChar .initial rest).1,
        (lexFrom signedChar .initial rest).2) := by
  rw [scan_eq] at scanned
  rw [lexFrom_bracket, lexFrom_close scanned]
  simp [Expression.yield, Term.yield]

private theorem unfinished_of_not_wraps (wraps : ¬Wraps signedChar expr.val)
    (parsed : (scanString signedChar expr.val).1 = query.yield) (rest : List Char) :
    Unfinished (lexFrom signedChar .initial ('(' :: (expr.val.toList ++ ')' :: rest))).1 := by
  rcases scanned : scanString signedChar expr.val with ⟨tokens, errmsg⟩
  rw [scanned] at parsed
  change tokens = query.yield at parsed
  have chars := scanned
  rw [scan_eq] at chars
  rw [lexFrom_bracket]
  cases errmsg with
  | none =>
    have blank : tokens = [] := by
      by_contra some_
      exact wraps ⟨by rw [Clean, scanned], by rwa [scanned]⟩
    rw [lexFrom_close chars, blank]
    exact unfinished_blank _
  | some errmsg =>
    rcases lexFrom_error_append chars (')' :: rest) with ⟨error, same⟩ | ⟨value, others, error, same⟩
    · rw [same, parsed]
      rw [← List.append_nil query.yield]
      exact unfinished_bracket query (.inl rfl)
    · rw [same, parsed]
      exact unfinished_bracket query (.inr ⟨value, others, rfl⟩)

private theorem bracketed_property (expr : CString) :
    ∀ c ∈ (bracketed expr.val).toList, c.toNat ≠ 0 := by
  by_cases empty : expr.val = ""
  · rw [bracketed, bracketifyExpression, empty]
    simp
  · rw [bracketed_toList empty]
    intro c member
    split at member
    · exact expr.property c member
    · simp only [List.mem_cons, List.mem_append, List.not_mem_nil, or_false] at member
      rcases member with rfl | inner | rfl
      · decide
      · exact expr.property c inner
      · decide

private theorem scan_join (signedChar : Bool) (first second : CString) :
    scanString signedChar (stringJoin " & " (bracketed first.val) (bracketed second.val)) =
      lexFrom signedChar .initial ((bracketed first.val).toList ++
        ' ' :: '&' :: ' ' :: (bracketed second.val).toList) := by
  have chars : (stringJoin " & " (bracketed first.val) (bracketed second.val)).toList =
      (bracketed first.val).toList ++ ' ' :: '&' :: ' ' :: (bracketed second.val).toList := by
    simp [stringJoin, String.toList_append]
  have property : ∀ c ∈ (stringJoin " & " (bracketed first.val) (bracketed second.val)).toList,
      c.toNat ≠ 0 := by
    intro c member
    rw [chars] at member
    simp only [List.mem_append, List.mem_cons] at member
    rcases member with front | rfl | rfl | rfl | behind
    · exact bracketed_property first c front
    · decide
    · decide
    · decide
    · exact bracketed_property second c behind
  rw [scan_eq ⟨_, property⟩, chars]

/-- The first part, when it does not break off. -/
private theorem scan_front (some_ : expr.val ≠ "")
    (scanned : scanString signedChar expr.val = (tree.yield, none)) (more : List Char) :
    lexFrom signedChar .initial ((bracketed expr.val).toList ++ ' ' :: '&' :: ' ' :: more) =
      ((wrapped expr.val tree).yield ++ .op .and :: (lexFrom signedChar .initial more).1,
        (lexFrom signedChar .initial more).2) := by
  rw [bracketed_toList some_]
  by_cases bracket : beginsWithBracket expr.val = true
  · rw [if_pos bracket, wrapped, if_pos bracket]
    rw [scan_eq] at scanned
    have started : start signedChar ' ' = .go [] .initial := rfl
    rw [lexFrom_clean_append scanned (by decide) started, lexFrom_ampersand, List.append_nil]
  · rw [if_neg bracket, wrapped, if_neg bracket, List.cons_append, List.append_assoc,
      List.singleton_append, scan_wrapped scanned]
    rw [lexFrom_blank, lexFrom_ampersand]

end Parts

/-! ## When the combination is the conjunction -/

section Conjunction

variable {signedChar : Bool} {ctxlist : LCFGContextList}

private theorem conjoins_iff (positive : ∀ ctx ∈ ctxlist.getD [], 1 ≤ ctx.priority)
    {combined expr1 expr2 : String} {query1 query2 : Query}
    (parsed1 : (scanString signedChar expr1).1 = query1.yield)
    (parsed2 : (scanString signedChar expr2).1 = query2.yield) :
    Conjoins signedChar ctxlist combined expr1 expr2 ↔
      ∃ query : Query, (scanString signedChar combined).1 = query.yield ∧
        query.truth ctxlist = (query1.truth ctxlist && query2.truth ctxlist) := by
  rw [Conjoins, validExpression_iff_query, holds_of_yield positive parsed1,
    holds_of_yield positive parsed2]
  constructor
  · rintro ⟨⟨query, parsed⟩, same⟩
    exact ⟨query, parsed, by rw [← same, holds_of_yield positive parsed]⟩
  · rintro ⟨query, parsed, same⟩
    exact ⟨⟨query, parsed⟩, by rw [holds_of_yield positive parsed, same]⟩

/-- What stands behind the first expression, for any first expression. -/
private theorem behind_iff {first : String} {second : CString} (some_ : second.val ≠ "") {front : Expression}
    {query2 : Query} (same : holds signedChar ctxlist first = front.truth ctxlist)
    (parsed2 : (scanString signedChar second.val).1 = query2.yield) :
    (∃ query : Query,
      front.yield ++ .op .and ::
        (lexFrom signedChar .initial (bracketed second.val).toList).1 = query.yield ∧
      query.truth ctxlist = (front.truth ctxlist && query2.truth ctxlist)) ↔
      FitsBehind signedChar ctxlist first second.val := by
  -- the grafted tree is the only derivation
  have grafted : ∀ (tree : Expression) (query : Query),
      front.yield ++ .op .and :: tree.yield = query.yield ↔
        query = .expression (front.graft .and tree) := by
    intro tree query
    rw [← Expression.yield_graft]
    constructor
    · intro equal
      exact Query.yield_injective equal.symm
    · rintro rfl
      rfl
  rw [bracketed_toList some_, FitsBehind]
  by_cases bracket : beginsWithBracket second.val = true
  · rw [if_pos bracket, if_pos bracket, ← scan_eq, parsed2, same]
    obtain ⟨tree, rfl⟩ := tree_of_bracket bracket parsed2
    have parse : ∀ query : Query,
        front.yield ++ .op .and :: (Query.expression tree).yield = query.yield ↔
          query = .expression (front.graft .and tree) := grafted tree
    simp only [parse, exists_eq_left]
    change (front.graft .and tree).truth ctxlist =
      (front.truth ctxlist && tree.truth ctxlist) ↔ _
    rw [Expression.truth_graft_and]
    change _ ↔ front.truth ctxlist = true ∨ ∃ other : Expression, tree.yield = other.yield ∧
      other.truthAfter ctxlist false = false
    have unique : (∃ other : Expression, tree.yield = other.yield ∧
        other.truthAfter ctxlist false = false) ↔ tree.truthAfter ctxlist false = false := by
      constructor
      · rintro ⟨other, equal, holdsNot⟩
        have equals : Query.expression tree = .expression other := Query.yield_injective equal
        cases equals
        exact holdsNot
      · exact fun holdsNot => ⟨tree, rfl, holdsNot⟩
    rw [unique]
    cases front.truth ctxlist with
    | true => simp [Expression.truthAfter_true]
    | false => simp
  · rw [if_neg bracket, if_neg bracket]
    by_cases wraps : Wraps signedChar second.val
    · refine iff_of_true ?_ wraps
      cases query2 with
      | empty => exact absurd parsed2 wraps.2
      | expression tree =>
        have scanned : scanString signedChar second.val = (tree.yield, none) :=
          Prod.ext parsed2 wraps.1
        rw [scan_wrapped scanned []]
        refine ⟨.expression (front.graft .and (.term (.paren tree))), ?_, ?_⟩
        · rw [← (grafted (.term (.paren tree)) _).mpr rfl]
          simp [lexFrom, lexEnd]
        · simp [Query.truth, Expression.truth_graft_and, Expression.truthAfter, Term.truth]
    · refine iff_of_false ?_ wraps
      rintro ⟨query, equal, -⟩
      exact (unfinished_of_not_wraps wraps parsed2 []).not_query_behind front query equal

/-- The combined string, in the order in which the two expressions were joined. -/
private theorem joined_iff (positive : ∀ ctx ∈ ctxlist.getD [], 1 ≤ ctx.priority)
    {first second : CString} (some1 : first.val ≠ "") (some2 : second.val ≠ "")
    (valid1 : (validExpression signedChar (some first.val)).1 = true)
    (valid2 : (validExpression signedChar (some second.val)).1 = true) :
    Conjoins signedChar ctxlist
        (stringJoin " & " (bracketed first.val) (bracketed second.val)) first.val second.val ↔
      Fits signedChar ctxlist first.val second.val := by
  obtain ⟨query1, parsed1⟩ := (validExpression_iff_query signedChar first.val).mp valid1
  obtain ⟨query2, parsed2⟩ := (validExpression_iff_query signedChar second.val).mp valid2
  have truth1 := holds_of_yield positive parsed1
  have truth2 := holds_of_yield positive parsed2
  rw [conjoins_iff positive parsed1 parsed2, scan_join, Fits]
  -- an expression in brackets is not put into brackets again
  by_cases bracket : beginsWithBracket first.val = true
  · rw [if_pos bracket]
    obtain ⟨tree, rfl⟩ := tree_of_bracket bracket parsed1
    have front : wrapped first.val tree = tree := if_pos bracket
    by_cases clean : Clean signedChar first.val
    · have scanned : scanString signedChar first.val = (tree.yield, none) := Prod.ext parsed1 clean
      rw [scan_front some1 scanned, front, or_iff_left (fun broken => broken.1 clean),
        and_iff_right clean]
      exact behind_iff some2 truth1 parsed2
    · obtain ⟨errmsg, failed⟩ := Option.ne_none_iff_exists'.mp clean
      have scanned : lexFrom signedChar .initial first.val.toList = (tree.yield, some errmsg) := by
        rw [← scan_eq]
        exact Prod.ext parsed1 failed
      have same := bracketed_of_bracket bracket
      rw [or_iff_right (fun whole => clean whole.1), and_iff_right clean]
      have joined := scan_join signedChar first second
      rw [← scan_join, same]
      rw [same] at joined
      rcases lexFrom_error_append scanned (' ' :: '&' :: ' ' :: (bracketed second.val).toList) with
        ⟨error, still⟩ | ⟨value, others, error, closed⟩
      · -- nothing of the second expression is read
        rw [joined, still, parsed1, and_iff_right ⟨error, rfl⟩, truth1, truth2]
        constructor
        · rintro ⟨query, equal, conjunction⟩ true1
          have same : query = .expression tree := Query.yield_injective equal.symm
          subst same
          rw [true1, Bool.true_and] at conjunction
          exact conjunction.symm
        · intro implied
          refine ⟨.expression tree, rfl, ?_⟩
          cases true1 : (Query.expression tree).truth ctxlist with
          | true => rw [implied true1, Bool.and_self]
          | false => rw [Bool.false_and]
      · -- the string which was left open is a value behind a query
        rw [joined, closed]
        refine iff_of_false ?_ ?_
        · rintro ⟨query, equal, -⟩
          exact value_behind_not_query tree value others query equal
        · rintro ⟨⟨errmsg, equal⟩, -⟩
          rw [parsed1, Prod.mk.injEq] at equal
          exact value_behind_not_query tree value others (.expression tree) equal.1
  -- otherwise brackets are put around the first one
  · rw [if_neg bracket]
    by_cases wraps : Wraps signedChar first.val
    · rw [and_iff_right wraps]
      cases query1 with
      | empty => exact absurd parsed1 wraps.2
      | expression tree =>
        have scanned : scanString signedChar first.val = (tree.yield, none) :=
          Prod.ext parsed1 wraps.1
        have front : wrapped first.val tree = .term (.paren tree) := if_neg bracket
        rw [scan_front some1 scanned, front]
        exact behind_iff some2 truth1 parsed2
    · refine iff_of_false ?_ fun fits => wraps fits.1
      rintro ⟨query, equal, -⟩
      rw [bracketed_toList some1, if_neg bracket, List.cons_append, List.append_assoc,
        List.singleton_append] at equal
      exact (unfinished_of_not_wraps wraps parsed1 _).not_query query equal

/-- Two expressions combine well when nothing has to be joined, or when the two
parts fit in the order in which they are joined. -/
def CombinesWell (compare : String → String → Int) (signedChar : Bool)
    (ctxlist : LCFGContextList) (expr1 expr2 : String) : Prop :=
  expr1 = "" ∨ expr2 = "" ∨ bracketed expr1 = bracketed expr2 ∨
    if compare (bracketed expr1) (bracketed expr2) = -1 then
      Fits signedChar ctxlist expr1 expr2
    else Fits signedChar ctxlist expr2 expr1

private theorem Conjoins.comm {combined expr1 expr2 : String} :
    Conjoins signedChar ctxlist combined expr1 expr2 ↔
      Conjoins signedChar ctxlist combined expr2 expr1 := by
  rw [Conjoins, Conjoins, Bool.and_comm]

private theorem conjoins_self {expr : String}
    (valid : (validExpression signedChar (some expr)).1 = true) :
    Conjoins signedChar ctxlist expr expr expr :=
  ⟨valid, (Bool.and_self _).symm⟩

/-- An expression and the same one in brackets, when both are valid, mean the same. -/
private theorem holds_bracketed (positive : ∀ ctx ∈ ctxlist.getD [], 1 ≤ ctx.priority)
    {expr : CString} (some_ : expr.val ≠ "")
    (valid : (validExpression signedChar (some expr.val)).1 = true)
    (validAlso : (validExpression signedChar (some (bracketed expr.val))).1 = true) :
    holds signedChar ctxlist (bracketed expr.val) = holds signedChar ctxlist expr.val := by
  by_cases bracket : beginsWithBracket expr.val = true
  · rw [bracketed_of_bracket bracket]
  · obtain ⟨query, parsed⟩ := (validExpression_iff_query signedChar expr.val).mp valid
    obtain ⟨other, parsedAlso⟩ := (validExpression_iff_query signedChar _).mp validAlso
    have chars : (bracketed expr.val).toList = '(' :: (expr.val.toList ++ [')']) := by
      rw [bracketed_toList some_, if_neg bracket]
    have whole := parsedAlso
    rw [scan_eq ⟨_, bracketed_property expr⟩, chars] at whole
    by_cases wraps : Wraps signedChar expr.val
    · cases query with
      | empty => exact absurd parsed wraps.2
      | expression tree =>
        rw [scan_wrapped (Prod.ext parsed wraps.1) []] at whole
        have same : other = .expression (.term (.paren tree)) := by
          apply Query.yield_injective
          rw [← whole]
          simp [lexFrom, lexEnd, Query.yield]
        rw [holds_of_yield positive parsed, holds_of_yield positive parsedAlso, same]
        rfl
    · exact absurd whole ((unfinished_of_not_wraps wraps parsed []).not_query other)

/-- Two expressions which differ only by the brackets. -/
private theorem conjoins_bracketed (positive : ∀ ctx ∈ ctxlist.getD [], 1 ≤ ctx.priority)
    {expr1 expr2 : CString} (some1 : expr1.val ≠ "") (some2 : expr2.val ≠ "")
    (valid1 : (validExpression signedChar (some expr1.val)).1 = true)
    (valid2 : (validExpression signedChar (some expr2.val)).1 = true)
    (differ : expr1.val ≠ expr2.val) (safe : bracketed expr1.val = bracketed expr2.val) :
    Conjoins signedChar ctxlist (bracketed expr1.val) expr1.val expr2.val := by
  have valid : (validExpression signedChar (some (bracketed expr1.val))).1 = true := by
    by_cases bracket1 : beginsWithBracket expr1.val = true
    · rwa [bracketed_of_bracket bracket1]
    by_cases bracket2 : beginsWithBracket expr2.val = true
    · rwa [safe, bracketed_of_bracket bracket2]
    -- the same text would stand between the brackets
    have chars := congrArg String.toList safe
    rw [bracketed_toList some1, bracketed_toList some2, if_neg bracket1, if_neg bracket2] at chars
    exact absurd (String.toList_inj.mp (List.append_cancel_right (List.cons.inj chars).2)) differ
  have valid' := valid
  rw [safe] at valid'
  refine ⟨valid, ?_⟩
  rw [← holds_bracketed positive some1 valid1 valid, ← holds_bracketed positive some2 valid2 valid',
    safe, Bool.and_self]

end Conjunction

/-- The combination of two valid expressions is a valid expression for their
conjunction just when they combine well. -/
theorem combineExpressions_iff (compare : String → String → Int)
    (equal : ∀ a b, compare a b = 0 ↔ a = b) (signedChar : Bool) (ctxlist : LCFGContextList)
    (positive : ∀ ctx ∈ ctxlist.getD [], 1 ≤ ctx.priority) (expr1 expr2 : CString)
    (valid1 : (validExpression signedChar (some expr1.val)).1 = true)
    (valid2 : (validExpression signedChar (some expr2.val)).1 = true) :
    Conjoins signedChar ctxlist (combineExpressions compare (some expr1.val) (some expr2.val))
        expr1.val expr2.val ↔
      CombinesWell compare signedChar ctxlist expr1.val expr2.val := by
  -- the empty expression holds
  have true_ : holds signedChar ctxlist "" = true := by
    have parsed : (scanString signedChar "").1 = Query.empty.yield := rfl
    rw [holds_of_yield positive parsed]
    rfl
  rw [CombinesWell, combineExpressions, isEmpty, isEmpty, Option.getD_some, Option.getD_some]
  by_cases empty1 : expr1.val = ""
  · refine iff_of_true ?_ (.inl empty1)
    have combined : (if expr2.val == "" then "" else expr2.val) = expr2.val := by
      by_cases empty2 : expr2.val = "" <;> simp [empty2]
    rw [if_pos (beq_iff_eq.mpr empty1), combined, empty1]
    exact ⟨valid2, by rw [true_, Bool.true_and]⟩
  rw [if_neg (fun same => empty1 (beq_iff_eq.mp same)), or_iff_right empty1]
  by_cases empty2 : expr2.val = ""
  · refine iff_of_true ?_ (.inl empty2)
    rw [if_pos (beq_iff_eq.mpr empty2), empty2]
    exact ⟨valid1, by rw [true_, Bool.and_true]⟩
  rw [if_neg (fun same => empty2 (beq_iff_eq.mp same)), or_iff_right empty2]
  by_cases identical : expr1.val = expr2.val
  · rw [if_pos ((equal _ _).mpr identical)]
    refine iff_of_true ?_ (.inl (congrArg bracketed identical))
    rw [← identical]
    exact conjoins_self valid1
  rw [if_neg (fun same => identical ((equal _ _).mp same))]
  change Conjoins signedChar ctxlist
    (if compare (bracketed expr1.val) (bracketed expr2.val) = 0 then bracketed expr1.val
      else if compare (bracketed expr1.val) (bracketed expr2.val) = -1 then
        stringJoin " & " (bracketed expr1.val) (bracketed expr2.val)
      else stringJoin " & " (bracketed expr2.val) (bracketed expr1.val)) expr1.val expr2.val ↔ _
  -- both are the same once they are in brackets
  by_cases safe : bracketed expr1.val = bracketed expr2.val
  · rw [if_pos ((equal _ _).mpr safe)]
    refine iff_of_true ?_ (.inl safe)
    exact conjoins_bracketed positive empty1 empty2 valid1 valid2 identical safe
  rw [if_neg (fun same => safe ((equal _ _).mp same)), or_iff_right safe]
  split
  · exact joined_iff positive empty1 empty2 valid1 valid2
  · rw [Conjoins.comm]
    exact joined_iff positive empty2 empty1 valid2 valid1

def allSet : LCFGContextList :=
  some [⟨some "a", some "yes", 1⟩, ⟨some "b", some "yes", 1⟩, ⟨some "c", some "yes", 1⟩]

/-- The difference of two characters is as good a result of `strcmp` as its sign. -/
def doubledStrcmp (a b : String) : Int := 2 * strcmp a b

def sampleOr : CString := .ofString "a | b" (by decide +kernel)

def sampleNot : CString := .ofString "!c" (by decide +kernel)

theorem sample_conjoins :
    Conjoins true allSet (combineExpressions strcmp (some sampleOr.val) (some sampleNot.val))
      sampleOr.val sampleNot.val := by
  refine (combineExpressions_iff strcmp strcmp_eq_zero true allSet (by decide) sampleOr sampleNot
    (by decide +kernel) (by decide +kernel)).mpr ?_
  have orWraps : Wraps true sampleOr.val := by unfold Wraps Clean; decide +kernel
  have notWraps : Wraps true sampleNot.val := by unfold Wraps Clean; decide +kernel
  refine .inr (.inr (.inr ?_))
  rw [if_neg (by decide +kernel), Fits, if_neg (by decide +kernel), FitsBehind,
    if_neg (by decide +kernel)]
  exact ⟨notWraps, orWraps⟩

theorem sample_conjoins_not :
    (validExpression true (some "(a)^(b)")).1 = true ∧
      (validExpression true (some "(a)^(c)")).1 = true ∧
      combineExpressions strcmp (some "(a)^(b)") (some "(a)^(c)") = "(a)^(b) & (a)^(c)" ∧
      combineExpressions doubledStrcmp (some "(a)^(b)") (some "(a)^(c)") = "(a)^(c) & (a)^(b)" ∧
      ¬Conjoins true allSet (combineExpressions strcmp (some "(a)^(b)") (some "(a)^(c)"))
        "(a)^(b)" "(a)^(c)" ∧
      ¬Conjoins true allSet (combineExpressions doubledStrcmp (some "(a)^(b)") (some "(a)^(c)"))
        "(a)^(b)" "(a)^(c)" := by
  unfold Conjoins
  decide +kernel

end Lcfg.Context
