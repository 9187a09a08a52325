import LcfgCore.Context.Grammar

/-!
# The parser of context expressions

The parser which is generated from `parser.y`, as a machine that shifts one
token after another. It accepts the sentences of the grammar and no others, and
finds their only derivation.
-/
namespace Lcfg.Context

/-! ## The machine -/

/-- What stands before a term: the left side of a connective, if there is one. -/
abbrev Left := Option (Expression × Connective)

/-- An open parenthesis: what stands before it, and whether it is negated. -/
structure Frame where
  left : Left
  negated : Bool

/-- What was read since the innermost open parenthesis. -/
inductive ParseState where
  | operand (left : Left)
  | afterNot (left : Left)
  | afterName (left : Left) (name : String)
  | afterCmp (left : Left) (name : String) (comparison : Comparison)
  | afterTerm (expression : Expression)

/-- Reduces a term, and the left side before it, to an expression. -/
def Left.reduce : Left → Term → Expression
  | none, term => .term term
  | some (left, connective), term => .binary left connective term

def Frame.close (frame : Frame) (expression : Expression) : Expression :=
  frame.left.reduce (if frame.negated then .notParen expression else .paren expression)

def shiftAfterTerm (stack : List Frame) (expression : Expression) :
    Token → Option (List Frame × ParseState)
  | .op connective => some (stack, .operand (some (expression, connective)))
  | .parenRight =>
    match stack with
    | [] => none
    | frame :: outer => some (outer, .afterTerm (frame.close expression))
  | _ => none

/-- The configuration after one more token, `none` being a syntax error. -/
def shift (stack : List Frame) : ParseState → Token → Option (List Frame × ParseState)
  | .operand left, .ctxName name => some (stack, .afterName left name)
  | .operand left, .opNot => some (stack, .afterNot left)
  | .operand left, .parenLeft => some (⟨left, false⟩ :: stack, .operand none)
  | .operand _, _ => none
  | .afterNot left, .ctxName name => some (stack, .afterTerm (left.reduce (.notName name)))
  | .afterNot left, .parenLeft => some (⟨left, true⟩ :: stack, .operand none)
  | .afterNot _, _ => none
  | .afterName left name, .cmp comparison => some (stack, .afterCmp left name comparison)
  -- without a comparison the name alone is the term
  | .afterName left name, token => shiftAfterTerm stack (left.reduce (.name name)) token
  | .afterCmp left name comparison, .valueString value =>
    some (stack, .afterTerm (left.reduce (.compare name comparison (.string value))))
  | .afterCmp left name comparison, .ctxName value =>
    some (stack, .afterTerm (left.reduce (.compare name comparison (.name value))))
  | .afterCmp left name comparison, .valueBool value =>
    some (stack, .afterTerm (left.reduce (.compare name comparison (.bool value))))
  | .afterCmp _ _ _, _ => none
  | .afterTerm expression, token => shiftAfterTerm stack expression token

/-- The query which was read when nothing is left open. -/
def complete : List Frame → ParseState → Option Query
  | [], .operand none => some .empty
  | [], .afterName left name => some (.expression (left.reduce (.name name)))
  | [], .afterTerm expression => some (.expression expression)
  | _, _ => none

/-- A parse is accepted, or fails at a token (`none` is `END`). A failing parser
has reduced what was a complete query before that token, and run its action. -/
inductive Parse where
  | accepted (query : Query)
  | rejected (token : Option Token) (reduced : Option Query)

def parseFrom (stack : List Frame) (state : ParseState) : List Token → Parse
  | [] =>
    match complete stack state with
    | some query => .accepted query
    | none => .rejected none none
  | token :: rest =>
    match shift stack state token with
    | some (stack, state) => parseFrom stack state rest
    | none => .rejected (some token) (complete stack state)

def parse (tokens : List Token) : Parse := parseFrom [] (.operand none) tokens

/-! ## What was read so far -/

def Left.yield : Left → List Token
  | none => []
  | some (left, connective) => left.yield ++ [.op connective]

def Frame.yield (frame : Frame) : List Token :=
  frame.left.yield ++ (if frame.negated then [.opNot, .parenLeft] else [.parenLeft])

def ParseState.yield : ParseState → List Token
  | .operand left => left.yield
  | .afterNot left => left.yield ++ [.opNot]
  | .afterName left name => left.yield ++ [.ctxName name]
  | .afterCmp left name comparison => left.yield ++ [.ctxName name, .cmp comparison]
  | .afterTerm expression => expression.yield

/-- The tokens which led to a configuration; the stack has its top first. -/
def configYield (stack : List Frame) (state : ParseState) : List Token :=
  (stack.reverse.flatMap Frame.yield) ++ state.yield

@[simp] theorem Left.yield_reduce (left : Left) (term : Term) :
    (left.reduce term).yield = left.yield ++ term.yield := by
  cases left with
  | none => simp [reduce, yield, Expression.yield]
  | some pair => simp [reduce, yield, Expression.yield]

@[simp] theorem Frame.yield_close (frame : Frame) (expression : Expression) :
    (frame.close expression).yield = frame.yield ++ expression.yield ++ [.parenRight] := by
  cases negated : frame.negated <;> simp [close, yield, Term.yield, negated]

private theorem configYield_push (stack : List Frame) (frame : Frame) :
    configYield (frame :: stack) (.operand none) =
      (stack.reverse.flatMap Frame.yield) ++ frame.yield := by
  simp [configYield, ParseState.yield, Left.yield]

private theorem shiftAfterTerm_yield {stack stack' : List Frame} {state' : ParseState}
    {expression : Expression} {token : Token}
    (shifted : shiftAfterTerm stack expression token = some (stack', state')) :
    configYield stack' state' = configYield stack (.afterTerm expression) ++ [token] := by
  cases token with
  | op connective =>
    cases shifted
    simp [configYield, ParseState.yield, Left.yield]
  | parenRight =>
    cases stack with
    | nil => cases shifted
    | cons frame outer =>
      cases shifted
      simp [configYield, ParseState.yield]
  | _ => cases shifted

/-- Step lemma: each shift accounts for its token. -/
theorem shift_yield {stack stack' : List Frame} {state state' : ParseState} {token : Token}
    (shifted : shift stack state token = some (stack', state')) :
    configYield stack' state' = configYield stack state ++ [token] := by
  cases state with
  | operand left =>
    cases token with
    | ctxName name =>
      cases shifted
      simp [configYield, ParseState.yield]
    | opNot =>
      cases shifted
      simp [configYield, ParseState.yield]
    -- a bracket opens a frame, which stands for the tokens before it
    | parenLeft =>
      cases shifted
      rw [configYield_push]
      simp [configYield, ParseState.yield, Frame.yield]
    | _ => cases shifted
  | afterNot left =>
    cases token with
    | ctxName name =>
      cases shifted
      simp [configYield, ParseState.yield, Term.yield]
    | parenLeft =>
      cases shifted
      rw [configYield_push]
      simp [configYield, ParseState.yield, Frame.yield]
    | _ => cases shifted
  | afterName left name =>
    -- after a name comes a comparison, or else the name is a term
    by_cases compares : ∃ comparison, token = .cmp comparison
    · obtain ⟨comparison, rfl⟩ := compares
      cases shifted
      simp [configYield, ParseState.yield]
    · have term : shiftAfterTerm stack (left.reduce (.name name)) token = some (stack', state') := by
        cases token with
        | cmp comparison => exact absurd ⟨comparison, rfl⟩ compares
        | _ => exact shifted
      rw [shiftAfterTerm_yield term]
      simp [configYield, ParseState.yield, Term.yield]
  | afterCmp left name comparison =>
    cases token with
    | valueString value =>
      cases shifted
      simp [configYield, ParseState.yield, Term.yield, Operand.token]
    | ctxName value =>
      cases shifted
      simp [configYield, ParseState.yield, Term.yield, Operand.token]
    | valueBool value =>
      cases shifted
      simp [configYield, ParseState.yield, Term.yield, Operand.token]
    | _ => cases shifted
  | afterTerm expression => exact shiftAfterTerm_yield shifted

private theorem complete_yield {stack : List Frame} {state : ParseState} {query : Query}
    (completed : complete stack state = some query) : configYield stack state = query.yield := by
  cases stack with
  | nil =>
    cases state with
    | operand left =>
      cases left with
      | none =>
        cases completed
        rfl
      | some pair => cases completed
    | afterName left name =>
      cases completed
      simp [configYield, ParseState.yield, Query.yield, Term.yield]
    | afterTerm expression =>
      cases completed
      simp [configYield, ParseState.yield, Query.yield]
    | _ => cases completed
  | cons frame outer => cases state <;> cases completed

/-- Soundness: an accepted token list is the sentence of the derivation found. -/
theorem parseFrom_sound {tokens : List Token} {query : Query} {stack : List Frame}
    {state : ParseState} (accepted : parseFrom stack state tokens = .accepted query) :
    configYield stack state ++ tokens = query.yield := by
  induction tokens generalizing stack state with
  | nil =>
    unfold parseFrom at accepted
    cases completed : complete stack state with
    | none => simp [completed] at accepted
    | some found =>
      simp only [completed, Parse.accepted.injEq] at accepted
      rw [List.append_nil, complete_yield completed, accepted]
  | cons token rest ih =>
    unfold parseFrom at accepted
    cases shifted : shift stack state token with
    | none => simp [shifted] at accepted
    | some config =>
      simp only [shifted] at accepted
      rw [← ih accepted, shift_yield shifted, List.append_assoc, List.singleton_append]

/-! ## Every sentence is accepted -/

/-- A comparison would continue a term which is only a name. -/
def Continues (rest : List Token) : Prop := ∃ comparison more, rest = .cmp comparison :: more

/-- Unless a comparison follows, a name is a term. -/
private theorem parseFrom_afterName (stack : List Frame) (left : Left) (name : String)
    {rest : List Token} (ends : ¬Continues rest) :
    parseFrom stack (.afterName left name) rest =
      parseFrom stack (.afterTerm (left.reduce (.name name))) rest := by
  cases rest with
  | nil => cases stack <;> rfl
  | cons token more =>
    cases token with
    | cmp comparison => exact absurd ⟨comparison, more, rfl⟩ ends
    | _ => cases stack <;> rfl

mutual

/-- Completeness, by recursion on the derivation: in an open context its
sentence is read as one expression. -/
theorem Expression.parseFrom_yield (stack : List Frame) {rest : List Token}
    (ends : ¬Continues rest) : ∀ expression : Expression,
      parseFrom stack (.operand none) (expression.yield ++ rest) =
        parseFrom stack (.afterTerm expression) rest
  | .binary left connective right => by
    rw [Expression.yield, List.append_assoc, List.cons_append]
    -- what follows the left side is a connective, and no comparison
    rw [left.parseFrom_yield stack (by rintro ⟨comparison, more, equal⟩; cases equal)]
    exact right.parseFrom_yield stack (some (left, connective)) ends
  | .term term => term.parseFrom_yield stack none ends

theorem Term.parseFrom_yield (stack : List Frame) (left : Left) {rest : List Token}
    (ends : ¬Continues rest) : ∀ term : Term,
      parseFrom stack (.operand left) (term.yield ++ rest) =
        parseFrom stack (.afterTerm (left.reduce term)) rest
  | .paren expression => by
    rw [Term.yield, List.cons_append, List.append_assoc, List.singleton_append]
    change parseFrom (⟨left, false⟩ :: stack) (.operand none) _ = _
    rw [expression.parseFrom_yield _ (by rintro ⟨comparison, more, equal⟩; cases equal)]
    rfl
  | .notParen expression => by
    rw [Term.yield, List.cons_append, List.cons_append, List.append_assoc, List.singleton_append]
    change parseFrom (⟨left, true⟩ :: stack) (.operand none) _ = _
    rw [expression.parseFrom_yield _ (by rintro ⟨comparison, more, equal⟩; cases equal)]
    rfl
  | .name name => parseFrom_afterName stack left name ends
  | .notName name => rfl
  | .compare name comparison operand => by
    cases operand <;> rfl

end

/-- The parser accepts exactly the sentences of the grammar. -/
theorem parse_eq_accepted_iff (tokens : List Token) (query : Query) :
    parse tokens = .accepted query ↔ tokens = query.yield := by
  constructor
  · intro accepted
    simpa [configYield, ParseState.yield, Left.yield] using parseFrom_sound accepted
  · rintro rfl
    cases query with
    | empty => rfl
    | expression tree =>
      have ends : ¬Continues [] := by rintro ⟨comparison, more, equal⟩; cases equal
      have read := tree.parseFrom_yield [] ends
      rw [List.append_nil] at read
      exact read

/-- The grammar is unambiguous. -/
theorem Query.yield_injective : Function.Injective Query.yield := by
  intro query other same
  have accepted := (parse_eq_accepted_iff _ query).mpr rfl
  rw [same, (parse_eq_accepted_iff _ other).mpr rfl] at accepted
  cases accepted
  rfl

end Lcfg.Context
