import LcfgCore.Context.Scanner

/-!
# The declared precedences

`parser.y` declares `%left OP_OR`, `%left OP_XOR` and `%left OP_AND`, in this
order, but each connective has its own production `expression OP term`, where
nothing is left for a precedence to decide. This module compares the value of
the grammar with the reading that the declarations ask for.
-/
namespace Lcfg.Context

def Connective.precedence : Connective → Nat
  | .or => 0
  | .xor => 1
  | .and => 2

def Term.bracketFree : Term → Bool
  | .paren _ | .notParen _ => false
  | .name _ | .notName _ | .compare _ _ _ => true

/-! ## Flat expressions and their two readings -/

/-- Terms which are joined by connectives, as they are written. -/
structure Chain where
  first : Term
  rest : List (Connective × Term)

namespace Chain

def tokens (chain : Chain) : List Token :=
  chain.first.yield ++ chain.rest.flatMap fun step => .op step.1 :: step.2.yield

def connectives (chain : Chain) : List Connective := chain.rest.map Prod.fst

def bracketFree (chain : Chain) : Bool :=
  chain.first.bracketFree && chain.rest.all fun step => step.2.bracketFree

/-- The derivation of the grammar, which takes one term after another. -/
def expression (chain : Chain) : Expression :=
  chain.rest.foldl (fun left step => .binary left step.1 step.2) (.term chain.first)

end Chain

inductive Reading where
  | leaf (term : Term)
  | node (left : Reading) (connective : Connective) (right : Reading)

namespace Reading

/-- A connective with a higher precedence than the one before it takes the right
side of that one; any other takes all that was read. -/
def extend (connective : Connective) (term : Term) : Reading → Reading
  | .leaf first => .node (.leaf first) connective (.leaf term)
  | .node left earlier right =>
    if earlier.precedence < connective.precedence then
      .node left earlier (right.extend connective term)
    else .node (.node left earlier right) connective (.leaf term)

def yield : Reading → List Token
  | .leaf term => term.yield
  | .node left connective right => left.yield ++ .op connective :: right.yield

def truth (ctxlist : LCFGContextList) : Reading → Bool
  | .leaf term => term.truth ctxlist
  | .node left connective right =>
    connective.truth (left.truth ctxlist) (right.truth ctxlist)

/-- A term binds more tightly than every connective. -/
def precedence : Reading → Nat
  | .leaf _ => 3
  | .node _ connective _ => connective.precedence

/-- Each connective stands below those with a higher precedence, and of equal
ones the last is on top. -/
def Ordered : Reading → Prop
  | .leaf _ => True
  | .node left connective right =>
    left.Ordered ∧ right.Ordered ∧ connective.precedence ≤ left.precedence ∧
      connective.precedence < right.precedence

/-- The truth of what stands before the last group of connectives that bind at
least as tightly as the given one, with that group taken to be false. -/
def outer (ctxlist : LCFGContextList) (connective : Connective) : Reading → Bool
  | .leaf _ => false
  | .node left earlier right =>
    if earlier.precedence < connective.precedence then
      earlier.truth (left.truth ctxlist) (right.outer ctxlist connective)
    else false

end Reading

/-- The expression as the declarations ask for it to be read. -/
def Chain.reading (chain : Chain) : Reading :=
  chain.rest.foldl (fun reading step => reading.extend step.1 step.2) (.leaf chain.first)

/-! ## The readings are of the tokens as they are written -/

private theorem foldl_yield (steps : List (Connective × Term)) (left : Expression) :
    (steps.foldl (fun left step => .binary left step.1 step.2) left).yield =
      left.yield ++ steps.flatMap fun step => .op step.1 :: step.2.yield := by
  induction steps generalizing left with
  | nil => simp
  | cons step steps ih => simp [ih, Expression.yield]

theorem Chain.expression_yield (chain : Chain) : chain.expression.yield = chain.tokens := by
  rw [expression, foldl_yield, Expression.yield, tokens]

theorem Chain.parse_tokens (chain : Chain) :
    parse chain.tokens = .accepted (.expression chain.expression) := by
  rw [parse_eq_accepted_iff, Query.yield, chain.expression_yield]

namespace Reading

theorem yield_extend (connective : Connective) (term : Term) (reading : Reading) :
    (reading.extend connective term).yield = reading.yield ++ .op connective :: term.yield := by
  induction reading with
  | leaf first => rfl
  | node left earlier right _ ih =>
    by_cases tighter : earlier.precedence < connective.precedence
    · simp [extend, yield, tighter, ih]
    · simp [extend, yield, tighter]

theorem precedence_extend_ge (connective : Connective) (term : Term) (reading : Reading) :
    min reading.precedence connective.precedence ≤ (reading.extend connective term).precedence := by
  cases reading with
  | leaf first => exact min_le_right _ _
  | node left earlier right =>
    rw [extend]
    split
    · exact min_le_left _ _
    · exact min_le_right _ _

theorem Ordered.extend (connective : Connective) (term : Term) {reading : Reading}
    (ordered : reading.Ordered) : (reading.extend connective term).Ordered := by
  have below : connective.precedence < 3 := by cases connective <;> decide
  induction reading with
  | leaf first =>
    refine ⟨trivial, trivial, ?_, below⟩
    exact le_of_lt below
  | node left earlier right _ ih =>
    obtain ⟨onLeft, onRight, least, less⟩ := ordered
    rw [Reading.extend]
    split
    next tighter =>
      refine ⟨onLeft, ih onRight, least, ?_⟩
      exact lt_of_lt_of_le (lt_min less tighter) (precedence_extend_ge connective term right)
    next loose =>
      refine ⟨⟨onLeft, onRight, least, less⟩, trivial, ?_, below⟩
      exact not_lt.mp loose

end Reading

/-- The declared reading keeps the order of the tokens and the precedences. -/
theorem Chain.reading_spec (chain : Chain) :
    chain.reading.yield = chain.tokens ∧ chain.reading.Ordered := by
  have spec : ∀ (steps : List (Connective × Term)) (reading : Reading), reading.Ordered →
      let read := steps.foldl (fun reading step => reading.extend step.1 step.2) reading
      read.yield = reading.yield ++ (steps.flatMap fun step => .op step.1 :: step.2.yield) ∧
        read.Ordered := by
    intro steps
    induction steps with
    | nil => intro reading ordered; exact ⟨by simp, ordered⟩
    | cons step steps ih =>
      intro reading ordered
      obtain ⟨same, kept⟩ := ih _ (ordered.extend step.1 step.2)
      refine ⟨?_, kept⟩
      simp only [List.foldl_cons, List.flatMap_cons]
      rw [same, Reading.yield_extend, List.append_assoc]
  exact spec chain.rest (.leaf chain.first) trivial

/-! ## When the readings agree -/

section Agreement

variable (ctxlist : LCFGContextList)

namespace Reading

/-- A false term makes the last conjunction false. -/
theorem truth_extend_and (term : Term) (reading : Reading) :
    (reading.extend .and term).truth ctxlist =
      if term.truth ctxlist then reading.truth ctxlist else reading.outer ctxlist .and := by
  induction reading with
  | leaf first =>
    cases value : term.truth ctxlist <;> simp [extend, truth, outer, Connective.truth, value]
  | node left earlier right _ ih =>
    by_cases tighter : earlier.precedence < Connective.and.precedence
    · simp only [extend, truth, outer, if_pos tighter, ih]
      cases term.truth ctxlist <;> rfl
    · cases value : term.truth ctxlist <;>
        simp [extend, truth, outer, if_neg tighter, Connective.truth, value]

/-- A true term negates the last sum, which decides unless a disjunct before it holds. -/
theorem truth_extend_xor (term : Term) (reading : Reading) :
    (reading.extend .xor term).truth ctxlist =
      if term.truth ctxlist then reading.outer ctxlist .xor || !reading.truth ctxlist
      else reading.truth ctxlist := by
  induction reading with
  | leaf first =>
    cases value : term.truth ctxlist <;> simp [extend, truth, outer, Connective.truth, value]
  | node left earlier right _ ih =>
    cases earlier with
    | or =>
      have tighter : Connective.or.precedence < Connective.xor.precedence := by decide
      simp only [extend, truth, outer, if_pos tighter, ih, Connective.truth]
      cases term.truth ctxlist <;> cases left.truth ctxlist <;> simp
    | xor =>
      cases value : term.truth ctxlist <;> simp [extend, truth, outer, Connective.truth, value]
    | and =>
      have loose : ¬Connective.and.precedence < Connective.xor.precedence := by decide
      cases value : term.truth ctxlist <;>
        simp [extend, truth, outer, if_neg loose, Connective.truth, value]

theorem truth_extend_or (term : Term) (reading : Reading) :
    (reading.extend .or term).truth ctxlist = (reading.truth ctxlist || term.truth ctxlist) := by
  cases reading <;> rfl

/-- A disjunct decides both readings when it holds; a false conjunct decides the
reading from left to right; and a true summand negates that one, though not the
declared reading behind a disjunct which holds. -/
def agreesAfter (reading : Reading) (agree : Bool) (connective : Connective) (term : Term) :
    Bool :=
  match connective with
  | .or => term.truth ctxlist || agree
  | .and => if term.truth ctxlist then agree else !reading.outer ctxlist .and
  | .xor => if term.truth ctxlist && reading.outer ctxlist .xor then !agree else agree

def agreesFrom (reading : Reading) (agree : Bool) : List (Connective × Term) → Bool
  | [] => agree
  | (connective, term) :: rest =>
    (reading.extend connective term).agreesFrom
      (reading.agreesAfter ctxlist agree connective term) rest

end Reading

def Chain.agrees (chain : Chain) : Bool :=
  (Reading.leaf chain.first).agreesFrom ctxlist true chain.rest

namespace Reading

theorem outer_xor_le (reading : Reading) (holds : reading.outer ctxlist .xor = true) :
    reading.truth ctxlist = true := by
  induction reading with
  | leaf first => cases holds
  | node left earlier right _ ih =>
    cases earlier with
    | or =>
      simp only [outer, if_pos (show Connective.or.precedence < Connective.xor.precedence by decide),
        Connective.truth, Bool.or_eq_true] at holds
      simp only [truth, Connective.truth, Bool.or_eq_true]
      exact holds.imp_right ih
    | xor => cases holds
    | and => cases holds

/-- Step lemma: one more term, in both readings. -/
theorem agreesAfter_eq (reading : Reading) (left : Expression) (connective : Connective)
    (term : Term) :
    ((Expression.binary left connective term).truth ctxlist ==
        (reading.extend connective term).truth ctxlist) =
      reading.agreesAfter ctxlist (left.truth ctxlist == reading.truth ctxlist) connective term := by
  cases connective with
  | or =>
    rw [truth_extend_or]
    simp only [Expression.truth, Connective.truth, agreesAfter]
    cases term.truth ctxlist <;> simp
  | xor =>
    rw [truth_extend_xor]
    simp only [Expression.truth, Connective.truth, agreesAfter]
    cases before : reading.outer ctxlist .xor with
    | true =>
      rw [outer_xor_le ctxlist reading before]
      cases term.truth ctxlist <;> cases left.truth ctxlist <;> rfl
    | false =>
      cases term.truth ctxlist <;> cases left.truth ctxlist <;> cases reading.truth ctxlist <;> rfl
  | and =>
    rw [truth_extend_and]
    simp only [Expression.truth, Connective.truth, agreesAfter]
    cases term.truth ctxlist <;> simp

/-- Run lemma: the rest of the expression. -/
theorem agreesFrom_eq (steps : List (Connective × Term)) (reading : Reading) (left : Expression) :
    reading.agreesFrom ctxlist (left.truth ctxlist == reading.truth ctxlist) steps =
      ((steps.foldl (fun left step => Expression.binary left step.1 step.2) left).truth ctxlist ==
        (steps.foldl (fun reading step => reading.extend step.1 step.2) reading).truth ctxlist) := by
  induction steps generalizing reading left with
  | nil => rfl
  | cons step steps ih =>
    rw [agreesFrom, ← agreesAfter_eq, ih]
    rfl

end Reading

theorem Chain.agrees_iff (chain : Chain) :
    chain.agrees ctxlist = true ↔
      chain.expression.truth ctxlist = chain.reading.truth ctxlist := by
  have run := Reading.agreesFrom_eq ctxlist chain.rest (.leaf chain.first) (.term chain.first)
  have start : ((Expression.term chain.first).truth ctxlist ==
      (Reading.leaf chain.first).truth ctxlist) = true := beq_self_eq_true _
  rw [start] at run
  rw [agrees, run, beq_iff_eq]
  rfl

end Agreement

/-! ## Which connectives may follow each other -/

/-- No connective stands behind one of lower precedence. -/
def Descending (connectives : List Connective) : Prop :=
  connectives.Pairwise fun earlier later => later.precedence ≤ earlier.precedence

/-- Each connective then takes all that was read, as the grammar does. -/
private theorem foldl_truth (ctxlist : LCFGContextList) (steps : List (Connective × Term))
    (reading : Reading) (left : Expression)
    (same : left.truth ctxlist = reading.truth ctxlist)
    (loose : ∀ step ∈ steps, step.1.precedence ≤ reading.precedence)
    (descending : Descending (steps.map Prod.fst)) :
    (steps.foldl (fun left step => Expression.binary left step.1 step.2) left).truth ctxlist =
      (steps.foldl (fun reading step => reading.extend step.1 step.2) reading).truth ctxlist := by
  induction steps generalizing reading left with
  | nil => exact same
  | cons step steps ih =>
    obtain ⟨before, after⟩ := List.pairwise_cons.mp descending
    have takes : reading.extend step.1 step.2 = .node reading step.1 (.leaf step.2) := by
      cases reading with
      | leaf first => rfl
      | node deeper earlier right =>
        exact if_neg (not_lt.mpr (loose step List.mem_cons_self))
    rw [List.foldl_cons, List.foldl_cons, takes]
    apply ih
    · simp only [Expression.truth, Reading.truth, same]
    · intro later member
      exact before later.1 (List.mem_map_of_mem member)
    · exact after

private theorem exists_ascent {connectives : List Connective}
    (unordered : ¬Descending connectives) :
    ∃ before first second after, connectives = before ++ first :: second :: after ∧
      first.precedence < second.precedence := by
  induction connectives with
  | nil => exact absurd List.Pairwise.nil unordered
  | cons connective rest ih =>
    by_cases descending : Descending rest
    · cases rest with
      | nil => exact absurd (List.pairwise_singleton _ _) unordered
      | cons next rest =>
        refine ⟨[], connective, next, rest, rfl, ?_⟩
        by_contra loose
        apply unordered
        refine List.pairwise_cons.mpr ⟨?_, descending⟩
        intro later member
        rcases List.mem_cons.mp member with rfl | further
        · exact not_lt.mp loose
        · exact le_trans ((List.pairwise_cons.mp descending).1 later further) (not_lt.mp loose)
    · obtain ⟨before, first, second, after, split, ascent⟩ := ih descending
      exact ⟨connective :: before, first, second, after, by rw [split]; rfl, ascent⟩

/-! An ascent is told apart by a single context which is set: every other term
leaves both readings as they are. -/

def singleContext : LCFGContextList := some [⟨some "a", some "yes", 1⟩]

private def neutral : Connective → Connective × Term
  | .or => (.or, .notName "a")
  | .xor => (.xor, .notName "a")
  | .and => (.and, .name "a")

private def contrary : Connective → Connective × Term
  | .or => (.or, .name "a")
  | .xor => (.xor, .name "a")
  | .and => (.and, .notName "a")

private theorem truth_on : (Term.name "a").truth singleContext = true := by decide +kernel

private theorem truth_off : (Term.notName "a").truth singleContext = false := by decide +kernel

namespace Reading

private theorem agreesFrom_append (ctxlist : LCFGContextList) (steps more : List (Connective × Term))
    (reading : Reading) (agree : Bool) :
    reading.agreesFrom ctxlist agree (steps ++ more) =
      (steps.foldl (fun reading step => reading.extend step.1 step.2) reading).agreesFrom ctxlist
        (reading.agreesFrom ctxlist agree steps) more := by
  induction steps generalizing reading agree with
  | nil => rfl
  | cons step steps ih => exact ih _ _

private theorem extend_neutral (connective : Connective) (reading : Reading) (agree : Bool) :
    (reading.extend (neutral connective).1 (neutral connective).2).truth singleContext =
        reading.truth singleContext ∧
      reading.agreesAfter singleContext agree (neutral connective).1 (neutral connective).2 =
        agree := by
  cases connective with
  | or =>
    simp only [neutral, agreesAfter, truth_extend_or, truth_off, Bool.or_false, Bool.false_or,
      and_self]
  | xor => simp [neutral, agreesAfter, truth_extend_xor, truth_off]
  | and => simp [neutral, agreesAfter, truth_extend_and, truth_on]

private theorem agreesFrom_neutral (connectives : List Connective) (reading : Reading)
    (agree : Bool) :
    ((connectives.map neutral).foldl (fun reading step => reading.extend step.1 step.2)
        reading).truth singleContext = reading.truth singleContext ∧
      reading.agreesFrom singleContext agree (connectives.map neutral) = agree := by
  induction connectives generalizing reading agree with
  | nil => exact ⟨rfl, rfl⟩
  | cons connective rest ih =>
    obtain ⟨truth, kept⟩ := extend_neutral connective reading agree
    obtain ⟨truths, same⟩ := ih (reading.extend (neutral connective).1 (neutral connective).2)
      (reading.agreesAfter singleContext agree (neutral connective).1 (neutral connective).2)
    exact ⟨truths.trans truth, same.trans kept⟩

/-- A sum which is extended stands before the conjunction of its last term. -/
private theorem outer_extend_xor (ctxlist : LCFGContextList) (term : Term) (reading : Reading) :
    (reading.extend .xor term).outer ctxlist .and = reading.truth ctxlist := by
  have below : Connective.xor.precedence < Connective.and.precedence := by decide
  induction reading with
  | leaf first => simp [extend, outer, if_pos below, Connective.truth, truth]
  | node left earlier right _ ih =>
    by_cases tighter : earlier.precedence < Connective.xor.precedence
    · simp only [extend, outer, truth, if_pos tighter, if_pos (lt_trans tighter below), ih]
    · simp [extend, outer, if_neg tighter, if_pos below, Connective.truth, truth]

private theorem outer_extend_or (ctxlist : LCFGContextList) (connective : Connective)
    (tighter : Connective.or.precedence < connective.precedence) (term : Term) (reading : Reading) :
    (reading.extend .or term).outer ctxlist connective = reading.truth ctxlist := by
  have takes : reading.extend .or term = .node reading .or (.leaf term) := by
    cases reading <;> rfl
  rw [takes, outer, if_pos tighter]
  exact Bool.or_false _

/-- What stands before the tighter connective holds, and the grammar loses it. -/
private theorem agreesFrom_ascent {first second : Connective}
    (ascent : first.precedence < second.precedence) (reading : Reading)
    (holds : reading.truth singleContext = true) :
    reading.agreesFrom singleContext true [neutral first, contrary second] = false := by
  cases first with
  | or =>
    have outer := outer_extend_or singleContext second ascent (.notName "a") reading
    cases second with
    | or => exact absurd ascent (lt_irrefl _)
    | xor => simp [neutral, contrary, agreesFrom, agreesAfter, truth_on, truth_off, outer, holds]
    | and => simp [neutral, contrary, agreesFrom, agreesAfter, truth_off, outer, holds]
  | xor =>
    cases second with
    | and =>
      simp [neutral, contrary, agreesFrom, agreesAfter, truth_off, outer_extend_xor, holds]
    | _ => exact absurd ascent (by decide)
  | and => cases second <;> exact absurd ascent (by decide)

end Reading

/-! ## The value of the grammar -/

/-- The grammar derives the expression, with the truth of its declared reading. -/
def Chain.Respected (ctxlist : LCFGContextList) (chain : Chain) : Prop :=
  ∃ query, parse chain.tokens = .accepted query ∧
    (0 < query.value ctxlist ↔ chain.reading.truth ctxlist = true)

theorem Chain.respected_iff {ctxlist : LCFGContextList}
    (positive : ∀ ctx ∈ ctxlist.getD [], 1 ≤ ctx.priority) (chain : Chain) :
    chain.Respected ctxlist ↔ chain.expression.truth ctxlist = chain.reading.truth ctxlist := by
  have sign := (chain.expression.value_carries positive).pos_iff
  rw [Bool.eq_iff_iff]
  constructor
  · rintro ⟨query, accepted, same⟩
    rw [chain.parse_tokens] at accepted
    cases accepted
    exact sign.symm.trans same
  · intro same
    exact ⟨_, chain.parse_tokens, sign.trans same⟩

theorem Chain.respected_of_descending {ctxlist : LCFGContextList}
    (positive : ∀ ctx ∈ ctxlist.getD [], 1 ≤ ctx.priority) (chain : Chain)
    (descending : Descending chain.connectives) : chain.Respected ctxlist := by
  rw [chain.respected_iff positive]
  apply foldl_truth ctxlist chain.rest (.leaf chain.first) (.term chain.first) rfl _ descending
  intro step _
  show step.1.precedence ≤ 3
  cases step.1 <;> decide

private theorem neutral_fst (connective : Connective) : (neutral connective).1 = connective := by
  cases connective <;> rfl

private theorem exists_unrespected {connectives : List Connective}
    (unordered : ¬Descending connectives) :
    ∃ chain : Chain, chain.bracketFree = true ∧ chain.connectives = connectives ∧
      ¬chain.Respected singleContext := by
  obtain ⟨before, first, second, after, split, ascent⟩ := exists_ascent unordered
  have free : ∀ connective, (neutral connective).2.bracketFree = true := by
    intro connective
    cases connective <;> rfl
  refine ⟨⟨.name "a", before.map neutral ++ ([neutral first, contrary second] ++ after.map neutral)⟩,
    ?_, ?_, ?_⟩
  · have last : (contrary second).2.bracketFree = true := by cases second <;> rfl
    have first_free : (Term.name "a").bracketFree = true := rfl
    simp [Chain.bracketFree, first_free, free, last]
  · have last : (contrary second).1 = second := by cases second <;> rfl
    simp [Chain.connectives, split, Function.comp_def, neutral_fst, last]
  · rw [Chain.respected_iff (by decide), ← Chain.agrees_iff]
    simp only [Chain.agrees, Reading.agreesFrom_append]
    obtain ⟨truth, kept⟩ := Reading.agreesFrom_neutral before (.leaf (.name "a")) true
    rw [kept, Reading.agreesFrom_ascent ascent _ (truth.trans truth_on)]
    rw [(Reading.agreesFrom_neutral after _ false).2]
    decide

/-- The grammar respects the declared precedences of an expression under a list of
contexts just when its readings agree there; and it does so whatever the terms and
the list are, just when no connective stands behind one of lower precedence. -/
theorem precedence_respected_iff (ctxlist : LCFGContextList)
    (positive : ∀ ctx ∈ ctxlist.getD [], 1 ≤ ctx.priority) (chain : Chain) :
    (chain.Respected ctxlist ↔ chain.agrees ctxlist = true) ∧
    ((∀ anyList : LCFGContextList, (∀ ctx ∈ anyList.getD [], 1 ≤ ctx.priority) →
        ∀ other : Chain, other.bracketFree = true → other.connectives = chain.connectives →
          other.Respected anyList) ↔
      Descending chain.connectives) := by
  constructor
  · rw [chain.respected_iff positive, chain.agrees_iff]
  · constructor
    · intro respected
      by_contra unordered
      obtain ⟨other, free, same, failed⟩ := exists_unrespected unordered
      exact failed (respected singleContext (by decide) other free same)
    · intro descending anyList positiveToo other _ same
      apply other.respected_of_descending positiveToo
      rwa [same]

def sampleAscending : Chain := ⟨.name "a", [(.or, .name "b"), (.and, .name "c")]⟩

def sampleDescending : Chain := ⟨.name "a", [(.and, .name "b"), (.or, .name "c")]⟩

theorem sample_precedence_respected :
    (∀ ctx ∈ singleContext.getD [], 1 ≤ ctx.priority) ∧
      sampleDescending.Respected singleContext := by
  have positive : ∀ ctx ∈ singleContext.getD [], 1 ≤ ctx.priority := by decide
  refine ⟨positive, ?_⟩
  exact (precedence_respected_iff singleContext positive sampleDescending).1.mpr (by decide +kernel)

theorem sample_precedence_ignored :
    (∀ ctx ∈ singleContext.getD [], 1 ≤ ctx.priority) ∧ sampleAscending.bracketFree = true ∧
      (scanString true "a | b & c").1 = sampleAscending.tokens ∧
      evalExpression true singleContext "a | b & c" = ⟨true, -1, none⟩ ∧
      sampleAscending.reading.truth singleContext = true ∧
      ¬sampleAscending.Respected singleContext := by
  have positive : ∀ ctx ∈ singleContext.getD [], 1 ≤ ctx.priority := by decide
  refine ⟨positive, rfl, by decide +kernel, by decide +kernel, by decide +kernel, ?_⟩
  rw [Chain.respected_iff positive]
  decide +kernel

end Lcfg.Context
