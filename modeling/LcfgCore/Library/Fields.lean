import Mathlib.Data.List.Chain
import Mathlib.Data.List.DropRight
import Mathlib.Data.List.TakeWhile

/-!
# Fields between separators

A text is cut at a separator, looking for it from one end or the other. What is
walked over satisfies a predicate which the separator does not.
-/
namespace Fields

variable {α : Type} {p : α → Bool} {before after : List α} {separator : α}

theorem takeWhile_cut (walked : ∀ x ∈ before, p x = true) (stops : p separator = false) :
    (before ++ separator :: after).takeWhile p = before := by
  rw [List.takeWhile_append_of_pos walked, List.takeWhile_cons_of_neg (by simp [stops]),
    List.append_nil]

theorem dropWhile_cut (walked : ∀ x ∈ before, p x = true) (stops : p separator = false) :
    (before ++ separator :: after).dropWhile p = separator :: after := by
  rw [List.dropWhile_append_of_pos walked, List.dropWhile_cons_of_neg (by simp [stops])]

theorem rtakeWhile_cut (walked : ∀ x ∈ after, p x = true) (stops : p separator = false) :
    (before ++ separator :: after).rtakeWhile p = after := by
  have walkedBack : ∀ x ∈ after.reverse, p x = true := fun x member =>
    walked x (List.mem_reverse.mp member)
  rw [List.rtakeWhile, List.reverse_append, List.reverse_cons, List.append_assoc,
    List.singleton_append, takeWhile_cut walkedBack stops, List.reverse_reverse]

theorem rdropWhile_cut (walked : ∀ x ∈ after, p x = true) (stops : p separator = false) :
    (before ++ separator :: after).rdropWhile p = before ++ [separator] := by
  have walkedBack : ∀ x ∈ after.reverse, p x = true := fun x member =>
    walked x (List.mem_reverse.mp member)
  rw [List.rdropWhile, List.reverse_append, List.reverse_cons, List.append_assoc,
    List.singleton_append, dropWhile_cut walkedBack stops, List.reverse_cons, List.reverse_reverse]

/-- A longer text is walked over at least as far. -/
theorem takeWhile_subset {text : List α} (front : before <+: text) :
    before.takeWhile p ⊆ text.takeWhile p := by
  obtain ⟨more, rfl⟩ := front
  rw [List.takeWhile_append]
  split
  case isTrue all =>
    rw [(List.takeWhile_prefix p).eq_of_length all]
    exact List.subset_append_left _ _
  case isFalse => exact List.Subset.refl _

/-- What all of is walked over at the end is left out. -/
theorem rdropWhile_append_of_pos (walked : ∀ x ∈ after, p x = true) :
    (before ++ after).rdropWhile p = before.rdropWhile p := by
  induction after using List.reverseRecOn with
  | nil => rw [List.append_nil]
  | append_singleton rest last ih =>
    rw [← List.append_assoc, List.rdropWhile_concat_pos _ _ _ (walked last (by simp))]
    exact ih fun x member => walked x (List.mem_append_left _ member)

/-- Nothing before an element which stays is left out. -/
theorem rdropWhile_append_cons (stops : p separator = false) :
    (before ++ separator :: after).rdropWhile p = before ++ separator :: after.rdropWhile p := by
  have all : (before ++ separator :: after).reverse =
      after.reverse ++ separator :: before.reverse := by simp
  have kept : (separator :: before.reverse).dropWhile p = separator :: before.reverse :=
    List.dropWhile_cons_of_neg (by simp [stops])
  rw [List.rdropWhile, List.rdropWhile, all, List.dropWhile_append]
  split
  case isTrue empty =>
    rw [List.isEmpty_iff.mp empty, kept]
    simp
  case isFalse => simp

/-- Nothing behind an element which stays is looked at. -/
theorem takeWhile_append_cons (stops : p separator = false) :
    (before ++ separator :: after).takeWhile p = before.takeWhile p := by
  induction before with
  | nil => exact List.takeWhile_cons_of_neg (by simp [stops])
  | cons x before ih => rw [List.cons_append, List.takeWhile_cons, List.takeWhile_cons, ih]

theorem dropWhile_append_cons (stops : p separator = false) :
    (before ++ separator :: after).dropWhile p = before.dropWhile p ++ separator :: after := by
  induction before with
  | nil => exact List.dropWhile_cons_of_neg (by simp [stops])
  | cons x before ih =>
    rw [List.cons_append, List.dropWhile_cons, List.dropWhile_cons, ih]
    split <;> rfl

theorem rdropWhile_eq_self {text : List α} (last : ∀ x ∈ text.getLast?, p x = false) :
    text.rdropWhile p = text := by
  rw [List.rdropWhile_eq_self_iff]
  intro notNil
  rw [last _ (List.getLast?_eq_some_getLast notNil)]
  exact Bool.false_ne_true

theorem dropWhile_eq_self {text : List α} (first : ∀ x ∈ text.head?, p x = false) :
    text.dropWhile p = text := by
  cases text with
  | nil => rfl
  | cons x rest => exact List.dropWhile_cons_of_neg (by simp [first x rfl])

theorem drop_takeWhile (text : List α) :
    text.drop (text.takeWhile p).length = text.dropWhile p := by
  calc text.drop (text.takeWhile p).length
      = (text.takeWhile p ++ text.dropWhile p).drop (text.takeWhile p).length := by
        rw [List.takeWhile_append_dropWhile]
    _ = text.dropWhile p := List.drop_left

/-- What is left between the walked ends of a text. -/
theorem trimmed_ends {text : List α} {x : α} :
    (x ∈ ((text.dropWhile p).rdropWhile p).head? → p x = false) ∧
      (x ∈ ((text.dropWhile p).rdropWhile p).getLast? → p x = false) := by
  constructor
  · intro first
    obtain ⟨rest, cut⟩ := List.rdropWhile_prefix p (text.dropWhile p)
    obtain ⟨tail, here⟩ := List.head?_eq_some_iff.mp first
    have walked := List.head?_dropWhile_not p text
    rw [← cut, here] at walked
    simpa using walked
  · intro last
    have some_ : (text.dropWhile p).rdropWhile p ≠ [] := by
      intro none_
      rw [none_] at last
      cases last
    have stops := List.rdropWhile_last_not p _ some_
    rw [List.getLast?_eq_some_getLast some_, Option.mem_some_iff] at last
    rw [← last]
    exact Bool.eq_false_iff.mpr stops

/-- A text in which something occurs is cut at its last occurrence. -/
theorem exists_last_cut {text : List α} (occurs : ∃ x ∈ text, p x = true) :
    ∃ before x after, text = before ++ x :: after ∧ p x = true ∧ ∀ y ∈ after, p y = false := by
  induction text using List.reverseRecOn with
  | nil =>
    obtain ⟨x, member, _⟩ := occurs
    cases member
  | append_singleton rest last ih =>
    cases here : p last with
    | true => exact ⟨rest, last, [], rfl, here, by simp⟩
    | false =>
      have earlier : ∃ x ∈ rest, p x = true := by
        obtain ⟨x, member, holds⟩ := occurs
        rcases List.mem_append.mp member with old | new
        · exact ⟨x, old, holds⟩
        · rw [List.mem_singleton.mp new, here] at holds
          cases holds
      obtain ⟨before, x, after, same, holds, free⟩ := ih earlier
      refine ⟨before, x, after ++ [last], by simp [same], holds, ?_⟩
      intro y member
      rcases List.mem_append.mp member with old | new
      · exact free y old
      · rw [List.mem_singleton.mp new, here]

/-- What holds of each element of a given list is checked one by one. -/
theorem of_all {q : α → Prop} [DecidablePred q] {text : List α}
    (all : (text.all fun x => decide (q x)) = true) : ∀ x ∈ text, q x := by
  simpa using all

/-! ### Tokens -/

/-- What stands between the separators, without the empty fields. -/
def tokens (p : α → Bool) (text : List α) : List (List α) :=
  (text.splitOnP p).filter (!·.isEmpty)

theorem splitOnP_free {text field : List α} (member : field ∈ text.splitOnP p) :
    ∀ x ∈ field, p x = false := by
  induction text generalizing field with
  | nil =>
    rw [List.splitOnP_nil, List.mem_singleton] at member
    simp [member]
  | cons c text ih =>
    rw [List.splitOnP_cons_eq_if_modifyHead] at member
    cases here : p c with
    | true =>
      rw [if_pos here, List.mem_cons] at member
      rcases member with rfl | later
      · simp
      · exact ih later
    | false =>
      rw [here, if_neg Bool.false_ne_true] at member
      cases split_ : text.splitOnP p with
      | nil => exact absurd split_ (List.splitOnP_ne_nil p text)
      | cons first others =>
        rw [split_, List.modifyHead_cons, List.mem_cons] at member
        rcases member with rfl | later
        · intro x inside
          rcases List.mem_cons.mp inside with rfl | rest
          · exact here
          · exact ih (by rw [split_]; exact List.mem_cons_self) x rest
        · exact ih (by rw [split_]; exact List.mem_cons_of_mem _ later)

theorem mem_tokens {text token : List α} (member : token ∈ tokens p text) :
    token ≠ [] ∧ ∀ x ∈ token, p x = false := by
  rw [tokens, List.mem_filter] at member
  exact ⟨by simpa using member.2, splitOnP_free member.1⟩

/-- What separates nothing is part of a token. -/
theorem exists_token {text : List α} {x : α} (member : x ∈ text) (plain : p x = false) :
    ∃ token ∈ tokens p text, x ∈ token := by
  have field : ∃ field ∈ text.splitOnP p, x ∈ field := by
    induction text with
    | nil => cases member
    | cons c text ih =>
      rw [List.splitOnP_cons_eq_if_modifyHead]
      -- a separator begins a new field, and the character lies further on
      cases here : p c with
      | true =>
        have later : x ∈ text := by
          rcases List.mem_cons.mp member with rfl | later
          · rw [plain] at here
            cases here
          · exact later
        obtain ⟨field, inside, holds⟩ := ih later
        exact ⟨field, by rw [if_pos rfl]; exact List.mem_cons_of_mem _ inside, holds⟩
      | false =>
        rw [if_neg Bool.false_ne_true]
        cases split_ : text.splitOnP p with
        | nil => exact absurd split_ (List.splitOnP_ne_nil p text)
        -- any other character is put in front of the first field
        | cons first others =>
          rw [List.modifyHead_cons]
          rcases List.mem_cons.mp member with rfl | later
          · exact ⟨x :: first, List.mem_cons_self, List.mem_cons_self⟩
          · obtain ⟨field, inside, holds⟩ := ih later
            rw [split_] at inside
            rcases List.mem_cons.mp inside with rfl | other
            · exact ⟨c :: field, List.mem_cons_self, List.mem_cons_of_mem _ holds⟩
            · exact ⟨field, List.mem_cons_of_mem _ other, holds⟩
  -- a field which has a character is not dropped
  obtain ⟨field, inside, holds⟩ := field
  refine ⟨field, List.mem_filter.mpr ⟨inside, ?_⟩, holds⟩
  simpa using List.ne_nil_of_mem holds

/-- The tokens of a text which is made of them. -/
theorem tokens_intercalate {parts : List (List α)} (splits : p separator = true)
    (free : ∀ part ∈ parts, part ≠ [] ∧ ∀ x ∈ part, p x = false) :
    tokens p ([separator].intercalate parts) = parts := by
  induction parts with
  | nil => rfl
  | cons part parts ih =>
    obtain ⟨some_, plain⟩ := free part List.mem_cons_self
    have kept : ∀ later, (part :: later).filter (fun field => !field.isEmpty) =
        part :: later.filter fun field => !field.isEmpty := fun later =>
      List.filter_cons_of_pos (by simpa using some_)
    cases parts with
    | nil =>
      rw [List.intercalate_singleton, tokens, List.splitOnP_eq_singleton plain, kept,
        List.filter_nil]
    | cons next parts =>
      have rest := ih fun later member => free later (List.mem_cons_of_mem _ member)
      rw [List.intercalate_cons_cons, List.append_assoc, List.singleton_append, tokens,
        List.splitOnP_append_cons_of_forall_mem plain separator splits, kept]
      rw [tokens] at rest
      rw [rest]

/-- The text ends with a separator, or is empty. -/
def Closed (p : α → Bool) (text : List α) : Prop := ∀ x ∈ text.getLast?, p x = true

/-- The text begins with a separator, or is empty. -/
def Opens (p : α → Bool) (text : List α) : Prop := ∀ x ∈ text.head?, p x = true

theorem closed_nil : Closed p ([] : List α) := fun _ none_ => by cases none_

theorem opens_nil : Opens p ([] : List α) := fun _ none_ => by cases none_

theorem tokens_append_cons (splits : p separator = true) (before after : List α) :
    tokens p (before ++ separator :: after) = tokens p before ++ tokens p after := by
  rw [tokens, List.splitOnP_append_cons _ _ splits, List.filter_append]
  rfl

theorem Closed.tokens_append (closed : Closed p before) (after : List α) :
    tokens p (before ++ after) = tokens p before ++ tokens p after := by
  induction before using List.reverseRecOn with
  | nil => rfl
  | append_singleton rest last _ =>
    have splits : p last = true := closed last (by simp)
    have alone : tokens p (rest ++ [last]) = tokens p rest := by
      rw [tokens_append_cons splits]
      exact List.append_nil _
    rw [alone, List.append_assoc, List.singleton_append, tokens_append_cons splits]

theorem Opens.tokens_append (opens : Opens p after) (before : List α) :
    tokens p (before ++ after) = tokens p before ++ tokens p after := by
  cases after with
  | nil =>
    rw [List.append_nil]
    exact (List.append_nil _).symm
  | cons x rest =>
    have splits : p x = true := opens x rfl
    have alone : tokens p (x :: rest) = tokens p rest := tokens_append_cons splits [] rest
    rw [tokens_append_cons splits, alone]

/-- Separators at the beginning make no difference. -/
theorem tokens_dropWhile (text : List α) : tokens p (text.dropWhile p) = tokens p text := by
  induction text with
  | nil => rfl
  | cons x rest ih =>
    cases here : p x with
    | true =>
      rw [List.dropWhile_cons_of_pos here, ih]
      exact (tokens_append_cons here [] rest).symm
    | false => rw [List.dropWhile_cons_of_neg (by simp [here])]

theorem tokens_free {token : List α} (some_ : token ≠ []) (free : ∀ x ∈ token, p x = false) :
    tokens p token = [token] := by
  rw [tokens, List.splitOnP_eq_singleton free]
  exact List.filter_cons_of_pos (by simpa using some_)

/-- A token between separators. -/
theorem tokens_around {token : List α} (some_ : token ≠ []) (free : ∀ x ∈ token, p x = false)
    (closed : Closed p before) (opens : Opens p after) :
    tokens p (before ++ (token ++ after)) = tokens p before ++ token :: tokens p after := by
  rw [closed.tokens_append, opens.tokens_append, tokens_free some_ free, List.singleton_append]

theorem Closed.append_cons (splits : p separator = true) (closed : Closed p after) :
    Closed p (before ++ separator :: after) := by
  intro x last
  rw [List.getLast?_append, List.getLast?_cons] at last
  cases behind : after.getLast? with
  | none =>
    rw [behind, Option.getD_none, Option.some_or, Option.mem_some_iff] at last
    exact last ▸ splits
  | some y =>
    rw [behind, Option.getD_some, Option.some_or, Option.mem_some_iff] at last
    exact last ▸ closed y behind

/-- Where a token stands for the first time. -/
theorem exists_cut {token text : List α} (member : token ∈ tokens p text) :
    ∃ before after, text = before ++ (token ++ after) ∧ Closed p before ∧ Opens p after ∧
      token ∉ tokens p before := by
  induction size : text.length using Nat.strongRecOn generalizing text with
  | ind n ih =>
    obtain ⟨some_, plain⟩ := mem_tokens member
    -- the text up to the first separator, and what is behind it
    have cut := List.takeWhile_append_dropWhile (p := fun x => !p x) (l := text)
    have free : ∀ x ∈ text.takeWhile fun x => !p x, p x = false := fun x here => by
      simpa using List.mem_takeWhile_imp here
    have word_eq : ∀ word, (∀ x ∈ word, p x = false) → token ∈ tokens p word → token = word := by
      intro word plain inside
      cases word with
      | nil => cases inside
      | cons x rest =>
        rw [tokens_free (List.cons_ne_nil _ _) plain] at inside
        exact List.mem_singleton.mp inside
    cases rest : text.dropWhile fun x => !p x with
    | nil =>
      rw [rest, List.append_nil] at cut
      rw [cut] at free
      refine ⟨[], [], ?_, closed_nil, opens_nil, ?_⟩
      · rw [List.nil_append, List.append_nil]
        exact (word_eq text free member).symm
      · exact List.not_mem_nil
    | cons x after =>
      have splits : p x = true := by
        have stops := List.head?_dropWhile_not (fun x => !p x) text
        rw [rest] at stops
        simpa using stops
      rw [rest] at cut
      generalize text.takeWhile (fun x => !p x) = word at cut free
      subst cut
      rw [tokens_append_cons splits, List.mem_append] at member
      by_cases first : token ∈ tokens p word
      · obtain rfl := word_eq word free first
        refine ⟨[], x :: after, rfl, closed_nil, fun y head => ?_, List.not_mem_nil⟩
        rw [List.head?_cons, Option.mem_some_iff] at head
        exact head ▸ splits
      · have shorter : after.length < n := by
          rw [← size, List.length_append, List.length_cons]
          omega
        obtain ⟨before, behind, rfl, closed, opens, new⟩ :=
          ih _ shorter (member.resolve_left first) rfl
        refine ⟨word ++ x :: before, behind, by simp, closed.append_cons splits, opens, ?_⟩
        rw [tokens_append_cons splits, List.mem_append]
        exact not_or.mpr ⟨first, new⟩

theorem mem_intercalate {between : List α} {parts : List (List α)} {x : α}
    (member : x ∈ between.intercalate parts) : x ∈ between ∨ ∃ part ∈ parts, x ∈ part := by
  induction parts with
  | nil => cases member
  | cons part parts ih =>
    cases parts with
    | nil =>
      rw [List.intercalate_singleton] at member
      exact .inr ⟨part, List.mem_cons_self, member⟩
    | cons next parts =>
      rw [List.intercalate_cons_cons, List.mem_append, List.mem_append] at member
      rcases member with (first | separates) | later
      · exact .inr ⟨part, List.mem_cons_self, first⟩
      · exact .inl separates
      · exact (ih later).imp_right fun ⟨part', inside, there⟩ =>
          ⟨part', List.mem_cons_of_mem _ inside, there⟩

theorem mem_intercalate_of_mem {between part : List α} {parts : List (List α)} {x : α}
    (inside : part ∈ parts) (there : x ∈ part) : x ∈ between.intercalate parts := by
  induction parts with
  | nil => cases inside
  | cons first parts ih =>
    cases parts with
    | nil =>
      rw [List.mem_singleton.mp inside] at there
      rw [List.intercalate_singleton]
      exact there
    | cons next parts =>
      rw [List.intercalate_cons_cons, List.mem_append, List.mem_append]
      rcases List.mem_cons.mp inside with rfl | later
      · exact .inl (.inl there)
      · exact .inr (ih later)

/-! ### Lines -/

/-- What `getline` gives: each piece goes up to a terminator and includes it, the last
one may lack it. -/
def pieces (ends : α → Bool) : List α → List (List α)
  | [] => []
  | x :: rest =>
    if ends x then [x] :: pieces ends rest
    else
      match pieces ends rest with
      | [] => [[x]]
      | piece :: more => (x :: piece) :: more

theorem pieces_cut (free : ∀ x ∈ before, p x = false) (stops : p separator = true) :
    pieces p (before ++ separator :: after) = (before ++ [separator]) :: pieces p after := by
  induction before with
  | nil => rw [List.nil_append, pieces, if_pos stops, List.nil_append]
  | cons x before ih =>
    have plain := free x List.mem_cons_self
    rw [List.cons_append, pieces, if_neg (by simp [plain]),
      ih fun y member => free y (List.mem_cons_of_mem _ member)]
    rfl

theorem pieces_flatten {parts : List (List α)} (stops : p separator = true)
    (free : ∀ part ∈ parts, ∀ x ∈ part, p x = false) :
    pieces p (parts.map (· ++ [separator])).flatten = parts.map (· ++ [separator]) := by
  induction parts with
  | nil => rfl
  | cons part parts ih =>
    rw [List.map_cons, List.flatten_cons, List.append_assoc, List.singleton_append,
      pieces_cut (free part List.mem_cons_self) stops,
      ih fun later member => free later (List.mem_cons_of_mem _ member)]

/-- What follows a terminator is read on its own. -/
theorem pieces_append (stops : p separator = true) (before after : List α) :
    pieces p (before ++ separator :: after) =
      pieces p (before ++ [separator]) ++ pieces p after := by
  induction before with
  | nil => rw [List.nil_append, List.nil_append, pieces, if_pos stops, pieces, if_pos stops]; rfl
  | cons x before ih =>
    rw [List.cons_append, List.cons_append, pieces, pieces, ih]
    split
    · rfl
    · cases first : pieces p (before ++ [separator]) with
      | nil =>
        cases before with
        | nil => simp [pieces, stops] at first
        | cons y before =>
          rw [List.cons_append, pieces] at first
          split at first
          · cases first
          · split at first <;> cases first
      | cons => rfl

/-- Lines with their terminators do not touch what follows them. -/
theorem pieces_lines (stops : p separator = true) (lines : List (List α)) (rest : List α) :
    ∃ earlier, pieces p ((lines.map (· ++ [separator])).flatten ++ rest) =
      earlier ++ pieces p rest := by
  induction lines with
  | nil => exact ⟨[], rfl⟩
  | cons line lines ih =>
    obtain ⟨earlier, same⟩ := ih
    refine ⟨pieces p (line ++ [separator]) ++ earlier, ?_⟩
    rw [List.map_cons, List.flatten_cons, List.append_assoc, List.append_assoc,
      List.singleton_append, pieces_append stops, same, List.append_assoc]

/-- The first piece is where the text begins. -/
theorem pieces_first (x : α) (rest : List α) :
    ∃ first more, pieces p (x :: rest) = first :: more ∧ first <+: x :: rest := by
  induction rest generalizing x with
  | nil =>
    refine ⟨[x], [], ?_, List.prefix_rfl⟩
    rw [pieces, pieces]
    split <;> rfl
  | cons y rest ih =>
    obtain ⟨first, more, same, front⟩ := ih y
    rw [pieces]
    split
    · exact ⟨[x], _, rfl, by simp⟩
    · rw [same]
      exact ⟨x :: first, more, rfl, (List.cons_prefix_cons).mpr ⟨rfl, front⟩⟩

/-- A text without terminators is a part of the first piece. -/
theorem pieces_free_append (free : ∀ x ∈ before, p x = false) (x : α) (rest : List α) :
    ∃ first more, pieces p (before ++ x :: rest) = (before ++ first) :: more ∧
      first <+: x :: rest := by
  induction before with
  | nil => exact pieces_first x rest
  | cons y before ih =>
    obtain ⟨first, more, same, front⟩ := ih fun z member => free z (List.mem_cons_of_mem _ member)
    refine ⟨first, more, ?_, front⟩
    rw [List.cons_append, pieces, if_neg (by simp [free y List.mem_cons_self]), same]
    rfl

/-- A terminator can only stand at the end of a piece. -/
theorem mem_pieces {text piece : List α} (member : piece ∈ pieces p text) :
    ∀ x ∈ piece.dropLast, p x = false := by
  induction text generalizing piece with
  | nil => cases member
  | cons c text ih =>
    rw [pieces] at member
    split at member
    · rcases List.mem_cons.mp member with rfl | later
      · simp
      · exact ih later
    case isFalse plain =>
      rw [Bool.not_eq_true] at plain
      cases rest : pieces p text with
      | nil =>
        rw [rest] at member
        simp [List.mem_singleton.mp member]
      | cons first more =>
        rw [rest] at member ih
        rcases List.mem_cons.mp member with rfl | later
        · intro x inside
          cases first with
          | nil => simp at inside
          | cons y first =>
            rw [List.dropLast_cons_cons] at inside
            rcases List.mem_cons.mp inside with rfl | inside
            · exact plain
            · exact ih List.mem_cons_self x inside
        · exact ih (List.mem_cons_of_mem _ later)

/-! ### Paragraphs -/

/-- A text which begins with a `starts`, ends with an `ends`, and has no `starts` right after
an `ends` in between. -/
structure Paragraph (starts ends : α → Bool) (text : List α) : Prop where
  first : ∃ x rest, text = x :: rest ∧ starts x = true
  last : ∃ rest x, text = rest ++ [x] ∧ ends x = true
  inside : text.IsChain fun x y => ¬ (ends x = true ∧ starts y = true)

variable {starts ends : α → Bool}

/-- A text which goes on with a `starts` is cut at the end of a paragraph. -/
private theorem Paragraph.no_longer {text more rest : List α} {x : α}
    (short : Paragraph starts ends text) (long : Paragraph starts ends (text ++ more))
    (goesOn : more = x :: rest) : starts x = false := by
  obtain ⟨before, y, rfl, endsHere⟩ := short.last
  have chain := long.inside
  rw [goesOn, List.append_assoc, List.singleton_append, List.isChain_split] at chain
  have pair := (List.isChain_cons_cons.mp chain.2).1
  exact Bool.eq_false_iff.mpr fun startsNext => pair ⟨endsHere, startsNext⟩

private theorem Paragraph.unique {text text' more more' : List α}
    (here : Paragraph starts ends text) (here' : Paragraph starts ends text')
    (next : ∀ x rest, more = x :: rest → starts x = true)
    (next' : ∀ x rest, more' = x :: rest → starts x = true)
    (same : text ++ more = text' ++ more') : text = text' := by
  rcases List.append_eq_append_iff.mp same with ⟨extra, rfl, rfl⟩ | ⟨extra, rfl, rfl⟩
  · cases extra with
    | nil => rw [List.append_nil]
    | cons x rest =>
      have stops := here.no_longer here' rfl
      rw [next x _ rfl] at stops
      cases stops
  · cases extra with
    | nil => rw [List.append_nil]
    | cons x rest =>
      have stops := here'.no_longer here rfl
      rw [next' x _ rfl] at stops
      cases stops

private theorem Paragraph.flatten_first {texts : List (List α)}
    (all : ∀ text ∈ texts, Paragraph starts ends text) (x : α) (rest : List α)
    (same : texts.flatten = x :: rest) : starts x = true := by
  cases texts with
  | nil => cases same
  | cons text texts =>
    obtain ⟨y, more, rfl, startsHere⟩ := (all text List.mem_cons_self).first
    rw [List.flatten_cons, List.cons_append, List.cons.injEq] at same
    exact same.1 ▸ startsHere

/-- The paragraphs of a text are determined by it. -/
theorem Paragraph.flatten_inj {texts texts' : List (List α)}
    (all : ∀ text ∈ texts, Paragraph starts ends text)
    (all' : ∀ text ∈ texts', Paragraph starts ends text)
    (same : texts.flatten = texts'.flatten) : texts = texts' := by
  induction texts generalizing texts' with
  | nil =>
    cases texts' with
    | nil => rfl
    | cons text' rest' =>
      obtain ⟨x, more, rfl, -⟩ := (all' text' List.mem_cons_self).first
      cases same
  | cons text rest ih =>
    cases texts' with
    | nil =>
      obtain ⟨x, more, rfl, -⟩ := (all text List.mem_cons_self).first
      cases same
    | cons text' rest' =>
      have later := fun part member => all part (List.mem_cons_of_mem _ member)
      have later' := fun part member => all' part (List.mem_cons_of_mem _ member)
      rw [List.flatten_cons, List.flatten_cons] at same
      have first := (all text List.mem_cons_self).unique (all' text' List.mem_cons_self)
        (flatten_first later) (flatten_first later') same
      subst first
      rw [ih later later' (List.append_cancel_left same)]

private theorem line_chain {line : List α} (free : ∀ x ∈ line, ends x = false) :
    (line ++ [separator]).IsChain fun x y => ¬ (ends x = true ∧ starts y = true) := by
  induction line with
  | nil => exact .singleton _
  | cons x line ih =>
    have plain := free x List.mem_cons_self
    refine (ih fun y member => free y (List.mem_cons_of_mem _ member)).cons fun y _ both => ?_
    rw [plain] at both
    cases both.1

private theorem lines_chain {lines : List (List α)}
    (free : ∀ line ∈ lines, ∀ x ∈ line, ends x = false) (plain : starts separator = false)
    (others : ∀ line ∈ lines.tail, ∀ x ∈ line.head?, starts x = false) :
    (lines.map (· ++ [separator])).flatten.IsChain
      fun x y => ¬ (ends x = true ∧ starts y = true) := by
  induction lines with
  | nil => exact .nil
  | cons line lines ih =>
    have later := ih (fun line' member => free line' (List.mem_cons_of_mem _ member))
      fun line' member => others line' (List.mem_of_mem_tail member)
    rw [List.map_cons, List.flatten_cons]
    refine List.isChain_append.mpr ⟨line_chain (free line List.mem_cons_self), later, ?_⟩
    rintro x - y next ⟨-, startsNext⟩
    -- the next line begins with something else, or is empty
    cases lines with
    | nil => cases next
    | cons line' lines =>
      cases line' with
      | nil =>
        obtain rfl := Option.some_inj.mp next
        rw [plain] at startsNext
        cases startsNext
      | cons y' rest =>
        obtain rfl := Option.some_inj.mp next
        have other := others (y' :: rest) List.mem_cons_self y' rfl
        rw [other] at startsNext
        cases startsNext

/-- A line which begins with a `starts` and further lines which do not are one paragraph. -/
theorem paragraph_of_lines {line : List α} {lines : List (List α)}
    (first : ∃ x rest, line = x :: rest ∧ starts x = true)
    (free : ∀ part ∈ line :: lines, ∀ x ∈ part, ends x = false) (stops : ends separator = true)
    (plain : starts separator = false)
    (others : ∀ part ∈ lines, ∀ x ∈ part.head?, starts x = false) :
    Paragraph starts ends ((line :: lines).map (· ++ [separator])).flatten where
  first := by
    obtain ⟨x, rest, rfl, startsHere⟩ := first
    exact ⟨x, _, rfl, startsHere⟩
  last := by
    obtain ⟨before, last, split⟩ := List.eq_nil_or_concat'  (line :: lines) |>.resolve_left
      (List.cons_ne_nil _ _)
    refine ⟨(before.map (· ++ [separator])).flatten ++ last, separator, ?_, stops⟩
    rw [split]
    simp
  inside := lines_chain free plain others

end Fields
