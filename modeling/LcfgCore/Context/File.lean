import LcfgCore.Context.Update

/-!
# Context files

A list of contexts is sorted by priority and written one context a line. When the file
is read, the number of its line becomes the priority of a context
(`lcfgctxlist_to_file`, `lcfgctxlist_from_file`).
-/
namespace Lcfg

namespace LCFGContext

/-- `lcfgcontext_to_string` -/
def toString (ctx : LCFGContext) (options : LCFGOption) : Option (List Char) :=
  if !ctx.isValid then none
  else
    let value := if ctx.hasValue then ctx.value.getD "" else ""
    some ((ctx.name.getD "").toList ++ '=' :: value.toList ++
      if options.newline then ['\n'] else [])

end LCFGContext

namespace LCFGContextList

open LCFGContext

/-- `lcfgctxlist_print`: the text which is written, if all goes well. -/
def print : List LCFGContext → Option (List Char)
  | [] => some []
  | ctx :: rest =>
    if !ctx.isValid || !ctx.hasValue then print rest
    else
      match ctx.toString { newline := true } with
      | none => none
      | some text => (print rest).map (text ++ ·)

/-- What `fopen` and `getline` find under a file name. -/
inductive ContextFile where
  | missing
  | unreadable
  | text (content : List Char)
deriving DecidableEq, Repr

/-- How the reading may fail. The line number is an `int`, and must not go beyond its
greatest value. -/
inductive FileError where
  | overflow
  | message (text : String)
deriving DecidableEq, Repr

/-- The loop of `lcfgctxlist_from_file` over the lines. -/
def readLines (filename : String) (linenum : Nat) (ctxlist : List LCFGContext) :
    List (List Char) → Except FileError (List LCFGContext)
  | [] => .ok ctxlist
  | line :: rest =>
    let linenum := linenum + 1
    if linenum = 2 ^ 31 then .error .overflow
    else
      let ctxStr := line.dropWhile isSpace
      if ctxStr = [] || ctxStr.head? = some '#' then readLines filename linenum ctxlist rest
      else
        match fromString (some (String.ofList ctxStr)) linenum with
        | .error parseMsg => .error (.message ("Failed to parse context '" ++
            String.ofList ctxStr ++ "' on line " ++ ToString.toString linenum ++ " of " ++
            filename ++ ": " ++ parseMsg))
        | .ok ctx =>
          let updated := update ctxlist ctx
          if updated.2 = .error then
            .error (.message ("Failed to store context '" ++ String.ofList ctxStr ++ "'"))
          else readLines filename linenum updated.1 rest

/-- `lcfgctxlist_from_file`, without the modification time -/
def fromFile (filename : String) (file : ContextFile) (options : LCFGOption) :
    Except FileError (List LCFGContext) :=
  match file with
  | .missing =>
    if options.allowNoExist then .ok []
    else .error (.message ("'" ++ filename ++ "' does not exist."))
  | .unreadable => .error (.message ("'" ++ filename ++ "' is not readable."))
  | .text content => readLines filename 0 [] (Fields.pieces (· == '\n') content)

/-! ## Writing -/

/-- The line of a context, without the newline at its end. -/
def line (ctx : LCFGContext) : List Char :=
  (ctx.name.getD "").toList ++ '=' :: (ctx.value.getD "").toList

theorem print_eq {ctxlist : List LCFGContext} (valid : ∀ ctx ∈ ctxlist, ctx.isValid = true) :
    print ctxlist =
      some (((ctxlist.filter hasValue).map line).map (· ++ ['\n'])).flatten := by
  induction ctxlist with
  | nil => rfl
  | cons ctx rest ih =>
    have here := valid ctx List.mem_cons_self
    have later := ih fun other member => valid other (List.mem_cons_of_mem _ member)
    rw [print, here, later]
    cases some_ : ctx.hasValue with
    | false => simp [some_]
    | true => simp [some_, LCFGContext.toString, here, line]

theorem line_free {ctx : LCFGContext} (parsed : Parsed ctx)
    (free : ∀ value, ctx.value = some value → '\n' ∉ value.toList) :
    ∀ c ∈ line ctx, (c == '\n') = false := by
  obtain ⟨name, named, valid⟩ := parsed.name
  intro c member
  rw [beq_eq_false_iff_ne]
  rintro rfl
  rw [line, named, List.mem_append, List.mem_cons] at member
  rcases member with inName | (separator | inValue)
  · exact absurd ((validName_word valid).2 '\n' inName) (by decide)
  · exact absurd separator (by decide)
  · cases valued : ctx.value with
    | none => simp [valued] at inValue
    | some value =>
      rw [valued] at inValue
      exact free value valued inValue

/-! ## Reading what was written -/

/-- A line is read back as the context which was written, with the number of the line as
its priority. -/
theorem readable {ctx : LCFGContext} (parsed : Parsed ctx) (some_ : ctx.hasValue = true)
    {linenum : Nat} (positive : 1 ≤ linenum) :
    (line ctx ++ ['\n']).dropWhile isSpace = line ctx ++ ['\n'] ∧
      (line ctx ++ ['\n']).head? ≠ some '#' ∧
      fromString (some (String.ofList (line ctx ++ ['\n']))) linenum =
        .ok { ctx with priority := linenum } := by
  obtain ⟨name, named, valid⟩ := parsed.name
  obtain ⟨notEmpty, words⟩ := validName_word valid
  cases valued : ctx.value with
  | none => simp [hasValue, valued, isEmpty] at some_
  | some value =>
  obtain ⟨filled, first, last⟩ := parsed.value value valued
  have text : line ctx ++ ['\n'] = name.toList ++ '=' :: (value.toList ++ ['\n']) := by
    simp [line, named, valued]
  have plain : ∀ c ∈ name.toList, isSpace c = false := fun c member =>
    isSpace_of_word (words c member)
  have unequal : ∀ c ∈ name.toList, (c != '=') = true := by
    intro c member
    rw [bne_iff_ne]
    rintro rfl
    exact absurd (words '=' member) (by decide)
  have start : ∃ c rest, name.toList = c :: rest := by
    cases chars : name.toList with
    | nil => exact absurd (String.toList_inj.mp chars) notEmpty
    | cons c rest => exact ⟨c, rest, rfl⟩
  have skipped : (line ctx ++ ['\n']).dropWhile isSpace = line ctx ++ ['\n'] := by
    refine Fields.dropWhile_eq_self fun c member => ?_
    obtain ⟨d, rest, chars⟩ := start
    rw [text, chars, List.cons_append, List.head?_cons, Option.mem_some_iff] at member
    exact member ▸ plain d (chars ▸ List.mem_cons_self)
  -- the name ends at the equals sign, and the value at the end of the line
  have nameRead : nameText (line ctx ++ ['\n']) = name.toList := by
    rw [nameText, text, Fields.takeWhile_cut unequal (by decide)]
    exact Fields.rdropWhile_eq_self fun c member => plain c (List.mem_of_mem_getLast? member)
  have valueRead : valueText (line ctx ++ ['\n']) = value.toList := by
    have untouched : (value.toList ++ ['\n']).dropWhile isSpace = value.toList ++ ['\n'] := by
      refine Fields.dropWhile_eq_self fun c member => first c ?_
      cases chars : value.toList with
      | nil => exact absurd (String.toList_inj.mp chars) filled
      | cons d rest => simpa [chars] using member
    rw [valueText, text, Fields.dropWhile_cut unequal (by decide), List.drop_one, List.tail_cons,
      untouched, Fields.rdropWhile_append_of_pos (by simp; decide), Fields.rdropWhile_eq_self last]
  refine ⟨skipped, ?_, ?_⟩
  · obtain ⟨d, rest, chars⟩ := start
    have word := words d (chars ▸ List.mem_cons_self)
    rw [text, chars, List.cons_append, List.head?_cons, Option.some_inj.ne]
    rintro rfl
    exact absurd word (by decide)
  · rw [fromString_eq_ok, String.toList_ofList, skipped, nameRead, valueRead,
      String.ofList_toList, String.ofList_toList]
    refine ⟨by simp [text], valid, by exact_mod_cast positive, ?_⟩
    rw [if_neg (by simpa using filled)]
    simp [← named, ← valued]

/-- The contexts as they are read, with the numbers of their lines. -/
def numbered : Nat → List LCFGContext → List LCFGContext
  | _, [] => []
  | linenum, ctx :: rest =>
    { ctx with priority := (linenum + 1 : Nat) } :: numbered (linenum + 1) rest

/-- What stays of a context when its priority is forgotten. -/
def content (ctx : LCFGContext) : Option String × Option String := (ctx.name, ctx.value)

theorem numbered_content (linenum : Nat) (ctxlist : List LCFGContext) :
    (numbered linenum ctxlist).map content = ctxlist.map content := by
  induction ctxlist generalizing linenum with
  | nil => rfl
  | cons ctx rest ih =>
    rw [numbered, List.map_cons, List.map_cons, ih]
    rfl

theorem numbered_increasing (linenum : Nat) (ctxlist : List LCFGContext) :
    (numbered linenum ctxlist).Pairwise (·.priority < ·.priority) ∧
      ∀ ctx ∈ numbered linenum ctxlist, (linenum : Int) < ctx.priority := by
  induction ctxlist generalizing linenum with
  | nil => exact ⟨.nil, by simp [numbered]⟩
  | cons ctx rest ih =>
    obtain ⟨ordered, above⟩ := ih (linenum + 1)
    refine ⟨.cons above ordered, fun other member => ?_⟩
    rcases List.mem_cons.mp member with rfl | later
    · simp
    · have := above other later
      omega

theorem readLines_written {filename : String} {linenum : Nat} {readlist ctxlist : List LCFGContext}
    (few : linenum + ctxlist.length < 2 ^ 31)
    (old : ∀ ctx ∈ readlist, Parsed ctx)
    (parsed : ∀ ctx ∈ ctxlist, Parsed ctx ∧ ctx.hasValue = true)
    (distinct : (readlist.map LCFGContext.name ++ ctxlist.map LCFGContext.name).Nodup) :
    readLines filename linenum readlist ((ctxlist.map line).map (· ++ ['\n'])) =
      .ok (readlist ++ numbered linenum ctxlist) := by
  induction ctxlist generalizing linenum readlist with
  | nil => simp [readLines, numbered]
  | cons ctx rest ih =>
    obtain ⟨here, some_⟩ := parsed ctx List.mem_cons_self
    obtain ⟨skipped, comment, read⟩ := @readable ctx here some_ (linenum + 1) (by omega)
    have reread : Parsed { ctx with priority := (linenum + 1 : Nat) } :=
      ⟨here.name, here.value, by simp⟩
    rw [List.map_cons, List.map_cons, readLines]
    rw [List.length_cons] at few
    -- the line is neither empty nor a comment
    have kept : ¬(decide (line ctx ++ ['\n'] = []) ||
        decide ((line ctx ++ ['\n']).head? = some '#')) = true := by
      rw [Bool.or_eq_true, decide_eq_true_iff, decide_eq_true_iff]
      exact not_or.mpr ⟨by simp, comment⟩
    rw [if_neg (by omega), skipped, if_neg kept]
    simp only [read]
    rw [List.map_cons] at distinct
    -- each context read is new
    have fresh : ctx.name ∉ readlist.map LCFGContext.name := fun member =>
      (List.nodup_append.mp distinct).2.2 _ member _ List.mem_cons_self rfl
    rw [update_fresh (fun ctx member => (old ctx member).isValid) reread.isValid fresh,
      if_neg LCFGChange.noConfusion]
    have next := @ih (linenum + 1) (readlist ++ [{ ctx with priority := (linenum + 1 : Nat) }])
      (by omega) ?_ (fun later member => parsed later (List.mem_cons_of_mem _ member)) ?_
    · rw [next, numbered, List.append_assoc, List.singleton_append]
    · intro other member
      rcases List.mem_append.mp member with there | last
      · exact old other there
      · exact List.mem_singleton.mp last ▸ reread
    · rw [List.map_append, List.append_assoc, List.map_singleton, List.singleton_append]
      exact distinct

/-! ## What a file can give -/

/-- A newline in a line is its last character, and cannot be in a trimmed part of it. -/
private theorem no_newline {text value : List Char}
    (ends : ∀ c ∈ text.dropLast, (c == '\n') = false) (inside : value <:+: text)
    (last : ∀ c ∈ value.getLast?, isSpace c = false) : '\n' ∉ value := by
  intro newline
  obtain ⟨front, back, rfl⟩ := List.append_of_mem newline
  obtain ⟨before, after, rfl⟩ := inside
  by_cases rest : back ++ after = []
  · obtain ⟨rfl, rfl⟩ := List.append_eq_nil_iff.mp rest
    exact absurd (last '\n' (by simp)) (by decide)
  · have early : '\n' ∈ (before ++ (front ++ '\n' :: back) ++ after).dropLast := by
      have regroup : before ++ (front ++ '\n' :: back) ++ after =
          (before ++ front ++ ['\n']) ++ (back ++ after) := by simp
      rw [regroup, List.dropLast_append_of_ne_nil rest]
      simp
    exact absurd (ends '\n' early) (by decide)

/-- A list is read only if its lines can be counted, and no value contains a newline. -/
theorem readLines_ok {filename : String} {linenum : Nat} {readlist result : List LCFGContext}
    {texts : List (List Char)} (below : linenum < 2 ^ 31)
    (ends : ∀ text ∈ texts, ∀ c ∈ text.dropLast, (c == '\n') = false)
    (read : readLines filename linenum readlist texts = .ok result)
    (old : ∀ ctx ∈ readlist, ∀ value, ctx.value = some value → '\n' ∉ value.toList) :
    linenum + texts.length < 2 ^ 31 ∧
      ∀ ctx ∈ result, ∀ value, ctx.value = some value → '\n' ∉ value.toList := by
  induction texts generalizing linenum readlist with
  | nil =>
    injection read with read
    exact ⟨below, read ▸ old⟩
  | cons text rest ih =>
    have later : ∀ text ∈ rest, ∀ c ∈ text.dropLast, (c == '\n') = false := fun other member =>
      ends other (List.mem_cons_of_mem _ member)
    rw [readLines] at read
    rw [List.length_cons]
    split at read
    · cases read
    case isFalse some_ =>
    have below' : linenum + 1 < 2 ^ 31 := by omega
    dsimp only at read
    split at read
    -- an empty line or a comment is only counted
    · obtain ⟨counted, free⟩ := ih below' later read old
      exact ⟨by omega, free⟩
    cases parsed : fromString (some (String.ofList (text.dropWhile isSpace))) (linenum + 1 : Nat) with
    | error msg =>
      rw [parsed] at read
      cases read
    | ok ctx =>
      rw [parsed] at read
      dsimp only at read
      split at read
      · cases read
      -- a value which was read lies within its line, and ends in no space
      · have updated : ∀ other ∈ (update readlist ctx).1, ∀ value, other.value = some value →
            '\n' ∉ value.toList := by
          intro other member value here newline
          rcases mem_update member with there | rfl
          · exact old other there value here newline
          · obtain ⟨-, -, last⟩ := (fromString_parsed parsed).1.value value here
            have inside := fromString_value parsed here
            rw [String.toList_ofList] at inside
            exact no_newline (ends text List.mem_cons_self)
              (inside.trans (List.dropWhile_suffix isSpace).isInfix) last newline
        obtain ⟨counted, free⟩ := ih below' later read updated
        exact ⟨by omega, free⟩

/-- The contexts which are read have distinct names, and the numbers of lines as their
priorities. -/
theorem readLines_built {filename : String} {linenum : Nat} {readlist result : List LCFGContext}
    {texts : List (List Char)} (read : readLines filename linenum readlist texts = .ok result)
    (built : Built readlist) (below : ∀ ctx ∈ readlist, ctx.priority < 2 ^ 31)
    (counted : linenum < 2 ^ 31) :
    Built result ∧ ∀ ctx ∈ result, ctx.priority < 2 ^ 31 := by
  induction texts generalizing linenum readlist with
  | nil =>
    injection read with read
    exact read ▸ ⟨built, below⟩
  | cons text rest ih =>
    rw [readLines] at read
    split at read
    · cases read
    case isFalse some_ =>
    have next : linenum + 1 < 2 ^ 31 := by omega
    dsimp only at read
    split at read
    · exact ih read built below next
    cases parsed : fromString (some (String.ofList (text.dropWhile isSpace))) (linenum + 1 : Nat) with
    | error msg =>
      rw [parsed] at read
      cases read
    | ok ctx =>
      rw [parsed] at read
      dsimp only at read
      split at read
      · cases read
      · obtain ⟨new_, priority⟩ := fromString_parsed parsed
        refine ih read (update_built built new_).1 (fun other member => ?_) next
        rcases mem_update member with old | rfl
        · exact below other old
        · rw [priority]
          exact_mod_cast next

theorem fromFile_built {filename : String} {file : ContextFile} {options : LCFGOption}
    {ctxlist : List LCFGContext} (read : fromFile filename file options = .ok ctxlist) :
    Built ctxlist ∧ ∀ ctx ∈ ctxlist, ctx.priority < 2 ^ 31 := by
  have empty : Built [] := ⟨by simp, by simp⟩
  cases file with
  | missing =>
    rw [fromFile] at read
    split at read
    · injection read with read
      exact read ▸ ⟨empty, by simp⟩
    · cases read
  | unreadable => cases read
  | text content => exact readLines_built read empty (by simp) (by decide)

/-! ## The round trip -/

/-- The contexts with a value are there again, and those which had different priorities
have them in the same order. -/
structure Restored (ctxlist readlist : List LCFGContext) : Prop where
  contexts : (readlist.map content).Perm ((ctxlist.filter hasValue).map content)
  order : ∀ ctx ∈ ctxlist, ∀ other ∈ ctxlist, ctx.priority < other.priority →
    ∀ ctx' ∈ readlist, ∀ other' ∈ readlist, content ctx' = content ctx →
      content other' = content other → ctx'.priority < other'.priority
  increasing : readlist.Pairwise (·.priority < ·.priority)

/-- Two contexts of one name in a list of distinct names are the same one. -/
private theorem eq_of_name {ctxlist : List LCFGContext} {ctx other : LCFGContext}
    (distinct : (ctxlist.map LCFGContext.name).Nodup) (here : ctx ∈ ctxlist)
    (there : other ∈ ctxlist) (same : ctx.name = other.name) : ctx = other :=
  List.inj_on_of_nodup_map distinct here there same

theorem numbered_order {linenum : Nat} {sorted : List LCFGContext}
    (ordered : sorted.Pairwise fun ctx later => ctx.priority ≤ later.priority)
    (distinct : (sorted.map LCFGContext.name).Nodup) {ctx other ctx' other' : LCFGContext}
    (here : ctx ∈ sorted) (there : other ∈ sorted) (less : ctx.priority < other.priority)
    (here' : ctx' ∈ numbered linenum sorted) (there' : other' ∈ numbered linenum sorted)
    (same : ctx'.name = ctx.name) (same' : other'.name = other.name) :
    ctx'.priority < other'.priority := by
  induction sorted generalizing linenum with
  | nil => cases here
  | cons first rest ih =>
    obtain ⟨lowest, ordered⟩ := List.pairwise_cons.mp ordered
    have names : ∀ read ∈ numbered (linenum + 1) rest, ∃ old ∈ rest, read.name = old.name := by
      intro read member
      have mapped : content read ∈ rest.map content := by
        rw [← numbered_content (linenum + 1)]
        exact List.mem_map_of_mem member
      obtain ⟨old, there, equal⟩ := List.mem_map.mp mapped
      exact ⟨old, there, (congrArg Prod.fst equal).symm⟩
    -- a context of the rest is read from one of the rest
    have old_later : ∀ old ∈ first :: rest, ∀ read ∈ numbered (linenum + 1) rest,
        read.name = old.name → old ∈ rest := by
      intro old member read later equal
      obtain ⟨old', inside, equal'⟩ := names read later
      rw [eq_of_name distinct member (List.mem_cons_of_mem _ inside) (equal.symm.trans equal')]
      exact inside
    obtain ⟨-, above⟩ := numbered_increasing (linenum + 1) rest
    rcases List.mem_cons.mp here' with rfl | later
    · have isFirst := eq_of_name distinct here List.mem_cons_self same.symm
      rcases List.mem_cons.mp there' with rfl | later'
      · have isFirst' := eq_of_name distinct there List.mem_cons_self same'.symm
        rw [isFirst, isFirst'] at less
        exact absurd less (Int.lt_irrefl _)
      · exact above other' later'
    · have inside := old_later ctx here ctx' later same
      rcases List.mem_cons.mp there' with rfl | later'
      · have isFirst' := eq_of_name distinct there List.mem_cons_self same'.symm
        rw [isFirst'] at less
        exact absurd less (Int.not_lt.mpr (lowest ctx inside))
      · exact ih ordered (List.nodup_cons.mp distinct).2 inside
          (old_later other there other' later' same') later later'

/-- A list which was built from strings comes back from the file exactly if no value
contains a newline and the lines can be counted. -/
theorem fromFile_print_iff (calls : List (Option String × Int)) (filename : String)
    (options : LCFGOption) :
    (∃ text readlist, print (sortByPriority (build calls)) = some text ∧
      fromFile filename (.text text) options = .ok readlist ∧
      Restored (build calls) readlist) ↔
    (∀ ctx ∈ build calls, ∀ value, ctx.value = some value → '\n' ∉ value.toList) ∧
      ((build calls).filter hasValue).length < 2 ^ 31 := by
  have built := build_built calls
  have sortedBuilt := sortByPriority_built built
  obtain ⟨perm, ordered⟩ := sortByPriority_spec (build calls)
  have permWritten := perm.filter hasValue
  have text := print_eq fun ctx member => (sortedBuilt.parsed ctx member).isValid
  generalize kept : (sortByPriority (build calls)).filter hasValue = written at text permWritten
  have member_written : ∀ ctx ∈ written, ctx ∈ build calls ∧ ctx.hasValue = true := by
    intro ctx member
    exact List.mem_filter.mp (permWritten.mem_iff.mp member)
  -- without newlines in the values the text is cut into the lines which were written
  have cut : (∀ ctx ∈ build calls, ∀ value, ctx.value = some value → '\n' ∉ value.toList) →
      Fields.pieces (· == '\n') ((written.map line).map (· ++ ['\n'])).flatten =
        (written.map line).map (· ++ ['\n']) := by
    intro free
    refine Fields.pieces_flatten (by decide) fun part member => ?_
    obtain ⟨ctx, here, rfl⟩ := List.mem_map.mp member
    obtain ⟨there, -⟩ := member_written ctx here
    exact line_free (built.parsed ctx there) (free ctx there)
  constructor
  · rintro ⟨_, readlist, printed, read, restored⟩
    rw [text] at printed
    injection printed with printed
    rw [← printed, fromFile] at read
    -- what is read from lines has no newlines
    obtain ⟨counted, free⟩ := readLines_ok (by decide) (fun text => Fields.mem_pieces) read
      (by simp)
    have newlineFree : ∀ ctx ∈ build calls, ∀ value, ctx.value = some value →
        '\n' ∉ value.toList := by
      intro ctx member value valued
      have plain := ((built.parsed ctx member).value value valued).1
      have valued' : ctx ∈ (build calls).filter hasValue := by
        simp [List.mem_filter, member, hasValue, isEmpty, valued, plain]
      obtain ⟨ctx', there, same⟩ := List.mem_map.mp
        (restored.contexts.mem_iff.mpr (List.mem_map_of_mem valued'))
      exact free ctx' there value ((congrArg Prod.snd same).trans valued)
    refine ⟨newlineFree, ?_⟩
    rw [cut newlineFree, List.length_map, List.length_map, permWritten.length_eq] at counted
    omega
  · rintro ⟨newlineFree, few⟩
    rw [← permWritten.length_eq] at few
    have sub : written.Sublist (sortByPriority (build calls)) := kept ▸ List.filter_sublist
    have names : (written.map LCFGContext.name).Nodup :=
      (sub.map _).nodup sortedBuilt.distinct
    have read := @readLines_written filename 0 [] written (by omega) (by simp)
      (fun ctx member => ⟨built.parsed ctx (member_written ctx member).1,
        (member_written ctx member).2⟩) names
    refine ⟨_, numbered 0 written, text, ?_, ?_, ?_, (numbered_increasing 0 written).1⟩
    · rw [fromFile, cut newlineFree, read, List.nil_append]
    · rw [numbered_content]
      exact permWritten.map content
    · intro ctx here other there less ctx' here' other' there' same same'
      have inWritten : ∀ old ∈ build calls, ∀ new_ ∈ numbered 0 written,
          content new_ = content old → old ∈ written := by
        intro old inside new_ inside' equal
        have mapped : content new_ ∈ written.map content := by
          rw [← numbered_content 0]
          exact List.mem_map_of_mem inside'
        obtain ⟨old', there, equal'⟩ := List.mem_map.mp mapped
        rw [eq_of_name built.distinct inside (member_written old' there).1
          (congrArg Prod.fst (equal.symm.trans equal'.symm))]
        exact there
      exact numbered_order (ordered.sublist sub) names (inWritten ctx here ctx' here' same)
        (inWritten other there other' there' same') less here' there'
        (congrArg Prod.fst same) (congrArg Prod.fst same')

/-- The second line of a value is read as a context of its own. -/
theorem sample_newline_lost :
    ¬∃ text readlist, print (sortByPriority (build [(some "a=x\ny", 1)])) = some text ∧
      fromFile "pending" (.text text) {} = .ok readlist ∧
      Restored (build [(some "a=x\ny", 1)]) readlist := by
  rintro ⟨text, readlist, printed, read, -⟩
  have written : print (sortByPriority (build [(some "a=x\ny", 1)])) =
      some "a=x\ny\n".toList := by decide
  rw [written] at printed
  injection printed with printed
  have refused : fromFile "pending" (.text "a=x\ny\n".toList) {} = .error (.message
      ("Failed to parse context 'y\n' on line 2 of pending: " ++
        "Invalid context (missing '=' assignment character)")) := by decide
  rw [← printed, refused] at read
  cases read

end LCFGContextList

end Lcfg
