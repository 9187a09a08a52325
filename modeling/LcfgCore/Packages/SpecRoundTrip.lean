import LcfgCore.Packages.Spec

/-!
# Reading a specification back

What `lcfgpackage_from_spec` makes of the text of `lcfgpackage_to_spec`: each
step of the reader takes one part off the end of what was written.
-/
namespace Lcfg.Package

/-! ## The characters of the parts -/

private theorem ne_of_class {allows : Char → Bool} {c d : Char} (here : allows c = true)
    (other : allows d = false) : c ≠ d := by
  rintro rfl
  rw [here] at other
  cases other

private theorem isSpace_of_alnum {c : Char} (alnum : c.isAlphanum = true) : isSpace c = false := by
  have range : 48 ≤ c.val.toNat := by
    have lower : '0'.val.toNat = 48 := rfl
    have upper : 'A'.val.toNat = 65 := rfl
    have small : 'a'.val.toNat = 97 := rfl
    unfold Char.isAlphanum Char.isAlpha Char.isUpper Char.isLower Char.isDigit at alnum
    simp only [Bool.or_eq_true, Bool.and_eq_true, decide_eq_true_eq, UInt32.le_iff_toNat_le, ge_iff_le] at alnum
    omega
  have value : 48 ≤ c.toNat := range
  have blank : c ≠ ' ' := by
    rintro rfl
    exact absurd value (by decide)
  simp [isSpace, blank]
  omega

theorem isSpace_of_verChar {c : Char} (ver : isVerChar c = true) : isSpace c = false := by
  rw [isVerChar, Bool.or_eq_true] at ver
  rcases ver with alnum | other
  · exact isSpace_of_alnum alnum
  · have listed : ∀ d ∈ ".~_+-:*?".toList, isSpace d = false := Fields.of_all (by decide)
    exact listed c (List.contains_iff_mem.mp other)

private theorem verChar_of_relChar {c : Char} (rel : isRelChar c = true) : isVerChar c = true := by
  rw [isRelChar, Bool.or_eq_true] at rel
  rcases rel with alnum | other
  · rw [isVerChar, alnum, Bool.true_or]
  · have listed : ∀ d ∈ ".~_+*?".toList, isVerChar d = true := Fields.of_all (by decide)
    exact listed c (List.contains_iff_mem.mp other)

private theorem verChar_of_nameChar {c : Char} (name : isNameChar c = true) :
    isVerChar c = true := by
  simp only [isNameChar, isWord, Bool.or_eq_true, beq_iff_eq] at name
  rcases name with (((alnum | rfl) | rfl) | rfl) | rfl
  · rw [isVerChar, alnum, Bool.true_or]
  all_goals decide

/-! ## The walkers -/

section Walkers

variable {separator c : Char} {stop : List Char}

/-- The walk goes back over a field, and over blanks behind it, to a character
which stops it. -/
theorem walkBackwards_cut (before field spaces rest : List Char)
    (walked : ∀ x ∈ field, x ≠ separator ∧ x ∉ stop)
    (stops : c = separator ∨ c ∈ stop) (last : ∀ x ∈ (c :: field).getLast?, isSpace x = false)
    (blank : ∀ x ∈ spaces, isSpace x = true) :
    walkBackwardsUntil (before ++ c :: field ++ spaces ++ rest)
        (before ++ c :: field ++ spaces).length separator stop =
      if c = separator then
        (true, before.length, if field = [] then none else some (field.dropWhile isSpace))
      else (false, (before ++ c :: field ++ spaces).length, none) := by
  have trimmed : (before ++ c :: field ++ spaces).rdropWhile isSpace = before ++ c :: field := by
    rw [Fields.rdropWhile_append_of_pos blank]
    apply Fields.rdropWhile_eq_self
    intro x final
    apply last x
    have cons := List.getLast?_eq_some_getLast (List.cons_ne_nil c field)
    rw [List.getLast?_append, cons] at final
    rw [cons]
    exact final
  have goesOn : ∀ x ∈ field, (x != separator && !stop.contains x) = true := by
    intro x member
    obtain ⟨other, free⟩ := walked x member
    simp [other, free]
  have halts : (c != separator && !stop.contains c) = false := by
    rcases stops with rfl | listed
    · simp
    · simp [listed]
  -- the text is looked at up to the last character which is no space
  have seen : (before ++ c :: field ++ spaces ++ rest).take (max (before ++ c :: field).length 1) =
      before ++ c :: field := by
    have pos : max (before ++ c :: field).length 1 = (before ++ c :: field).length :=
      max_eq_left (by simp; omega)
    rw [pos, List.append_assoc, List.take_left]
  unfold walkBackwardsUntil
  rw [List.take_left, trimmed]
  simp only [seen, Fields.rtakeWhile_cut goesOn halts, Fields.rdropWhile_cut goesOn halts,
    List.getLast?_concat, Option.some.injEq]
  rw [List.length_append, List.length_singleton, Nat.add_sub_cancel]

/-- A separator which stands before a stop character is not found. -/
theorem walkBackwards_stopped (before field rest : List Char) (stops : c ∈ stop) (other : c ≠ separator)
    (fresh : separator ∉ field) (last : ∀ x ∈ (c :: field).getLast?, isSpace x = false) :
    walkBackwardsUntil (before ++ c :: field ++ rest) (before ++ c :: field).length separator stop =
      (false, (before ++ c :: field).length, none) := by
  have occurs : ∃ x ∈ c :: field, stop.contains x = true :=
    ⟨c, List.mem_cons_self, List.contains_iff_mem.mpr stops⟩
  -- the walk stops at the last of the stopping characters
  obtain ⟨front, d, behind, same, listed, free⟩ := Fields.exists_last_cut occurs
  have different : d ≠ separator := by
    rintro rfl
    have member : d ∈ c :: field := by rw [same]; simp
    rcases List.mem_cons.mp member with rfl | inside
    · exact other rfl
    · exact fresh inside
  have walked : ∀ x ∈ behind, x ≠ separator ∧ x ∉ stop := by
    intro x member
    have notStop : x ∉ stop := by simpa using free x member
    refine ⟨?_, notStop⟩
    rintro rfl
    have inside : x ∈ c :: field := by rw [same]; simp [member]
    rcases List.mem_cons.mp inside with rfl | inside
    · exact notStop stops
    · exact fresh inside
  have lastToo : ∀ x ∈ (d :: behind).getLast?, isSpace x = false := by
    intro x final
    apply last x
    rw [same, List.getLast?_append, final]
    rfl
  have cut := walkBackwards_cut (before ++ front) behind [] rest walked
    (.inr (List.contains_iff_mem.mp listed)) lastToo (by simp)
  rw [if_neg different] at cut
  simpa [same] using cut

/-- A separator which does not occur is not found. -/
theorem walkBackwards_absent {field : List Char} (rest : List Char) (some_ : field ≠ []) (fresh : ∀ x ∈ field, x ≠ separator ∧ x ∉ stop)
    (last : ∀ x ∈ field.getLast?, isSpace x = false) :
    walkBackwardsUntil (field ++ rest) field.length separator stop =
      (false, field.length, none) := by
  have trimmed := Fields.rdropWhile_eq_self last
  have pos : max field.length 1 = field.length :=
    max_eq_left (List.length_pos_iff.mpr some_)
  have goesOn : ∀ x ∈ field, (x != separator && !stop.contains x) = true := by
    intro x member
    obtain ⟨other, free⟩ := fresh x member
    simp [other, free]
  unfold walkBackwardsUntil
  rw [List.take_left, trimmed]
  simp only [pos, List.take_left]
  rw [List.rdropWhile_eq_nil_iff.mpr goesOn]
  rfl

end Walkers

/-! ## What was written -/

/-- A value which is there and not empty. -/
def present (value : Option String) : Option String := if isEmpty value then none else value

@[simp] theorem present_getD (value : Option String) : (present value).getD "" = value.getD "" := by
  cases value with
  | none => rfl
  | some v => by_cases empty : v = "" <;> simp [present, isEmpty, empty]

/-- The characters of a part of the text. -/
def partChars (before : List Char) (value : Option String) (after : List Char) : List Char :=
  match present value with
  | none => []
  | some v => before ++ v.toList ++ after

theorem part_toList (before : String) (value : Option String) (after : String) :
    (part before value after).toList = partChars before.toList value after.toList := by
  cases value with
  | none => rfl
  | some v =>
    by_cases empty : v = ""
    · simp [part, partChars, present, isEmpty, empty]
    · simp [part, partChars, present, isEmpty, empty, String.toList_append]

theorem present_some {value : Option String} {v : String} (there : present value = some v) :
    value = some v ∧ v ≠ "" := by
  cases value with
  | none => cases there
  | some w =>
    by_cases empty : w = ""
    · simp [present, isEmpty, empty] at there
    · have same : w = v := by simpa [present, isEmpty, empty] using there
      exact ⟨by rw [same], same ▸ empty⟩

/-- All names, versions, releases, architectures and flags consist of characters
which are valid in a version; none of them is blank or a bracket. -/
def VerChars (chars : List Char) : Prop := ∀ c ∈ chars, isVerChar c = true

theorem VerChars.fresh {chars : List Char} (ver : VerChars chars) {d : Char}
    (other : isVerChar d = false) : d ∉ chars :=
  fun member => ne_of_class (ver d member) other rfl

theorem VerChars.append {chars more : List Char} (ver : VerChars chars)
    (also : VerChars more) : VerChars (chars ++ more) := by
  intro c member
  rcases List.mem_append.mp member with old | new
  · exact ver c old
  · exact also c new

theorem VerChars.last {chars : List Char} (ver : VerChars chars) :
    ∀ x ∈ chars.getLast?, isSpace x = false := fun x final =>
  isSpace_of_verChar (ver x (List.mem_of_getLast? final))

theorem VerChars.unspaced {chars : List Char} (ver : VerChars chars) :
    chars.dropWhile isSpace = chars :=
  Fields.dropWhile_eq_self fun x first => isSpace_of_verChar (ver x (List.mem_of_head? first))

section Values

variable {signedChar : Bool} {value : String}

theorem validName_chars (valid : validName value = true) : ∀ c ∈ value.toList, isNameChar c = true := by
  unfold validName at valid
  cases chars : value.toList with
  | nil => simp
  | cons c rest =>
    simp only [chars, Bool.and_eq_true, List.all_eq_true] at valid
    intro d member
    rcases List.mem_cons.mp member with rfl | inside
    · rw [isNameChar, isWord, valid.1, Bool.true_or, Bool.true_or, Bool.true_or, Bool.true_or]
    · exact valid.2 d inside

theorem validName_verChars (valid : validName value = true) : VerChars value.toList :=
  fun c member => verChar_of_nameChar (validName_chars valid c member)

theorem validVersion_verChars (valid : validVersion value = true) : VerChars value.toList := by
  simp only [validVersion, Bool.and_eq_true, List.all_eq_true] at valid
  exact valid.2

theorem validRelease_verChars (valid : validRelease value = true) : VerChars value.toList := by
  simp only [validRelease, Bool.and_eq_true, List.all_eq_true] at valid
  exact fun c member => verChar_of_relChar (valid.2 c member)

/-- The last hyphen before a release is the one which separates it. -/
theorem validRelease_hyphen (valid : validRelease value = true) : '-' ∉ value.toList := by
  simp only [validRelease, Bool.and_eq_true, List.all_eq_true] at valid
  intro member
  have rel := valid.2 '-' member
  revert rel
  decide

theorem validArch_chars (valid : validArch value = true) :
    ∀ c ∈ value.toList, (isWord c || c == '-') = true := by
  simp only [validArch, Bool.and_eq_true, List.all_eq_true] at valid
  exact valid.2

theorem validArch_verChars (valid : validArch value = true) : VerChars value.toList := by
  intro c member
  have either := validArch_chars valid c member
  rw [Bool.or_eq_true, beq_iff_eq] at either
  rcases either with word | rfl
  · exact verChar_of_nameChar (by rw [isNameChar, word, Bool.true_or, Bool.true_or, Bool.true_or])
  · decide

theorem validFlags_alnum (valid : validFlags value = true) :
    ∀ c ∈ value.toList, c.isAlphanum = true := by
  simp only [validFlags, Bool.and_eq_true, List.all_eq_true] at valid
  exact valid.2

end Values

/-- The text ends with a stop character and some others, of which none is one of
those to look for. -/
def EndsAt (stops fresh : List Char) (text : List Char) : Prop :=
  ∃ before c tail, text = before ++ c :: tail ∧ c ∈ stops ∧ (∀ x ∈ fresh, x ∉ tail) ∧
    ∀ x ∈ c :: tail, isSpace x = false

/-! ## The steps of the reader -/

/-- The value which is read from a context in brackets: what stands behind its last
opening bracket, without the blanks around it. -/
theorem walk_bracket (text chars rest : List Char) :
    ∃ front behind, '[' :: chars = front ++ '[' :: behind ∧ '[' ∉ behind ∧
      walkBackwardsUntil (text ++ '[' :: chars ++ rest) (text ++ '[' :: chars).length '[' [] =
        (true, (text ++ front).length,
          if behind.rdropWhile isSpace = [] then none
          else some ((behind.rdropWhile isSpace).dropWhile isSpace)) := by
  have occurs : ∃ x ∈ '[' :: chars, (x == '[') = true := ⟨'[', List.mem_cons_self, rfl⟩
  obtain ⟨front, bracket, behind, same, is, free⟩ := Fields.exists_last_cut occurs
  have is := beq_iff_eq.mp is
  subst is
  have fresh : '[' ∉ behind := by
    intro member
    have other := free '[' member
    cases other
  refine ⟨front, behind, same, fresh, ?_⟩
  -- the blanks at its end do not belong to the value
  have field : behind = behind.rdropWhile isSpace ++ behind.rtakeWhile isSpace :=
    List.rdropWhile_append_rtakeWhile.symm
  have walked : ∀ x ∈ behind.rdropWhile isSpace, x ≠ '[' ∧ x ∉ ([] : List Char) := by
    intro x member
    refine ⟨?_, List.not_mem_nil⟩
    rintro rfl
    exact fresh ((List.rdropWhile_prefix isSpace behind).subset member)
  have last : ∀ x ∈ ('[' :: behind.rdropWhile isSpace).getLast?, isSpace x = false := by
    intro x final
    by_cases nothing : behind.rdropWhile isSpace = []
    · rw [nothing] at final
      cases final
      decide
    · rw [List.getLast?_cons, List.getLast?_eq_some_getLast nothing] at final
      cases final
      exact Bool.eq_false_iff.mpr (List.rdropWhile_last_not isSpace behind nothing)
  have cut := walkBackwards_cut (text ++ front) (behind.rdropWhile isSpace)
    (behind.rtakeWhile isSpace) rest walked (.inl rfl) last fun x member =>
      List.mem_rtakeWhile_imp member
  rw [if_pos rfl] at cut
  have whole : text ++ '[' :: chars =
      text ++ front ++ '[' :: behind.rdropWhile isSpace ++ behind.rtakeWhile isSpace := by
    rw [same, List.append_assoc (text ++ front), List.cons_append, ← field, List.append_assoc]
  rw [whole, cut]

/-- No opening bracket, and no blanks around it. -/
def ContextKept (ctx : String) : Prop :=
  '[' ∉ ctx.toList ∧ (∀ c ∈ ctx.toList.head?, isSpace c = false) ∧
    ∀ c ∈ ctx.toList.getLast?, isSpace c = false

theorem parseContext_brackets {signedChar : Bool} {pkg : LCFGPackage}
    {text chars rest : List Char} {len : Nat} {field : Option (List Char)}
    (walk : walkBackwardsUntil (text ++ '[' :: chars ++ (']' :: rest))
      (text ++ '[' :: chars).length '[' [] = (true, len, field)) :
    parseContext signedChar pkg (text ++ '[' :: chars ++ [']'] ++ rest)
        (text ++ '[' :: chars ++ [']']).length =
      field.elim (.ok (pkg, len)) fun f =>
        (orInvalid (setContext signedChar pkg (String.ofList f))
          ("bad context '" ++ String.ofList f ++ "'")).map fun pkg => (pkg, len) := by
  have length : (text ++ '[' :: chars ++ [']']).length - 1 = (text ++ '[' :: chars).length := by
    rw [List.length_append, List.length_singleton, Nat.add_sub_cancel]
  have ends : ((text ++ '[' :: chars ++ [']'] ++ rest).take
      (text ++ '[' :: chars ++ [']']).length).getLast? = some ']' := by
    rw [List.take_left, List.getLast?_concat]
  rw [parseContext, if_pos ends, length, List.append_assoc _ [']'] rest, List.singleton_append, walk]
  cases field <;> rfl

section Steps

variable {signedChar : Bool} {pkg : LCFGPackage} {text : List Char}

private theorem parseContext_absent (rest : List Char) (ends : text.getLast? ≠ some ']') :
    parseContext signedChar pkg (text ++ rest) text.length = .ok (pkg, text.length) := by
  rw [parseContext, List.take_left, if_neg ends]

theorem parseContext_part (signedChar : Bool) (pkg : LCFGPackage) (rest : List Char) (ends : text.getLast? ≠ some ']')
    (ctx : Option String) (kept : ∀ c, present ctx = some c → ContextKept c)
    (valid : ∀ c ∈ ctx, validContext signedChar c = true) (unset : pkg.context = none) :
    parseContext signedChar pkg (text ++ partChars ['['] ctx [']'] ++ rest)
        (text ++ partChars ['['] ctx [']']).length =
      .ok ({ pkg with context := present ctx }, text.length) := by
  cases there : present ctx with
  | none =>
    rw [partChars, there, List.append_nil, parseContext_absent rest ends]
    rw [← unset]
  | some c =>
    obtain ⟨given, some_⟩ := present_some there
    obtain ⟨fresh, first, last⟩ := kept c there
    obtain ⟨front, behind, same, -, walk⟩ := walk_bracket text c.toList (']' :: rest)
    -- the bracket found is the one which was written, because the context has none of its own
    have whole : front = [] ∧ behind = c.toList := by
      cases front with
      | nil => exact ⟨rfl, (List.cons.inj same).2.symm⟩
      | cons d front =>
        have inside := (List.cons.inj same).2
        exact absurd (by rw [inside]; simp) fresh
    obtain ⟨rfl, rfl⟩ := whole
    have trimmed := Fields.rdropWhile_eq_self last
    have unspaced := Fields.dropWhile_eq_self first
    have notNil : c.toList ≠ [] := by simpa using some_
    rw [trimmed, unspaced, if_neg notNil, List.append_nil] at walk
    have written : text ++ partChars ['['] ctx [']'] = text ++ '[' :: c.toList ++ [']'] := by
      simp [partChars, there]
    rw [written, parseContext_brackets walk, Option.elim_some, String.ofList_toList, setContext,
      if_pos (valid c given)]
    rfl

private theorem parseFlags_absent (rest : List Char) (ends : EndsAt ['/', '-', '='] [':'] text) :
    parseFlags pkg (text ++ rest) text.length = .ok (pkg, text.length) := by
  obtain ⟨before, c, tail, rfl, stops, fresh, unspaced⟩ := ends
  have listed : ∀ d ∈ ['/', '-', '='], d ∈ "/-=.~_+-*?".toList ∧ d ≠ ':' := Fields.of_all (by decide)
  obtain ⟨stop, other⟩ := listed c stops
  rw [parseFlags, walkBackwards_stopped before tail rest stop other (fresh ':' (by simp))]
  exact fun x final => unspaced x (List.mem_of_getLast? final)

theorem parseFlags_part (pkg : LCFGPackage) (rest : List Char) (ends : EndsAt ['/', '-', '='] [':'] text)
    (flags : Option String) (valid : ∀ f ∈ flags, validFlags f = true) (unset : pkg.flags = none) :
    parseFlags pkg (text ++ partChars [':'] flags [] ++ rest)
        (text ++ partChars [':'] flags []).length =
      .ok ({ pkg with flags := present flags }, text.length) := by
  cases there : present flags with
  | none =>
    rw [partChars, there, List.append_nil, parseFlags_absent rest ends]
    rw [← unset]
  | some f =>
    obtain ⟨given, some_⟩ := present_some there
    have alnum := validFlags_alnum (valid f given)
    -- flags are letters and digits, and so the walk goes over them to the colon
    have walked : ∀ x ∈ f.toList, x ≠ ':' ∧ x ∉ "/-=.~_+-*?".toList := by
      intro x member
      have listed : ∀ d ∈ ':' :: "/-=.~_+-*?".toList, d.isAlphanum = false := Fields.of_all (by decide)
      refine ⟨ne_of_class (alnum x member) (listed ':' List.mem_cons_self), fun stop => ?_⟩
      exact ne_of_class (alnum x member) (listed x (List.mem_cons_of_mem _ stop)) rfl
    have last : ∀ x ∈ (':' :: f.toList).getLast?, isSpace x = false := by
      intro x final
      rcases List.mem_cons.mp (List.mem_of_getLast? final) with rfl | member
      · decide
      · exact isSpace_of_alnum (alnum x member)
    have notNil : f.toList ≠ [] := by simpa using some_
    have unspaced : f.toList.dropWhile isSpace = f.toList :=
      Fields.dropWhile_eq_self fun x first => isSpace_of_alnum (alnum x (List.mem_of_head? first))
    have cut := walkBackwards_cut text f.toList [] rest walked (.inl rfl) last (by simp)
    rw [if_pos rfl, if_neg notNil, unspaced, List.append_nil] at cut
    have written : text ++ partChars [':'] flags [] = text ++ ':' :: f.toList := by
      simp [partChars, there]
    rw [parseFlags, written, cut]
    simp only [String.ofList_toList, setFlags, valid f given, if_true, orInvalid]
    rfl

private theorem walk_arch_absent (rest : List Char) (ends : EndsAt ['-', '='] ['/'] text) :
    walkBackwardsUntil (text ++ rest) text.length '/' "-=".toList = (false, text.length, none) := by
  obtain ⟨before, c, tail, rfl, stops, fresh, unspaced⟩ := ends
  have listed : ∀ d ∈ ['-', '='], d ∈ "-=".toList ∧ d ≠ '/' := Fields.of_all (by decide)
  obtain ⟨stop, other⟩ := listed c stops
  rw [walkBackwards_stopped before tail rest stop other (fresh '/' (by simp))]
  exact fun x final => unspaced x (List.mem_of_getLast? final)

private theorem arch_congr {arch other : Option String} (same : arch = other)
    (valid : ∀ a ∈ arch, validArch a = true) (also : ∀ a ∈ other, validArch a = true) :
    ({ pkg with arch := arch, arch_valid := valid } : LCFGPackage) =
      { pkg with arch := other, arch_valid := also } := by
  subst same
  rfl

theorem parseArch_part (pkg : LCFGPackage) (rest : List Char) (ends : EndsAt ['-', '='] ['/'] text)
    (arch : Option String) (kept : ∀ a, present arch = some a → '-' ∉ a.toList)
    (valid : ∀ a ∈ present arch, validArch a = true) (unset : pkg.arch = none) :
    parseArch pkg (text ++ partChars ['/'] arch [] ++ rest)
        (text ++ partChars ['/'] arch []).length none =
      .ok ({ pkg with arch := present arch, arch_valid := valid }, text.length) := by
  rcases Option.eq_none_or_eq_some (present arch) with there | ⟨a, there⟩
  · have written : partChars ['/'] arch [] = [] := by simp [partChars, there]
    rw [arch_congr (there.trans unset.symm) valid pkg.arch_valid, written, List.append_nil,
      parseArch, walk_arch_absent rest ends]
    rfl
  · have ver := validArch_verChars (valid a there)
    have some_ := (present_some there).2
    -- an architecture has no hyphen, and the walk goes over it to the slash
    have walked : ∀ x ∈ a.toList, x ≠ '/' ∧ x ∉ "-=".toList := by
      intro x member
      refine ⟨ne_of_class (ver x member) (by decide), fun stop => ?_⟩
      have listed : ∀ d ∈ "-=".toList, d = '-' ∨ d = '=' := Fields.of_all (by decide)
      rcases listed x stop with rfl | rfl
      · exact kept a there member
      · exact ver.fresh (by decide) member
    have last : ∀ x ∈ ('/' :: a.toList).getLast?, isSpace x = false := by
      intro x final
      rcases List.mem_cons.mp (List.mem_of_getLast? final) with rfl | member
      · decide
      · exact isSpace_of_verChar (ver x member)
    have notNil : a.toList ≠ [] := by simpa using some_
    have cut := walkBackwards_cut text a.toList [] rest walked (.inl rfl) last (by simp)
    rw [if_pos rfl, if_neg notNil, ver.unspaced, List.append_nil] at cut
    have written : text ++ partChars ['/'] arch [] = text ++ '/' :: a.toList := by
      simp [partChars, there]
    rw [parseArch, written, cut, arch_congr there valid (by simpa using valid a there)]
    simp only [Option.orElse_none, String.ofList_toList, setArch, valid a there, dif_pos, orInvalid]
    rfl

theorem walk_equals (name rest : List Char) {chars : List Char} (ver : VerChars chars)
    (some_ : chars ≠ []) :
    walkBackwardsUntil (name ++ '=' :: chars ++ rest) (name ++ '=' :: chars).length '=' [] =
      (true, name.length, some chars) := by
  have walked : ∀ x ∈ chars, x ≠ '=' ∧ x ∉ ([] : List Char) :=
    fun x member => ⟨ne_of_class (ver x member) (by decide), List.not_mem_nil⟩
  have last : ∀ x ∈ ('=' :: chars).getLast?, isSpace x = false := by
    intro x final
    rcases List.mem_cons.mp (List.mem_of_getLast? final) with rfl | member
    · decide
    · exact isSpace_of_verChar (ver x member)
  have cut := walkBackwards_cut name chars [] rest walked (.inl rfl) last (by simp)
  rwa [if_pos rfl, if_neg some_, ver.unspaced, List.append_nil] at cut

/-- In the modern style the version may hold hyphens, when a release follows it. -/
theorem splitVersion_modern (name rest : List Char) {ver : String} (rel : Option String)
    (version : VerChars ver.toList) (some_ : ver ≠ "")
    (release : ∀ r ∈ present rel, validRelease r = true)
    (hyphen : present rel = none → '-' ∉ ver.toList) :
    splitVersion (name ++ '=' :: (ver.toList ++ partChars ['-'] rel []) ++ rest)
        (name ++ '=' :: (ver.toList ++ partChars ['-'] rel [])).length =
      .ok (some ver.toList, (present rel).map String.toList, name.length) := by
  have notNil : ver.toList ≠ [] := by simpa using some_
  have chars : VerChars (ver.toList ++ partChars ['-'] rel []) := by
    apply version.append
    intro c member
    cases there : present rel with
    | none => simp [partChars, there] at member
    | some r =>
      have listed : c = '-' ∨ c ∈ r.toList := by simpa [partChars, there] using member
      rcases listed with rfl | inside
      · decide
      · exact validRelease_verChars (release r there) c inside
  rw [splitVersion, walk_equals name rest chars (by simp [notNil])]
  cases there : present rel with
  | none =>
    -- without a release the version has no hyphen to be cut at
    have same : ver.toList ++ partChars ['-'] rel [] = ver.toList := by simp [partChars, there]
    have free : ver.toList.contains '-' = false := by simpa using hyphen there
    simp only [same, free, Bool.false_eq_true, if_false, Option.map_none]
  | some r =>
    have same : ver.toList ++ partChars ['-'] rel [] = ver.toList ++ '-' :: r.toList := by
      simp [partChars, there]
    -- a release has no hyphen, so that the last one is the one written
    have free := validRelease_hyphen (release r there)
    have walkedBack : ∀ x ∈ r.toList, (x != '-') = true := by
      intro x member
      rw [bne_iff_ne]
      rintro rfl
      exact free member
    have hyphens : (ver.toList ++ '-' :: r.toList).contains '-' = true := by simp
    have halts : ('-' != '-') = false := by decide
    simp only [same, hyphens, if_true, Fields.rdropWhile_cut walkedBack halts,
      Fields.rtakeWhile_cut walkedBack halts, List.dropLast_concat, Option.map_some]

theorem splitVersion_legacy (rest : List Char) {name ver rel : String}
    (nameChars : VerChars name.toList) (version : VerChars ver.toList)
    (release : VerChars rel.toList) (someVersion : ver ≠ "") (someRelease : rel ≠ "")
    (hyphenVersion : '-' ∉ ver.toList) (hyphenRelease : '-' ∉ rel.toList) :
    splitVersion (name.toList ++ '-' :: ver.toList ++ '-' :: rel.toList ++ rest)
        (name.toList ++ '-' :: ver.toList ++ '-' :: rel.toList).length =
      .ok (some ver.toList, some rel.toList, name.toList.length) := by
  have hyphen : VerChars ['-'] := by
    intro c member
    rw [List.mem_singleton.mp member]
    decide
  have chars : VerChars (name.toList ++ '-' :: ver.toList ++ '-' :: rel.toList) := by
    have parts := ((nameChars.append (hyphen.append version)).append (hyphen.append release))
    simpa using parts
  have verNil : ver.toList ≠ [] := by simpa using someVersion
  have relNil : rel.toList ≠ [] := by simpa using someRelease
  have walkedVersion : ∀ x ∈ ver.toList, x ≠ '-' ∧ x ∉ ([] : List Char) := fun x member =>
    ⟨fun same => hyphenVersion (same ▸ member), List.not_mem_nil⟩
  have walkedRelease : ∀ x ∈ rel.toList, x ≠ '-' ∧ x ∉ ([] : List Char) := fun x member =>
    ⟨fun same => hyphenRelease (same ▸ member), List.not_mem_nil⟩
  -- there is no equals sign, and so the style is the older one
  have equals : walkBackwardsUntil (name.toList ++ '-' :: ver.toList ++ '-' :: rel.toList ++ rest)
      (name.toList ++ '-' :: ver.toList ++ '-' :: rel.toList).length '=' [] =
      (false, (name.toList ++ '-' :: ver.toList ++ '-' :: rel.toList).length, none) := by
    apply walkBackwards_absent rest (by simp) _ chars.last
    exact fun x member => ⟨ne_of_class (chars x member) (by decide), List.not_mem_nil⟩
  have first := walkBackwards_cut (name.toList ++ '-' :: ver.toList) rel.toList [] rest
    walkedRelease (.inl rfl) (hyphen.append release).last (by simp)
  have second := walkBackwards_cut name.toList ver.toList [] ('-' :: rel.toList ++ rest)
    walkedVersion (.inl rfl) (hyphen.append version).last (by simp)
  rw [if_pos rfl, if_neg relNil, release.unspaced, List.append_nil] at first
  rw [if_pos rfl, if_neg verNil, version.unspaced, List.append_nil] at second
  rw [← List.append_assoc] at second
  rw [splitVersion, equals]
  simp only [first, second]

/-- What is left when version and release are taken off is the name. -/
theorem parseVersion_of_split {start : List Char} {len : Nat} {name ver : String}
    {rel : Option String} {rest : List Char} (starts : start = name.toList ++ rest)
    (split : splitVersion start len =
      .ok (some ver.toList, rel.map String.toList, name.toList.length))
    (validName : validName name = true) (validVersion : validVersion ver = true)
    (validRelease : ∀ r ∈ rel, validRelease r = true) (unset : pkg.release = none) :
    parseVersion pkg start len =
      .ok { pkg with
            version := some ver
            release := rel
            name := some name
            name_valid := by simpa using validName } := by
  have someVersion : ver ≠ "" := by
    rintro rfl
    cases validVersion
  have someName : name.toList.length ≠ 0 := by
    intro nothing
    have empty : name = "" := by simpa using nothing
    rw [empty] at validName
    cases validName
  have versionSet : setPart setVersion "version" (some ver.toList) pkg =
      .ok { pkg with version := some ver } := by
    simp [setPart, someVersion, setVersion, validVersion, orInvalid]
  have releaseSet : setPart setRelease "release" (rel.map String.toList)
      { pkg with version := some ver } =
      .ok { pkg with version := some ver, release := rel } := by
    cases rel with
    | none => simp [setPart, unset]
    | some r =>
      have valid := validRelease r rfl
      have someRelease : r ≠ "" := by
        rintro rfl
        cases valid
      simp [setPart, someRelease, setRelease, valid, orInvalid]
  rw [parseVersion, split]
  simp only [bind, Except.bind, versionSet, releaseSet, if_neg someName, starts, List.take_left,
    String.ofList_toList, setName, validName, dif_pos, orInvalid]

end Steps

/-! ## The front of the text -/

theorem walkForwards_stopped {start front more : List Char} {separator c : Char}
    {stop : List Char} (starts : start = front ++ c :: more) (stops : c ∈ stop)
    (other : c ≠ separator) (fresh : separator ∉ front)
    (unspaced : start.dropWhile isSpace = start) :
    walkForwardsUntil start separator stop = (false, start, none) := by
  have halt : ∃ d rest, start.dropWhile (fun c => c != separator && !stop.contains c) = d :: rest ∧
      d ≠ separator := by
    subst starts
    clear unspaced
    induction front with
    | nil =>
      refine ⟨c, more, ?_, other⟩
      rw [List.nil_append]
      exact List.dropWhile_cons_of_neg (by simp [stops])
    | cons x front ih =>
      have different : x ≠ separator := fun same => fresh (by simp [same])
      by_cases listed : x ∈ stop
      · refine ⟨x, front ++ c :: more, ?_, different⟩
        rw [List.cons_append]
        exact List.dropWhile_cons_of_neg (by simp [listed])
      · rw [List.cons_append, List.dropWhile_cons_of_pos (by simp [listed, different])]
        exact ih fun member => fresh (List.mem_cons_of_mem x member)
  obtain ⟨d, rest, dropped, different⟩ := halt
  unfold walkForwardsUntil
  simp only [unspaced, dropped, if_neg different]

theorem walkForwards_cut {field more : List Char} {separator : Char} {stop : List Char}
    (walked : ∀ x ∈ field, x ≠ separator ∧ x ∉ stop) (some_ : field ≠ [])
    (unspaced : ∀ x ∈ field, isSpace x = false) :
    walkForwardsUntil (field ++ separator :: more) separator stop = (true, more, some field) := by
  have goesOn : ∀ x ∈ field, (x != separator && !stop.contains x) = true := by
    intro x member
    obtain ⟨other, free⟩ := walked x member
    simp [other, free]
  have halts : (separator != separator && !stop.contains separator) = false := by simp
  have begins : (field ++ separator :: more).dropWhile isSpace = field ++ separator :: more := by
    cases field with
    | nil => exact absurd rfl some_
    | cons x field =>
      exact List.dropWhile_cons_of_neg (by simp [unspaced x List.mem_cons_self])
  have ends : field.rdropWhile isSpace = field :=
    Fields.rdropWhile_eq_self fun x final => unspaced x (List.mem_of_getLast? final)
  unfold walkForwardsUntil
  simp only [begins, Fields.dropWhile_cut goesOn halts, Fields.takeWhile_cut goesOn halts, ends,
    if_true, if_neg some_]

/-- The prefix, which no word character is. -/
def prefixChars (pfx : PkgPrefix) : List Char := if pfx = .none then [] else [pfx.toChar]

theorem parsePrefix_part {pfx : PkgPrefix} {body : List Char}
    (valid : validPrefix pfx.toChar = true ∧ PkgPrefix.ofChar pfx.toChar = pfx)
    (word : ∃ c rest, body = c :: rest ∧ isWord c = true) :
    parsePrefix ((prefixChars pfx ++ body).dropWhile isSpace) = .ok ({ pfx := pfx }, body) := by
  obtain ⟨c, rest, rfl, isWord_⟩ := word
  by_cases nothing : pfx = .none
  · have space : isSpace c = false := by
      rw [isWord, Bool.or_eq_true, beq_iff_eq] at isWord_
      rcases isWord_ with alnum | rfl
      · exact isSpace_of_alnum alnum
      · decide
    rw [prefixChars, if_pos nothing, List.nil_append,
      List.dropWhile_cons_of_neg (by simp [space]), parsePrefix, if_pos isWord_, nothing]
  · have listed : pfx.toChar ∈ "?+-!~>".toList := by
      have either := valid.1
      rw [validPrefix, Bool.or_eq_true, beq_iff_eq, List.contains_iff_mem] at either
      rcases either with nul | listed
      · rw [nul] at valid
        exact absurd valid.2.symm nothing
      · exact listed
    have known : ∀ d ∈ "?+-!~>".toList, isSpace d = false ∧ isWord d = false := Fields.of_all (by decide)
    obtain ⟨space, notWord⟩ := known _ listed
    rw [prefixChars, if_neg nothing, List.singleton_append,
      List.dropWhile_cons_of_neg (by simp [space]), parsePrefix, notWord]
    simp only [Bool.false_eq_true, if_false, setPrefix, valid.1, if_true, orInvalid, valid.2]
    rfl

/-! ## The end of the text -/

section Ends

variable {text : List Char} {stops fresh : List Char}

theorem EndsAt.mono {fewer : List Char} (ends : EndsAt stops fresh text)
    (sub : fewer ⊆ fresh) : EndsAt stops fewer text := by
  obtain ⟨before, c, tail, same, stop, free, unspaced⟩ := ends
  exact ⟨before, c, tail, same, stop, fun x member => free x (sub member), unspaced⟩

private theorem EndsAt.last (ends : EndsAt stops fresh text) :
    ∃ x, text.getLast? = some x ∧ isSpace x = false ∧ (x ∈ stops ∨ x ∉ fresh) := by
  obtain ⟨before, c, tail, rfl, stop, free, unspaced⟩ := ends
  have final := List.getLast?_eq_some_getLast (List.cons_ne_nil c tail)
  refine ⟨(c :: tail).getLast (List.cons_ne_nil c tail), ?_, ?_, ?_⟩
  · rw [List.getLast?_append, final]
    rfl
  · exact unspaced _ (List.getLast_mem _)
  · rcases List.mem_cons.mp (List.getLast_mem (List.cons_ne_nil c tail)) with same | inside
    · rw [same]
      exact .inl stop
    · exact .inr fun member => free _ member inside

/-- The architecture goes between the version and the flags. -/
theorem EndsAt.arch (ends : EndsAt ['-', '='] [':', '/', ']'] text)
    {arch : Option String} (valid : ∀ a ∈ present arch, validArch a = true) :
    EndsAt ['/', '-', '='] [':', ']'] (text ++ partChars ['/'] arch []) := by
  cases there : present arch with
  | none =>
    obtain ⟨before, c, tail, rfl, stops, fresh, unspaced⟩ := ends
    refine ⟨before, c, tail, by simp [partChars, there], ?_, ?_, unspaced⟩
    · exact List.mem_cons_of_mem _ stops
    · exact fun x member => fresh x (by simp at member; rcases member with rfl | rfl <;> simp)
  | some a =>
    have ver := validArch_verChars (valid a there)
    have listed : ∀ x ∈ [':', ']'], (isWord x || x == '-') = false := Fields.of_all (by decide)
    refine ⟨text, '/', a.toList, by simp [partChars, there], by simp, ?_, ?_⟩
    · intro x member inside
      have word := validArch_chars (valid a there) x inside
      rw [listed x member] at word
      cases word
    · intro x member
      rcases List.mem_cons.mp member with rfl | inside
      · decide
      · exact isSpace_of_verChar (ver x inside)

/-- The last character before the context. -/
private theorem flags_last (ends : EndsAt ['/', '-', '='] [':', ']'] text) {flags : Option String}
    (valid : ∀ f ∈ flags, validFlags f = true) :
    ∃ x, (text ++ partChars [':'] flags []).getLast? = some x ∧ isSpace x = false ∧ x ≠ ']' := by
  cases there : present flags with
  | none =>
    obtain ⟨x, final, unspaced, either⟩ := ends.last
    refine ⟨x, by simpa [partChars, there] using final, unspaced, ?_⟩
    rintro rfl
    revert either
    decide
  | some f =>
    obtain ⟨given, some_⟩ := present_some there
    have alnum := validFlags_alnum (valid f given)
    have notNil : f.toList ≠ [] := by simpa using some_
    have member := List.getLast_mem notNil
    refine ⟨f.toList.getLast notNil, ?_, isSpace_of_alnum (alnum _ member),
      ne_of_class (alnum _ member) (by decide)⟩
    simp [partChars, there, List.getLast?_append, List.getLast?_cons,
      List.getLast?_eq_some_getLast notNil]

end Ends

/-- What the reader starts from: the text, and behind it all that goes to its end. -/
private theorem written_last {text ends : List Char} {flags context : Option String}
    (textEnds : EndsAt ['/', '-', '='] [':', ']'] text) (validFlags_ : ∀ f ∈ flags, validFlags f = true)
    (blank : ∀ x ∈ ends, isSpace x = true) :
    (text ++ partChars [':'] flags []).getLast? ≠ some ']' ∧
      (text ++ partChars [':'] flags [] ++ partChars ['['] context [']'] ++ ends).rdropWhile isSpace =
        text ++ partChars [':'] flags [] ++ partChars ['['] context [']'] := by
  obtain ⟨x, final, unspaced, notBracket⟩ := flags_last textEnds validFlags_
  refine ⟨fun bracket => notBracket (Option.some.inj (final.symm.trans bracket)), ?_⟩
  rw [Fields.rdropWhile_append_of_pos blank]
  apply Fields.rdropWhile_eq_self
  intro y ending
  cases there : present context with
  | none =>
    have nothing : partChars ['['] context [']'] = [] := by simp [partChars, there]
    rw [nothing, List.append_nil, final] at ending
    exact Option.some.inj ending ▸ unspaced
  | some c =>
    have bracket : partChars ['['] context [']'] = '[' :: c.toList ++ [']'] := by
      simp [partChars, there]
    rw [bracket, ← List.append_assoc, List.getLast?_concat] at ending
    exact Option.some.inj ending ▸ rfl

/-- The reader takes context and flags off the end of the text. -/
theorem parseParts_flags {signedChar : Bool} {pkg pkg₀ : LCFGPackage} {text ends : List Char}
    (valid : Valid signedChar pkg) (secondary : Option (List Char))
    (contextKept : ∀ c, present pkg.context = some c → ContextKept c)
    (textEnds : EndsAt ['/', '-', '='] [':', ']'] text) (blank : ∀ x ∈ ends, isSpace x = true)
    (unset : pkg₀.context = none ∧ pkg₀.flags = none) :
    parseParts signedChar pkg₀ (text ++ (partChars [':'] pkg.flags [] ++
        (partChars ['['] pkg.context [']'] ++ ends))) secondary =
      (parseArch { pkg₀ with context := present pkg.context, flags := present pkg.flags }
        (text ++ (partChars [':'] pkg.flags [] ++ (partChars ['['] pkg.context [']'] ++ ends)))
        text.length secondary).bind fun (pkg', len) =>
          parseVersion pkg' (text ++ (partChars [':'] pkg.flags [] ++
            (partChars ['['] pkg.context [']'] ++ ends))) len := by
  obtain ⟨noContext, noFlags⟩ := unset
  obtain ⟨notBracket, length⟩ := @written_last _ _ _ pkg.context textEnds valid.flags blank
  have context := parseContext_part signedChar pkg₀ ends notBracket pkg.context contextKept
    (fun c member => (valid.context c member).1) noContext
  have flags := parseFlags_part { pkg₀ with context := present pkg.context }
    (partChars ['['] pkg.context [']'] ++ ends) (textEnds.mono (by simp)) pkg.flags valid.flags
    noFlags
  simp only [List.append_assoc] at context flags length
  rw [parseParts, length]
  simp only [bind, Except.bind, context, flags]

/-- In front of the flags the architecture stands, unless it was read before the name. -/
theorem parseParts_written {signedChar : Bool} {pkg pkg₀ : LCFGPackage} {text ends : List Char}
    (valid : Valid signedChar pkg) (arch : Option String)
    (archValid : ∀ a ∈ present arch, validArch a = true)
    (archKept : ∀ a, present arch = some a → '-' ∉ a.toList)
    (contextKept : ∀ c, present pkg.context = some c → ContextKept c)
    (textEnds : EndsAt ['-', '='] [':', '/', ']'] text) (blank : ∀ x ∈ ends, isSpace x = true)
    (unset : pkg₀.context = none ∧ pkg₀.flags = none ∧ pkg₀.arch = none) :
    parseParts signedChar pkg₀ (text ++ (partChars ['/'] arch [] ++ (partChars [':'] pkg.flags [] ++
        (partChars ['['] pkg.context [']'] ++ ends)))) none =
      parseVersion { pkg₀ with
          context := present pkg.context
          flags := present pkg.flags
          arch := present arch
          arch_valid := archValid }
        (text ++ (partChars ['/'] arch [] ++ (partChars [':'] pkg.flags [] ++
          (partChars ['['] pkg.context [']'] ++ ends)))) text.length := by
  obtain ⟨noContext, noFlags, noArch⟩ := unset
  have parts := @parseParts_flags signedChar pkg pkg₀ _ _ valid none contextKept (textEnds.arch archValid)
    blank ⟨noContext, noFlags⟩
  have archs := parseArch_part
    { pkg₀ with context := present pkg.context, flags := present pkg.flags }
    (partChars [':'] pkg.flags [] ++ (partChars ['['] pkg.context [']'] ++ ends))
    (textEnds.mono (by simp)) arch archKept archValid noArch
  rw [archs] at parts
  simpa only [List.append_assoc, Except.bind] using parts

theorem parseParts_secondary {signedChar : Bool} {pkg pkg₀ : LCFGPackage} {text ends : List Char}
    {arch : String} (valid : Valid signedChar pkg) (archValid : validArch arch = true)
    (contextKept : ∀ c, present pkg.context = some c → ContextKept c)
    (textEnds : EndsAt ['-', '='] [':', '/', ']'] text) (blank : ∀ x ∈ ends, isSpace x = true)
    (unset : pkg₀.context = none ∧ pkg₀.flags = none) :
    parseParts signedChar pkg₀ (text ++ (partChars [':'] pkg.flags [] ++
        (partChars ['['] pkg.context [']'] ++ ends))) (some arch.toList) =
      parseVersion { pkg₀ with
          context := present pkg.context
          flags := present pkg.flags
          arch := some arch
          arch_valid := by simpa using archValid }
        (text ++ (partChars [':'] pkg.flags [] ++
          (partChars ['['] pkg.context [']'] ++ ends))) text.length := by
  have stops : EndsAt ['/', '-', '='] [':', ']'] text := by
    obtain ⟨before, c, tail, same, stop, free, unspaced⟩ := textEnds
    refine ⟨before, c, tail, same, List.mem_cons_of_mem _ stop, fun x member => free x ?_, unspaced⟩
    rcases List.mem_cons.mp member with rfl | last
    · exact List.mem_cons_self
    · exact List.mem_cons_of_mem _ (List.mem_cons_of_mem _ last)
  rw [parseParts_flags valid (some arch.toList) contextKept stops blank unset, parseArch,
    walk_arch_absent _ (textEnds.mono (by simp))]
  simp only [Option.orElse_some, String.ofList_toList, setArch, archValid, dif_pos, orInvalid]
  rfl

end Lcfg.Package
