import LcfgCore.Components.StatusFile
import LcfgCore.Context.Pending
import LcfgCore.Library.ScanBack

/-!
# Strings which are scanned from their ends

The line ends of a string are cut off, and a path is split at its last slash, by pointers
which move back over the string (`utils/utils.c`).

## Main results

`stringChomp_trims_iff`: when all line ends are cut off.
`path_helpers_iff`: when a path is put together again from its directory and its base name.
-/
namespace Lcfg.Utils

open ScanBack (scanBack trimBack)

/-! ## Line ends -/

def isLineEnd (c : Char) : Bool := c == '\r' || c == '\n'

/-- The loop of `lcfgutils_string_chomp`; a NUL which is written ends the string there. -/
def chompLoop : Nat → List Char → List Char
  | 0, str => str
  | ptr + 1, str =>
    if str[ptr + 1]?.any isLineEnd then chompLoop ptr (str.take (ptr + 1)) else str

/-- `lcfgutils_string_chomp` -/
def stringChomp (str : List Char) : List Char :=
  if str = [] then str else chompLoop (str.length - 1) str

/-- All line ends are cut off the end of a string, and nothing else. -/
structure Trims (str after : List Char) : Prop where
  ends : ∀ c ∈ after.getLast?, isLineEnd c = false
  cut : ∃ removed, str = after ++ removed ∧ ∀ c ∈ removed, isLineEnd c = true

theorem chompLoop_eq {ptr : Nat} {str : List Char} (last : str.length = ptr + 1) :
    chompLoop ptr str = trimBack isLineEnd str := by
  induction ptr generalizing str with
  | zero =>
    obtain ⟨c, rfl⟩ := List.length_eq_one_iff.mp last
    rfl
  | succ ptr ih =>
    rcases List.eq_nil_or_concat str with rfl | ⟨front, c, rfl⟩
    · cases last
    rw [List.concat_eq_append] at last ⊢
    rw [List.length_append, List.length_singleton, Nat.add_right_cancel_iff] at last
    have here : (front ++ [c])[ptr + 1]? = some c := by
      rw [← last]
      exact List.getElem?_concat_length
    have before : (front ++ [c]).take (ptr + 1) = front := List.take_left' last
    have some_ : front ≠ [] := by
      rintro rfl
      cases last
    rw [chompLoop, here, Option.any_some, before]
    cases ends : isLineEnd c with
    | true => rw [if_pos rfl, ScanBack.trimBack_concat_of_pos some_ ends, ih last]
    | false => rw [if_neg Bool.false_ne_true, ScanBack.trimBack_concat_of_neg ends]

theorem stringChomp_eq (str : List Char) : stringChomp str = trimBack isLineEnd str := by
  rw [stringChomp]
  split
  case isTrue empty =>
    rw [empty]
    rfl
  case isFalse some_ =>
    exact chompLoop_eq (Nat.sub_add_cancel (List.length_pos_iff.mpr some_)).symm

/-- The readers of files cut their lines in this way. -/
theorem stringChomp_eq_chomp (str : List Char) : stringChomp str = chomp str := by
  rw [stringChomp_eq]
  cases str <;> rfl

/-- A string of nothing but line ends keeps the first one. -/
theorem stringChomp_trims_iff (str : List Char) :
    Trims str (stringChomp str) ↔ str = [] ∨ ∃ c ∈ str, isLineEnd c = false := by
  obtain ⟨removed, whole, all, short⟩ := ScanBack.exists_cut isLineEnd str
  rw [stringChomp_eq]
  constructor
  · rintro ⟨ends, -⟩
    by_cases empty : str = []
    · exact .inl empty
    · have some_ := ScanBack.trimBack_ne_nil (p := isLineEnd) empty
      have last := List.getLast?_eq_some_getLast some_
      have member := List.mem_append_left removed (List.getLast_mem some_)
      rw [← whole] at member
      exact .inr ⟨_, member, ends _ last⟩
  · intro given
    refine ⟨fun c last => ?_, removed, whole, all⟩
    rcases short with one | ends
    · -- only the first character is left, and it is the one which is no line end
      rcases given with rfl | ⟨d, member, other⟩
      · cases last
      · rw [whole] at member
        rcases List.mem_append.mp member with stays | cut
        · obtain ⟨x, single⟩ := List.length_eq_one_iff.mp
            (Nat.le_antisymm one (List.length_pos_of_mem stays))
          rw [single, List.mem_singleton] at stays
          rw [single, List.getLast?_singleton, Option.mem_some_iff] at last
          rw [← last, ← stays, other]
        · rw [all d cut] at other
          cases other
    · exact ends c last

/-- An empty line keeps its line end. -/
theorem newline_not_trimmed : ¬ Trims ['\n'] (stringChomp ['\n']) := by
  intro trims
  have stays := trims.ends '\n' (by decide)
  cases stays

/-! ## Paths -/

/-- `lcfgutils_string_endswith` -/
def stringEndswith (str suffix : List Char) : Bool :=
  str ≠ [] && suffix ≠ [] && suffix.length ≤ str.length &&
    str.drop (str.length - suffix.length) = suffix

/-- `lcfgutils_basename`; the length is a `size_t`. -/
def basename (path suffix : Option String) : Option String :=
  if isEmpty path then none
  else
    let path := (path.getD "").toList
    -- all trailing slashes are passed
    let stop := scanBack (· == '/') path (path.length - 1)
    let start :=
      if stop ≠ 0 then
        let ptr := scanBack (· != '/') path stop
        if path[ptr]? = some '/' then ptr + 1 else ptr
      else 0
    let len := stop - start + 1
    let len := suffix.elim len fun suffix =>
      if stringEndswith (path.drop start) suffix.toList then (len + 2 ^ 64 - suffix.length) % 2 ^ 64
      else len
    some (String.ofList ((path.drop start).take len))

/-- `lcfgutils_dirname` -/
def dirname (path : Option String) : Option String :=
  if isEmpty path then none
  else
    let path := (path.getD "").toList
    -- all trailing slashes are passed, and then what stands behind the next one
    let stop := scanBack (· == '/') path (path.length - 1)
    let stop := scanBack (· != '/') path stop
    let stop := if stop ≠ 0 then stop - 1 else stop
    if stop = 0 ∧ path.head? ≠ some '/' then some "."
    else some (String.ofList (path.take (stop + 1)))

/-- `lcfgutils_catfile` -/
def catfile (dir file : Option String) : Option String :=
  file.map fun file =>
    let dirText := (dir.getD "").toList.rdropWhile (· == '/')
    let needsSlash := !isEmpty dir && file.toList.head? ≠ some '/' &&
      (dirText = [] || dirText.getLast? ≠ some '/')
    String.ofList (dirText ++ (if needsSlash then ['/'] else []) ++ file.toList)

/-- A file name is not empty and has no slashes. -/
structure FileName where
  text : List Char
  filled : text ≠ []
  free : '/' ∉ text

/-- A file in a directory, which is what stands before the last slash. -/
def pathOf (dirPart : Option (List Char)) (file : FileName) : List Char :=
  dirPart.elim [] (· ++ ['/']) ++ file.text

/-- A text in which slashes that follow each other are one. -/
def collapse : List Char → List Char
  | [] => []
  | c :: rest => if c = '/' ∧ rest.head? = some '/' then collapse rest else c :: collapse rest

/-- The path which is put together from the directory and the base name. -/
def rebuilt (path : String) : Option String :=
  catfile (dirname (some path)) (basename (some path) none)

/-- The path comes back with its slashes collapsed, without a directory behind `./`. -/
def Composes (dirPart : Option (List Char)) (file : FileName) : Prop :=
  rebuilt (String.ofList (pathOf dirPart file)) =
    some (String.ofList (dirPart.elim ('.' :: '/' :: file.text)
      fun _ => collapse (pathOf dirPart file)))

/-- The same, if the slashes are collapsed in what comes back as well. -/
def ComposesCollapsed (dirPart : Option (List Char)) (file : FileName) : Prop :=
  (rebuilt (String.ofList (pathOf dirPart file))).map (fun path => collapse path.toList) =
    some (dirPart.elim ('.' :: '/' :: file.text) fun _ => collapse (pathOf dirPart file))

/-- A directory does not end with a slash, unless it is the root. -/
def Untrailed (path : Option String) : Prop :=
  ∀ dir ∈ dirname path, dir = "/" ∨ dir.toList.getLast? ≠ some '/'

/-- A directory of one character which is taken for none. -/
def Mistaken (dir : List Char) : Prop := dir.length = 1 ∧ dir ≠ ['/'] ∧ dir ≠ ['.']

/-- Two slashes follow each other. -/
def Repeats (text : List Char) : Prop := ['/', '/'] <:+: text

/-! ### Where the pointers stop -/

variable {dirPart : Option (List Char)} {file : FileName} {back : List Char}

theorem FileName.last (file : FileName) : ∀ c ∈ file.text.getLast?, (c == '/') = false := by
  intro c last
  refine beq_eq_false_iff_ne.mpr ?_
  rintro rfl
  exact file.free (List.mem_of_mem_getLast? last)

theorem FileName.walked (file : FileName) : ∀ c ∈ file.text, (c != '/') = true := by
  intro c member
  refine bne_iff_ne.mpr ?_
  rintro rfl
  exact file.free member

theorem pathOf_ne_nil (dirPart : Option (List Char)) (file : FileName) : pathOf dirPart file ≠ [] :=
  fun nothing => file.filled (List.append_eq_nil_iff.mp nothing).2

theorem scan_slashes (slashes : ∀ c ∈ back, (c == '/') = true) :
    scanBack (· == '/') (pathOf dirPart file ++ back) ((pathOf dirPart file ++ back).length - 1) + 1 =
      (pathOf dirPart file).length := by
  have some_ := pathOf_ne_nil dirPart file
  have pos := List.length_pos_iff.mpr some_
  have inside : (pathOf dirPart file ++ back).length - 1 < (pathOf dirPart file ++ back).length := by
    rw [List.length_append]
    omega
  have last : ∀ c ∈ (pathOf dirPart file).getLast?, (c == '/') = false := by
    intro c ends
    rw [pathOf, List.getLast?_append_of_ne_nil _ file.filled] at ends
    exact file.last c ends
  rw [ScanBack.scanBack_eq inside, Nat.sub_add_cancel (by omega), List.take_length,
    ScanBack.trimBack_append some_ slashes, ScanBack.trimBack_eq_self last]

/-- From the end of the file name the pointer goes to the slash in front of it. -/
theorem scan_name {stop : Nat} (last : stop + 1 = (pathOf dirPart file).length) :
    scanBack (· != '/') (pathOf dirPart file ++ back) stop = dirPart.elim 0 List.length := by
  have inside : stop < (pathOf dirPart file ++ back).length := by
    rw [List.length_append]
    omega
  have here := ScanBack.scanBack_eq (p := (· != '/')) inside
  rw [List.take_left' last.symm] at here
  cases dirPart with
  | some dir =>
    have front : trimBack (· != '/') (pathOf (some dir) file) = dir ++ ['/'] := by
      rw [pathOf, Option.elim_some, ScanBack.trimBack_append (by simp) file.walked]
      exact ScanBack.trimBack_concat_of_neg (by decide)
    rw [front, List.length_append, List.length_singleton] at here
    exact Nat.add_right_cancel here
  | none =>
    obtain ⟨c, rest, begins⟩ := List.exists_cons_of_ne_nil file.filled
    have walked := file.walked
    rw [begins] at walked
    have front : trimBack (· != '/') (pathOf none file) = [c] := by
      rw [pathOf, Option.elim_none, List.nil_append, begins]
      exact ScanBack.trimBack_append (List.cons_ne_nil c [])
        fun d member => walked d (List.mem_cons_of_mem _ member)
    rw [front, List.length_singleton] at here
    exact Nat.add_right_cancel here

/-- The directory which `dirname` finds. -/
def dirOf : Option (List Char) → List Char
  | none => ['.']
  | some [] => ['/']
  | some [c] => if c = '/' then ['/'] else ['.']
  | some dir => dir

theorem dirname_pathOf (slashes : ∀ c ∈ back, (c == '/') = true) :
    dirname (some (String.ofList (pathOf dirPart file ++ back))) =
      some (String.ofList (dirOf dirPart)) := by
  have some_ : isEmpty (some (String.ofList (pathOf dirPart file ++ back))) = false := by
    simp [isEmpty, pathOf_ne_nil]
  rw [dirname, some_, if_neg Bool.false_ne_true, Option.getD_some, String.toList_ofList]
  simp only [scan_name (scan_slashes slashes)]
  rcases dirPart with _ | _ | ⟨c, _ | ⟨d, dir⟩⟩
  · obtain ⟨c, rest, begins⟩ := List.exists_cons_of_ne_nil file.filled
    have plain := file.walked c (begins ▸ List.mem_cons_self)
    simp [pathOf, begins, dirOf, bne_iff_ne.mp plain]
  · simp [pathOf, dirOf]
  · by_cases slash : c = '/'
    · simp [pathOf, dirOf, slash]
    · simp [pathOf, dirOf, slash]
  · simp [pathOf, dirOf]

theorem basename_pathOf (slashes : ∀ c ∈ back, (c == '/') = true) :
    basename (some (String.ofList (pathOf dirPart file ++ back))) none =
      some (String.ofList file.text) := by
  have some_ : isEmpty (some (String.ofList (pathOf dirPart file ++ back))) = false := by
    simp [isEmpty, pathOf_ne_nil]
  have length := List.length_pos_iff.mpr file.filled
  have last := @scan_slashes dirPart file back slashes
  rw [basename, some_, if_neg Bool.false_ne_true, Option.getD_some, String.toList_ofList]
  dsimp only
  generalize scanBack (· == '/') (pathOf dirPart file ++ back)
    ((pathOf dirPart file ++ back).length - 1) = stop at last ⊢
  simp only [scan_name last, Option.elim_none]
  -- the name begins behind the slash, if there is one
  have start : (if stop ≠ 0 then
      if (pathOf dirPart file ++ back)[dirPart.elim 0 List.length]? = some '/' then
        dirPart.elim 0 List.length + 1
      else dirPart.elim 0 List.length
    else 0) = (dirPart.elim [] (· ++ ['/'])).length := by
    cases dirPart with
    | some dir =>
      have slash : (pathOf (some dir) file ++ back)[dir.length]? = some '/' := by simp [pathOf]
      have far : stop ≠ 0 := by
        simp [pathOf] at last
        omega
      rw [if_pos far, Option.elim_some, if_pos slash, Option.elim_some]
      simp
    | none =>
      obtain ⟨c, rest, begins⟩ := List.exists_cons_of_ne_nil file.filled
      have plain := bne_iff_ne.mp (file.walked c (begins ▸ List.mem_cons_self))
      simp [pathOf, begins, plain]
  have len : stop - (dirPart.elim [] (· ++ ['/'])).length + 1 = file.text.length := by
    rw [pathOf, List.length_append] at last
    omega
  rw [start, len, pathOf, List.append_assoc, List.drop_left, List.take_left]

theorem dirOf_ne_nil (dirPart : Option (List Char)) : dirOf dirPart ≠ [] := by
  match dirPart with
  | none => exact List.cons_ne_nil _ _
  | some [] => exact List.cons_ne_nil _ _
  | some [c] =>
    rw [dirOf]
    split <;> exact List.cons_ne_nil _ _
  | some (c :: d :: dir) => exact List.cons_ne_nil _ _

theorem rdropWhile_getLast? (text : List Char) :
    (text.rdropWhile (· == '/')).getLast? ≠ some '/' := by
  intro ends
  have notNil : text.rdropWhile (· == '/') ≠ [] := by
    intro nothing
    rw [nothing] at ends
    cases ends
  have last := List.rdropWhile_last_not _ _ notNil
  rw [List.getLast?_eq_some_getLast notNil, Option.some_inj] at ends
  rw [ends] at last
  exact last (by decide)

theorem rebuilt_pathOf (dirPart : Option (List Char)) (file : FileName) :
    rebuilt (String.ofList (pathOf dirPart file)) =
      some (String.ofList ((dirOf dirPart).rdropWhile (· == '/') ++ '/' :: file.text)) := by
  have none_ : ∀ c ∈ ([] : List Char), (c == '/') = true := by simp
  have dir := @dirname_pathOf dirPart file [] none_
  have base := @basename_pathOf dirPart file [] none_
  rw [List.append_nil] at dir base
  have first : file.text.head? ≠ some '/' := by
    intro begins
    exact file.free (List.mem_of_mem_head? begins)
  have stops := rdropWhile_getLast? (dirOf dirPart)
  rw [rebuilt, dir, base, catfile, Option.map_some]
  simp [isEmpty, dirOf_ne_nil, first, stops]

/-! ### Collapsed slashes -/

theorem collapse_cons (c : Char) (rest : List Char) : collapse (c :: rest) =
    if c = '/' ∧ rest.head? = some '/' then collapse rest else c :: collapse rest := by
  rw [collapse]

theorem collapse_eq_self_iff (text : List Char) : collapse text = text ↔ ¬ Repeats text := by
  have shorter (text : List Char) : (collapse text).length ≤ text.length := by
    induction text with
    | nil => exact Nat.le_refl 0
    | cons c rest ih =>
      rw [collapse]
      split
      · exact Nat.le_succ_of_le ih
      · exact Nat.succ_le_succ ih
  induction text with
  | nil => simp [collapse, Repeats]
  | cons c rest ih =>
    rw [collapse, Repeats, List.infix_cons_iff]
    split
    case isTrue slashes =>
      obtain ⟨rfl, next⟩ := slashes
      refine iff_of_false (fun same => ?_) (not_not.mpr (.inl ?_))
      · have length := shorter rest
        rw [same, List.length_cons] at length
        exact Nat.not_succ_le_self _ length
      · obtain ⟨more, rfl⟩ := List.head?_eq_some_iff.mp next
        exact List.prefix_append ['/', '/'] more
    case isFalse single =>
      rw [List.cons_inj_right, not_or]
      refine ih.trans (iff_and_self.mpr fun _ starts => ?_)
      obtain ⟨more, same⟩ := starts
      obtain ⟨rfl, rfl⟩ := List.cons.inj same
      exact single ⟨rfl, rfl⟩

theorem collapse_append {front back : List Char}
    (apart : ¬ (front.getLast? = some '/' ∧ back.head? = some '/')) :
    collapse (front ++ back) = collapse front ++ collapse back := by
  induction front with
  | nil => rfl
  | cons c rest ih =>
    cases rest with
    | nil =>
      rw [List.singleton_append, collapse, collapse, collapse]
      rw [List.getLast?_singleton, Option.some_inj] at apart
      rw [if_neg apart, if_neg (by simp)]
      rfl
    | cons d more =>
      rw [List.getLast?_cons_cons] at apart
      have first : (d :: more ++ back).head? = (d :: more).head? := rfl
      rw [List.cons_append, collapse_cons, first, ih apart, collapse_cons c (d :: more)]
      split
      · rfl
      · rfl

theorem collapse_slashes (front back : List Char) :
    collapse (front ++ '/' :: '/' :: back) = collapse (front ++ '/' :: back) := by
  induction front with
  | nil => exact if_pos ⟨rfl, rfl⟩
  | cons c front ih =>
    have first : (front ++ '/' :: '/' :: back).head? = (front ++ '/' :: back).head? := by
      cases front <;> rfl
    rw [List.cons_append, List.cons_append, collapse_cons, collapse_cons c (front ++ '/' :: back),
      first, ih]

theorem collapse_file (file : FileName) : collapse file.text = file.text := by
  rw [collapse_eq_self_iff]
  intro repeats
  exact file.free (repeats.subset List.mem_cons_self)

/-- Any number of slashes before a name are one. -/
theorem collapse_path (dir : List Char) (file : FileName) : collapse (dir ++ '/' :: file.text) =
    collapse (dir.rdropWhile (· == '/')) ++ '/' :: file.text := by
  have first : file.text.head? ≠ some '/' := by
    intro begins
    exact file.free (List.mem_of_mem_head? begins)
  have slash : collapse ('/' :: file.text) = '/' :: file.text := by
    rw [collapse, if_neg (fun both => first both.2), collapse_file]
  induction dir using List.reverseRecOn with
  | nil => exact slash
  | append_singleton front c ih =>
    by_cases isSlash : c = '/'
    · subst isSlash
      rw [List.rdropWhile_concat_pos _ _ _ (by simp), ← ih, List.append_assoc, List.singleton_append,
        collapse_slashes]
    · rw [List.rdropWhile_concat_neg _ _ _ (by simpa using isSlash),
        collapse_append (by simp [isSlash]), slash]

/-! ### What the helpers make of a path -/

instance (dir : List Char) : Decidable (Mistaken dir) := inferInstanceAs (Decidable (_ ∧ _ ∧ _))

/-- Without the slashes at its end a directory is the one which is found, or it is mistaken. -/
theorem dirOf_trimmed (dir : List Char) :
    (dirOf (some dir)).rdropWhile (· == '/') =
      if Mistaken dir then ['.'] else dir.rdropWhile (· == '/') := by
  match dir with
  | [] => simp [Mistaken, dirOf]
  | [c] =>
    by_cases slash : c = '/'
    · simp [Mistaken, dirOf, slash]
    · by_cases dot : c = '.'
      · simp [Mistaken, dirOf, dot]
      · simp [Mistaken, dirOf, slash, dot]
  | c :: d :: more => simp [Mistaken, dirOf]

theorem mistaken_collapse {dir : List Char} (mistaken : Mistaken dir) :
    ['.'] ≠ collapse (dir.rdropWhile (· == '/')) := by
  obtain ⟨single, notRoot, notDot⟩ := mistaken
  obtain ⟨c, rfl⟩ := List.length_eq_one_iff.mp single
  have slash : ¬ c = '/' := fun same => notRoot (by rw [same])
  have kept : [c].rdropWhile (· == '/') = [c] := by simp [slash]
  have plain : collapse [c] = [c] := by simp [collapse]
  rw [kept, plain]
  exact notDot.symm

theorem pathOf_some (dir : List Char) (file : FileName) :
    pathOf (some dir) file = dir ++ '/' :: file.text := by
  rw [pathOf, Option.elim_some, List.append_assoc, List.singleton_append]

theorem rebuilt_some (dir : List Char) (file : FileName) :
    rebuilt (String.ofList (pathOf (some dir) file)) = some (String.ofList
      ((if Mistaken dir then ['.'] else dir.rdropWhile (· == '/')) ++ '/' :: file.text)) := by
  rw [rebuilt_pathOf, dirOf_trimmed]

theorem rebuilt_none (file : FileName) :
    rebuilt (String.ofList (pathOf none file)) = some (String.ofList ('.' :: '/' :: file.text)) := by
  rw [rebuilt_pathOf]
  rfl

theorem composes_iff (dirPart : Option (List Char)) (file : FileName) :
    Composes dirPart file ↔
      ∀ dir ∈ dirPart, ¬ Mistaken dir ∧ ¬ Repeats (dir.rdropWhile (· == '/')) := by
  cases dirPart with
  | none =>
    rw [Composes, rebuilt_none]
    exact iff_of_true rfl (by simp)
  | some dir =>
    rw [Composes, rebuilt_some, Option.elim_some, pathOf_some, collapse_path, Option.some_inj,
      String.ofList_inj, List.append_left_inj]
    simp only [Option.mem_def, Option.some_inj, forall_eq']
    split
    case isTrue mistaken => simp [mistaken_collapse mistaken, mistaken]
    case isFalse found => rw [eq_comm, collapse_eq_self_iff, and_iff_right found]

theorem composesCollapsed_iff (dirPart : Option (List Char)) (file : FileName) :
    ComposesCollapsed dirPart file ↔ ∀ dir ∈ dirPart, ¬ Mistaken dir := by
  cases dirPart with
  | none =>
    have single : collapse ('.' :: '/' :: file.text) = '.' :: '/' :: file.text :=
      (collapse_path ['.'] file).trans rfl
    rw [ComposesCollapsed, rebuilt_none, Option.map_some, String.toList_ofList, single]
    exact iff_of_true rfl (by simp)
  | some dir =>
    rw [ComposesCollapsed, rebuilt_some, Option.map_some, String.toList_ofList, Option.elim_some,
      pathOf_some, collapse_path, collapse_path dir, Option.some_inj, List.append_left_inj]
    simp only [Option.mem_def, Option.some_inj, forall_eq']
    split
    case isTrue mistaken =>
      have dot : collapse (['.'].rdropWhile (· == '/')) = ['.'] := by decide
      rw [dot]
      simp [mistaken_collapse mistaken, mistaken]
    case isFalse found => simp [List.rdropWhile_idempotent _ _, found]

/-- A path which is not all slashes is that of a file, with slashes behind it. -/
theorem exists_file {text : List Char} (named : ∃ c ∈ text, (c != '/') = true) :
    ∃ dirPart file back, text = pathOf dirPart file ++ back ∧ ∀ c ∈ back, (c == '/') = true := by
  obtain ⟨front, c, back, rfl, plain, slashes⟩ := Fields.exists_last_cut named
  have back' : ∀ d ∈ back, (d == '/') = true := fun d member => by simpa using slashes d member
  have plain' : c ≠ '/' := bne_iff_ne.mp plain
  by_cases inDir : ∃ d ∈ front, (d == '/') = true
  · obtain ⟨dir, d, name, rfl, slash, free⟩ := Fields.exists_last_cut inDir
    obtain rfl := beq_iff_eq.mp slash
    have nameFree : '/' ∉ name ++ [c] := by
      intro member
      rcases List.mem_append.mp member with inside | last
      · have other := free '/' inside
        simp at other
      · exact plain' (List.mem_singleton.mp last).symm
    refine ⟨some dir, ⟨name ++ [c], by simp, nameFree⟩, back, ?_, back'⟩
    rw [pathOf_some]
    simp
  · have nameFree : '/' ∉ front ++ [c] := by
      intro member
      rcases List.mem_append.mp member with inside | last
      · exact inDir ⟨'/', inside, by simp⟩
      · exact plain' (List.mem_singleton.mp last).symm
    refine ⟨none, ⟨front ++ [c], by simp, nameFree⟩, back, ?_, back'⟩
    simp [pathOf]

/-- A path is empty, nothing but slashes, or that of a file with slashes behind it. -/
theorem path_cases (path : List Char) : path = [] ∨
    (∃ back, path = '/' :: back ∧ ∀ c ∈ back, (c == '/') = true) ∨
    ∃ dirPart file back, path = pathOf dirPart file ++ back ∧ ∀ c ∈ back, (c == '/') = true := by
  by_cases named : ∃ c ∈ path, (c != '/') = true
  · exact .inr (.inr (exists_file named))
  · have slashes : ∀ c ∈ path, c = '/' := by
      intro c member
      by_contra other
      exact named ⟨c, member, bne_iff_ne.mpr other⟩
    cases path with
    | nil => exact .inl rfl
    | cons c back =>
      obtain rfl := slashes c List.mem_cons_self
      exact .inr (.inl ⟨back, rfl, fun d member =>
        beq_iff_eq.mpr (slashes d (List.mem_cons_of_mem _ member))⟩)

/-- The pointer passes all slashes but the first. -/
theorem scan_all_slashes {back : List Char} (slashes : ∀ c ∈ back, (c == '/') = true) :
    scanBack (· == '/') ('/' :: back) (('/' :: back).length - 1) = 0 := by
  have inside : ('/' :: back).length - 1 < ('/' :: back).length := Nat.sub_lt (by simp) Nat.one_pos
  have first := ScanBack.scanBack_eq (p := (· == '/')) inside
  have trimmed : trimBack (· == '/') ('/' :: back) = ['/'] :=
    ScanBack.trimBack_append (List.cons_ne_nil '/' []) slashes
  rwa [Nat.sub_add_cancel (by simp), List.take_length, trimmed, List.length_singleton,
    Nat.add_eq_right] at first

theorem dirname_slashes {back : List Char} (slashes : ∀ c ∈ back, (c == '/') = true) :
    dirname (some (String.ofList ('/' :: back))) = some "/" := by
  have some_ : isEmpty (some (String.ofList ('/' :: back))) = false := by simp [isEmpty]
  rw [dirname, some_, if_neg Bool.false_ne_true, Option.getD_some, String.toList_ofList]
  dsimp only
  rw [scan_all_slashes slashes]
  simp [scanBack]

/-- A slash is left at the end of a directory if there are two of them behind its name. -/
theorem untrailed_iff (path : List Char) : Untrailed (some (String.ofList path)) ↔
    ¬ ∃ (dir : List Char) (file : FileName) (back : List Char), dir ≠ [] ∧
      (∀ c ∈ back, (c == '/') = true) ∧ path = dir ++ '/' :: '/' :: file.text ++ back := by
  constructor
  · rintro untrailed ⟨dir, file, back, some_, slashes, rfl⟩
    have whole : dir ++ '/' :: '/' :: file.text ++ back =
        pathOf (some (dir ++ ['/'])) file ++ back := by simp [pathOf_some]
    have found : dirOf (some (dir ++ ['/'])) = dir ++ ['/'] := by
      obtain ⟨c, more, rfl⟩ := List.exists_cons_of_ne_nil some_
      cases more <;> rfl
    rw [whole] at untrailed
    rcases untrailed _ (dirname_pathOf slashes) with root | ends
    · rw [found, ← String.toList_inj, String.toList_ofList] at root
      have length : (dir ++ ['/']).length = 1 := congrArg List.length root
      rw [List.length_append, List.length_singleton, Nat.add_eq_right] at length
      exact some_ (List.eq_nil_of_length_eq_zero length)
    · rw [found, String.toList_ofList] at ends
      exact ends List.getLast?_concat
  · intro none_ dir found
    rcases path_cases path with rfl | ⟨back, rfl, slashes⟩ | ⟨dirPart, file, back, rfl, slashes⟩
    · cases found
    · rw [dirname_slashes slashes, Option.mem_some_iff] at found
      exact .inl found.symm
    · rw [dirname_pathOf slashes, Option.mem_some_iff] at found
      subst found
      rw [String.toList_ofList]
      match dirPart with
      | none => exact .inr (by decide)
      | some [] => exact .inl rfl
      | some [c] =>
        rw [dirOf]
        split
        · exact .inl rfl
        · exact .inr (by decide)
      | some (c :: d :: more) =>
        refine .inr fun ends => none_ ?_
        -- the slash at the end of the directory is followed by the one behind it
        obtain ⟨front, whole⟩ := List.getLast?_eq_some_iff.mp ends
        change c :: d :: more = front ++ ['/'] at whole
        refine ⟨front, file, back, ?_, slashes, ?_⟩
        · rintro rfl
          cases whole
        · rw [pathOf_some, whole]
          simp

/-! ### The functions which other modules use -/

theorem basename_none (path : String) : basename (some path) none = Lcfg.basename path := by
  rw [Lcfg.basename]
  by_cases empty : path = ""
  · rw [if_pos empty, empty]
    rfl
  rw [if_neg empty]
  rcases path_cases path.toList with nothing | ⟨back, whole, slashes⟩ |
    ⟨dirPart, file, back, whole, slashes⟩
  · exact absurd (String.toList_eq_nil_iff.mp nothing) empty
  · have some_ : isEmpty (some path) = false := by simp [isEmpty, empty]
    have none_ : ('/' :: back).rdropWhile (· == '/') = [] := by
      rw [List.rdropWhile_eq_nil_iff, List.forall_mem_cons]
      exact ⟨rfl, slashes⟩
    rw [basename, some_, if_neg Bool.false_ne_true, Option.getD_some, whole, none_]
    dsimp only
    rw [scan_all_slashes slashes]
    rfl
  · have last : (pathOf dirPart file ++ back).rdropWhile (· == '/') = pathOf dirPart file := by
      rw [Fields.rdropWhile_append_of_pos slashes]
      apply Fields.rdropWhile_eq_self
      intro c ends
      rw [pathOf, List.getLast?_append_of_ne_nil _ file.filled] at ends
      exact file.last c ends
    have name : (pathOf dirPart file).rtakeWhile (· != '/') = file.text := by
      cases dirPart with
      | none => exact List.rtakeWhile_eq_self_iff.mpr file.walked
      | some dir =>
        rw [pathOf_some]
        exact Fields.rtakeWhile_cut file.walked (by decide)
    rw [← String.ofList_toList (s := path), whole, basename_pathOf slashes, String.toList_ofList, last]
    split
    case h_1 nothing => exact absurd nothing (pathOf_ne_nil dirPart file)
    case h_2 => rw [name]

theorem catfile_some (dir file : String) :
    catfile (some dir) (some file) = some (Pending.catfile dir file) := by
  rw [catfile, Option.map_some, Pending.catfile, Option.getD_some, Option.some_inj]
  by_cases empty : dir = ""
  · rw [if_pos empty, empty]
    simp [isEmpty]
  have stops : (dir.toList.rdropWhile (· == '/')).getLast? ≠ some '/' := rdropWhile_getLast? _
  rw [if_neg empty]
  by_cases slash : file.toList.head? = some '/'
  · simp [isEmpty, slash, stops]
  · simp [isEmpty, empty, slash, stops, String.append_assoc]

/-! ### Composition -/

/-- A path is put together again as it was, exactly if its directory is not a single character
which is taken for none and no slashes follow each other before the last ones. -/
theorem path_helpers_iff (dirPart : Option (List Char)) (file : FileName) (path : List Char) :
    (Composes dirPart file ↔
      ∀ dir ∈ dirPart, ¬ Mistaken dir ∧ ¬ Repeats (dir.rdropWhile (· == '/'))) ∧
    (ComposesCollapsed dirPart file ↔ ∀ dir ∈ dirPart, ¬ Mistaken dir) ∧
    (Untrailed (some (String.ofList path)) ↔
      ¬ ∃ (dir : List Char) (file : FileName) (back : List Char), dir ≠ [] ∧
        (∀ c ∈ back, (c == '/') = true) ∧ path = dir ++ '/' :: '/' :: file.text ++ back) :=
  ⟨composes_iff dirPart file, composesCollapsed_iff dirPart file, untrailed_iff path⟩

def sampleName : FileName := ⟨['b'], by decide, by decide⟩

/-- `a/b` becomes `./b`, and the directory of `a//b` is `a/`. -/
theorem short_path_not_rebuilt : ¬ Composes (some ['a']) sampleName ∧
    ¬ ComposesCollapsed (some ['a']) sampleName ∧ ¬ Untrailed (some "a//b") := by
  refine ⟨?_, ?_, fun untrailed => ?_⟩
  · rw [Composes]
    decide
  · rw [ComposesCollapsed]
    decide
  · rcases untrailed "a/" (by decide) with root | ends
    · revert root
      decide
    · exact ends (by decide)

end Lcfg.Utils
