import LcfgCore.Resources.Setters

/-!
# The keys of specifications

A line of a specification is split at its first `=`, and its key at the last full stops
(`lcfgresource_parse_spec`, `lcfgresource_parse_key`).

## Main results

`parseKey_buildKey`: each part of a key comes back, and its length is the one computed before.
`parseSpec_line`: the lines which are written without a context are read back.
`parseSpec_context`: a context behind the name makes a line unreadable.
-/
namespace Lcfg

namespace TypedResource

/-- What stands before and after the last full stop. -/
def cutLast (text : List Char) : Option (List Char × List Char) :=
  if '.' ∈ text then
    some ((text.rdropWhile (· != '.')).dropLast, text.rtakeWhile (· != '.'))
  else none

/-- The parts of a key; `type` is NUL for a value. -/
structure ResourceKey where
  hostname : Option (List Char)
  compname : Option (List Char)
  resname : List Char
  type : Char
deriving DecidableEq

/-- `lcfgresource_parse_key`; a key which is refused may have been cut by then, and what is
left of it is given back. -/
def parseKey (key : List Char) : Except (List Char) ResourceKey :=
  let start := key.dropWhile isSpace
  match start with
  | [] => .error key
  | c :: rest =>
    let (type, start) := if "#%^".toList.contains c then (c, rest) else ('\x00', start)
    match cutLast start with
    | none => .ok { hostname := none, compname := none, resname := start, type }
    | some (_, []) => .error key
    | some (before, resname) =>
      match cutLast before with
      | none => .ok { hostname := none, compname := some before, resname, type }
      | some (_, []) => .error (key.take (key.length - (resname.length + 1)))
      | some (hostname, compname) =>
        .ok { hostname := some hostname, compname := some compname, resname, type }

/-- `lcfgresource_parse_spec`: the key and the value, or a message. -/
def parseSpec (spec : List Char) : Except String (ResourceKey × List Char) :=
  let spec := spec.dropWhile isSpace
  if spec = [] then .error "empty resource specification"
  else
    match spec.dropWhile (· != '=') with
    | [] => .error "missing '=' character"
    | _ :: value =>
      match parseKey (spec.takeWhile (· != '=')) with
      | .error key => .error ("invalid resource key '" ++ String.ofList key ++ "'")
      | .ok key =>
        if Resource.validName (some (String.ofList key.resname)) then .ok (key, value)
        else .error ("invalid resource name '" ++ String.ofList key.resname ++ "'")

/-- `lcfgresource_compute_key_length` -/
def computeKeyLength (resource component space : Option String) (typeSymbol : Symbol) :
    Option Nat :=
  if isEmpty resource then none
  else
    some ((if typeSymbol ≠ .value then 1 else 0) +
      (if isEmpty space then 0 else (space.getD "").length + 1) +
      (if isEmpty component then 0 else (component.getD "").length + 1) +
      (resource.getD "").length)

/-- `lcfgresource_build_key`, which gives no key of another length than was computed. -/
def buildKey (resource component space : Option String) (typeSymbol : Symbol) :
    Option (List Char) :=
  (computeKeyLength resource component space typeSymbol).bind fun needLen =>
    (insertKey resource component space typeSymbol).filter fun key => key.length = needLen

/-- The character for an attribute in a key. -/
def Symbol.char : Symbol → Char
  | .value => '\x00'
  | .type => '%'
  | .derivation => '#'
  | .context => '='
  | .priority => '^'

@[simp] theorem Symbol.ofChar_char (typeSymbol : Symbol) :
    Symbol.ofChar typeSymbol.char = typeSymbol := by
  cases typeSymbol <;> decide

/-! ## Keys -/

theorem cutLast_of_free {text : List Char} (free : '.' ∉ text) : cutLast text = none := if_neg free

theorem cutLast_append {after : List Char} (free : '.' ∉ after) (before : List Char) :
    cutLast (before ++ '.' :: after) = some (before, after) := by
  have walked : ∀ c ∈ after, (c != '.') = true := by
    intro c member
    simpa using fun same : c = '.' => free (same ▸ member)
  have stops : ('.' != '.') = false := by decide
  rw [cutLast, if_pos (by simp), Fields.rdropWhile_cut walked stops,
    Fields.rtakeWhile_cut walked stops, List.dropLast_concat]

variable {compName name : String}

/-- Names have none of the characters which structure a line. -/
theorem name_free {name : String} (valid : Resource.validName (some name) = true) {c : Char}
    (other : isWord c = false) : c ∉ name.toList := by
  intro member
  rw [(name_word valid).2 c member] at other
  cases other

theorem name_begins {name : String} (valid : Resource.validName (some name) = true) :
    ∃ c rest, name.toList = c :: rest ∧ isSpace c = false ∧ "#%^".toList.contains c = false := by
  obtain ⟨⟨c, rest, begins, alpha⟩, word⟩ := name_word valid
  have isWord_c : isWord c = true := word c (by rw [begins]; exact List.mem_cons_self)
  refine ⟨c, rest, begins, isSpace_of_word isWord_c, ?_⟩
  have others : ∀ d ∈ "#%^".toList, isWord d = false := Fields.of_all (by decide)
  cases symbol : "#%^".toList.contains c with
  | false => rfl
  | true =>
    have plain := others c (List.contains_iff_mem.mp symbol)
    rw [isWord_c] at plain
    cases plain

/-- Behind the symbol the key is split at its full stops. -/
private theorem parseKey_symbol {typeSymbol : Symbol} (context : typeSymbol ≠ .context) {c : Char}
    {tail : List Char} (unspaced : isSpace c = false) (plain : "#%^".toList.contains c = false) :
    parseKey (typeSymbol.text ++ c :: tail) =
      match cutLast (c :: tail) with
      | none => .ok
          { hostname := none, compname := none, resname := c :: tail, type := typeSymbol.char }
      | some (_, []) => .error (typeSymbol.text ++ c :: tail)
      | some (before, resname) =>
        match cutLast before with
        | none => .ok
            { hostname := none, compname := some before, resname, type := typeSymbol.char }
        | some (_, []) => .error ((typeSymbol.text ++ c :: tail).take
            ((typeSymbol.text ++ c :: tail).length - (resname.length + 1)))
        | some (hostname, compname) => .ok
            { hostname := some hostname, compname := some compname, resname,
              type := typeSymbol.char } := by
  cases typeSymbol with
  | context => exact absurd rfl context
  | value =>
    rw [Symbol.text, List.nil_append, parseKey, List.dropWhile_cons_of_neg (by simp [unspaced])]
    simp only [plain, Bool.false_eq_true, if_false, Symbol.char]
  | type | derivation | priority =>
    rw [Symbol.text, List.cons_append, List.nil_append, parseKey,
      List.dropWhile_cons_of_neg (by decide)]
    rfl

/-- The key behind its symbol is split at the full stop between the names. -/
private theorem parseKey_names {start : List Char} {resname : List Char} {typeSymbol : Symbol}
    (compValid : Resource.validName (some compName) = true) (context : typeSymbol ≠ .context)
    (free : '.' ∉ resname) (some_ : resname ≠ [])
    (same : start = typeSymbol.text ++ (compName.toList ++ '.' :: resname)) :
    parseKey start = .ok
      { hostname := none, compname := some compName.toList, resname, type := typeSymbol.char } := by
  obtain ⟨c, rest, begins, unspaced, plain⟩ := name_begins compValid
  obtain ⟨d, more, rfl⟩ := List.exists_cons_of_ne_nil some_
  have cut := cutLast_append free compName.toList
  have cut' := cutLast_of_free (name_free compValid (by decide : isWord '.' = false))
  rw [begins] at cut cut' ⊢
  rw [same, begins, List.cons_append, parseKey_symbol context unspaced plain]
  rw [List.cons_append] at cut
  simp only [cut, cut']

theorem length_keyPart (part : Option String) : (keyPart part).length =
    if isEmpty part then 0 else (part.getD "").length + 1 := by
  rw [keyPart]
  split
  · rfl
  · rw [List.length_append, String.length_toList]
    rfl

/-- A key is built for each name, and has the length which was computed. -/
theorem buildKey_eq {resource : Option String} (some_ : isEmpty resource = false)
    (component space : Option String) (typeSymbol : Symbol) :
    ∃ key, insertKey resource component space typeSymbol = some key ∧
      buildKey resource component space typeSymbol = some key ∧
      computeKeyLength resource component space typeSymbol = some key.length := by
  have symbol : typeSymbol.text.length = if typeSymbol ≠ .value then 1 else 0 := by
    cases typeSymbol <;> rfl
  have length : computeKeyLength resource component space typeSymbol =
      some (typeSymbol.text ++ keyPart space ++ keyPart component ++
        (resource.getD "").toList).length := by
    rw [computeKeyLength, some_, List.length_append, List.length_append, List.length_append,
      length_keyPart, length_keyPart, symbol, String.length_toList]
    rfl
  have inserted : insertKey resource component space typeSymbol =
      some (typeSymbol.text ++ keyPart space ++ keyPart component ++ (resource.getD "").toList) := by
    rw [insertKey, some_]
    rfl
  refine ⟨_, inserted, ?_, length⟩
  rw [buildKey, length, inserted, Option.bind_some, Option.filter_some, if_pos (by simp)]

/-- What may stand before a component in a key: no text which begins with white space or with a
symbol. -/
structure NameSpace (space : String) : Prop where
  some_ : space ≠ ""
  unspaced : ∀ c ∈ space.toList.head?, isSpace c = false
  plain : ∀ c ∈ space.toList.head?, "#%^".toList.contains c = false

/-- Each part of a key comes back: the resource, the component, the name space in front of it,
which may have full stops of its own, and the symbol. -/
theorem parseKey_buildKey {name : String} (valid : Resource.validName (some name) = true)
    {component space : Option String}
    (compValid : ∀ c ∈ component, Resource.validName (some c) = true)
    (spaced : ∀ s ∈ space, NameSpace s ∧ component.isSome = true) {typeSymbol : Symbol}
    (context : typeSymbol ≠ .context) :
    ∃ key, buildKey (some name) component space typeSymbol = some key ∧
      computeKeyLength (some name) component space typeSymbol = some key.length ∧
      parseKey key = .ok
        { hostname := space.map String.toList, compname := component.map String.toList,
          resname := name.toList, type := typeSymbol.char } := by
  have notDot : isWord '.' = false := by decide
  obtain ⟨first, more, begins, unspaced, plain⟩ := name_begins valid
  have notEmpty : isEmpty (some name) = false := by simpa [isEmpty] using validName_ne valid
  obtain ⟨key, inserted, built, length⟩ := buildKey_eq notEmpty component space typeSymbol
  refine ⟨key, built, length, ?_⟩
  rw [insertKey, notEmpty, if_neg Bool.false_ne_true, Option.some_inj, Option.getD_some] at inserted
  rw [← inserted]
  cases component with
  | none =>
    have none_ : space = none := by
      cases space with
      | none => rfl
      | some s => cases (spaced s rfl).2
    have free := cutLast_of_free (name_free valid notDot)
    have noPart : keyPart none = [] := rfl
    rw [begins] at free ⊢
    rw [none_, noPart, List.append_nil, List.append_nil, parseKey_symbol context unspaced plain]
    simp only [free, Option.map_none]
  | some compName =>
    have valid' := compValid compName rfl
    have part : keyPart (some compName) = compName.toList ++ ['.'] := by
      have someComp : isEmpty (some compName) = false := by
        simpa [isEmpty] using validName_ne valid'
      rw [keyPart, someComp]
      rfl
    cases space with
    | none =>
      have noPart : keyPart none = [] := rfl
      apply parseKey_names valid' context (name_free valid notDot)
      · rw [begins]
        exact List.cons_ne_nil first more
      · rw [part, noPart]
        simp
    | some s =>
      obtain ⟨nameSpace, -⟩ := spaced s rfl
      have part' : keyPart (some s) = s.toList ++ ['.'] := by
        have someSpace : isEmpty (some s) = false := by simpa [isEmpty] using nameSpace.some_
        rw [keyPart, someSpace]
        rfl
      obtain ⟨c, rest, starts⟩ := List.exists_cons_of_ne_nil fun nothing =>
        nameSpace.some_ (String.toList_eq_nil_iff.mp nothing)
      have unspaced' := nameSpace.unspaced c (by rw [starts]; rfl)
      have plain' := nameSpace.plain c (by rw [starts]; rfl)
      -- the last full stop is the one before the resource, the next one that before the component
      have cut := cutLast_append (name_free valid notDot) (s.toList ++ '.' :: compName.toList)
      have cut' := cutLast_append (name_free valid' notDot) s.toList
      obtain ⟨d, others, begins'⟩ : ∃ d others, compName.toList = d :: others := by
        obtain ⟨d, others, begins', -⟩ := name_begins valid'
        exact ⟨d, others, begins'⟩
      have whole : typeSymbol.text ++ keyPart (some s) ++ keyPart (some compName) ++ name.toList =
          typeSymbol.text ++ (c :: (rest ++ '.' :: compName.toList ++ '.' :: name.toList)) := by
        rw [part, part', starts]
        simp
      have again : s.toList ++ '.' :: compName.toList ++ '.' :: name.toList =
          c :: (rest ++ '.' :: compName.toList ++ '.' :: name.toList) := by
        rw [starts]
        simp
      rw [again] at cut
      rw [whole, parseKey_symbol context unspaced' plain', cut]
      rw [begins] at cut ⊢
      dsimp only
      rw [cut', Option.map_some, Option.map_some, begins']

theorem parseKey_sample : ∃ key, buildKey (some "ack") (some "client") (some "a.example.com")
      .type = some key ∧
    computeKeyLength (some "ack") (some "client") (some "a.example.com") .type = some key.length ∧
    parseKey key = .ok
      { hostname := some "a.example.com".toList, compname := some "client".toList,
        resname := "ack".toList, type := '%' } := by
  apply @parseKey_buildKey "ack" (by decide) (some "client") (some "a.example.com")
  · rintro c ⟨⟩
    decide
  · rintro s ⟨⟩
    refine ⟨⟨by decide, fun c first => ?_, fun c first => ?_⟩, rfl⟩
    all_goals
      rw [← Option.some_inj.mp first]
      decide
  · decide

/-! ## Lines -/

theorem keyText_first (compValid : Resource.validName (some compName) = true)
    {typeSymbol : Symbol} (context : typeSymbol ≠ .context) (rest : List Char) :
    (typeSymbol.text ++ (keyText compName name ++ rest)).dropWhile isSpace =
        typeSymbol.text ++ (keyText compName name ++ rest) ∧
      typeSymbol.text ++ (keyText compName name ++ rest) ≠ [] := by
  obtain ⟨c, more, begins, unspaced, -⟩ := name_begins compValid
  have front : ∃ d tail, typeSymbol.text ++ (keyText compName name ++ rest) = d :: tail ∧
      isSpace d = false := by
    cases typeSymbol with
    | context => exact absurd rfl context
    | value => exact ⟨c, _, by rw [keyText, begins]; rfl, unspaced⟩
    | type | derivation | priority => exact ⟨_, _, rfl, by decide⟩
  obtain ⟨d, tail, same, plain⟩ := front
  rw [same]
  exact ⟨List.dropWhile_cons_of_neg (by simp [plain]), List.cons_ne_nil d tail⟩

/-- The text before the first `=` is the key. -/
private theorem parseSpec_cut {typeSymbol : Symbol}
    (compValid : Resource.validName (some compName) = true) (context : typeSymbol ≠ .context)
    {resname : List Char} (free : '.' ∉ resname) (noEq : '=' ∉ resname) (some_ : resname ≠ [])
    (value : List Char) :
    parseSpec (typeSymbol.text ++ (compName.toList ++ '.' :: (resname ++ '=' :: value))) =
      if Resource.validName (some (String.ofList resname)) then
        .ok ({ hostname := none, compname := some compName.toList, resname,
               type := typeSymbol.char }, value)
      else .error ("invalid resource name '" ++ String.ofList resname ++ "'") := by
  have whole : typeSymbol.text ++ (compName.toList ++ '.' :: (resname ++ '=' :: value)) =
      (typeSymbol.text ++ (compName.toList ++ '.' :: resname)) ++ '=' :: value := by simp
  have first := @keyText_first compName "" compValid _ context (resname ++ '=' :: value)
  -- the key has no equals sign of its own
  have walked : ∀ c ∈ typeSymbol.text ++ (compName.toList ++ '.' :: resname), (c != '=') = true := by
    intro c member
    refine bne_iff_ne.mpr ?_
    rintro rfl
    simp only [List.mem_append, List.mem_cons] at member
    rcases member with symbol | inComp | dot | inRes
    · revert symbol context
      cases typeSymbol <;> decide
    · exact name_free compValid (by decide) inComp
    · cases dot
    · exact noEq inRes
  have unspaced : (typeSymbol.text ++ (compName.toList ++ '.' :: (resname ++ '=' :: value))).dropWhile
      isSpace = typeSymbol.text ++ (compName.toList ++ '.' :: (resname ++ '=' :: value)) := by
    simpa [keyText] using first.1
  rw [parseSpec, unspaced, whole]
  simp only [Fields.dropWhile_cut walked (by decide : ('=' != '=') = false),
    Fields.takeWhile_cut walked (by decide : ('=' != '=') = false),
    parseKey_names compValid context free some_ rfl]
  rw [if_neg (by simp)]

theorem parseSpec_valid {spec : List Char} {key : ResourceKey} {value : List Char}
    (parsed : parseSpec spec = .ok (key, value)) :
    Resource.validName (some (String.ofList key.resname)) = true := by
  rw [parseSpec] at parsed
  split at parsed
  · cases parsed
  · split at parsed
    · cases parsed
    · split at parsed
      · cases parsed
      · split at parsed
        case isTrue valid =>
          cases parsed
          exact valid
        case isFalse => cases parsed

/-- A line with a key is read apart again. -/
theorem parseSpec_line (compValid : Resource.validName (some compName) = true)
    (valid : Resource.validName (some name) = true) {typeSymbol : Symbol}
    (context : typeSymbol ≠ .context) (value : List Char) :
    parseSpec (typeSymbol.text ++ (keyText compName name ++ '=' :: value)) =
      .ok ({ hostname := none, compname := some compName.toList, resname := name.toList,
             type := typeSymbol.char }, value) := by
  have notNil : name.toList ≠ [] := by
    obtain ⟨c, rest, begins, -⟩ := name_begins valid
    rw [begins]
    exact List.cons_ne_nil c rest
  have cut := parseSpec_cut compValid context (name_free valid (by decide))
    (name_free valid (by decide)) notNil value
  rw [String.ofList_toList, if_pos valid] at cut
  rw [← cut, keyText]
  simp

/-- Where there is a bracket behind the name, with no full stop before the first `=`, the
name is not valid. -/
theorem parseSpec_context (compValid : Resource.validName (some compName) = true)
    (valid : Resource.validName (some name) = true) {rest : List Char}
    (free : '.' ∉ rest.takeWhile (· != '=')) :
    ∃ msg, parseSpec (keyText compName name ++ '[' :: rest) = .error msg := by
  -- the text from the bracket on is taken for a part of the name
  by_cases separated : '=' ∈ rest
  · obtain ⟨value, split⟩ : ∃ value, rest.dropWhile (· != '=') = '=' :: value := by
      cases dropped : rest.dropWhile (· != '=') with
      | nil =>
        rw [List.dropWhile_eq_nil_iff] at dropped
        exact absurd (dropped '=' separated) (by decide)
      | cons c value =>
        have stops := List.head?_dropWhile_not (· != '=') rest
        rw [dropped] at stops
        have same : c = '=' := by simpa using stops
        exact ⟨value, by rw [same]⟩
    have noEq : '=' ∉ rest.takeWhile (· != '=') := fun member =>
      absurd (List.mem_takeWhile_imp member) (by decide)
    have cut := @parseSpec_cut compName .value compValid (by decide)
      (name.toList ++ '[' :: rest.takeWhile (· != '='))
      (by simpa [free] using name_free valid (by decide))
      (by simpa [noEq] using name_free valid (by decide)) (by simp) value
    have whole : keyText compName name ++ '[' :: rest = Symbol.value.text ++ (compName.toList ++
        '.' :: ((name.toList ++ '[' :: rest.takeWhile (· != '=')) ++ '=' :: value)) := by
      have parts := List.takeWhile_append_dropWhile (p := (· != '=')) (l := rest)
      rw [split] at parts
      rw [keyText, List.append_assoc, List.append_assoc, List.cons_append, List.cons_append, parts]
      rfl
    -- a bracket is in no valid name
    have notValid : Resource.validName
        (some (String.ofList (name.toList ++ '[' :: rest.takeWhile (· != '=')))) = false := by
      refine Bool.eq_false_iff.mpr fun word => ?_
      have inside := (name_word word).2 '[' (by simp)
      exact absurd inside (by decide)
    rw [whole, cut, notValid]
    exact ⟨_, rfl⟩
  · -- without a separator the line has no value
    have none_ : (keyText compName name ++ '[' :: rest).dropWhile (· != '=') = [] := by
      refine List.dropWhile_eq_nil_iff.mpr fun c member => bne_iff_ne.mpr ?_
      rintro rfl
      rw [keyText] at member
      simp only [List.mem_append, List.mem_cons] at member
      rcases member with (inComp | dot | inName) | bracket | inRest
      · exact name_free compValid (by decide) inComp
      · cases dot
      · exact name_free valid (by decide) inName
      · cases bracket
      · exact separated inRest
    obtain ⟨unspaced, notNil⟩ := @keyText_first compName name compValid .value (by decide) ('[' :: rest)
    rw [Symbol.text, List.nil_append] at unspaced notNil
    rw [parseSpec, unspaced]
    simp only [if_neg notNil, none_]
    exact ⟨_, rfl⟩

end TypedResource

end Lcfg
