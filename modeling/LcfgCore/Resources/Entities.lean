import LcfgCore.Library.Buffer
import LcfgCore.Resources.Resource
import Mathlib.Logic.Relation

/-!
# Encoded values

Values are written with some characters as HTML entities and are read with a general
decoder for HTML entities, which works in place (`resources/resource.c`,
`utils/entities.c`). Strings are bytes here, as they are in C.

## Main result

`value_round_trip`: each value comes back from its encoded text, and the decoder never
writes behind the place where it reads.
-/
namespace Lcfg

/-- The bytes of a C string. -/
structure CString where
  bytes : List UInt8
  noNul : 0 ∉ bytes

namespace Entities

def utf8 (s : List Char) : List UInt8 := s.flatMap String.utf8EncodeChar

/-- `UNICODE_MAX` -/
def unicodeMax : Nat := 0x10FFFF

/-- `NAMED_ENTITIES` -/
def namedEntities : List (String × String) :=
  [("AElig;", "Æ"), ("Aacute;", "Á"), ("Acirc;", "Â"), ("Agrave;", "À"), ("Alpha;", "Α"),
   ("Aring;", "Å"), ("Atilde;", "Ã"), ("Auml;", "Ä"), ("Beta;", "Β"), ("Ccedil;", "Ç"),
   ("Chi;", "Χ"), ("Dagger;", "‡"), ("Delta;", "Δ"), ("ETH;", "Ð"), ("Eacute;", "É"),
   ("Ecirc;", "Ê"), ("Egrave;", "È"), ("Epsilon;", "Ε"), ("Eta;", "Η"), ("Euml;", "Ë"),
   ("Gamma;", "Γ"), ("Iacute;", "Í"), ("Icirc;", "Î"), ("Igrave;", "Ì"), ("Iota;", "Ι"),
   ("Iuml;", "Ï"), ("Kappa;", "Κ"), ("Lambda;", "Λ"), ("Mu;", "Μ"), ("Ntilde;", "Ñ"),
   ("Nu;", "Ν"), ("OElig;", "Œ"), ("Oacute;", "Ó"), ("Ocirc;", "Ô"), ("Ograve;", "Ò"),
   ("Omega;", "Ω"), ("Omicron;", "Ο"), ("Oslash;", "Ø"), ("Otilde;", "Õ"), ("Ouml;", "Ö"),
   ("Phi;", "Φ"), ("Pi;", "Π"), ("Prime;", "″"), ("Psi;", "Ψ"), ("Rho;", "Ρ"), ("Scaron;", "Š"),
   ("Sigma;", "Σ"), ("THORN;", "Þ"), ("Tau;", "Τ"), ("Theta;", "Θ"), ("Uacute;", "Ú"),
   ("Ucirc;", "Û"), ("Ugrave;", "Ù"), ("Upsilon;", "Υ"), ("Uuml;", "Ü"), ("Xi;", "Ξ"),
   ("Yacute;", "Ý"), ("Yuml;", "Ÿ"), ("Zeta;", "Ζ"), ("aacute;", "á"), ("acirc;", "â"),
   ("acute;", "´"), ("aelig;", "æ"), ("agrave;", "à"), ("alefsym;", "ℵ"), ("alpha;", "α"),
   ("amp;", "&"), ("and;", "∧"), ("ang;", "∠"), ("apos;", "\u0027"), ("aring;", "å"),
   ("asymp;", "≈"), ("atilde;", "ã"), ("auml;", "ä"), ("bdquo;", "„"), ("beta;", "β"),
   ("brvbar;", "¦"), ("bull;", "•"), ("cap;", "∩"), ("ccedil;", "ç"), ("cedil;", "¸"),
   ("cent;", "¢"), ("chi;", "χ"), ("circ;", "ˆ"), ("clubs;", "♣"), ("cong;", "≅"), ("copy;", "©"),
   ("crarr;", "↵"), ("cup;", "∪"), ("curren;", "¤"), ("dArr;", "⇓"), ("dagger;", "†"),
   ("darr;", "↓"), ("deg;", "°"), ("delta;", "δ"), ("diams;", "♦"), ("divide;", "÷"),
   ("eacute;", "é"), ("ecirc;", "ê"), ("egrave;", "è"), ("empty;", "∅"), ("emsp;", "\u2003"),
   ("ensp;", "\u2002"), ("epsilon;", "ε"), ("equiv;", "≡"), ("eta;", "η"), ("eth;", "ð"),
   ("euml;", "ë"), ("euro;", "€"), ("exist;", "∃"), ("fnof;", "ƒ"), ("forall;", "∀"),
   ("frac12;", "½"), ("frac14;", "¼"), ("frac34;", "¾"), ("frasl;", "⁄"), ("gamma;", "γ"),
   ("ge;", "≥"), ("gt;", ">"), ("hArr;", "⇔"), ("harr;", "↔"), ("hearts;", "♥"), ("hellip;", "…"),
   ("iacute;", "í"), ("icirc;", "î"), ("iexcl;", "¡"), ("igrave;", "ì"), ("image;", "ℑ"),
   ("infin;", "∞"), ("int;", "∫"), ("iota;", "ι"), ("iquest;", "¿"), ("isin;", "∈"),
   ("iuml;", "ï"), ("kappa;", "κ"), ("lArr;", "⇐"), ("lambda;", "λ"), ("lang;", "〈"),
   ("laquo;", "«"), ("larr;", "←"), ("lceil;", "⌈"), ("ldquo;", "“"), ("le;", "≤"),
   ("lfloor;", "⌊"), ("lowast;", "∗"), ("loz;", "◊"), ("lrm;", "\u200e"), ("lsaquo;", "‹"),
   ("lsquo;", "‘"), ("lt;", "<"), ("macr;", "¯"), ("mdash;", "—"), ("micro;", "µ"),
   ("middot;", "·"), ("minus;", "−"), ("mu;", "μ"), ("nabla;", "∇"), ("nbsp;", "\u00a0"),
   ("ndash;", "–"), ("ne;", "≠"), ("ni;", "∋"), ("not;", "¬"), ("notin;", "∉"), ("nsub;", "⊄"),
   ("ntilde;", "ñ"), ("nu;", "ν"), ("oacute;", "ó"), ("ocirc;", "ô"), ("oelig;", "œ"),
   ("ograve;", "ò"), ("oline;", "‾"), ("omega;", "ω"), ("omicron;", "ο"), ("oplus;", "⊕"),
   ("or;", "∨"), ("ordf;", "ª"), ("ordm;", "º"), ("oslash;", "ø"), ("otilde;", "õ"),
   ("otimes;", "⊗"), ("ouml;", "ö"), ("para;", "¶"), ("part;", "∂"), ("permil;", "‰"),
   ("perp;", "⊥"), ("phi;", "φ"), ("pi;", "π"), ("piv;", "ϖ"), ("plusmn;", "±"), ("pound;", "£"),
   ("prime;", "′"), ("prod;", "∏"), ("prop;", "∝"), ("psi;", "ψ"), ("quot;", "\u0022"),
   ("rArr;", "⇒"), ("radic;", "√"), ("rang;", "〉"), ("raquo;", "»"), ("rarr;", "→"),
   ("rceil;", "⌉"), ("rdquo;", "”"), ("real;", "ℜ"), ("reg;", "®"), ("rfloor;", "⌋"),
   ("rho;", "ρ"), ("rlm;", "\u200f"), ("rsaquo;", "›"), ("rsquo;", "’"), ("sbquo;", "‚"),
   ("scaron;", "š"), ("sdot;", "⋅"), ("sect;", "§"), ("shy;", "\u00ad"), ("sigma;", "σ"),
   ("sigmaf;", "ς"), ("sim;", "∼"), ("spades;", "♠"), ("sub;", "⊂"), ("sube;", "⊆"),
   ("sum;", "∑"), ("sup1;", "¹"), ("sup2;", "²"), ("sup3;", "³"), ("sup;", "⊃"), ("supe;", "⊇"),
   ("szlig;", "ß"), ("tau;", "τ"), ("there4;", "∴"), ("theta;", "θ"), ("thetasym;", "ϑ"),
   ("thinsp;", "\u2009"), ("thorn;", "þ"), ("tilde;", "˜"), ("times;", "×"), ("trade;", "™"),
   ("uArr;", "⇑"), ("uacute;", "ú"), ("uarr;", "↑"), ("ucirc;", "û"), ("ugrave;", "ù"),
   ("uml;", "¨"), ("upsih;", "ϒ"), ("upsilon;", "υ"), ("uuml;", "ü"), ("weierp;", "℘"),
   ("xi;", "ξ"), ("yacute;", "ý"), ("yen;", "¥"), ("yuml;", "ÿ"), ("zeta;", "ζ"),
   ("zwj;", "\u200d"), ("zwnj;", "\u200c")]

/-- `strncmp` with the length of the second string. -/
def strncmp : List UInt8 → List UInt8 → Int
  | _, [] => 0
  | [], b :: _ => -(b.toNat : Int)
  | a :: as, b :: bs => if a = b then strncmp as bs else (a.toNat : Int) - b.toNat

/-- `bsearch` over the entities between two indices, with enough fuel for each of them. -/
def bsearch (key : List UInt8) : Nat → Nat → Nat → Option (String × String)
  | 0, _, _ => none
  | fuel + 1, low, high =>
    if low < high then
      let idx := (low + high) / 2
      match namedEntities[idx]? with
      | none => none
      | some entity =>
        let comparison := strncmp key (utf8 entity.1.toList)
        if comparison < 0 then bsearch key fuel low idx
        else if comparison > 0 then bsearch key fuel (idx + 1) high
        else some entity
    else none

/-- `get_named_entity` -/
def getNamedEntity (name : List UInt8) : Option (String × String) :=
  bsearch name namedEntities.length 0 namedEntities.length

/-- `putc_utf8`: the bytes of a code point. -/
def putcUtf8 (cp : Nat) : List UInt8 :=
  if cp ≤ 0x7F then [UInt8.ofNat cp]
  else if cp ≤ 0x7FF then
    [UInt8.ofNat (6 <<< 5 ||| cp >>> 6), UInt8.ofNat (2 <<< 6 ||| cp &&& 0x3F)]
  else if cp ≤ 0xFFFF then
    [UInt8.ofNat (14 <<< 4 ||| cp >>> 12), UInt8.ofNat (2 <<< 6 ||| cp >>> 6 &&& 0x3F),
      UInt8.ofNat (2 <<< 6 ||| cp &&& 0x3F)]
  else if cp ≤ 0x10FFFF then
    [UInt8.ofNat (30 <<< 3 ||| cp >>> 18), UInt8.ofNat (2 <<< 6 ||| cp >>> 12 &&& 0x3F),
      UInt8.ofNat (2 <<< 6 ||| cp >>> 6 &&& 0x3F), UInt8.ofNat (2 <<< 6 ||| cp &&& 0x3F)]
  else []

/-- In base 16 a number may begin with `0x`, if a digit follows. -/
def hexDigits (s : List Char) : List Char :=
  match s with
  | '0' :: x :: c :: rest => if (x = 'x' ∨ x = 'X') ∧ digitVal c < 16 then c :: rest else s
  | _ => s

/-- `strtoul` with a base and 64-bit results: the value, what follows the number, and
whether it is out of range. Without a number nothing is read, and the value is 0. -/
def strtoul (base : Nat) (s : List Char) : Nat × List Char × Bool :=
  let (negative, number) := strtoulSign (s.dropWhile isSpace)
  let number := if base = 16 then hexDigits number else number
  let digits := number.takeWhile fun c => digitVal c < base
  if digits = [] then (0, s, false)
  else
    let value := digits.foldl (fun n c => base * n + digitVal c) 0
    let rest := number.dropWhile fun c => digitVal c < base
    if 2 ^ 64 ≤ value then (2 ^ 64 - 1, rest, true)
    else if negative then ((2 ^ 64 - value) % 2 ^ 64, rest, false)
    else (value, rest, false)

def ampersand : UInt8 := '&'.toUInt8

/-- The code point of a numeric entity with the `;` at `stop`. -/
def codePoint (current : List UInt8) (stop : Nat) : Option Nat :=
  let hex := current[2]? = some 'x'.toUInt8 ∨ current[2]? = some 'X'.toUInt8
  let number := (current.drop (if hex then 3 else 2)).map Char.ofUInt8
  let (cp, tail, outOfRange) := strtoul (if hex then 16 else 10) number
  -- `tail != end`, as distances from the end of the string
  if outOfRange ∨ tail.length ≠ (current.drop stop).length ∨ cp > unicodeMax then none else some cp

/-- `parse_entity`: the text for the entity at an ampersand, and how much of the string the
entity takes. -/
def parseEntity (current : List UInt8) : Option (List UInt8 × Nat) :=
  match current.findIdx? (· = ';'.toUInt8) with
  | none => none
  | some stop =>
    let entity :=
      if current[1]? = some '#'.toUInt8 then (codePoint current stop).map putcUtf8
      else (getNamedEntity (current.drop 1)).map fun entity => utf8 entity.2.toList
    entity.map fun entity => (entity, stop + 1)

/-! ## Decoding in place -/

/-- The buffer with the positions where the decoder writes (`dest`) and reads (`src`). -/
structure Decoder where
  buffer : List UInt8
  dest : Nat
  src : Nat

/-- One round of the loop in `lcfgutils_decode_html_entities_utf8`. -/
def round (d : Decoder) : Option Decoder :=
  let text := Buffer.string 0 d.buffer d.src
  match text.findIdx? (· = ampersand) with
  | none => none
  | some i =>
    let current := d.src + i
    let buffer := Buffer.write d.buffer d.dest (text.take i)
    let dest := d.dest + i
    match parseEntity (Buffer.string 0 buffer current) with
    | some (entity, used) =>
      some ⟨Buffer.write buffer dest entity, dest + entity.length, current + used⟩
    | none => some ⟨Buffer.write buffer dest ((buffer.drop current).take 1), dest + 1, current + 1⟩

/-- The rounds after one another, as long as there is an ampersand. -/
def rounds : Nat → Decoder → Decoder
  | 0, d => d
  | fuel + 1, d => match round d with
    | none => d
    | some next => rounds fuel next

/-- What follows the loop: the rest of the string is moved, and the length returned. -/
def finish (d : Decoder) : List UInt8 × Nat :=
  let remaining := Buffer.string 0 d.buffer d.src
  let dest := d.dest + remaining.length
  ((Buffer.write d.buffer d.dest remaining).set dest 0, dest)

/-- `lcfgutils_decode_html_entities_utf8` without a second string: the buffer afterwards and
the length of the result. Each round goes on in the buffer, so that its length is fuel enough. -/
def decodeHtmlEntitiesUtf8 (buffer : List UInt8) : List UInt8 × Nat :=
  finish (rounds buffer.length ⟨buffer, 0, 0⟩)

/-! ## Decoding into another string -/

theorem parseEntity_used {current : List UInt8} {entity : List UInt8} {used : Nat}
    (parsed : parseEntity current = some (entity, used)) : 0 < used ∧ used ≤ current.length := by
  unfold parseEntity at parsed
  cases found : current.findIdx? (· = ';'.toUInt8) with
  | none => simp [found] at parsed
  | some stop =>
    have inside : stop < current.length := (List.findIdx?_eq_some_iff_findIdx_eq.mp found).1
    rw [found] at parsed
    obtain ⟨text, -, same⟩ := Option.map_eq_some_iff.mp parsed
    have ends := (Prod.mk.inj same).2
    omega

/-- The text for a string, ampersand by ampersand. -/
def decode : List UInt8 → List UInt8
  | [] => []
  | c :: rest =>
    if c = ampersand then
      match _parsed : parseEntity (c :: rest) with
      | some (entity, used) => entity ++ decode ((c :: rest).drop used)
      | none => c :: decode rest
    else c :: decode rest
termination_by s => s.length
decreasing_by
  all_goals simp only [List.length_drop, List.length_cons]
  · have := parseEntity_used _parsed
    omega
  all_goals omega

/-! ### Lengths -/

/-- A name ends with its only `;` and has no fewer bytes than the text it stands for. -/
theorem namedEntities_names : ∀ entity ∈ namedEntities, 0 ∉ utf8 entity.1.toList ∧
    ';'.toUInt8 ∉ (utf8 entity.1.toList).dropLast ∧
    (utf8 entity.2.toList).length ≤ (utf8 entity.1.toList).length := by
  decide +kernel

theorem strncmp_eq_zero {key name : List UInt8} (noNul : 0 ∉ name)
    (same : strncmp key name = 0) : ∃ more, key = name ++ more := by
  induction name generalizing key with
  | nil => exact ⟨key, rfl⟩
  | cons b bs ih =>
    rw [List.mem_cons, not_or] at noNul
    cases key with
    | nil =>
      have zero : b.toNat = 0 := by simpa [strncmp] using same
      exact absurd (UInt8.toNat_inj.mp zero).symm noNul.1
    | cons a as =>
      rw [strncmp] at same
      split at same
      case isTrue equal =>
        obtain ⟨more, rfl⟩ := ih noNul.2 same
        exact ⟨more, by rw [equal, List.cons_append]⟩
      case isFalse other =>
        exact absurd (UInt8.toNat_inj.mp (by omega)) other

theorem bsearch_spec {key : List UInt8} {fuel low high : Nat} {entity : String × String}
    (found : bsearch key fuel low high = some entity) :
    entity ∈ namedEntities ∧ strncmp key (utf8 entity.1.toList) = 0 := by
  induction fuel generalizing low high with
  | zero => cases found
  | succ fuel ih =>
    rw [bsearch] at found
    split at found
    case isFalse => cases found
    case isTrue =>
      dsimp only at found
      split at found
      · cases found
      case h_2 middle here =>
        split at found
        · exact ih found
        · split at found
          · exact ih found
          · cases found
            exact ⟨List.mem_of_getElem? here, by omega⟩

theorem putcUtf8_length (cp : Nat) : (putcUtf8 cp).length ≤ 4 := by
  unfold putcUtf8
  split_ifs <;> simp

theorem hexDigits_suffix (s : List Char) : hexDigits s <:+ s := by
  unfold hexDigits
  split
  · split
    · exact (List.suffix_cons ..).trans (List.suffix_cons ..)
    · exact List.suffix_refl _
  · exact List.suffix_refl s

/-- Either nothing is read and the value is 0, or something is. -/
theorem strtoul_reads (base : Nat) (s : List Char) :
    (strtoul base s).1 = 0 ∨ (strtoul base s).2.1.length < s.length := by
  rw [strtoul]
  dsimp only
  generalize digitsAt : (if base = 16 then hexDigits (strtoulSign (s.dropWhile isSpace)).2
    else (strtoulSign (s.dropWhile isSpace)).2) = number
  have suffix : number <:+ s := by
    have signed := (strtoulSign_suffix (s.dropWhile isSpace)).trans (List.dropWhile_suffix isSpace)
    rw [← digitsAt]
    split
    · exact (hexDigits_suffix _).trans signed
    · exact signed
  split
  case isTrue => exact .inl rfl
  case isFalse digits =>
    right
    have read : (number.dropWhile fun c => digitVal c < base).length < number.length := by
      have whole := congrArg List.length
        (List.takeWhile_append_dropWhile (p := fun c => decide (digitVal c < base)) (l := number))
      have some_ := List.length_pos_iff.mpr digits
      rw [List.length_append] at whole
      omega
    have shorter := lt_of_lt_of_le read suffix.length_le
    split
    · exact shorter
    · split <;> exact shorter

/-- The text is never longer than the entity. -/
theorem parseEntity_length {rest entity : List UInt8} {used : Nat}
    (parsed : parseEntity (ampersand :: rest) = some (entity, used)) : entity.length ≤ used := by
  unfold parseEntity at parsed
  cases found : (ampersand :: rest).findIdx? (· = ';'.toUInt8) with
  | none =>
    rw [found] at parsed
    cases parsed
  | some stop =>
    rw [found] at parsed
    obtain ⟨text, given, same⟩ := Option.map_eq_some_iff.mp parsed
    obtain ⟨rfl, rfl⟩ := Prod.mk.inj same
    split at given
    case isTrue =>
      obtain ⟨cp, read, rfl⟩ := Option.map_eq_some_iff.mp given
      have most := putcUtf8_length cp
      unfold codePoint at read
      dsimp only at read
      rw [Option.ite_none_left_eq_some, not_or, not_or, not_not] at read
      obtain ⟨⟨-, ends, -⟩, value⟩ := read
      rcases strtoul_reads _ _ with zero | less
      · rw [zero] at value
        rw [← Option.some.inj value]
        simp [putcUtf8]
      · -- with a digit the entity has four bytes at least
        rw [ends, List.length_map, List.length_drop, List.length_drop] at less
        split at less <;> omega
    case isFalse =>
      obtain ⟨named, lookedUp, rfl⟩ := Option.map_eq_some_iff.mp given
      obtain ⟨member, matches_⟩ := bsearch_spec lookedUp
      obtain ⟨noNul, onlyLast, shorter⟩ := namedEntities_names named member
      obtain ⟨more, split_⟩ := strncmp_eq_zero noNul matches_
      -- the first `;` is not before the end of the name
      obtain ⟨inside, hit, -⟩ := List.findIdx?_eq_some_iff_getElem.mp found
      have hitAt : (ampersand :: rest)[stop]? = some ';'.toUInt8 := by
        rw [List.getElem?_eq_getElem inside, of_decide_eq_true hit]
      have late : (utf8 named.1.toList).length ≤ stop := by
        by_contra early
        cases stop with
        | zero =>
          rw [List.getElem?_cons_zero] at hitAt
          exact absurd hitAt (by decide)
        | succ k =>
          rw [List.drop_one, List.tail_cons] at split_
          rw [List.getElem?_cons_succ, split_, List.getElem?_append_left (by omega)] at hitAt
          refine onlyLast (List.mem_of_getElem? (i := k) ?_)
          rw [List.getElem?_dropLast, if_pos (by omega), hitAt]
      omega

/-! ### Decoding and encoding -/

@[simp] theorem decode_nil : decode [] = [] := by rw [decode]

theorem decode_cons_of_ne {c : UInt8} (other : c ≠ ampersand) (rest : List UInt8) :
    decode (c :: rest) = c :: decode rest := by
  rw [decode, if_neg other]

theorem decode_of_parsed {rest entity : List UInt8} {used : Nat}
    (parsed : parseEntity (ampersand :: rest) = some (entity, used)) :
    decode (ampersand :: rest) = entity ++ decode ((ampersand :: rest).drop used) := by
  rw [decode, if_pos rfl]
  split
  next text n same =>
    rw [parsed] at same
    cases same
    rfl
  next same =>
    rw [parsed] at same
    cases same

theorem decode_of_unparsed {rest : List UInt8} (unparsed : parseEntity (ampersand :: rest) = none) :
    decode (ampersand :: rest) = ampersand :: decode rest := by
  rw [decode, if_pos rfl]
  split
  next text n same =>
    rw [unparsed] at same
    cases same
  next => rfl

theorem decode_append_of_plain {plain : List UInt8} (noAmpersand : ampersand ∉ plain)
    (rest : List UInt8) : decode (plain ++ rest) = plain ++ decode rest := by
  induction plain with
  | nil => rfl
  | cons c plain ih =>
    rw [List.mem_cons, not_or] at noAmpersand
    rw [List.cons_append, decode_cons_of_ne (Ne.symm noAmpersand.1), ih noAmpersand.2,
      List.cons_append]

theorem decode_of_plain {plain : List UInt8} (noAmpersand : ampersand ∉ plain) :
    decode plain = plain := by
  have whole := decode_append_of_plain noAmpersand []
  rwa [List.append_nil, decode_nil, List.append_nil] at whole

def carriageReturn : UInt8 := '\r'.toUInt8

def newline : UInt8 := '\n'.toUInt8

/-- One byte of an encoded value. -/
def encByte (c : UInt8) : List UInt8 :=
  if c = carriageReturn then utf8 "&#xD;".toList
  else if c = newline then utf8 "&#xA;".toList
  else if c = ampersand then utf8 "&#x26;".toList
  else [c]

/-- `lcfgresource_enc_value`, on the bytes of the value. -/
def encValue (value : List UInt8) : List UInt8 := value.flatMap encByte

/-- A numeric entity in base 16. -/
theorem parseEntity_hex {digits rest : List UInt8} {cp : Nat} (noStop : ';'.toUInt8 ∉ digits)
    (read : strtoul 16 ((digits ++ ';'.toUInt8 :: rest).map Char.ofUInt8) =
      (cp, (';'.toUInt8 :: rest).map Char.ofUInt8, false)) (valid : cp ≤ unicodeMax) :
    parseEntity (ampersand :: '#'.toUInt8 :: 'x'.toUInt8 :: (digits ++ ';'.toUInt8 :: rest)) =
      some (putcUtf8 cp, digits.length + 4) := by
  have absent : digits.findIdx? (· = ';'.toUInt8) = none := by
    rw [List.findIdx?_eq_none_iff]
    exact fun c member => decide_eq_false fun same => noStop (same ▸ member)
  have stop : (ampersand :: '#'.toUInt8 :: 'x'.toUInt8 :: (digits ++ ';'.toUInt8 :: rest)).findIdx?
      (· = ';'.toUInt8) = some (digits.length + 3) := by
    have others : ampersand ≠ ';'.toUInt8 ∧ '#'.toUInt8 ≠ ';'.toUInt8 ∧
        'x'.toUInt8 ≠ ';'.toUInt8 := by
      decide
    simp [List.findIdx?_cons, List.findIdx?_append, absent, others]
  have number : codePoint (ampersand :: '#'.toUInt8 :: 'x'.toUInt8 :: (digits ++ ';'.toUInt8 :: rest))
      (digits.length + 3) = some cp := by
    rw [codePoint]
    simp only [List.getElem?_cons_succ, List.getElem?_cons_zero, true_or, if_true,
      List.drop_succ_cons, List.drop_zero, read, List.drop_left, List.length_map]
    rw [if_neg]
    simpa using valid
  have hash : (ampersand :: '#'.toUInt8 :: 'x'.toUInt8 :: (digits ++ ';'.toUInt8 :: rest))[1]? =
      some '#'.toUInt8 := rfl
  rw [parseEntity, stop]
  dsimp only
  rw [if_pos hash, number]
  rfl

theorem decode_encByte (c : UInt8) (rest : List UInt8) :
    decode (encByte c ++ rest) = c :: decode rest := by
  have escaped (digits : List UInt8) (cp : Nat) (noStop : ';'.toUInt8 ∉ digits)
      (read : strtoul 16 ((digits ++ ';'.toUInt8 :: rest).map Char.ofUInt8) =
        (cp, (';'.toUInt8 :: rest).map Char.ofUInt8, false)) (valid : cp ≤ unicodeMax) :
      decode (ampersand :: '#'.toUInt8 :: 'x'.toUInt8 :: (digits ++ ';'.toUInt8 :: rest)) =
        putcUtf8 cp ++ decode rest := by
    have front : ampersand :: '#'.toUInt8 :: 'x'.toUInt8 :: (digits ++ ';'.toUInt8 :: rest) =
        (ampersand :: '#'.toUInt8 :: 'x'.toUInt8 :: (digits ++ [';'.toUInt8])) ++ rest := by simp
    rw [decode_of_parsed (parseEntity_hex noStop read valid), front, List.drop_left']
    simp
  rw [encByte]
  split
  case isTrue same =>
    rw [same]
    exact escaped ['D'.toUInt8] 13 (by decide) rfl (by decide)
  case isFalse =>
    split
    case isTrue same =>
      rw [same]
      exact escaped ['A'.toUInt8] 10 (by decide) rfl (by decide)
    case isFalse =>
      split
      case isTrue same =>
        rw [same]
        exact escaped ['2'.toUInt8, '6'.toUInt8] 38 (by decide) rfl (by decide)
      case isFalse other => exact decode_cons_of_ne other rest
/-- Each value comes back. -/
theorem decode_encValue (value : List UInt8) : decode (encValue value) = value := by
  induction value with
  | nil => exact decode_nil
  | cons c rest ih =>
    rw [encValue, List.flatMap_cons, decode_encByte]
    exact congrArg _ ih

/-- The text is never longer than what it is decoded from. -/
theorem decode_length (s : List UInt8) : (decode s).length ≤ s.length := by
  induction s using decode.induct with
  | case1 => simp
  | case2 rest entity used parsed ih =>
    have used_ := parseEntity_used parsed
    have length := parseEntity_length parsed
    rw [decode_of_parsed parsed, List.length_append]
    rw [List.length_drop] at ih
    omega
  | case3 rest unparsed ih =>
    rw [decode_of_unparsed unparsed]
    simpa using ih
  | case4 c rest other ih =>
    rw [decode_cons_of_ne other]
    simpa using ih

/-! ### The buffer -/

/-- The decoder on the way through `text`: what is decoded stands before the place where it
writes, and `rest` at the place where it reads. -/
structure Inv (text rest : List UInt8) (d : Decoder) : Prop where
  behind : d.dest ≤ d.src
  length : d.buffer.length = text.length + 1
  here : d.buffer.drop d.src = rest ++ [0]
  noNul : 0 ∉ rest
  decoded : d.buffer.take d.dest ++ decode rest = decode text

section Rounds

variable {text rest : List UInt8} {d : Decoder} (inv : Inv text rest d)
include inv

theorem Inv.string : Buffer.string 0 d.buffer d.src = rest := Buffer.string_eq inv.here inv.noNul

theorem Inv.ends : d.src + rest.length = text.length := by
  have length := congrArg List.length inv.here
  rw [List.length_drop, List.length_append, inv.length] at length
  simp only [List.length_singleton] at length
  omega

/-- Writing the text for the front of the rest. -/
theorem Inv.write (bytes : List UInt8) (used : Nat) (fits : bytes.length ≤ used)
    (inside : used ≤ rest.length) (same : decode rest = bytes ++ decode (rest.drop used)) :
    Inv text (rest.drop used)
      ⟨Buffer.write d.buffer d.dest bytes, d.dest + bytes.length, d.src + used⟩ := by
  have behind := inv.behind
  have ends := inv.ends
  have length := inv.length
  have before : d.dest + bytes.length ≤ d.src + used := by omega
  refine ⟨before, by rw [Buffer.length_write, length], ?_,
    fun member => inv.noNul (List.mem_of_mem_drop member), ?_⟩
  · rw [Buffer.drop_write _ _ before, ← List.drop_drop, inv.here,
      List.drop_append_of_le_length inside]
  · rw [Buffer.take_write _ _ _ (by omega), List.append_assoc, ← same, inv.decoded]

/-- One round goes on behind the next ampersand. -/
theorem round_spec {next : Decoder} (goes : round d = some next) :
    (∃ rest', Inv text rest' next) ∧ d.src < next.src := by
  unfold round at goes
  rw [inv.string] at goes
  dsimp only at goes
  split at goes
  · cases goes
  case h_2 i found =>
    obtain ⟨inside, hit, before⟩ := List.findIdx?_eq_some_iff_getElem.mp found
    have length : (rest.take i).length = i := by
      rw [List.length_take]
      omega
    obtain ⟨more, split_⟩ : ∃ more, rest.drop i = ampersand :: more := by
      refine ⟨rest.drop (i + 1), ?_⟩
      rw [List.drop_eq_getElem_cons inside, of_decide_eq_true hit]
    have plain : ampersand ∉ rest.take i := by
      intro member
      obtain ⟨k, early, same⟩ := List.mem_iff_getElem.mp member
      rw [length] at early
      rw [List.getElem_take] at same
      exact before k early (decide_eq_true same)
    -- the text up to the ampersand is moved
    have moved := inv.write (rest.take i) i length.le inside.le (by
      rw [← decode_append_of_plain plain, List.take_append_drop])
    rw [length, split_] at moved
    rw [moved.string] at goes
    split at goes
    case h_1 entity used parsed =>
      cases goes
      refine ⟨⟨_, moved.write entity used (parseEntity_length parsed) (parseEntity_used parsed).2
        (decode_of_parsed parsed)⟩, ?_⟩
      have positive := (parseEntity_used parsed).1
      dsimp only
      omega
    case h_2 unparsed =>
      cases goes
      have byte : ((Buffer.write d.buffer d.dest (rest.take i)).drop (d.src + i)).take 1 =
          [ampersand] := by rw [moved.here]; rfl
      rw [byte]
      refine ⟨⟨_, moved.write [ampersand] 1 le_rfl (by simp) (decode_of_unparsed unparsed)⟩, ?_⟩
      dsimp only
      omega

/-- The loop ends without an ampersand in the rest. -/
theorem rounds_spec (fuel : Nat) (enough : rest.length < fuel) : ∃ rest',
    Inv text rest' (rounds fuel d) ∧ ampersand ∉ rest' := by
  induction fuel generalizing d rest with
  | zero => omega
  | succ fuel ih =>
    rw [rounds]
    cases goes : round d with
    | none =>
      refine ⟨rest, inv, ?_⟩
      unfold round at goes
      rw [inv.string] at goes
      dsimp only at goes
      split at goes
      case h_1 absent =>
        rw [List.findIdx?_eq_none_iff] at absent
        exact fun member => of_decide_eq_false (absent _ member) rfl
      case h_2 => split at goes <;> cases goes
    | some next =>
      obtain ⟨⟨rest', inv'⟩, further⟩ := round_spec inv goes
      have ends := inv.ends
      have ends' := inv'.ends
      exact ih inv' (by omega)

/-- What stands in the buffer at the end. -/
theorem finish_spec (noAmpersand : ampersand ∉ rest) : (finish d).2 = (decode text).length ∧
    (finish d).1.take (finish d).2 = decode text ∧ (finish d).1[(finish d).2]? = some 0 := by
  have whole := inv.decoded
  rw [decode_of_plain noAmpersand] at whole
  have behind := inv.behind
  have ends := inv.ends
  have length := inv.length
  have fits : d.dest + rest.length ≤ d.buffer.length := by omega
  have taken := Buffer.take_write d.buffer rest d.dest fits
  have long := congrArg List.length taken
  rw [List.length_take, Buffer.length_write, List.length_append, List.length_take] at long
  simp only [finish, inv.string]
  refine ⟨?_, ?_, ?_⟩
  · rw [← whole, List.length_append, List.length_take]
    omega
  · rw [List.take_set_of_le le_rfl, taken, whole]
  · rw [List.getElem?_set_self]
    rw [Buffer.length_write]
    omega

end Rounds

theorem start_inv (s : CString) : Inv s.bytes s.bytes ⟨s.bytes ++ [0], 0, 0⟩ :=
  ⟨le_rfl, by simp, rfl, s.noNul, by simp⟩

/-- A string decoded in a buffer of its size: what is in the buffer then, and the length. -/
def decodeInPlace (s : CString) : List UInt8 × Nat := decodeHtmlEntitiesUtf8 (s.bytes ++ [0])

theorem decodeInPlace_spec (s : CString) :
    (decodeInPlace s).2 = (decode s.bytes).length ∧
      (decodeInPlace s).1.take (decodeInPlace s).2 = decode s.bytes ∧
      (decodeInPlace s).1[(decodeInPlace s).2]? = some 0 ∧
      (decodeInPlace s).1.length = s.bytes.length + 1 := by
  obtain ⟨rest, inv, noAmpersand⟩ := rounds_spec (start_inv s) (s.bytes ++ [0]).length (by simp)
  obtain ⟨length, taken, ends⟩ := finish_spec inv noAmpersand
  refine ⟨length, taken, ends, ?_⟩
  rw [decodeInPlace, decodeHtmlEntitiesUtf8, finish, List.length_set, Buffer.length_write, inv.length]

/-- The states of the decoder at the end of each round. -/
abbrev Reaches : Decoder → Decoder → Prop := Relation.ReflTransGen fun d next => round d = some next

theorem reached_inv (s : CString) {d : Decoder} (reached : Reaches ⟨s.bytes ++ [0], 0, 0⟩ d) :
    ∃ rest, Inv s.bytes rest d := by
  induction reached with
  | refl => exact ⟨s.bytes, start_inv s⟩
  | tail _ goes ih =>
    obtain ⟨rest, inv⟩ := ih
    exact (round_spec inv goes).1

/-! ### Values -/

/-- `lcfgresource_value_needs_encode`, on the bytes of the value. -/
def valueNeedsEncode (value : List UInt8) : Bool :=
  value ≠ [] && value.any fun c => [carriageReturn, newline, ampersand].contains c

theorem encByte_plain {c b : UInt8} (member : b ∈ encByte c) :
    b ≠ carriageReturn ∧ b ≠ newline ∧ (b = 0 → c = 0) := by
  have literal (text : List UInt8) (plain : ∀ b ∈ text, b ≠ carriageReturn ∧ b ≠ newline ∧ b ≠ 0)
      (inText : b ∈ text) : b ≠ carriageReturn ∧ b ≠ newline ∧ (b = 0 → c = 0) :=
    ⟨(plain b inText).1, (plain b inText).2.1, fun zero => absurd zero (plain b inText).2.2⟩
  unfold encByte at member
  split at member
  · exact literal _ (Fields.of_all (by decide)) member
  · split at member
    · exact literal _ (Fields.of_all (by decide)) member
    · split at member
      · exact literal _ (Fields.of_all (by decide)) member
      next noReturn noNewline _ =>
        rw [List.mem_singleton] at member
        subst member
        exact ⟨noReturn, noNewline, id⟩

/-- The encoded value, as a string. -/
def encoded (v : CString) : CString where
  bytes := encValue v.bytes
  noNul := by
    intro member
    obtain ⟨c, inValue, inside⟩ := List.mem_flatMap.mp member
    exact v.noNul ((encByte_plain inside).2.2 rfl ▸ inValue)

theorem decodeInPlace_of_plain (s : CString) (noAmpersand : ampersand ∉ s.bytes) :
    decodeInPlace s = (s.bytes ++ [0], s.bytes.length) := by
  obtain ⟨length, taken, ends, size⟩ := decodeInPlace_spec s
  rw [decode_of_plain noAmpersand] at length taken
  refine Prod.ext ?_ length
  rw [length] at taken ends
  dsimp only
  obtain ⟨inside, last⟩ := List.getElem?_eq_some_iff.mp ends
  rw [← List.take_append_drop s.bytes.length (decodeInPlace s).1, taken,
    List.drop_eq_getElem_cons inside, last, List.drop_of_length_le (by omega)]

/-- A byte of a character which is in ASCII is the character. -/
theorem utf8EncodeChar_ascii {c : Char} {b : UInt8} (member : b ∈ String.utf8EncodeChar c)
    (ascii : b.toNat < 128) : String.utf8EncodeChar c = [b] ∧ b.toNat = c.toNat := by
  have value : c.val.toNat = c.toNat := rfl
  unfold String.utf8EncodeChar at member ⊢
  simp only [value] at member ⊢
  split_ifs at member ⊢
  all_goals simp only [List.mem_cons, List.not_mem_nil, or_false] at member
  · rw [member, UInt8.toNat_ofNat']
    exact ⟨rfl, by omega⟩
  -- the bytes of the other characters are 128 at least
  all_goals
    exfalso
    rcases member with rfl | rfl | rfl | rfl <;> (rw [UInt8.toNat_ofNat'] at ascii; omega)

theorem char_of_byte {c x : Char} {b : UInt8} (member : b ∈ String.utf8EncodeChar c)
    (same : b = x.toUInt8) (ascii : x.toNat < 128) : c = x := by
  have byte : b.toNat = x.toNat := by
    have value : x.val.toNat = x.toNat := rfl
    rw [same, Char.toUInt8, UInt32.toNat_toUInt8, value]
    exact Nat.mod_eq_of_lt (by omega)
  obtain ⟨-, value⟩ := utf8EncodeChar_ascii member (by omega)
  exact Char.toNat_inj.mp (value.symm.trans byte)

/-- Encoding a value and then writing it as bytes is encoding its bytes. -/
theorem utf8_encValue (value : List Char) :
    utf8 (TypedResource.encValue value) = encValue (utf8 value) := by
  have each (c : Char) : utf8 (TypedResource.encChar c) =
      (String.utf8EncodeChar c).flatMap encByte := by
    unfold TypedResource.encChar
    split
    case isTrue same => rw [same]; decide
    split
    case isTrue same => rw [same]; decide
    split
    case isTrue same => rw [same]; decide
    next noReturn noNewline noAmpersand =>
    have plain : (String.utf8EncodeChar c).flatMap encByte =
        (String.utf8EncodeChar c).flatMap fun b => [b] := by
      refine List.flatMap_congr fun b member => ?_
      rw [encByte, if_neg, if_neg, if_neg]
      · exact fun same => noAmpersand (char_of_byte member same (by decide))
      · exact fun same => noNewline (char_of_byte member same (by decide))
      · exact fun same => noReturn (char_of_byte member same (by decide))
    rw [plain]
    simp [utf8]
  induction value with
  | nil => rfl
  | cons c rest ih =>
    have front (l l' : List Char) : utf8 (l ++ l') = utf8 l ++ utf8 l' := List.flatMap_append
    rw [TypedResource.encValue, List.flatMap_cons, front, each]
    rw [TypedResource.encValue] at ih
    rw [ih]
    simp [encValue, utf8]

/-- A resource needs encoding if its bytes do. -/
theorem valueNeedsEncode_utf8 (res : TypedResource) :
    valueNeedsEncode (utf8 (res.value.getD "").toList) = TypedResource.needsEncode res := by
  have bytes (value : List Char) : (utf8 value).any (fun c =>
      [carriageReturn, newline, ampersand].contains c) =
        value.any fun c => "\r\n&".toList.contains c := by
    rw [utf8, List.any_flatMap]
    congr 1
    funext c
    rw [Bool.eq_iff_iff, List.any_eq_true]
    simp only [List.contains_iff_mem, List.mem_cons, List.not_mem_nil, or_false]
    constructor
    · rintro ⟨b, member, same⟩
      rcases same with same | same | same
      · rw [char_of_byte member same (by decide)]; decide
      · rw [char_of_byte member same (by decide)]; decide
      · rw [char_of_byte member same (by decide)]; decide
    · intro inside
      have cases_ : c = '\r' ∨ c = '\n' ∨ c = '&' := by simpa using inside
      rcases cases_ with rfl | rfl | rfl
      · exact ⟨carriageReturn, by decide, by simp⟩
      · exact ⟨newline, by decide, by simp⟩
      · exact ⟨ampersand, by decide, by simp⟩
  rw [valueNeedsEncode, TypedResource.needsEncode, bytes, Bool.eq_iff_iff, Bool.and_eq_true,
    Bool.and_eq_true]
  refine and_congr_left fun found => ?_
  -- where there is such a character there is a value
  have some_ : (res.value.getD "").toList ≠ [] := by
    intro nothing
    rw [nothing] at found
    cases found
  have given : TypedResource.hasValue res = true := by
    rw [TypedResource.hasValue, Bool.not_eq_true', Bool.eq_false_iff, ne_eq, isEmpty_iff]
    exact fun nothing => some_ (by rw [nothing]; rfl)
  have written : utf8 (res.value.getD "").toList ≠ [] := by
    obtain ⟨c, rest, shown⟩ := List.exists_cons_of_ne_nil some_
    rw [shown, utf8, List.flatMap_cons]
    exact List.append_ne_nil_of_left_ne_nil String.utf8EncodeChar_ne_nil _
  simp [given, written]

/-- What is written for a value has no line breaks and is decoded to the value; what needs
no encoding is decoded to itself. The decoder leaves the text which it would write elsewhere,
never a longer one than the string, and writes before the place where it reads. -/
theorem value_round_trip :
    (∀ v : CString, carriageReturn ∉ (encoded v).bytes ∧ newline ∉ (encoded v).bytes ∧
      Buffer.string 0 (decodeInPlace (encoded v)).1 0 = v.bytes ∧
      (decodeInPlace (encoded v)).2 = v.bytes.length ∧
      (valueNeedsEncode v.bytes = false →
        decodeInPlace v = (v.bytes ++ [0], v.bytes.length))) ∧
    ∀ s : CString, (decodeInPlace s).2 ≤ s.bytes.length ∧
      (decodeInPlace s).1.take (decodeInPlace s).2 = decode s.bytes ∧
      ∀ d, Reaches ⟨s.bytes ++ [0], 0, 0⟩ d → d.dest ≤ d.src ∧ d.src ≤ s.bytes.length := by
  refine ⟨fun v => ⟨?_, ?_, ?_, ?_, fun plain => decodeInPlace_of_plain v ?_⟩, fun s => ⟨?_, ?_, ?_⟩⟩
  · intro member
    obtain ⟨c, -, inside⟩ := List.mem_flatMap.mp member
    exact (encByte_plain inside).1 rfl
  · intro member
    obtain ⟨c, -, inside⟩ := List.mem_flatMap.mp member
    exact (encByte_plain inside).2.1 rfl
  -- what is decoded from the encoded value ends where the value ends
  · obtain ⟨length, taken, ends, -⟩ := decodeInPlace_spec (encoded v)
    obtain ⟨inside, last⟩ := List.getElem?_eq_some_iff.mp ends
    have text : decode (encoded v).bytes = v.bytes := decode_encValue v.bytes
    have here : (decodeInPlace (encoded v)).1.drop 0 = v.bytes ++
        0 :: (decodeInPlace (encoded v)).1.drop ((decodeInPlace (encoded v)).2 + 1) := by
      rw [← text, ← taken, ← last, ← List.drop_eq_getElem_cons inside, List.take_append_drop,
        List.drop_zero]
    exact Buffer.string_eq here v.noNul
  · rw [(decodeInPlace_spec (encoded v)).1, encoded, decode_encValue]
  -- a value which needs no encoding is empty or has no ampersand
  · intro member
    rw [valueNeedsEncode, Bool.and_eq_false_iff] at plain
    rcases plain with empty | plain
    · have nothing : v.bytes = [] := by simpa using empty
      rw [nothing] at member
      cases member
    · rw [List.any_eq_false] at plain
      exact plain ampersand member (by decide)
  · rw [(decodeInPlace_spec s).1]
    exact decode_length s.bytes
  · exact (decodeInPlace_spec s).2.1
  · intro d reached
    obtain ⟨rest, inv⟩ := reached_inv s reached
    have ends := inv.ends
    exact ⟨inv.behind, by omega⟩

end Entities

end Lcfg
