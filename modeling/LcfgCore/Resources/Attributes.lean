import LcfgCore.Resources.Setters

/-!
# Attributes as they are read

What `lcfgresource_set_attribute` does for each attribute, and the values which come back
from the texts that are written for them.

## Main results

`decodeHtmlEntities_valueText`: a value is decoded to what it was encoded from.
`setAttribute_frame`: whatever is set, the name stays, and a derivation is one which has
been read.
-/
namespace Lcfg

namespace TypedResource

/-! ## Values as bytes -/

/-- A C string with one character for each of its bytes. -/
def IsBytes (text : List Char) : Prop := ∀ c ∈ text, 0 < c.toNat ∧ c.toNat < 256

theorem IsBytes.noNul {text : List Char} (bytes : IsBytes text) : '\x00' ∉ text := by
  intro member
  exact absurd (bytes _ member).1 (by decide)

theorem toNat_toUInt8 {c : Char} (small : c.toNat < 256) : c.toUInt8.toNat = c.toNat := by
  have value : c.val.toNat = c.toNat := rfl
  rw [Char.toUInt8, UInt32.toNat_toUInt8, value]
  exact Nat.mod_eq_of_lt small

theorem ofUInt8_toUInt8 {c : Char} (small : c.toNat < 256) : Char.ofUInt8 c.toUInt8 = c := by
  refine Char.toNat_inj.mp ?_
  have value : (Char.ofUInt8 c.toUInt8).toNat = c.toUInt8.toUInt32.toNat := rfl
  rw [value, UInt8.toNat_toUInt32, toNat_toUInt8 small]

theorem IsBytes.toUInt8 {text : List Char} (bytes : IsBytes text) :
    (text.map Char.toUInt8).map Char.ofUInt8 = text ∧ (0 : UInt8) ∉ text.map Char.toUInt8 := by
  constructor
  · rw [List.map_map]
    refine (List.map_congr_left fun c member => ?_).trans (List.map_id text)
    exact ofUInt8_toUInt8 (bytes c member).2
  · intro member
    obtain ⟨c, inside, zero⟩ := List.mem_map.mp member
    have value := toNat_toUInt8 (bytes c inside).2
    have pos := (bytes c inside).1
    rw [zero, UInt8.toNat_zero] at value
    omega

/-- The decoder in its buffer leaves the text which it would write elsewhere, up to a NUL. -/
theorem decodeHtmlEntities_eq {text : List Char} (bytes : IsBytes text) :
    decodeHtmlEntities text =
      ((Entities.decode (text.map Char.toUInt8)).takeWhile (· ≠ 0)).map Char.ofUInt8 := by
  let s : CString := ⟨text.map Char.toUInt8, bytes.toUInt8.2⟩
  obtain ⟨-, taken, ends, -⟩ := Entities.decodeInPlace_spec s
  obtain ⟨inside, last⟩ := List.getElem?_eq_some_iff.mp ends
  have whole : (Entities.decodeInPlace s).1 = Entities.decode s.bytes ++
      0 :: (Entities.decodeInPlace s).1.drop ((Entities.decodeInPlace s).2 + 1) := by
    rw [← taken, ← last, ← List.drop_eq_getElem_cons inside, List.take_append_drop]
  have here : decodeHtmlEntities text =
      (Buffer.string 0 (Entities.decodeInPlace s).1 0).map Char.ofUInt8 := rfl
  rw [here, whole, Buffer.string, List.drop_zero, List.takeWhile_append]
  split
  case isTrue all =>
    rw [List.takeWhile_cons_of_neg (by simp), List.append_nil]
    exact congrArg _ ((List.takeWhile_prefix _).eq_of_length all).symm
  case isFalse => rfl

theorem decodeHtmlEntities_of_decode {text value : List Char} (bytes : IsBytes text)
    (valueBytes : IsBytes value)
    (decoded : Entities.decode (text.map Char.toUInt8) = value.map Char.toUInt8) :
    decodeHtmlEntities text = value := by
  have plain : ∀ b ∈ value.map Char.toUInt8, decide (b ≠ 0) = true := by
    intro b member
    exact decide_eq_true fun zero => valueBytes.toUInt8.2 (zero ▸ member)
  rw [decodeHtmlEntities_eq bytes, decoded, List.takeWhile_eq_self_iff.mpr plain,
    valueBytes.toUInt8.1]

/-- A character is encoded as its byte is. -/
theorem encChar_bytes {c : Char} (small : c.toNat < 256) :
    (encChar c).map Char.toUInt8 = Entities.encByte c.toUInt8 := by
  have byte_ne {d : Char} (ascii : d.toNat < 256) (other : c ≠ d) : c.toUInt8 ≠ d.toUInt8 := by
    intro same
    have equal := congrArg UInt8.toNat same
    rw [toNat_toUInt8 small, toNat_toUInt8 ascii] at equal
    exact other (Char.toNat_inj.mp equal)
  unfold encChar
  split
  case isTrue same => rw [same]; decide
  split
  case isTrue same => rw [same]; decide
  split
  case isTrue same => rw [same]; decide
  case isFalse noReturn noNewline noAmpersand =>
  have returns : c.toUInt8 ≠ Entities.carriageReturn := byte_ne (by decide) noReturn
  have newlines : c.toUInt8 ≠ Entities.newline := byte_ne (by decide) noNewline
  have ampersands : c.toUInt8 ≠ Entities.ampersand := byte_ne (by decide) noAmpersand
  rw [Entities.encByte, if_neg returns, if_neg newlines, if_neg ampersands]
  rfl

theorem encValue_bytes {value : List Char} (bytes : IsBytes value) :
    (encValue value).map Char.toUInt8 = Entities.encValue (value.map Char.toUInt8) ∧
      IsBytes (encValue value) := by
  constructor
  · rw [encValue, List.map_flatMap, Entities.encValue, List.flatMap_map]
    exact List.flatMap_congr fun c member => encChar_bytes (bytes c member).2
  · intro d member
    obtain ⟨c, inside, there⟩ := List.mem_flatMap.mp member
    have literal (text : List Char) (plain : ∀ d ∈ text, 0 < d.toNat ∧ d.toNat < 256)
        (inText : d ∈ text) : 0 < d.toNat ∧ d.toNat < 256 := plain d inText
    unfold encChar at there
    split at there
    · exact literal _ (Fields.of_all (by decide)) there
    · split at there
      · exact literal _ (Fields.of_all (by decide)) there
      · split at there
        · exact literal _ (Fields.of_all (by decide)) there
        · rw [List.mem_singleton.mp there]
          exact bytes c inside

/-- A text without an ampersand is decoded to itself. -/
theorem decodeHtmlEntities_of_plain {text : List Char} (bytes : IsBytes text)
    (plain : '&' ∉ text) : decodeHtmlEntities text = text := by
  apply decodeHtmlEntities_of_decode bytes bytes
  apply Entities.decode_of_plain
  intro member
  obtain ⟨c, inside, same⟩ := List.mem_map.mp member
  have equal := congrArg UInt8.toNat same
  rw [toNat_toUInt8 (bytes c inside).2, Entities.ampersand, toNat_toUInt8 (by decide)] at equal
  exact plain (Char.toNat_inj.mp equal ▸ inside)

theorem valueText_bytes {res : TypedResource} (bytes : IsBytes (res.value.getD "").toList) :
    IsBytes (valueText res true) := by
  rw [valueText]
  split
  · exact (encValue_bytes bytes).2
  · exact bytes

/-- What is written for a value is decoded to the value. -/
theorem decodeHtmlEntities_valueText {res : TypedResource}
    (bytes : IsBytes (res.value.getD "").toList) :
    decodeHtmlEntities (valueText res true) = (res.value.getD "").toList := by
  rw [valueText]
  cases encodes : needsEncode res with
  | true =>
    rw [Bool.and_self, if_pos rfl]
    obtain ⟨same, encoded⟩ := encValue_bytes bytes
    apply decodeHtmlEntities_of_decode encoded bytes
    rw [same, Entities.decode_encValue]
  | false =>
    rw [Bool.and_false, if_neg Bool.false_ne_true]
    apply decodeHtmlEntities_of_plain bytes
    intro inside
    rw [needsEncode, Bool.and_eq_false_iff] at encodes
    rcases encodes with empty | plain
    · have nothing : res.value.getD "" = "" := by
        rwa [hasValue, Bool.not_eq_false', isEmpty_iff] at empty
      rw [nothing] at inside
      cases inside
    · rw [List.any_eq_false] at plain
      exact plain '&' inside (by decide)

/-! ## What a setter leaves alone -/

variable {signedChar : Bool} {res before after : TypedResource}

/-- Only the type with its details and the value may have changed. -/
structure Frame (before after : TypedResource) : Prop where
  name : after.name = before.name
  context : after.context = before.context
  priority : after.priority = before.priority
  derivation : after.derivation = before.derivation

theorem Frame.refl (res : TypedResource) : Frame res res := ⟨rfl, rfl, rfl, rfl⟩

theorem Frame.trans {later : TypedResource} (first : Frame before after)
    (second : Frame after later) : Frame before later :=
  ⟨second.name.trans first.name, second.context.trans first.context,
    second.priority.trans first.priority, second.derivation.trans first.derivation⟩

theorem setType_frame (res : TypedResource) (newType : LCFGResourceType) :
    Frame res (setType res newType).1 := by
  rw [setType]
  split
  · exact Frame.refl res
  · split
    · exact ⟨rfl, rfl, rfl, rfl⟩
    · exact Frame.refl res

theorem setTemplate_frame (res : TypedResource) (newTmpl : List LCFGTemplate) :
    Frame res (setTemplate res newTmpl).1 := by
  rw [setTemplate]
  split
  · exact ⟨rfl, rfl, rfl, rfl⟩
  · exact Frame.refl res

theorem setTypeDefault_frame (res : TypedResource) : Frame res (setTypeDefault res).1 := by
  have typed := setType_frame res .string
  rw [setTypeDefault]
  split
  case isTrue =>
    split
    case h_1 done =>
      rw [done] at typed
      exact typed
    case h_2 done =>
      rw [done] at typed
      exact typed.trans ((setTemplate_frame _ []).trans ⟨rfl, rfl, rfl, rfl⟩)
  case isFalse => exact Frame.refl res

theorem setTemplateAsString_frame (res : TypedResource) (newTmplStr : Option String) :
    Frame res (setTemplateAsString res newTmplStr).res := by
  cases newTmplStr with
  | none => exact Frame.refl res
  | some text =>
    rw [setTemplateAsString]
    split
    case isTrue => exact setTemplate_frame res []
    case isFalse =>
      split
      case h_1 => exact Frame.refl res
      case h_2 => exact Frame.refl res
      case h_3 newTemplate _ _ =>
        have frame := setTemplate_frame res newTemplate
        split
        all_goals
          next done =>
            rw [done] at frame
            exact frame

theorem setTypeDetails_frame (res : TypedResource) (newType : LCFGResourceType)
    (typeStr : List Char) : Frame res (setTypeDetails res newType typeStr).res := by
  have commented : Frame res (setFoundComment res (cutComment typeStr).1).1 := by
    unfold setFoundComment
    split
    · exact ⟨rfl, rfl, rfl, rfl⟩
    · exact Frame.refl res
  rw [setTypeDetails]
  dsimp only
  split
  case isTrue =>
    split
    case h_1 => exact commented
    case h_2 =>
      split
      case isTrue => exact commented
      case isFalse => exact commented.trans (setTemplateAsString_frame _ _)
  case isFalse => exact commented

theorem setTypeAsString_frame (res : TypedResource) (typeStr : Option String) :
    Frame res (setTypeAsString res typeStr).res := by
  rw [setTypeAsString]
  dsimp only
  split
  case isTrue => exact setType_frame res .string
  case isFalse =>
    split
    case h_1 => exact Frame.refl res
    case h_2 newType _ =>
      have typed := setType_frame res newType
      split
      case h_1 done =>
        rw [done] at typed
        exact typed
      case h_2 done =>
        rw [done] at typed
        exact typed.trans (setTypeDetails_frame _ _ _)

theorem setValue_frame (res : TypedResource) (newValue : Option String) :
    Frame res (setValue res newValue).1 := by
  rw [setValue]
  split
  · exact ⟨rfl, rfl, rfl, rfl⟩
  · exact Frame.refl res

/-- Whatever is set, the name stays, and a new derivation is one which has been read. -/
theorem setAttribute_frame (signedChar : Bool) (res : TypedResource) (typeSymbol : Char)
    (value : String) (valueLen : Nat) :
    (setAttribute signedChar res typeSymbol value valueLen).res.name = res.name ∧
      ((setAttribute signedChar res typeSymbol value valueLen).res.derivation = res.derivation ∨
        (setAttribute signedChar res typeSymbol value valueLen).res.derivation = [] ∨
        ∃ text, DerivList.fromString text =
          .ok (setAttribute signedChar res typeSymbol value valueLen).res.derivation) := by
  unfold setAttribute
  cases Symbol.ofChar typeSymbol with
  | derivation =>
    dsimp only
    split
    case isTrue =>
      rw [setDerivationAsString]
      split
      case h_1 => exact ⟨rfl, .inl rfl⟩
      case h_2 read => exact ⟨rfl, .inr (.inr ⟨_, read⟩)⟩
    case isFalse => exact ⟨rfl, .inr (.inl rfl)⟩
  | type =>
    dsimp only
    split
    case isTrue =>
      split
      all_goals exact ⟨(setTypeAsString_frame _ _).name, .inl (setTypeAsString_frame _ _).derivation⟩
    case isFalse => exact ⟨(setTypeDefault_frame res).name, .inl (setTypeDefault_frame res).derivation⟩
  | context =>
    have other (newCtx : Option String) : (setContext signedChar res newCtx).1.name = res.name ∧
        (setContext signedChar res newCtx).1.derivation = res.derivation := by
      rw [setContext]
      split <;> exact ⟨rfl, rfl⟩
    exact ⟨(other _).1, .inl (other _).2⟩
  | priority =>
    dsimp only
    split
    case isTrue =>
      split
      all_goals exact ⟨rfl, .inl rfl⟩
    case isFalse => exact ⟨rfl, .inl rfl⟩
  | value =>
    dsimp only
    exact ⟨(setValue_frame res _).name, .inl (setValue_frame res _).derivation⟩

/-! ## What is set from a text -/

/-- The resource afterwards, if it could be set. -/
def Attempt.done (attempt : Attempt) : Option TypedResource :=
  if attempt.ok then some attempt.res else none

theorem strndup_all {text : List Char} (noNul : '\x00' ∉ text) :
    strndup (String.ofList text) text.length = text := by
  have plain : ∀ c ∈ text, decide (c ≠ '\x00') = true := by
    intro c member
    exact decide_eq_true fun same => noNul (same ▸ member)
  rw [strndup, String.toList_ofList, List.takeWhile_eq_self_iff.mpr plain, List.take_length]

section Texts

variable {text : List Char} (noNul : '\x00' ∉ text)
include noNul

theorem setAttribute_value :
    (setAttribute signedChar res '\x00' (String.ofList text) text.length).done =
      if validValueForType res.type (String.ofList (decodeHtmlEntities text)) then
        some { res with value := some (String.ofList (decodeHtmlEntities text)) }
      else none := by
  have given : (if 0 < text.length then String.ofList (decodeHtmlEntities text) else "") =
      String.ofList (decodeHtmlEntities text) := by
    split
    case isTrue => rfl
    case isFalse empty =>
      rw [List.eq_nil_of_length_eq_zero (Nat.eq_zero_of_not_pos empty)]
      rfl
  have symbol : Symbol.ofChar '\x00' = .value := by decide
  rw [setAttribute, strndup_all noNul, symbol]
  simp only [given, setValue, validValue, Option.any_some, Attempt.done]
  split <;> rfl

variable (some_ : text ≠ [])
include some_

theorem setAttribute_type :
    (setAttribute signedChar res '%' (String.ofList text) text.length).done =
      (setTypeAsString res (some (String.ofList text))).done := by
  have symbol : Symbol.ofChar '%' = .type := by decide
  have pos : 0 < text.length := List.length_pos_iff.mpr some_
  rw [setAttribute, strndup_all noNul, symbol]
  simp only [if_pos pos]
  split
  case isTrue failed =>
    simp [Attempt.done, failed.1]
  case isFalse => rfl

theorem setAttribute_derivation :
    (setAttribute signedChar res '#' (String.ofList text) text.length).done =
      (DerivList.fromString text).toOption.map fun drvlist =>
        { res with derivation := drvlist } := by
  have symbol : Symbol.ofChar '#' = .derivation := by decide
  have pos : 0 < text.length := List.length_pos_iff.mpr some_
  rw [setAttribute, strndup_all noNul, symbol]
  simp only [if_pos pos, setDerivationAsString, String.toList_ofList]
  cases DerivList.fromString text <;> rfl

theorem setAttribute_context :
    (setAttribute signedChar res '=' (String.ofList text) text.length).done =
      if validContext signedChar (some (String.ofList text)) then
        some { res with context := some (String.ofList text) }
      else none := by
  have symbol : Symbol.ofChar '=' = .context := by decide
  have pos : 0 < text.length := List.length_pos_iff.mpr some_
  rw [setAttribute, strndup_all noNul, symbol]
  simp only [if_pos pos, setContext, reduceCtorEq, false_or, Attempt.done]
  split <;> rfl

theorem setAttribute_priority :
    (setAttribute signedChar res '^' (String.ofList text) text.length).done =
      if validInteger (String.ofList text) then some { res with priority := atoi text }
      else none := by
  have symbol : Symbol.ofChar '^' = .priority := by decide
  have pos : 0 < text.length := List.length_pos_iff.mpr some_
  rw [setAttribute, strndup_all noNul, symbol]
  simp only [if_pos pos, setPriority, Attempt.done]
  split <;> rfl

end Texts

end TypedResource

end Lcfg
