import LcfgCore.Library.Buffer
import LcfgCore.Resources.Tags
import LcfgCore.Resources.Templates

/-!
# Substituting tags

The name of a child resource is a template in which tags stand for the placeholders. It is
written from its end to its beginning (`resources/templates.c`).

## Main result

`substitute_fills_iff`: the placeholders are replaced if the template ends with one.
-/
namespace Lcfg

namespace Template

/-- The buffer, from where on it has been written, and the `end` of what is left of the
template. -/
structure Writing where
  buffer : List Char
  offset : Nat
  stop : Nat
deriving DecidableEq

/-- A copy right before the offset, which must not begin before the buffer does. -/
def copyBefore (w : Writing) (bytes : List Char) : Option Writing :=
  if bytes.length ≤ w.offset ∧ w.offset ≤ w.buffer.length then
    let offset := w.offset - bytes.length
    some { w with buffer := Buffer.write w.buffer offset bytes, offset }
  else none

/-- Copies the static part of the template from a place up to where the writing stands. -/
def copyStatic (template : List Char) (w : Writing) (after : Nat) : Option Writing :=
  let afterLen : Int := w.stop - after
  if afterLen > 0 then copyBefore w ((template.drop after).take afterLen.toNat) else some w

/-- One round: the static part behind a placeholder, and the tag in its place. -/
def substituteRound (template : List Char) (w : Writing) (place : Int) (tag : String) :
    Option Writing := do
  let w ← copyStatic template w (place + 1).toNat
  copyBefore { w with stop := place.toNat } tag.toList

def substituteLoop (template : List Char) (w : Writing) : List (Int × String) → Option Writing
  | [] => some w
  | (place, tag) :: rest => do
    let w ← substituteRound template w place tag
    substituteLoop template w rest

/-- `lcfgtemplate_substitute`: the length and the buffer, nothing for an access out of bounds.
The buffer may be there already, with some size. -/
def substitute (resTmpl : LCFGTemplate) (taglist : Option LCFGTagList) (size : Option Nat) :
    Except String (Option (Nat × List Char)) :=
  let insufficient := "Insufficient tags for template '" ++ text resTmpl ++ "'\n"
  match taglist with
  | none => .error insufficient
  | some taglist =>
    if taglist.length < resTmpl.pcount then .error insufficient
    else
      -- the tags from the last one back
      let tags := taglist.reverse.take resTmpl.pcount
      let newLen := tags.foldl (fun newLen tag => newLen + tag.length - 1) resTmpl.tmplLen
      let size := size.elim (newLen + 1) fun size => if size < newLen + 1 then newLen + 1 else size
      let template := (text resTmpl).toList
      .ok do
        let w ← substituteLoop template ⟨List.replicate size '\x00', newLen, resTmpl.tmplLen - 1⟩
          (resTmpl.places.zip tags)
        -- the rest is static
        if w.offset ≤ template.length then
          some (newLen, (Buffer.write w.buffer 0 (template.take w.offset)).set newLen '\x00')
        else none

/-! ## What the result should be -/

/-- The text with one tag after another for its placeholders. -/
def fill : List Char → List String → List Char
  | [], _ => []
  | c :: rest, [] => c :: fill rest []
  | c :: rest, tag :: tags =>
    if c = placeholder then tag.toList ++ fill rest tags else c :: fill rest (tag :: tags)

/-- The places of the placeholders, from the last one back. -/
def placesOf (text : List Char) : List Nat :=
  (List.range text.length).reverse.filter fun i => text[i]? = some placeholder

/-- The call succeeds, and the buffer has the text with the last tags in it. -/
def Substitutes (resTmpl : LCFGTemplate) (taglist : LCFGTagList) (size : Option Nat) : Prop :=
  ∃ len buffer, substitute resTmpl (some taglist) size = .ok (some (len, buffer)) ∧
    Buffer.string '\x00' buffer 0 =
      fill (text resTmpl).toList (taglist.drop (taglist.length - resTmpl.pcount)) ∧
    len = (Buffer.string '\x00' buffer 0).length

section Filling

variable {front : List Char} {tags : List String} {tag : String} {c : Char}

theorem fill_cons_plain (plain : c ≠ placeholder) (front : List Char) (tags : List String) :
    fill (c :: front) tags = c :: fill front tags := by
  cases tags with
  | nil => rw [fill]
  | cons tag tags => rw [fill, if_neg plain]

theorem fill_append_plain (plain : c ≠ placeholder) (front : List Char) (tags : List String) :
    fill (front ++ [c]) tags = fill front tags ++ [c] := by
  induction front generalizing tags with
  | nil =>
    rw [List.nil_append, fill_cons_plain plain]
    cases tags <;> rfl
  | cons d rest ih =>
    rw [List.cons_append]
    by_cases here : d = placeholder
    · cases tags with
      | nil => rw [fill, fill, ih, List.cons_append]
      | cons tag tags => rw [fill, fill, if_pos here, if_pos here, ih, List.append_assoc]
    · rw [fill_cons_plain here, fill_cons_plain here, ih, List.cons_append]

/-- The induction of `fill`, where there is one tag for each placeholder. -/
@[elab_as_elim]
private theorem fill_induction {motive : List Char → List String → Prop} (front : List Char)
    (tags : List String) (length : tags.length = front.count placeholder) (nil : motive [] [])
    (replaced : ∀ rest first others, motive rest others →
      motive (placeholder :: rest) (first :: others))
    (plain : ∀ d rest tags, d ≠ placeholder → motive rest tags → motive (d :: rest) tags) :
    motive front tags := by
  induction front generalizing tags with
  | nil =>
    rw [List.count_nil] at length
    obtain rfl := List.length_eq_zero_iff.mp length
    exact nil
  | cons d rest ih =>
    by_cases here : d = placeholder
    · subst here
      rw [List.count_cons_self] at length
      obtain ⟨first, others, rfl⟩ := List.exists_cons_of_length_eq_add_one length
      exact replaced rest first others (ih others (Nat.succ.inj length))
    · rw [List.count_cons_of_ne here] at length
      exact plain d rest tags here (ih tags length)

theorem fill_append_placeholder (length : tags.length = front.count placeholder) (tag : String) :
    fill (front ++ [placeholder]) (tags ++ [tag]) = fill front tags ++ tag.toList := by
  refine fill_induction front tags length ?_ ?_ ?_
  · simp [fill]
  · intro rest first others ih
    rw [List.cons_append, List.cons_append, fill, fill, if_pos rfl, if_pos rfl, ih,
      List.append_assoc]
  · intro d rest tags plain ih
    rw [List.cons_append, fill_cons_plain plain, fill_cons_plain plain, ih, List.cons_append]

theorem length_fill (length : tags.length = front.count placeholder) :
    (fill front tags).length + tags.length = front.length + (tags.map String.length).sum := by
  refine fill_induction front tags length ?_ ?_ ?_
  · rfl
  · intro rest first others ih
    rw [fill, if_pos rfl, List.length_append, List.length_cons, List.length_cons, List.map_cons,
      List.sum_cons, String.length_toList]
    omega
  · intro d rest tags plain ih
    rw [fill_cons_plain plain, List.length_cons, List.length_cons]
    omega

/-- All placeholders are replaced. -/
theorem mem_fill (length : tags.length = front.count placeholder) (member : c ∈ fill front tags) :
    c ∈ front ∧ c ≠ placeholder ∨ ∃ tag ∈ tags, c ∈ tag.toList := by
  revert member
  refine fill_induction front tags length ?_ ?_ ?_
  · intro member
    cases member
  · intro rest first others ih member
    rw [fill, if_pos rfl] at member
    rcases List.mem_append.mp member with inTag | later
    · exact .inr ⟨first, List.mem_cons_self, inTag⟩
    · rcases ih later with ⟨inside, other⟩ | ⟨tag, inside, there⟩
      · exact .inl ⟨List.mem_cons_of_mem _ inside, other⟩
      · exact .inr ⟨tag, List.mem_cons_of_mem _ inside, there⟩
  · intro d rest tags plain ih member
    rw [fill_cons_plain plain] at member
    rcases List.mem_cons.mp member with rfl | later
    · exact .inl ⟨List.mem_cons_self, plain⟩
    · exact (ih later).imp_left fun ⟨inside, other⟩ => ⟨List.mem_cons_of_mem _ inside, other⟩

end Filling

section Places

variable {front : List Char} {c : Char} {i : Nat}

theorem placesOf_append (front : List Char) (c : Char) :
    placesOf (front ++ [c]) =
      if c = placeholder then front.length :: placesOf front else placesOf front := by
  -- the last character does not change the earlier places
  have before : (List.range front.length).reverse.filter
      (fun i => (front ++ [c])[i]? = some placeholder) = placesOf front := by
    rw [placesOf]
    apply List.filter_congr
    intro i member
    rw [List.mem_reverse, List.mem_range] at member
    rw [List.getElem?_append_left member]
  have last : (front ++ [c])[front.length]? = some c := List.getElem?_concat_length
  rw [placesOf, List.length_append, List.length_singleton, List.range_succ, List.reverse_append,
    List.reverse_singleton, List.singleton_append, List.filter_cons, last, before]
  simp

theorem length_placesOf (text : List Char) : (placesOf text).length = text.count placeholder := by
  induction text using List.reverseRecOn with
  | nil => rfl
  | append_singleton front c ih =>
    rw [placesOf_append, List.count_append]
    by_cases here : c = placeholder
    · rw [if_pos here, here, List.length_cons, ih, List.count_singleton_self]
    · rw [if_neg here, ih, List.count_singleton, if_neg (by simpa using here), Nat.add_zero]

theorem mem_placesOf {text : List Char} (member : i ∈ placesOf text) :
    text[i]? = some placeholder := by
  rw [placesOf, List.mem_filter] at member
  simpa using member.2

/-- The loop which caches the places goes on behind those which are cached already. -/
theorem foldl_cachePlace (newTmpl : List Char) (positions : List Nat) (template : LCFGTemplate)
    (room : template.pcount + (positions.filter fun i => newTmpl[i]? = some placeholder).length ≤
      template.places.length) :
    let found := positions.filter fun i => newTmpl[i]? = some placeholder
    let after := positions.foldl (cachePlace newTmpl) template
    after.pcount = template.pcount + found.length ∧
      after.places.length = template.places.length ∧
      after.places.take after.pcount =
        template.places.take template.pcount ++ found.map Int.ofNat ∧
      after.tmplLen = template.tmplLen := by
  induction positions generalizing template with
  | nil => simp
  | cons i positions ih =>
    rw [List.foldl_cons]
    -- only a placeholder takes a place in the array
    by_cases here : newTmpl[i]? = some placeholder
    · have found : (i :: positions).filter (fun i => newTmpl[i]? = some placeholder) =
          i :: positions.filter fun i => newTmpl[i]? = some placeholder :=
        List.filter_cons_of_pos (by simpa using here)
      rw [found] at room ⊢
      rw [List.length_cons] at room
      have cached : cachePlace newTmpl template i = { template with
          pcount := template.pcount + 1, places := template.places.set template.pcount i } :=
        if_pos here
      rw [cached]
      obtain ⟨count, length, places, len⟩ := ih { template with
        pcount := template.pcount + 1, places := template.places.set template.pcount i }
        (by dsimp only; rw [List.length_set]; omega)
      refine ⟨?_, by rw [length]; exact List.length_set, ?_, len⟩
      · rw [count, List.length_cons]
        exact Nat.succ_add_eq_add_succ _ _
      have inside : template.pcount < template.places.length := by omega
      rw [places]
      dsimp only
      rw [List.take_succ_eq_append_getElem (by rw [List.length_set]; exact inside),
        List.take_set_of_le (Nat.le_refl _), List.getElem_set_self, List.map_cons, List.append_assoc,
        List.singleton_append]
      rfl
    · have found : (i :: positions).filter (fun i => newTmpl[i]? = some placeholder) =
          positions.filter fun i => newTmpl[i]? = some placeholder :=
        List.filter_cons_of_neg (by simpa using here)
      have passed : cachePlace newTmpl template i = template := if_neg here
      rw [found] at room ⊢
      rw [passed]
      exact ih template room

/-- A template which has been accepted for the first time. -/
theorem setTmpl_spec {newTmpl : String} {template : LCFGTemplate}
    (accepted : setTmpl {} newTmpl = (template, true)) :
    validTemplate newTmpl = true ∧ text template = newTmpl ∧
      template.tmplLen = newTmpl.length ∧
      template.pcount = newTmpl.toList.count placeholder ∧
      template.places.length = tagsMaxDepth ∧
      template.places.take template.pcount = (placesOf newTmpl.toList).map Int.ofNat := by
  rw [setTmpl] at accepted
  split at accepted
  case isFalse => cases (Prod.mk.inj accepted).2
  case isTrue valid =>
    split at accepted
    case h_1 => cases (Prod.mk.inj accepted).2
    case h_2 nameLen _ =>
      obtain rfl := (Prod.mk.inj accepted).1
      obtain ⟨first, rest, whole, alpha, -, few, -⟩ := validTemplate_iff.mp valid
      have plain : first ≠ placeholder := by
        rintro rfl
        cases alpha
      -- a valid template has no more placeholders than there is room for
      have count : newTmpl.toList.count placeholder ≤ tagsMaxDepth := by
        rw [whole, List.count_cons_of_ne plain]
        exact few
      have length := length_placesOf newTmpl.toList
      rw [placesOf, String.length_toList] at length
      obtain ⟨pcount, size, places, len⟩ := foldl_cachePlace newTmpl.toList
        (List.range newTmpl.length).reverse { tmpl := some newTmpl, tmplLen := newTmpl.length, nameLen }
        (by rw [length]; simpa using count)
      refine ⟨valid, ?_, len, ?_, size, ?_⟩
      · rw [text, foldl_cachePlace_tmpl, Option.getD_some]
      · rw [pcount, length]
        exact Nat.zero_add _
      · rw [places, placesOf, String.length_toList]
        rfl

end Places

/-! ## Writing backwards -/

section Backwards

variable {w w' : Writing} {bytes tail : List Char} {template whole front mid more acc : List Char}
  {tags : List String} {stop : Nat} {steps : List (Nat × String)}

theorem copyBefore_spec (fits : bytes.length ≤ w.offset) (inside : w.offset ≤ w.buffer.length) :
    ∃ w', copyBefore w bytes = some w' ∧ w'.offset + bytes.length = w.offset ∧
      w'.buffer.length = w.buffer.length ∧ w'.stop = w.stop ∧
      w'.buffer.drop w'.offset = bytes ++ w.buffer.drop w.offset := by
  have back : w.offset - bytes.length + bytes.length = w.offset := Nat.sub_add_cancel fits
  have room : w.offset - bytes.length + bytes.length ≤ w.buffer.length := by
    rw [back]
    exact inside
  refine ⟨_, if_pos ⟨fits, inside⟩, back, Buffer.length_write _ _ _, rfl, ?_⟩
  have front : (w.buffer.take (w.offset - bytes.length)).length = w.offset - bytes.length :=
    List.length_take_of_le (by omega)
  dsimp only
  rw [Buffer.write_eq _ _ _ room, List.drop_left' front, back]

/-- The static part of the template from behind a place. -/
def staticPart (template : List Char) (place stop : Nat) : List Char :=
  (template.drop (place + 1)).take (stop - (place + 1))

theorem copyStatic_spec (place : Nat)
    (fits : (staticPart template place w.stop).length ≤ w.offset)
    (inside : w.offset ≤ w.buffer.length) :
    ∃ w', copyStatic template w (place + 1) = some w' ∧
      w'.offset + (staticPart template place w.stop).length = w.offset ∧
      w'.buffer.length = w.buffer.length ∧
      w'.buffer.drop w'.offset = staticPart template place w.stop ++ w.buffer.drop w.offset := by
  rw [copyStatic]
  -- between two placeholders there may be nothing to copy
  by_cases some_ : (w.stop : Int) - ((place + 1 : Nat) : Int) > 0
  · have length : ((w.stop : Int) - ((place + 1 : Nat) : Int)).toNat = w.stop - (place + 1) := by
      omega
    rw [if_pos some_, length]
    obtain ⟨w', done, offset, size, -, written⟩ := copyBefore_spec fits inside
    exact ⟨w', done, offset, size, written⟩
  · have nothing : w.stop - (place + 1) = 0 := by omega
    have none_ : staticPart template place w.stop = [] := by
      rw [staticPart, nothing, List.take_zero]
    rw [if_neg some_, none_]
    exact ⟨w, rfl, rfl, rfl, rfl⟩

theorem substituteRound_spec (place : Nat) (tag : String)
    (fits : tag.length + (staticPart template place w.stop).length ≤ w.offset)
    (inside : w.offset ≤ w.buffer.length) :
    ∃ w', substituteRound template w place tag = some w' ∧
      w'.offset + (tag.length + (staticPart template place w.stop).length) = w.offset ∧
      w'.buffer.length = w.buffer.length ∧ w'.stop = place ∧
      w'.buffer.drop w'.offset =
        tag.toList ++ (staticPart template place w.stop ++ w.buffer.drop w.offset) := by
  -- first the text behind the placeholder, then the tag in front of it
  obtain ⟨w₁, done₁, offset₁, size₁, written₁⟩ := @copyStatic_spec w template place (by omega) inside
  have room : tag.toList.length ≤ ({ w₁ with stop := place } : Writing).offset := by
    rw [String.length_toList]
    dsimp only
    omega
  have inside₁ : ({ w₁ with stop := place } : Writing).offset ≤
      ({ w₁ with stop := place } : Writing).buffer.length := by
    dsimp only
    omega
  obtain ⟨w', done, offset, size, stop, written⟩ := copyBefore_spec room inside₁
  refine ⟨w', ?_, ?_, size.trans size₁, stop, ?_⟩
  · have after : ((place : Int) + 1).toNat = place + 1 := by omega
    rw [substituteRound, after, done₁]
    exact done
  · rw [String.length_toList] at offset
    dsimp only at offset
    omega
  · rw [written]
    dsimp only
    rw [written₁]

/-- What is written by the loop: where it stops, and the text from there on. -/
def assemble (template : List Char) : Nat → List (Nat × String) → List Char → Nat × List Char
  | stop, [], acc => (stop, acc)
  | stop, (place, tag) :: rest, acc =>
    assemble template place rest (tag.toList ++ (staticPart template place stop ++ acc))

theorem length_assemble (template : List Char) (stop : Nat) (steps : List (Nat × String))
    (acc : List Char) : acc.length ≤ (assemble template stop steps acc).2.length := by
  induction steps generalizing stop acc with
  | nil => exact Nat.le_refl _
  | cons step rest ih =>
    have later := ih step.1 (step.2.toList ++ (staticPart template step.1 stop ++ acc))
    rw [List.length_append, List.length_append] at later
    rw [assemble]
    omega

theorem assemble_stop (template : List Char) (stop : Nat) (steps : List (Nat × String))
    (acc : List Char) : (assemble template stop steps acc).1 ∈ stop :: steps.map Prod.fst ∧
      (steps ≠ [] → (assemble template stop steps acc).1 ∈ steps.map Prod.fst) := by
  induction steps generalizing stop acc with
  | nil => exact ⟨List.mem_cons_self, fun some_ => absurd rfl some_⟩
  | cons step rest ih =>
    have later := (ih step.1 (step.2.toList ++ (staticPart template step.1 stop ++ acc))).1
    exact ⟨List.mem_cons_of_mem _ later, fun _ => later⟩

theorem substituteLoop_spec (inside : w.offset ≤ w.buffer.length)
    (written : w.buffer.drop w.offset = acc ++ tail)
    (fits : (assemble template w.stop steps acc).2.length ≤ w.offset + acc.length) :
    ∃ w', substituteLoop template w (steps.map fun step => ((step.1 : Int), step.2)) = some w' ∧
      w'.offset + (assemble template w.stop steps acc).2.length = w.offset + acc.length ∧
      w'.buffer.length = w.buffer.length ∧
      w'.buffer.drop w'.offset = (assemble template w.stop steps acc).2 ++ tail := by
  -- the buffer is filled from its end, with what has been assembled so far
  induction steps generalizing w acc with
  | nil => exact ⟨w, rfl, rfl, rfl, written⟩
  | cons step rest ih =>
    obtain ⟨place, tag⟩ := step
    rw [assemble] at fits ⊢
    have grows := length_assemble template place rest
      (tag.toList ++ (staticPart template place w.stop ++ acc))
    rw [List.length_append, List.length_append, String.length_toList] at grows
    obtain ⟨w₁, done, offset, size, stop, here⟩ := @substituteRound_spec w template place tag
      (by omega) inside
    rw [written, ← List.append_assoc (staticPart template place w.stop),
      ← List.append_assoc tag.toList] at here
    have fits₁ : (assemble template w₁.stop rest
        (tag.toList ++ (staticPart template place w.stop ++ acc))).2.length ≤
        w₁.offset + (tag.toList ++ (staticPart template place w.stop ++ acc)).length := by
      rw [stop, List.length_append, List.length_append, String.length_toList]
      omega
    obtain ⟨w', rest_, offset', size', written'⟩ := ih (by omega) here fits₁
    rw [stop] at offset' written'
    refine ⟨w', ?_, ?_, size'.trans size, written'⟩
    · rw [List.map_cons, substituteLoop, done]
      exact rest_
    · rw [offset', List.length_append, List.length_append, String.length_toList]
      omega

/-- With the part of the template which is left, the text is filled. -/
theorem take_assemble (cut : whole = front ++ (mid ++ more))
    (length : tags.length = front.count placeholder) :
    let r := assemble whole (front.length + mid.length) ((placesOf front).zip tags.reverse) acc
    whole.take r.1 ++ r.2 = fill front tags ++ (mid ++ acc) ∧ r.1 ≤ front.length + mid.length := by
  induction front using List.reverseRecOn generalizing mid more acc tags with
  | nil =>
    subst cut
    refine ⟨?_, Nat.le_refl _⟩
    change (mid ++ more).take (0 + mid.length) ++ acc = fill [] tags ++ (mid ++ acc)
    rw [Nat.zero_add, List.take_left]
    rfl
  | append_singleton f c ih =>
    have size : (f ++ [c]).length = f.length + 1 := by simp
    rw [placesOf_append]
    by_cases here : c = placeholder
    · rw [if_pos here]
      rw [here, List.count_append, List.count_singleton_self] at length
      obtain rfl | ⟨earlier, last, rfl⟩ := tags.eq_nil_or_concat'
      · cases length
      rw [List.length_append, List.length_singleton, Nat.add_right_cancel_iff] at length
      have static : staticPart whole f.length ((f ++ [c]).length + mid.length) = mid := by
        have back : whole.drop (f.length + 1) = mid ++ more := by
          rw [cut, ← size, List.drop_left]
        rw [staticPart, back, size, Nat.add_sub_cancel_left, List.take_left]
      obtain ⟨filled, before⟩ := @ih [] (c :: (mid ++ more)) (last.toList ++ (mid ++ acc)) earlier
        (by rw [cut, List.append_assoc]; rfl) length
      rw [List.length_nil, Nat.add_zero] at filled before
      rw [List.reverse_append, List.reverse_singleton, List.singleton_append, List.zip_cons_cons,
        assemble, static, here, fill_append_placeholder length]
      constructor
      · rw [filled, List.nil_append, List.append_assoc]
      · rw [List.length_append]
        exact before.trans (by omega)
    · rw [if_neg here]
      rw [List.count_append, List.count_singleton, if_neg (by simpa using here), Nat.add_zero]
        at length
      obtain ⟨filled, before⟩ := @ih (c :: mid) more acc tags
        (by rw [cut, List.append_assoc]; rfl) length
      have same : f.length + (c :: mid).length = (f ++ [c]).length + mid.length := by
        rw [size, List.length_cons]
        omega
      rw [same] at filled before
      refine ⟨?_, before⟩
      rw [filled, fill_append_plain here, List.append_assoc]
      rfl

end Backwards

/-! ## The whole name -/

section Names

variable {newTmpl : String} {template : LCFGTemplate} {taglist : LCFGTagList}

theorem foldl_newLen {tags : List String} (some_ : ∀ tag ∈ tags, 1 ≤ tag.length) (len : Nat) :
    tags.foldl (fun newLen tag => newLen + tag.length - 1) len + tags.length =
      len + (tags.map String.length).sum := by
  induction tags generalizing len with
  | nil => rfl
  | cons tag tags ih =>
    have here := some_ tag List.mem_cons_self
    have later := ih (fun other member => some_ other (List.mem_cons_of_mem _ member))
      (len + tag.length - 1)
    rw [List.foldl_cons, List.length_cons, List.map_cons, List.sum_cons]
    omega

theorem validTag_plain {tag : String} (valid : TagList.validTag tag = true) :
    1 ≤ tag.length ∧ ∀ c ∈ tag.toList, isWord c = true := by
  rw [TagList.validTag, Bool.and_eq_true, List.all_eq_true] at valid
  refine ⟨?_, valid.2⟩
  rw [← String.length_toList]
  apply List.length_pos_iff.mpr
  exact mt String.toList_eq_nil_iff.mp (by simpa using valid.1)

theorem isWord_ne {c : Char} (word : isWord c = true) : c ≠ '\x00' ∧ c ≠ placeholder := by
  constructor
  · rintro rfl
    revert word
    decide
  · rintro rfl
    revert word
    decide

/-- The last tags of the list, as many as there are placeholders. -/
def lastTags (template : LCFGTemplate) (taglist : LCFGTagList) : LCFGTagList :=
  taglist.drop (taglist.length - template.pcount)

/-- What the rounds leave of the template, and what they have written. -/
def rounds (template : LCFGTemplate) (taglist : LCFGTagList) : Nat × List Char :=
  assemble (text template).toList ((text template).length - 1)
    ((placesOf (text template).toList).zip (lastTags template taglist).reverse) []

/-- What is known of a template which has been accepted, with enough valid tags. -/
structure Filled (template : LCFGTemplate) (taglist : LCFGTagList) : Prop where
  plain : ∀ c ∈ (text template).toList, c = placeholder ∨ isWord c = true
  some_ : placesOf (text template).toList ≠ []
  tmplLen : template.tmplLen = (text template).length
  pcount : (lastTags template taglist).length = (text template).toList.count placeholder
  steps : template.places.zip (taglist.reverse.take template.pcount) =
    ((placesOf (text template).toList).zip (lastTags template taglist).reverse).map
      fun step => ((step.1 : Int), step.2)
  visited : taglist.reverse.take template.pcount = (lastTags template taglist).reverse
  tags : ∀ tag ∈ lastTags template taglist, TagList.validTag tag = true
  enough : ¬ taglist.length < template.pcount

theorem filled_of_accepted (accepted : setTmpl {} newTmpl = (template, true))
    (valid : ∀ tag ∈ taglist, TagList.validTag tag = true)
    (enough : template.pcount ≤ taglist.length) : Filled template taglist := by
  obtain ⟨validTmpl, sameText, tmplLen, pcount, size, places⟩ := setTmpl_spec accepted
  obtain ⟨first, rest, whole, alpha, -, few, one⟩ := validTemplate_iff.mp validTmpl
  have length : (lastTags template taglist).length = template.pcount := by
    rw [lastTags, List.length_drop]
    omega
  have visited : taglist.reverse.take template.pcount = (lastTags template taglist).reverse :=
    List.take_reverse
  refine ⟨?_, ?_, ?_, ?_, ?_, visited, fun tag member => valid tag (List.mem_of_mem_drop member),
    Nat.not_lt.mpr enough⟩
  · rw [sameText]
    exact (validTemplate_plain validTmpl).2
  · intro none_
    have count := length_placesOf newTmpl.toList
    have more := List.count_le_count_cons (a := placeholder) (b := first) (l := rest)
    rw [← sameText, none_, sameText, whole, List.length_nil] at count
    omega
  · rw [tmplLen, sameText]
  · rw [length, pcount, sameText]
  · rw [visited, sameText]
    have cut : template.places =
        (placesOf newTmpl.toList).map Int.ofNat ++ template.places.drop template.pcount := by
      rw [← places, List.take_append_drop]
    have equal : ((placesOf newTmpl.toList).map Int.ofNat).length =
        (lastTags template taglist).reverse.length := by
      rw [List.length_map, length_placesOf, List.length_reverse, length, pcount]
    have zipped := @List.zip_append _ _ _ (template.places.drop template.pcount) _ [] equal
    rw [List.append_nil, List.zip_nil_right, List.append_nil, ← cut, List.zip_map_left] at zipped
    exact zipped

section Results

variable (filled : Filled template taglist)
include filled

theorem Filled.noNul {c : Char} (member : c ∈ (text template).toList) : c ≠ '\x00' := by
  rcases filled.plain c member with rfl | word
  · decide
  · exact (isWord_ne word).1

theorem Filled.inTag {tag : String} (member : tag ∈ lastTags template taglist) {c : Char}
    (there : c ∈ tag.toList) : c ≠ '\x00' ∧ c ≠ placeholder :=
  isWord_ne ((validTag_plain (filled.tags tag member)).2 c there)

/-- The length which is reserved is that of the filled text. -/
theorem Filled.newLen : ((lastTags template taglist).reverse.foldl
    (fun newLen tag => newLen + tag.length - 1) template.tmplLen) =
      (fill (text template).toList (lastTags template taglist)).length := by
  have reserved := @foldl_newLen (lastTags template taglist).reverse
    (fun tag member => (validTag_plain (filled.tags tag (List.mem_reverse.mp member))).1)
    template.tmplLen
  have wanted := length_fill filled.pcount
  rw [List.length_reverse, List.map_reverse, List.sum_reverse, filled.tmplLen] at reserved
  rw [String.length_toList] at wanted
  rw [filled.tmplLen]
  omega

/-- What the call gives, if the rounds leave enough room for the rest of the template. -/
theorem Filled.substitute_spec (size : Option Nat) {offset : Nat}
    (room : offset + (rounds template taglist).2.length =
      (fill (text template).toList (lastTags template taglist)).length)
    (inside : offset ≤ (text template).length)
    (noNul : '\x00' ∉ (text template).toList.take offset ++ (rounds template taglist).2) :
    ∃ buffer, substitute template (some taglist) size =
        .ok (some ((fill (text template).toList (lastTags template taglist)).length, buffer)) ∧
      Buffer.string '\x00' buffer 0 =
        (text template).toList.take offset ++ (rounds template taglist).2 := by
  rw [substitute]
  dsimp only
  rw [if_neg filled.enough, filled.steps, filled.visited, filled.newLen, filled.tmplLen]
  generalize fill (text template).toList (lastTags template taglist) = wanted at room
  generalize reserved : size.elim (wanted.length + 1) (fun size =>
    if size < wanted.length + 1 then wanted.length + 1 else size) = bufSize
  have large : wanted.length + 1 ≤ bufSize := by
    rw [← reserved]
    cases size with
    | none => exact Nat.le_refl _
    | some size =>
      simp only [Option.elim_some]
      split <;> omega
  obtain ⟨rest, rfl⟩ := Nat.exists_eq_add_of_le large
  have blank : (List.replicate (wanted.length + 1 + rest) '\x00').drop wanted.length =
      [] ++ '\x00' :: List.replicate rest '\x00' := by
    rw [List.drop_replicate, List.nil_append, ← List.replicate_succ]
    congr 1
    omega
  obtain ⟨w, done, stands, length, written⟩ := @substituteLoop_spec
    ⟨List.replicate (wanted.length + 1 + rest) '\x00', wanted.length, (text template).length - 1⟩
    ('\x00' :: List.replicate rest '\x00') (text template).toList []
    ((placesOf (text template).toList).zip (lastTags template taglist).reverse)
    (by rw [List.length_replicate]; dsimp only; omega) blank (by
      change (rounds template taglist).2.length ≤ wanted.length + 0
      omega)
  change w.offset + (rounds template taglist).2.length = wanted.length + 0 at stands
  change w.buffer.drop w.offset = (rounds template taglist).2 ++ _ at written
  obtain rfl : w.offset = offset := by omega
  rw [List.length_replicate] at length
  have static : ((text template).toList.take w.offset).length = w.offset := by
    rw [List.length_take, String.length_toList]
    omega
  have front : Buffer.write w.buffer 0 ((text template).toList.take w.offset) =
      (text template).toList.take w.offset ++
        ((rounds template taglist).2 ++ '\x00' :: List.replicate rest '\x00') := by
    rw [Buffer.write_eq _ _ _ (by omega), Nat.zero_add, static, written]
    rfl
  have last : wanted.length =
      ((text template).toList.take w.offset ++ (rounds template taglist).2).length := by
    rw [List.length_append, static]
    omega
  have kept : (Buffer.write w.buffer 0 ((text template).toList.take w.offset)).set wanted.length
      '\x00' = (text template).toList.take w.offset ++ (rounds template taglist).2 ++
        '\x00' :: List.replicate rest '\x00' := by
    rw [front, ← List.append_assoc, last, List.set_append_right _ _ (Nat.le_refl _), Nat.sub_self]
    rfl
  refine ⟨(Buffer.write w.buffer 0 ((text template).toList.take w.offset)).set wanted.length
    '\x00', ?_, ?_⟩
  · rw [done, Option.bind_eq_bind, Option.bind_some, if_pos (by rwa [String.length_toList])]
  · exact Buffer.string_eq (by rw [List.drop_zero]; exact kept) noNul

/-- The template ends with a placeholder. -/
theorem Filled.ends {front : List Char} (whole : (text template).toList = front ++ [placeholder]) :
    (rounds template taglist).1 ≤ (text template).length ∧
      (text template).toList.take (rounds template taglist).1 ++ (rounds template taglist).2 =
        fill (text template).toList (lastTags template taglist) := by
  have length : (text template).length = front.length + 1 := by
    rw [← String.length_toList, whole, List.length_append, List.length_singleton]
  obtain ⟨result, before⟩ := @take_assemble (text template).toList (text template).toList [] [] []
    (lastTags template taglist) (by rw [List.append_nil, List.append_nil]) filled.pcount
  rw [List.length_nil, Nat.add_zero, String.length_toList] at result before
  rw [List.append_nil, List.append_nil] at result
  -- the first round does not look at the end of the template
  have same : rounds template taglist = assemble (text template).toList (text template).length
      ((placesOf (text template).toList).zip (lastTags template taglist).reverse) [] := by
    have count := filled.pcount
    rw [whole, List.count_append, List.count_singleton_self] at count
    obtain none_ | ⟨earlier, last, tags⟩ := (lastTags template taglist).eq_nil_or_concat'
    · rw [none_, List.length_nil] at count
      omega
    · have nothing : ∀ stop ≤ front.length + 1,
          staticPart (text template).toList front.length stop = [] := fun stop le => by
        rw [staticPart, Nat.sub_eq_zero_of_le le, List.take_zero]
      rw [rounds, length, whole, placesOf_append, if_pos rfl, tags, List.reverse_append,
        List.reverse_singleton, List.singleton_append, List.zip_cons_cons, assemble, assemble,
        ← whole, nothing _ (by omega), nothing _ (by omega)]
  rw [same]
  exact ⟨before, result⟩

/-- The template ends with another character, which the rounds leave out. -/
theorem Filled.continues {front : List Char} {c : Char} (plain : c ≠ placeholder)
    (whole : (text template).toList = front ++ [c]) :
    (rounds template taglist).1 < (text template).length ∧
      (text template).toList[(rounds template taglist).1]? = some placeholder ∧
      (text template).toList.take (rounds template taglist).1 ++ (rounds template taglist).2 =
        fill front (lastTags template taglist) := by
  have length : (text template).length = front.length + 1 := by
    rw [← String.length_toList, whole, List.length_append, List.length_singleton]
  have count := filled.pcount
  rw [whole, List.count_append, List.count_singleton, if_neg (by simpa using plain), Nat.add_zero]
    at count
  have places : placesOf (text template).toList = placesOf front := by
    rw [whole, placesOf_append, if_neg plain]
  obtain ⟨result, before⟩ := @take_assemble (text template).toList front [] [c] []
    (lastTags template taglist) whole count
  rw [List.length_nil, Nat.add_zero, ← places] at result before
  rw [List.append_nil, List.append_nil] at result
  have same : rounds template taglist = assemble (text template).toList front.length
      ((placesOf (text template).toList).zip (lastTags template taglist).reverse) [] := by
    rw [rounds, length, Nat.add_sub_cancel]
  rw [same]
  refine ⟨by omega, ?_, result⟩
  -- the writing stops at the first placeholder
  have notNil : (placesOf (text template).toList).zip (lastTags template taglist).reverse ≠ [] := by
    have some_ := List.length_pos_iff.mpr filled.some_
    have pairs := @List.length_zip _ _ (placesOf (text template).toList)
      (lastTags template taglist).reverse
    rw [List.length_reverse, filled.pcount, ← length_placesOf, Nat.min_self] at pairs
    exact List.length_pos_iff.mp (pairs ▸ some_)
  have member := (assemble_stop (text template).toList front.length _ []).2 notNil
  obtain ⟨⟨place, tag⟩, inside, at_⟩ := List.mem_map.mp member
  rw [← at_]
  exact mem_placesOf (List.of_mem_zip inside).1

end Results

theorem Filled.substitutes_iff (filled : Filled template taglist) (size : Option Nat) :
    Substitutes template taglist size ↔
      (text template).toList.getLast? = some placeholder := by
  rw [Substitutes]
  obtain none_ | ⟨front, c, whole⟩ := (text template).toList.eq_nil_or_concat'
  · exact absurd (by rw [none_]; rfl) filled.some_
  rw [whole, List.getLast?_concat, Option.some_inj, ← whole]
  have wantedFree : ∀ d ∈ fill (text template).toList (lastTags template taglist),
      d ≠ '\x00' ∧ d ≠ placeholder := by
    intro d member
    rcases mem_fill filled.pcount member with ⟨inside, other⟩ | ⟨tag, inside, there⟩
    · exact ⟨filled.noNul inside, other⟩
    · exact filled.inTag inside there
  by_cases ends : c = placeholder
  · -- everything is copied to its place
    obtain ⟨inside, result⟩ := filled.ends (ends ▸ whole)
    have room := congrArg List.length result
    rw [List.length_append, List.length_take, String.length_toList, Nat.min_eq_left inside] at room
    obtain ⟨buffer, done, written⟩ := filled.substitute_spec size room inside (by
      rw [result]
      exact fun nul => (wantedFree _ nul).1 rfl)
    rw [result] at written
    refine iff_of_true ⟨_, buffer, done, written, ?_⟩ ends
    rw [written]
  · -- one character is missing, and a placeholder is left
    obtain ⟨inside, left, result⟩ := filled.continues ends whole
    have room := congrArg List.length result
    rw [List.length_append, List.length_take, String.length_toList,
      Nat.min_eq_left (Nat.le_of_lt inside)] at room
    have count := filled.pcount
    rw [whole, List.count_append, List.count_singleton, if_neg (by simpa using ends), Nat.add_zero]
      at count
    have more : (fill (text template).toList (lastTags template taglist)).length =
        (fill front (lastTags template taglist)).length + 1 := by
      rw [whole, fill_append_plain ends, List.length_append, List.length_singleton]
    have front_ : (text template).toList.take ((rounds template taglist).1 + 1) =
        (text template).toList.take (rounds template taglist).1 ++ [placeholder] := by
      rw [List.take_add_one, left]
      rfl
    have notNul : '\x00' ∉ (text template).toList.take ((rounds template taglist).1 + 1) ++
        (rounds template taglist).2 := by
      rw [front_, List.append_assoc]
      intro nul
      have among : '\x00' ∈ fill front (lastTags template taglist) := by
        rw [← result]
        rcases List.mem_append.mp nul with here | later
        · exact List.mem_append_left _ here
        · rcases List.mem_cons.mp later with isPlaceholder | rest
          · cases isPlaceholder
          · exact List.mem_append_right _ rest
      have longer : '\x00' ∈ fill (text template).toList (lastTags template taglist) := by
        rw [whole, fill_append_plain ends]
        exact List.mem_append_left _ among
      exact (wantedFree _ longer).1 rfl
    obtain ⟨buffer, done, written⟩ := filled.substitute_spec size
      (by rw [more]; omega) (Nat.succ_le_of_lt inside) notNul
    refine iff_of_false ?_ ends
    rintro ⟨len, buffer', done', same, -⟩
    rw [done] at done'
    obtain ⟨rfl, rfl⟩ := Prod.mk.inj (Option.some_inj.mp (Except.ok.inj done'))
    rw [written, front_] at same
    have among : placeholder ∈ fill (text template).toList (lastTags template taglist) := by
      rw [lastTags, ← same]
      simp
    exact (wantedFree _ among).2 rfl

end Names

end Template

end Lcfg
