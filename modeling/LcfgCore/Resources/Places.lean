import LcfgCore.Library.Run
import LcfgCore.Resources.Substitute

/-!
# The cache of the placeholders

A template which is given its text more than once. The places of the placeholders are kept in
an array of a fixed size, and a write behind it is a fault.

## Main results

* `cacheFrom_spec`: the loop writes the places behind those which are there already.
* `setTmpl_eq`: a call without a fault does what the one for new templates does.
* `places_consistent_iff`: the cache is that of the text in all states of a run if and only if
  the places which are there already are the ones which the loop leaves out.
-/

namespace Lcfg

namespace CachedTemplate

open Template

/-- One round of the loop. -/
def cacheAt (newTmpl : List Char) (template : LCFGTemplate) (i : Nat) : Option LCFGTemplate :=
  if newTmpl[i]? = some placeholder then
    if template.pcount < template.places.length then
      some { template with
        pcount := template.pcount + 1, places := template.places.set template.pcount i }
    else none
  else some template

/-- The loop, down from the position before `i`. -/
def cacheFrom (newTmpl : List Char) : Nat → LCFGTemplate → Option LCFGTemplate
  | 0, template => some template
  | i + 1, template => (cacheAt newTmpl template i).bind (cacheFrom newTmpl i)

/-- Where the loop begins: the last position, as an `int`. -/
def lastPlace (newTmplLen : Nat) : Int := ((newTmplLen : Int) - 1).bmod (2 ^ 32)

/-- How many positions the loop looks at. -/
def rounds (newTmpl : List Char) : Nat := (lastPlace newTmpl.length + 1).toNat

/-- `lcfgtemplate_set_tmpl`, none for a write behind the array. -/
def setTmpl (template : LCFGTemplate) (newTmpl : Option String) : Option (LCFGTemplate × Bool) :=
  match newTmpl with
  | none => some (template, false)
  | some newTmpl =>
    if validTemplate newTmpl then
      match Substring.find ['_', placeholder] newTmpl.toList with
      | none => some (template, false)
      | some nameLen =>
        (cacheFrom newTmpl.toList (rounds newTmpl.toList)
          { template with tmpl := some newTmpl, tmplLen := newTmpl.length, nameLen }).map (·, true)
    else some (template, false)

/-- One call after another; nothing happens after a fault. -/
def step (template : Option LCFGTemplate) (newTmpl : Option String) : Option LCFGTemplate :=
  template.bind fun template => (setTmpl template newTmpl).map Prod.fst

/-- A text which is taken over. -/
def accepted (tmpl : String) : Bool :=
  validTemplate tmpl && (Substring.find ['_', placeholder] tmpl.toList).isSome

/-- The cache is that of the text, and nothing has been written behind the array. -/
def Consistent (template : Option LCFGTemplate) : Prop :=
  ∃ t, template = some t ∧ t.pcount = (text t).toList.count placeholder ∧
    t.pcount ≤ tagsMaxDepth ∧
    t.places.take t.pcount = (placesOf (text t).toList).map Int.ofNat

/-- The places which are in the cache are those of the new text before the loop begins. -/
def Continues (template : Option LCFGTemplate) (newTmpl : Option String) : Prop :=
  ∀ t ∈ template, ∀ tmpl ∈ newTmpl, accepted tmpl = true →
    placesOf tmpl.toList =
      placesOf (text t).toList ++ placesOf (tmpl.toList.take (rounds tmpl.toList))

/-! ## The loop -/

theorem rounds_le (newTmpl : List Char) (some_ : newTmpl ≠ []) : rounds newTmpl ≤ newTmpl.length := by
  have pos := List.length_pos_iff.mpr some_
  rw [rounds, lastPlace, Int.bmod_def]
  split <;> omega

theorem rounds_short {newTmpl : List Char} (some_ : newTmpl ≠ [])
    (short : newTmpl.length ≤ 2 ^ 31) : rounds newTmpl = newTmpl.length := by
  have pos := List.length_pos_iff.mpr some_
  rw [rounds, lastPlace, Int.bmod_eq_of_le_mul_two (by omega) (by omega)]
  omega

/-- The places are written behind those which are there already, as far as there is room. -/
theorem cacheFrom_spec (newTmpl : List Char) {n : Nat} (inside : n ≤ newTmpl.length)
    (template : LCFGTemplate) (room : template.pcount ≤ template.places.length) :
    let found := (placesOf (newTmpl.take n)).map Int.ofNat
    cacheFrom newTmpl n template =
      if template.pcount + found.length ≤ template.places.length then
        some { template with
          pcount := template.pcount + found.length
          places := template.places.take template.pcount ++ found ++
            template.places.drop (template.pcount + found.length) }
      else none := by
  induction n generalizing template with
  | zero =>
    have nothing : (placesOf (newTmpl.take 0)).map Int.ofNat = [] := rfl
    simp only [nothing, List.length_nil, Nat.add_zero, if_pos room, List.append_nil,
      List.take_append_drop]
    rfl
  | succ n ih =>
    obtain ⟨c, here⟩ : ∃ c, newTmpl[n]? = some c := ⟨_, List.getElem?_eq_getElem inside⟩
    have length : (newTmpl.take n).length = n := by
      rw [List.length_take]
      omega
    have next : newTmpl.take (n + 1) = newTmpl.take n ++ [c] := by
      rw [List.take_add_one, here, Option.toList_some]
    dsimp only at ih ⊢
    rw [cacheFrom, cacheAt, here, next, placesOf_append, length]
    by_cases place : c = placeholder
    · rw [if_pos (congrArg some place), if_pos place, List.map_cons, List.length_cons]
      by_cases free : template.pcount < template.places.length
      · rw [if_pos free, Option.bind_some, ih (by omega) _ (by rw [List.length_set]; exact free)]
        have written : (template.places.set template.pcount (n : Int)).take (template.pcount + 1) =
            template.places.take template.pcount ++ [Int.ofNat n] := by
          rw [List.take_succ_eq_append_getElem (by rw [List.length_set]; exact free),
            List.take_set_of_le (Nat.le_refl _), List.getElem_set_self]
          rfl
        have count := Nat.add_right_comm template.pcount 1
          ((placesOf (newTmpl.take n)).map Int.ofNat).length
        have behind (k : Nat) : (template.places.set template.pcount (n : Int)).drop
            (template.pcount + k + 1) = template.places.drop (template.pcount + k + 1) :=
          List.drop_set_of_lt (by omega)
        simp only [written, List.length_set, count, behind, List.append_assoc, List.cons_append,
          List.nil_append, ← Nat.add_assoc]
      · rw [if_neg free, if_neg (by omega)]
        rfl
    · rw [if_neg (fun same => place (Option.some.inj same)), if_neg place]
      exact ih (by omega) template room

/-- Without a fault, the loop is the one over all positions. -/
theorem foldl_of_cacheFrom {newTmpl : List Char} {n : Nat} {template after : LCFGTemplate}
    (done : cacheFrom newTmpl n template = some after) :
    (List.range n).reverse.foldl (cachePlace newTmpl) template = after := by
  induction n generalizing template with
  | zero => exact Option.some.inj done
  | succ n ih =>
    obtain ⟨next, first, rest⟩ := Option.bind_eq_some_iff.mp done
    have place : cachePlace newTmpl template n = next := by
      rw [cacheAt] at first
      rw [cachePlace]
      split at first
      case isTrue here =>
        rw [if_pos here]
        split at first
        · exact Option.some.inj first
        · cases first
      case isFalse elsewhere =>
        rw [if_neg elsewhere]
        exact Option.some.inj first
    rw [List.range_succ, List.reverse_append, List.reverse_singleton, List.singleton_append,
      List.foldl_cons, place]
    exact ih rest

theorem setTmpl_eq {template after : LCFGTemplate} {tmpl : String} {ok : Bool}
    (short : tmpl.length ≤ 2 ^ 31) (done : setTmpl template (some tmpl) = some (after, ok)) :
    Template.setTmpl template tmpl = (after, ok) := by
  rw [setTmpl] at done
  rw [Template.setTmpl]
  split at done
  case isFalse refused =>
    rw [if_neg refused]
    exact Option.some.inj done
  case isTrue valid =>
    rw [if_pos valid]
    cases found : Substring.find ['_', placeholder] tmpl.toList with
    | none =>
      rw [found] at done
      exact Option.some.inj done
    | some nameLen =>
      rw [found] at done
      have some_ := (validTemplate_plain valid).1
      obtain ⟨t, loop, same⟩ := Option.map_eq_some_iff.mp done
      rw [rounds_short some_ (by rw [String.length_toList]; exact short), String.length_toList]
        at loop
      dsimp only
      rw [foldl_of_cacheFrom loop]
      exact same

/-! ## One call -/

/-- The number of places stays within the array. -/
def Sized (template : Option LCFGTemplate) : Prop :=
  ∀ t ∈ template, t.places.length = tagsMaxDepth ∧ t.pcount ≤ t.places.length

theorem count_placeholder {tmpl : String} (valid : validTemplate tmpl = true) :
    tmpl.toList ≠ [] ∧ 1 ≤ tmpl.toList.count placeholder ∧
      tmpl.toList.count placeholder ≤ tagsMaxDepth := by
  obtain ⟨first, rest, whole, alpha, -, few, some_⟩ := validTemplate_iff.mp valid
  have plain : first ≠ placeholder := by
    rintro rfl
    cases alpha
  rw [whole, List.count_cons_of_ne plain]
  exact ⟨List.cons_ne_nil _ _, some_, few⟩

section Calls

variable {template : LCFGTemplate} {tmpl : String}

theorem step_none (template : LCFGTemplate) : step (some template) none = some template := rfl

theorem step_refused (refused : accepted tmpl = false) (template : LCFGTemplate) :
    step (some template) (some tmpl) = some template := by
  rw [step, Option.bind_some, setTmpl]
  cases valid : validTemplate tmpl with
  | false => rfl
  | true =>
    rw [accepted, valid, Bool.true_and, Option.isSome_eq_false_iff, Option.isNone_iff_eq_none]
      at refused
    rw [refused]
    rfl

/-- A call with a text which is taken over. -/
theorem step_accepted (takes : accepted tmpl = true)
    (room : template.pcount ≤ template.places.length) :
    let found := (placesOf (tmpl.toList.take (rounds tmpl.toList))).map Int.ofNat
    ∃ nameLen, step (some template) (some tmpl) =
      if template.pcount + found.length ≤ template.places.length then
        some { template with
          tmpl := some tmpl, tmplLen := tmpl.length, nameLen,
          pcount := template.pcount + found.length
          places := template.places.take template.pcount ++ found ++
            template.places.drop (template.pcount + found.length) }
      else none := by
  rw [accepted, Bool.and_eq_true] at takes
  obtain ⟨valid, found⟩ := takes
  obtain ⟨nameLen, split_⟩ := Option.isSome_iff_exists.mp found
  refine ⟨nameLen, ?_⟩
  have spec := cacheFrom_spec tmpl.toList (rounds_le _ (count_placeholder valid).1)
    { template with tmpl := some tmpl, tmplLen := tmpl.length, nameLen } room
  dsimp only at spec ⊢
  rw [step, Option.bind_some, setTmpl, if_pos valid, split_]
  simp only [spec]
  split <;> rfl

theorem Sized.step {template : Option LCFGTemplate} (sized : Sized template)
    (newTmpl : Option String) : Sized (step template newTmpl) := by
  cases template with
  | none => nofun
  | some template =>
    obtain ⟨size, room⟩ := sized template rfl
    cases newTmpl with
    | none => exact sized
    | some tmpl =>
      cases takes : accepted tmpl with
      | false =>
        rw [step_refused takes]
        exact sized
      | true =>
        obtain ⟨nameLen, after⟩ := step_accepted takes room
        rw [after]
        split
        case isFalse => nofun
        case isTrue fits =>
          rintro t ⟨⟩
          have length : (template.places.take template.pcount ++
              (placesOf (tmpl.toList.take (rounds tmpl.toList))).map Int.ofNat ++
              template.places.drop (template.pcount +
                ((placesOf (tmpl.toList.take (rounds tmpl.toList))).map Int.ofNat).length)).length =
              template.places.length := by
            rw [List.length_append, List.length_append, List.length_take, List.length_drop]
            omega
          exact ⟨length.trans size, fits.trans_eq length.symm⟩

theorem Consistent.step_iff {template : Option LCFGTemplate} (sized : Sized template)
    (consistent : Consistent template) (newTmpl : Option String) :
    Consistent (step template newTmpl) ↔ Continues template newTmpl := by
  obtain ⟨t, rfl, pcount, few, places⟩ := consistent
  have same : Consistent (some t) := ⟨t, rfl, pcount, few, places⟩
  cases newTmpl with
  | none => exact ⟨fun _ => nofun, fun _ => same⟩
  | some tmpl =>
    cases takes : accepted tmpl with
    | false =>
      rw [step_refused takes]
      refine ⟨fun _ => ?_, fun _ => same⟩
      rintro _ ⟨⟩ _ ⟨⟩ given
      rw [takes] at given
      cases given
    | true =>
      obtain ⟨size, room⟩ := sized t rfl
      obtain ⟨nameLen, after⟩ := step_accepted takes room
      have valid := (Bool.and_eq_true_iff.mp takes).1
      have counts := length_placesOf tmpl.toList
      have countsBefore := length_placesOf (text t).toList
      generalize cached : placesOf (tmpl.toList.take (rounds tmpl.toList)) = found at after
      rw [List.length_map] at after
      have kept : (t.places.take t.pcount ++ found.map Int.ofNat ++
          t.places.drop (t.pcount + found.length)).take (t.pcount + found.length) =
          (placesOf (text t).toList ++ found).map Int.ofNat := by
        have length : (t.places.take t.pcount ++ found.map Int.ofNat).length =
            t.pcount + found.length := by
          rw [List.length_append, List.length_take, List.length_map, Nat.min_eq_left room]
        rw [List.take_append_of_le_length (Nat.le_of_eq length.symm),
          List.take_of_length_le (Nat.le_of_eq length), places, List.map_append]
      rw [after]
      constructor
      · rintro ⟨t', same', pcount', -, places'⟩ _ ⟨⟩ _ ⟨⟩ -
        split at same'
        case isFalse => cases same'
        case isTrue =>
          obtain rfl := Option.some.inj same'
          rw [kept] at places'
          rw [cached]
          exact (List.map_injective_iff.mpr (fun _ _ => Int.ofNat.inj) places').symm
      · intro continues
        have whole := continues t rfl tmpl rfl takes
        rw [cached] at whole
        have sum : t.pcount + found.length = tmpl.toList.count placeholder := by
          rw [← counts, whole, List.length_append, countsBefore, pcount]
        have most := (count_placeholder valid).2.2
        rw [if_pos (by omega)]
        exact ⟨_, rfl, sum, by dsimp only; omega, by rw [kept, ← whole]; rfl⟩

theorem consistent_new : Consistent (some {}) := ⟨{}, rfl, rfl, Nat.zero_le _, rfl⟩

theorem sized_new : Sized (some {}) := by
  rintro _ ⟨⟩
  exact ⟨rfl, Nat.zero_le _⟩

/-! ## Texts of ordinary length -/

/-- With shorter texts, only a template without a text can be given one. -/
theorem continues_short (short : tmpl.length ≤ 2 ^ 31) :
    Continues (some template) (some tmpl) ↔
      (accepted tmpl = true → placesOf (text template).toList = []) := by
  have whole (takes : accepted tmpl = true) :
      tmpl.toList.take (rounds tmpl.toList) = tmpl.toList := by
    have valid := (Bool.and_eq_true_iff.mp takes).1
    rw [rounds_short (count_placeholder valid).1 (by rw [String.length_toList]; exact short),
      List.take_length]
  constructor
  · intro continues takes
    have places := continues template rfl tmpl rfl takes
    rw [whole takes] at places
    exact List.self_eq_append_left.mp places
  · rintro fresh _ ⟨⟩ _ ⟨⟩ takes
    rw [whole takes, fresh takes, List.nil_append]

end Calls

/-- How many of the calls are given a text which is taken over. -/
def acceptedCalls (texts : List (Option String)) : Nat := texts.countP fun newTmpl => newTmpl.any accepted

theorem acceptedCalls_cons (newTmpl : Option String) (texts : List (Option String)) :
    acceptedCalls (newTmpl :: texts) =
      acceptedCalls texts + if newTmpl.any accepted then 1 else 0 := List.countP_cons

/-- A call which may be made and is given a text leaves a template with that text. -/
theorem text_step {template : LCFGTemplate} {tmpl : String} (takes : accepted tmpl = true)
    (sized : Sized (some template)) (done : Consistent (step (some template) (some tmpl))) :
    ∃ t, step (some template) (some tmpl) = some t ∧ text t = tmpl := by
  obtain ⟨t, same, -⟩ := done
  obtain ⟨nameLen, after⟩ := step_accepted takes (sized template rfl).2
  refine ⟨t, same, ?_⟩
  rw [after] at same
  split at same
  case isFalse => cases same
  case isTrue =>
    obtain rfl := Option.some.inj same
    rfl

theorem every_continues_iff {texts : List (Option String)}
    (short : ∀ tmpl, some tmpl ∈ texts → tmpl.length ≤ 2 ^ 31) {template : LCFGTemplate}
    (sized : Sized (some template)) (consistent : Consistent (some template)) :
    Run.Every step Continues (some template) texts ↔
      acceptedCalls texts ≤ if placesOf (text template).toList = [] then 1 else 0 := by
  induction texts generalizing template with
  | nil => exact ⟨fun _ => Nat.zero_le _, fun _ => trivial⟩
  | cons newTmpl texts ih =>
    have short' : ∀ tmpl, some tmpl ∈ texts → tmpl.length ≤ 2 ^ 31 := fun tmpl member =>
      short tmpl (List.mem_cons_of_mem _ member)
    have exact_ := consistent.step_iff sized newTmpl
    have sized' := sized.step newTmpl
    rw [Run.Every, acceptedCalls_cons]
    cases newTmpl with
    | none =>
      rw [step_none, ih short' sized consistent]
      exact ⟨fun both => both.2, fun few =>
        ⟨fun t _ tmpl none_ => absurd none_ (Option.not_mem_none tmpl), few⟩⟩
    | some tmpl =>
      have ordinary : Continues (some template) (some tmpl) ↔
          (accepted tmpl = true → placesOf (text template).toList = []) :=
        continues_short (short tmpl List.mem_cons_self)
      cases takes : accepted tmpl with
      | false =>
        rw [step_refused takes, ih short' sized consistent, Option.any_some, takes]
        refine ⟨fun both => both.2, fun few => ⟨?_, few⟩⟩
        rw [ordinary, takes]
        exact fun impossible => absurd impossible Bool.false_ne_true
      | true =>
        rw [Option.any_some, takes, if_pos rfl]
        -- a text which is taken over has places, and no other one can follow it
        have next : Continues (some template) (some tmpl) →
            (Run.Every step Continues (step (some template) (some tmpl)) texts ↔
              acceptedCalls texts ≤ 0) := by
          intro continues
          have done := exact_.mpr continues
          obtain ⟨t, same, text_⟩ := text_step takes sized done
          have some_ : placesOf (text t).toList ≠ [] := by
            rw [text_, ← List.length_pos_iff, length_placesOf]
            exact (count_placeholder (Bool.and_eq_true_iff.mp takes).1).2.1
          rw [same] at done sized' ⊢
          rw [ih short' sized' done, if_neg some_]
        constructor
        · rintro ⟨continues, every⟩
          have none_ := (next continues).mp every
          rw [if_pos (ordinary.mp continues takes)]
          omega
        · intro few
          have fresh : placesOf (text template).toList = [] := by
            by_contra used
            rw [if_neg used] at few
            omega
          have continues := ordinary.mpr fun _ => fresh
          rw [if_pos fresh] at few
          exact ⟨continues, (next continues).mpr (by omega)⟩

/-- The state after every call is consistent if and only if each text continues the one before
it; of texts of ordinary length, only one may be taken over. -/
theorem places_consistent_iff (texts : List (Option String)) :
    (Run.Always step Consistent (some {}) texts ↔ Run.Every step Continues (some {}) texts) ∧
      ((∀ tmpl, some tmpl ∈ texts → tmpl.length ≤ 2 ^ 31) →
        (Run.Always step Consistent (some {}) texts ↔ acceptedCalls texts ≤ 1)) := by
  have runs : Run.Always step Consistent (some {}) texts ↔
      Run.Every step Continues (some {}) texts :=
    Run.always_iff_every (W := Sized) (fun _ newTmpl sized => sized.step newTmpl)
      (fun _ newTmpl sized consistent => consistent.step_iff sized newTmpl) sized_new
      consistent_new texts
  refine ⟨runs, fun short => ?_⟩
  rw [runs]
  exact every_continues_iff short sized_new consistent_new

theorem places_consistent_iff_single :
    Run.Always step Consistent (some {}) [some "mail_$_$", none, some "1"] :=
  ((places_consistent_iff [some "mail_$_$", none, some "1"]).2 (by
    intro tmpl member
    simp only [List.mem_cons, Option.some.injEq, reduceCtorEq, List.not_mem_nil, or_false,
      false_or] at member
    rcases member with rfl | rfl <;> decide)).mpr (by decide)

theorem second_text_inconsistent :
    ¬ ∀ texts : List (Option String), Run.Always step Consistent (some {}) texts := by
  intro always
  obtain ⟨t, same, pcount, -⟩ := (always [some "mail_$", some "auth_$"]).2.2
  have after : step (step (some {}) (some "mail_$")) (some "auth_$") =
      some { tmpl := some "auth_$", tmplLen := 6, nameLen := 4, pcount := 2,
             places := [5, 5, -1, -1, -1] } := by decide
  rw [after] at same
  obtain rfl := Option.some.inj same
  exact absurd pcount (by decide)

end CachedTemplate

end Lcfg
