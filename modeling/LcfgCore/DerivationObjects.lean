import LcfgCore.DerivationMap
import LcfgCore.DerivationContent
import Mathlib.Data.Set.Function

/-!
# The derivation map as a table of objects

The map of derivations with the addresses of the lists in it, where a growth and the
insertions it makes call each other (`common/derivation/map.c`).

## Main result

`run_memo`: the map is a memo function. Each text has one list, which is the one
that its text stands for, however often the table has grown.
-/
namespace Lcfg
namespace DerivMap

open IdTable (Table)

/-- The identifier and the entries of a list. -/
abbrev ListObject := Nat × LCFGDerivationList

structure MapState where
  table : Table Addr
  object : Addr → ListObject
  /-- The address which the allocator hands out next. -/
  fresh : Addr

section Operations

variable (object : Addr → ListObject)

/-- `lcfgdrvmap_insert_list`; `grow` is the growth which an added list calls for. -/
def insertObject (grow : Table Addr → Option (Table Addr)) (t : Table Addr) (a : Addr) :
    Option (Table Addr) :=
  if (object a).2 = [] then some t
  else
    match IdTable.slotOf (fun b => (object b).1) t (object a).1 with
    | none => none
    | some slot =>
      -- a list that takes the place of another one is not counted
      if (t.slots[slot]?.join).isSome then some (IdTable.put t slot a)
      else grow (IdTable.put t slot a)

/-- The growth, to a depth of calls, ends the process if an insertion fails. -/
def growth : Nat → Table Addr → Option (Table Addr)
  | 0, _ => none
  | depth + 1, t =>
    let want := if 10 * t.entries ≥ 7 * t.buckets then wantBuckets t.entries else t.buckets
    if want ≤ t.buckets then some t
    else (LinearProbe.stored t.slots).foldlM (insertObject object (growth depth))
      (IdTable.emptied want)

end Operations

def newState : MapState := ⟨IdTable.emptied defaultSize, fun _ => (0, []), 0⟩

/-- A list, or the null pointer with a message if there is one; `none` is the end of
the process. -/
def findOrInsertObject (depth : Nat) (farmhash64 : String → Nat) (s : MapState)
    (derivAsStr : String) : Option (MapState × Except (Option String) Addr) :=
  if derivAsStr = "" then some (s, .error "Empty derivation")
  else
    let id := farmhash64 derivAsStr
    match IdTable.slotOf (fun a => (s.object a).1) s.table id with
    | none => some (s, .error "No free space for new entries in derivation map")
    | some slot =>
      match s.table.slots[slot]?.join with
      | some a => some (s, .ok a)
      | none =>
        match DerivList.fromString derivAsStr.toList with
        | .error msg => some (s, .error msg)
        | .ok drvlist =>
          if drvlist = [] then some (s, .error none)
          else
            let object := Function.update s.object s.fresh (id, drvlist)
            (growth object depth (IdTable.put s.table slot s.fresh)).map fun table =>
              (⟨table, object, s.fresh + 1⟩, .ok s.fresh)

def runLookups (depth : Nat) (farmhash64 : String → Nat) (s : MapState) :
    List String → Option (MapState × List (Except (Option String) Addr))
  | [] => some (s, [])
  | text :: texts => do
    let (s, result) ← findOrInsertObject depth farmhash64 s text
    let (s, results) ← runLookups depth farmhash64 s texts
    some (s, result :: results)

/-! ### Growing -/

section Growth

variable {object : Addr → ListObject} {t : Table Addr} {depth : Nat}

/-- A table below the limit of its load is not grown. -/
theorem growth_light (light : 10 * t.entries < 7 * t.buckets) :
    growth object (depth + 1) t = some t := by
  have notHeavy : ¬ 10 * t.entries ≥ 7 * t.buckets := Nat.not_le_of_lt light
  rw [growth]
  simp only [if_neg notHeavy, Nat.le_refl, if_true]

/-- The insertions of a growth call for no other one. -/
private theorem insertAll_light (more : List Addr) (some_ : ∀ a ∈ more, (object a).2 ≠ [])
    (light : 10 * (t.entries + more.length) < 7 * t.buckets) :
    more.foldlM (insertObject object (growth object (depth + 1))) t =
      more.foldlM (IdTable.insert fun a => (object a).1) t := by
  induction more generalizing t with
  | nil => rfl
  | cons a more ih =>
    rw [List.length_cons] at light
    have step : insertObject object (growth object (depth + 1)) t a =
        IdTable.insert (fun a => (object a).1) t a := by
      rw [insertObject, if_neg (some_ a List.mem_cons_self), IdTable.insert]
      cases IdTable.slotOf (fun a => (object a).1) t (object a).1 with
      | none => rfl
      | some slot =>
        have count := IdTable.put_entries_le t slot a
        have size : (IdTable.put t slot a).buckets = t.buckets := rfl
        dsimp only [Option.map_some]
        split
        · rfl
        · exact growth_light (by rw [size]; omega)
    rw [List.foldlM_cons, List.foldlM_cons, step]
    cases inserted : IdTable.insert (fun a => (object a).1) t a with
    | none => rfl
    | some t' =>
      obtain ⟨slot, -, rfl⟩ := Option.map_eq_some_iff.mp inserted
      have count := IdTable.put_entries_le t slot a
      have size : (IdTable.put t slot a).buckets = t.buckets := rfl
      exact ih (fun other member => some_ other (List.mem_cons_of_mem a member))
        (by rw [size]; omega)

variable (depth) in
/-- Whether it grows or not, the table has the same lists, and slots to spare. -/
theorem growth_spec (tabled : IdTable.Tabled (fun a => (object a).1) t)
    (some_ : ∀ a ∈ LinearProbe.stored t.slots, (object a).2 ≠ []) :
    ∃ grown, growth object (depth + 2) t = some grown ∧
      IdTable.Tabled (fun a => (object a).1) grown ∧
      10 * grown.entries < 7 * grown.buckets ∧
      IdTable.lookup (fun a => (object a).1) grown = IdTable.lookup (fun a => (object a).1) t := by
  -- below the limit the table stays as it is
  by_cases light : 10 * t.entries < 7 * t.buckets
  · exact ⟨t, growth_light light, tabled, light, rfl⟩
  · have pos := tabled.pos
    have size := tabled.buckets_eq
    have heavy : 10 * t.entries ≥ 7 * t.buckets := Nat.le_of_not_lt light
    have grows : ¬ wantBuckets t.entries ≤ t.buckets := by
      rw [wantBuckets]
      omega
    have count : (LinearProbe.stored t.slots).length = t.entries := by
      rw [LinearProbe.length_stored, tabled.entries_eq]
    obtain ⟨grown, run, good, buckets, few, content⟩ :=
      tabled.rebuilt_spec (Nat.succ_pos _ : 0 < wantBuckets t.entries) (by omega)
    refine ⟨grown, ?_, good, ?_, content⟩
    -- the larger table has room for all entries without growing again
    · have spare : 10 * ((IdTable.emptied (wantBuckets t.entries) : Table Addr).entries +
          (LinearProbe.stored t.slots).length) <
          7 * (IdTable.emptied (wantBuckets t.entries) : Table Addr).buckets := by
        rw [count]
        simp only [IdTable.emptied, wantBuckets]
        omega
      rw [growth]
      simp only [if_pos heavy, if_neg grows]
      rw [insertAll_light _ some_ spare]
      exact run
    · rw [buckets]
      omega

end Growth

/-! ### Lookups -/

section Lookups

variable {farmhash64 : String → Nat} {used : Set String} {s s' : MapState} {text : String}
  {depth : Nat}

/-- The list object for an identifier. -/
def MapState.lookup (s : MapState) (id : Nat) : Option Addr :=
  IdTable.lookup (fun a => (s.object a).1) s.table id

/-- A map after lookups of texts in `used`: each list in it is that of one of them. -/
structure Memoised (farmhash64 : String → Nat) (used : Set String) (s : MapState) : Prop where
  tabled : IdTable.Tabled (fun a => (s.object a).1) s.table
  light : 10 * s.table.entries < 7 * s.table.buckets
  allocated : ∀ a ∈ LinearProbe.stored s.table.slots, a < s.fresh
  origin : ∀ a ∈ LinearProbe.stored s.table.slots, ∃ text ∈ used,
    (s.object a).1 = farmhash64 text ∧ DerivList.fromString text.toList = .ok (s.object a).2 ∧
      (s.object a).2 ≠ []

/-- What a lookup of a text returns, as long as the map keeps the list. -/
structure Returned (farmhash64 : String → Nat) (s : MapState) (text : String)
    (result : Except (Option String) Addr) : Prop where
  list : ∀ a, result = .ok a → text ≠ "" ∧ DerivList.fromString text.toList = .ok (s.object a).2 ∧
    (s.object a).2 ≠ [] ∧ s.lookup (farmhash64 text) = some a
  null : ∀ msg, result = .error msg → text = "" ∧ msg = some "Empty derivation" ∨
    text ≠ "" ∧ ((∃ parseMsg, DerivList.fromString text.toList = .error parseMsg ∧
      msg = some parseMsg) ∨ DerivList.fromString text.toList = .ok [] ∧ msg = none)

/-- The lists of a map, and all that were ever allocated, stay as they are. -/
structure Keeps (s s' : MapState) : Prop where
  objects : ∀ a < s.fresh, s'.object a = s.object a
  fresh : s.fresh ≤ s'.fresh
  lookup : ∀ id a, s.lookup id = some a → s'.lookup id = some a

theorem Keeps.refl (s : MapState) : Keeps s s := ⟨fun _ _ => rfl, Nat.le_refl _, fun _ _ => id⟩

theorem Keeps.trans {first second third : MapState} (left : Keeps first second)
    (right : Keeps second third) : Keeps first third where
  objects a old := (right.objects a (Nat.lt_of_lt_of_le old left.fresh)).trans (left.objects a old)
  fresh := left.fresh.trans right.fresh
  lookup id a there := right.lookup id a (left.lookup id a there)

theorem Memoised.of_lookup (memo : Memoised farmhash64 used s) {id : Nat} {a : Addr}
    (there : s.lookup id = some a) :
    a ∈ LinearProbe.stored s.table.slots ∧ (s.object a).1 = id :=
  (IdTable.lookup_eq_some_iff memo.tabled).mp there

theorem Returned.later (returned : Returned farmhash64 s text result)
    (memo : Memoised farmhash64 used s) (keeps : Keeps s s') :
    Returned farmhash64 s' text result := by
  refine ⟨fun a same => ?_, returned.null⟩
  obtain ⟨some_, parsed, notNil, there⟩ := returned.list a same
  have object := keeps.objects a (memo.allocated a (memo.of_lookup there).1)
  rw [object]
  exact ⟨some_, parsed, notNil, keeps.lookup _ a there⟩

variable (depth) in
/-- A new list for a text which was not looked up before. -/
theorem Memoised.insert_spec (memo : Memoised farmhash64 used s) (isUsed : text ∈ used)
    (absent : s.lookup (farmhash64 text) = none) {drvlist : LCFGDerivationList}
    (parsed : DerivList.fromString text.toList = .ok drvlist) (notNil : drvlist ≠ []) {slot : Nat}
    (stop : IdTable.slotOf (fun a => (s.object a).1) s.table (farmhash64 text) = some slot) :
    ∃ s', growth (Function.update s.object s.fresh (farmhash64 text, drvlist)) (depth + 2)
        (IdTable.put s.table slot s.fresh) = some s'.table ∧
      s'.object = Function.update s.object s.fresh (farmhash64 text, drvlist) ∧
      s'.fresh = s.fresh + 1 ∧ Memoised farmhash64 used s' ∧ Keeps s s' ∧
      s'.lookup (farmhash64 text) = some s.fresh := by
  -- the objects which were allocated before stay as they are
  have other (a : Addr) (before : a < s.fresh) :
      Function.update s.object s.fresh (farmhash64 text, drvlist) a = s.object a :=
    Function.update_of_ne (Nat.ne_of_lt before) _ _
  have here : Function.update s.object s.fresh (farmhash64 text, drvlist) s.fresh =
      (farmhash64 text, drvlist) := Function.update_self _ _ _
  generalize Function.update s.object s.fresh (farmhash64 text, drvlist) = object at other here
  have old (a : Addr) (member : a ∈ LinearProbe.stored s.table.slots) : object a = s.object a :=
    other a (memo.allocated a member)
  obtain ⟨tabled, sameSlot, sameLookup⟩ : IdTable.Tabled (fun a => (object a).1) s.table ∧
      IdTable.slotOf (fun a => (object a).1) s.table =
        IdTable.slotOf (fun a => (s.object a).1) s.table ∧
      IdTable.lookup (fun a => (object a).1) s.table = s.lookup :=
    memo.tabled.congr fun a member => by rw [old a member]
  have stop' : IdTable.slotOf (fun a => (object a).1) s.table (object s.fresh).1 = some slot := by
    rw [sameSlot, here]
    exact stop
  obtain ⟨putTabled, updated⟩ := tabled.put_spec stop'
  have stored (a : Addr) (member : a ∈ LinearProbe.stored (IdTable.put s.table slot s.fresh).slots) :
      a ∈ LinearProbe.stored s.table.slots ∨ a = s.fresh := by
    rcases LinearProbe.mem_stored_set _ _ _ a member with there | new
    · exact .inl there
    · exact .inr (Option.some.inj new).symm
  -- no stored list is empty
  have some_ (a : Addr) (member : a ∈ LinearProbe.stored (IdTable.put s.table slot s.fresh).slots) :
      (object a).2 ≠ [] := by
    rcases stored a member with there | rfl
    · rw [old a there]
      obtain ⟨-, -, -, -, notNil⟩ := memo.origin a there
      exact notNil
    · rwa [here]
  obtain ⟨grown, run, good, light, kept⟩ := growth_spec depth putTabled some_
  rw [updated, sameLookup, here] at kept
  have lists (id : Nat) (a : Addr) : IdTable.lookup (fun a => (object a).1) grown id = some a ↔
      id = farmhash64 text ∧ a = s.fresh ∨ id ≠ farmhash64 text ∧ s.lookup id = some a := by
    rw [kept]
    by_cases same : id = farmhash64 text
    · rw [same, Function.update_self]
      simp [eq_comm]
    · rw [Function.update_of_ne same]
      simp [same]
  -- what the table holds is the new object, or was there before
  have origins (a : Addr) (member : a ∈ LinearProbe.stored grown.slots) :
      a = s.fresh ∨ a ∈ LinearProbe.stored s.table.slots := by
    have there := (IdTable.lookup_eq_some_iff good).mpr ⟨member, rfl⟩
    obtain ⟨-, new⟩ | ⟨-, there⟩ := (lists _ a).mp there
    · exact .inl new
    · exact .inr (memo.of_lookup there).1
  refine ⟨⟨grown, object, s.fresh + 1⟩, run, rfl, rfl, ⟨good, light, fun a member => ?_,
    fun a member => ?_⟩, ⟨other, Nat.le_succ _, fun id a there => ?_⟩, ?_⟩
  · obtain rfl | there := origins a member
    · exact Nat.lt_succ_self _
    · exact Nat.lt_succ_of_lt (memo.allocated a there)
  · dsimp only
    obtain rfl | there := origins a member
    · rw [here]
      exact ⟨text, isUsed, rfl, parsed, notNil⟩
    · rw [old a there]
      exact memo.origin a there
  · refine (lists id a).mpr (.inr ⟨?_, there⟩)
    rintro rfl
    rw [absent] at there
    cases there
  · exact (lists _ _).mpr (.inl ⟨rfl, rfl⟩)

/-- A text has one result. -/
theorem Returned.unique {result result' : Except (Option String) Addr}
    (left : Returned farmhash64 s text result) (right : Returned farmhash64 s text result') :
    result = result' := by
  cases first : result with
  | ok a =>
    obtain ⟨some_, parsed, notNil, there⟩ := left.list a first
    cases second : result' with
    | ok b =>
      have there' := (right.list b second).2.2.2
      rw [there] at there'
      rw [Option.some.inj there']
    | error msg =>
      obtain ⟨empty, -⟩ | ⟨-, ⟨_, failed, -⟩ | ⟨nothing, -⟩⟩ := right.null msg second
      · exact absurd empty some_
      · rw [parsed] at failed
        cases failed
      · rw [parsed] at nothing
        exact absurd (Except.ok.inj nothing) notNil
  | error msg =>
    have reason := left.null msg first
    cases second : result' with
    | ok b =>
      obtain ⟨some_, parsed, notNil, -⟩ := right.list b second
      simp_all
    | error msg' =>
      have reason' := right.null msg' second
      by_cases empty : text = ""
      · simp_all
      · cases parsed : DerivList.fromString text.toList <;> simp_all

variable (depth) in
/-- Step lemma: a lookup of one of the texts on which the hash is injective. -/
theorem Memoised.findOrInsert_spec (memo : Memoised farmhash64 used s)
    (injective : Set.InjOn farmhash64 used) (isUsed : text ∈ used) :
    ∃ s' result, findOrInsertObject (depth + 2) farmhash64 s text = some (s', result) ∧
      Memoised farmhash64 used s' ∧ Keeps s s' ∧ Returned farmhash64 s' text result := by
  unfold findOrInsertObject
  by_cases empty : text = ""
  · rw [if_pos empty]
    refine ⟨s, _, rfl, memo, Keeps.refl s, fun a same => ?_, fun msg same => ?_⟩
    · cases same
    · cases same
      exact .inl ⟨empty, rfl⟩
  · rw [if_neg empty]
    have load := memo.light
    have size := memo.tabled.buckets_eq
    obtain ⟨slot, stop⟩ := memo.tabled.slotOf_isSome (farmhash64 text) (by omega)
    obtain ⟨inside, here⟩ := memo.tabled.slotOf_spec stop
    simp only [stop, here]
    cases there : IdTable.lookup (fun a => (s.object a).1) s.table (farmhash64 text) with
    | some a =>
      refine ⟨s, _, rfl, memo, Keeps.refl s, fun b same => ?_, fun msg same => ?_⟩
      · cases same
        -- the text that this list came from is the same one
        obtain ⟨member, hashed⟩ := memo.of_lookup there
        obtain ⟨origin, isUsed', made, parsed, notNil⟩ := memo.origin a member
        have same : origin = text := injective isUsed' isUsed (made.symm.trans hashed)
        rw [same] at parsed
        exact ⟨empty, parsed, notNil, there⟩
      · cases same
    | none =>
      cases parsed : DerivList.fromString text.toList with
      | error msg =>
        refine ⟨s, _, rfl, memo, Keeps.refl s, fun a same => ?_, fun msg' same => ?_⟩
        · cases same
        · cases same
          exact .inr ⟨empty, .inl ⟨msg, parsed, rfl⟩⟩
      | ok drvlist =>
        by_cases nothing : drvlist = []
        · subst nothing
          refine ⟨s, _, rfl, memo, Keeps.refl s, fun a same => ?_, fun msg same => ?_⟩
          · cases same
          · cases same
            exact .inr ⟨empty, .inr ⟨parsed, rfl⟩⟩
        · obtain ⟨s', grown, object, fresh, memo', keeps, there'⟩ :=
            memo.insert_spec depth isUsed there parsed nothing stop
          refine ⟨s', .ok s.fresh, ?_, memo', keeps, fun a same => ?_, fun msg same => ?_⟩
          · rw [← object] at grown
            simp only [if_neg nothing, ← object, ← fresh, grown, Option.map_some]
          · cases same
            have entry : s'.object s.fresh = (farmhash64 text, drvlist) := by
              rw [object, Function.update_self]
            rw [entry]
            exact ⟨empty, parsed, nothing, there'⟩
          · cases same

variable (depth) in
/-- Run lemma: all that was returned stays valid. -/
theorem Memoised.run_spec (memo : Memoised farmhash64 used s)
    (injective : Set.InjOn farmhash64 used) (texts : List String)
    (areUsed : ∀ text ∈ texts, text ∈ used) :
    ∃ s' results, runLookups (depth + 2) farmhash64 s texts = some (s', results) ∧
      Memoised farmhash64 used s' ∧ Keeps s s' ∧
      List.Forall₂ (Returned farmhash64 s') texts results := by
  induction texts generalizing s with
  | nil => exact ⟨s, [], rfl, memo, Keeps.refl s, .nil⟩
  | cons text texts ih =>
    obtain ⟨s₁, result, first, memo₁, keeps₁, returned⟩ :=
      memo.findOrInsert_spec depth injective (areUsed text List.mem_cons_self)
    obtain ⟨s', results, rest, memo', keeps', others⟩ :=
      ih memo₁ fun other member => areUsed other (List.mem_cons_of_mem text member)
    refine ⟨s', result :: results, ?_, memo', keeps₁.trans keeps',
      .cons (returned.later memo₁ keeps') others⟩
    simp only [runLookups, first, rest, bind, Option.bind]

theorem newState_memoised : Memoised farmhash64 used newState where
  tabled := IdTable.emptied_tabled (by decide)
  light := by decide
  allocated := by simp [newState, IdTable.emptied, LinearProbe.stored_replicate_none]
  origin := by simp [newState, IdTable.emptied, LinearProbe.stored_replicate_none]

/-- For every sequence of lookups in a new map, with a hash that is injective on the
texts, the process does not end; a lookup returns a list with the entries of its
text, and no list exactly if the text is empty, cannot be parsed or has no entries; a
text that is looked up again has the same list; and the entries are counted. -/
theorem run_memo (farmhash64 : String → Nat) (texts : List String)
    (injective : Set.InjOn farmhash64 {text | text ∈ texts}) (depth : Nat) :
    ∃ s results, runLookups (depth + 2) farmhash64 newState texts = some (s, results) ∧
      List.Forall₂ (fun text result =>
        (∀ a, result = .ok a → DerivList.fromString text.toList = .ok (s.object a).2) ∧
        ((∃ msg, result = .error msg) ↔ text = "" ∨
          (∃ msg, DerivList.fromString text.toList = .error msg) ∨
          DerivList.fromString text.toList = .ok [])) texts results ∧
      (∀ i j : Nat, i < texts.length → texts[i]? = texts[j]? → results[i]? = results[j]?) ∧
      s.table.entries = s.table.slots.countP Option.isSome := by
  obtain ⟨s, results, run, memo, -, returned⟩ :=
    newState_memoised.run_spec depth injective texts fun _ member => member
  refine ⟨s, results, run, ?_, fun i j inside same => ?_, memo.tabled.entries_eq⟩
  · refine returned.imp fun text result back => ⟨fun a same => (back.list a same).2.1, ?_⟩
    constructor
    · rintro ⟨msg, same⟩
      obtain ⟨empty, -⟩ | ⟨-, ⟨parseMsg, parsed, -⟩ | ⟨parsed, -⟩⟩ := back.null msg same
      · exact .inl empty
      · exact .inr (.inl ⟨parseMsg, parsed⟩)
      · exact .inr (.inr parsed)
    · intro reason
      cases same : result with
      | error msg => exact ⟨msg, rfl⟩
      | ok a =>
        obtain ⟨some_, parsed, notNil, -⟩ := back.list a same
        obtain empty | ⟨msg, failed⟩ | nothing := reason
        · exact absurd empty some_
        · rw [failed] at parsed
          cases parsed
        · rw [nothing] at parsed
          exact absurd (Except.ok.inj parsed).symm notNil
  -- equal texts are given the same object
  · have length := returned.length_eq
    have insideJ : j < texts.length := by
      rw [List.getElem?_eq_getElem inside] at same
      exact (List.getElem?_eq_some_iff.mp same.symm).1
    rw [List.getElem?_eq_getElem inside, List.getElem?_eq_getElem insideJ, Option.some_inj] at same
    have first := List.Forall₂.get returned (i := i) inside (length ▸ inside)
    have second := List.Forall₂.get returned (i := j) insideJ (length ▸ insideJ)
    simp only [List.get_eq_getElem] at first second
    rw [same] at first
    rw [List.getElem?_eq_getElem (length ▸ inside), List.getElem?_eq_getElem (length ▸ insideJ),
      first.unique second]

theorem sample_memo : ∃ s results,
    runLookups 2 String.length newState ["a:1", "b:2,3", "a:1"] = some (s, results) ∧
      results[0]? = results[2]? := by
  have injective : Set.InjOn String.length {text | text ∈ ["a:1", "b:2,3", "a:1"]} := by
    intro text isFirst other isOther same
    simp only [List.mem_cons, List.not_mem_nil, or_false, Set.mem_ofPred_eq] at isFirst isOther
    obtain rfl | rfl | rfl := isFirst <;> obtain rfl | rfl | rfl := isOther <;>
      first | rfl | exact absurd same (by decide)
  obtain ⟨s, results, run, -, again, -⟩ := run_memo String.length _ injective 0
  exact ⟨s, results, run, again 0 2 (by decide) rfl⟩

end Lookups

end DerivMap
end Lcfg
