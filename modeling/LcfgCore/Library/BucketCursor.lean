import LcfgCore.Library.LinearProbe
import LcfgCore.Library.LinkedList
import Mathlib.Algebra.Order.BigOperators.Group.List
import Mathlib.Algebra.Order.Group.Nat
import Mathlib.Data.List.Perm.Basic

/-!
# Iterators over buckets

An iterator is a state with a test for a next item and a call which returns the next item, or
nothing at the end. `Exact` says that the calls return all items of a list and that the test
always agrees with the call after it. A cursor over buckets has the number of a bucket, and an
iterator over the chain in that bucket. A read behind the buckets is a fault.

## Main results

* `exact_of_step`: what each call has to do for that.
* `exact_items`: a cursor returns the items of all buckets, if they can be counted.
* `exact_iff`, `exact_stored_iff`: it does so if and only if they can be counted and no bucket with
  items passes for an empty one.
-/

namespace Iteration

variable {σ α : Type} (hasNext : σ → Option Bool) (next : σ → Option (σ × Option α))

/-- The results of `n` tests, each with the call after it. Nothing, if there is a fault. -/
def rounds : Nat → σ → Option (List (Bool × Option α))
  | 0, _ => some []
  | n + 1, s => do
    let has ← hasNext s
    let (s, item) ← next s
    return (has, item) :: (← rounds n s)

/-- However often it is called, an iterator returns the items in turn and then nothing, and the
test before each call says which. -/
def Exact (start : σ) (items : List α) : Prop :=
  ∀ n, rounds hasNext next n start =
    some ((List.range n).map fun i => (items[i]?.isSome, items[i]?))

variable {hasNext next}

/-- An invariant with the items which are still to come. -/
theorem exact_of_step {Good : σ → List α → Prop}
    (test : ∀ s items, Good s items → hasNext s = some (!items.isEmpty))
    (call : ∀ s items, Good s items → ∃ s', next s = some (s', items.head?) ∧ Good s' items.tail)
    {start : σ} {items : List α} (good : Good start items) : Exact hasNext next start items := by
  intro n
  induction n generalizing start items with
  | zero => rfl
  | succ n ih =>
    obtain ⟨s', done, good'⟩ := call start items good
    rw [rounds, test start items good, done]
    change (rounds hasNext next n s').bind _ = _
    rw [ih good', List.range_succ_eq_map, List.map_cons, List.map_map]
    cases items with
    | nil => simp [Function.comp_def]
    | cons item items => simp [Function.comp_def]

/-- The items are determined by what is returned. -/
theorem Exact.unique {start : σ} {items items' : List α} (one : Exact hasNext next start items)
    (other : Exact hasNext next start items') : items = items' := by
  apply List.ext_getElem?
  intro i
  have same := Option.some.inj ((one (i + 1)).symm.trans (other (i + 1)))
  rw [List.range_succ, List.map_append, List.map_append] at same
  have last := List.append_inj_right' same rfl
  exact congrArg Prod.snd (List.singleton_inj.mp last)

/-- At some state, nothing is returned. -/
theorem Exact.ends {start : σ} {items : List α} (exact_ : Exact hasNext next start items) :
    ∃ s s', next s = some (s', none) := by
  have all := exact_ (items.length + 1)
  have nothing : (items[items.length]?.isSome, items[items.length]?) = (false, none) := by simp
  rw [List.range_succ, List.map_append, List.map_singleton, nothing] at all
  generalize (List.range items.length).map _ = before at all
  generalize items.length + 1 = n at all
  clear exact_ nothing
  induction n generalizing start before with
  | zero =>
    have none_ := (Option.some.inj all).symm
    simp at none_
  | succ n ih =>
    rw [rounds] at all
    obtain ⟨has, -, all⟩ := Option.bind_eq_some_iff.mp all
    obtain ⟨⟨s', item⟩, done, all⟩ := Option.bind_eq_some_iff.mp all
    obtain ⟨rest, later, all⟩ := Option.bind_eq_some_iff.mp all
    have same := Option.some.inj all
    cases before with
    | nil =>
      obtain ⟨first, -⟩ := List.cons.inj same
      obtain rfl : item = none := congrArg Prod.snd first
      exact ⟨start, s', done⟩
    | cons entry before =>
      obtain ⟨-, rfl⟩ := List.cons.inj same
      exact ih before later

end Iteration

namespace BucketCursor

variable {α : Type}

/-! ## Iterators over a chain -/

/-- The current node is given by its place in the chain. -/
structure ListIter (α : Type) where
  list : LinkedList α
  current : Option Nat := none

/-- A cursor stands on the bucket `current`, or before the first one. -/
structure Cursor (α : Type) where
  listiter : Option (ListIter α) := none
  current : Int := -1

section Definitions

variable (isEmpty : LinkedList α → Bool)

def ListIter.hasNext (iterator : ListIter α) : Bool :=
  match iterator.current with
  | none => !isEmpty iterator.list
  | some i => i + 1 < iterator.list.items.length

def ListIter.next (iterator : ListIter α) : ListIter α × Option α :=
  if !iterator.hasNext isEmpty then (iterator, none)
  else
    let current :=
      match iterator.current with
      | none => iterator.list.head?.map fun _ => 0
      | some i => some (i + 1)
    ({ iterator with current }, current.bind fun i => iterator.list.items[i]?)

/-! ## Cursors -/

variable (slots : List (Option (LinkedList α)))

/-- Whether one of `count` buckets from `next` on has a chain which is not empty. -/
def anyFrom : Nat → Nat → Option Bool
  | 0, _ => some false
  | count + 1, next =>
    match slots[next]? with
    | none => none
    | some entry => if entry.any (!isEmpty ·) then some true else anyFrom count (next + 1)

variable (buckets : Nat)

def hasNext (cursor : Cursor α) : Option Bool :=
  if cursor.listiter.any (ListIter.hasNext isEmpty) then some true
  else
    let next := (cursor.current + 1).toNat
    anyFrom isEmpty slots (buckets - next) next

/-- The first item of a chain, and an iterator over it if all items are to be visited. -/
def enter (all : Bool) (list : LinkedList α) (cursor : Cursor α) : Cursor α × Option α :=
  if all then
    let (iterator, item) := ListIter.next isEmpty { list }
    ({ cursor with listiter := some iterator }, item)
  else (cursor, list.head?)

/-- The loop over the buckets behind the cursor. Their number is compared as one below `range`. -/
def advance (range : Nat) (all : Bool) :
    List (Option (LinkedList α)) → Cursor α → Option (Cursor α × Option α)
  | [], cursor =>
    if (cursor.current + 1).toNat % range < buckets then none else some (cursor, none)
  | entry :: rest, cursor =>
    if (cursor.current + 1).toNat % range < buckets then
      let cursor := { cursor with current := cursor.current + 1 }
      match entry.filter (!isEmpty ·) with
      | none => advance range all rest cursor
      | some list =>
        match enter isEmpty all list cursor with
        | (cursor, none) => advance range all rest cursor
        | (cursor, some item) => some (cursor, some item)
    else some (cursor, none)

def next (range : Nat) (all : Bool) (cursor : Cursor α) : Option (Cursor α × Option α) :=
  let r := cursor.listiter.map (ListIter.next isEmpty)
  let cursor := { cursor with listiter := r.map Prod.fst }
  match r.bind Prod.snd with
  | some item => some (cursor, some item)
  | none =>
    advance isEmpty buckets range all (slots.drop (cursor.current + 1).toNat) cursor

/-! ## What is visited -/

/-- The items of a bucket which are to be visited. -/
def wanted (all : Bool) : Option (LinkedList α) → List α
  | none => []
  | some list => if all then list.items else list.head?.toList

/-- The items of a bucket which passes for one with items. -/
def visited (all : Bool) (entry : Option (LinkedList α)) : List α :=
  wanted all (entry.filter (!isEmpty ·))

end Definitions

section Spec

variable {isEmpty : LinkedList α → Bool} {slots : List (Option (LinkedList α))}
  {buckets range : Nat} {all : Bool}

def ListIter.remaining (iterator : ListIter α) : List α :=
  match iterator.current with
  | none => iterator.list.items
  | some i => iterator.list.items.drop (i + 1)

/-- A new iterator is over a chain with items. -/
def ListIter.Good (isEmpty : LinkedList α → Bool) (iterator : ListIter α) : Prop :=
  iterator.current = none → isEmpty iterator.list = false ∧ iterator.list.items ≠ []

theorem ListIter.Good.hasNext_eq {iterator : ListIter α} (good : iterator.Good isEmpty) :
    iterator.hasNext isEmpty = !iterator.remaining.isEmpty := by
  obtain ⟨list, current⟩ := iterator
  cases current with
  | none =>
    obtain ⟨full, some_⟩ := good rfl
    rw [ListIter.hasNext, ListIter.remaining, full, List.isEmpty_eq_false_iff.mpr some_]
  | some i =>
    change decide (i + 1 < list.items.length) = !(list.items.drop (i + 1)).isEmpty
    by_cases more : i + 1 < list.items.length
    · have some_ : list.items.drop (i + 1) ≠ [] := fun nothing =>
        Nat.not_le.mpr more (List.drop_eq_nil_iff.mp nothing)
      rw [List.isEmpty_eq_false_iff.mpr some_]
      exact decide_eq_true more
    · rw [List.drop_eq_nil_of_le (Nat.le_of_not_lt more)]
      exact decide_eq_false more

theorem ListIter.Good.next_spec {iterator : ListIter α} (good : iterator.Good isEmpty) :
    ∃ iterator', ListIter.next isEmpty iterator = (iterator', iterator.remaining.head?) ∧
      iterator'.Good isEmpty ∧ iterator'.remaining = iterator.remaining.tail := by
  rw [ListIter.next, good.hasNext_eq, Bool.not_not]
  cases more : iterator.remaining with
  | nil => exact ⟨iterator, rfl, good, more⟩
  | cons item rest =>
    rw [List.isEmpty_cons, if_neg Bool.false_ne_true]
    obtain ⟨list, current⟩ := iterator
    cases current with
    | none =>
      have items : list.items = item :: rest := more
      refine ⟨⟨list, some 0⟩, ?_, nofun, ?_⟩
      · simp [LinkedList.head?, items]
      · rw [ListIter.remaining, items]
        rfl
    | some i =>
      have items : list.items.drop (i + 1) = item :: rest := more
      refine ⟨⟨list, some (i + 1)⟩, ?_, nofun, ?_⟩
      · have here : list.items[i + 1]? = some item := by
          rw [← List.head?_drop, items]
          rfl
        simp [here]
      · change list.items.drop (i + 1 + 1) = rest
        rw [← List.tail_drop, items, List.tail_cons]

/-- The cursor stands before the buckets in `rest`, and these items are to come: those of the
chain which it is in, and those of the buckets. -/
def Good (isEmpty : LinkedList α → Bool) (slots : List (Option (LinkedList α))) (all : Bool)
    (cursor : Cursor α) (items : List α) : Prop :=
  ∃ before rest, slots = before ++ rest ∧ cursor.current + 1 = (before.length : Int) ∧
    (∀ iterator ∈ cursor.listiter, ListIter.Good isEmpty iterator) ∧
    items = (cursor.listiter.map ListIter.remaining).getD [] ++ rest.flatMap (visited isEmpty all)

theorem good_new : Good isEmpty slots all {} (slots.flatMap (visited isEmpty all)) :=
  ⟨[], slots, rfl, rfl, nofun, rfl⟩

variable (chains : ∀ list, some list ∈ slots → list.items ≠ [])
include chains

theorem wanted_ne_nil {list : LinkedList α} (member : some list ∈ slots) :
    wanted all (some list) ≠ [] := by
  have some_ := chains list member
  rw [wanted]
  cases all with
  | true => exact some_
  | false =>
    obtain ⟨item, rest, items⟩ := List.exists_cons_of_ne_nil some_
    rw [LinkedList.head?, items]
    exact List.cons_ne_nil _ _

theorem anyFrom_eq {before rest : List (Option (LinkedList α))} (whole : slots = before ++ rest) :
    anyFrom isEmpty slots rest.length before.length =
      some (!(rest.flatMap (visited isEmpty all)).isEmpty) := by
  induction rest generalizing before with
  | nil => rfl
  | cons entry rest ih =>
    have here : slots[before.length]? = some entry := by
      rw [whole, List.getElem?_append_right (Nat.le_refl _), Nat.sub_self]
      rfl
    have later := ih (by rw [whole, List.append_cons] : slots = (before ++ [entry]) ++ rest)
    rw [List.length_append, List.length_singleton] at later
    rw [List.length_cons, anyFrom, here, List.flatMap_cons]
    dsimp only
    cases entry with
    | none => exact later
    | some list =>
      have member : some list ∈ slots := by
        rw [whole]
        exact List.mem_append_right _ List.mem_cons_self
      have some_ : wanted all (some list) ≠ [] := wanted_ne_nil chains member
      rw [visited, Option.any_some, Option.filter_some]
      cases isEmpty list with
      | true => exact later
      | false =>
        rw [Bool.not_false, if_pos rfl, if_pos rfl,
          List.isEmpty_eq_false_iff.mpr (List.append_ne_nil_of_left_ne_nil some_ _)]
        rfl

variable (length : slots.length = buckets)
include length

theorem Good.hasNext_eq {cursor : Cursor α} {items : List α}
    (good : Good isEmpty slots all cursor items) :
    hasNext isEmpty slots buckets cursor = some (!items.isEmpty) := by
  obtain ⟨before, rest, whole, current, iterators, rfl⟩ := good
  have left : buckets - before.length = rest.length := by
    rw [← length, whole, List.length_append, Nat.add_sub_cancel_left]
  have others : anyFrom isEmpty slots rest.length before.length =
      some (!(rest.flatMap (visited isEmpty all)).isEmpty) := anyFrom_eq chains whole
  rw [hasNext, current, Int.toNat_natCast]
  dsimp only
  rw [left]
  cases inside : cursor.listiter with
  | none => exact others
  | some iterator =>
    have test := (iterators iterator inside).hasNext_eq
    rw [Option.any_some, test, Option.map_some, Option.getD_some]
    cases iterator.remaining with
    | nil => exact others
    | cons item more => rfl

omit chains length in
theorem enter_spec (all : Bool) {list : LinkedList α} (full : isEmpty list = false)
    (some_ : list.items ≠ []) (cursor : Cursor α)
    (done : (cursor.listiter.map ListIter.remaining).getD [] = [])
    (iterators : ∀ iterator ∈ cursor.listiter, ListIter.Good isEmpty iterator) :
    ∃ cursor' item more, enter isEmpty all list cursor = (cursor', some item) ∧
      cursor'.current = cursor.current ∧ wanted all (some list) = item :: more ∧
      (cursor'.listiter.map ListIter.remaining).getD [] = more ∧
      ∀ iterator ∈ cursor'.listiter, ListIter.Good isEmpty iterator := by
  obtain ⟨item, more, items⟩ := List.exists_cons_of_ne_nil some_
  rw [enter, wanted]
  cases all with
  | true =>
    have new : ListIter.Good isEmpty { list } := fun _ => ⟨full, some_⟩
    obtain ⟨iterator, first, good, remaining⟩ := new.next_spec
    have whole : ListIter.remaining { list } = item :: more := items
    rw [whole] at first remaining
    rw [if_pos rfl, if_pos rfl, first]
    refine ⟨_, item, more, rfl, rfl, items, remaining, ?_⟩
    rintro _ ⟨⟩
    exact good
  | false =>
    rw [if_neg Bool.false_ne_true, if_neg Bool.false_ne_true, LinkedList.head?, items]
    exact ⟨cursor, item, [], rfl, rfl, rfl, done, iterators⟩

variable (small : buckets < range)
include small

/-- Behind a chain, the loop goes on to the next bucket with items. -/
theorem advance_spec {before rest : List (Option (LinkedList α))} (whole : slots = before ++ rest)
    {cursor : Cursor α} (current : cursor.current + 1 = (before.length : Int))
    (done : (cursor.listiter.map ListIter.remaining).getD [] = [])
    (iterators : ∀ iterator ∈ cursor.listiter, ListIter.Good isEmpty iterator) :
    ∃ cursor', advance isEmpty buckets range all rest cursor =
        some (cursor', (rest.flatMap (visited isEmpty all)).head?) ∧
      Good isEmpty slots all cursor' (rest.flatMap (visited isEmpty all)).tail := by
  have total : before.length + rest.length = buckets := by
    rw [← length, whole, List.length_append]
  have uncut : (cursor.current + 1).toNat % range = before.length := by
    rw [current, Int.toNat_natCast, Nat.mod_eq_of_lt (by omega)]
  induction rest generalizing before cursor with
  | nil =>
    rw [List.length_nil] at total
    refine ⟨cursor, ?_, before, [], whole, current, iterators, by rw [done]; rfl⟩
    rw [advance, uncut, if_neg (by omega)]
    rfl
  | cons entry rest ih =>
    rw [List.length_cons] at total
    have moved : slots = (before ++ [entry]) ++ rest := by rw [whole, List.append_cons]
    have count : (before ++ [entry]).length = before.length + 1 := List.length_append
    have ahead : cursor.current + 1 + 1 = ((before ++ [entry]).length : Int) := by
      rw [count, current]
      rfl
    -- the cursor on the bucket, for when there is nothing to visit
    have skip : ∃ cursor', advance isEmpty buckets range all rest
          { cursor with current := cursor.current + 1 } =
            some (cursor', (rest.flatMap (visited isEmpty all)).head?) ∧
        Good isEmpty slots all cursor' (rest.flatMap (visited isEmpty all)).tail :=
      ih moved ahead done iterators (by omega)
        (by rw [ahead, Int.toNat_natCast, Nat.mod_eq_of_lt (by omega)])
    rw [advance, uncut, if_pos (by omega), List.flatMap_cons]
    dsimp only
    cases entry with
    | none => exact skip
    | some list =>
      have some_ : list.items ≠ [] := by
        apply chains
        rw [whole]
        exact List.mem_append_right _ List.mem_cons_self
      rw [visited, Option.filter_some]
      cases full : isEmpty list with
      | true => exact skip
      | false =>
        obtain ⟨cursor', item, more, first, current', items, remaining, iterators'⟩ :=
          enter_spec all full some_ { cursor with current := cursor.current + 1 } done iterators
        rw [Bool.not_false, if_pos rfl]
        dsimp only
        rw [first, items]
        refine ⟨cursor', rfl, before ++ [some list], rest, moved, ?_, iterators', ?_⟩
        · rw [current']
          exact ahead
        · rw [remaining]
          rfl

theorem Good.next_spec {cursor : Cursor α} {items : List α}
    (good : Good isEmpty slots all cursor items) :
    ∃ cursor', next isEmpty slots buckets range all cursor = some (cursor', items.head?) ∧
      Good isEmpty slots all cursor' items.tail := by
  obtain ⟨before, rest, whole, current, iterators, rfl⟩ := good
  have dropped : slots.drop (cursor.current + 1).toNat = rest := by
    rw [current, Int.toNat_natCast, whole, List.drop_left]
  rw [next]
  dsimp only
  rw [dropped]
  cases inside : cursor.listiter with
  | none => exact advance_spec chains length small whole current rfl nofun
  | some iterator =>
    obtain ⟨iterator', called, good', remaining⟩ := (iterators iterator inside).next_spec
    rw [Option.map_some, called, Option.map_some, Option.map_some, Option.bind_some,
      Option.getD_some]
    have own : ∀ other ∈ some iterator', ListIter.Good isEmpty other := by
      rintro _ ⟨⟩
      exact good'
    cases more : iterator.remaining with
    | nil =>
      rw [more] at remaining
      exact advance_spec chains length small whole current remaining own
    | cons item items =>
      rw [more] at remaining
      refine ⟨_, rfl, before, rest, whole, current, own, ?_⟩
      rw [Option.map_some, Option.getD_some, remaining]
      rfl

theorem exact_items :
    Iteration.Exact (hasNext isEmpty slots buckets) (next isEmpty slots buckets range all) {}
      (slots.flatMap (visited isEmpty all)) :=
  Iteration.exact_of_step (fun _ _ good => good.hasNext_eq chains length)
    (fun _ _ good => good.next_spec chains length small) good_new

omit small chains length in
/-- The loop does not end if the number of buckets cannot be counted. -/
theorem next_ne_none (pos : 0 < range) (large : range ≤ buckets) {cursor cursor' : Cursor α} :
    next isEmpty slots buckets range all cursor ≠ some (cursor', none) := by
  have below (n : Nat) : n % range < buckets := Nat.lt_of_lt_of_le (Nat.mod_lt n pos) large
  have loop (rest : List (Option (LinkedList α))) (cursor : Cursor α) :
      advance isEmpty buckets range all rest cursor ≠ some (cursor', none) := by
    induction rest generalizing cursor with
    | nil =>
      rw [advance, if_pos (below _)]
      nofun
    | cons entry rest ih =>
      rw [advance, if_pos (below _)]
      dsimp only
      cases entry.filter (!isEmpty ·) with
      | none => exact ih _
      | some list =>
        dsimp only
        split
        · exact ih _
        · nofun
  rw [next]
  dsimp only
  split
  · nofun
  · exact loop _ _

omit small length in
/-- Fewer items are visited if a bucket passes for an empty one. -/
theorem length_visited (skipped : ∃ list, some list ∈ slots ∧ isEmpty list = true) :
    (slots.flatMap (visited isEmpty all)).length < (slots.flatMap (wanted all)).length := by
  rw [List.length_flatMap, List.length_flatMap]
  apply List.sum_lt_sum
  · intro entry member
    cases entry with
    | none => exact Nat.le_refl _
    | some list =>
      rw [visited, Option.filter_some]
      split
      · exact Nat.le_refl _
      · exact Nat.zero_le _
  · obtain ⟨list, member, empty⟩ := skipped
    refine ⟨some list, member, ?_⟩
    rw [visited, Option.filter_some, empty]
    exact List.length_pos_iff.mpr (wanted_ne_nil chains member)

omit small in
theorem exact_iff (pos : 0 < range) :
    (∃ items, items.Perm (slots.flatMap (wanted all)) ∧
      Iteration.Exact (hasNext isEmpty slots buckets) (next isEmpty slots buckets range all) {}
        items) ↔
      buckets < range ∧ ∀ list, some list ∈ slots → isEmpty list = false := by
  constructor
  · rintro ⟨items, perm, exact_⟩
    have small : buckets < range := by
      by_contra large
      obtain ⟨cursor, cursor', done⟩ := exact_.ends
      exact next_ne_none pos (Nat.le_of_not_lt large) done
    refine ⟨small, fun list member => ?_⟩
    by_contra empty
    have fewer : (slots.flatMap (visited isEmpty all)).length <
        (slots.flatMap (wanted all)).length :=
      length_visited chains ⟨list, member, Bool.eq_true_of_not_eq_false empty⟩
    rw [← exact_.unique (exact_items chains length small), perm.length_eq] at fewer
    exact Nat.lt_irrefl _ fewer
  · rintro ⟨small, full⟩
    have same : slots.flatMap (visited isEmpty all) = slots.flatMap (wanted all) := by
      apply List.flatMap_congr
      intro entry member
      cases entry with
      | none => rfl
      | some list =>
        rw [visited, Option.filter_some, full list member]
        rfl
    refine ⟨_, .refl _, ?_⟩
    rw [← same]
    exact exact_items chains length small

end Spec

/-- The same for chains which are in the entries of a table. -/
theorem exact_stored_iff {β : Type} (isEmpty : LinkedList α → Bool) (all : Bool)
    (chain : β → LinkedList α) {entries : List (Option β)} {buckets range : Nat}
    (chains : ∀ b ∈ LinearProbe.stored entries, (chain b).items ≠ [])
    (length : entries.length = buckets) (pos : 0 < range) :
    (∃ items, items.Perm ((LinearProbe.stored entries).flatMap fun b => wanted all (some (chain b))) ∧
      Iteration.Exact (hasNext isEmpty (entries.map (Option.map chain)) buckets)
        (next isEmpty (entries.map (Option.map chain)) buckets range all) {} items) ↔
      buckets < range ∧ ∀ b ∈ LinearProbe.stored entries, isEmpty (chain b) = false := by
  have gathered : (entries.map (Option.map chain)).flatMap (wanted all) =
      (LinearProbe.stored entries).flatMap fun b => wanted all (some (chain b)) := by
    rw [List.flatMap_map]
    exact LinearProbe.flatMap_stored _ rfl entries
  have items : ∀ list, some list ∈ entries.map (Option.map chain) → list.items ≠ [] := by
    intro list member
    obtain ⟨b, inside, rfl⟩ := (LinearProbe.some_mem_map chain entries list).mp member
    exact chains b inside
  rw [← gathered, exact_iff items (by rw [List.length_map, length]) pos]
  apply and_congr_right'
  constructor
  · intro full b inside
    exact full _ ((LinearProbe.some_mem_map chain entries _).mpr ⟨b, inside, rfl⟩)
  · intro full list member
    obtain ⟨b, inside, rfl⟩ := (LinearProbe.some_mem_map chain entries list).mp member
    exact full b inside

end BucketCursor
