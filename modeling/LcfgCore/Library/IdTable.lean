import LcfgCore.Library.LinearProbe
import Mathlib.Data.List.Find

/-!
# Tables of objects with identifiers

A table with open addressing whose entries have numbers for keys, and the number
of entries and of buckets beside the array. The home of a key is its remainder.
`rebuilt` moves all entries into a table of another size.
-/
namespace IdTable

structure Table (α : Type) where
  slots : List (Option α)
  entries : Nat
  buckets : Nat
deriving DecidableEq, Repr

section Operations

variable {α : Type} (ident : α → Nat)

def emptied (buckets : Nat) : Table α := ⟨List.replicate buckets none, 0, buckets⟩

/-- The first slot which is free or has the identifier. -/
def slotOf (t : Table α) (id : Nat) : Option Nat :=
  LinearProbe.probe t.slots t.buckets (id % t.buckets) fun a => ident a == id

def put (t : Table α) (slot : Nat) (a : α) : Table α :=
  { t with
    slots := t.slots.set slot (some a)
    entries := if t.slots[slot]?.join.isNone then t.entries + 1 else t.entries }

def insert (t : Table α) (a : α) : Option (Table α) :=
  (slotOf ident t (ident a)).map fun slot => put t slot a

/-- All entries in an array of another size. -/
def rebuilt (t : Table α) (buckets : Nat) : Option (Table α) :=
  (LinearProbe.stored t.slots).foldlM (insert ident) (emptied buckets)

/-- The entry with an identifier. -/
def lookup (t : Table α) (id : Nat) : Option α :=
  LinearProbe.entry t.slots (fun a => some (ident a)) id

structure Tabled (t : Table α) : Prop where
  buckets_eq : t.buckets = t.slots.length
  pos : 0 < t.slots.length
  entries_eq : t.entries = LinearProbe.occupied t.slots
  chained : LinearProbe.Chained t.slots (fun id => id % t.slots.length) fun a => some (ident a)

end Operations

variable {α : Type} {ident : α → Nat} {t : Table α} {id slot : Nat} {a : α}

private theorem decides (t : Table α) (id : Nat) :
    ∀ a ∈ LinearProbe.stored t.slots, (ident a == id) = true ↔ some (ident a) = some id := by
  simp

theorem Tabled.slotOf_spec (tabled : Tabled ident t) (found : slotOf ident t id = some slot) :
    slot < t.slots.length ∧ t.slots[slot]?.join = lookup ident t id := by
  unfold slotOf at found
  rw [tabled.buckets_eq] at found
  have bound := Nat.mod_lt id tabled.pos
  exact ⟨LinearProbe.probe_inside _ _ _ bound slot found,
    tabled.chained.entry_probe id _ (decides t id) bound slot found⟩

theorem Tabled.slotOf_isSome (tabled : Tabled ident t) (id : Nat)
    (room : t.entries < t.slots.length) : ∃ slot, slotOf ident t id = some slot := by
  rw [tabled.entries_eq] at room
  obtain ⟨j, empty⟩ := LinearProbe.exists_empty t.slots room
  unfold slotOf
  rw [tabled.buckets_eq]
  exact LinearProbe.probe_isSome _ _ _ (Nat.mod_lt id tabled.pos) j empty

/-- Only the identifiers of the entries matter. -/
theorem Tabled.congr {ident' : α → Nat} (tabled : Tabled ident t)
    (same : ∀ a ∈ LinearProbe.stored t.slots, ident' a = ident a) :
    Tabled ident' t ∧ slotOf ident' t = slotOf ident t ∧ lookup ident' t = lookup ident t := by
  refine ⟨⟨tabled.buckets_eq, tabled.pos, tabled.entries_eq, ?_⟩, ?_, ?_⟩
  · exact tabled.chained.congr fun a member => by rw [same a member]
  · funext id
    exact LinearProbe.probe_congr (fun a member => by rw [same a member]) _ _
  · funext id
    exact List.find?_congr fun a member => by simp only [same a member]

theorem put_length (t : Table α) (slot : Nat) (a : α) :
    (put t slot a).slots.length = t.slots.length := List.length_set

theorem put_entries_le (t : Table α) (slot : Nat) (a : α) :
    (put t slot a).entries ≤ t.entries + 1 := by
  unfold put
  dsimp only
  split <;> omega

theorem Tabled.put_spec (tabled : Tabled ident t) (found : slotOf ident t (ident a) = some slot) :
    Tabled ident (put t slot a) ∧
      lookup ident (put t slot a) = Function.update (lookup ident t) (ident a) (some a) := by
  obtain ⟨inside, -⟩ := tabled.slotOf_spec found
  have bound := Nat.mod_lt (ident a) tabled.pos
  unfold slotOf at found
  rw [tabled.buckets_eq] at found
  have size := put_length t slot a
  refine ⟨⟨?_, ?_, ?_, ?_⟩, ?_⟩
  · rw [size]
    exact tabled.buckets_eq
  · rw [size]
    exact tabled.pos
  · have counted := LinearProbe.occupied_set t.slots slot inside (some a)
    simp only [put, List.getElem?_eq_getElem inside, Option.join_some, tabled.entries_eq]
    cases before : t.slots[slot] with
    | none => simp_all
    | some old => simp_all
  · rw [size]
    exact tabled.chained.set_some (ident a) _ (decides t _) bound slot found a rfl
  · exact tabled.chained.entry_set_some (ident a) _ (decides t _) bound slot found a rfl

theorem emptied_tabled {buckets : Nat} (pos : 0 < buckets) :
    Tabled ident (emptied buckets : Table α) where
  buckets_eq := List.length_replicate.symm
  pos := by simpa [emptied] using pos
  entries_eq := (LinearProbe.occupied_replicate_none buckets).symm
  chained := LinearProbe.chained_replicate_none _ _ _

theorem lookup_emptied (buckets : Nat) :
    lookup ident (emptied buckets : Table α) = fun _ => none :=
  LinearProbe.entry_replicate_none _ _

theorem lookup_eq_some_iff (tabled : Tabled ident t) :
    lookup ident t id = some a ↔ a ∈ LinearProbe.stored t.slots ∧ ident a = id := by
  rw [lookup, tabled.chained.entry_eq_some_iff id a, Option.some_inj]

/-- Run lemma: entries with different identifiers go into a table with enough room. -/
theorem Tabled.insertAll_spec (tabled : Tabled ident t) (more : List α)
    (distinct : more.Pairwise fun a b => some (ident a) ≠ some (ident b))
    (room : t.entries + more.length ≤ t.slots.length) :
    ∃ filled, more.foldlM (insert ident) t = some filled ∧ Tabled ident filled ∧
      filled.buckets = t.buckets ∧ filled.entries ≤ t.entries + more.length ∧
      ∀ id, lookup ident filled id =
        (more.find? fun a => some (ident a) = some id).or (lookup ident t id) := by
  induction more generalizing t with
  | nil => exact ⟨t, rfl, tabled, rfl, le_refl _, fun id => by simp⟩
  | cons a more ih =>
    rw [List.length_cons] at room
    obtain ⟨slot, found⟩ := tabled.slotOf_isSome (ident a) (by omega)
    obtain ⟨good, updated⟩ := tabled.put_spec found
    have step : insert ident t a = some (put t slot a) := by
      rw [insert, found]
      rfl
    have size := put_length t slot a
    have count := put_entries_le t slot a
    rw [List.pairwise_cons] at distinct
    obtain ⟨filled, run, good', buckets', count', content⟩ := ih good distinct.2
      (by rw [size]; omega)
    refine ⟨filled, ?_, good', buckets', ?_, fun id => ?_⟩
    · rw [List.foldlM_cons, step]
      exact run
    · rw [List.length_cons]
      omega
    · rw [content id, updated]
      by_cases same : id = ident a
      · subst id
        -- no later entry has this identifier
        have unique : more.find? (fun other => some (ident other) = some (ident a)) = none :=
          List.find?_eq_none.mpr fun other member equal =>
            distinct.1 other member (by simpa using (of_decide_eq_true equal).symm)
        rw [unique, List.find?_cons_of_pos (by simp), Function.update_self]
        rfl
      · have other : some (ident a) ≠ some id := fun equal => same (Option.some.inj equal).symm
        rw [Function.update_of_ne same, List.find?_cons_of_neg (by simpa using other)]

/-- Nothing is lost when a table is rebuilt. -/
theorem Tabled.rebuilt_spec (tabled : Tabled ident t) {buckets : Nat} (pos : 0 < buckets)
    (room : t.entries ≤ buckets) :
    ∃ grown, rebuilt ident t buckets = some grown ∧ Tabled ident grown ∧
      grown.buckets = buckets ∧ grown.entries ≤ t.entries ∧ lookup ident grown = lookup ident t := by
  have count : (LinearProbe.stored t.slots).length = t.entries := by
    rw [LinearProbe.length_stored, tabled.entries_eq]
  have start : Tabled ident (emptied buckets : Table α) := emptied_tabled pos
  obtain ⟨filled, run, good, size, few, content⟩ := start.insertAll_spec
    (LinearProbe.stored t.slots) tabled.chained.pairwise (by simpa [emptied, count] using room)
  refine ⟨filled, run, good, size, by simpa [emptied, count] using few, ?_⟩
  funext id
  rw [content id, lookup_emptied, Option.or_none]
  rfl

end IdTable
