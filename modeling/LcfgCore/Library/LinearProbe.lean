import Mathlib.Data.List.Basic
import Mathlib.Data.List.Count
import Mathlib.Data.List.Dedup
import Mathlib.Data.List.Range
import Mathlib.Data.List.Nodup
import Mathlib.Data.List.ReduceOption
import Mathlib.Data.Option.Basic

/-!
# Open addressing with linear probing

A table is a list of slots, each empty or holding one entry. A probe for a key
starts at the home slot of the key, walks to the end of the table, continues
from the front, and stops at the first slot which is empty or holds an entry
with that key.

## Main results

`Chained.lookup_eq_some_iff`: in a well-formed table a lookup finds exactly
what is stored. `Chained.set_some`: filling the slot at which the probe stops
keeps the table well formed. `Chained.set_none_iff`: emptying a slot keeps it
well formed exactly when no other entry is probed for through that slot.
-/
namespace LinearProbe

variable {α κ : Type}

/-- The slots in the order in which a probe visits them. -/
def order (home buckets : Nat) : List Nat :=
  List.range' home (buckets - home) ++ List.range home

/-- How many slots a probe visits before it reaches slot `i`. -/
def rank (home buckets i : Nat) : Nat :=
  if home ≤ i then i - home else i + buckets - home

/-- The first slot at which a probe has to stop. A slot outside the array stops
it as well: the bound `buckets` is a counter of its own. -/
def probe (slots : List (Option α)) (buckets home : Nat) (accept : α → Bool) : Option Nat :=
  (order home buckets).find? fun i =>
    match slots[i]? with
    | some (some a) => accept a
    | _ => true

/-- The entry at the slot where the probe stops, if there is one. -/
def lookup (slots : List (Option α)) (buckets home : Nat) (accept : α → Bool) : Option α :=
  (probe slots buckets home accept).bind fun i => slots[i]?.join

/-- The entries of the table, in slot order. -/
def stored (slots : List (Option α)) : List α := slots.reduceOption

/-- The number of occupied slots. -/
def occupied (slots : List (Option α)) : Nat := slots.countP Option.isSome

/-! ### The probe order -/

theorem mem_order (home buckets i : Nat) (bound : home < buckets) :
    i ∈ order home buckets ↔ i < buckets := by
  simp only [order, List.mem_append, List.mem_range'_1, List.mem_range]
  omega

private theorem order_sorted (home buckets : Nat) (bound : home < buckets) :
    (order home buckets).Pairwise fun i j => rank home buckets i < rank home buckets j := by
  refine List.pairwise_append.mpr ⟨?_, ?_, ?_⟩
  · refine List.Pairwise.imp_of_mem ?_ (List.pairwise_lt_range' (s := home) (n := buckets - home))
    intro i j hi hj less
    simp only [List.mem_range'_1] at hi hj
    simp only [rank, hi.1, hj.1, if_true]
    omega
  · refine List.Pairwise.imp_of_mem ?_ (List.pairwise_lt_range (n := home))
    intro i j hi hj less
    simp only [List.mem_range] at hi hj
    simp only [rank, Nat.not_le.mpr hi, Nat.not_le.mpr hj, if_false]
    omega
  · intro i hi j hj
    simp only [List.mem_range'_1] at hi
    simp only [List.mem_range] at hj
    simp only [rank, hi.1, Nat.not_le.mpr hj, if_true, if_false]
    omega

/-- Searching in probe order finds the accepted slot of least rank. -/
theorem find_order_eq_some_iff (home buckets : Nat) (bound : home < buckets) (p : Nat → Bool)
    (i : Nat) : (order home buckets).find? p = some i ↔
      i < buckets ∧ p i = true ∧
        ∀ j < buckets, rank home buckets j < rank home buckets i → p j = false := by
  have sorted := order_sorted home buckets bound
  constructor
  · intro found
    obtain ⟨yes, before, after, split, no⟩ := List.find?_eq_some_iff_append.mp found
    have inside : i < buckets := (mem_order home buckets i bound).mp (by simp [split])
    refine ⟨inside, yes, fun j hj earlier => ?_⟩
    have member : j ∈ before ++ i :: after := split ▸ (mem_order home buckets j bound).mpr hj
    rcases List.mem_append.mp member with hb | hr
    · simpa using no j hb
    -- the slots of the order come with increasing ranks
    · rw [split] at sorted
      rcases List.mem_cons.mp hr with rfl | ha
      · omega
      · have later := List.rel_of_pairwise_cons (List.pairwise_append.mp sorted).2.1 ha
        omega
  · rintro ⟨inside, yes, first⟩
    cases found : (order home buckets).find? p with
    | none =>
      have no := List.find?_eq_none.mp found i ((mem_order home buckets i bound).mpr inside)
      exact absurd yes no
    | some k =>
      have kin : k < buckets := (mem_order home buckets k bound).mp (List.mem_of_find?_eq_some found)
      have kyes := List.find?_some found
      obtain ⟨_, before, after, split, no⟩ := List.find?_eq_some_iff_append.mp found
      -- the first hit is not before, and by its own condition not after the slot
      have notEarlier : ¬ rank home buckets k < rank home buckets i := by
        intro earlier
        simp [first k kin earlier] at kyes
      have member : i ∈ before ++ k :: after := split ▸ (mem_order home buckets i bound).mpr inside
      rcases List.mem_append.mp member with hb | hr
      · simpa [yes] using no i hb
      · rcases List.mem_cons.mp hr with rfl | ha
        · rfl
        · rw [split] at sorted
          have later := List.rel_of_pairwise_cons (List.pairwise_append.mp sorted).2.1 ha
          omega

theorem find_order_eq_none_iff (home buckets : Nat) (bound : home < buckets) (p : Nat → Bool) :
    (order home buckets).find? p = none ↔ ∀ i < buckets, p i = false := by
  simp only [List.find?_eq_none, mem_order home buckets _ bound, Bool.not_eq_true]

/-! ### Where a probe stops -/

section Probe

variable (slots : List (Option α)) (home : Nat) (accept : α → Bool)

/-- A probe of a whole table passes only occupied slots with other entries. -/
def Passed (i : Nat) : Prop :=
  ∀ j < slots.length, rank home slots.length j < rank home slots.length i →
    ∃ b, slots[j]? = some (some b) ∧ accept b = false

theorem probe_eq_some_iff (bound : home < slots.length) (i : Nat) :
    probe slots slots.length home accept = some i ↔
      (slots[i]? = some none ∨ ∃ a, slots[i]? = some (some a) ∧ accept a = true) ∧
        Passed slots home accept i := by
  unfold probe
  rw [find_order_eq_some_iff home slots.length bound]
  constructor
  -- the probe stops at an empty slot or at an accepted one
  · rintro ⟨inside, stop, before⟩
    constructor
    · cases entry : slots[i] with
      | none => left; simp [inside, entry]
      | some a =>
        right
        exact ⟨a, by simp [inside, entry], by simpa [inside, entry] using stop⟩
    · intro j hj earlier
      have go := before j hj earlier
      cases entry : slots[j] with
      | none => simp [hj, entry] at go
      | some b => exact ⟨b, by simp [hj, entry], by simpa [hj, entry] using go⟩
  · rintro ⟨stop, before⟩
    have inside : i < slots.length := by
      rcases stop with empty | ⟨a, full, _⟩
      · exact (List.getElem?_eq_some_iff.mp empty).1
      · exact (List.getElem?_eq_some_iff.mp full).1
    refine ⟨inside, ?_, ?_⟩
    · rcases stop with empty | ⟨a, full, yes⟩
      · simp [empty]
      · simp [full, yes]
    · intro j hj earlier
      obtain ⟨b, full, no⟩ := before j hj earlier
      simp [full, no]

theorem probe_inside (bound : home < slots.length) (i : Nat)
    (stop : probe slots slots.length home accept = some i) : i < slots.length := by
  have found := List.mem_of_find?_eq_some stop
  exact (mem_order home slots.length i bound).mp found

theorem probe_eq_none_iff (bound : home < slots.length) :
    probe slots slots.length home accept = none ↔
      ∀ i < slots.length, ∃ b, slots[i]? = some (some b) ∧ accept b = false := by
  unfold probe
  rw [find_order_eq_none_iff home slots.length bound]
  refine forall_congr' fun i => forall_congr' fun inside => ?_
  cases entry : slots[i] <;> simp [inside, entry]

/-- A table with an empty slot always stops a probe. -/
theorem probe_isSome (bound : home < slots.length) (i : Nat) (empty : slots[i]? = some none) :
    ∃ j, probe slots slots.length home accept = some j := by
  cases stop : probe slots slots.length home accept with
  | some j => exact ⟨j, rfl⟩
  | none =>
    have inside := (List.getElem?_eq_some_iff.mp empty).1
    obtain ⟨b, full, _⟩ := (probe_eq_none_iff slots home accept bound).mp stop i inside
    simp [empty] at full

/-- Rewriting the slot a probe stops at leaves the probe there, as long as the
new content stops it. -/
theorem probe_set (bound : home < slots.length) (i : Nat) (entry : Option α)
    (stop : probe slots slots.length home accept = some i)
    (stops : ∀ a, entry = some a → accept a = true) :
    probe (slots.set i entry) slots.length home accept = some i := by
  have inside := probe_inside slots home accept bound i stop
  have passed := ((probe_eq_some_iff slots home accept bound i).mp stop).2
  have size : (slots.set i entry).length = slots.length := List.length_set
  rw [← size, probe_eq_some_iff _ _ _ (by rw [size]; exact bound)]
  refine ⟨?_, ?_⟩
  · rw [List.getElem?_set_self inside]
    cases entry with
    | none => exact Or.inl rfl
    | some a => exact Or.inr ⟨a, rfl, stops a rfl⟩
  · intro j hj earlier
    rw [size] at hj earlier
    have other : i ≠ j := by rintro rfl; omega
    rw [List.getElem?_set_ne other]
    exact passed j hj earlier

end Probe

/-! ### Counting entries -/

@[simp] theorem stored_none (rest : List (Option α)) : stored (none :: rest) = stored rest := by
  simp [stored]

@[simp] theorem stored_some (a : α) (rest : List (Option α)) :
    stored (some a :: rest) = a :: stored rest := by
  simp [stored]

@[simp] theorem occupied_none (rest : List (Option α)) : occupied (none :: rest) = occupied rest := by
  simp [occupied]

@[simp] theorem occupied_some (a : α) (rest : List (Option α)) :
    occupied (some a :: rest) = occupied rest + 1 := by
  simp [occupied]

theorem length_stored (slots : List (Option α)) : (stored slots).length = occupied slots := by
  induction slots with
  | nil => rfl
  | cons entry rest ih =>
    cases entry with
    | none => simpa [stored, occupied] using ih
    | some a => simpa [stored, occupied] using ih

theorem mem_stored (slots : List (Option α)) (a : α) :
    a ∈ stored slots ↔ ∃ i : Nat, slots[i]? = some (some a) := by
  rw [stored, List.reduceOption_mem_iff, List.mem_iff_getElem?]

theorem mem_stored_set (slots : List (Option α)) (i : Nat) (entry : Option α) (b : α)
    (member : b ∈ stored (slots.set i entry)) : b ∈ stored slots ∨ entry = some b := by
  obtain ⟨j, full⟩ := (mem_stored _ b).mp member
  by_cases same : i = j
  · right
    have inside : i < slots.length := by
      have bound := (List.getElem?_eq_some_iff.mp full).1
      rw [List.length_set] at bound
      omega
    rw [← same, List.getElem?_set_self inside] at full
    exact Option.some.inj full
  · left
    rw [List.getElem?_set_ne same] at full
    exact (mem_stored slots b).mpr ⟨j, full⟩

theorem occupied_le (slots : List (Option α)) : occupied slots ≤ slots.length :=
  List.countP_le_length

/-- Fewer entries than slots leave a slot empty. -/
theorem exists_empty (slots : List (Option α)) (room : occupied slots < slots.length) :
    ∃ i : Nat, slots[i]? = some none := by
  by_contra none
  have full : ∀ entry ∈ slots, entry.isSome = true := by
    intro entry member
    obtain ⟨i, hi⟩ := List.mem_iff_getElem?.mp member
    cases entry with
    | none => exact absurd ⟨i, hi⟩ none
    | some a => rfl
  have all := List.countP_eq_length.mpr full
  exact absurd room (by simp only [occupied, all]; omega)

theorem occupied_set (slots : List (Option α)) (i : Nat) (inside : i < slots.length)
    (entry : Option α) : occupied (slots.set i entry) + (if slots[i].isSome then 1 else 0) =
      occupied slots + (if entry.isSome then 1 else 0) := by
  have positive : slots[i].isSome = true → 0 < occupied slots := by
    intro full
    exact List.countP_pos_iff.mpr ⟨slots[i], List.getElem_mem inside, full⟩
  unfold occupied at positive ⊢
  rw [List.countP_set inside]
  split <;> split <;> simp_all

theorem stored_replicate_none (n : Nat) : stored (List.replicate n (none : Option α)) = [] := by
  simp [stored, List.reduceOption]

theorem occupied_replicate_none (n : Nat) :
    occupied (List.replicate n (none : Option α)) = 0 := by
  rw [← length_stored, stored_replicate_none]
  rfl

theorem stored_map {β : Type} (f : α → β) (slots : List (Option α)) :
    stored (slots.map (Option.map f)) = (stored slots).map f := by
  induction slots with
  | nil => rfl
  | cons entry rest ih => cases entry <;> simp [ih]

theorem some_mem_map {β : Type} (f : α → β) (slots : List (Option α)) (b : β) :
    some b ∈ slots.map (Option.map f) ↔ ∃ a ∈ stored slots, f a = b := by
  rw [stored, List.mem_map]
  simp only [List.reduceOption_mem_iff]
  constructor
  · rintro ⟨entry, member, same⟩
    obtain ⟨a, rfl, value⟩ := Option.map_eq_some_iff.mp same
    exact ⟨a, member, value⟩
  · rintro ⟨a, member, rfl⟩
    exact ⟨some a, member, rfl⟩

/-- What is gathered from the slots comes from the entries. -/
theorem flatMap_stored {β : Type} (f : Option α → List β) (nothing : f none = [])
    (slots : List (Option α)) :
    slots.flatMap f = (stored slots).flatMap fun a => f (some a) := by
  induction slots with
  | nil => rfl
  | cons entry rest ih =>
    cases entry with
    | none => simpa [stored, nothing] using ih
    | some a => simpa [stored] using ih

theorem occupied_map {β : Type} (f : α → β) (slots : List (Option α)) :
    occupied (slots.map (Option.map f)) = occupied slots := by
  rw [← length_stored, stored_map, List.length_map, length_stored]

/-- A probe looks at the entries only through `accept`. -/
theorem probe_map {β : Type} (f : α → β) (slots : List (Option α)) (buckets home : Nat)
    (accept : β → Bool) :
    probe (slots.map (Option.map f)) buckets home accept =
      probe slots buckets home fun a => accept (f a) := by
  unfold probe
  congr 1
  funext i
  rw [List.getElem?_map]
  rcases slots[i]? with _ | _ | a <;> rfl

/-- Only what is decided about the entries matters. -/
theorem probe_congr {slots : List (Option α)} {accept accept' : α → Bool}
    (same : ∀ a ∈ stored slots, accept' a = accept a) (buckets home : Nat) :
    probe slots buckets home accept' = probe slots buckets home accept := by
  unfold probe
  congr 1
  funext i
  cases entry : slots[i]? with
  | none => rfl
  | some a? =>
    cases a? with
    | none => rfl
    | some a => exact same a ((mem_stored slots a).mpr ⟨i, entry⟩)

/-- Filling a slot adds its new entry and takes away the old one. -/
theorem stored_set_perm (slots : List (Option α)) (i : Nat) (inside : i < slots.length)
    (entry : Option α) :
    (stored (slots.set i entry) ++ slots[i].toList).Perm (stored slots ++ entry.toList) := by
  induction slots generalizing i with
  | nil => simp at inside
  | cons first rest ih =>
    cases i with
    | zero =>
      cases first with
      | none => cases entry <;> simp [List.perm_append_singleton, List.Perm.symm]
      | some a =>
        cases entry with
        | none => simp [List.perm_append_singleton]
        | some b =>
          -- both sides are the rest of the entries with `a` and `b`
          have left := (List.perm_append_singleton a (stored rest)).cons b
          have right := (List.perm_append_singleton b (stored rest)).cons a
          simpa using left.trans ((List.Perm.swap a b (stored rest)).trans right.symm)
    | succ i =>
      have perm := ih i (by simpa using inside)
      cases first with
      | none => simpa using perm
      | some a => simpa using perm

/-! ### Well-formed tables -/

/-- Every entry has a key, no two entries share one, and the slots which a
probe for an entry passes on its way are all occupied. -/
structure Chained (slots : List (Option α)) (home : κ → Nat) (key : α → Option κ) : Prop where
  keyed : ∀ (i : Nat) (a : α), slots[i]? = some (some a) → ∃ k, key a = some k
  unique : ∀ (i j : Nat) (a b : α) (k : κ), slots[i]? = some (some a) → slots[j]? = some (some b) →
    key a = some k → key b = some k → i = j
  reach : ∀ (i : Nat) (a : α) (k : κ), slots[i]? = some (some a) → key a = some k → ∀ j < slots.length,
    rank (home k) slots.length j < rank (home k) slots.length i →
      ∃ b, slots[j]? = some (some b)

theorem chained_replicate_none (n : Nat) (home : κ → Nat) (key : α → Option κ) :
    Chained (List.replicate n none) home key := by
  have empty : ∀ (i : Nat) (a : α), (List.replicate n (none : Option α))[i]? ≠ some (some a) := by
    intro i a full
    have member := List.mem_of_getElem? full
    simp at member
  exact ⟨fun i a full => absurd full (empty i a), fun i _ a _ _ full => absurd full (empty i a),
    fun i a _ full => absurd full (empty i a)⟩

/-- Changing the entries, but not their keys, changes nothing. -/
theorem Chained.map {slots : List (Option α)} {home : κ → Nat} {key : α → Option κ}
    (chained : Chained slots home key) (f : α → α) (same : ∀ a ∈ stored slots, key (f a) = key a) :
    Chained (slots.map (Option.map f)) home key := by
  have from_ : ∀ (i : Nat) (b : α), (slots.map (Option.map f))[i]? = some (some b) →
      ∃ a, slots[i]? = some (some a) ∧ key b = key a := by
    intro i b full
    rw [List.getElem?_map, Option.map_eq_some_iff] at full
    obtain ⟨entry, here, mapped⟩ := full
    obtain ⟨a, rfl, rfl⟩ := Option.map_eq_some_iff.mp mapped
    exact ⟨a, here, same a ((mem_stored slots a).mpr ⟨i, here⟩)⟩
  refine ⟨fun i b full => ?_, fun i j b c k hi hj keyB keyC => ?_, fun i b k full keyB j hj earlier => ?_⟩
  · obtain ⟨a, here, equal⟩ := from_ i b full
    rw [equal]
    exact chained.keyed i a here
  · obtain ⟨a, here, equal⟩ := from_ i b hi
    obtain ⟨a', here', equal'⟩ := from_ j c hj
    exact chained.unique i j a a' k here here' (equal ▸ keyB) (equal' ▸ keyC)
  · obtain ⟨a, here, equal⟩ := from_ i b full
    rw [List.length_map] at hj earlier
    obtain ⟨c, occupied⟩ := chained.reach i a k here (equal ▸ keyB) j hj earlier
    exact ⟨f c, by simp [occupied]⟩

/-- Only the keys of the entries matter. -/
theorem Chained.congr {slots : List (Option α)} {home : κ → Nat} {key key' : α → Option κ}
    (chained : Chained slots home key) (same : ∀ a ∈ stored slots, key' a = key a) :
    Chained slots home key' := by
  have here (i : Nat) (a : α) (full : slots[i]? = some (some a)) : key' a = key a :=
    same a ((mem_stored slots a).mpr ⟨i, full⟩)
  refine ⟨fun i a full => ?_, fun i j a b k atI atJ keyA keyB => ?_, fun i a k full keyA => ?_⟩
  · rw [here i a full]
    exact chained.keyed i a full
  · rw [here i a atI] at keyA
    rw [here j b atJ] at keyB
    exact chained.unique i j a b k atI atJ keyA keyB
  · rw [here i a full] at keyA
    exact chained.reach i a k full keyA

/-- No two entries share a key. -/
theorem Chained.pairwise {slots : List (Option α)} {home : κ → Nat} {key : α → Option κ}
    (chained : Chained slots home key) : (stored slots).Pairwise fun a b => key a ≠ key b := by
  rw [stored, List.reduceOption, List.pairwise_filterMap, List.pairwise_iff_getElem]
  intro i j hi hj less a hereA b hereB same
  simp only [id_eq] at hereA hereB
  obtain ⟨k, keyA⟩ := chained.keyed i a (by simp [hi, hereA])
  have equal := chained.unique i j a b k (by simp [hi, hereA]) (by simp [hj, hereB]) keyA
    (same ▸ keyA)
  omega

namespace Chained

variable {slots : List (Option α)} {home : κ → Nat} {key : α → Option κ}

section Lookup

variable (chained : Chained slots home key) (k : κ) (accept : α → Bool)
  (decides : ∀ a ∈ stored slots, accept a = true ↔ key a = some k)
  (bound : home k < slots.length)

include chained decides bound

/-- The probe for a stored key stops at its entry. -/
theorem probe_stored (i : Nat) (a : α) (full : slots[i]? = some (some a))
    (same : key a = some k) : probe slots slots.length (home k) accept = some i := by
  have member : a ∈ stored slots := (mem_stored slots a).mpr ⟨i, full⟩
  refine (probe_eq_some_iff slots (home k) accept bound i).mpr ⟨?_, ?_⟩
  · exact Or.inr ⟨a, full, (decides a member).mpr same⟩
  · intro j hj earlier
    obtain ⟨b, occupied⟩ := chained.reach i a k full same j hj earlier
    refine ⟨b, occupied, Bool.eq_false_iff.mpr fun yes => ?_⟩
    have other := (decides b ((mem_stored slots b).mpr ⟨j, occupied⟩)).mp yes
    have equal := chained.unique j i b a k occupied full other same
    rw [equal] at earlier
    omega

/-- A probe for a key stops at its entry or, when it has none, at an empty slot. -/
theorem probe_cases (i : Nat) (stop : probe slots slots.length (home k) accept = some i) :
    (∃ a, slots[i]? = some (some a) ∧ key a = some k) ∨
      (slots[i]? = some none ∧ ∀ a ∈ stored slots, key a ≠ some k) := by
  rcases ((probe_eq_some_iff slots (home k) accept bound i).mp stop).1 with empty | ⟨a, full, yes⟩
  · right
    refine ⟨empty, fun a member same => ?_⟩
    obtain ⟨j, hj⟩ := (mem_stored slots a).mp member
    have found := chained.probe_stored k accept decides bound j a hj same
    rw [stop, Option.some.injEq] at found
    rw [← found, empty] at hj
    simp at hj
  · left
    exact ⟨a, full, (decides a ((mem_stored slots a).mpr ⟨i, full⟩)).mp yes⟩

/-- Lookup finds exactly what is stored. -/
theorem lookup_eq_some_iff (a : α) :
    lookup slots slots.length (home k) accept = some a ↔
      a ∈ stored slots ∧ key a = some k := by
  constructor
  · intro found
    obtain ⟨i, stop, entry⟩ := Option.bind_eq_some_iff.mp found
    have full : slots[i]? = some (some a) := Option.join_eq_some_iff.mp entry
    refine ⟨(mem_stored slots a).mpr ⟨i, full⟩, ?_⟩
    rcases chained.probe_cases k accept decides bound i stop with ⟨b, full', same⟩ | ⟨empty, _⟩
    · rw [full] at full'
      cases full'
      exact same
    · simp [full] at empty
  · rintro ⟨member, same⟩
    obtain ⟨i, full⟩ := (mem_stored slots a).mp member
    have stop := chained.probe_stored k accept decides bound i a full same
    simp [lookup, stop, full]

/-- Filling the slot at which the probe for a key stops keeps the table well formed. -/
theorem set_some (i : Nat) (stop : probe slots slots.length (home k) accept = some i)
    (a : α) (same : key a = some k) : Chained (slots.set i (some a)) home key := by
  have inside := probe_inside slots (home k) accept bound i stop
  have passed := ((probe_eq_some_iff slots (home k) accept bound i).mp stop).2
  have where_ := chained.probe_cases k accept decides bound i stop
  -- any other slot that holds the key would have stopped the probe
  have alone : ∀ (j : Nat) (b : α), j ≠ i → slots[j]? = some (some b) → key b ≠ some k := by
    intro j b other full equal
    rcases where_ with ⟨c, here, sameKey⟩ | ⟨_, absent⟩
    · exact other (chained.unique j i b c k full here equal sameKey)
    · exact absent b ((mem_stored slots b).mpr ⟨j, full⟩) equal
  refine ⟨?_, ?_, ?_⟩
  · intro j b full
    by_cases other : i = j
    · subst j
      rw [List.getElem?_set_self inside] at full
      cases full
      exact ⟨k, same⟩
    · rw [List.getElem?_set_ne other] at full
      exact chained.keyed j b full
  · intro j l b c m hj hl keyB keyC
    by_cases hij : i = j <;> by_cases hil : i = l
    · omega
    · subst j
      rw [List.getElem?_set_self inside] at hj
      rw [List.getElem?_set_ne hil] at hl
      cases hj
      have equal : m = k := Option.some.inj (keyB.symm.trans same)
      exact absurd (equal ▸ keyC) (alone l c (Ne.symm hil) hl)
    · subst l
      rw [List.getElem?_set_self inside] at hl
      rw [List.getElem?_set_ne hij] at hj
      cases hl
      have equal : m = k := Option.some.inj (keyC.symm.trans same)
      exact absurd (equal ▸ keyB) (alone j b (Ne.symm hij) hj)
    · rw [List.getElem?_set_ne hij] at hj
      rw [List.getElem?_set_ne hil] at hl
      exact chained.unique j l b c m hj hl keyB keyC
  · intro j b m full keyB l hl earlier
    rw [List.length_set] at hl earlier
    by_cases hil : i = l
    · exact ⟨a, by rw [← hil, List.getElem?_set_self inside]⟩
    · rw [List.getElem?_set_ne hil]
      by_cases hij : i = j
      · subst j
        rw [List.getElem?_set_self inside] at full
        cases full
        have equal : m = k := Option.some.inj (keyB.symm.trans same)
        subst m
        obtain ⟨c, occupied, _⟩ := passed l hl earlier
        exact ⟨c, occupied⟩
      · rw [List.getElem?_set_ne hij] at full
        exact chained.reach j b m full keyB l hl earlier

end Lookup

/-- The entry at slot `j` is probed for through slot `i`. -/
def Through (slots : List (Option α)) (home : κ → Nat) (key : α → Option κ) (i : Nat) : Prop :=
  ∃ (j : Nat) (b : α) (k : κ), j ≠ i ∧ slots[j]? = some (some b) ∧ key b = some k ∧
    rank (home k) slots.length i < rank (home k) slots.length j

/-- Emptying a slot is harmless exactly when no other probe passes it. -/
theorem set_none_iff (chained : Chained slots home key) (i : Nat) (inside : i < slots.length) :
    Chained (slots.set i none) home key ↔ ¬ Through slots home key i := by
  have emptied : (slots.set i none)[i]? = some none := List.getElem?_set_self inside
  have elsewhere : ∀ (j : Nat) (b : α), (slots.set i none)[j]? = some (some b) →
      j ≠ i ∧ slots[j]? = some (some b) := by
    intro j b full
    have other : j ≠ i := by
      rintro rfl
      rw [emptied] at full
      simp at full
    rw [List.getElem?_set_ne (Ne.symm other)] at full
    exact ⟨other, full⟩
  constructor
  -- a key which was reached through the slot would meet the hole
  · rintro after ⟨j, b, k, other, full, same, earlier⟩
    have kept : (slots.set i none)[j]? = some (some b) := by
      rw [List.getElem?_set_ne (Ne.symm other)]
      exact full
    obtain ⟨c, hole⟩ := after.reach j b k kept same i (by simpa using inside)
      (by simpa using earlier)
    simp [emptied] at hole
  -- and otherwise nothing else has changed
  · intro clear
    refine ⟨?_, ?_, ?_⟩
    · intro j b full
      exact chained.keyed j b (elsewhere j b full).2
    · intro j l b c k hj hl keyB keyC
      exact chained.unique j l b c k (elsewhere j b hj).2 (elsewhere l c hl).2 keyB keyC
    · intro j b k full same l hl earlier
      obtain ⟨other, full⟩ := elsewhere j b full
      rw [List.length_set] at hl earlier
      have hil : i ≠ l := by
        rintro rfl
        exact clear ⟨j, b, k, other, full, same, earlier⟩
      rw [List.getElem?_set_ne hil]
      exact chained.reach j b k full same l hl earlier

end Chained

/-! ### The map which a table holds -/

section Entry

variable [DecidableEq κ]

/-- The entry for a key, wherever it is stored. -/
def entry (slots : List (Option α)) (key : α → Option κ) (k : κ) : Option α :=
  (stored slots).find? fun a => key a = some k

theorem entry_replicate_none (n : Nat) (key : α → Option κ) :
    entry (List.replicate n none) key = fun _ => none := by
  funext k
  simp [entry, stored_replicate_none]

theorem entry_isSome_iff (slots : List (Option α)) (key : α → Option κ) (k : κ) :
    (entry slots key k).isSome ↔ ∃ a ∈ stored slots, key a = some k := by
  simp [entry, List.find?_isSome]

theorem mem_stored_of_entry {slots : List (Option α)} {key : α → Option κ} {k : κ} {a : α}
    (found : entry slots key k = some a) : a ∈ stored slots ∧ key a = some k :=
  ⟨List.mem_of_find?_eq_some found, by simpa using List.find?_some found⟩

namespace Chained

variable {slots : List (Option α)} {home : κ → Nat} {key : α → Option κ}

theorem entry_eq_some_iff (chained : Chained slots home key) (k : κ) (a : α) :
    entry slots key k = some a ↔ a ∈ stored slots ∧ key a = some k := by
  constructor
  · exact mem_stored_of_entry
  · rintro ⟨member, same⟩
    cases found : entry slots key k with
    | none =>
      have missing := List.find?_eq_none.mp found a member
      simp [same] at missing
    | some b =>
      -- two entries with the key would be in the same slot
      obtain ⟨memberB, sameB⟩ := mem_stored_of_entry found
      obtain ⟨i, hi⟩ := (mem_stored slots a).mp member
      obtain ⟨j, hj⟩ := (mem_stored slots b).mp memberB
      obtain rfl := chained.unique i j a b k hi hj same sameB
      rw [hi] at hj
      cases hj
      rfl

/-- A table has as many entries as there are keys in its map. -/
theorem occupied_eq_length_dedup (chained : Chained slots home key) (keys : List κ)
    (same : ∀ k, (entry slots key k).isSome ↔ k ∈ keys) : occupied slots = keys.dedup.length := by
  have distinct : ((stored slots).map key).Nodup :=
    List.pairwise_map.mpr chained.pairwise
  have perm : ((stored slots).map key).Perm (keys.dedup.map some) := by
    refine (List.perm_ext_iff_of_nodup distinct
      (keys.nodup_dedup.map (Option.some_injective κ))).mpr fun key' => ?_
    simp only [List.mem_map, List.mem_dedup]
    constructor
    · rintro ⟨a, member, rfl⟩
      obtain ⟨i, full⟩ := (mem_stored slots a).mp member
      obtain ⟨k, keyA⟩ := chained.keyed i a full
      exact ⟨k, (same k).mp ((entry_isSome_iff slots key k).mpr ⟨a, member, keyA⟩), keyA.symm⟩
    · rintro ⟨k, member, rfl⟩
      exact (entry_isSome_iff slots key k).mp ((same k).mpr member)
  simpa [length_stored] using perm.length_eq

section Lookup

variable (chained : Chained slots home key) (k : κ) (accept : α → Bool)
  (decides : ∀ a ∈ stored slots, accept a = true ↔ key a = some k)
  (bound : home k < slots.length)

include chained decides bound

/-- A lookup finds the entry for its key. -/
theorem lookup_eq_entry : lookup slots slots.length (home k) accept = entry slots key k := by
  refine Option.ext fun a => ?_
  rw [chained.lookup_eq_some_iff k accept decides bound, chained.entry_eq_some_iff]

/-- The slot at which a probe stops holds the entry for its key, if there is one. -/
theorem entry_probe (i : Nat) (stop : probe slots slots.length (home k) accept = some i) :
    slots[i]?.join = entry slots key k := by
  rw [← chained.lookup_eq_entry k accept decides bound, lookup, stop]
  rfl

/-- Filling the slot at which the probe for a key stops updates the map there. -/
theorem entry_set_some (i : Nat) (stop : probe slots slots.length (home k) accept = some i)
    (a : α) (same : key a = some k) :
    entry (slots.set i (some a)) key = Function.update (entry slots key) k (some a) := by
  have inside := probe_inside slots (home k) accept bound i stop
  have after := chained.set_some k accept decides bound i stop a same
  have here : a ∈ stored (slots.set i (some a)) :=
    (mem_stored _ a).mpr ⟨i, List.getElem?_set_self inside⟩
  funext m
  by_cases this : m = k
  · subst m
    rw [Function.update_self]
    exact (after.entry_eq_some_iff k a).mpr ⟨here, same⟩
  -- another key has the same entries: no slot of it was overwritten
  · rw [Function.update_of_ne this]
    refine Option.ext fun b => ?_
    rw [after.entry_eq_some_iff, chained.entry_eq_some_iff]
    refine and_congr_left fun keyB => ?_
    constructor
    · intro member
      rcases mem_stored_set slots i (some a) b member with old | new
      · exact old
      · cases new
        exact absurd (Option.some.inj (keyB.symm.trans same)) this
    · intro member
      obtain ⟨j, full⟩ := (mem_stored slots b).mp member
      have other : i ≠ j := by
        rintro rfl
        rcases chained.probe_cases k accept decides bound i stop with ⟨c, holds, keyC⟩ | ⟨empty, _⟩
        · rw [full] at holds
          cases holds
          exact this (Option.some.inj (keyB.symm.trans keyC))
        · rw [full] at empty
          cases empty
      exact (mem_stored _ b).mpr ⟨j, by rw [List.getElem?_set_ne other, full]⟩

end Lookup

end Chained

end Entry

end LinearProbe
