import LcfgCore.Components.Component

/-!
# Component sets

A component set is a hash table of components (`components/set.c`). The
components are shared: a set holds their addresses, and `comp` is what is stored
there. The hash function is a parameter.

## Main results

`insert_spec`: while there is room an insertion updates the map from names to
components. `run_inserts_iff`: the buckets are allocated once, so that a set holds
any components if and only if they have no more than 113 names.
-/
namespace Lcfg

structure LCFGComponentSet where
  components : List (Option Addr)
  buckets : Nat
  entries : Nat
deriving DecidableEq, Repr

namespace CompSet

/-- `LCFG_COMPSET_DEFAULT_SIZE`. -/
def defaultSize : Nat := 113

/-- The structure which `lcfgcompset_new` fills in, before any buckets are allocated. -/
def blank : LCFGComponentSet := ⟨[], defaultSize, 0⟩

def new : LCFGComponentSet := { blank with components := List.replicate defaultSize none }

def isEmpty (set : LCFGComponentSet) : Bool := set.entries == 0

section Insert

variable (hash : String → Nat) (comp : Addr → LCFGComponent)

def home (buckets : Nat) (name : String) : Nat := hash name % buckets

def nameOf (a : Addr) : String := (comp a).name.getD ""

def insertComponent (set : LCFGComponentSet) (new : Option Addr) :
    LCFGComponentSet × LCFGChange :=
  match new.filter fun a => Component.isValid (comp a) with
  | none => (set, .error)
  | some new =>
    match LinearProbe.probe set.components set.buckets
        (home hash set.buckets (nameOf comp new))
        (fun a => Component.sameName (comp new) (comp a)) with
    | none => (set, .error)
    | some i =>
      let components := set.components.set i (some new)
      if set.components[i]?.join.isNone then
        ({ set with components, entries := set.entries + 1 }, .added)
      else ({ set with components }, .replaced)

def findComponent (set : LCFGComponentSet) (wantName : String) : Option Addr :=
  if isEmpty set then none
  else
    LinearProbe.lookup set.components set.buckets (home hash set.buckets wantName)
      (fun a => Component.isMatch (comp a) wantName)

/-- Is the load factor at or over `LCFG_COMPSET_LOAD_MAX`? -/
def overloaded (set : LCFGComponentSet) : Bool := 10 * set.entries ≥ 7 * set.buckets

/-- Puts the components of the old buckets into the new ones; the process ends
(`none`) if one is refused. -/
def transfer (set : LCFGComponentSet) : List (Option Addr) → Option LCFGComponentSet
  | [] => some set
  | none :: rest => transfer set rest
  | some a :: rest =>
    match insertComponent hash comp set (some a) with
    | (_, .error) => none
    | (set, _) => transfer set rest

/-- `lcfgcompset_resize`, which only `lcfgcompset_new` calls. -/
def resize (set : LCFGComponentSet) : Option LCFGComponentSet :=
  let wantBuckets := if overloaded set then 2 * set.entries + 1 else set.buckets
  if set.components ≠ [] ∧ wantBuckets ≤ set.buckets then some set
  else
    let newSet := {
      components := List.replicate wantBuckets none, entries := 0, buckets := wantBuckets }
    transfer hash comp newSet set.components

theorem resize_blank : resize hash comp blank = some new := rfl

/-- A sequence of insertions, with the change that each one returned. -/
def insertAll (set : LCFGComponentSet) (inserted : List Addr) :
    LCFGComponentSet × List LCFGChange :=
  inserted.foldl (fun s a =>
    let (set, change) := insertComponent hash comp s.1 (some a)
    (set, s.2 ++ [change])) (set, [])

end Insert

/-! ### Sound sets -/

/-- Components are keyed by their names. -/
def key (comp : Addr → LCFGComponent) (a : Addr) : Option String := some (nameOf comp a)

/-- A set as the operations keep it: a well-formed table of valid components,
with as many buckets as at the start. -/
structure Sound (hash : String → Nat) (comp : Addr → LCFGComponent) (set : LCFGComponentSet) :
    Prop where
  buckets_eq : set.buckets = set.components.length
  length_eq : set.components.length = defaultSize
  entries_eq : set.entries = LinearProbe.occupied set.components
  valid : ∀ a ∈ LinearProbe.stored set.components, Component.isValid (comp a) = true
  chained : LinearProbe.Chained set.components (home hash set.components.length) (key comp)

/-- What a set holds, as a map from names to components. -/
def entry (comp : Addr → LCFGComponent) (set : LCFGComponentSet) : String → Option Addr :=
  LinearProbe.entry set.components (key comp)

variable {hash : String → Nat} {comp : Addr → LCFGComponent}

theorem new_sound : Sound hash comp new where
  buckets_eq := rfl
  length_eq := List.length_replicate
  entries_eq := (LinearProbe.occupied_replicate_none defaultSize).symm
  valid := by simp [new, LinearProbe.stored_replicate_none]
  chained := LinearProbe.chained_replicate_none _ _ _

theorem entry_new (name : String) : entry comp new name = none := by
  rw [entry, new, LinearProbe.entry_replicate_none]

private theorem sameName_iff (new a : Addr) :
    Component.sameName (comp new) (comp a) = true ↔ key comp a = some (nameOf comp new) := by
  rw [Component.sameName, decide_eq_true_iff, strcmp_eq_zero, orDefault_empty, orDefault_empty,
    key, Option.some_inj]
  exact eq_comm

private theorem isMatch_iff (a : Addr) (name : String) :
    Component.isMatch (comp a) name = true ↔ key comp a = some name := by
  simp [Component.isMatch, key, nameOf]

namespace Sound

variable {set : LCFGComponentSet}

theorem entries_le (sound : Sound hash comp set) : set.entries ≤ defaultSize := by
  rw [sound.entries_eq, ← sound.length_eq]
  exact LinearProbe.occupied_le set.components

private theorem home_lt (sound : Sound hash comp set) (name : String) :
    home hash set.components.length name < set.components.length := by
  apply Nat.mod_lt
  rw [sound.length_eq]
  decide

/-- The lookup finds what the map holds. -/
theorem findComponent_eq (sound : Sound hash comp set) (name : String) :
    findComponent hash comp set name = entry comp set name := by
  unfold findComponent
  cases empty : isEmpty set with
  | false =>
    rw [if_neg Bool.false_ne_true, sound.buckets_eq]
    exact sound.chained.lookup_eq_entry name _ (fun a _ => isMatch_iff a name) (sound.home_lt name)
  | true =>
    -- without entries the search is not even begun
    have nothing : LinearProbe.stored set.components = [] := by
      rw [← List.length_eq_zero_iff, LinearProbe.length_stored, ← sound.entries_eq]
      simpa [isEmpty] using empty
    simp [entry, LinearProbe.entry, nothing]

/-- Filling the bucket at which the probe for the name stops. -/
private theorem set_sound (sound : Sound hash comp set) {new : Addr} {i : Nat}
    (valid : Component.isValid (comp new) = true)
    (stop : LinearProbe.probe set.components set.components.length
      (home hash set.components.length (nameOf comp new))
      (fun a => Component.sameName (comp new) (comp a)) = some i) :
    let entries := if set.components[i]?.join.isNone then set.entries + 1 else set.entries
    let set' := { set with components := set.components.set i (some new), entries }
    Sound hash comp set' ∧
      entry comp set' = Function.update (entry comp set) (nameOf comp new) (some new) := by
  intro entries set'
  have decides : ∀ a ∈ LinearProbe.stored set.components,
      (Component.sameName (comp new) (comp a) = true ↔ key comp a = some (nameOf comp new)) :=
    fun a _ => sameName_iff new a
  have bound := sound.home_lt (nameOf comp new)
  have inside := LinearProbe.probe_inside _ _ _ bound i stop
  have size : set'.components.length = set.components.length := List.length_set
  refine ⟨⟨?_, ?_, ?_, ?_, ?_⟩, ?_⟩
  · rw [size]
    exact sound.buckets_eq
  · rw [size]
    exact sound.length_eq
  -- the count goes up only where the slot was empty
  · have counted := LinearProbe.occupied_set set.components i inside (some new)
    simp only [set', entries, List.getElem?_eq_getElem inside, Option.join_some]
    cases before : set.components[i] with
    | none => simp_all [sound.entries_eq]
    | some a => simp_all [sound.entries_eq]
  · intro a member
    rcases LinearProbe.mem_stored_set _ _ _ a member with old | same
    · exact sound.valid a old
    · cases same
      exact valid
  · rw [size]
    exact sound.chained.set_some _ _ decides bound i stop new rfl
  · exact sound.chained.entry_set_some _ _ decides bound i stop new rfl

end Sound

/-- Spec of an insertion: the map is updated unless the table is full, with
components of other names. -/
theorem insert_spec {set : LCFGComponentSet} (sound : Sound hash comp set) (new : Addr)
    (valid : Component.isValid (comp new) = true) :
    let r := insertComponent hash comp set (some new)
    Sound hash comp r.1 ∧
      (entry comp set (nameOf comp new) ≠ none ∨ set.entries < defaultSize →
        (r.2 = .added ∨ r.2 = .replaced) ∧
        entry comp r.1 = Function.update (entry comp set) (nameOf comp new) (some new)) := by
  have bound := sound.home_lt (nameOf comp new)
  cases stop : LinearProbe.probe set.components set.buckets
      (home hash set.buckets (nameOf comp new))
      (fun a => Component.sameName (comp new) (comp a)) with
  | some i =>
    have placed := stop
    rw [sound.buckets_eq] at placed
    obtain ⟨good, updated⟩ := sound.set_sound valid placed
    simp only [insertComponent, Option.filter_some, valid, if_true, stop]
    cases empty : set.components[i]?.join.isNone with
    | true =>
      simp only [empty, if_true] at good updated
      exact ⟨good, fun _ => ⟨.inl rfl, updated⟩⟩
    | false =>
      simp only [empty] at good updated
      exact ⟨good, fun _ => ⟨.inr rfl, updated⟩⟩
  | none =>
    simp only [insertComponent, Option.filter_some, valid, if_true, stop]
    refine ⟨sound, fun room => ?_⟩
    rw [sound.buckets_eq] at stop
    have full := (LinearProbe.probe_eq_none_iff _ _ _ bound).mp stop
    -- a probe with no result has seen every slot, and none was empty
    rcases room with known | room
    · obtain ⟨a, found⟩ := Option.ne_none_iff_exists'.mp known
      obtain ⟨member, same⟩ := LinearProbe.mem_stored_of_entry found
      obtain ⟨i, here⟩ := (LinearProbe.mem_stored _ a).mp member
      obtain ⟨b, there, differs⟩ := full i (List.getElem?_eq_some_iff.mp here).1
      rw [here] at there
      cases there
      rw [(sameName_iff new a).mpr same] at differs
      cases differs
    · rw [sound.entries_eq, ← sound.length_eq] at room
      obtain ⟨i, empty⟩ := LinearProbe.exists_empty set.components room
      obtain ⟨b, there, -⟩ := full i (List.getElem?_eq_some_iff.mp empty).1
      rw [empty] at there
      cases there

/-- An insertion which is accepted updates the map. -/
theorem insert_updates {set : LCFGComponentSet} (sound : Sound hash comp set) (new : Addr)
    (valid : Component.isValid (comp new) = true)
    (ok : (insertComponent hash comp set (some new)).2 ≠ .error) :
    entry comp (insertComponent hash comp set (some new)).1 =
      Function.update (entry comp set) (nameOf comp new) (some new) := by
  cases stop : LinearProbe.probe set.components set.buckets
      (home hash set.buckets (nameOf comp new))
      (fun a => Component.sameName (comp new) (comp a)) with
  | none =>
    have refused : (insertComponent hash comp set (some new)).2 = .error := by
      simp only [insertComponent, Option.filter_some, valid, if_true, stop]
    exact absurd refused ok
  | some i =>
    have placed := stop
    rw [sound.buckets_eq] at placed
    have updated := (sound.set_sound valid placed).2
    simp only [insertComponent, Option.filter_some, valid, if_true, stop]
    cases empty : set.components[i]?.join.isNone <;> simp only [empty] at updated <;> exact updated

/-! ### Runs of insertions -/

/-- The component inserted last under a name. -/
def lastInserted (comp : Addr → LCFGComponent) (inserted : List Addr) (name : String) :
    Option Addr :=
  inserted.reverse.find? fun a => nameOf comp a = name

/-- The names of the components, each once. -/
def names (comp : Addr → LCFGComponent) (inserted : List Addr) : List String :=
  (inserted.map (nameOf comp)).dedup

/-- What is promised for a sequence of insertions into a new set. -/
structure HoldsAll (hash : String → Nat) (comp : Addr → LCFGComponent) (inserted : List Addr) :
    Prop where
  changes : ∀ change ∈ (insertAll hash comp new inserted).2, change = .added ∨ change = .replaced
  finds : ∀ name, findComponent hash comp (insertAll hash comp new inserted).1 name =
    lastInserted comp inserted name
  entries : (insertAll hash comp new inserted).1.entries = (names comp inserted).length

private theorem insertAll_append (set : LCFGComponentSet) (inserted : List Addr) (a : Addr) :
    insertAll hash comp set (inserted ++ [a]) =
      ((insertComponent hash comp (insertAll hash comp set inserted).1 (some a)).1,
        (insertAll hash comp set inserted).2 ++
          [(insertComponent hash comp (insertAll hash comp set inserted).1 (some a)).2]) := by
  simp [insertAll]

private theorem lastInserted_append (inserted : List Addr) (a : Addr) :
    lastInserted comp (inserted ++ [a]) =
      Function.update (lastInserted comp inserted) (nameOf comp a) (some a) := by
  funext name
  by_cases same : name = nameOf comp a
  · simp [lastInserted, same]
  · simp [lastInserted, same, Ne.symm same]

private theorem lastInserted_isSome_iff (inserted : List Addr) (name : String) :
    (lastInserted comp inserted name).isSome ↔ name ∈ inserted.map (nameOf comp) := by
  simp [lastInserted, List.find?_isSome]

/-- Run lemma: a set which holds the components inserted last has one entry for
each name. -/
private theorem entries_eq_names {set : LCFGComponentSet} (sound : Sound hash comp set)
    {inserted : List Addr} (holds : entry comp set = lastInserted comp inserted) :
    set.entries = (names comp inserted).length := by
  rw [sound.entries_eq]
  apply sound.chained.occupied_eq_length_dedup
  intro name
  rw [← lastInserted_isSome_iff, ← holds]
  rfl

theorem insertAll_sound (inserted : List Addr)
    (valid : ∀ a ∈ inserted, Component.isValid (comp a) = true) :
    Sound hash comp (insertAll hash comp new inserted).1 := by
  induction inserted using List.reverseRecOn with
  | nil => exact new_sound
  | append_singleton before a ih =>
    rw [insertAll_append]
    have sound := ih fun b member => valid b (List.mem_append_left _ member)
    exact (insert_spec sound a (valid a (by simp))).1

/-- Run lemma: as long as the names fit, every insertion is accepted. -/
theorem insertAll_spec (inserted : List Addr)
    (valid : ∀ a ∈ inserted, Component.isValid (comp a) = true)
    (fits : (names comp inserted).length ≤ defaultSize) :
    (∀ change ∈ (insertAll hash comp new inserted).2, change = .added ∨ change = .replaced) ∧
      entry comp (insertAll hash comp new inserted).1 = lastInserted comp inserted := by
  induction inserted using List.reverseRecOn with
  | nil => exact ⟨by simp [insertAll], funext entry_new⟩
  | append_singleton before a ih =>
    have validBefore := fun b (member : b ∈ before) => valid b (List.mem_append_left _ member)
    have sound : Sound hash comp (insertAll hash comp new before).1 :=
      insertAll_sound before validBefore
    have sub : names comp before ⊆ names comp (before ++ [a]) := by
      intro name member
      simp only [names, List.mem_dedup, List.map_append, List.mem_append] at member ⊢
      exact .inl member
    have fewer := ((List.nodup_dedup _).subperm sub).length_le
    obtain ⟨changes, holds⟩ := ih validBefore (fewer.trans fits)
    -- a new name is one more than the names before
    have room : entry comp (insertAll hash comp new before).1 (nameOf comp a) ≠ none ∨
        (insertAll hash comp new before).1.entries < defaultSize := by
      by_cases known : nameOf comp a ∈ before.map (nameOf comp)
      · left
        rw [holds, ← Option.isSome_iff_ne_none]
        exact (lastInserted_isSome_iff before _).mpr known
      · right
        rw [entries_eq_names sound holds]
        have isNew : nameOf comp a ∉ names comp before := fun member =>
          known (List.mem_dedup.mp member)
        have distinct : (nameOf comp a :: names comp before).Nodup :=
          List.nodup_cons.mpr ⟨isNew, List.nodup_dedup _⟩
        have more := (distinct.subperm (List.cons_subset.mpr ⟨by simp [names], sub⟩)).length_le
        rw [List.length_cons] at more
        omega
    obtain ⟨change, updated⟩ := (insert_spec sound a (valid a (by simp))).2 room
    rw [insertAll_append]
    refine ⟨?_, ?_⟩
    · intro c member
      rcases List.mem_append.mp member with old | new
      · exact changes c old
      · rw [List.mem_singleton.mp new]
        exact change
    · rw [updated, holds, lastInserted_append]

/-- A set holds any number of components if and only if they have no more names
than there are buckets at the start. -/
theorem run_inserts_iff (hash : String → Nat) (comp : Addr → LCFGComponent)
    (inserted : List Addr) (valid : ∀ a ∈ inserted, Component.isValid (comp a) = true) :
    HoldsAll hash comp inserted ↔ (names comp inserted).length ≤ defaultSize := by
  have sound : Sound hash comp (insertAll hash comp new inserted).1 :=
    insertAll_sound inserted valid
  constructor
  · intro holds
    rw [← holds.entries]
    exact sound.entries_le
  · intro fits
    obtain ⟨changes, holds⟩ := insertAll_spec inserted valid fits
    refine ⟨changes, fun name => ?_, entries_eq_names sound holds⟩
    rw [sound.findComponent_eq, holds]

/-- Components `caa`, `cab`, ... with different names. -/
def sampleComponent (a : Addr) : LCFGComponent :=
  let letter (n : Nat) : Char := Char.ofNat (97 + n % 26)
  { Component.new with name := some (String.ofList ['c', letter (a / 26), letter a]) }

theorem sample_holds : HoldsAll djbhash sampleComponent [0, 1, 2, 1] :=
  (run_inserts_iff djbhash sampleComponent [0, 1, 2, 1] (by decide +kernel)).mpr (by decide +kernel)

/-- The component of the 114th name finds no free bucket. -/
theorem sample_not_holds :
    (∀ a ∈ List.range 114, Component.isValid (sampleComponent a) = true) ∧
      ¬ HoldsAll djbhash sampleComponent (List.range 114) := by
  refine ⟨by decide +kernel, fun holds => ?_⟩
  have refused : LCFGChange.error ∈
      (insertAll djbhash sampleComponent new (List.range 114)).2 := by decide +kernel
  have accepted := holds.changes _ refused
  simp at accepted

end CompSet
end Lcfg
