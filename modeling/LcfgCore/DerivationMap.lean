import LcfgCore.DerivationText
import LcfgCore.Library.IdTable

/-!
# The map of derivations

Derivations which were parsed once are looked up by a 64-bit hash of their text
(`common/derivation/map.c`). The hash is `farmhash64`, of which nothing is assumed:
two texts with the same hash share one derivation.
-/
namespace Lcfg

/-- A derivation in the map has the hash of its text for its identifier. -/
structure LCFGDerivationMap where
  derivations : List (Option (Nat × LCFGDerivationList))
  entries : Nat
  buckets : Nat
deriving DecidableEq, Repr

namespace DerivMap

/-- `LCFG_DRVMAP_DEFAULT_SIZE`. -/
def defaultSize : Nat := 1999

def emptied (buckets : Nat) : LCFGDerivationMap := ⟨List.replicate buckets none, 0, buckets⟩

def new : LCFGDerivationMap := emptied defaultSize

/-- Is the load factor at or over `LCFG_DRVMAP_LOAD_MAX`? -/
def overloaded (drvmap : LCFGDerivationMap) : Bool := 10 * drvmap.entries ≥ 7 * drvmap.buckets

/-- The number of buckets for a load factor below `LCFG_DRVMAP_LOAD_INIT`. -/
def wantBuckets (entries : Nat) : Nat := 2 * entries + 1

/-- The first slot which is free or has the identifier. -/
def slotOf (drvmap : LCFGDerivationMap) (id : Nat) : Option Nat :=
  LinearProbe.probe drvmap.derivations drvmap.buckets (id % drvmap.buckets) fun d => d.1 == id

def put (drvmap : LCFGDerivationMap) (slot : Nat) (d : Nat × LCFGDerivationList) :
    LCFGDerivationMap :=
  { drvmap with
    derivations := drvmap.derivations.set slot (some d)
    entries := if drvmap.derivations[slot]?.join.isNone then drvmap.entries + 1 else drvmap.entries }

/-- `lcfgdrvmap_insert_list`, which only a growth calls. The new table is at most half
full then, so the growth which is called for at its end does nothing. -/
def insertList (drvmap : LCFGDerivationMap) (d : Nat × LCFGDerivationList) :
    Option LCFGDerivationMap :=
  if d.2 = [] then some drvmap else (slotOf drvmap d.1).map fun slot => put drvmap slot d

/-- `lcfgderivmap_resize` ends the process when an insertion fails. -/
def resize (drvmap : LCFGDerivationMap) : Option LCFGDerivationMap :=
  let want := if overloaded drvmap then wantBuckets drvmap.entries else drvmap.buckets
  if want ≤ drvmap.buckets then some drvmap
  else (LinearProbe.stored drvmap.derivations).foldlM insertList (emptied want)

/-- What a lookup comes to: the derivation, a message if there is one, or the end of
the process. -/
inductive Found where
  | list (drvlist : LCFGDerivationList) (drvmap : LCFGDerivationMap)
  | failed (msg : Option String)
  | exit
deriving DecidableEq, Repr

/-- `lcfgderivmap_find_or_insert_string` -/
def findOrInsertString (farmhash64 : String → Nat) (drvmap : LCFGDerivationMap)
    (derivAsStr : String) : Found :=
  if derivAsStr = "" then .failed "Empty derivation"
  else
    let id := farmhash64 derivAsStr
    match slotOf drvmap id with
    | none => .failed "No free space for new entries in derivation map"
    | some slot =>
      match drvmap.derivations[slot]?.join with
      | some d => .list d.2 drvmap
      | none =>
        match DerivList.fromString derivAsStr.toList with
        | .error msg => .failed msg
        | .ok drvlist =>
          if drvlist = [] then .failed none
          else
            match resize (put drvmap slot (id, drvlist)) with
            | none => .exit
            | some drvmap => .list drvlist drvmap

/-! ## Well-formed maps -/

/-- The derivation for an identifier. -/
def lookup (drvmap : LCFGDerivationMap) (id : Nat) : Option LCFGDerivationList :=
  (LinearProbe.entry drvmap.derivations (fun d => some d.1) id).map Prod.snd

structure Tabled (drvmap : LCFGDerivationMap) : Prop where
  buckets_eq : drvmap.buckets = drvmap.derivations.length
  pos : 0 < drvmap.derivations.length
  entries_eq : drvmap.entries = LinearProbe.occupied drvmap.derivations
  some_ : ∀ d ∈ LinearProbe.stored drvmap.derivations, d.2 ≠ []
  chained : LinearProbe.Chained drvmap.derivations (fun id => id % drvmap.derivations.length)
    fun d => some d.1

/-- A map as the operations leave it, with slots to spare. -/
structure Sound (drvmap : LCFGDerivationMap) : Prop extends Tabled drvmap where
  load : overloaded drvmap = false

section Spec

variable {drvmap : LCFGDerivationMap} {id slot : Nat} {d : Nat × LCFGDerivationList}

/-- The table alone. -/
def table (drvmap : LCFGDerivationMap) : IdTable.Table (Nat × LCFGDerivationList) :=
  ⟨drvmap.derivations, drvmap.entries, drvmap.buckets⟩

theorem Tabled.table (tabled : Tabled drvmap) : IdTable.Tabled Prod.fst (table drvmap) :=
  ⟨tabled.buckets_eq, tabled.pos, tabled.entries_eq, tabled.chained⟩

theorem tabled_of_table (tabled : IdTable.Tabled Prod.fst (table drvmap))
    (some_ : ∀ d ∈ LinearProbe.stored drvmap.derivations, d.2 ≠ []) : Tabled drvmap :=
  ⟨tabled.buckets_eq, tabled.pos, tabled.entries_eq, some_, tabled.chained⟩

theorem lookup_eq (drvmap : LCFGDerivationMap) (id : Nat) :
    lookup drvmap id = (IdTable.lookup Prod.fst (table drvmap) id).map Prod.snd := rfl

theorem Tabled.slotOf_spec (tabled : Tabled drvmap) (found : slotOf drvmap id = some slot) :
    slot < drvmap.derivations.length ∧
      drvmap.derivations[slot]?.join =
        LinearProbe.entry drvmap.derivations (fun d => some d.1) id :=
  tabled.table.slotOf_spec found

theorem Tabled.slotOf_isSome (tabled : Tabled drvmap) (id : Nat)
    (room : drvmap.entries < drvmap.derivations.length) : ∃ slot, slotOf drvmap id = some slot :=
  tabled.table.slotOf_isSome id room

theorem Tabled.put_spec (tabled : Tabled drvmap) (found : slotOf drvmap d.1 = some slot)
    (some_ : d.2 ≠ []) :
    Tabled (put drvmap slot d) ∧
      lookup (put drvmap slot d) = Function.update (lookup drvmap) d.1 (some d.2) := by
  obtain ⟨good, updated⟩ := tabled.table.put_spec found
  refine ⟨tabled_of_table good fun other member => ?_, ?_⟩
  · rcases LinearProbe.mem_stored_set _ _ _ other member with old | same
    · exact tabled.some_ other old
    · cases same
      exact some_
  · funext id
    have entry : lookup (put drvmap slot d) id =
        (Function.update (IdTable.lookup Prod.fst (DerivMap.table drvmap)) d.1 (some d) id).map
          Prod.snd := by
      rw [← updated]
      rfl
    rw [entry]
    by_cases same : id = d.1
    · rw [same, Function.update_self, Function.update_self]
      rfl
    · rw [Function.update_of_ne same, Function.update_of_ne same]
      rfl

theorem new_sound : Sound new := by
  refine ⟨tabled_of_table (IdTable.emptied_tabled (by decide)) ?_, by decide⟩
  simp [new, emptied, LinearProbe.stored_replicate_none]

theorem lookup_emptied (buckets : Nat) : lookup (emptied buckets) = fun _ => none := by
  funext id
  rw [lookup, emptied, LinearProbe.entry_replicate_none]
  rfl

/-- Lists which are not empty are inserted like any entries. -/
private theorem insertAll_eq (more : List (Nat × LCFGDerivationList))
    (some_ : ∀ d ∈ more, d.2 ≠ []) (drvmap : LCFGDerivationMap) :
    more.foldlM insertList drvmap = (more.foldlM (IdTable.insert Prod.fst) (table drvmap)).map
      fun t => ⟨t.slots, t.entries, t.buckets⟩ := by
  induction more generalizing drvmap with
  | nil => rfl
  | cons d more ih =>
    have step : insertList drvmap d = (IdTable.insert Prod.fst (table drvmap) d).map
        fun t => ⟨t.slots, t.entries, t.buckets⟩ := by
      rw [insertList, if_neg (some_ d List.mem_cons_self), IdTable.insert, Option.map_map]
      rfl
    rw [List.foldlM_cons, List.foldlM_cons, step]
    cases IdTable.insert Prod.fst (table drvmap) d with
    | none => rfl
    | some t => exact ih (fun other member => some_ other (List.mem_cons_of_mem d member)) _

theorem Tabled.resize_spec (tabled : Tabled drvmap) :
    ∃ grown, resize drvmap = some grown ∧ Sound grown ∧ lookup grown = lookup drvmap := by
  unfold resize
  cases heavy : overloaded drvmap with
  | false => exact ⟨drvmap, by simp, ⟨tabled, heavy⟩, rfl⟩
  | true =>
    have grows : ¬ wantBuckets drvmap.entries ≤ drvmap.buckets := by
      have load := of_decide_eq_true heavy
      have pos := tabled.pos
      have size := tabled.buckets_eq
      rw [wantBuckets]
      omega
    obtain ⟨filled, run, good, buckets, few, content⟩ := tabled.table.rebuilt_spec
      (Nat.succ_pos _ : 0 < wantBuckets drvmap.entries)
      (by simp only [DerivMap.table]; omega)
    refine ⟨⟨filled.slots, filled.entries, filled.buckets⟩, ?_, ⟨tabled_of_table good ?_, ?_⟩, ?_⟩
    · simp only [if_true, if_neg grows, insertAll_eq _ tabled.some_]
      exact congrArg (Option.map _) run
    · intro d member
      have there := (IdTable.lookup_eq_some_iff good).mpr ⟨member, rfl⟩
      rw [content] at there
      exact tabled.some_ d ((IdTable.lookup_eq_some_iff tabled.table).mp there).1
    · simp only [DerivMap.table, overloaded, decide_eq_false_iff_not] at few buckets ⊢
      rw [buckets]
      omega
    · funext id
      rw [lookup_eq, lookup_eq, ← content]
      rfl

theorem Sound.room (sound : Sound drvmap) : drvmap.entries < drvmap.derivations.length := by
  have load := sound.load
  have pos := sound.pos
  simp only [overloaded, decide_eq_false_iff_not, sound.buckets_eq] at load
  omega

/-- A text with the identifier of an earlier one gets the derivation of that one. -/
theorem Sound.findOrInsertString_spec (sound : Sound drvmap) (farmhash64 : String → Nat)
    {text : String} (some_ : text ≠ "") :
    (∀ drvlist, lookup drvmap (farmhash64 text) = some drvlist →
      findOrInsertString farmhash64 drvmap text = .list drvlist drvmap) ∧
    (lookup drvmap (farmhash64 text) = none →
      (∀ msg, DerivList.fromString text.toList = .error msg →
        findOrInsertString farmhash64 drvmap text = .failed msg) ∧
      ∀ drvlist, DerivList.fromString text.toList = .ok drvlist → drvlist ≠ [] →
        ∃ drvmap', findOrInsertString farmhash64 drvmap text = .list drvlist drvmap' ∧
          Sound drvmap' ∧ lookup drvmap' =
            Function.update (lookup drvmap) (farmhash64 text) (some drvlist)) := by
  obtain ⟨slot, found⟩ := sound.slotOf_isSome (farmhash64 text) sound.room
  obtain ⟨-, here⟩ := sound.slotOf_spec found
  constructor
  · intro drvlist stored
    obtain ⟨d, entry, rfl⟩ := Option.map_eq_some_iff.mp stored
    rw [entry] at here
    rw [findOrInsertString, if_neg some_]
    simp only [found, here]
  · intro absent
    rw [Option.map_eq_none_iff.mp absent] at here
    constructor
    · intro msg parsed
      rw [findOrInsertString, if_neg some_]
      simp only [found, here, parsed]
    -- the list is put into the slot, and then the table may grow
    · intro drvlist parsed someList
      obtain ⟨good, updated⟩ := sound.put_spec (d := (farmhash64 text, drvlist)) found someList
      obtain ⟨grown, run, sound', same⟩ := good.resize_spec
      refine ⟨grown, ?_, sound', same.trans updated⟩
      rw [findOrInsertString, if_neg some_]
      simp only [found, here, parsed, if_neg someList, run]

theorem Sound.lookup_ne_nil (sound : Sound drvmap) {drvlist : LCFGDerivationList}
    (stored : lookup drvmap id = some drvlist) : drvlist ≠ [] := by
  obtain ⟨d, entry, rfl⟩ := Option.map_eq_some_iff.mp stored
  exact sound.some_ d (LinearProbe.mem_stored_of_entry entry).1

/-- All that can come of a lookup which gives a derivation. -/
theorem Sound.findOrInsertString_list (sound : Sound drvmap) {farmhash64 : String → Nat}
    {text : String} {drvlist : LCFGDerivationList} {drvmap' : LCFGDerivationMap}
    (found : findOrInsertString farmhash64 drvmap text = .list drvlist drvmap') :
    text ≠ "" ∧ drvlist ≠ [] ∧
      (lookup drvmap (farmhash64 text) = some drvlist ∧ drvmap' = drvmap ∨
        lookup drvmap (farmhash64 text) = none ∧
          DerivList.fromString text.toList = .ok drvlist ∧ Sound drvmap' ∧
          lookup drvmap' = Function.update (lookup drvmap) (farmhash64 text) (some drvlist)) := by
  have some_ : text ≠ "" := by
    rintro rfl
    rw [findOrInsertString, if_pos rfl] at found
    cases found
  refine ⟨some_, ?_⟩
  obtain ⟨old, new⟩ := sound.findOrInsertString_spec farmhash64 some_
  cases there : lookup drvmap (farmhash64 text) with
  | some stored =>
    rw [old stored there] at found
    cases found
    exact ⟨sound.lookup_ne_nil there, .inl ⟨rfl, rfl⟩⟩
  | none =>
    obtain ⟨failed, added⟩ := new there
    cases parsed : DerivList.fromString text.toList with
    | error msg =>
      rw [failed msg parsed] at found
      cases found
    | ok read =>
      -- an empty list is reported as an error, and not stored
      have someList : read ≠ [] := by
        rintro rfl
        obtain ⟨slot, stop⟩ := sound.slotOf_isSome (farmhash64 text) sound.room
        obtain ⟨-, here⟩ := sound.slotOf_spec stop
        rw [Option.map_eq_none_iff.mp there] at here
        rw [findOrInsertString, if_neg some_] at found
        simp only [stop, here, parsed, if_pos] at found
        cases found
      obtain ⟨grown, run, sound', updated⟩ := added read parsed someList
      rw [run] at found
      cases found
      exact ⟨someList, .inr ⟨rfl, rfl, sound', updated⟩⟩

end Spec

end DerivMap

end Lcfg
