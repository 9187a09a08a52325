import LcfgCore.Components.Family

/-!
# Copies of a component

`lcfgcomponent_clone` and `lcfgcomponent_select` (`component.c`) make a component
which shares the lists of another. Both set the number of buckets of the copy
before they call for a growth, which is then not carried out.

## Main result

`copies_iff`: a copy is whole if and only if it needs no more buckets than a new
component has.
-/
namespace Lcfg
namespace Component

open RefCount (Counts Agree)
open ResList (Plain)
open PlainComponent (Tabled Sound ListFor lists insert)

variable {hash : String → Nat} {res : Addr → LCFGResource} {rest : Multiset Addr}

/-- The list found for a name, with what it holds. -/
def found (hash : String → Nat) (res : Addr → LCFGResource) (s : CompState) (name : String) :
    Except Fault (Option Plain) :=
  (findList hash res s name).map (Option.map (plainAt s.heap))

/-- The clone finds what the original finds, and its array has as many buckets as it says. -/
def Clones (hash : String → Nat) (res : Addr → LCFGResource) (s : CompState) : Prop :=
  ∃ heap copy, clone hash res s.heap s.comp = .ok (heap, some copy) ∧
    copy.buckets = copy.resources.length ∧
    ∀ name, found hash res ⟨heap, copy⟩ name = found hash res s name

/-- The same for the resources of the wanted names. -/
def Selects (hash : String → Nat) (res : Addr → LCFGResource) (s : CompState)
    (resWanted : List String) : Prop :=
  ∀ allowNoexist msg, ∃ heap copy msg',
    select hash res s.heap s.comp resWanted allowNoexist msg = .ok (heap, some copy, msg') ∧
    copy.buckets = copy.resources.length ∧
    ∀ name, found hash res ⟨heap, copy⟩ name =
      if name ∈ resWanted then found hash res s name else .ok none

/-! ### Buckets for a copy -/

/-- The copy before any list is inserted: the array is never made larger. -/
def allocated (comp : LCFGComponent) (entries : Nat) : LCFGComponent :=
  { new with
    name := comp.name.filter (· ≠ ""), primaryKey := comp.primaryKey
    mergeRules := comp.mergeRules
    buckets := if wantBuckets entries > defaultSize then wantBuckets entries else defaultSize }

theorem preallocate_eq (heap : ListHeap) (comp : LCFGComponent) (entries : Nat) :
    preallocate hash res heap comp entries = .ok ⟨heap, allocated comp entries⟩ := by
  unfold preallocate allocated
  have size : (new : LCFGComponent).buckets = defaultSize := rfl
  simp only [size]
  split
  · -- there are no entries yet, so the table does not seem to need a growth
    have light (copy : LCFGComponent) (none_ : copy.entries = 0)
        (wide : copy.buckets = wantBuckets entries) : overloaded copy = false := by
      rw [overloaded, none_, wide, wantBuckets]
      exact decide_eq_false (by omega)
    have some_ : (new : LCFGComponent).resources ≠ [] := by
      refine List.ne_nil_of_length_pos ?_
      rw [new, List.length_replicate]
      decide
    rw [resize, if_pos]
    refine ⟨some_, ?_⟩
    rw [light _ rfl rfl, if_neg Bool.false_ne_true]
  · rfl

/-- Once the buckets of the copy are more than the array has, they remain so. -/
structure Oversized (n : Nat) (s : CompState) : Prop where
  buckets : s.comp.buckets = wantBuckets n
  length : s.comp.resources.length = defaultSize

theorem allocated_oversized {comp : LCFGComponent} {n : Nat} (large : 56 < n) (heap : ListHeap) :
    Oversized n ⟨heap, allocated comp n⟩ where
  buckets := by
    have more : wantBuckets n > defaultSize := by
      simp only [wantBuckets, defaultSize]
      omega
    simp [allocated, more]
  length := List.length_replicate

theorem Oversized.ne {n : Nat} {s : CompState} (bigger : Oversized n s) (large : 56 < n) :
    s.comp.buckets ≠ s.comp.resources.length := by
  rw [bigger.buckets, bigger.length, wantBuckets, defaultSize]
  omega

/-- Inserting a list fills at most one bucket, and keeps the array as large as it is. -/
theorem insertList_shape {s s' : CompState} {list : Option Addr} {change : LCFGChange}
    (done : insertList hash res s list = .ok (s', change)) :
    s'.comp.buckets = s.comp.buckets ∧ s'.comp.resources.length = s.comp.resources.length ∧
      s'.comp.entries ≤ s.comp.entries + 1 := by
  -- only a list put into the table can add an entry, and at most one
  have ofSet {i : Nat} {a : Addr} (written : setBucket s i (some a) = .ok (s', change)) :
      s'.comp.buckets = s.comp.buckets ∧ s'.comp.resources.length = s.comp.resources.length ∧
        s'.comp.entries ≤ s.comp.entries + 1 := by
    unfold setBucket at written
    split at written
    · cases written
    · split at written
      · cases written
        exact ⟨rfl, rfl, Nat.le_succ _⟩
      · split at written
        all_goals
          cases written
          exact ⟨rfl, List.length_set, by dsimp only; omega⟩
  unfold insertList at done
  split at done
  · cases done
    exact ⟨rfl, rfl, Nat.le_succ _⟩
  · split at done
    · cases done
      exact ⟨rfl, rfl, Nat.le_succ _⟩
    · simp only [bind, Except.bind] at done
      split at done
      · cases done
      · split at done
        · exact ofSet done
        · cases done
          exact ⟨rfl, rfl, Nat.le_succ _⟩

private theorem insertLoop_oversized {n : Nat} (slots : List (Option Addr)) (i k : Nat)
    {s s' : CompState} {change change' : LCFGChange} (bigger : Oversized n s)
    (done : forBuckets (fun s _ list => insertList hash res s.1 list) (fun s => s.2.isOk) i k slots
      (s, change) = .ok (s', change')) : Oversized n s' := by
  induction k generalizing s i slots change with
  | zero =>
    cases done
    exact bigger
  | succ k ih =>
    cases slots with
    | nil =>
      rw [forBuckets] at done
      split at done
      · cases done
      · cases done
        exact bigger
    | cons entry slots =>
      rw [forBuckets] at done
      split at done
      · simp only [bind, Except.bind] at done
        split at done
        · cases done
        · rename_i inserted
          obtain ⟨buckets, length, -⟩ := insertList_shape inserted
          exact ih slots (i + 1) ⟨buckets.trans bigger.buckets, length.trans bigger.length⟩ done
      · cases done
        exact bigger

/-! ### Inserting all lists -/

/-- The loop which shares the lists in `slots`, which are held elsewhere, with a copy. -/
private theorem insertLoop_spec (slots : List (Option Addr)) {s : CompState} (owned : Owned rest s)
    (tabled : Tabled hash res (value s)) (elsewhere : ∀ a ∈ LinearProbe.stored slots, a ∈ rest)
    (named : ∀ a ∈ LinearProbe.stored slots, ∃ name, ListFor res name (plainAt s.heap a))
    (room : s.comp.entries + (LinearProbe.stored slots).length ≤ s.comp.resources.length)
    (i : Nat) (change : LCFGChange) (ok : change.isOk = true) :
    ∃ s' change', forBuckets (fun s _ list => insertList hash res s.1 list) (fun s => s.2.isOk) i
        slots.length slots (s, change) = .ok (s', change') ∧ change'.isOk = true ∧ Owned rest s' ∧
      value s' = ((LinearProbe.stored slots).map (plainAt s.heap)).foldl (insert hash res)
        (value s) ∧ Agree rest s.heap s'.heap := by
  induction slots generalizing s i change with
  | nil => exact ⟨s, change, rfl, ok, owned, rfl, Agree.refl _ _⟩
  | cons entry slots ih =>
    cases entry with
    | none =>
      obtain ⟨s', change', run, rest_⟩ := ih owned tabled (by simpa using elsewhere)
        (by simpa using named) (by simpa using room) (i + 1) .none rfl
      refine ⟨s', change', ?_, by simpa using rest_⟩
      simpa [forBuckets, ok, insertList, bind, Except.bind] using run
    | some a =>
      simp only [LinearProbe.stored_some, List.length_cons] at elsewhere room named ⊢
      -- an empty slot costs a round of the loop and nothing else
      obtain ⟨name, holds⟩ := named a (by simp)
      obtain ⟨s₁, change₁, inserted, owned₁, value₁, agree₁, -, ok₁, -⟩ :=
        insertList_spec owned tabled (elsewhere a (by simp)) holds (by omega)
      obtain ⟨good, shape, count, -⟩ := tabled.insert_spec holds
        (by rw [value_entries, value_length]; omega)
      rw [← value₁] at good shape count
      -- the table keeps its size, and the entries grow by at most one, so that there is still room
      have size : s₁.comp.resources.length = s.comp.resources.length := by
        rw [← value_length, ← value_length, ← good.buckets_eq, shape.buckets_eq, tabled.buckets_eq]
      rw [value_entries, value_entries] at count
      have later : ∀ b ∈ LinearProbe.stored slots, b ∈ rest := fun b member =>
        elsewhere b (List.mem_cons_of_mem a member)
      have same : ∀ b ∈ LinearProbe.stored slots, plainAt s₁.heap b = plainAt s.heap b :=
        fun b member => by rw [plainAt, agree₁ b (later b member), plainAt]
      obtain ⟨s', change', run, ok', owned', values, agree⟩ := ih owned₁ good later
        (fun b member => by
          rw [same b member]
          exact named b (List.mem_cons_of_mem a member))
        (by omega) (i + 1) change₁ ok₁
      refine ⟨s', change', ?_, ok', owned', ?_, agree₁.trans agree⟩
      · simpa [forBuckets, ok, inserted, bind, Except.bind] using run
      · rw [values, value₁, List.map_cons, List.foldl_cons]
        congr 1
        exact List.map_congr_left same

/-- An empty copy owns nothing, and all references are outside. -/
private theorem allocated_owned {s : CompState} (owned : Owned rest s) (n : Nat) :
    Owned (held s.comp + rest) ⟨s.heap, allocated s.comp n⟩ := by
  have nothing : held (allocated s.comp n) = 0 := by
    simp [held, allocated, new, LinearProbe.stored_replicate_none]
  constructor
  · rw [nothing, Multiset.zero_add]
    exact owned.counts
  · rw [nothing, Multiset.zero_add]
    exact owned.wf

private theorem allocated_value {n : Nat} (small : n ≤ 56) (s : CompState) :
    Tabled hash res (value ⟨s.heap, allocated s.comp n⟩) ∧
      lists res (value ⟨s.heap, allocated s.comp n⟩) = fun _ => none := by
  have fits : ¬ wantBuckets n > defaultSize := by
    simp only [wantBuckets, defaultSize]
    omega
  have values : value ⟨s.heap, allocated s.comp n⟩ =
      PlainComponent.emptied (value ⟨s.heap, allocated s.comp n⟩) defaultSize := by
    simp [value, ComponentTable.map, allocated, fits, new, blank, PlainComponent.emptied]
  rw [values]
  exact ⟨Tabled.emptied_tabled _ (by decide), LinearProbe.entry_replicate_none _ _⟩

theorem found_eq {s : CompState} (owned : Owned rest s) (tabled : Tabled hash res (value s))
    (name : String) : found hash res s name = .ok (lists res (value s) name) := by
  obtain ⟨a, run, same, -⟩ := findList_spec owned tabled name
  rw [found, run, ← same]
  rfl

/-! ### Cloning -/

theorem clones_iff {s : CompState} (owned : Owned rest s) (sound : Sound hash res (value s))
    (named : nameIsClonable s.comp = true) : Clones hash res s ↔ s.comp.entries ≤ 56 := by
  have buckets := buckets_eq sound.toTabled
  constructor
  -- a larger table is asked for, but the resize never changes the number of buckets
  · rintro ⟨heap, copy, cloned, exact_, -⟩
    by_contra large
    have bigger : Oversized _ ⟨s.heap, allocated s.comp s.comp.entries⟩ :=
      allocated_oversized (Nat.lt_of_not_le large) s.heap
    simp only [clone, named, Bool.not_true, Bool.false_eq_true, if_false, preallocate_eq, bind,
      Except.bind] at cloned
    split at cloned
    · cases cloned
    · rename_i looped
      split at cloned
      · cases cloned
        exact (insertLoop_oversized _ _ _ bigger looped).ne (Nat.lt_of_not_le large) exact_
      · unfold Except.map at cloned
        split at cloned
        all_goals cases cloned
  · intro small
    -- the table of a copy has room for all lists
    have count : (LinearProbe.stored s.comp.resources).length = s.comp.entries := by
      have entries := sound.entries_eq
      rw [← LinearProbe.length_stored, stored_value, List.length_map, value_entries] at entries
      exact entries.symm
    have owned₀ := allocated_owned owned s.comp.entries
    obtain ⟨tabled₀, empty⟩ := @allocated_value hash res _ small s
    have room : (allocated s.comp s.comp.entries).entries +
        (LinearProbe.stored s.comp.resources).length ≤
          (allocated s.comp s.comp.entries).resources.length := by
      rw [count]
      simp only [allocated, new, blank, List.length_replicate, defaultSize]
      omega
    obtain ⟨s', change, run, ok, owned', values, -⟩ := insertLoop_spec s.comp.resources owned₀
      tabled₀ (fun a member => Multiset.mem_add.mpr (.inl (mem_held.mpr member)))
      (fun a member => listFor_of_held sound.toTabled (mem_held.mpr member)) room 0 .none rfl
    have listed : (LinearProbe.stored s.comp.resources).map (plainAt s.heap) =
        LinearProbe.stored (value s).resources := (stored_value s).symm
    rw [listed] at values
    obtain ⟨tabled', -, -, content⟩ := tabled₀.insertAll_spec
      (LinearProbe.stored (value s).resources) sound.named sound.chained.pairwise
      (by rw [stored_value, List.length_map, value_length]; exact room)
    rw [← values] at tabled' content
    refine ⟨s'.heap, s'.comp, ?_, buckets_eq tabled', fun name => ?_⟩
    · rw [← buckets] at run
      simp only [clone, named, Bool.not_true, Bool.false_eq_true, if_false, preallocate_eq, bind,
        Except.bind, run, ok, if_true]
    · rw [found_eq owned' tabled', found_eq owned sound.toTabled, content, empty, Option.or_none]
      rfl

/-! ### Selecting -/

theorem resize_light {s : CompState} (light : overloaded s.comp = false)
    (some_ : s.comp.resources ≠ []) : resize hash res s = .ok s := by
  simp [resize, light, some_]

/-- A table with so many buckets is not grown before it has so many entries. -/
private theorem Oversized.resize {n : Nat} {s : CompState} (bigger : Oversized n s)
    (few : s.comp.entries ≤ n) : resize hash res s = .ok s := by
  apply resize_light
  · refine decide_eq_false ?_
    rw [bigger.buckets, wantBuckets]
    omega
  · apply List.ne_nil_of_length_pos
    rw [bigger.length]
    decide

private theorem selectLoop_oversized {n : Nat} {comp : LCFGComponent} {allowNoexist : Bool}
    (wanted : List String) {s s' : Selection} (bigger : Oversized n s.state)
    (few : s.state.comp.entries + wanted.length ≤ n)
    (done : selectLoop hash res comp allowNoexist s wanted = .ok s') : Oversized n s'.state := by
  induction wanted generalizing s with
  | nil =>
    cases done
    exact bigger
  | cons resname wanted ih =>
    rw [List.length_cons] at few
    rw [selectLoop] at done
    split at done
    · cases done
      exact bigger
    · simp only [bind, Except.bind] at done
      split at done
      · cases done
      -- neither an absent resource nor an inserted list changes the size of the table
      · split at done
        · split at done
          · exact ih bigger (by omega) done
          · cases done
            exact bigger
        · split at done
          · cases done
          · rename_i inserted
            obtain ⟨buckets, length, count⟩ := insertList_shape inserted
            have bigger' := Oversized.mk (buckets.trans bigger.buckets) (length.trans bigger.length)
            split at done
            · cases done
              exact bigger'
            · split at done
              · rw [bigger'.resize (by omega)] at done
                exact ih bigger' (by dsimp only; omega) done
              · exact ih bigger' (by dsimp only; omega) done

/-- The loop over the wanted names, all of which exist in `s`. -/
private theorem selectLoop_spec {s : CompState} (tabled : Tabled hash res (value s))
    (allowNoexist : Bool) (msg : Option Message)
    (wanted : List String)
    (exist : ∀ name ∈ wanted, Resource.validName (some name) = true ∧
      lists res (value s) name ≠ none)
    {t : CompState} (ownedT : Owned (held s.comp + rest) t) (tabledT : Tabled hash res (value t))
    (agree : Agree (held s.comp + rest) s.heap t.heap)
    (size : t.comp.resources.length = defaultSize) (few : t.comp.entries + wanted.length ≤ 56) :
    ∃ t', selectLoop hash res s.comp allowNoexist ⟨t, true, msg⟩ wanted = .ok ⟨t', true, msg⟩ ∧
      Owned (held s.comp + rest) t' ∧ Tabled hash res (value t') ∧
      ∀ name, lists res (value t') name =
        if name ∈ wanted then lists res (value s) name else lists res (value t) name := by
  induction wanted generalizing t with
  | nil => exact ⟨t, rfl, ownedT, tabledT, fun name => by simp⟩
  | cons resname wanted ih =>
    obtain ⟨valid, there⟩ := exist resname List.mem_cons_self
    rw [List.length_cons] at few
    -- the original, in the heap which the copy has got to
    have sub : held s.comp ⊆ held s.comp + rest :=
      Multiset.subset_of_le (Multiset.le_add_right _ _)
    have values : value ⟨t.heap, s.comp⟩ = value s := value_congr (agree.mono sub)
    have moved : held s.comp + (held t.comp + rest) = held t.comp + (held s.comp + rest) := by
      rw [← Multiset.add_assoc, Multiset.add_comm (held s.comp), Multiset.add_assoc]
    have ownedS : Owned (held t.comp + rest) ⟨t.heap, s.comp⟩ :=
      ⟨by rw [moved]; exact ownedT.counts, by rw [moved]; exact ownedT.wf⟩
    have tabledS : Tabled hash res (value ⟨t.heap, s.comp⟩) := by rwa [values]
    obtain ⟨a?, run, same, member⟩ := findList_spec ownedS tabledS resname
    rw [values] at same
    cases a? with
    | none => exact absurd same.symm there
    | some a =>
      have inside := member a rfl
      have elsewhere : a ∈ held s.comp + rest := Multiset.mem_add.mpr (.inl inside)
      have listed : lists res (value s) resname = some (plainAt t.heap a) := same.symm
      have holds : ListFor res resname (plainAt t.heap a) := tabled.listFor listed
      have some_ : listIsEmpty t.heap (some a) = false := by
        rw [Bool.eq_false_iff, ne_eq]
        exact fun empty => holds.items_ne ((listIsEmpty_iff (ownedT.wf_rest elsewhere)).mp empty)
      obtain ⟨t₁, change, inserted, owned₁, value₁, agree₁, -, ok, -⟩ :=
        insertList_spec ownedT tabledT elsewhere holds (by rw [size, defaultSize]; omega)
      obtain ⟨good, shape, -, updated⟩ := tabledT.insert_spec holds
        (by rw [value_entries, value_length, size, defaultSize]; omega)
      rw [← value₁] at good updated
      obtain ⟨buckets, length, count⟩ := insertList_shape inserted
      have size₁ : t₁.comp.resources.length = defaultSize := length.trans size
      have light : resize hash res t₁ = .ok t₁ := by
        apply resize_light
        · refine decide_eq_false ?_
          rw [buckets_eq good, size₁, defaultSize]
          omega
        · apply List.ne_nil_of_length_pos
          rw [size₁]
          decide
      obtain ⟨t', looped, owned', tabled', content⟩ := ih
        (fun name later => exist name (List.mem_cons_of_mem resname later)) owned₁ good
        (agree.trans agree₁) size₁ (by omega)
      refine ⟨t', ?_, owned', tabled', fun name => ?_⟩
      · rw [selectLoop]
        simp only [valid, Bool.not_true, Bool.false_eq_true, if_false, run, some_, inserted, ok,
          light, looped, bind, Except.bind, ite_self]
      · rw [content name, updated]
        by_cases named : name = resname
        · subst named
          simp [listed]
        · simp [named]

theorem selects_iff {s : CompState} (owned : Owned rest s) (sound : Sound hash res (value s))
    (named : nameIsClonable s.comp = true) {resWanted : List String}
    (exist : ∀ name ∈ resWanted, Resource.validName (some name) = true ∧
      found hash res s name ≠ .ok none) :
    Selects hash res s resWanted ↔ resWanted.length ≤ 56 := by
  constructor
  · intro selects
    -- with too many names the table would have to be larger, and it never grows
    by_contra large
    obtain ⟨heap, copy, msg', selected, exact_, -⟩ := selects false none
    have bigger : Oversized _ ⟨s.heap, allocated s.comp resWanted.length⟩ :=
      allocated_oversized (Nat.lt_of_not_le large) s.heap
    simp only [select, named, Bool.not_true, Bool.false_eq_true, if_false, preallocate_eq, bind,
      Except.bind] at selected
    split at selected
    · cases selected
    · rename_i looped
      have bigger' := selectLoop_oversized resWanted bigger (by simp [allocated, new, blank]) looped
      split at selected
      · cases selected
        exact bigger'.ne (Nat.lt_of_not_le large) exact_
      · unfold Except.map at selected
        split at selected
        all_goals cases selected
  · intro small allowNoexist msg
    have owned₀ := allocated_owned owned resWanted.length
    obtain ⟨tabled₀, empty⟩ := @allocated_value hash res _ small s
    -- all names are found in the original
    have listed : ∀ name ∈ resWanted, Resource.validName (some name) = true ∧
        lists res (value s) name ≠ none := by
      intro name member
      obtain ⟨valid, there⟩ := exist name member
      refine ⟨valid, fun absent => there ?_⟩
      rw [found_eq owned sound.toTabled, absent]
    obtain ⟨t, run, owned', tabled', content⟩ := selectLoop_spec sound.toTabled allowNoexist msg
      resWanted listed owned₀ tabled₀ (Agree.refl _ _) List.length_replicate
      (by simpa [allocated, new, blank] using small)
    refine ⟨t.heap, t.comp, msg, ?_, buckets_eq tabled', fun name => ?_⟩
    · simp only [select, named, Bool.not_true, Bool.false_eq_true, if_false, preallocate_eq, bind,
        Except.bind, run, if_true]
    · rw [found_eq owned' tabled', found_eq owned sound.toTabled, content, empty]
      split <;> rfl

/-- A clone of a well-formed component is whole if and only if there are at most 56
names in it, and a selection if and only if at most 56 names are wanted. -/
theorem copies_iff {s : CompState} (owned : Owned rest s) (sound : Sound hash res (value s))
    (named : nameIsClonable s.comp = true) :
    (Clones hash res s ↔ s.comp.entries ≤ 56) ∧
      ∀ resWanted : List String, (∀ name ∈ resWanted, Resource.validName (some name) = true ∧
          found hash res s name ≠ .ok none) →
        (Selects hash res s resWanted ↔ resWanted.length ≤ 56) :=
  ⟨clones_iff owned sound named, fun _ exist => selects_iff owned sound named exist⟩

/-! ### A component with 57 resources -/

section Sample

/-- The resource at address `a` has the name of two letters that count up to it. -/
private def sampleRes (a : Addr) : LCFGResource :=
  ⟨some (String.ofList [Char.ofNat (97 + a / 8), Char.ofNat (97 + a % 8)]), some "1", none, 0⟩

private def sampleHash (name : String) : Nat :=
  name.toList.foldl (fun h c => 8 * h + c.toNat) 0

/-- The first `n` resources are merged into one new component. -/
private def sampleRun (n : Nat) : Except Fault (Family Unit × List LCFGChange) :=
  (Family.new fun _ => {}).run sampleHash sampleRes
    ((List.range n).map fun a => Operation.mergeResource () (some a))

private theorem sampleRun_sound (n : Nat) : ∃ w changes, sampleRun n = .ok (w, changes) ∧
    Owned (w.others ()) (w.state ()) ∧ Sound sampleHash sampleRes (value (w.state ())) := by
  obtain ⟨w, changes, maps, run, -, stands⟩ :=
    (@Family.new_standsFor sampleHash sampleRes Unit _ fun _ => {}).run
      ((List.range n).map fun a => Operation.mergeResource () (some a))
  exact ⟨w, changes, run, stands.owned (), stands.sound ()⟩

theorem sample_copied : ∃ w changes, sampleRun 3 = .ok (w, changes) ∧
    Clones sampleHash sampleRes (w.state ()) ∧
    Selects sampleHash sampleRes (w.state ()) ["ab", "ac"] := by
  obtain ⟨w, changes, run, owned, sound⟩ := sampleRun_sound 3
  -- what the run leaves is small enough to be computed
  have shape : (sampleRun 3).map (fun r =>
      ((r.1.comps ()).entries, nameIsClonable (r.1.comps ()),
        ["ab", "ac"].map fun name =>
          (findList sampleHash sampleRes (r.1.state ()) name).map Option.isSome)) =
      .ok (3, true, [.ok true, .ok true]) := by decide
  rw [run] at shape
  simp only [Except.map, Except.ok.injEq, Prod.mk.injEq, List.map_cons, List.map_nil,
    List.cons.injEq, and_true] at shape
  obtain ⟨entries, named, there₁, there₂⟩ := shape
  have few : (w.state ()).comp.entries ≤ 56 := by
    have three : (w.state ()).comp.entries = 3 := entries
    omega
  have exist (name : String) (there : (findList sampleHash sampleRes (w.state ()) name).map
      Option.isSome = .ok true) : found sampleHash sampleRes (w.state ()) name ≠ .ok none := by
    unfold found
    cases look : findList sampleHash sampleRes (w.state ()) name with
    | error => simp [Except.map]
    | ok a? => cases a? <;> simp_all [Except.map]
  obtain ⟨clones, selects⟩ := copies_iff owned sound named
  refine ⟨w, changes, run, clones.mpr few, (selects ["ab", "ac"] ?_).mpr (by decide)⟩
  intro name member
  rw [List.mem_cons, List.mem_singleton] at member
  obtain rfl | rfl := member
  · exact ⟨by decide, exist "ab" there₁⟩
  · exact ⟨by decide, exist "ac" there₂⟩

set_option maxRecDepth 100000 in
/-- 57 names need 115 buckets, and the array keeps 113. -/
theorem sample_not_cloned : ¬ ∀ (hash : String → Nat) (res : Addr → LCFGResource)
    (rest : Multiset Addr) (s : CompState), Owned rest s → Sound hash res (value s) →
      nameIsClonable s.comp = true → Clones hash res s := by
  intro claim
  obtain ⟨w, changes, run, owned, sound⟩ := sampleRun_sound 57
  have shape : (sampleRun 57).map (fun r =>
      ((r.1.comps ()).entries, nameIsClonable (r.1.comps ()))) = .ok (57, true) := by decide
  rw [run] at shape
  simp only [Except.map, Except.ok.injEq, Prod.mk.injEq] at shape
  obtain ⟨entries, named⟩ := shape
  have few := (clones_iff owned sound named).mp
    (claim sampleHash sampleRes _ (w.state ()) owned sound named)
  have more : (w.state ()).comp.entries = 57 := entries
  omega

end Sample

end Component
end Lcfg
