import LcfgCore.Components.Family
import LcfgCore.Components.Set
import Mathlib.Data.Fintype.BigOperators

/-!
# Merging component sets

`lcfgcompset_merge_components` merges the components of one set into those of another with
the same names, and may add the others (`components/set.c`). The components are in a
family with their addresses for an index, and may share their lists.

## Main result

`mergeComponents_spec`: unless there is an error the names are those of the first set, or of
both, each component in both sets is merged once, and no other one is changed.
-/
namespace Lcfg

open Component (Family held value Owned Step)
open RefCount (Counts)

namespace CompSet

/-- What a merge of two sets leaves: the components, the first set, the change and the message. -/
structure MergeResult where
  world : Family Addr
  set : LCFGComponentSet
  change : LCFGChange
  msg : Option Message

section Merge

variable (hash : String → Nat) (res : Addr → LCFGResource)

/-- Merge one component, or add it if it is a new one. -/
def mergeOverride (takeNew : Bool) (m : MergeResult) (overrideComp : Addr) :
    Except Component.Fault MergeResult := do
  let report (rc : LCFGChange) : LCFGChange :=
    if rc = .error then .error else if rc ≠ .none then .modified else m.change
  match findComponent hash m.world.comps m.set (nameOf m.world.comps overrideComp) with
  | some targetComp =>
    -- a component is not merged into itself
    if targetComp = overrideComp then .ok m
    else
      let (s, rc, msg) ← Component.mergeComponent hash res (m.world.state targetComp)
        (m.world.comps overrideComp) m.msg
      .ok { m with world := m.world.set targetComp s, change := report rc, msg }
  | none =>
    if takeNew then
      let (set, rc) := insertComponent hash m.world.comps m.set (some overrideComp)
      .ok { m with set, change := report rc }
    else .ok m

/-- The loop over the buckets in `lcfgcompset_merge_components`. -/
def mergeLoop (takeNew : Bool) (m : MergeResult) :
    List (Option Addr) → Except Component.Fault MergeResult
  | [] => .ok m
  | entry :: rest =>
    if m.change = .error then .ok m
    else
      match entry with
      | none => mergeLoop takeNew m rest
      | some overrideComp => do
        let m ← mergeOverride hash res takeNew m overrideComp
        mergeLoop takeNew m rest

/-- `lcfgcompset_merge_components` -/
def mergeComponents (world : Family Addr) (compset1 compset2 : LCFGComponentSet) (takeNew : Bool)
    (msg : Option Message) : Except Component.Fault MergeResult :=
  if isEmpty compset2 then .ok ⟨world, compset1, .none, msg⟩
  else if isEmpty compset1 && !takeNew then .ok ⟨world, compset1, .none, msg⟩
  else mergeLoop hash res takeNew ⟨world, compset1, .none, msg⟩ compset2.components

end Merge

/-! ### Components which share lists -/

/-- The components at some addresses are well formed tables, and the reference counts of the
lists are right for them and for others. -/
structure Owns (hash : String → Nat) (res : Addr → LCFGResource) (live : Finset Addr)
    (rest : Multiset Addr) (world : Family Addr) : Prop where
  counts : Counts world.heap (∑ a ∈ live, held (world.comps a) + rest)
  wf : ∀ l ∈ ∑ a ∈ live, held (world.comps a) + rest, (world.heap.cell l).chain.Wf
  sound : ∀ a ∈ live, PlainComponent.Sound hash res (value (world.state a))

/-- The references of all others to lists. -/
def others (live : Finset Addr) (rest : Multiset Addr) (world : Family Addr) (a : Addr) :
    Multiset Addr :=
  ∑ c ∈ live.erase a, held (world.comps c) + rest

variable {hash : String → Nat} {res : Addr → LCFGResource} {live : Finset Addr}
  {rest : Multiset Addr} {world : Family Addr}

theorem held_add_others {a : Addr} (member : a ∈ live) :
    held (world.comps a) + others live rest world a =
      ∑ c ∈ live, held (world.comps c) + rest := by
  rw [others, ← add_assoc, Finset.add_sum_erase live (fun c => held (world.comps c)) member]

theorem held_le_others {a c : Addr} (member : c ∈ live) (differ : c ≠ a) :
    held (world.comps c) ≤ others live rest world a := by
  refine le_trans ?_ (Multiset.le_add_right _ _)
  exact Finset.single_le_sum (f := fun c => held (world.comps c)) (fun _ _ => Multiset.zero_le _)
    (Finset.mem_erase.mpr ⟨differ, member⟩)

theorem Owns.owned (owns : Owns hash res live rest world) {a : Addr} (member : a ∈ live) :
    Owned (others live rest world a) (world.state a) where
  counts := by
    rw [Family.state, held_add_others member]
    exact owns.counts
  wf := by
    rw [Family.state, held_add_others member]
    exact owns.wf

/-- A step of one component leaves the others and their lists alone. -/
theorem Owns.set (owns : Owns hash res live rest world) {a : Addr} (member : a ∈ live)
    {s : Component.CompState} (step : Step (others live rest world a) (world.state a) s)
    (sound : PlainComponent.Sound hash res (value s)) :
    Owns hash res live rest (world.set a s) ∧ value ((world.set a s).state a) = value s ∧
      ∀ c ∈ live, c ≠ a → (world.set a s).comps c = world.comps c ∧
        value ((world.set a s).state c) = value (world.state c) := by
  -- the other components keep their table, and with the step their lists in the heap
  have rest_ : others live rest (world.set a s) a = others live rest world a := by
    rw [others, others]
    congr 1
    refine Finset.sum_congr rfl fun c other => ?_
    rw [Family.set_comps_of_ne world (Finset.ne_of_mem_erase other)]
  have total : ∑ c ∈ live, held ((world.set a s).comps c) + rest =
      held s.comp + others live rest world a := by
    rw [← held_add_others member, rest_, Family.set_comps_self]
  have here : (world.set a s).state a = s := by
    rw [Family.state, Family.set_comps_self]
    rfl
  have kept (c : Addr) (inLive : c ∈ live) (differ : c ≠ a) :
      (world.set a s).comps c = world.comps c ∧
        value ((world.set a s).state c) = value (world.state c) := by
    have moved : (world.set a s).state c = ⟨s.heap, (world.state c).comp⟩ := by
      rw [Family.state, Family.set_comps_of_ne world differ]
      rfl
    refine ⟨Family.set_comps_of_ne world differ s, ?_⟩
    rw [moved]
    exact Component.value_congr
      (step.agree.mono (Multiset.subset_of_le (held_le_others inLive differ)))
  refine ⟨⟨?_, ?_, fun c inLive => ?_⟩, by rw [here], kept⟩
  · rw [total]
    exact step.owned.counts
  · rw [total]
    exact step.owned.wf
  -- only the component stepped needs the new invariant
  · by_cases same : c = a
    · rw [same, here]
      exact sound
    · rw [(kept c inLive same).2]
      exact owns.sound c inLive

/-! ### Merging one component -/

/-- A merge of components does not rename the component. -/
theorem mergeAll_name (comp : PlainComponent.MapComponent) (change : LCFGChange)
    (order : List (String × ResList.Plain)) :
    (comp.mergeAll res change order).1.name = comp.name := by
  induction order generalizing comp change with
  | nil => rfl
  | cons p order ih =>
    have kept : (comp.merge p.1 fun list => list.mergeList res p.2).1.name = comp.name := by
      unfold PlainComponent.MapComponent.merge
      dsimp only
      split <;> rfl
    rw [PlainComponent.MapComponent.mergeAll]
    split
    · exact kept
    · rw [ih, kept]

/-- What the component at `a` is after the merge of the one at `b`, with the change. -/
def onto (hash : String → Nat) (res : Addr → LCFGResource) (world : Family Addr) (a b : Addr) :
    PlainComponent × LCFGChange :=
  PlainComponent.mergeComponent hash res (value (world.state a)) (value (world.state b))

theorem Owns.mergeComponent (owns : Owns hash res live rest world) {a b : Addr} (inA : a ∈ live)
    (inB : b ∈ live) (differ : b ≠ a) (msg : Option Message) :
    ∃ s change msg', Component.mergeComponent hash res (world.state a) (world.comps b) msg =
        .ok (s, change, msg') ∧ change = (onto hash res world a b).2 ∧
      (change ≠ .error → value s = (onto hash res world a b).1 ∧
        Owns hash res live rest (world.set a s) ∧
        value ((world.set a s).state a) = value s ∧
        (∀ c, ((world.set a s).comps c).name = (world.comps c).name) ∧
        ∀ c ∈ live, c ≠ a → (world.set a s).comps c = world.comps c ∧
          value ((world.set a s).state c) = value (world.state c)) := by
  obtain ⟨s, change, msg', run, changed, values, step⟩ := Component.mergeComponent_outcome
    (owns.owned inA) (owns.sound a inA) (held_le_others inB differ) (owns.sound b inB).toTabled msg
  refine ⟨s, change, msg', run, changed, fun ok => ?_⟩
  have same : value s = (onto hash res world a b).1 := values (.inl ok)
  obtain ⟨sound, map⟩ := (owns.sound a inA).mergeLists_spec .none _ (owns.sound b inB).named
  rw [← PlainComponent.mergeComponent] at sound map
  have sound' : PlainComponent.Sound hash res (value s) := by
    rw [same]
    exact sound
  -- a merge never renames the component
  have named : s.comp.name = (world.comps a).name := by
    have name := congrArg (fun r => r.1.name) map
    dsimp only at name
    rw [mergeAll_name] at name
    exact (congrArg ComponentTable.name same).trans name
  obtain ⟨owns', here, kept⟩ := owns.set inA step sound'
  refine ⟨same, owns', here, fun c => ?_, kept⟩
  by_cases self : c = a
  · rw [self, Family.set_comps_self, named]
  · rw [Family.set_comps_of_ne world self]

/-! ### All overrides -/

/-- Nothing but the names of the components counts for a set. -/
theorem entry_congr {comp comp' : Addr → LCFGComponent}
    (named : ∀ c, (comp' c).name = (comp c).name) (set : LCFGComponentSet) :
    entry comp' set = entry comp set := by
  have same : key comp' = key comp := by
    funext c
    rw [key, key, nameOf, nameOf, named c]
  rw [entry, entry, same]

/-- The names of the components in a set are all that it looks at. -/
theorem Sound.congr_stored {comp comp' : Addr → LCFGComponent} {set : LCFGComponentSet}
    (sound : Sound hash comp set)
    (named : ∀ a ∈ LinearProbe.stored set.components, (comp' a).name = (comp a).name) :
    Sound hash comp' set ∧ entry comp' set = entry comp set := by
  have same : ∀ a ∈ LinearProbe.stored set.components, key comp' a = key comp a := by
    intro a member
    rw [key, key, nameOf, nameOf, named a member]
  have chained := sound.chained.congr same
  refine ⟨⟨sound.buckets_eq, sound.length_eq, sound.entries_eq, fun a member => ?_, chained⟩, ?_⟩
  · rw [Component.isValid, named a member]
    exact sound.valid a member
  · funext name
    refine Option.ext fun a => ?_
    rw [entry, entry, chained.entry_eq_some_iff, sound.chained.entry_eq_some_iff]
    exact and_congr_right fun member => by rw [same a member]

theorem Sound.congr {comp comp' : Addr → LCFGComponent} {set : LCFGComponentSet}
    (sound : Sound hash comp set) (named : ∀ c, (comp' c).name = (comp c).name) :
    Sound hash comp' set :=
  (sound.congr_stored fun c _ => named c).1

/-- The first set and the components after some overrides. -/
structure Overridden (hash : String → Nat) (res : Addr → LCFGResource) (live : Finset Addr)
    (takeNew : Bool) (overrides : List Addr) (world : Family Addr) (set : LCFGComponentSet)
    (world' : Family Addr) (set' : LCFGComponentSet) : Prop where
  named : ∀ c, (world'.comps c).name = (world.comps c).name
  found : ∀ name, entry world.comps set' name = (entry world.comps set name).or
    (if takeNew then overrides.find? fun b => nameOf world.comps b = name else none)
  merged : ∀ b ∈ overrides, ∀ a, entry world.comps set (nameOf world.comps b) = some a →
    value (world'.state a) = (onto hash res world a b).1 ∧ (onto hash res world a b).2 ≠ .error
  kept : ∀ c ∈ live,
    (∀ b ∈ overrides, entry world.comps set (nameOf world.comps b) ≠ some c) →
      world'.comps c = world.comps c ∧ value (world'.state c) = value (world.state c)

/-- What the overrides have to be like: components of different names which are not in the
first set. -/
structure Apart (live : Finset Addr) (world : Family Addr) (set : LCFGComponentSet)
    (overrides : List Addr) : Prop where
  live : ∀ b ∈ overrides, b ∈ live
  valid : ∀ b ∈ overrides, Component.isValid (world.comps b) = true
  differ : overrides.Pairwise fun b c => nameOf world.comps b ≠ nameOf world.comps c
  absent : ∀ b ∈ overrides, b ∉ LinearProbe.stored set.components

theorem nameOf_congr {comp comp' : Addr → LCFGComponent}
    (named : ∀ c, (comp' c).name = (comp c).name) : nameOf comp' = nameOf comp := by
  funext c
  rw [nameOf, nameOf, named c]

theorem nameOf_of_entry {comp : Addr → LCFGComponent} {set : LCFGComponentSet} {name : String}
    {a : Addr} (found : entry comp set name = some a) : nameOf comp a = name :=
  Option.some.inj (LinearProbe.mem_stored_of_entry found).2

section Compose

variable {takeNew : Bool} {world₁ world' : Family Addr} {set set₁ set' : LCFGComponentSet}
  {b : Addr} {bs : List Addr}

theorem Apart.tail (apart : Apart live world set (b :: bs))
    (named : ∀ c, (world₁.comps c).name = (world.comps c).name)
    (among : ∀ a ∈ LinearProbe.stored set₁.components,
      a ∈ LinearProbe.stored set.components ∨ a = b) : Apart live world₁ set₁ bs := by
  obtain ⟨first, later⟩ := List.pairwise_cons.mp apart.differ
  refine ⟨fun c member => apart.live c (List.mem_cons_of_mem b member), fun c member => ?_, ?_,
    fun c member stored => ?_⟩
  · rw [Component.isValid, named c]
    exact apart.valid c (List.mem_cons_of_mem b member)
  · rw [nameOf_congr named]
    exact later
  · rcases among c stored with old | same
    · exact apart.absent c (List.mem_cons_of_mem b member) old
    · exact first c member (by rw [same])

/-- One override and then the others. -/
theorem Overridden.cons (apart : Apart live world set (b :: bs))
    (inLive : ∀ a ∈ LinearProbe.stored set.components, a ∈ live)
    (first : Overridden hash res live takeNew [b] world set world₁ set₁)
    (later : Overridden hash res live takeNew bs world₁ set₁ world' set') :
    Overridden hash res live takeNew (b :: bs) world set world' set' := by
  obtain ⟨differ, -⟩ := List.pairwise_cons.mp apart.differ
  have names := nameOf_congr first.named
  have entries := entry_congr first.named
  -- a later override finds what was there before
  have same (c : Addr) (member : c ∈ bs) :
      entry world.comps set₁ (nameOf world.comps c) = entry world.comps set (nameOf world.comps c) := by
    rw [first.found]
    have other : nameOf world.comps b ≠ nameOf world.comps c := differ c member
    simp [other]
  refine ⟨fun c => (later.named c).trans (first.named c), fun name => ?_, fun c member a found => ?_,
    fun c inside untouched => ?_⟩
  · have whole := later.found name
    rw [entries, entries, names, first.found name, Option.or_assoc] at whole
    rw [whole]
    congr 1
    cases takeNew with
    | false => rfl
    | true =>
      simp only [if_true, List.find?_cons, List.find?_nil]
      cases decide (nameOf world.comps b = name) <;> rfl
  · rcases List.mem_cons.mp member with rfl | member
    · -- the first one is not merged into again
      obtain ⟨merged, ok⟩ := first.merged c (by simp) a found
      refine ⟨?_, ok⟩
      have inA := inLive a (LinearProbe.mem_stored_of_entry found).1
      rw [(later.kept a inA fun d member' found' => ?_).2, merged]
      rw [entries, names, same d member'] at found'
      exact differ d member' ((nameOf_of_entry found).symm.trans (nameOf_of_entry found'))
    · have inC := apart.live c (List.mem_cons_of_mem b member)
      have stored := (LinearProbe.mem_stored_of_entry found).1
      obtain ⟨merged, ok⟩ := later.merged c member a (by rw [entries, names, same c member, found])
      have keptA := (first.kept a (inLive a stored) fun d member' found' => by
        rw [List.mem_singleton.mp member'] at found'
        exact differ c member ((nameOf_of_entry found').symm.trans (nameOf_of_entry found))).2
      have keptC := (first.kept c inC fun d member' found' =>
        apart.absent c (List.mem_cons_of_mem b member) (LinearProbe.mem_stored_of_entry found').1).2
      rw [onto, keptA, keptC, ← onto] at merged ok
      exact ⟨merged, ok⟩
  · obtain ⟨comp₁, value₁⟩ := first.kept c inside fun d member =>
      untouched d (by rw [List.mem_singleton.mp member]; exact List.mem_cons_self)
    obtain ⟨comp', value'⟩ := later.kept c inside fun d member found => by
      rw [entries, names, same d member] at found
      exact untouched d (List.mem_cons_of_mem b member) found
    exact ⟨comp'.trans comp₁, value'.trans value₁⟩

end Compose

section Loop

variable (takeNew : Bool)

/-- One override, which is a component that is not in the first set. -/
theorem mergeOverride_spec (m : MergeResult) {b : Addr}
    (owns : Owns hash res live rest m.world) (sound : Sound hash m.world.comps m.set)
    (inLive : ∀ a ∈ LinearProbe.stored m.set.components, a ∈ live)
    (apart : Apart live m.world m.set [b]) :
    ∃ m', mergeOverride hash res takeNew m b = .ok m' ∧ (m'.change ≠ .error →
      Owns hash res live rest m'.world ∧ Sound hash m'.world.comps m'.set ∧
      Overridden hash res live takeNew [b] m.world m.set m'.world m'.set ∧
      ∀ a ∈ LinearProbe.stored m'.set.components,
        a ∈ LinearProbe.stored m.set.components ∨ a = b) := by
  have inB := apart.live b (by simp)
  have valid := apart.valid b (by simp)
  rw [mergeOverride, sound.findComponent_eq]
  -- a component of this name is merged; without one it is taken or left out
  cases found : entry m.world.comps m.set (nameOf m.world.comps b) with
  | some a =>
    have stored := (LinearProbe.mem_stored_of_entry found).1
    have differ : a ≠ b := fun same => apart.absent b (by simp) (same ▸ stored)
    obtain ⟨s, rc, msg, run, changed, merged⟩ :=
      owns.mergeComponent (inLive a stored) inB differ.symm m.msg
    simp only [differ, if_false, run, bind, Except.bind]
    refine ⟨_, rfl, fun ok => ?_⟩
    have fine : rc ≠ .error := by
      rintro rfl
      simp at ok
    obtain ⟨same, owns', here, named, kept⟩ := merged fine
    refine ⟨owns', sound.congr named, ⟨named, fun name => ?_, fun c member a' found' => ?_,
      -- other components keep what they hold
      fun c inside untouched => ?_⟩, fun c member => .inl member⟩
    · by_cases other : nameOf m.world.comps b = name
      · rw [← other, found]
        rfl
      · simp [other]
    · rw [List.mem_singleton.mp member] at found' ⊢
      rw [found, Option.some.injEq] at found'
      rw [← found', here, same, ← changed]
      exact ⟨rfl, fine⟩
    · refine kept c inside ?_
      rintro rfl
      exact untouched b (by simp) found
  | none =>
    cases takeNew with
    | false =>
      refine ⟨m, by simp, fun _ => ⟨owns, sound, ⟨fun _ => rfl, fun name => by simp,
        fun c member a found' => ?_, fun c _ _ => ⟨rfl, rfl⟩⟩, fun c member => .inl member⟩⟩
      rw [List.mem_singleton.mp member, found] at found'
      cases found'
    | true =>
      simp only [if_true]
      refine ⟨_, rfl, fun ok => ?_⟩
      have fine : (insertComponent hash m.world.comps m.set (some b)).2 ≠ .error := by
        intro failed
        simp [failed] at ok
      have sound' := (insert_spec sound b valid).1
      have updated := insert_updates sound b valid fine
      refine ⟨owns, sound', ⟨fun _ => rfl, fun name => ?_, fun c member a found' => ?_,
        fun c _ _ => ⟨rfl, rfl⟩⟩, fun c member => ?_⟩
      · dsimp only
        rw [updated]
        by_cases other : nameOf m.world.comps b = name
        · subst other
          rw [Function.update_self, found]
          simp
        · rw [Function.update_of_ne (Ne.symm other)]
          simp [other]
      · rw [List.mem_singleton.mp member, found] at found'
        cases found'
      -- what the set holds has been there before, or is the component taken
      · have entry' := (sound'.chained.entry_eq_some_iff (nameOf m.world.comps c) c).mpr
          ⟨member, rfl⟩
        have here : entry m.world.comps (insertComponent hash m.world.comps m.set (some b)).1
            (nameOf m.world.comps c) = some c := entry'
        rw [updated] at here
        by_cases other : nameOf m.world.comps c = nameOf m.world.comps b
        · rw [other, Function.update_self] at here
          exact .inr (Option.some.inj here).symm
        · rw [Function.update_of_ne other] at here
          exact .inl (LinearProbe.mem_stored_of_entry here).1

/-- The loop ends with the first error. -/
theorem mergeLoop_error {m : MergeResult} (failed : m.change = .error)
    (slots : List (Option Addr)) : mergeLoop hash res takeNew m slots = .ok m := by
  cases slots with
  | nil => rfl
  | cons entry slots => cases entry <;> rw [mergeLoop, if_pos failed]

theorem mergeLoop_spec (slots : List (Option Addr)) (m : MergeResult) (ok : m.change ≠ .error)
    (owns : Owns hash res live rest m.world) (sound : Sound hash m.world.comps m.set)
    (inLive : ∀ a ∈ LinearProbe.stored m.set.components, a ∈ live)
    (apart : Apart live m.world m.set (LinearProbe.stored slots)) :
    ∃ m', mergeLoop hash res takeNew m slots = .ok m' ∧ (m'.change ≠ .error →
      Sound hash m'.world.comps m'.set ∧
      Overridden hash res live takeNew (LinearProbe.stored slots) m.world m.set m'.world m'.set) := by
  induction slots generalizing m with
  | nil =>
    have nothing : LinearProbe.stored ([] : List (Option Addr)) = [] := rfl
    rw [nothing]
    refine ⟨m, rfl, fun _ => ⟨sound, fun _ => rfl, fun name => ?_, fun b member => ?_,
      fun c _ _ => ⟨rfl, rfl⟩⟩⟩
    · rw [List.find?_nil, ite_self, Option.or_none]
    · cases member
  | cons entry slots ih =>
    cases entry with
    | none =>
      rw [mergeLoop, if_neg ok]
      rw [LinearProbe.stored_none] at apart ⊢
      exact ih m ok owns sound inLive apart
    | some b =>
      rw [mergeLoop, if_neg ok]
      rw [LinearProbe.stored_some] at apart ⊢
      -- the loop meets one component at a time
      have alone : Apart live m.world m.set [b] := by
        refine ⟨?_, ?_, List.pairwise_singleton _ _, ?_⟩
        · simpa using apart.live b List.mem_cons_self
        · simpa using apart.valid b List.mem_cons_self
        · simpa using apart.absent b List.mem_cons_self
      obtain ⟨m₁, run, first⟩ := mergeOverride_spec takeNew m owns sound inLive alone
      simp only [run, bind, Except.bind]
      -- an error ends the loop
      by_cases failed : m₁.change = .error
      · refine ⟨m₁, mergeLoop_error takeNew failed slots, fun ok => absurd failed ok⟩
      · obtain ⟨owns₁, sound₁, override, among⟩ := first failed
        have inLive₁ : ∀ a ∈ LinearProbe.stored m₁.set.components, a ∈ live := by
          intro a member
          rcases among a member with old | rfl
          · exact inLive a old
          · exact apart.live a List.mem_cons_self
        obtain ⟨m', run', later⟩ := ih m₁ failed owns₁ sound₁ inLive₁
          (apart.tail override.named among)
        refine ⟨m', run', fun ok => ?_⟩
        obtain ⟨sound', overrides⟩ := later ok
        exact ⟨sound', override.cons apart inLive overrides⟩

end Loop

/-! ### Two sets -/

/-- The names of the components in a set. -/
def storedNames (comp : Addr → LCFGComponent) (set : LCFGComponentSet) : Finset String :=
  ((LinearProbe.stored set.components).map (nameOf comp)).toFinset

theorem mem_storedNames (comp : Addr → LCFGComponent) (set : LCFGComponentSet) (name : String) :
    name ∈ storedNames comp set ↔ (entry comp set name).isSome := by
  rw [entry, LinearProbe.entry_isSome_iff]
  simp [storedNames, key]

theorem find_stored (comp : Addr → LCFGComponent) (set : LCFGComponentSet) (name : String) :
    (LinearProbe.stored set.components).find? (fun b => nameOf comp b = name) =
      entry comp set name := by
  simp [entry, LinearProbe.entry, key]

theorem stored_eq_nil {set : LCFGComponentSet} (sound : Sound hash world.comps set)
    (empty : isEmpty set = true) : LinearProbe.stored set.components = [] := by
  rw [← List.length_eq_zero_iff, LinearProbe.length_stored, ← sound.entries_eq]
  simpa [isEmpty] using empty

/-- What a merge of two sets does: it takes over the names of the second set if it may, merges
the components which are in both sets, and leaves the second set and all others alone. -/
structure Merged (hash : String → Nat) (res : Addr → LCFGResource) (takeNew : Bool)
    (world : Family Addr) (set1 set2 : LCFGComponentSet) (m : MergeResult) : Prop where
  names : storedNames m.world.comps m.set =
    if takeNew then storedNames world.comps set1 ∪ storedNames world.comps set2
    else storedNames world.comps set1
  both : ∀ name, ∀ a ∈ findComponent hash world.comps set1 name,
    ∀ b ∈ findComponent hash world.comps set2 name,
      findComponent hash m.world.comps m.set name = some a ∧ ∀ msg, ∃ s change msg',
        Component.mergeComponent hash res (world.state a) (world.comps b) msg =
          .ok (s, change, msg') ∧ change ≠ .error ∧ value (m.world.state a) = value s
  first : ∀ name, ∀ a ∈ findComponent hash world.comps set1 name,
    findComponent hash world.comps set2 name = none →
      findComponent hash m.world.comps m.set name = some a ∧ m.world.comps a = world.comps a ∧
        value (m.world.state a) = value (world.state a)
  new : ∀ name, findComponent hash world.comps set1 name = none →
    findComponent hash m.world.comps m.set name =
      if takeNew then findComponent hash world.comps set2 name else none
  second : ∀ name, findComponent hash m.world.comps set2 name =
    findComponent hash world.comps set2 name
  kept : ∀ b ∈ LinearProbe.stored set2.components, m.world.comps b = world.comps b ∧
    value (m.world.state b) = value (world.state b)

section Sets

variable {takeNew : Bool} {set1 set2 : LCFGComponentSet}
  (owns : Owns hash res live rest world) (sound1 : Sound hash world.comps set1)
  (sound2 : Sound hash world.comps set2)
  (live1 : ∀ a ∈ LinearProbe.stored set1.components, a ∈ live)
  (live2 : ∀ b ∈ LinearProbe.stored set2.components, b ∈ live)
  (apart : ∀ b ∈ LinearProbe.stored set2.components, b ∉ LinearProbe.stored set1.components)
include owns sound1 sound2 live1 live2 apart

theorem Overridden.merged_of {m : MergeResult} (sound : Sound hash m.world.comps m.set)
    (overridden : Overridden hash res live takeNew (LinearProbe.stored set2.components) world set1
      m.world m.set) : Merged hash res takeNew world set1 set2 m := by
  have found (name : String) : findComponent hash m.world.comps m.set name =
      (entry world.comps set1 name).or (if takeNew then entry world.comps set2 name else none) := by
    rw [sound.findComponent_eq, entry_congr overridden.named, overridden.found, find_stored]
  have second (name : String) : findComponent hash m.world.comps set2 name =
      findComponent hash world.comps set2 name := by
    rw [(sound2.congr overridden.named).findComponent_eq, sound2.findComponent_eq,
      entry_congr overridden.named]
  refine ⟨?_, fun name a inFirst b inSecond => ?_, fun name a inFirst absent => ?_,
    fun name absent => ?_, second, fun b member => ?_⟩
  · ext name
    have entry' := found name
    rw [sound.findComponent_eq] at entry'
    rw [mem_storedNames, entry']
    cases takeNew <;> simp [mem_storedNames]
  · rw [sound1.findComponent_eq] at inFirst
    rw [sound2.findComponent_eq] at inSecond
    obtain ⟨stored, same⟩ := LinearProbe.mem_stored_of_entry inSecond
    obtain ⟨value_, ok⟩ := overridden.merged b stored a (by rw [Option.some.inj same]; exact inFirst)
    refine ⟨by rw [found, inFirst]; rfl, fun msg => ?_⟩
    have inA := (LinearProbe.mem_stored_of_entry inFirst).1
    obtain ⟨s, change, msg', run, changed, merged⟩ := owns.mergeComponent (live1 a inA)
      (live2 b stored) (fun equal => apart b stored (equal ▸ inA)) msg
    have fine : change ≠ .error := by rwa [changed]
    exact ⟨s, change, msg', run, fine, value_.trans (merged fine).1.symm⟩
  · rw [sound1.findComponent_eq] at inFirst
    rw [sound2.findComponent_eq] at absent
    have inA := (LinearProbe.mem_stored_of_entry inFirst).1
    refine ⟨by rw [found, inFirst]; rfl, overridden.kept a (live1 a inA) fun b member found' => ?_⟩
    -- the names of the second set are all different from this one
    have name_ := (nameOf_of_entry found').symm.trans (nameOf_of_entry inFirst)
    have here : (entry world.comps set2 name).isSome :=
      (LinearProbe.entry_isSome_iff _ _ _).mpr ⟨b, member, congrArg some name_⟩
    simp [absent] at here
  · rw [sound1.findComponent_eq] at absent
    rw [found, absent, Option.none_or, sound2.findComponent_eq]
  · exact overridden.kept b (live2 b member) fun c _ found' =>
      apart b member (LinearProbe.mem_stored_of_entry found').1

/-- For all sets without a common component: the merge returns, and unless it returns an error
it has the effect that it should have. -/
theorem mergeComponents_spec (takeNew : Bool) (msg : Option Message) :
    ∃ m, mergeComponents hash res world set1 set2 takeNew msg = .ok m ∧
      (m.change ≠ .error → Merged hash res takeNew world set1 set2 m) := by
  have nothing (overridden : Overridden hash res live takeNew (LinearProbe.stored set2.components)
      world set1 world set1) : Merged hash res takeNew world set1 set2 ⟨world, set1, .none, msg⟩ :=
    overridden.merged_of owns sound1 sound2 live1 live2 apart sound1
  rw [mergeComponents]
  cases empty2 : isEmpty set2 with
  | true =>
    refine ⟨_, rfl, fun _ => nothing ?_⟩
    rw [stored_eq_nil sound2 empty2]
    refine ⟨fun _ => rfl, fun name => ?_, fun b member => ?_, fun c _ _ => ⟨rfl, rfl⟩⟩
    · rw [List.find?_nil, ite_self, Option.or_none]
    · cases member
  | false =>
    rw [if_neg Bool.false_ne_true]
    -- nothing to merge onto, and nothing to take
    cases empty1 : isEmpty set1 && !takeNew with
    | true =>
      obtain ⟨empty1, old⟩ := Bool.and_eq_true_iff.mp empty1
      rw [Bool.not_eq_true'] at old
      have none_ (name : String) : entry world.comps set1 name = none := by
        rw [entry, LinearProbe.entry, stored_eq_nil sound1 empty1, List.find?_nil]
      refine ⟨_, rfl, fun _ => nothing ?_⟩
      refine ⟨fun _ => rfl, fun name => ?_, fun b _ a found => ?_, fun c _ _ => ⟨rfl, rfl⟩⟩
      · rw [old, if_neg Bool.false_ne_true, Option.or_none]
      · rw [none_] at found
        cases found
    | false =>
      have apart' : Apart live world set1 (LinearProbe.stored set2.components) := by
        refine ⟨live2, sound2.valid, ?_, apart⟩
        exact sound2.chained.pairwise.imp fun differ same => differ (congrArg some same)
      obtain ⟨m, run, merged⟩ := mergeLoop_spec takeNew set2.components
        ⟨world, set1, .none, msg⟩ (by simp) owns sound1 live1 apart'
      refine ⟨m, by rw [if_neg Bool.false_ne_true, run], fun ok => ?_⟩
      obtain ⟨sound, overridden⟩ := merged ok
      exact overridden.merged_of owns sound1 sound2 live1 live2 apart sound

end Sets

/-! ### Two components with one name

Each has one resource. -/

def overrideRes (a : Addr) : LCFGResource := ⟨some (if a = 0 then "x" else "y"), none, none, 0⟩

def overrideRun : Except Component.Fault (Family Bool × List LCFGChange) :=
  (Family.new fun _ => { name := some "foo" }).run djbhash overrideRes
    [.mergeResource false (some 0), .mergeResource true (some 1)]

/-- The components of the family at the addresses 0 and 1. -/
def addressed (w : Family Bool) : Family Addr := ⟨w.heap, fun a => w.comps (decide (a = 1))⟩

theorem addressed_owns {w : Family Bool} {maps : Bool → PlainComponent.MapComponent}
    (stands : Family.StandsFor hash res w maps) : Owns hash res {0, 1} 0 (addressed w) := by
  have total : ∑ a ∈ ({0, 1} : Finset Addr), held ((addressed w).comps a) + 0 =
      ∑ i, held (w.comps i) := by
    rw [Finset.sum_pair (by decide), Fintype.sum_bool, add_zero, add_comm]
    rfl
  refine ⟨?_, ?_, fun a _ => stands.sound (decide (a = 1))⟩
  · rw [total]
    exact stands.counts
  · rw [total]
    exact stands.wf

def fooComponent : Addr → LCFGComponent := fun _ => { Component.new with name := some "foo" }

def fooSet (a : Addr) : LCFGComponentSet := (insertAll djbhash fooComponent new [a]).1

/-- Both components are called foo, and the merge of the second set is not refused. -/
theorem overrideSample_merged : ∃ w changes m, overrideRun = .ok (w, changes) ∧
    mergeComponents djbhash overrideRes (addressed w) (fooSet 0) (fooSet 1) false none = .ok m ∧
    m.change ≠ .error ∧
    Merged djbhash overrideRes false (addressed w) (fooSet 0) (fooSet 1) m := by
  obtain ⟨w, changes, maps, run, -, stands⟩ := (@Family.new_standsFor djbhash overrideRes Bool _
    fun _ => { name := some "foo" }).run
      [.mergeResource false (some 0), .mergeResource true (some 1)]
  have ran : overrideRun = .ok (w, changes) := run
  have names : overrideRun.map (fun r => ((r.1.comps false).name, (r.1.comps true).name)) =
      .ok (some "foo", some "foo") := by decide
  have report : overrideRun.map (fun r => (mergeComponents djbhash overrideRes (addressed r.1)
      (fooSet 0) (fooSet 1) false none).map MergeResult.change) = .ok (.ok .modified) := by
    decide +kernel
  rw [ran] at names report
  have named (c : Addr) : ((addressed w).comps c).name = (fooComponent c).name := by
    obtain ⟨first, second⟩ := Prod.mk.inj (Except.ok.inj names)
    rw [addressed]
    dsimp only
    -- the sample has one component for each side of the merge
    cases decide (c = 1)
    · exact first
    · exact second
  have sound (a : Addr) : Sound djbhash (addressed w).comps (fooSet a) :=
    (insertAll_sound [a] (by intro _ _; rfl)).congr named
  obtain ⟨m, merged, effect⟩ := mergeComponents_spec (addressed_owns stands) (sound 0) (sound 1)
    (by decide) (by decide) (by decide) false none
  have changed := Except.ok.inj report
  dsimp only at changed
  rw [merged] at changed
  have change : m.change = .modified := Except.ok.inj changed
  have ok : m.change ≠ .error := by rw [change]; decide
  exact ⟨w, changes, m, ran, merged, ok, effect ok⟩

end CompSet

end Lcfg
